import AdaptiveMesh.Proofs.Tree.Valid
import AdaptiveMesh.Tree.Build

/-!
# Arrays that are trees

An array is checked entry by entry, each against the entries in front of it. A front that is a tree
stays one with the next entry exactly if that entry goes behind the last one and has its parent in
the front (`valid_front_succ_iff`), and this is what is checked, so the check accepts the valid
arrays and names the first entry behind which there is no tree.
-/

namespace AdaptiveMesh

open LocationCode

variable {D : Nat} {L : Type} [LocationCode D L]

namespace Tree

/-- The tree of the first `n` locations of a list. -/
def front (xs : List L) (n : Nat) : Tree L := ⟨(xs.take n).toArray⟩

/-- What is wrong with the entry at a position, behind a front that is a tree: the entry at the top
is not the root, the entry is the one before it, it goes before the one before it, or its parent is
not in the front. -/
inductive EntryFault (xs : List L) : Nat → TreeError → Prop
  | root (h : 0 < xs.length) : xs[0] ≠ root → EntryFault xs 0 (.missingParent 0)
  | duplicate {p : Nat} (h : p + 1 < xs.length) : xs[p] = xs[p + 1] →
      EntryFault xs (p + 1) (.notCompact (p + 1))
  | order {p : Nat} (h : p + 1 < xs.length) : compare xs[p + 1] xs[p] = .lt →
      EntryFault xs (p + 1) (.notSorted (p + 1))
  | orphan {p : Nat} (h : p + 1 < xs.length) : compare xs[p] xs[p + 1] = .lt →
      (∀ y ∈ xs.take (p + 1), LocationCode.parent? xs[p + 1] ≠ some y) →
      EntryFault xs (p + 1) (.missingParent (p + 1))

theorem valid_toArray_iff {xs : List L} : (⟨xs.toArray⟩ : Tree L).Valid ↔
    xs[0]? = some root ∧ (xs.Pairwise fun x y => compare x y = .lt) ∧
      ∀ x ∈ xs, ∀ y, LocationCode.parent? x = some y → y ∈ xs := by
  constructor
  · intro h
    exact ⟨by simpa using h.root_first, h.ascending, by simpa using h.closed⟩
  · rintro ⟨h₁, h₂, h₃⟩
    exact ⟨by simpa using h₁, h₂, by simpa using h₃⟩

variable [LawfulLocation L] {xs : List L} {n : Nat}

theorem compare_root_lt {x : L} (h : x ≠ root) : compare root x = .lt := by
  have hl : 0 < LocationCode.level x := Nat.pos_of_ne_zero fun h₀ => h (eq_root_iff.2 h₀)
  have hanc := isAncestorOf_above hl
  rw [eq_root_iff.2 (level_above (Nat.zero_le (LocationCode.level x)))] at hanc
  exact compare_of_isAncestorOf hanc

omit [LawfulLocation L] in
theorem not_valid_empty : ¬ (⟨#[]⟩ : Tree L).Valid := fun h => by
  simpa using h.root_first

theorem valid_front_one_iff (h : 0 < xs.length) : (front xs 1).Valid ↔ xs[0] = root := by
  have htake : xs.take 1 = [xs[0]] := by
    rw [List.take_succ_eq_append_getElem h, List.take_zero, List.nil_append]
  rw [front, htake, valid_toArray_iff]
  simp only [List.getElem?_cons_zero, Option.some.injEq, List.mem_singleton, forall_eq]
  refine ⟨fun h => h.1, fun h => ⟨h, List.pairwise_singleton _ _, fun y hy => ?_⟩⟩
  rw [h, parent?_eq_none_iff.2 level_root] at hy
  contradiction

/-- The step of the check: the next entry has to be behind the last one and to have its parent in
front. That it is behind all others follows, and that the others keep their parents. -/
theorem valid_front_succ_iff (h : n + 1 < xs.length) : (front xs (n + 2)).Valid ↔
    (front xs (n + 1)).Valid ∧ compare xs[n] xs[n + 1] = .lt ∧
      ∃ y ∈ xs.take (n + 1), LocationCode.parent? xs[n + 1] = some y := by
  have hlast : xs[n] ∈ xs.take (n + 1) := by
    rw [List.take_succ_eq_append_getElem (Nat.lt_of_succ_lt h)]
    exact List.mem_append_right _ (List.mem_singleton_self _)
  have hfirst : (xs.take (n + 1) ++ [xs[n + 1]])[0]? = (xs.take (n + 1))[0]? :=
    List.getElem?_append_left (by rw [List.length_take]; omega)
  rw [front, front, valid_toArray_iff, valid_toArray_iff,
    List.take_succ_eq_append_getElem (i := n + 1) h, hfirst, List.pairwise_append,
    List.forall_mem_append]
  simp only [List.pairwise_singleton, List.mem_singleton, forall_eq, true_and, List.mem_append]
  constructor
  · rintro ⟨hroot, ⟨hasc, hbehind⟩, hclosed, hparent⟩
    refine ⟨⟨hroot, hasc, fun x hx y hy => ?_⟩, hbehind _ hlast, ?_⟩
    · apply (hclosed x hx y hy).resolve_right
      rintro rfl
      exact Std.OrientedCmp.not_lt_of_lt (hbehind x hx)
        (compare_of_isAncestorOf (isAncestorOf_of_parent? hy))
    · -- the entry is not the root, which is already in front
      cases hp : LocationCode.parent? xs[n + 1] with
      | none =>
        have hx := eq_root_iff.2 (parent?_eq_none_iff.1 hp)
        have := hbehind root (List.mem_of_getElem? hroot)
        rw [hx, Std.ReflOrd.compare_self] at this
        contradiction
      | some y =>
        refine ⟨y, (hparent y hp).resolve_right fun he => ?_, rfl⟩
        have := isAncestorOf_of_parent? hp
        rw [he, isAncestorOf_irrefl] at this
        contradiction
  · rintro ⟨⟨hroot, hasc, hclosed⟩, hlt, y, hy, hp⟩
    refine ⟨hroot, ⟨hasc, fun x hx => ?_⟩, fun x hx z hz => Or.inl (hclosed x hx z hz), ?_⟩
    · rw [List.take_succ_eq_append_getElem (Nat.lt_of_succ_lt h)] at hx hasc
      rcases List.mem_append.1 hx with hx | hx
      · exact Std.TransCmp.lt_trans
          ((List.pairwise_append.1 hasc).2.2 x hx _ (List.mem_singleton_self _)) hlt
      · rwa [List.mem_singleton.1 hx]
    · intro z hz
      rw [hp] at hz
      exact Or.inl (Option.some.inj hz ▸ hy)

/-- In a front that is a tree the search finds exactly its entries. -/
theorem searchBetween_isSome_iff {x : L} (hn : n ≤ xs.toArray.size) (hfront : (front xs n).Valid) :
    (searchBetween xs.toArray x 0 n hn).isSome ↔ x ∈ xs.take n := by
  rw [List.mem_take_iff_getElem]
  constructor
  · intro h
    obtain ⟨i, hi⟩ := Option.isSome_iff_exists.1 h
    obtain ⟨⟨-, hlt⟩, hget⟩ := getElem_of_searchBetween hi
    exact ⟨i, Nat.lt_min.2 ⟨hlt, i.isLt⟩, by simpa using hget⟩
  · rintro ⟨i, hi, hget⟩
    obtain ⟨hin, hix⟩ := Nat.lt_min.1 hi
    refine searchBetween_isSome (k := ⟨i, hix⟩) (fun j k hjk hkn => ?_) (Nat.zero_le _) hin
      (by simpa using hget)
    have hjn : (j : Nat) < n := Nat.lt_trans hjk hkn
    have := List.pairwise_iff_getElem.1 (valid_toArray_iff.1 hfront).2.1 j k
      (by rw [List.length_take]; exact Nat.lt_min.2 ⟨hjn, j.isLt⟩)
      (by rw [List.length_take]; exact Nat.lt_min.2 ⟨hkn, k.isLt⟩) hjk
    simpa using this

/-! ## The check of one entry -/

omit [LawfulLocation L] in
theorem entryError?_zero (h : 0 < xs.length) : entryError? xs.toArray ⟨0, h⟩ =
    if isRoot xs[0] then none else some (.missingParent 0) := by
  rw [entryError?, if_pos rfl]
  rfl

omit [LawfulLocation L] in
theorem entryError?_succ (h : n + 1 < xs.length) : entryError? xs.toArray ⟨n + 1, h⟩ =
    if xs[n] = xs[n + 1] then some (.notCompact (n + 1))
    else if compare xs[n] xs[n + 1] = .gt then some (.notSorted (n + 1))
    else match LocationCode.parent? xs[n + 1] with
      | some parent =>
        if (searchBetween xs.toArray parent 0 (n + 1) (Nat.le_of_lt h)).isSome then none
        else some (.missingParent (n + 1))
      | none => some (.missingParent (n + 1)) := by
  rw [entryError?, if_neg (Nat.succ_ne_zero n)]
  rfl

theorem isRoot_iff {x : L} : isRoot x = true ↔ x = root := by
  rw [isRoot, beq_iff_eq, eq_root_iff]

theorem entryFault_of_entryError? {p : Fin xs.toArray.size} {e : TreeError}
    (hfront : p.val = 0 ∨ (front xs p).Valid) (h : entryError? xs.toArray p = some e) :
    EntryFault xs p e := by
  obtain ⟨p, hp : p < xs.length⟩ := p
  cases p with
  | zero =>
    rw [entryError?_zero] at h
    split at h
    · contradiction
    · next hroot =>
      rw [← Option.some.inj h]
      exact .root hp fun he => hroot (isRoot_iff.2 he)
  | succ p =>
    have hfront := hfront.resolve_left (Nat.succ_ne_zero p)
    rw [entryError?_succ] at h
    split at h
    · next heq =>
      rw [← Option.some.inj h]
      exact .duplicate hp heq
    next hne =>
    split at h
    · next hgt =>
      rw [← Option.some.inj h]
      exact .order hp (Std.OrientedCmp.gt_iff_lt.1 hgt)
    next hgt =>
    have hlt : compare xs[p] xs[p + 1] = .lt := by
      cases hc : compare xs[p] xs[p + 1] with
      | lt => rfl
      | eq => exact absurd (Std.LawfulEqOrd.eq_of_compare hc) hne
      | gt => exact absurd hc hgt
    split at h
    · next y hy =>
      split at h
      · contradiction
      · next hsearch =>
        rw [← Option.some.inj h]
        refine .orphan hp hlt fun z hz hyz => hsearch ?_
        obtain rfl := Option.some.inj (hy.symm.trans hyz)
        exact (searchBetween_isSome_iff (Nat.le_of_lt hp) hfront).2 hz
    · next hnone =>
      rw [← Option.some.inj h]
      refine .orphan hp hlt fun z _ hz => ?_
      rw [hnone] at hz
      contradiction

theorem entryError?_of_entryFault {p : Fin xs.toArray.size} {e : TreeError}
    (hfront : p.val = 0 ∨ (front xs p).Valid) (h : EntryFault xs p e) :
    entryError? xs.toArray p = some e := by
  obtain ⟨p, hp : p < xs.length⟩ := p
  cases h with
  | root _ hne => rw [entryError?_zero hp, if_neg fun h => hne (isRoot_iff.1 h)]
  | duplicate _ heq => rw [entryError?_succ hp, if_pos heq]
  | order _ hlt =>
    rw [entryError?_succ hp, if_neg (ne_of_compare_lt hlt).symm,
      if_pos (Std.OrientedCmp.gt_iff_lt.2 hlt)]
  | orphan _ hlt horphan =>
    have hfront := hfront.resolve_left (Nat.succ_ne_zero _)
    rw [entryError?_succ hp, if_neg (ne_of_compare_lt hlt), if_neg (by rw [hlt]; decide)]
    split
    · next y hy =>
      rw [if_neg fun hs => horphan y ?_ hy]
      exact (searchBetween_isSome_iff (Nat.le_of_lt hp) hfront).1 hs
    · rfl

theorem entryError?_eq_some_iff {p : Fin xs.toArray.size} {e : TreeError}
    (hfront : p.val = 0 ∨ (front xs p).Valid) :
    entryError? xs.toArray p = some e ↔ EntryFault xs p e :=
  ⟨entryFault_of_entryError? hfront, entryError?_of_entryFault hfront⟩

/-- An entry is passed exactly if the front with it is a tree. -/
theorem entryError?_eq_none_iff {p : Fin xs.toArray.size}
    (hfront : p.val = 0 ∨ (front xs p).Valid) :
    entryError? xs.toArray p = none ↔ (front xs (p + 1)).Valid := by
  obtain ⟨p, hp : p < xs.length⟩ := p
  cases p with
  | zero =>
    rw [entryError?_zero, valid_front_one_iff hp, ← isRoot_iff]
    simp
  | succ p =>
    have hvalid := hfront.resolve_left (Nat.succ_ne_zero p)
    rw [valid_front_succ_iff hp, and_iff_right hvalid]
    constructor
    · intro h
      have hno (e : TreeError) : ¬ EntryFault xs (p + 1) e := fun he => by
        have := (entryError?_eq_some_iff (p := ⟨p + 1, hp⟩) hfront).2 he
        rw [h] at this
        contradiction
      cases hc : compare xs[p] xs[p + 1] with
      | lt =>
        refine ⟨rfl, by_contra fun hy => hno _ (.orphan hp hc fun y hmem he => hy ⟨y, hmem, he⟩)⟩
      | eq => exact absurd (.duplicate hp (Std.LawfulEqOrd.eq_of_compare hc)) (hno _)
      | gt => exact absurd (.order hp (Std.OrientedCmp.gt_iff_lt.1 hc)) (hno _)
    · rintro ⟨hlt, y, hy, hparent⟩
      cases he : entryError? xs.toArray ⟨p + 1, hp⟩ with
      | none => rfl
      | some e =>
        cases (entryError?_eq_some_iff hfront).1 he with
        | duplicate _ heq => exact absurd heq (ne_of_compare_lt hlt)
        | order _ hgt => exact absurd hgt (Std.OrientedCmp.not_lt_of_lt hlt)
        | orphan _ _ horphan => exact absurd hparent (horphan y hy)

/-! ## The check of an array -/

/-- The entries of a front are passed exactly if the front is a tree. -/
theorem forall_entryError?_eq_none_iff (hn : n < xs.toArray.size) :
    (∀ q : Fin xs.toArray.size, q.val < n + 1 → entryError? xs.toArray q = none) ↔
      (front xs (n + 1)).Valid := by
  induction n with
  | zero =>
    rw [← entryError?_eq_none_iff (p := ⟨0, hn⟩) (Or.inl rfl)]
    refine ⟨fun h => h _ Nat.one_pos, fun h q hq => ?_⟩
    obtain rfl : q = ⟨0, hn⟩ := Fin.ext (Nat.lt_one_iff.1 hq)
    exact h
  | succ n ih =>
    have ih := ih (Nat.lt_of_succ_lt hn)
    constructor
    · intro h
      have hfront := ih.1 fun q hq => h q (Nat.lt_succ_of_lt hq)
      exact (entryError?_eq_none_iff (p := ⟨n + 1, hn⟩) (Or.inr hfront)).1
        (h _ (Nat.lt_succ_self _))
    · intro h q hq
      have hfront := ((valid_front_succ_iff hn).1 h).1
      rcases Nat.lt_succ_iff_lt_or_eq.1 hq with hlt | heq
      · exact ih.2 hfront q hlt
      · obtain rfl : q = ⟨n + 1, hn⟩ := Fin.ext heq
        exact (entryError?_eq_none_iff (Or.inr hfront)).2 h

omit [LawfulLocation L] in
theorem findSome?_finRange_eq_some_iff {k : Nat} {f : Fin k → Option TreeError} {e : TreeError} :
    (List.finRange k).findSome? f = some e ↔ ∃ p, f p = some e ∧ ∀ q < p, f q = none := by
  constructor
  · intro h
    obtain ⟨before, p, after, hlist, hp, hbefore⟩ := List.findSome?_eq_some_iff.1 h
    refine ⟨p, hp, fun q hq => hbefore q ?_⟩
    have hsorted := List.pairwise_lt_finRange k
    have hq' := List.mem_finRange q
    rw [hlist] at hsorted hq'
    rcases List.mem_append.1 hq' with hmem | hmem
    · exact hmem
    · have hsorted := (List.pairwise_append.1 hsorted).2.1
      rcases List.mem_cons.1 hmem with rfl | hmem
      · exact absurd hq (lt_irrefl _)
      · exact absurd hq (lt_asymm ((List.pairwise_cons.1 hsorted).1 q hmem))
  · rintro ⟨p, hp, hbefore⟩
    obtain ⟨before, after, hlist⟩ := List.append_of_mem (List.mem_finRange p)
    refine List.findSome?_eq_some_iff.2 ⟨before, p, after, hlist, hp, fun q hq => hbefore q ?_⟩
    have hsorted := List.pairwise_lt_finRange k
    rw [hlist] at hsorted
    exact (List.pairwise_append.1 hsorted).2.2 q hq p List.mem_cons_self

omit [LawfulLocation L] in
theorem ofSorted_eq_ok_iff_findSome? {t : Tree L} (hne : xs ≠ []) : ofSorted xs.toArray = .ok t ↔
    t = ⟨xs.toArray⟩ ∧
      (List.finRange xs.toArray.size).findSome? (entryError? xs.toArray) = none := by
  rw [ofSorted, if_neg (by simpa using hne)]
  split
  · next h => simp [h]
  · next h => simp [h, eq_comm]

omit [LawfulLocation L] in
theorem ofSorted_eq_error_iff_findSome? {e : TreeError} (hne : xs ≠ []) :
    ofSorted xs.toArray = .error e ↔
      (List.finRange xs.toArray.size).findSome? (entryError? xs.toArray) = some e := by
  rw [ofSorted, if_neg (by simpa using hne)]
  split
  · next h => simp [h]
  · next h => simp [h]

/-- The valid arrays are accepted, and taken as they are. -/
theorem ofSorted_eq_ok_iff {t : Tree L} :
    ofSorted xs.toArray = .ok t ↔ t = ⟨xs.toArray⟩ ∧ t.Valid := by
  cases hlen : xs.length with
  | zero =>
    obtain rfl := List.length_eq_zero_iff.1 hlen
    refine ⟨fun h => by contradiction, ?_⟩
    rintro ⟨rfl, h⟩
    exact absurd h not_valid_empty
  | succ n =>
    have hne : xs ≠ [] := List.ne_nil_of_length_eq_add_one hlen
    have hall : front xs (n + 1) = ⟨xs.toArray⟩ := by rw [front, ← hlen, List.take_length]
    have hn : n < xs.toArray.size := by simp [hlen]
    have hrun := forall_entryError?_eq_none_iff hn
    rw [ofSorted_eq_ok_iff_findSome? hne, List.findSome?_eq_none_iff]
    refine and_congr_right fun ht => ?_
    rw [ht, ← hall, ← hrun]
    refine ⟨fun h q _ => h q (List.mem_finRange q), fun h q _ => h q ?_⟩
    rw [← hlen]
    exact q.isLt

/-- An array is refused for being empty or for the first entry that is no part of a tree. -/
theorem ofSorted_eq_error_iff {e : TreeError} : ofSorted xs.toArray = .error e ↔
    (xs = [] ∧ e = .empty) ∨ ∃ p, (p = 0 ∨ (front xs p).Valid) ∧ EntryFault xs p e := by
  by_cases hempty : xs = []
  · subst hempty
    have hnone (p : Nat) : ¬ EntryFault ([] : List L) p e := fun h => by cases h <;> contradiction
    simp only [hnone, and_false, exists_false, or_false, true_and]
    change Except.error TreeError.empty = .error e ↔ _
    rw [Except.error.injEq, eq_comm]
  · rw [ofSorted_eq_error_iff_findSome? hempty, findSome?_finRange_eq_some_iff,
      or_iff_right fun h => hempty h.1]
    constructor
    · rintro ⟨⟨p, hp⟩, he, hbefore⟩
      have hfront : p = 0 ∨ (front xs p).Valid := by
        cases p with
        | zero => exact Or.inl rfl
        | succ p =>
          right
          exact (forall_entryError?_eq_none_iff (Nat.lt_of_succ_lt hp)).1 fun q hq => hbefore q hq
      exact ⟨p, hfront, (entryError?_eq_some_iff (p := ⟨p, hp⟩) hfront).1 he⟩
    · rintro ⟨p, hfront, he⟩
      have hp : p < xs.toArray.size := by cases he <;> assumption
      refine ⟨⟨p, hp⟩, (entryError?_eq_some_iff hfront).2 he, fun q hq => ?_⟩
      have hq : q.val < p := hq
      cases p with
      | zero => omega
      | succ p =>
        have hvalid := hfront.resolve_left (Nat.succ_ne_zero p)
        exact (forall_entryError?_eq_none_iff (Nat.lt_of_succ_lt hp)).2 hvalid q hq

/-! ## The first fault -/

theorem valid_front_of_le {m : Nat} (hn : n < xs.length) (h : (front xs (n + 1)).Valid)
    (hm : m ≤ n) : (front xs (m + 1)).Valid := by
  have hn : n < xs.toArray.size := hn
  have hpassed := (forall_entryError?_eq_none_iff hn).2 h
  exact (forall_entryError?_eq_none_iff (Nat.lt_of_le_of_lt hm hn)).1 fun q hq =>
    hpassed q (Nat.lt_of_lt_of_le hq (Nat.succ_le_succ hm))

/-- Positions behind which the array is no tree any more. -/
def faulty (xs : List L) : Set Nat := {p | p < xs.length ∧ ¬ (front xs (p + 1)).Valid}

theorem isLeast_faulty_iff {p : Nat} : IsLeast (faulty xs) p ↔
    p ∈ faulty xs ∧ (p = 0 ∨ (front xs p).Valid) := by
  refine and_congr_right fun ⟨hp, _⟩ => ⟨fun hleast => ?_, fun hfront q ⟨_, hq⟩ => ?_⟩
  · cases p with
    | zero => exact Or.inl rfl
    | succ p =>
      right
      by_contra hnot
      exact Nat.not_succ_le_self p (hleast ⟨Nat.lt_of_succ_lt hp, hnot⟩)
  · by_contra hlt
    cases p with
    | zero => exact hlt (Nat.zero_le q)
    | succ p =>
      have hvalid := hfront.resolve_left (Nat.succ_ne_zero p)
      exact hq (valid_front_of_le (Nat.lt_of_succ_lt hp) hvalid
        (Nat.le_of_lt_succ (Nat.lt_of_not_le hlt)))

theorem mem_faulty_of_entryFault {p : Nat} {e : TreeError} (hfront : p = 0 ∨ (front xs p).Valid)
    (h : EntryFault xs p e) : p ∈ faulty xs := by
  have hp : p < xs.length := by cases h <;> assumption
  refine ⟨hp, fun hvalid => ?_⟩
  have hnone := (entryError?_eq_none_iff (p := ⟨p, hp⟩) hfront).2 hvalid
  rw [(entryError?_eq_some_iff (p := ⟨p, hp⟩) hfront).2 h] at hnone
  contradiction

/-- An array is accepted, and taken as it is, exactly if it begins with the root, ascends in
depth-first order and holds the parent of every other entry. The empty array is refused as such,
and any other for the first position behind which it is no tree, with what is wrong there. -/
theorem ofSorted_finds_first_fault (xs : List L) :
    (∀ n, (front xs n).Valid ↔ (xs.take n)[0]? = some root ∧
      ((xs.take n).Pairwise fun x y => depthFirstCompare x y = .lt) ∧
      ∀ x ∈ xs.take n, x ≠ root → ∃ y ∈ xs.take n, LocationCode.parent? x = some y) ∧
    (∀ t, ofSorted xs.toArray = .ok t ↔ t = ⟨xs.toArray⟩ ∧ (front xs xs.length).Valid) ∧
    (ofSorted xs.toArray = .error .empty ↔ xs = []) ∧
    (xs ≠ [] → ∀ e, ofSorted xs.toArray = .error e ↔
      ∃ p, IsLeast (faulty xs) p ∧ EntryFault xs p e) := by
  have hleast (e : TreeError) : (∃ p, (p = 0 ∨ (front xs p).Valid) ∧ EntryFault xs p e) ↔
      ∃ p, IsLeast (faulty xs) p ∧ EntryFault xs p e := by
    refine exists_congr fun p => and_congr_left fun hfault => ?_
    rw [isLeast_faulty_iff]
    exact ⟨fun hfront => ⟨mem_faulty_of_entryFault hfront hfault, hfront⟩, And.right⟩
  refine ⟨fun n => ?_, fun t => ?_, ?_, fun hne e => ?_⟩
  · rw [front, valid_toArray_iff]
    simp only [LawfulLocation.compare_eq]
    refine and_congr_right fun _ => and_congr_right fun _ => ⟨fun h x hx hne => ?_, ?_⟩
    · cases hy : LocationCode.parent? x with
      | none => exact absurd (eq_root_iff.2 (parent?_eq_none_iff.1 hy)) hne
      | some y => exact ⟨y, h x hx y hy, rfl⟩
    · intro h x hx y hy
      have hne : x ≠ root := by
        rintro rfl
        rw [parent?_eq_none_iff.2 level_root] at hy
        contradiction
      obtain ⟨z, hz, hparent⟩ := h x hx hne
      exact Option.some.inj (hparent.symm.trans hy) ▸ hz
  · rw [ofSorted_eq_ok_iff, front, List.take_length]
    exact and_congr_right fun ht => ht ▸ Iff.rfl
  · rw [ofSorted_eq_error_iff, and_iff_left rfl, or_iff_left]
    rintro ⟨p, -, hfault⟩
    cases hfault
  · rw [ofSorted_eq_error_iff, or_iff_right fun h => hne h.1, hleast]

/-- A child without its parent, in front of a location that is out of order. -/
theorem ofSorted_finds_first_fault_orphan :
    IsLeast (faulty [root, GridLocation.square 1 0 0, .square 2 3 1, .square 1 0 0]) 2 ∧
      ofSorted #[root, GridLocation.square 1 0 0, .square 2 3 1, .square 1 0 0] =
        .error (.missingParent 2) := by
  have herror : ofSorted #[root, GridLocation.square 1 0 0, .square 2 3 1, .square 1 0 0] =
      .error (.missingParent 2) := by
    decide +kernel
  obtain ⟨-, -, -, hfaults⟩ := ofSorted_finds_first_fault
    [root, GridLocation.square 1 0 0, .square 2 3 1, .square 1 0 0]
  obtain ⟨p, hp, hfault⟩ := (hfaults (List.cons_ne_nil _ _) _).1 herror
  cases hfault with
  | orphan _ _ _ => exact ⟨hp, herror⟩

end Tree

end AdaptiveMesh
