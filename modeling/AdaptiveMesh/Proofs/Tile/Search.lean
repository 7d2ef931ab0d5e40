import AdaptiveMesh.Proofs.Tile.Cells
import AdaptiveMesh.Tile.Search

/-!
# Searches for the closest cell

A shell has the cells of the tile at one Chebyshev distance from the start, each once, wherever the
tile cuts it off (`exists_shell`). So a search meets the cells at distance 1, then those at distance
2 and so on, until a shell has a match, and in that shell the match at the least Euclidean distance
is kept with a note whether another one is as near.
-/

namespace AdaptiveMesh

namespace Cell

variable {D : Nat}

/-! ## Distances -/

/-- The exact square of the Euclidean distance. -/
def squareSum (a b : Cell D) : Nat :=
  ((List.finRange D).map fun d => gap (a.get d) (b.get d) ^ 2).sum

theorem foldlM_square {a b : Cell D} {sum : Nat} (hsum : sum < Word.bound) (axes : List (Fin D)) :
    axes.foldlM (fun sum d => do Word.add sum (← Word.pow (gap (a.get d) (b.get d)) 2)) sum =
      Word.checked (sum + (axes.map fun d => gap (a.get d) (b.get d) ^ 2).sum) := by
  induction axes generalizing sum with
  | nil => exact (Word.checked_of_lt hsum).symm
  | cons d axes ih =>
    rw [List.foldlM_cons, Word.pow_two_eq_checked, List.map_cons, List.sum_cons]
    generalize gap (a.get d) (b.get d) ^ 2 = square
    -- once a sum leaves the word so does every later one
    rcases Nat.lt_or_ge (sum + square) Word.bound with hlt | hge
    · rw [Word.checked_of_lt (by omega), ok_bind, Word.add_eq_ok hlt, ok_bind, ih hlt, Nat.add_assoc]
    · have hover (n : Nat) (hn : Word.bound ≤ n) : Word.checked n = .error .overflow :=
        if_neg (Nat.not_lt.2 hn)
      rw [hover (sum + (square + _)) (by omega)]
      rcases Nat.lt_or_ge square Word.bound with hsquare | hsquare
      · rw [Word.checked_of_lt hsquare, ok_bind, Word.add, hover _ hge]
        rfl
      · rw [hover _ hsquare]
        rfl

theorem distanceSquared_eq (a b : Cell D) :
    a.distanceSquared b = Word.checked (a.squareSum b) := by
  rw [distanceSquared, foldlM_square (by decide), Nat.zero_add]
  rfl

theorem chebyshev_le_iff {a b : Cell D} {r : Nat} :
    a.chebyshev b ≤ r ↔ ∀ d : Fin D, gap (a.get d) (b.get d) ≤ r := by
  rw [chebyshev, foldl_max_le_iff]
  exact ⟨fun h d => h.2 d (List.mem_finRange d), fun h => ⟨Nat.zero_le r, fun d _ => h d⟩⟩

theorem gap_le_chebyshev (a b : Cell D) (d : Fin D) :
    gap (a.get d) (b.get d) ≤ a.chebyshev b := chebyshev_le_iff.1 le_rfl d

/-- Along some axis two cells are as far apart as they are at all. -/
theorem exists_gap_eq_chebyshev {a b : Cell D} (h : 0 < a.chebyshev b) :
    ∃ d : Fin D, gap (a.get d) (b.get d) = a.chebyshev b := by
  by_contra hno
  rw [not_exists] at hno
  have : a.chebyshev b ≤ a.chebyshev b - 1 := chebyshev_le_iff.2 fun d => by
    have := gap_le_chebyshev a b d
    have := hno d
    omega
  omega

end Cell

namespace TileLayout

variable {D : Nat} {t : TileLayout D} {start : Cell D}

/-- No squared distance between two cells of the tile leaves the word. -/
def DistancesFit (t : TileLayout D) : Prop :=
  ∀ a b, t.Contains a → t.Contains b → ∃ n, a.distanceSquared b = .ok n

theorem DistancesFit.distanceSquared (h : t.DistancesFit) {a b : Cell D} (ha : t.Contains a)
    (hb : t.Contains b) : a.distanceSquared b = .ok (a.squareSum b) := by
  obtain ⟨n, hn⟩ := h a b ha hb
  rw [hn]
  rw [Cell.distanceSquared_eq, Word.checked_eq_ok_iff] at hn
  rw [hn.2]

/-- Distances fit if the one between opposite corners does. -/
theorem distancesFit_iff : t.DistancesFit ↔ D * (t.extent - 1) ^ 2 < Word.bound := by
  have hone := t.one_lt_extent
  have hsum (a b : Cell D) : a.squareSum b = ∑ d : Fin D, Cell.gap (a.get d) (b.get d) ^ 2 := by
    rw [Cell.squareSum, Fin.sum_univ_def]
  constructor
  · intro h
    obtain ⟨n, hn⟩ := h (Vector.replicate D 0) (Vector.replicate D (t.extent - 1))
      (fun d => by simp; omega) (fun d => by simp; omega)
    rw [Cell.distanceSquared_eq, Word.checked_eq_ok_iff, hsum] at hn
    simpa [Cell.gap] using hn.1
  · intro h a b ha hb
    refine ⟨_, (Cell.distanceSquared_eq a b).trans (Word.checked_of_lt ?_)⟩
    refine Nat.lt_of_le_of_lt ?_ h
    rw [hsum]
    refine (Finset.sum_le_card_nsmul _ _ ((t.extent - 1) ^ 2) fun d _ =>
      Nat.pow_le_pow_left ?_ 2).trans (by simp)
    have := ha d
    have := hb d
    unfold Cell.gap
    omega

theorem DistancesFit.spans [Dimension D] (h : t.DistancesFit) : t.Spans := by
  have hpos := Dimension.pos (D := D)
  have hfit := distancesFit_iff.1 h
  have hone := t.one_lt_extent
  unfold Spans
  by_contra hlarge
  have hle : (2 ^ (Word.width - 1) - 1) ^ 2 ≤ D * (t.extent - 1) ^ 2 := calc
    (2 ^ (Word.width - 1) - 1) ^ 2 ≤ (t.extent - 1) ^ 2 := Nat.pow_le_pow_left (by omega) 2
    _ ≤ D * (t.extent - 1) ^ 2 := Nat.le_mul_of_pos_left _ hpos
  exact absurd (Nat.lt_of_le_of_lt hle hfit) (by decide)

/-! ## Shells -/

theorem chebyshev_lt_extent {c : Cell D} (hc : t.Contains c) (hs : t.Contains start) :
    c.chebyshev start < t.extent := by
  have hone := t.one_lt_extent
  refine Nat.lt_of_le_of_lt (Cell.chebyshev_le_iff.2 fun d => ?_) (Nat.sub_one_lt_of_lt hone)
  have := hc d
  have := hs d
  unfold Cell.gap
  omega

/-- The lower corner of the box that reaches `k` steps from a cell. -/
def lowerReach (start : Cell D) (k : Nat) : Cell D := start.map (· - k)

/-- The upper corner of the box that reaches `k` steps from a cell, cut off at the tile. -/
def upperReach (t : TileLayout D) (start : Cell D) (k : Nat) : Cell D :=
  start.map fun x => min (x + k) (t.extent - 1)

theorem get_lowerReach (start : Cell D) (k : Nat) (d : Fin D) :
    (lowerReach start k).get d = start.get d - k := by
  simp [lowerReach]

theorem get_upperReach (t : TileLayout D) (start : Cell D) (k : Nat) (d : Fin D) :
    (t.upperReach start k).get d = min (start.get d + k) (t.extent - 1) := by
  simp [upperReach]

/-- The sides of the box around the start lie apart however the tile cuts it, as the tile has three
cells or more along every axis. -/
theorem Spans.shell_eq (h : t.Spans) (hs : t.Contains start) {k : Nat} (hk : 0 < k)
    (hlt : k < t.extent) : t.shell start k =
      .ok (((boxCells (lowerReach start k) (t.upperReach start k)).filter fun c =>
        NearBoundary (lowerReach start k) (t.upperReach start k) 0 c).filter fun c =>
          c.chebyshev start = k) := by
  have hextent : t.extent = t.internalCells + 2 * t.haloLayers := rfl
  have hinternal := t.internalCells_pos
  have hhalo := t.haloLayers_pos
  have hbound := Word.bound_eq
  have hspan : t.extent < 2 ^ (Word.width - 1) := h
  have hupper : (start.mapM fun x => do return min (← Word.add x k) (t.extent - 1)) =
      (.ok (t.upperReach start k) : Except Fault (Cell D)) := by
    refine vector_mapM_eq_ok_map fun x hx => ?_
    have : x < t.extent := Contains.forall_mem hs x hx
    rw [Word.add_eq_ok (by omega)]
    rfl
  have hring : t.ring (lowerReach start k) (t.upperReach start k) 0 = .ok _ :=
    h.ring_eq_filter (fun d => by have := hs d; rw [get_lowerReach]; omega)
      (fun d => by rw [get_upperReach]; omega)
      fun d => by have := hs d; rw [get_lowerReach, get_upperReach]; omega
  rw [shell, h.lastCell, ok_bind, hupper, ok_bind, ← lowerReach, hring]
  rfl

/-- A cell at the distance of a shell is on the boundary of the box that reaches so far. -/
theorem Contains.onBoundary {c : Cell D} {k : Nat} (hcontains : t.Contains c) (hk : 0 < k)
    (hc : c.chebyshev start = k) : c ∈ boxCells (lowerReach start k) (t.upperReach start k) ∧
      NearBoundary (lowerReach start k) (t.upperReach start k) 0 c := by
  refine ⟨mem_boxCells.2 fun d => ?_, ?_⟩
  · have hnear := Cell.gap_le_chebyshev c start d
    have := hcontains d
    unfold Cell.gap at hnear
    rw [get_lowerReach, get_upperReach]
    omega
  · -- the axis along which the cell is farthest off
    obtain ⟨d, hd⟩ := Cell.exists_gap_eq_chebyshev (hc ▸ hk)
    refine ⟨d, ?_⟩
    have := hcontains d
    rw [get_lowerReach, get_upperReach]
    unfold Cell.gap at hd
    omega

/-- A shell has the cells at its distance, each once. -/
theorem Spans.exists_shell (h : t.Spans) (hs : t.Contains start) {k : Nat} (hk : 0 < k)
    (hlt : k < t.extent) : ∃ cells, t.shell start k = .ok cells ∧ cells.Nodup ∧
      ∀ c, c ∈ cells ↔ t.Contains c ∧ c.chebyshev start = k := by
  refine ⟨_, h.shell_eq hs hk hlt, ((nodup_boxCells _ _).filter _).filter _, fun c => ?_⟩
  rw [List.mem_filter, List.mem_filter, decide_eq_true_iff, decide_eq_true_iff]
  refine and_congr_left fun hc => ⟨?_, fun hcontains => hcontains.onBoundary hk hc⟩
  rintro ⟨hbox, -⟩ d
  have hone := t.one_lt_extent
  have := (mem_boxCells.1 hbox d).2
  rw [get_upperReach] at this
  omega

/-! ## The nearest match -/

/-- What is kept of some matches: one at the least distance, that distance, and whether another one
is as near. -/
structure IsNearestOf (start : Cell D) (found : List (Cell D)) (n : Nearest D) : Prop where
  mem : n.cell ∈ found
  distance_eq : n.distance = start.squareSum n.cell
  least : ∀ c ∈ found, n.distance ≤ start.squareSum c
  tied_iff : n.tied = true ↔ ∃ c ∈ found, c ≠ n.cell ∧ start.squareSum c = n.distance

theorem isNearestOf_singleton (start c : Cell D) :
    IsNearestOf start [c] ⟨c, start.squareSum c, false⟩ where
  mem := List.mem_singleton_self c
  distance_eq := rfl
  least c' hc' := (congrArg start.squareSum (List.mem_singleton.1 hc')).ge
  tied_iff := by simp

/-- One more match is nearer, as near or farther. -/
theorem IsNearestOf.exists_update {found : List (Cell D)} {n : Nearest D} {c : Cell D}
    (h : IsNearestOf start found n) (hc : c ∉ found) :
    ∃ n', Nearest.update (some n) c (start.squareSum c) = some n' ∧
      IsNearestOf start (found ++ [c]) n' := by
  have hne : c ≠ n.cell := fun heq => hc (heq ▸ h.mem)
  have hmem {e : Cell D} : e ∈ found ++ [c] ↔ e ∈ found ∨ e = c := by simp
  unfold Nearest.update
  dsimp only
  rcases Nat.lt_trichotomy (start.squareSum c) n.distance with hlt | heq | hgt
  · refine ⟨_, by rw [if_neg hlt.ne, if_neg (Nat.not_lt.2 hlt.le)], hmem.2 (Or.inr rfl), rfl, ?_, ?_⟩
    · rintro e he
      rcases hmem.1 he with he | rfl
      · exact hlt.le.trans (h.least e he)
      · exact le_rfl
    · refine iff_of_false Bool.false_ne_true ?_
      rintro ⟨e, he, hec, heq⟩
      have heq : start.squareSum e = start.squareSum c := heq
      have := h.least e ((hmem.1 he).resolve_right hec)
      omega
  · refine ⟨{ n with tied := true }, by rw [if_pos heq], hmem.2 (Or.inl h.mem), h.distance_eq, ?_, ?_⟩
    · rintro e he
      rcases hmem.1 he with he | rfl
      · exact h.least e he
      · exact heq.ge
    · exact iff_of_true rfl ⟨c, hmem.2 (Or.inr rfl), hne, heq⟩
  · refine ⟨_, by rw [if_neg hgt.ne', if_pos hgt], hmem.2 (Or.inl h.mem), h.distance_eq, ?_, ?_⟩
    · rintro e he
      rcases hmem.1 he with he | rfl
      · exact h.least e he
      · exact hgt.le
    · rw [h.tied_iff]
      constructor
      · rintro ⟨e, he, hne, heq⟩
        exact ⟨e, hmem.2 (Or.inl he), hne, heq⟩
      · rintro ⟨e, he, hne, heq⟩
        rcases hmem.1 he with he | rfl
        · exact ⟨e, he, hne, heq⟩
        · omega

/-- The nearest of some matches, which are looked at in order. -/
def nearestOf (start : Cell D) (found : List (Cell D)) : Option (Nearest D) :=
  found.foldl (fun nearest c => Nearest.update nearest c (start.squareSum c)) none

theorem nearestOf_nil (start : Cell D) : nearestOf start [] = none := rfl

theorem exists_nearestOf {found : List (Cell D)} (hne : found ≠ []) (hnodup : found.Nodup) :
    ∃ n, nearestOf start found = some n ∧ IsNearestOf start found n := by
  induction found using List.reverseRecOn with
  | nil => contradiction
  | append_singleton found c ih =>
    obtain ⟨hfound, -, hc⟩ := List.nodup_append.1 hnodup
    have hc : c ∉ found := fun h => hc c h c (List.mem_singleton_self c) rfl
    rw [nearestOf, List.foldl_append]
    change ∃ n, Nearest.update (nearestOf start found) c (start.squareSum c) = some n ∧ _
    by_cases hempty : found = []
    · subst hempty
      exact ⟨_, rfl, isNearestOf_singleton start c⟩
    · obtain ⟨n, hn, hnearest⟩ := ih hempty hfound
      rw [hn]
      exact hnearest.exists_update hc

/-! ## Runs -/

/-- A test that does nothing but note the cells it is asked about. -/
def noted (p : Cell D → Bool) (c : Cell D) : StateM (List (Cell D)) Bool := do
  modify (· ++ [c])
  return p c

/-- How a run ends, and the cells that have then been asked about. -/
def observe {α : Type} (run : ExceptT Fault (StateM (List (Cell D))) α) (calls : List (Cell D)) :
    Except Fault α × List (Cell D) :=
  run.run.run calls

section Observe

variable {α β : Type} {p : Cell D → Bool} {calls calls' : List (Cell D)}

theorem observe_noted_bind (c : Cell D) (f : Bool → ExceptT Fault (StateM (List (Cell D))) β) :
    observe (liftM (noted p c) >>= f) calls = observe (f (p c)) (calls ++ [c]) := rfl

theorem observe_ok_bind {x : Except Fault α} {a : α} (h : x = .ok a)
    (f : α → ExceptT Fault (StateM (List (Cell D))) β) :
    observe (liftM x >>= f) calls = observe (f a) calls := by
  rw [h]
  rfl

theorem observe_bind {run : ExceptT Fault (StateM (List (Cell D))) α} {a : α}
    (h : observe run calls = (.ok a, calls')) (f : α → ExceptT Fault (StateM (List (Cell D))) β) :
    observe (run >>= f) calls = observe (f a) calls' := by
  unfold observe at h ⊢
  rw [ExceptT.run_bind, StateT.run_bind]
  change (do let ended ← run.run.run calls; _) = _
  rw [h]
  rfl

end Observe

theorem observe_nearestAmong {p : Cell D → Bool} {cells : List (Cell D)}
    (hfit : ∀ c ∈ cells, start.distanceSquared c = .ok (start.squareSum c))
    (calls : List (Cell D)) : observe (nearestAmong start (noted p) cells) calls =
      (.ok (nearestOf start (cells.filter p)), calls ++ cells) := by
  unfold nearestAmong nearestOf
  generalize (none : Option (Nearest D)) = nearest
  induction cells generalizing nearest calls with
  | nil =>
    rw [List.append_nil]
    rfl
  | cons c cells ih =>
    have hstep : observe (do
        if ← liftM (noted p c) then
          return Nearest.update nearest c (← liftM (start.distanceSquared c))
        else return nearest) calls = (.ok (if p c then
          Nearest.update nearest c (start.squareSum c) else nearest), calls ++ [c]) := by
      rw [observe_noted_bind]
      split
      · rw [observe_ok_bind (hfit c List.mem_cons_self)]
        rfl
      · rfl
    rw [List.foldlM_cons, observe_bind hstep, ih fun e he => hfit e (List.mem_cons_of_mem c he)]
    rw [List.append_assoc, List.singleton_append, List.filter_cons]
    split <;> rfl

/-! ## Searches -/

/-- The cell passes a test and is `r` steps from the start. -/
def MatchesAt (t : TileLayout D) (start : Cell D) (p : Cell D → Bool) (r : Nat) (c : Cell D) :
    Prop :=
  t.Contains c ∧ c.chebyshev start = r ∧ p c = true

/-- No match `r` steps from the start is nearer than this one. -/
def ClosestAt (t : TileLayout D) (start : Cell D) (p : Cell D → Bool) (r : Nat) (c : Cell D) :
    Prop :=
  t.MatchesAt start p r c ∧ ∀ c', t.MatchesAt start p r c' → start.squareSum c ≤ start.squareSum c'

/-- What a search over distances up to `most` ends with, and the distance up to which it has to
look for that. -/
inductive Finds (t : TileLayout D) (start : Cell D) (p : Cell D → Bool) (most : Nat) :
    Except Fault (Option (Cell D)) → (reach : Nat) → Prop
  /-- Nothing matches. -/
  | nothing : (∀ q, 0 < q → q ≤ most → ∀ c, ¬ t.MatchesAt start p q c) →
      Finds t start p most (.ok none) most
  /-- At the least distance with a match exactly one match is nearest. -/
  | closest {r : Nat} {c : Cell D} : 0 < r → r ≤ most →
      (∀ q, 0 < q → q < r → ∀ c, ¬ t.MatchesAt start p q c) → t.ClosestAt start p r c →
      (∀ c', t.ClosestAt start p r c' → c' = c) → Finds t start p most (.ok (some c)) r
  /-- At the least distance with a match several matches are nearest. -/
  | tie {r : Nat} {c c' : Cell D} : 0 < r → r ≤ most →
      (∀ q, 0 < q → q < r → ∀ c, ¬ t.MatchesAt start p q c) → t.ClosestAt start p r c →
      t.ClosestAt start p r c' → c' ≠ c →
      Finds t start p most (.error (.closestTied start.toList c.toList)) r

/-- Exactly the cells up to some distance from the start have been asked about, each once and the
nearer ones first. -/
structure Visits (t : TileLayout D) (start : Cell D) (reach : Nat) (calls : List (Cell D)) :
    Prop where
  nodup : calls.Nodup
  mem_iff (c : Cell D) :
    c ∈ calls ↔ t.Contains c ∧ 0 < c.chebyshev start ∧ c.chebyshev start ≤ reach
  outwards : calls.Pairwise fun c c' => c.chebyshev start ≤ c'.chebyshev start

theorem visits_nil (t : TileLayout D) (start : Cell D) : t.Visits start 0 [] where
  nodup := List.nodup_nil
  mem_iff c := iff_of_false List.not_mem_nil fun ⟨_, hpos, hle⟩ => by omega
  outwards := List.Pairwise.nil

theorem Visits.append {k : Nat} {calls cells : List (Cell D)} (h : t.Visits start k calls)
    (hnodup : cells.Nodup) (hmem : ∀ c, c ∈ cells ↔ t.Contains c ∧ c.chebyshev start = k + 1) :
    t.Visits start (k + 1) (calls ++ cells) where
  nodup := by
    refine h.nodup.append hnodup fun c hc hc' => ?_
    have := ((h.mem_iff c).1 hc).2.2
    have := ((hmem c).1 hc').2
    omega
  mem_iff c := by
    rw [List.mem_append, h.mem_iff, hmem, ← and_or_left]
    refine and_congr_right fun _ => ?_
    omega
  outwards := by
    refine List.pairwise_append.2 ⟨h.outwards, ?_, fun c hc c' hc' => ?_⟩
    · refine List.pairwise_of_forall_mem_list fun c hc c' hc' => ?_
      rw [((hmem c).1 hc).2, ((hmem c').1 hc').2]
    · have := ((h.mem_iff c).1 hc).2.2
      have := ((hmem c').1 hc').2
      omega

/-- The nearest of the matches at one distance is closest there. -/
theorem closestAt_iff {p : Cell D → Bool} {r : Nat} {cells : List (Cell D)}
    (hmem : ∀ c, c ∈ cells ↔ t.Contains c ∧ c.chebyshev start = r) {n : Nearest D}
    (hn : IsNearestOf start (cells.filter p) n) {c : Cell D} : t.ClosestAt start p r c ↔
      c ∈ cells.filter p ∧ start.squareSum c = n.distance := by
  have hmatches (c : Cell D) : t.MatchesAt start p r c ↔ c ∈ cells.filter p := by
    rw [List.mem_filter, hmem, MatchesAt, and_assoc]
  rw [ClosestAt, hmatches]
  refine and_congr_right fun hc => ?_
  constructor
  · intro h
    have := h n.cell ((hmatches _).2 hn.mem)
    have := hn.least c hc
    rw [hn.distance_eq] at *
    omega
  · intro h c' hc'
    rw [h]
    exact hn.least c' ((hmatches c').1 hc')

/-- The first shell with a match decides by its nearest one. -/
theorem finds_of_isNearestOf {p : Cell D → Bool} {most r : Nat} {cells : List (Cell D)}
    (hmem : ∀ c, c ∈ cells ↔ t.Contains c ∧ c.chebyshev start = r) {n : Nearest D}
    (hn : IsNearestOf start (cells.filter p) n) (hpos : 0 < r) (hle : r ≤ most)
    (hbefore : ∀ q, 0 < q → q < r → ∀ c, ¬ t.MatchesAt start p q c) :
    t.Finds start p most (if n.tied = true then
      .error (.closestTied start.toList n.cell.toList) else .ok (some n.cell)) r := by
  have hclosest : t.ClosestAt start p r n.cell :=
    (closestAt_iff hmem hn).2 ⟨hn.mem, hn.distance_eq.symm⟩
  split
  · next htied =>
    obtain ⟨c', hc', hne, heq⟩ := hn.tied_iff.1 htied
    exact .tie hpos hle hbefore hclosest ((closestAt_iff hmem hn).2 ⟨hc', heq⟩) hne
  · next htied =>
    refine .closest hpos hle hbefore hclosest fun c' hc' => ?_
    obtain ⟨hc', heq⟩ := (closestAt_iff hmem hn).1 hc'
    by_contra hne
    exact htied (hn.tied_iff.2 ⟨c', hc', hne, heq⟩)

/-- A search from some shell on, after the shells before it had no match. -/
theorem DistancesFit.observe_closestFrom [Dimension D] (h : t.DistancesFit)
    (hs : t.Contains start) (p : Cell D → Bool) (shells : Nat) {k : Nat} {calls : List (Cell D)}
    (hlt : k + shells < t.extent) (hvisits : t.Visits start k calls)
    (hno : ∀ q, 0 < q → q ≤ k → ∀ c, ¬ t.MatchesAt start p q c) :
    ∃ result reach calls', observe (t.closestFrom start (noted p) shells (k + 1)) calls =
      (result, calls') ∧ t.Finds start p (k + shells) result reach ∧
        t.Visits start reach calls' := by
  induction shells generalizing k calls with
  | zero => exact ⟨_, _, _, rfl, .nothing hno, hvisits⟩
  | succ shells ih =>
    obtain ⟨cells, hcells, hnodup, hmem⟩ := h.spans.exists_shell hs (Nat.succ_pos k) (by omega)
    have hvisits' := hvisits.append hnodup hmem
    have hfit : ∀ c ∈ cells, start.distanceSquared c = .ok (start.squareSum c) :=
      fun c hc => h.distanceSquared hs ((hmem c).1 hc).1
    rw [closestFrom, observe_ok_bind hcells, observe_bind (observe_nearestAmong hfit calls)]
    by_cases hnone : cells.filter p = []
    · -- nothing in this shell
      rw [hnone, nearestOf_nil]
      have hno' : ∀ q, 0 < q → q ≤ k + 1 → ∀ c, ¬ t.MatchesAt start p q c := by
        intro q hq hqk c hc
        rcases Nat.lt_or_eq_of_le hqk with hlt | rfl
        · exact hno q hq (by omega) c hc
        · have : c ∈ cells.filter p := List.mem_filter.2 ⟨(hmem c).2 ⟨hc.1, hc.2.1⟩, hc.2.2⟩
          rw [hnone] at this
          contradiction
      have := ih (k := k + 1) (by omega) hvisits' hno'
      rwa [Nat.add_right_comm k 1 shells] at this
    · obtain ⟨n, hn, hnearest⟩ := exists_nearestOf hnone (hnodup.filter p)
      refine ⟨_, _, _, ?_, finds_of_isNearestOf hmem hnearest (Nat.succ_pos k) (by omega)
        fun q hq hqk => hno q hq (by omega), hvisits'⟩
      rw [hn]
      cases htied : n.tied with
      | true =>
        simp only [htied]
        rfl
      | false =>
        simp only [htied]
        rfl

/-- Every cell of the tile is within as many steps as fit along an axis, so a search needs to look
no farther. -/
theorem Finds.of_min {p : Cell D → Bool} {most reach : Nat} {result : Except Fault (Option (Cell D))}
    (hs : t.Contains start) (h : t.Finds start p (min most (t.extent - 1)) result reach)
    {calls : List (Cell D)} (hvisits : t.Visits start reach calls) :
    ∃ reach', t.Finds start p most result reach' ∧ t.Visits start reach' calls := by
  have hfar {c : Cell D} (hc : t.Contains c) : c.chebyshev start ≤ t.extent - 1 := by
    have := chebyshev_lt_extent hc hs
    omega
  cases h with
  | nothing hno =>
    refine ⟨most, .nothing fun q hq hqm c hc => ?_, hvisits.nodup, fun c => ?_, hvisits.outwards⟩
    · have := hfar hc.1
      rw [hc.2.1] at this
      exact hno q hq (by omega) c hc
    · rw [hvisits.mem_iff]
      refine and_congr_right fun hc => and_congr_right fun _ => ?_
      have := hfar hc
      omega
  | closest hpos hle hbefore hc hone =>
    exact ⟨_, .closest hpos (by omega) hbefore hc hone, hvisits⟩
  | tie hpos hle hbefore hc hc' hne =>
    exact ⟨_, .tie hpos (by omega) hbefore hc hc' hne, hvisits⟩

/-- A search for the closest cell finds it, tells that there is none, or refuses a tie, and nothing
else is refused on the way. It asks about the cells up to the distance that decides, or up to the
largest one where nothing does, about each once and about the nearer ones first. -/
theorem DistancesFit.closest_finds [Dimension D] (h : t.DistancesFit) (hs : t.Contains start)
    (p : Cell D → Bool) (most : Nat) :
    ∃ result reach calls, observe (t.closest start (noted p) most) [] = (result, calls) ∧
      t.Finds start p most result reach ∧ t.Visits start reach calls := by
  have hone := t.one_lt_extent
  obtain ⟨b, hb, hcontains⟩ := h.spans.contains (c := start)
  obtain rfl : b = true := hcontains.2 hs
  obtain ⟨result, reach, calls, hrun, hfinds, hvisits⟩ := h.observe_closestFrom hs p
    (min most (t.extent - 1)) (k := 0) (by omega) (t.visits_nil start) fun q hq hqk => by omega
  rw [Nat.zero_add] at hfinds
  obtain ⟨reach', hfinds', hvisits'⟩ := hfinds.of_min hs hvisits
  refine ⟨result, reach', calls, ?_, hfinds', hvisits'⟩
  rw [closest, observe_ok_bind hb]
  exact (observe_ok_bind h.spans.lastCell _).trans hrun

/-- From a corner the first match is two steps away, beside one that is three steps away. -/
theorem closest_finds_square : ∃ t : TileLayout 2, make 2 4 1 = .ok t ∧ t.DistancesFit ∧
    t.Contains #v[0, 0] ∧ ∃ reach calls,
      observe (t.closest #v[0, 0] (noted fun c => c = #v[2, 1] ∨ c = #v[3, 0]) 9) [] =
        (.ok (some #v[2, 1]), calls) ∧
      t.Finds #v[0, 0] (fun c => c = #v[2, 1] ∨ c = #v[3, 0]) 9 (.ok (some #v[2, 1])) reach ∧
      t.Visits #v[0, 0] reach calls := by
  let t : TileLayout 2 := ⟨4, 1, by decide, by decide⟩
  have hfit : t.DistancesFit := distancesFit_iff.2 (by decide)
  have hstart : t.Contains #v[0, 0] := by
    unfold Contains
    decide
  have hended : (observe (t.closest #v[0, 0] (noted fun c => c = #v[2, 1] ∨ c = #v[3, 0]) 9) []).1 =
      .ok (some #v[2, 1]) := by
    decide +kernel
  obtain ⟨result, reach, calls, hrun, hfinds, hvisits⟩ :=
    hfit.closest_finds hstart (fun c => c = #v[2, 1] ∨ c = #v[3, 0]) 9
  rw [hrun] at hended
  obtain rfl : result = .ok (some #v[2, 1]) := hended
  exact ⟨t, rfl, hfit, hstart, reach, calls, hrun, hfinds, hvisits⟩

end TileLayout

end AdaptiveMesh
