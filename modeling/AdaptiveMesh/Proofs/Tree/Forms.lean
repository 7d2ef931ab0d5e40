import AdaptiveMesh.Proofs.Location.Lockstep
import AdaptiveMesh.Proofs.Tree.Convert
import AdaptiveMesh.Proofs.Tree.Edited
import AdaptiveMesh.Proofs.Tree.Neighbor

/-!
# Trees in two stored forms

A tree and its conversion to another stored form have their nodes at the same indices. Whatever is
asked of a node of the one has the same answer as for the node of the other, and edits are answered
alike and keep the trees conversions of each other, as long as no node gets deeper than both forms
can store.
-/

namespace AdaptiveMesh

open LocationCode

variable {D : Nat} {L M : Type} [LocationCode D L] [LocationCode D M]

theorem eraseDups_map {α β : Type} [BEq α] [LawfulBEq α] [BEq β] [LawfulBEq β] {f : α → β}
    (hf : Function.Injective f) (xs : List α) : (xs.map f).eraseDups = xs.eraseDups.map f := by
  induction hn : xs.length using Nat.strong_induction_on generalizing xs with
  | _ n ih =>
    subst hn
    rcases xs with _ | ⟨x, xs⟩
    · rfl
    · have hlen : (xs.filter fun y => !y == x).length < (x :: xs).length :=
        Nat.lt_succ_of_le (List.length_filter_le _ _)
      have hsame : (fun y => !y == f x) ∘ f = fun y => !y == x := by
        funext y
        rw [Function.comp_apply, Bool.not_inj_iff, Bool.eq_iff_iff, beq_iff_eq, beq_iff_eq,
          hf.eq_iff]
      rw [List.map_cons, List.eraseDups_cons, List.eraseDups_cons, List.map_cons, List.filter_map,
        hsame, ih _ hlen _ rfl]

section While

variable {α β : Type} {r : α → β → Prop} {p : α → Bool} {q : β → Bool} {xs : List α} {ys : List β}

theorem forall₂_takeWhile (hpq : ∀ a b, r a b → q b = p a) (h : List.Forall₂ r xs ys) :
    List.Forall₂ r (xs.takeWhile p) (ys.takeWhile q) := by
  induction h with
  | nil => exact .nil
  | @cons a b xs ys hab _ ih =>
    rw [List.takeWhile_cons, List.takeWhile_cons, hpq a b hab]
    split
    · exact .cons hab ih
    · exact .nil

theorem forall₂_dropWhile (hpq : ∀ a b, r a b → q b = p a) (h : List.Forall₂ r xs ys) :
    List.Forall₂ r (xs.dropWhile p) (ys.dropWhile q) := by
  induction h with
  | nil => exact .nil
  | @cons a b xs ys hab hrest ih =>
    rw [List.dropWhile_cons, List.dropWhile_cons, hpq a b hab]
    split
    · exact ih
    · exact .cons hab hrest

end While

namespace LocationCode.SamePath

variable [LawfulLocation L] [LawfulLocation M] {x : L} {y : M}

theorem rel_parent? (h : SamePath x y) : Option.Rel SamePath (parent? x) (parent? y) := by
  by_cases hx : 0 < level x
  · have hy : 0 < level y := by rwa [h.level_eq]
    rw [parent?, parent?, dif_pos hx, dif_pos hy]
    exact .some (h.pop hx hy)
  · have hy : ¬ 0 < level y := by rwa [h.level_eq]
    rw [parent?, parent?, dif_neg hx, dif_neg hy]
    exact .none

theorem forall₂_ancestors (h : SamePath x y) :
    List.Forall₂ SamePath (ancestors x) (ancestors y) := by
  have hwithin (k : Nat) : List.Forall₂ SamePath (ancestorsWithin k x) (ancestorsWithin k y) := by
    induction k generalizing x y with
    | zero => exact .nil
    | succ k ih =>
      have hparents := h.rel_parent?
      rw [ancestorsWithin, ancestorsWithin]
      generalize parent? x = o at hparents
      generalize parent? y = o' at hparents
      cases hparents with
      | none => exact .nil
      | some h => exact .cons h (ih h)
  rw [ancestors, ancestors, h.level_eq]
  exact hwithin _

theorem endAlike_shift (h : SamePath x y) (o : Offset D) :
    EndAlike ∅ (Option.Rel SamePath) (shift x o) (shift y o) := by
  have halike : Move.Alike (shift x o >>= fun r => pure (none, r))
      (shift y o >>= fun r => pure (none, r)) := Move.alike_shift h
  generalize shift x o = r at halike
  generalize shift y o = r' at halike
  rcases r with e | z
  · rcases r' with e' | z'
    · have halike : Move.Alike (L := L) (M := M) (.error e) (.error e') := halike
      cases halike
      exact .error e
    · have halike : Move.Alike (L := L) (M := M) (.error e) (.ok (none, z')) := halike
      contradiction
  · rcases r' with e' | z'
    · have halike : Move.Alike (L := L) (M := M) (.ok (none, z)) (.error e') := halike
      contradiction
    · have halike : Move.Alike (L := L) (M := M) (.ok (none, z)) (.ok (none, z')) := halike
      cases halike with
      | nowhere => exact .ok .none
      | reached _ hzz' => exact .ok (.some hzz')

end LocationCode.SamePath

namespace Tree

variable {t : Tree L} {u : Tree M}

/-! ## How far down to look -/

/-- Looking further down than the tree goes shows no other leaves. -/
theorem Valid.facingLeaves_add [LawfulLocation L] (ht : t.Valid) {d : Direction D} {depth : Nat}
    {n : t.Node} (hdepth : ∀ b, t.level b ≤ t.level n + depth) (more : Nat) :
    t.facingLeaves d (depth + more) n = t.facingLeaves d depth n := by
  have hchild {n m : t.Node} (hm : m ∈ t.children n) : t.level m = t.level n + 1 :=
    (parent?_eq_some_iff.1 (ht.mem_children_iff.1 hm)).1
  induction depth generalizing n with
  | zero =>
    have hnone : t.children n = [] := List.eq_nil_iff_forall_not_mem.2 fun m hm => by
      have := hdepth m
      rw [hchild hm] at this
      omega
    cases more with
    | zero => rfl
    | succ more =>
      rw [Nat.zero_add, facingLeaves, facingLeaves, hnone, List.flatMap_nil]
  | succ depth ih =>
    rw [Nat.add_right_comm, facingLeaves, facingLeaves]
    refine List.flatMap_congr fun m hm => ?_
    rw [ih fun b => by rw [hchild hm]; have := hdepth b; omega]

/-! ## The same node -/

namespace ConvertsTo

/-- The node with the same index. -/
def node (h : t.ConvertsTo u) (n : t.Node) : u.Node := n.cast h.size.symm

theorem node_injective (h : t.ConvertsTo u) : Function.Injective h.node :=
  Fin.cast_injective h.size.symm

theorem exists_node (h : t.ConvertsTo u) (m : u.Node) : ∃ n, h.node n = m :=
  ⟨Fin.cast h.size m, Fin.ext rfl⟩

theorem nodes_eq (h : t.ConvertsTo u) : u.nodes = t.nodes.map h.node := by
  refine List.ext_getElem (by simp [nodes, h.size]) fun i _ _ => ?_
  simp [nodes, node]

/-- What is found in the one tree is found in the other. -/
theorem eq_map_node (h : t.ConvertsTo u) {o : Option t.Node} {o' : Option u.Node}
    (ho : ∀ n, o' = some (h.node n) ↔ o = some n) : o' = o.map h.node := by
  refine Option.ext fun m => ?_
  obtain ⟨n, rfl⟩ := h.exists_node m
  rw [ho, Option.map_eq_some_iff]
  constructor
  · exact fun hn => ⟨n, hn, rfl⟩
  · rintro ⟨n', hn', he⟩
    rwa [← h.node_injective he]

variable [LawfulLocation L] [LawfulLocation M]

theorem samePath (h : t.ConvertsTo u) (n : t.Node) :
    SamePath (t.location n) (u.location (h.node n)) :=
  samePath_iff_convert.2 (h.convert n n.isLt _)

theorem level_node (h : t.ConvertsTo u) (n : t.Node) : u.level (h.node n) = t.level n :=
  (h.samePath n).level_eq

theorem isLeaf_node (h : t.ConvertsTo u) (n : t.Node) : u.isLeaf (h.node n) = t.isLeaf n := by
  have hnext : u.locations[(h.node n).val + 1]? = u.locations[n.val + 1]? := rfl
  unfold isLeaf
  rw [hnext]
  by_cases hn : n.val + 1 < t.size
  · have hn' : n.val + 1 < u.size := by rwa [h.size]
    rw [Array.getElem?_eq_getElem hn, Array.getElem?_eq_getElem hn']
    exact congrArg (!·) (sameRelations_of_samePath (h.samePath n) (h.samePath ⟨_, hn⟩)).isAncestorOf
  · have hn' : ¬ n.val + 1 < u.size := by rwa [h.size]
    rw [Array.getElem?_eq_none (not_lt.1 hn), Array.getElem?_eq_none (not_lt.1 hn')]

theorem leaves_eq (h : t.ConvertsTo u) : u.leaves = t.leaves.map h.node := by
  have hleaf : u.isLeaf ∘ h.node = t.isLeaf := funext h.isLeaf_node
  rw [leaves, h.nodes_eq, List.filter_map, hleaf, leaves]

/-! ## Nodes at locations -/

variable (ht : t.Valid) (h : t.ConvertsTo u)

include ht

theorem nodeAt?_eq {x : L} {y : M} (hxy : SamePath x y) :
    u.nodeAt? y = (t.nodeAt? x).map h.node :=
  h.eq_map_node fun n => by
    rw [(h.valid_of_valid ht).nodeAt?_eq_some_iff, ht.nodeAt?_eq_some_iff]
    exact eq_iff_of_samePath (h.samePath n) hxy

/-- Locations with the same path, or none, lead to the same node, or to none. -/
theorem bind_nodeAt?_of_rel {o : Option L} {o' : Option M} (ho : Option.Rel SamePath o o') :
    o'.bind u.nodeAt? = (o.bind t.nodeAt?).map h.node := by
  cases ho with
  | none => rfl
  | some hxy => exact h.nodeAt?_eq ht hxy

theorem parent?_node (n : t.Node) : u.parent? (h.node n) = (t.parent? n).map h.node :=
  h.bind_nodeAt?_of_rel ht (h.samePath n).rel_parent?

/-- Where only one of the forms could store a child, neither tree has it. -/
theorem bind_child?_node (n : t.Node) (p : ChildPosition D) :
    (child? (u.location (h.node n)) p).bind u.nodeAt? =
      ((child? (t.location n) p).bind t.nodeAt?).map h.node := by
  have hu := h.valid_of_valid ht
  have hfound {K : Type} [LocationCode D K] [LawfulLocation K] {s : Tree K} (hs : s.Valid)
      (x : K) (m : s.Node) :
      (child? x p).bind s.nodeAt? = some m ↔ child? x p = some (s.location m) := by
    rw [Option.bind_eq_some_iff]
    constructor
    · rintro ⟨y, hy, hm⟩
      rwa [hs.nodeAt?_eq_some_iff.1 hm]
    · exact fun hy => ⟨_, hy, hs.nodeAt?_location m⟩
  refine h.eq_map_node fun m => ?_
  rw [hfound hu, hfound ht, child?_eq_some_iff, child?_eq_some_iff, (h.samePath n).level_eq,
    (h.samePath m).level_eq]
  simp only [(h.samePath n).place_eq, (h.samePath m).place_eq]

theorem children_node (n : t.Node) : u.children (h.node n) = (t.children n).map h.node := by
  unfold children
  rw [h.isLeaf_node]
  split
  · rfl
  · rw [List.map_filterMap]
    exact List.filterMap_congr fun p _ => h.bind_child?_node ht n p

/-! ## Neighbours -/

theorem neighbor_node (n : t.Node) (d : Direction D) :
    u.neighbor (h.node n) d = Option.map h.node <$> t.neighbor n d := by
  have hshift := (h.samePath n).endAlike_shift d.offset
  unfold neighbor
  generalize shift (t.location n) d.offset = r at hshift ⊢
  generalize shift (u.location (h.node n)) d.offset = r' at hshift ⊢
  cases hshift with
  | ok hzz' => exact congrArg Except.ok (h.bind_nodeAt?_of_rel ht hzz')
  | error e => rfl
  | broken y he => exact absurd he (Set.notMem_empty _)

theorem facingLeaves_node (d : Direction D) (depth : Nat) (n : t.Node) :
    u.facingLeaves d depth (h.node n) = (t.facingLeaves d depth n).map h.node := by
  induction depth generalizing n with
  | zero => rfl
  | succ depth ih =>
    rw [facingLeaves, facingLeaves, h.children_node ht, List.flatMap_map, List.map_flatMap]
    refine List.flatMap_congr fun child hchild => ?_
    have hlevel := (parent?_eq_some_iff.1 (ht.mem_children_iff.1 hchild)).1
    have hposition : childPosition (u.location (h.node child)) (t.level child) =
        childPosition (t.location child) (t.level child) :=
      (h.samePath child).childPosition_eq (by rw [level, hlevel]; omega) le_rfl
    rw [h.level_node, hposition, h.isLeaf_node, ih]
    split
    · split <;> rfl
    · rfl

/-- Both forms look down far enough. -/
theorem facingLeaves_below (d : Direction D) (n : t.Node) :
    u.facingLeaves d (LocationCode.maxLevel M - u.level (h.node n)) (h.node n) =
      (t.facingLeaves d (LocationCode.maxLevel L - t.level n) n).map h.node := by
  have hdeepest {K : Type} [LocationCode D K] [LawfulLocation K] (s : Tree K) (n b : s.Node) :
      s.level b ≤ s.level n + (LocationCode.maxLevel K - s.level n) :=
    (LawfulLocation.level_le _).trans le_add_tsub
  have hu := h.valid_of_valid ht
  rw [← hu.facingLeaves_add (hdeepest u (h.node n)) (LocationCode.maxLevel L - t.level n),
    h.facingLeaves_node ht, Nat.add_comm, ht.facingLeaves_add (hdeepest t n)]

theorem findSome?_nodeAt? {xs : List L} {ys : List M} (hxs : List.Forall₂ SamePath xs ys) :
    ys.findSome? u.nodeAt? = (xs.findSome? t.nodeAt?).map h.node := by
  induction hxs with
  | nil => rfl
  | @cons x y xs ys hxy hxs ih =>
    rw [List.findSome?_cons, List.findSome?_cons, h.nodeAt?_eq ht hxy, ih]
    cases t.nodeAt? x <;> rfl

theorem leafNeighbors_node (n : t.Node) (d : Direction D) :
    u.leafNeighbors (h.node n) d = List.map h.node <$> t.leafNeighbors n d := by
  have hshift := (h.samePath n).endAlike_shift d.offset
  unfold leafNeighbors
  rw [h.isLeaf_node]
  cases t.isLeaf n with
  | false => rfl
  | true =>
    simp only [if_true]
    generalize shift (t.location n) d.offset = r at hshift ⊢
    generalize shift (u.location (h.node n)) d.offset = r' at hshift ⊢
    cases hshift with
    | error e => rfl
    | broken y he => exact absurd he (Set.notMem_empty _)
    | @ok z z' hzz' =>
      cases hzz' with
      | none => rfl
      | @some x y hxy =>
        simp only [ok_bind, h.nodeAt?_eq ht hxy]
        rcases t.nodeAt? x with _ | m
        · simp only [Option.map_none, h.findSome?_nodeAt? ht hxy.forall₂_ancestors]
          rcases (ancestors x).findSome? t.nodeAt? with _ | a
          · rfl
          · simp only [Option.map_some, Option.filter_some, h.isLeaf_node]
            cases t.isLeaf a <;> rfl
        · simp only [Option.map_some, h.isLeaf_node]
          split
          · rfl
          · exact congrArg Except.ok (h.facingLeaves_below ht d m)

theorem allLeafNeighbors_node (n : t.Node) :
    u.allLeafNeighbors (h.node n) = List.map h.node <$> t.allLeafNeighbors n := by
  unfold allLeafNeighbors
  rw [funext (h.leafNeighbors_node ht n), mapM_map]
  rcases (Direction.all D).mapM (t.leafNeighbors n) with e | found
  · rfl
  · refine congrArg Except.ok ?_
    rw [← List.map_flatten, eraseDups_map h.node_injective]

end ConvertsTo

/-- Whatever is asked of a node has the same answer as for the node of the other tree with the same
index. -/
structure SameQueries (h : t.ConvertsTo u) : Prop where
  nodeAt? {x : L} {y : M} : SamePath x y → u.nodeAt? y = (t.nodeAt? x).map h.node
  level (n : t.Node) : u.level (h.node n) = t.level n
  isLeaf (n : t.Node) : u.isLeaf (h.node n) = t.isLeaf n
  leaves : u.leaves = t.leaves.map h.node
  parent? (n : t.Node) : u.parent? (h.node n) = (t.parent? n).map h.node
  children (n : t.Node) : u.children (h.node n) = (t.children n).map h.node
  neighbor (n : t.Node) (d : Direction D) :
    u.neighbor (h.node n) d = Option.map h.node <$> t.neighbor n d
  leafNeighbors (n : t.Node) (d : Direction D) :
    u.leafNeighbors (h.node n) d = List.map h.node <$> t.leafNeighbors n d
  allLeafNeighbors (n : t.Node) :
    u.allLeafNeighbors (h.node n) = List.map h.node <$> t.allLeafNeighbors n

theorem ConvertsTo.sameQueries [LawfulLocation L] [LawfulLocation M] (h : t.ConvertsTo u)
    (ht : t.Valid) : SameQueries h where
  nodeAt? := h.nodeAt?_eq ht
  level := h.level_node
  isLeaf := h.isLeaf_node
  leaves := h.leaves_eq
  parent? := h.parent?_node ht
  children := h.children_node ht
  neighbor := h.neighbor_node ht
  leafNeighbors := h.leafNeighbors_node ht
  allLeafNeighbors := h.allLeafNeighbors_node ht

/-! ## Edits -/

/-- What an edit is answered: whether a node was refined, or how many nodes were taken out. -/
inductive EditReply where
  | refined (done : Bool)
  | coarsened (removed : Nat)
deriving DecidableEq, Repr

/-- What is answered to an edit, which has to be at a node of the tree. -/
def reply (t : Tree L) : Edit → Except Fault EditReply
  | .refine n => do return .refined (t.refine? (← t.node n)).isSome
  | .coarsen n => do return .coarsened (t.descendants (← t.node n)).length

/-- The tree after an edit. An edit that is refused leaves the tree. -/
def next (t : Tree L) (e : Edit) : Tree L := (t.edit e).toOption.getD t

/-- The replies to edits made one after the other. -/
def replies (t : Tree L) : List Edit → List (Except Fault EditReply)
  | [] => []
  | e :: es => t.reply e :: replies (t.next e) es

/-- The trees that edits go through, the first one among them. -/
def reached (t : Tree L) : List Edit → List (Tree L)
  | [] => [t]
  | e :: es => t :: reached (t.next e) es

/-- No node is deeper than a level. -/
def Within (deepest : Nat) (t : Tree L) : Prop := ∀ n, t.level n ≤ deepest

theorem next_refine (n : t.Node) : t.next (.refine n) = (t.refine? n).getD t := by
  rw [next, edit, node_val]
  rfl

theorem next_coarsen (n : t.Node) : t.next (.coarsen n) = t.coarsen n := by
  rw [next, edit, node_val]
  rfl

theorem reply_refine (n : t.Node) :
    t.reply (.refine n) = .ok (.refined (t.refine? n).isSome) := by
  rw [reply, node_val]
  rfl

theorem reply_coarsen (n : t.Node) :
    t.reply (.coarsen n) = .ok (.coarsened (t.descendants n).length) := by
  rw [reply, node_val]
  rfl

theorem refine?_eq_none_iff {n : t.Node} : t.refine? n = none ↔
    ¬ (t.isLeaf n = true ∧ t.level n < LocationCode.maxLevel L) := by
  simp [refine?]

section Edits

variable [LawfulLocation L] [LawfulLocation M]

theorem convertsTo_iff_forall₂ :
    t.ConvertsTo u ↔ List.Forall₂ SamePath t.locations.toList u.locations.toList := by
  rw [List.forall₂_iff_get]
  constructor
  · exact fun h => ⟨h.size.symm, fun i hi hi' => samePath_iff_convert.2 (h.convert i hi hi')⟩
  · exact fun ⟨hsize, hpath⟩ =>
      ⟨hsize.symm, fun i hi hi' => samePath_iff_convert.1 (hpath i hi hi')⟩

theorem Valid.valid_next (ht : t.Valid) (e : Edit) : (t.next e).Valid := by
  unfold next
  rcases h : t.edit e with _ | t'
  · exact ht
  · exact ht.valid_of_edit h

/-- A leaf that is refined gets a child. -/
theorem level_lt_of_refine? {t' : Tree L} {n : t.Node} (h : t.refine? n = some t') {deepest : Nat}
    (hdeep : t'.Within deepest) : t.level n < deepest := by
  have hlevel : t.level n < LocationCode.maxLevel L := by
    by_contra hn
    rw [refine?_eq_none_iff.2 fun hleaf => hn hleaf.2] at h
    contradiction
  obtain ⟨y, hy⟩ := exists_child? hlevel (.ofSides fun _ => false)
  obtain ⟨m, rfl⟩ := mem_locations_iff.1
    ((mem_refine?_iff h).2 (.inr (parent?_of_child? hy)))
  have hm : t'.level m = t.level n + 1 := (child?_eq_some_iff.1 hy).1
  exact Nat.lt_of_succ_le (hm.symm.trans_le (hdeep m))

namespace ConvertsTo

/-- Where both forms can store the children of a leaf, or neither can, refining keeps trees
conversions of each other. -/
theorem rel_refine? (h : t.ConvertsTo u) (n : t.Node) (hdeep : t.isLeaf n = true →
    (t.level n < LocationCode.maxLevel L ↔ t.level n < LocationCode.maxLevel M)) :
    Option.Rel ConvertsTo (t.refine? n) (u.refine? (h.node n)) := by
  by_cases hn : t.isLeaf n = true ∧ t.level n < LocationCode.maxLevel L
  · have hM := (hdeep hn.1).1 hn.2
    have hn' : u.isLeaf (h.node n) = true ∧ u.level (h.node n) < LocationCode.maxLevel M := by
      rw [h.isLeaf_node, h.level_node]
      exact ⟨hn.1, hM⟩
    have hchildren (ps : List (ChildPosition D)) : List.Forall₂ SamePath
        (ps.filterMap (child? (t.location n)))
        (ps.filterMap (child? (u.location (h.node n)))) := by
      induction ps with
      | nil => exact .nil
      | cons p ps ih =>
        rw [List.filterMap_cons_some (dif_pos hn.2), List.filterMap_cons_some (dif_pos hn'.2)]
        exact .cons ((h.samePath n).push hn.2 hn'.2 p) ih
    rw [refine?, refine?, if_pos hn, if_pos hn']
    have hnodes := convertsTo_iff_forall₂.1 h
    exact .some (convertsTo_iff_forall₂.2 (List.rel_append (List.rel_append
      (List.forall₂_take _ hnodes) (hchildren _)) (List.forall₂_drop _ hnodes)))
  · have hn' : ¬ (u.isLeaf (h.node n) = true ∧ u.level (h.node n) < LocationCode.maxLevel M) := by
      rw [h.isLeaf_node, h.level_node]
      exact fun hn' => hn ⟨hn'.1, (hdeep hn'.1).2 hn'.2⟩
    rw [refine?_eq_none_iff.2 hn, refine?_eq_none_iff.2 hn']
    exact .none

/-- Coarsening takes out the same nodes. -/
theorem coarsen_node (h : t.ConvertsTo u) (n : t.Node) :
    (u.descendants (h.node n)).length = (t.descendants n).length ∧
      (t.coarsen n).ConvertsTo (u.coarsen (h.node n)) := by
  have hnodes := convertsTo_iff_forall₂.1 h
  have hancestor (x : L) (y : M) (hxy : SamePath x y) :
      isAncestorOf (u.location (h.node n)) y = isAncestorOf (t.location n) x :=
    (sameRelations_of_samePath (h.samePath n) hxy).isAncestorOf
  have hbehind := List.forall₂_drop (n.val + 1) hnodes
  exact ⟨(forall₂_takeWhile hancestor hbehind).length_eq.symm,
    convertsTo_iff_forall₂.2 (List.rel_append (List.forall₂_take _ hnodes)
      (forall₂_dropWhile hancestor hbehind))⟩

theorem reply_next_refine (h : t.ConvertsTo u) (n : t.Node)
    (hM : (t.next (.refine n)).Within (LocationCode.maxLevel M))
    (hL : (u.next (.refine n)).Within (LocationCode.maxLevel L)) :
    u.reply (.refine n) = t.reply (.refine n) ∧
      (t.next (.refine n)).ConvertsTo (u.next (.refine n)) := by
  have hnext : u.next (.refine n) = (u.refine? (h.node n)).getD u := next_refine (h.node n)
  have hreply : u.reply (.refine n) = .ok (.refined (u.refine? (h.node n)).isSome) :=
    reply_refine (h.node n)
  rw [next_refine] at hM ⊢
  rw [hnext] at hL ⊢
  rw [hreply, reply_refine]
  have hrel := h.rel_refine? n fun hleaf => ⟨fun hlt => ?_, fun hlt => ?_⟩
  · generalize t.refine? n = o at hrel
    generalize u.refine? (h.node n) = o' at hrel
    cases hrel with
    | none => exact ⟨rfl, h⟩
    | some h' => exact ⟨rfl, h'⟩
  · obtain ⟨t', ht'⟩ := Option.ne_none_iff_exists'.1
      (mt refine?_eq_none_iff.1 (not_not.2 ⟨hleaf, hlt⟩))
    rw [ht'] at hM
    exact level_lt_of_refine? ht' hM
  · obtain ⟨u', hu'⟩ := Option.ne_none_iff_exists'.1
      (mt (refine?_eq_none_iff (n := h.node n)).1 (not_not.2
        ⟨(h.isLeaf_node n).trans hleaf, (h.level_node n).trans_lt hlt⟩))
    rw [hu'] at hL
    exact (h.level_node n).symm.trans_lt (level_lt_of_refine? hu' hL)

theorem reply_next_coarsen (h : t.ConvertsTo u) (n : t.Node) :
    u.reply (.coarsen n) = t.reply (.coarsen n) ∧
      (t.next (.coarsen n)).ConvertsTo (u.next (.coarsen n)) := by
  have hnext : u.next (.coarsen n) = u.coarsen (h.node n) := next_coarsen (h.node n)
  have hreply : u.reply (.coarsen n) = .ok (.coarsened (u.descendants (h.node n)).length) :=
    reply_coarsen (h.node n)
  obtain ⟨hremoved, hconverts⟩ := h.coarsen_node n
  rw [hreply, reply_coarsen, hremoved, hnext, next_coarsen]
  exact ⟨rfl, hconverts⟩

/-- An edit that makes no node deeper than both forms can store has one reply, and leaves
conversions of each other. -/
theorem reply_next (h : t.ConvertsTo u) {e : Edit}
    (hM : (t.next e).Within (LocationCode.maxLevel M))
    (hL : (u.next e).Within (LocationCode.maxLevel L)) :
    u.reply e = t.reply e ∧ (t.next e).ConvertsTo (u.next e) := by
  have houtside {i : Nat} (hi : ¬ i < t.size) :
      t.node i = .error .outOfBounds ∧ u.node i = .error .outOfBounds :=
    ⟨dif_neg hi, dif_neg (h.size ▸ hi)⟩
  cases e with
  | refine i =>
    by_cases hi : i < t.size
    · exact h.reply_next_refine ⟨i, hi⟩ hM hL
    · obtain ⟨hn, hn'⟩ := houtside hi
      simp only [reply, next, edit, hn, hn']
      exact ⟨rfl, h⟩
  | coarsen i =>
    by_cases hi : i < t.size
    · exact h.reply_next_coarsen ⟨i, hi⟩
    · obtain ⟨hn, hn'⟩ := houtside hi
      simp only [reply, next, edit, hn, hn']
      exact ⟨rfl, h⟩

/-- Edits one after the other that make no node deeper than both forms can store have the same
replies, and go through trees that are conversions of each other. -/
theorem replies_reached (h : t.ConvertsTo u) (ht : t.Valid) {edits : List Edit}
    (hM : ∀ s ∈ t.reached edits, s.Within (LocationCode.maxLevel M))
    (hL : ∀ s ∈ u.reached edits, s.Within (LocationCode.maxLevel L)) :
    u.replies edits = t.replies edits ∧
      List.Forall₂ (fun s s' => s.Valid ∧ s'.Valid ∧ s.ConvertsTo s') (t.reached edits)
        (u.reached edits) := by
  have hu := h.valid_of_valid ht
  induction edits generalizing t u with
  | nil => exact ⟨rfl, .cons ⟨ht, hu, h⟩ .nil⟩
  | cons e es ih =>
    have hfirst {K : Type} [LocationCode D K] (s : Tree K) : s ∈ s.reached es := by
      cases es <;> exact List.mem_cons_self
    obtain ⟨hreply, hnext⟩ := h.reply_next (e := e)
      (hM _ (List.mem_cons_of_mem t (hfirst (t.next e))))
      (hL _ (List.mem_cons_of_mem u (hfirst (u.next e))))
    obtain ⟨hreplies, hreached⟩ := ih hnext (ht.valid_next e)
      (fun s hs => hM s (List.mem_cons_of_mem t hs))
      (fun s hs => hL s (List.mem_cons_of_mem u hs)) (hu.valid_next e)
    exact ⟨congrArg₂ List.cons hreply hreplies, .cons ⟨ht, hu, h⟩ hreached⟩

end ConvertsTo

end Edits

end Tree

end AdaptiveMesh
