import AdaptiveMesh.Proofs.Tree.Closure
import AdaptiveMesh.Proofs.Tree.Read

/-!
# Edited trees

However a tree is made, it is valid, and refining or coarsening one of its nodes leaves it so. So
it stays valid over any run of such edits, though none of them puts the array in order again.
-/

namespace AdaptiveMesh

open LocationCode

namespace Tree

variable {D : Nat} {L : Type} [LocationCode D L]

/-- Trees as they are made: the root alone, all nodes down to a level, the closure of some
locations, a checked array, or what is read from bytes. -/
inductive Made : Tree L → Prop where
  | single : Made single
  | uniform {level : Nat} {t : Tree L} : uniform L level = .ok t → Made t
  | ofLocations (xs : List L) : Made (ofLocations xs)
  | ofSorted {a : Array L} {t : Tree L} : ofSorted a = .ok t → Made t
  | ofBytes {bytes : Bytes} {t : Tree L} : ofBytes L bytes = .ok t → Made t

/-- A change of a tree at the node with some index. -/
inductive Edit where
  | refine (n : Nat)
  | coarsen (n : Nat)
deriving DecidableEq, Repr

/-- The tree after a change, which has to be at a node of the tree. A node that cannot be refined
leaves the tree as it is. -/
def edit (t : Tree L) : Edit → Except Fault (Tree L)
  | .refine n => do return (t.refine? (← t.node n)).getD t
  | .coarsen n => do return t.coarsen (← t.node n)

/-- The tree after some changes, one after the other. -/
def run (t : Tree L) (edits : List Edit) : Except Fault (Tree L) := edits.foldlM edit t

theorem node_eq_ok_iff {t : Tree L} {n : Nat} {m : t.Node} : t.node n = .ok m ↔ m.val = n := by
  rw [node]
  split
  · next h => rw [Except.ok.injEq, Fin.ext_iff, eq_comm]
  · next h =>
    refine iff_of_false (fun h => by contradiction) ?_
    rintro rfl
    exact h m.isLt

theorem node_val {t : Tree L} (n : t.Node) : t.node n = .ok n := node_eq_ok_iff.2 rfl

/-- An edit is refused only where the tree has no such node. -/
theorem exists_edit (t : Tree L) (n : t.Node) :
    (∃ u, t.edit (.refine n) = .ok u) ∧ ∃ u, t.edit (.coarsen n) = .ok u := by
  rw [edit, edit, node_val]
  exact ⟨⟨_, rfl⟩, _, rfl⟩

variable [LawfulLocation L] {t u : Tree L}

theorem Made.valid_of_made (h : t.Made) : t.Valid := by
  cases h with
  | single => exact valid_single
  | uniform h => exact valid_uniform h
  | ofLocations xs => exact valid_ofLocations xs
  | @ofSorted a _ h =>
    obtain ⟨xs⟩ := a
    exact (ofSorted_eq_ok_iff.1 h).2
  | ofBytes h =>
    obtain ⟨r, -, hstores⟩ := ofBytes_eq_ok_iff.1 h
    exact hstores.valid

namespace Valid

theorem valid_of_edit (ht : t.Valid) {e : Edit} (h : t.edit e = .ok u) : u.Valid := by
  cases e with
  | refine n =>
    obtain ⟨m, -, h⟩ := bind_eq_ok_iff.1 h
    obtain rfl := Except.ok.inj h
    cases hrefine : t.refine? m with
    | none => exact ht
    | some t' => exact ht.valid_of_refine? hrefine
  | coarsen n =>
    obtain ⟨m, -, h⟩ := bind_eq_ok_iff.1 h
    obtain rfl := Except.ok.inj h
    exact ht.valid_coarsen m

theorem valid_of_run (ht : t.Valid) {edits : List Edit} (h : t.run edits = .ok u) : u.Valid :=
  foldlM_invariant ht (fun _ _ _ _ hs he => hs.valid_of_edit he) h

end Valid

/-- However a tree was made and then refined and coarsened, its array begins with the root, ascends
in depth-first order and holds the parent of every other entry, so nothing is found wrong with it
when it is written. -/
theorem Made.ordered_of_run (hmade : t.Made) {edits : List Edit} (hrun : t.run edits = .ok u) :
    0 < u.size ∧ u.locations[0]? = some root ∧
      (u.locations.toList.Pairwise fun x y => compare x y = .lt) ∧
      (∀ x ∈ u.locations, x ≠ root → ∃ y ∈ u.locations, LocationCode.parent? x = some y) ∧
      u.isCompact = true ∧ u.isSorted = true ∧ ∃ bytes, u.toBytes = .ok bytes := by
  have hu : u.Valid := hmade.valid_of_made.valid_of_run hrun
  have hsize : 0 < u.size := by
    obtain ⟨h, -⟩ := Array.getElem?_eq_some_iff.1 hu.root_first
    exact h
  exact ⟨hsize, hu.root_first, hu.ascending, fun x hx hne => hu.exists_parent hx hne, hu.isCompact,
    hu.isSorted, _, hu.toBytes_eq⟩

/-- A tree that is read, and loses the children it gets first. The root is no leaf, so refining it
changes nothing. -/
theorem ordered_of_run_quartered :
    ∃ (bytes : Bytes) (t u : Tree (GridLocation 2)), ofBytes (GridLocation 2) bytes = .ok t ∧
      t.run [.refine 1, .refine 0, .coarsen 1, .refine 2] = .ok u ∧ u.size = 9 ∧
      u.isCompact = true ∧ u.isSorted = true ∧ ∃ written, u.toBytes = .ok written := by
  have hread : ofBytes (GridLocation 2) quartered.toRecord.toBytes = .ok quartered := by
    decide +kernel
  have hrun : quartered.run [.refine 1, .refine 0, .coarsen 1, .refine 2] =
      .ok ⟨#[root, .square 1 0 0, .square 1 1 0, .square 2 2 0, .square 2 3 0, .square 2 2 1,
        .square 2 3 1, .square 1 0 1, .square 1 1 1]⟩ := by
    decide +kernel
  obtain ⟨-, -, -, -, hcompact, hsorted, hwritten⟩ := (Made.ofBytes hread).ordered_of_run hrun
  exact ⟨_, quartered, _, hread, hrun, rfl, hcompact, hsorted, hwritten⟩

end Tree

end AdaptiveMesh
