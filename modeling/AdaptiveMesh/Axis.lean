/-!
# Vectors over the axes

A cell, an offset or a coordinate is a vector with one component for each axis. `tuples` lists the
vectors whose components come from given lists, in the order every enumeration of this library
uses: axis 0 runs fastest.

The modules outside `Proofs` are those that run. They import only core, so that a program is built
without Batteries and Mathlib, and state the few facts of those libraries that they need
themselves; `Proofs` uses the libraries' own.
-/

namespace AdaptiveMesh

/-- The vectors that take each component from the list of its axis, axis 0 running fastest. -/
def tuples {α : Type} : {n : Nat} → Vector (List α) n → List (Vector α n)
  | 0, _ => [#v[]]
  | _ + 1, choices =>
    choices.back.flatMap fun x => (tuples choices.pop).map fun lower => lower.push x

/-- A component found by its axis is the one found by the axis's number. In Batteries this is
`Vector.get_eq_getElem`. -/
@[simp] theorem get_eq_getElem {α : Type} {n : Nat} (x : Vector α n) (d : Fin n) :
    x.get d = x[d.val] := rfl

/-- The naturals from `first` up to `last`, both included. -/
def closedRange (first last : Nat) : List Nat :=
  List.range' first (last + 1 - first)

theorem mem_closedRange {first last x : Nat} :
    x ∈ closedRange first last ↔ first ≤ x ∧ x ≤ last := by
  simp only [closedRange, List.mem_range'_1]
  omega

/-- Spatial dimensions: a segment, a square or a cube. -/
class Dimension (D : Nat) : Prop where
  pos : 0 < D
  le_three : D ≤ 3

instance : Dimension 1 := ⟨by decide, by decide⟩
instance : Dimension 2 := ⟨by decide, by decide⟩
instance : Dimension 3 := ⟨by decide, by decide⟩

end AdaptiveMesh
