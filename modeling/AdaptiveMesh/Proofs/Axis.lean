import AdaptiveMesh.Bits
import AdaptiveMesh.Direction
import Mathlib

/-!
# Vectors and directions in bulk

`tuples` lists the vectors with given components, each once, and `Direction.all` lists every
direction, each once.
-/

namespace AdaptiveMesh

theorem vector_all_iff {α : Type} {n : Nat} {v : Vector α n} {p : α → Bool} :
    v.all p = true ↔ ∀ i : Fin n, p (v.get i) = true := by
  rw [Vector.all_eq_true]
  exact ⟨fun h i => h i i.isLt, fun h i hi => h ⟨i, hi⟩⟩

theorem forall_mem_toList {α : Type} {n : Nat} {v : Vector α n} {p : α → Prop}
    (h : ∀ i : Fin n, p (v.get i)) : ∀ x ∈ v.toList, p x := by
  intro x hx
  obtain ⟨i, hi, rfl⟩ := List.mem_iff_getElem.1 hx
  exact h ⟨i, by simpa using hi⟩

theorem foldl_max_le_iff {α : Type} {f : α → Nat} {xs : List α} {m r : Nat} :
    xs.foldl (fun most x => max most (f x)) m ≤ r ↔ m ≤ r ∧ ∀ x ∈ xs, f x ≤ r := by
  induction xs generalizing m with
  | nil => simp
  | cons x xs ih => rw [List.foldl_cons, ih, max_le_iff, List.forall_mem_cons, and_assoc]

theorem mem_tuples {α : Type} {n : Nat} {choices : Vector (List α) n} {v : Vector α n} :
    v ∈ tuples choices ↔ ∀ i : Fin n, v.get i ∈ choices.get i := by
  induction n with
  | zero =>
    have hv : v = #v[] := Vector.eq_empty
    simp [tuples, hv]
  | succ n ih =>
    simp only [tuples, List.mem_flatMap, List.mem_map, ih]
    constructor
    · rintro ⟨x, hx, lower, hl, rfl⟩ i
      rcases Nat.lt_or_ge i n with hi | hi
      · have := hl ⟨i, hi⟩
        simpa [Vector.getElem_push, hi] using this
      · obtain rfl : i = Fin.last n := Fin.ext (by simp; omega)
        simpa [Vector.getElem_push, Vector.back] using hx
    · intro h
      refine ⟨v.back, ?_, v.pop, fun i => ?_, Vector.push_pop_back v⟩
      · simpa [Vector.back] using h (Fin.last n)
      · simpa using h i.castSucc

theorem nodup_tuples {α : Type} {n : Nat} {choices : Vector (List α) n}
    (h : ∀ i : Fin n, (choices.get i).Nodup) : (tuples choices).Nodup := by
  induction n with
  | zero => simp [tuples]
  | succ n ih =>
    rw [tuples, List.nodup_flatMap]
    constructor
    · intro x _
      refine (ih fun i => ?_).map fun a b hab => Vector.push_inj_left.1 hab
      simpa using h i.castSucc
    · have hback : choices.back.Nodup := by simpa [Vector.back] using h (Fin.last n)
      refine hback.imp fun {x y} hxy => ?_
      rw [Function.onFun, List.disjoint_left]
      intro v hx hy
      obtain ⟨a, -, rfl⟩ := List.mem_map.1 hx
      obtain ⟨b, -, hb⟩ := List.mem_map.1 hy
      exact hxy (Vector.push_eq_push.1 hb).1.symm

namespace Direction

variable {D : Nat}

theorem ofOffset_offset (d : Direction D) : ofOffset d.offset = .ok d := by
  rw [ofOffset, dif_pos d.isUnit, dif_pos d.moves]

theorem offset_mem_units (d : Direction D) : d.offset ∈ Offset.units D := by
  rw [Offset.units, mem_tuples]
  intro i
  have hu := d.isUnit i
  have hz : d.offset.get i = -1 ∨ d.offset.get i = 0 ∨ d.offset.get i = 1 := by omega
  have hchoice : (Vector.replicate D [(-1 : Int), 0, 1]).get i = [-1, 0, 1] := by simp
  rw [hchoice]
  simpa using hz

theorem mem_directions {m : Manifold} {d : Direction D} :
    d ∈ m.directions D ↔ d.offset.rank = m.rank := by
  rw [Manifold.directions, List.mem_filterMap]
  constructor
  · rintro ⟨o, -, h⟩
    split at h
    · next hr =>
      have hd : ofOffset o = .ok d := by
        cases ho : ofOffset o with
        | error e => rw [ho] at h; contradiction
        | ok e =>
          rw [ho] at h
          exact congrArg _ (Option.some.inj h)
      have : o = d.offset := by
        unfold ofOffset at hd
        split at hd
        · split at hd
          · exact congrArg offset (Except.ok.inj hd)
          · contradiction
        · contradiction
      rwa [← this]
    · contradiction
  · intro hr
    exact ⟨d.offset, d.offset_mem_units, by rw [if_pos hr, ofOffset_offset]; rfl⟩

theorem mem_all [Dimension D] (d : Direction D) : d ∈ Direction.all D := by
  have hpos := Nat.pos_of_ne_zero d.moves
  have hle : d.offset.rank ≤ D := by
    have : d.offset.rank ≤ d.offset.toList.length := List.countP_le_length
    simpa using this
  have hthree := Dimension.le_three (D := D)
  obtain ⟨m, hm⟩ : ∃ m : Manifold, m.rank = d.offset.rank := by
    obtain h | h | h : d.offset.rank = 1 ∨ d.offset.rank = 2 ∨ d.offset.rank = 3 := by omega
    · exact ⟨.face, h.symm⟩
    · exact ⟨.edge, h.symm⟩
    · exact ⟨.corner, h.symm⟩
  rw [Direction.all, List.mem_flatMap]
  refine ⟨m, ?_, mem_directions.2 hm.symm⟩
  rw [Manifold.ofDimension, List.mem_filter, decide_eq_true_eq]
  exact ⟨by cases m <;> simp [Manifold.all], by omega⟩

theorem length_all_le [Dimension D] : (Direction.all D).length ≤ 3 ^ D := by
  have hpos := Dimension.pos (D := D)
  have hle := Dimension.le_three (D := D)
  obtain rfl | rfl | rfl : D = 1 ∨ D = 2 ∨ D = 3 := by omega
  all_goals decide +kernel

/-- Components that are at most one step, and not all zero, are those of a direction. -/
theorem exists_direction {f : Fin D → Int} (hu : ∀ i, (f i).natAbs ≤ 1) (hm : ∃ i, f i ≠ 0) :
    ∃ d : Direction D, ∀ i, d.offset.get i = f i := by
  refine ⟨⟨Vector.ofFn f, fun i => by simpa using hu i, ?_⟩, fun i => by simp⟩
  obtain ⟨i, hi⟩ := hm
  rw [Offset.rank, Ne, List.countP_eq_zero]
  intro h
  have := h (f i) (by simp)
  simp [hi] at this

theorem exists_get_ne_zero (d : Direction D) : ∃ i : Fin D, d.offset.get i ≠ 0 := by
  by_contra hno
  simp only [not_exists, not_not] at hno
  refine d.moves ?_
  rw [Offset.rank, List.countP_eq_zero]
  intro z hz
  obtain ⟨i, hi, rfl⟩ := List.mem_iff_getElem.1 hz
  have hi' : i < D := by simpa using hi
  have := hno ⟨i, hi'⟩
  simpa using this

end Direction

end AdaptiveMesh
