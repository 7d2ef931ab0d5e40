import AdaptiveMesh.Proofs.Tree.Closure
import AdaptiveMesh.Proofs.Tree.Partition

/-!
# What locations span

The tree over some locations is the smallest valid tree that holds them, so it depends on nothing
but which locations are given, and a valid tree comes back from any of its locations that include
the leaves.
-/

namespace AdaptiveMesh

open LocationCode

variable {D : Nat} {L : Type} [LocationCode D L] [LawfulLocation L]

namespace Tree

variable {t : Tree L}

theorem ofLocations_congr {xs ys : List L} (h : ∀ x, x ∈ ys ↔ x ∈ xs) :
    ofLocations ys = ofLocations xs :=
  (valid_ofLocations ys).eq_of_mem_iff (valid_ofLocations xs) fun x => by
    rw [mem_ofLocations_iff, mem_ofLocations_iff]
    simp only [h]

namespace Valid

/-- A node is a leaf or has one below it. -/
theorem exists_leaf_covered (ht : t.Valid) (n : t.Node) :
    ∃ b, t.isLeaf b = true ∧ Covers (t.location n) (t.location b) := by
  rcases hn : t.isLeaf n with _ | _
  · obtain ⟨b, hb, hbelow⟩ := ht.exists_leaf_below hn
    exact ⟨b, hb, covers_iff.2 (Or.inr hbelow)⟩
  · exact ⟨n, hn, covers_refl _⟩

/-- No valid tree that holds the given locations is smaller. -/
theorem mem_of_mem_ofLocations (ht : t.Valid) {xs : List L} (h : ∀ x ∈ xs, x ∈ t.locations) {x : L}
    (hx : x ∈ (ofLocations xs).locations) : x ∈ t.locations := by
  rcases mem_ofLocations_iff.1 hx with rfl | ⟨y, hy, hcovers⟩
  · exact ht.root_mem
  · exact ht.mem_of_covers (h y hy) hcovers

/-- The leaves of a tree span it, and more of its locations span no more. -/
theorem ofLocations_eq (ht : t.Valid) {xs : List L} (hxs : ∀ x ∈ xs, x ∈ t.locations)
    (hleaves : ∀ b, t.isLeaf b = true → t.location b ∈ xs) : ofLocations xs = t := by
  refine (valid_ofLocations xs).eq_of_mem_iff ht fun x => ⟨ht.mem_of_mem_ofLocations hxs, ?_⟩
  intro hx
  obtain ⟨n, rfl⟩ := mem_locations_iff.1 hx
  obtain ⟨b, hb, hcovers⟩ := ht.exists_leaf_covered n
  exact mem_ofLocations_iff.2 (Or.inr ⟨_, hleaves b hb, hcovers⟩)

end Valid

/-- The tree over some locations lists the root, the locations and everything above them, each once
and in depth-first order, and it is the same for any list of the same locations. A valid tree is the
tree over its leaves, in any order, and over all its locations. -/
theorem ofLocations_spans (L : Type) [LocationCode D L] [LawfulLocation L] :
    (∀ xs : List L,
      (∀ x, x ∈ (ofLocations xs).locations ↔ x = root ∨ ∃ y ∈ xs, path x <+: path y) ∧
      ((ofLocations xs).locations.toList.Pairwise fun x y => compare x y = .lt) ∧
      (ofLocations xs).locations.toList.Nodup ∧
      ∀ ys : List L, (∀ x, x ∈ ys ↔ x ∈ xs) → ofLocations ys = ofLocations xs) ∧
    ∀ t : Tree L, t.Valid →
      (∀ ys : List L, ys.Perm (t.leaves.map t.location) → ofLocations ys = t) ∧
      ofLocations t.locations.toList = t := by
  refine ⟨fun xs => ?_, fun t ht => ⟨fun ys hys => ?_, ?_⟩⟩
  · have hvalid := valid_ofLocations xs
    refine ⟨fun x => ?_, hvalid.ascending, hvalid.nodup_locations, fun ys => ofLocations_congr⟩
    rw [mem_ofLocations_iff]
    simp only [covers_iff_path]
  · refine ht.ofLocations_eq (fun x hx => ?_) fun b hb => ?_
    · obtain ⟨b, -, rfl⟩ := List.mem_map.1 (hys.mem_iff.1 hx)
      exact t.location_mem b
    · exact hys.mem_iff.2 (List.mem_map.2 ⟨b, Valid.mem_leaves_iff.2 hb, rfl⟩)
  · exact ht.ofLocations_eq (fun x hx => Array.mem_toList_iff.1 hx) fun b _ =>
      Array.mem_toList_iff.2 (t.location_mem b)

/-- Two leaves of a tree with gaps, one of them listed twice; and the tree from all its leaves, the
last one first, and from everything it lists. -/
theorem ofLocations_spans_gapped : gapped.Valid ∧
    ofLocations (L := GridLocation 2) [.square 2 3 1, .square 1 0 0, .square 2 3 1] =
      ofLocations [.square 1 0 0, .square 2 3 1] ∧
    ofLocations [.square 1 1 1, .square 2 3 1, .square 1 0 0] = gapped ∧
    ofLocations gapped.locations.toList = gapped := by
  have hvalid : gapped.Valid := by decide +kernel
  have hleaves : gapped.leaves.map gapped.location =
      [.square 1 0 0, .square 2 3 1, .square 1 1 1] := by decide +kernel
  obtain ⟨hover, hback⟩ := ofLocations_spans (GridLocation 2)
  obtain ⟨-, -, -, hsame⟩ := hover [.square 1 0 0, .square 2 3 1]
  obtain ⟨hshuffled, hall⟩ := hback gapped hvalid
  refine ⟨hvalid, hsame _ (by simp), hshuffled _ ?_, hall⟩
  rw [hleaves]
  exact List.reverse_perm [_, _, _]

end Tree

end AdaptiveMesh
