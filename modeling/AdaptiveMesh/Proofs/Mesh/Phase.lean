import AdaptiveMesh.Mesh.Exchange
import AdaptiveMesh.Proofs.Mesh.Built
import AdaptiveMesh.Proofs.Tree.Valid

/-!
# Runs of a phase

A phase gathers one update for each leaf and then applies them. Since no leaf comes twice, the tile
of a leaf changes by the update of that leaf alone, and the counts are the sums over the leaves.
-/

namespace AdaptiveMesh

variable {D : Nat} {L S : Type}

/-! ## Writing several cells -/

namespace StateBuffer

/-- Writes updates into a buffer, one after the other. -/
def writeAll (b : StateBuffer S) (us : List (CellUpdate S)) : Except Fault (StateBuffer S) :=
  us.foldlM (fun state u => state.set u.index u.values) b

variable {b b' : StateBuffer S} {us : List (CellUpdate S)}

theorem writeAll_cons_eq_ok_iff {u : CellUpdate S} : b.writeAll (u :: us) = .ok b' ↔
    ∃ b₁, b.set u.index u.values = .ok b₁ ∧ b₁.writeAll us = .ok b' := by
  unfold writeAll
  rw [List.foldlM_cons, bind_eq_ok_iff]

theorem sameShape_of_writeAll (h : b.writeAll us = .ok b') : SameShape b' b :=
  foldlM_invariant (motive := fun c => SameShape c b) (SameShape.refl b)
    (fun _ _ _ _ hc hset => (sameShape_of_set hset).trans hc) h

/-- A cell that no update is for keeps its values. -/
theorem get_of_writeAll_of_forall_ne {j : Nat} (h : b.writeAll us = .ok b')
    (hj : ∀ u ∈ us, u.index ≠ j) : b'.get j = b.get j := by
  refine foldlM_invariant (motive := fun c => c.get j = b.get j) rfl (fun c u c' hu hc hset => ?_) h
  rw [get_of_set hset, if_neg (hj u hu).symm, hc]

/-- If no two updates are for one cell, each cell that is written holds the values of its update. -/
theorem get_of_writeAll_of_mem {u : CellUpdate S} (h : b.writeAll us = .ok b')
    (hnodup : (us.map CellUpdate.index).Nodup) (hu : u ∈ us) : b'.get u.index = .ok u.values := by
  induction us generalizing b with
  | nil => contradiction
  | cons w us ih =>
    obtain ⟨b₁, hset, hrest⟩ := writeAll_cons_eq_ok_iff.1 h
    rw [List.map_cons, List.nodup_cons] at hnodup
    rcases List.mem_cons.1 hu with rfl | hu
    · have hne : ∀ w ∈ us, w.index ≠ u.index := fun w hw he =>
        hnodup.1 (List.mem_map.2 ⟨w, hw, he⟩)
      rw [get_of_writeAll_of_forall_ne hrest hne, get_of_set hset, if_pos rfl]
    · exact ih hrest hnodup.2 hu

theorem Holds.exists_writeAll {cells : Nat} (hb : b.Holds cells)
    (h : ∀ u ∈ us, u.index < cells ∧ u.values.size = b.variableCount) :
    ∃ b', b.writeAll us = .ok b' := by
  induction us generalizing b with
  | nil => exact ⟨b, rfl⟩
  | cons u us ih =>
    obtain ⟨hi, hv⟩ := h u List.mem_cons_self
    obtain ⟨b₁, hset⟩ := hb.exists_set hi hv
    have hshape := sameShape_of_set hset
    obtain ⟨b', hb'⟩ := ih (hb.of_sameShape hshape) fun w hw => by
      rw [hshape.1]
      exact h w (List.mem_cons_of_mem u hw)
    exact ⟨b', writeAll_cons_eq_ok_iff.2 ⟨b₁, hset, hb'⟩⟩

/-- What can be written to a buffer can be written to any of its shape. -/
theorem exists_writeAll_of_sameShape {a : StateBuffer S} (hs : SameShape a b)
    (h : b.writeAll us = .ok b') : ∃ a', a.writeAll us = .ok a' := by
  refine (foldlM_simulation (r := fun b a => SameShape a b) (fun b a u b₁ hs hset => ?_) hs h).imp
    fun a' h => h.1
  obtain ⟨start, hstart, hsize, -⟩ := set_eq_ok_iff.1 hset
  have hset' := set_eq_ok_iff.2 ⟨start, (hs.start_eq u.index).trans hstart, hsize.trans hs.1.symm, rfl⟩
  exact ⟨_, hset', (sameShape_of_set hset').trans (hs.trans (sameShape_of_set hset).symm)⟩

end StateBuffer

/-! ## Counts -/

namespace ExchangeStats

/-- The counts of an exchange. -/
def fields : List (ExchangeStats → Nat) :=
  [copied, restricted, projected, absent, phaseOneTime, phaseTwoTime]

theorem merge_eq_ok_iff {s t r : ExchangeStats} : s.merge t = .ok r ↔
    (∀ field ∈ fields, field s + field t < Word.bound) ∧
      ∀ field ∈ fields, field r = field s + field t := by
  simp only [merge, bind_eq_ok_iff, Word.add_eq_ok_iff, fields, List.forall_mem_cons,
    List.not_mem_nil, false_implies, implies_true, and_true]
  constructor
  · rintro ⟨_, ⟨h₁, rfl⟩, _, ⟨h₂, rfl⟩, _, ⟨h₃, rfl⟩, _, ⟨h₄, rfl⟩, _, ⟨h₅, rfl⟩, _, ⟨h₆, rfl⟩, h⟩
    obtain rfl := Except.ok.inj h
    exact ⟨⟨h₁, h₂, h₃, h₄, h₅, h₆⟩, rfl, rfl, rfl, rfl, rfl, rfl⟩
  · rintro ⟨⟨h₁, h₂, h₃, h₄, h₅, h₆⟩, e₁, e₂, e₃, e₄, e₅, e₆⟩
    refine ⟨_, ⟨h₁, rfl⟩, _, ⟨h₂, rfl⟩, _, ⟨h₃, rfl⟩, _, ⟨h₄, rfl⟩, _, ⟨h₅, rfl⟩, _, ⟨h₆, rfl⟩, ?_⟩
    rw [← e₁, ← e₂, ← e₃, ← e₄, ← e₅, ← e₆]
    rfl

theorem exists_merge {s t : ExchangeStats}
    (h : ∀ field ∈ fields, field s + field t < Word.bound) : ∃ r, s.merge t = .ok r :=
  ⟨⟨s.copied + t.copied, s.restricted + t.restricted, s.projected + t.projected,
    s.absent + t.absent, s.phaseOneTime + t.phaseOneTime, s.phaseTwoTime + t.phaseTwoTime⟩,
    merge_eq_ok_iff.2 ⟨h, by simp [fields]⟩⟩

/-- Parts can be added in either order. -/
theorem exists_merge_comm {s t w r r' : ExchangeStats} (h : s.merge t = .ok r)
    (h' : r.merge w = .ok r') : ∃ q, s.merge w = .ok q ∧ q.merge t = .ok r' := by
  obtain ⟨-, hr⟩ := merge_eq_ok_iff.1 h
  obtain ⟨hlt, hr'⟩ := merge_eq_ok_iff.1 h'
  obtain ⟨q, hq⟩ : ∃ q, s.merge w = .ok q := exists_merge fun field hf => by
    have := hlt field hf
    rw [hr field hf] at this
    omega
  have hfields := (merge_eq_ok_iff.1 hq).2
  refine ⟨q, hq, merge_eq_ok_iff.2 ⟨fun field hf => ?_, fun field hf => ?_⟩⟩
  · have := hlt field hf
    rw [hr field hf] at this
    rw [hfields field hf]
    omega
  · rw [hr' field hf, hr field hf, hfields field hf]
    omega

end ExchangeStats

/-! ## Tiles that may be absent -/

section Rel

variable {α β γ : Type} {r : α → β → Prop} {s : β → γ → Prop}

theorem rel_imp {q : α → β → Prop} {x : Option α} {y : Option β} (hxy : Option.Rel r x y)
    (h : ∀ a b, r a b → q a b) : Option.Rel q x y := by
  cases hxy with
  | none => exact .none
  | some hab => exact .some (h _ _ hab)

theorem rel_swap {q : β → α → Prop} {x : Option α} {y : Option β} (hxy : Option.Rel r x y)
    (h : ∀ a b, r a b → q b a) : Option.Rel q y x := by
  cases hxy with
  | none => exact .none
  | some hab => exact .some (h _ _ hab)

theorem rel_trans {q : α → γ → Prop} {x : Option α} {y : Option β} {z : Option γ}
    (hxy : Option.Rel r x y) (hyz : Option.Rel s y z) (h : ∀ a b c, r a b → s b c → q a c) :
    Option.Rel q x z := by
  cases hxy with
  | none =>
    cases hyz
    exact .none
  | some hab =>
    cases hyz with
    | some hbc => exact .some (h _ _ _ hab hbc)

end Rel

/-! ## Applying updates -/

namespace TileUpdate

variable {t : Tree L}

/-- What becomes of the tile of a node that updates are written to. -/
def Writes (cells : List (CellUpdate S)) (before after : Option (Tile D S)) : Prop :=
  match before with
  | none => after = none
  | some tile => ∃ state, tile.state.writeAll cells = .ok state ∧ after = some { tile with state }

variable {u : TileUpdate t S} {us : List (TileUpdate t S)} {s s' : ExchangeStats}
  {tiles tiles' : Vector (Option (Tile D S)) t.size}

/-- The tiles with another one for a node. -/
theorem eq_set_iff {n : t.Node} {after : Option (Tile D S)} : tiles' = tiles.set n after n.isLt ↔
    tiles'.get n = after ∧ ∀ m, m ≠ n → tiles'.get m = tiles.get m := by
  constructor
  · rintro rfl
    refine ⟨by simp, fun m hm => ?_⟩
    have : n.val ≠ m.val := fun h => hm (Fin.ext h.symm)
    simp [Vector.getElem_set_ne, this]
  · rintro ⟨hn, hother⟩
    refine Vector.ext fun i hi => ?_
    rcases eq_or_ne n.val i with rfl | hne
    · rw [Vector.getElem_set_self]
      exact hn
    · rw [Vector.getElem_set_ne _ _ hne]
      exact hother ⟨i, hi⟩ fun h => hne (congrArg Fin.val h).symm

/-- Applying an update changes the tile of its node alone. -/
theorem apply_eq_ok_iff : apply (s, tiles) u = .ok (s', tiles') ↔ s.merge u.stats = .ok s' ∧
    ∃ after, Writes u.cells (tiles.get u.node) after ∧ tiles' = tiles.set u.node after u.node.isLt := by
  unfold apply
  rw [bind_eq_ok_iff]
  rcases htile : tiles.get u.node with _ | tile
  · have hsame : tiles = tiles.set u.node none := eq_set_iff.2 ⟨htile, fun _ _ => rfl⟩
    constructor
    · rintro ⟨s₁, hs₁, h⟩
      simp only at h
      obtain ⟨rfl, rfl⟩ := Prod.mk.inj (Except.ok.inj h)
      exact ⟨hs₁, none, rfl, hsame⟩
    · rintro ⟨hs, after, rfl, rfl⟩
      refine ⟨s', hs, ?_⟩
      simp only
      rw [← hsame]
      rfl
  · constructor
    · rintro ⟨s₁, hs₁, h⟩
      simp only at h
      obtain ⟨state, hstate, h⟩ := bind_eq_ok_iff.1 h
      obtain ⟨rfl, rfl⟩ := Prod.mk.inj (Except.ok.inj h)
      exact ⟨hs₁, _, ⟨state, hstate, rfl⟩, rfl⟩
    · rintro ⟨hs, after, ⟨state, hstate, rfl⟩, rfl⟩
      refine ⟨s', hs, ?_⟩
      simp only
      exact bind_eq_ok_iff.2 ⟨state, hstate, rfl⟩

/-- Updates of different nodes can be applied in either order. -/
theorem exists_apply_comm {v : TileUpdate t S} (hne : u.node ≠ v.node)
    {p p₁ p₂ : ExchangeStats × Vector (Option (Tile D S)) t.size} (hu : apply p u = .ok p₁)
    (hv : apply p₁ v = .ok p₂) : ∃ p₁', apply p v = .ok p₁' ∧ apply p₁' u = .ok p₂ := by
  obtain ⟨s, tiles⟩ := p
  obtain ⟨s₁, tiles₁⟩ := p₁
  obtain ⟨s₂, tiles₂⟩ := p₂
  obtain ⟨hmerge, a, ha, rfl⟩ := apply_eq_ok_iff.1 hu
  obtain ⟨hmerge', b, hb, rfl⟩ := apply_eq_ok_iff.1 hv
  obtain ⟨s₁', hs₁', hs₂⟩ := ExchangeStats.exists_merge_comm hmerge hmerge'
  have hval : u.node.val ≠ v.node.val := fun h => hne (Fin.ext h)
  rw [(eq_set_iff.1 rfl).2 v.node hne.symm] at hb
  refine ⟨(s₁', tiles.set v.node b), apply_eq_ok_iff.2 ⟨hs₁', b, hb, rfl⟩,
    apply_eq_ok_iff.2 ⟨hs₂, a, ?_, Vector.set_comm a b hval⟩⟩
  rwa [(eq_set_iff.1 rfl).2 u.node hne]

/-- Updates of different nodes can be applied in any order. -/
theorem foldlM_apply_of_perm {vs : List (TileUpdate t S)}
    {p r : ExchangeStats × Vector (Option (Tile D S)) t.size} (hp : us.Perm vs)
    (hnodup : (us.map TileUpdate.node).Nodup) (h : us.foldlM apply p = .ok r) :
    vs.foldlM apply p = .ok r :=
  foldlM_eq_ok_of_perm (fun _ _ => Ne.symm) (fun _ _ _ _ _ hne hu hv => exists_apply_comm hne hu hv)
    hp (List.pairwise_map.1 hnodup) h

/-- Updates of different nodes change the tile of each node by its own update, and no other tile. -/
theorem foldlM_apply_eq_ok (hnodup : (us.map TileUpdate.node).Nodup)
    (h : us.foldlM apply (s, tiles) = .ok (s', tiles')) :
    (∀ u ∈ us, Writes u.cells (tiles.get u.node) (tiles'.get u.node)) ∧
      (∀ n, n ∉ us.map TileUpdate.node → tiles'.get n = tiles.get n) ∧
      ∀ field ∈ ExchangeStats.fields,
        field s' = field s + (us.map fun u => field u.stats).sum := by
  induction us generalizing s tiles with
  | nil =>
    obtain ⟨rfl, rfl⟩ := Prod.mk.inj (Except.ok.inj h)
    simp
  | cons u us ih =>
    rw [List.foldlM_cons] at h
    obtain ⟨⟨s₁, tiles₁⟩, hu, h⟩ := bind_eq_ok_iff.1 h
    rw [List.map_cons, List.nodup_cons] at hnodup
    obtain ⟨hmerge, after, hwrites, hset⟩ := apply_eq_ok_iff.1 hu
    obtain ⟨rfl, hother⟩ := eq_set_iff.1 hset
    obtain ⟨hus, hrest, hfields⟩ := ih hnodup.2 h
    refine ⟨?_, fun n hn => ?_, fun field hf => ?_⟩
    · intro w hw
      rcases List.mem_cons.1 hw with rfl | hw
      · rw [hrest _ hnodup.1]
        exact hwrites
      · have hne : w.node ≠ u.node := fun he => hnodup.1 (List.mem_map.2 ⟨w, hw, he⟩)
        rw [← hother _ hne]
        exact hus w hw
    · rw [List.map_cons, List.mem_cons, not_or] at hn
      rw [hrest n hn.2, hother n hn.1]
    · rw [hfields field hf, (ExchangeStats.merge_eq_ok_iff.1 hmerge).2 field hf, List.map_cons,
        List.sum_cons, Nat.add_assoc]

theorem exists_foldlM_apply (hnodup : (us.map TileUpdate.node).Nodup)
    (hwrites : ∀ u ∈ us, ∃ after, Writes u.cells (tiles.get u.node) after)
    (hfields : ∀ field ∈ ExchangeStats.fields,
      field s + (us.map fun u => field u.stats).sum < Word.bound) :
    ∃ r, us.foldlM apply (s, tiles) = .ok r := by
  induction us generalizing s tiles with
  | nil => exact ⟨_, rfl⟩
  | cons u us ih =>
    rw [List.map_cons, List.nodup_cons] at hnodup
    obtain ⟨after, hafter⟩ := hwrites u List.mem_cons_self
    obtain ⟨s₁, hs₁⟩ := ExchangeStats.exists_merge (s := s) (t := u.stats) fun field hf => by
      have := hfields field hf
      rw [List.map_cons, List.sum_cons] at this
      omega
    have hu : apply (s, tiles) u = .ok (s₁, tiles.set u.node after) :=
      apply_eq_ok_iff.2 ⟨hs₁, after, hafter, rfl⟩
    have hother := (eq_set_iff.1 (rfl : tiles.set u.node after = tiles.set u.node after)).2
    have hrest : ∀ w ∈ us, ∃ after', Writes w.cells ((tiles.set u.node after).get w.node) after' := by
      intro w hw
      rw [hother _ fun he => hnodup.1 (List.mem_map.2 ⟨w, hw, he⟩)]
      exact hwrites w (List.mem_cons_of_mem u hw)
    obtain ⟨r, hr⟩ := ih (s := s₁) hnodup.2 hrest fun field hf => by
      have := hfields field hf
      rw [List.map_cons, List.sum_cons] at this
      rw [(ExchangeStats.merge_eq_ok_iff.1 hs₁).2 field hf]
      omega
    exact ⟨r, by rw [List.foldlM_cons, hu, ok_bind, hr]⟩

/-- The tiles are of the same nodes and have buffers of the same shapes. -/
def SameShapes (tiles other : Vector (Option (Tile D S)) t.size) : Prop :=
  ∀ n, Option.Rel (fun a b => StateBuffer.SameShape b.state a.state) (tiles.get n) (other.get n)

theorem SameShapes.set {tiles other : Vector (Option (Tile D S)) t.size}
    (h : SameShapes tiles other) (n : t.Node) {a b : Option (Tile D S)}
    (hab : Option.Rel (fun a b => StateBuffer.SameShape b.state a.state) a b) :
    SameShapes (tiles.set n a) (other.set n b) := by
  obtain ⟨ha, htiles⟩ := eq_set_iff.1 (rfl : tiles.set n a = tiles.set n a)
  obtain ⟨hb, hother⟩ := eq_set_iff.1 (rfl : other.set n b = other.set n b)
  intro m
  by_cases hm : m = n
  · rw [hm, ha, hb]
    exact hab
  · rw [htiles m hm, hother m hm]
    exact h m

/-- An update that can be applied to some tiles can be applied to all of the same shapes, with the
same counts. -/
theorem exists_apply_of_sameShapes {other : Vector (Option (Tile D S)) t.size}
    (hshapes : SameShapes tiles other) (h : apply (s, tiles) u = .ok (s', tiles')) :
    ∃ other', apply (s, other) u = .ok (s', other') ∧ SameShapes tiles' other' := by
  obtain ⟨hmerge, after, hwrites, rfl⟩ := apply_eq_ok_iff.1 h
  have hrel := hshapes u.node
  generalize htile : tiles.get u.node = tile at hrel hwrites
  generalize hother : other.get u.node = tile' at hrel
  cases hrel with
  | none =>
    obtain rfl := hwrites
    exact ⟨other.set u.node none, apply_eq_ok_iff.2 ⟨hmerge, none, by rw [hother]; rfl, rfl⟩,
      hshapes.set u.node .none⟩
  | @some a b hab =>
    obtain ⟨state, hstate, rfl⟩ := hwrites
    obtain ⟨state', hstate'⟩ := StateBuffer.exists_writeAll_of_sameShape hab hstate
    refine ⟨other.set u.node (some { b with state := state' }), apply_eq_ok_iff.2 ⟨hmerge, _,
      by rw [hother]; exact ⟨state', hstate', rfl⟩, rfl⟩, hshapes.set u.node (.some ?_)⟩
    exact (StateBuffer.sameShape_of_writeAll hstate').trans
      (hab.trans (StateBuffer.sameShape_of_writeAll hstate).symm)

theorem exists_foldlM_apply_of_sameShapes {other : Vector (Option (Tile D S)) t.size}
    (hshapes : SameShapes tiles other) (h : us.foldlM apply (s, tiles) = .ok (s', tiles')) :
    ∃ other', us.foldlM apply (s, other) = .ok (s', other') := by
  have hstep (p q : ExchangeStats × Vector (Option (Tile D S)) t.size) (u : TileUpdate t S)
      (p' : ExchangeStats × Vector (Option (Tile D S)) t.size)
      (hpq : p.1 = q.1 ∧ SameShapes p.2 q.2) (hp : apply p u = .ok p') :
      ∃ q', apply q u = .ok q' ∧ p'.1 = q'.1 ∧ SameShapes p'.2 q'.2 := by
    obtain ⟨p₁, p₂⟩ := p
    obtain ⟨q₁, q₂⟩ := q
    obtain ⟨rfl, hshapes⟩ := hpq
    obtain ⟨other', hother', hshapes'⟩ := exists_apply_of_sameShapes hshapes hp
    exact ⟨_, hother', rfl, hshapes'⟩
  obtain ⟨⟨_, other'⟩, hrun, rfl, -⟩ :=
    foldlM_simulation hstep (s := (s, tiles)) (t := (s, other)) ⟨rfl, hshapes⟩ h
  exact ⟨other', hrun⟩

end TileUpdate

/-! ## A run -/

namespace Mesh

variable [LocationCode D L] {mesh after : Mesh D L S}
  {gather : mesh.tree.Node → Except Fault (TileUpdate mesh.tree S)} {stats : ExchangeStats}

/-- The mesh with other tiles. -/
def withTiles (mesh : Mesh D L S) (tiles : Vector (Option (Tile D S)) mesh.tree.size) :
    Mesh D L S := { mesh with tiles }

/-- A run changes the tile of each leaf by what was gathered for the leaf, and no other tile. -/
theorem runPhase_eq_ok (hnode : ∀ n, mesh.tree.isLeaf n = true → ∀ u, gather n = .ok u → u.node = n)
    (h : mesh.runPhase gather = .ok (stats, after)) : ∃ tiles, after = mesh.withTiles tiles ∧
      (∀ n, mesh.tree.isLeaf n = true → ∃ u, gather n = .ok u ∧
        TileUpdate.Writes u.cells (mesh.tile? n) (tiles.get n)) ∧
      (∀ n, mesh.tree.isLeaf n = false → tiles.get n = mesh.tile? n) ∧
      ∃ us, mesh.tree.leaves.mapM gather = .ok us ∧ ∀ field ∈ ExchangeStats.fields,
        field stats = (us.map fun u => field u.stats).sum := by
  unfold runPhase at h
  obtain ⟨us, hus, h⟩ := bind_eq_ok_iff.1 h
  obtain ⟨⟨s, tiles⟩, hfold, h⟩ := bind_eq_ok_iff.1 h
  obtain ⟨rfl, rfl⟩ := Prod.mk.inj (Except.ok.inj h)
  have hmap := map_eq_of_mapM_eq_ok
    (fun n hn u hu => hnode n (Tree.Valid.mem_leaves_iff.1 hn) u hu) hus
  obtain ⟨hwrites, hother, hfields⟩ :=
    TileUpdate.foldlM_apply_eq_ok (hmap ▸ Tree.Valid.nodup_leaves) hfold
  refine ⟨tiles, rfl, fun n hn => ?_, fun n hn => ?_, us, hus, fun field hf => ?_⟩
  · have hmem : n ∈ us.map TileUpdate.node := hmap ▸ Tree.Valid.mem_leaves_iff.2 hn
    obtain ⟨u, hu, rfl⟩ := List.mem_map.1 hmem
    obtain ⟨m, hmleaf, hm⟩ := (mem_of_mapM_eq_ok hus).1 hu
    obtain rfl := hnode m (Tree.Valid.mem_leaves_iff.1 hmleaf) u hm
    exact ⟨u, hm, hwrites u hu⟩
  · refine hother n ?_
    rw [hmap, Tree.Valid.mem_leaves_iff, hn]
    exact Bool.false_ne_true
  · rw [hfields field hf]
    have hzero : field ExchangeStats.zero = 0 := by
      simp only [ExchangeStats.fields, List.mem_cons, List.not_mem_nil, or_false] at hf
      rcases hf with rfl | rfl | rfl | rfl | rfl | rfl <;> rfl
    rw [hzero, Nat.zero_add]

/-- A phase runs if all leaves can be gathered, their updates fit their tiles and the counts fit
their words. -/
theorem exists_runPhase (hnode : ∀ n, mesh.tree.isLeaf n = true → ∀ u, gather n = .ok u → u.node = n)
    (hgather : ∀ n, mesh.tree.isLeaf n = true → ∃ u, gather n = .ok u ∧
      ∃ tile, TileUpdate.Writes u.cells (mesh.tile? n) tile)
    (hfields : ∀ us, mesh.tree.leaves.mapM gather = .ok us → ∀ field ∈ ExchangeStats.fields,
      (us.map fun u => field u.stats).sum < Word.bound) :
    ∃ r, mesh.runPhase gather = .ok r := by
  obtain ⟨us, hus⟩ := exists_mapM_eq_ok gather mesh.tree.leaves fun n hn =>
    (hgather n (Tree.Valid.mem_leaves_iff.1 hn)).imp fun _ h => h.1
  have hmap := map_eq_of_mapM_eq_ok
    (fun n hn u hu => hnode n (Tree.Valid.mem_leaves_iff.1 hn) u hu) hus
  have hnodup : (us.map TileUpdate.node).Nodup := hmap ▸ Tree.Valid.nodup_leaves
  have hwrites : ∀ u ∈ us, ∃ after, TileUpdate.Writes u.cells (mesh.tile? u.node) after := by
    intro u hu
    obtain ⟨n, hn, hu⟩ := (mem_of_mapM_eq_ok hus).1 hu
    obtain ⟨u', hu', hwrites⟩ := hgather n (Tree.Valid.mem_leaves_iff.1 hn)
    obtain rfl := Except.ok.inj (hu.symm.trans hu')
    rwa [hnode n (Tree.Valid.mem_leaves_iff.1 hn) u hu]
  obtain ⟨r, hr⟩ := TileUpdate.exists_foldlM_apply (s := ExchangeStats.zero) hnodup hwrites
    fun field hf => by
      have := hfields us hus field hf
      simp only [ExchangeStats.fields, List.mem_cons, List.not_mem_nil, or_false] at hf
      rcases hf with rfl | rfl | rfl | rfl | rfl | rfl <;> simpa [ExchangeStats.zero] using this
  exact ⟨_, by unfold runPhase; rw [hus, ok_bind, hr, ok_bind]; rfl⟩

/-- A phase that runs on a mesh runs on tiles of the same shapes, with the same counts. -/
theorem exists_runPhase_of_sameShapes {tiles : Vector (Option (Tile D S)) mesh.tree.size}
    (hshapes : TileUpdate.SameShapes mesh.tiles tiles)
    (h : mesh.runPhase gather = .ok (stats, after)) :
    ∃ tiles', (mesh.withTiles tiles).runPhase gather = .ok (stats, mesh.withTiles tiles') := by
  unfold runPhase at h
  obtain ⟨us, hus, h⟩ := bind_eq_ok_iff.1 h
  obtain ⟨⟨s, mid⟩, hfold, h⟩ := bind_eq_ok_iff.1 h
  obtain ⟨rfl, -⟩ := Prod.mk.inj (Except.ok.inj h)
  obtain ⟨tiles', hfold'⟩ := TileUpdate.exists_foldlM_apply_of_sameShapes hshapes hfold
  exact ⟨tiles', bind_eq_ok_iff.2 ⟨us, hus, bind_eq_ok_iff.2 ⟨_, hfold', rfl⟩⟩⟩

end Mesh

end AdaptiveMesh
