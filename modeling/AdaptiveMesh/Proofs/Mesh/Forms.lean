import AdaptiveMesh.Mesh.Exchange
import AdaptiveMesh.Proofs.Mesh.GoesThrough
import AdaptiveMesh.Proofs.Tree.Forms

/-!
# Meshes in two stored forms

Meshes of a tree and of its conversion to another stored form, with the same configuration and the
same values, stay so under whatever scalars compute: the leaf over a point has one index, and either
phase of an exchange ends in the same fault or in the same counts and values.
-/

namespace AdaptiveMesh

open LocationCode

variable {D : Nat} {L M S : Type} [LocationCode D L] [LocationCode D M] [Scalar S]

theorem endAlike_ofFnM {ε α : Type} {n m : Nat} {broken : Set ε} {f : Fin n → Except ε α}
    {g : Fin m → Except ε α} (hm : m = n) (hfg : ∀ i, g (Fin.cast hm.symm i) = f i) :
    EndAlike broken (fun v w => ∀ i, w.get (Fin.cast hm.symm i) = v.get i)
      (Vector.ofFnM f) (Vector.ofFnM g) := by
  subst hm
  obtain rfl : g = f := funext hfg
  rcases Vector.ofFnM g with e | v
  · exact .error e
  · exact .ok fun i => rfl

/-- The update for another tree's node. -/
def TileUpdate.onNode {t : Tree L} {u : Tree M} (node : t.Node → u.Node) (w : TileUpdate t S) :
    TileUpdate u S :=
  ⟨node w.node, w.cells, w.absent⟩

namespace Mesh

/-! ## Meshes that match -/

/-- The meshes have conversions of each other for trees, and beyond that the same configuration and
the same tiles. -/
structure Matches (mesh : Mesh D L S) (mesh' : Mesh D M S) : Prop where
  tree : mesh.tree.ConvertsTo mesh'.tree
  config : mesh'.config = mesh.config
  layout : mesh'.layout = mesh.layout
  tile? (n : mesh.tree.Node) : mesh'.tile? (tree.node n) = mesh.tile? n

/-- The runs have the same counts and lead to meshes that match. -/
def SameRun (r : ExchangeStats × Mesh D L S) (r' : ExchangeStats × Mesh D M S) : Prop :=
  r'.1 = r.1 ∧ Matches r.2 r'.2

variable [LawfulLocation L] [LawfulLocation M]

theorem makeTile?_node {t : Tree L} {u : Tree M} (h : t.ConvertsTo u) (config : MeshConfig S)
    (layout : TileLayout D) (n : t.Node) :
    makeTile? config layout u (h.node n) = makeTile? config layout t n := by
  have hbox : config.nodeBox (u.location (h.node n)) = config.nodeBox (t.location n) := by
    unfold MeshConfig.nodeBox MeshConfig.nodeLower
    rw [(h.samePath n).level_eq, (h.samePath n).coordinates_eq]
  unfold makeTile?
  rw [h.isLeaf_node, hbox, h.level_node]
  rfl

/-- Meshes of a tree and its conversion are refused for the same reason, or match. -/
theorem endAlike_make {t : Tree L} {u : Tree M} (h : t.ConvertsTo u) (config : MeshConfig S) :
    EndAlike ∅ Matches (make (D := D) t config) (make u config) := by
  unfold make
  refine EndAlike.bind_same fun _ => ?_
  refine EndAlike.bind_same fun layout => ?_
  refine ((endAlike_ofFnM h.size (makeTile?_node h config layout)).mapError _).bind ?_
  intro tiles tiles' htiles
  exact .ok ⟨h, rfl, rfl, htiles⟩

/-! ## Leaves under points -/

omit [LawfulLocation L] in
theorem leafBelow_succ {t : Tree L} {place : Vector S D} {levels : Nat} {n : t.Node} :
    leafBelow t place (levels + 1) n = if t.isLeaf n then some n
      else ((child? (t.location n) (childOver place (t.level n + 1))).bind t.nodeAt?).bind
        (leafBelow t place levels) := by
  rw [leafBelow, Option.bind_assoc]
  rfl

/-- Going down further than the tree goes ends at the same leaf. -/
theorem leafBelow_add {t : Tree L} (ht : t.Valid) {place : Vector S D} {levels : Nat} {n : t.Node}
    (hdepth : ∀ b, t.level b ≤ t.level n + levels) (more : Nat) :
    leafBelow t place (levels + more) n = leafBelow t place levels n := by
  induction levels generalizing n with
  | zero =>
    have hleaf : t.isLeaf n = true := by
      by_contra hn
      obtain ⟨b, hb⟩ := ht.exists_below_of_not_isLeaf (Bool.not_eq_true _ ▸ hn)
      exact absurd (isAncestorOf_iff.1 hb).1 (not_lt.2 (hdepth b))
    cases more with
    | zero => rfl
    | succ more => rw [Nat.zero_add, leafBelow_succ, leafBelow, if_pos hleaf, if_pos hleaf]
  | succ levels ih =>
    rw [Nat.add_right_comm, leafBelow_succ, leafBelow_succ]
    split
    · rfl
    · rcases hchild : child? (t.location n) (childOver place (t.level n + 1)) with _ | c
      · rfl
      · rcases hm : t.nodeAt? c with _ | m
        · rw [Option.bind_some, hm]
          rfl
        · have hlevel : t.level m = t.level n + 1 := by
            rw [Tree.level, ht.nodeAt?_eq_some_iff.1 hm, (child?_eq_some_iff.1 hchild).1,
              Tree.level]
          rw [Option.bind_some, hm, Option.bind_some, Option.bind_some,
            ih fun b => by have := hdepth b; omega]

theorem leafBelow_node {t : Tree L} {u : Tree M} (h : t.ConvertsTo u) (ht : t.Valid)
    (place : Vector S D) (levels : Nat) (n : t.Node) :
    leafBelow u place levels (h.node n) = (leafBelow t place levels n).map h.node := by
  induction levels generalizing n with
  | zero =>
    rw [leafBelow, leafBelow, h.isLeaf_node]
    split <;> rfl
  | succ levels ih =>
    rw [leafBelow_succ, leafBelow_succ, h.isLeaf_node, h.level_node, h.bind_child?_node ht]
    split
    · rfl
    · rcases (child? (t.location n) (childOver place (t.level n + 1))).bind t.nodeAt? with _ | m
      · rfl
      · exact ih m

namespace Matches

variable {mesh : Mesh D L S} {mesh' : Mesh D M S} (h : Matches mesh mesh') (ht : mesh.tree.Valid)

include h ht

theorem leafContaining_eq [Dimension D] (x : Point S) :
    mesh'.leafContaining x = (mesh.leafContaining x).map h.tree.node := by
  have hroot : SamePath (root : L) (root : M) := samePath_iff.2 (by simp)
  have hdeepest {K : Type} [LocationCode D K] [LawfulLocation K] (s : Tree K) (n b : s.Node) :
      s.level b ≤ s.level n + maxLevel K :=
    le_add_left (LawfulLocation.level_le _)
  have hbelow (place : Vector S D) (n : mesh.tree.Node) :
      leafBelow mesh'.tree place (maxLevel M) (h.tree.node n) =
        (leafBelow mesh.tree place (maxLevel L) n).map h.tree.node := by
    have hu := h.tree.valid_of_valid ht
    rw [← leafBelow_add hu (hdeepest mesh'.tree _) (maxLevel L), leafBelow_node h.tree ht,
      Nat.add_comm, leafBelow_add ht (hdeepest mesh.tree n)]
  unfold leafContaining
  rw [h.config, h.tree.nodeAt?_eq ht hroot]
  simp only
  split
  · rcases mesh.tree.nodeAt? root with _ | n
    · rfl
    · exact hbelow _ n
  · rfl

/-- Both restrict a box alike if they do so where it has to be cut. -/
theorem restrictWithin_eq_of [Dimension D] {halvings : Nat} {x : Point S} {length : S}
    (hcut : ∀ leaf leaf' tile, mesh.leafContaining x = some leaf →
      mesh'.leafContaining x = some leaf' → mesh.tile? leaf = some tile →
        mesh'.tile? leaf' = some tile →
          Scalar.lt (Scalar.threeQuarters * length) tile.cellLength = false →
            mesh'.restrictWithin halvings x length = mesh.restrictWithin halvings x length) :
    mesh'.restrictWithin halvings x length = mesh.restrictWithin halvings x length := by
  have hfound := h.leafContaining_eq ht x
  rcases hleaf : mesh.leafContaining x with _ | leaf
  · rw [hleaf] at hfound
    rw [restrictWithin_of_none hleaf, restrictWithin_of_none hfound]
  · rw [hleaf] at hfound
    rcases htile : mesh.tile? leaf with _ | tile
    · rw [restrictWithin_of_tile?_eq_none hleaf htile,
        restrictWithin_of_tile?_eq_none hfound ((h.tile? leaf).trans htile)]
    · cases hlt : Scalar.lt (Scalar.threeQuarters * length) tile.cellLength with
      | true =>
        rw [restrictWithin_eq_readCell hleaf htile hlt,
          restrictWithin_eq_readCell hfound ((h.tile? leaf).trans htile) hlt]
      | false => exact hcut _ _ tile hleaf hfound htile ((h.tile? leaf).trans htile) hlt

/-- Under equal bounds both restrict alike. -/
theorem restrictWithin_eq [Dimension D] (halvings : Nat) :
    mesh'.restrictWithin halvings = mesh.restrictWithin halvings := by
  induction halvings with
  | zero =>
    funext x length
    refine h.restrictWithin_eq_of ht fun leaf leaf' tile hleaf hleaf' htile htile' hlt => ?_
    rw [restrictWithin_zero hleaf htile hlt, restrictWithin_zero hleaf' htile' hlt]
  | succ halvings ih =>
    funext x length
    refine h.restrictWithin_eq_of ht fun leaf leaf' tile hleaf hleaf' htile htile' hlt => ?_
    rw [restrictWithin_of_not_lt hleaf htile hlt, restrictWithin_of_not_lt hleaf' htile' hlt, ih]

theorem restrict_eq [Dimension D] : mesh'.restrict = mesh.restrict :=
  h.restrictWithin_eq ht (mostHalvings S)

omit [Scalar S] in
/-- The tiles next to a leaf are the same. -/
theorem neighborTiles_node (n : mesh.tree.Node) :
    mesh'.neighborTiles (h.tree.node n) = mesh.neighborTiles n := by
  have htile : mesh'.tile? ∘ h.tree.node = mesh.tile? := funext h.tile?
  unfold neighborTiles
  rw [funext (h.tree.leafNeighbors_node ht n), mapM_map]
  rcases (Direction.all D).mapM (mesh.tree.leafNeighbors n) with e | found
  · rfl
  · refine congrArg Except.ok (Prod.ext ?_ ?_)
    · rw [← List.map_flatten, eraseDups_map h.tree.node_injective, List.filterMap_map, htile]
    · rw [List.countP_map]
      exact List.countP_congr fun ns _ => by simp

/-! ## Gathering -/

section Gather

variable [Dimension D]

/-- What phase one writes to a halo cell is the same. -/
theorem phaseOneUpdate_eq (tile : Tile D S) (same : List (Tile D S)) (hasFiner : Bool)
    (halo : Cell D) :
    mesh'.phaseOneUpdate tile same hasFiner halo = mesh.phaseOneUpdate tile same hasFiner halo := by
  unfold phaseOneUpdate
  rw [h.restrict_eq ht]
  refine bind_congr fun x => bind_congr fun source => ?_
  rcases source with _ | ⟨neighbor, source⟩
  · rw [h.leafContaining_eq ht x]
    rcases mesh.leafContaining x with _ | covering
    · rfl
    · simp only [Option.map_some, h.tree.level_node]
  · rfl

/-- The update of a leaf is that of the node with the same index. -/
theorem gatherPhaseOne_node (n : mesh.tree.Node) : mesh'.gatherPhaseOne (h.tree.node n) =
    TileUpdate.onNode h.tree.node <$> mesh.gatherPhaseOne n := by
  unfold gatherPhaseOne
  rw [h.tile?, h.neighborTiles_node ht]
  rcases mesh.tile? n with _ | tile
  · rfl
  · simp only [map_bind]
    refine bind_congr ?_
    rintro ⟨neighbors, absent⟩
    refine bind_congr fun halos => ?_
    rw [funext (h.phaseOneUpdate_eq ht tile _ _)]
    exact bind_congr fun _ => rfl

theorem gatherPhaseTwo_node (limiter : Limiter) (n : mesh.tree.Node) :
    mesh'.gatherPhaseTwo limiter (h.tree.node n) =
      TileUpdate.onNode h.tree.node <$> mesh.gatherPhaseTwo limiter n := by
  unfold gatherPhaseTwo
  rw [h.tile?, h.neighborTiles_node ht]
  rcases mesh.tile? n with _ | tile
  · rfl
  · simp only [map_bind]
    refine bind_congr ?_
    rintro ⟨neighbors, absent⟩
    split
    · rfl
    · simp only [map_bind]
      exact bind_congr fun _ => bind_congr fun _ => rfl

end Gather

/-! ## Applying -/

omit [Scalar S] [LawfulLocation L] [LawfulLocation M] ht in
theorem endAlike_apply {s : ExchangeStats} {tiles : Vector (Option (Tile D S)) mesh.tree.size}
    {tiles' : Vector (Option (Tile D S)) mesh'.tree.size}
    (htiles : ∀ n, tiles'.get (h.tree.node n) = tiles.get n) (w : TileUpdate mesh.tree S) :
    EndAlike ∅ (fun p p' => p'.1 = p.1 ∧ ∀ n, p'.2.get (h.tree.node n) = p.2.get n)
      (TileUpdate.apply (s, tiles) w) (TileUpdate.apply (s, tiles') (w.onNode h.tree.node)) := by
  have hset (after : Option (Tile D S)) (n : mesh.tree.Node) :
      (tiles'.set (h.tree.node w.node) after).get (h.tree.node n) =
        (tiles.set w.node after).get n := by
    obtain ⟨hself, hother⟩ := TileUpdate.eq_set_iff.1
      (rfl : tiles.set w.node after = tiles.set w.node after)
    obtain ⟨hself', hother'⟩ := TileUpdate.eq_set_iff.1
      (rfl : tiles'.set (h.tree.node w.node) after = tiles'.set (h.tree.node w.node) after)
    by_cases hn : n = w.node
    · rw [hn, hself, hself']
    · rw [hother n hn, hother' _ fun he => hn (h.tree.node_injective he), htiles]
  have htile : tiles'.get (w.onNode h.tree.node).node = tiles.get w.node := htiles w.node
  unfold TileUpdate.apply
  refine EndAlike.bind_same fun _ => ?_
  rw [htile]
  rcases tiles.get w.node with _ | tile
  · exact .ok ⟨rfl, htiles⟩
  · refine EndAlike.bind_same fun _ => ?_
    exact .ok ⟨rfl, hset _⟩

omit [Scalar S] ht in
/-- Phases that gather the same updates run alike. -/
theorem endAlike_runPhase {gather : mesh.tree.Node → Except Fault (TileUpdate mesh.tree S)}
    {gather' : mesh'.tree.Node → Except Fault (TileUpdate mesh'.tree S)}
    (hgather : ∀ n, gather' (h.tree.node n) = TileUpdate.onNode h.tree.node <$> gather n) :
    EndAlike ∅ SameRun (mesh.runPhase gather) (mesh'.runPhase gather') := by
  have hleaves : List.Forall₂ (fun n n' => n' = h.tree.node n) mesh.tree.leaves
      mesh'.tree.leaves := by
    rw [h.tree.leaves_eq, List.forall₂_map_right_iff]
    exact List.forall₂_same.2 fun _ _ => rfl
  unfold runPhase
  refine (EndAlike.mapM (s := fun w w' => w' = w.onNode h.tree.node) ?_ hleaves).bind ?_
  · rintro n _ rfl
    exact .of_eq_map (hgather n)
  · intro ws ws' hws
    refine (EndAlike.foldlM (q := fun p p' => p'.1 = p.1 ∧
      ∀ n, p'.2.get (h.tree.node n) = p.2.get n) ?_ hws ⟨rfl, h.tile?⟩).bind ?_
    · rintro w _ ⟨s, tiles⟩ ⟨s', tiles'⟩ rfl ⟨rfl, htiles⟩
      exact h.endAlike_apply htiles w
    · rintro ⟨s, tiles⟩ ⟨s', tiles'⟩ ⟨rfl, htiles⟩
      exact .ok ⟨rfl, h.tree, h.config, h.layout, htiles⟩

/-! ## Phases -/

section Phases

variable [Dimension D]

theorem endAlike_phaseOne : EndAlike ∅ SameRun mesh.phaseOne mesh'.phaseOne :=
  h.endAlike_runPhase (h.gatherPhaseOne_node ht)

theorem endAlike_phaseTwo (limiter : Limiter) :
    EndAlike ∅ SameRun (mesh.phaseTwo limiter) (mesh'.phaseTwo limiter) :=
  h.endAlike_runPhase (h.gatherPhaseTwo_node ht limiter)

end Phases

end Matches

/-- The meshes have the same leaf over each point, and exchanges run alike on them. -/
structure SameRuns [Dimension D] {mesh : Mesh D L S} {mesh' : Mesh D M S} (h : Matches mesh mesh') :
    Prop where
  leafContaining (x : Point S) : mesh'.leafContaining x = (mesh.leafContaining x).map h.tree.node
  phaseOne : EndAlike ∅ SameRun mesh.phaseOne mesh'.phaseOne
  phaseTwo (limiter : Limiter) :
    EndAlike ∅ SameRun (mesh.phaseTwo limiter) (mesh'.phaseTwo limiter)

theorem Matches.sameRuns [Dimension D] {mesh : Mesh D L S} {mesh' : Mesh D M S}
    (h : Matches mesh mesh') (ht : mesh.tree.Valid) : SameRuns h where
  leafContaining := h.leafContaining_eq ht
  phaseOne := h.endAlike_phaseOne ht
  phaseTwo := h.endAlike_phaseTwo ht

/-- In exact arithmetic phase one succeeds on both. -/
theorem Matches.exists_phaseOne [Dimension D] {mesh : Mesh D L ℚ} {mesh' : Mesh D M ℚ}
    (h : Matches mesh mesh') (ht : mesh.tree.Valid) (hb : mesh.Built) (hfit : mesh.ValuesFit) :
    ∃ r r', mesh.phaseOne = .ok r ∧ mesh'.phaseOne = .ok r' ∧ SameRun r r' := by
  obtain ⟨r, hr⟩ := exists_phaseOne_of_valuesFit ht hb hfit
  have hrun := h.endAlike_phaseOne ht
  rw [hr] at hrun
  generalize hr' : mesh'.phaseOne = run' at hrun
  cases hrun with
  | ok hsame => exact ⟨r, _, hr, rfl, hsame⟩

/-- Nothing that a valid tree, the edits made of it and the meshes on it do depends on the stored
form. Its conversion to another form is valid, has the same answers to all questions about nodes and
the same replies to edits, as long as those make no node deeper than both forms can store; and
whatever scalars compute, meshes with one configuration and the same values are made and exchanged
alike. In exact arithmetic phase one succeeds on both. -/
theorem independent_of_form [Dimension D] {t : Tree L} {u : Tree M} (ht : t.Valid)
    (h : t.ConvertsTo u) : u.Valid ∧ Tree.SameQueries h ∧
      (∀ edits : List Tree.Edit, (∀ s ∈ t.reached edits, s.Within (maxLevel M)) →
        (∀ s ∈ u.reached edits, s.Within (maxLevel L)) →
          u.replies edits = t.replies edits ∧
            List.Forall₂ (fun s s' => s.Valid ∧ s'.Valid ∧ s.ConvertsTo s') (t.reached edits)
              (u.reached edits)) ∧
      (∀ (S : Type) [Scalar S] (config : MeshConfig S),
        EndAlike ∅ Matches (make (D := D) t config) (make u config)) ∧
      (∀ (S : Type) [Scalar S] (mesh : Mesh D L S) (mesh' : Mesh D M S)
        (hmatches : Matches mesh mesh'), mesh.tree = t → SameRuns hmatches) ∧
      ∀ (mesh : Mesh D L ℚ) (mesh' : Mesh D M ℚ), Matches mesh mesh' → mesh.tree = t →
        mesh.Built → mesh.ValuesFit →
          ∃ r r', mesh.phaseOne = .ok r ∧ mesh'.phaseOne = .ok r' ∧ SameRun r r' := by
  refine ⟨h.valid_of_valid ht, h.sameQueries ht, fun edits hM hL => h.replies_reached ht hM hL,
    fun S _ config => endAlike_make h config, ?_, ?_⟩
  · rintro S _ mesh mesh' hmatches rfl
    exact hmatches.sameRuns ht
  · rintro mesh mesh' hmatches rfl hb hfit
    exact hmatches.exists_phaseOne ht hb hfit

/-- Grid coordinates and codes of 64 bits. The first edit finds no leaf, the second takes four nodes
out, and the third refines what is left. -/
theorem independent_of_form_graded : Tree.graded.Valid ∧
    ∃ u : Tree (MortonLocation 2 64), Tree.graded.ConvertsTo u ∧
      u.replies [.refine 0, .coarsen 1, .refine 1] =
        [.ok (.refined false), .ok (.coarsened 4), .ok (.refined true)] ∧
      ∃ (mesh : Mesh 2 (GridLocation 2) ℚ) (mesh' : Mesh 2 (MortonLocation 2 64) ℚ) (r r' : _),
        make Tree.graded .unit = .ok mesh ∧ make u .unit = .ok mesh' ∧ Matches mesh mesh' ∧
          mesh.phaseOne = .ok r ∧ mesh'.phaseOne = .ok r' ∧ SameRun r r' := by
  have ht : Tree.graded.Valid := by decide +kernel
  have hdeepest : ∀ n : Tree.graded.Node, Tree.graded.level n ≤ 31 := by decide +kernel
  obtain ⟨u, h⟩ := Tree.exists_convertsTo (M := MortonLocation 2 64) hdeepest
  obtain ⟨-, -, hedits, hmake, -, hexact⟩ := independent_of_form ht h
  have hreached : ∀ s ∈ Tree.graded.reached [.refine 0, .coarsen 1, .refine 1], ∀ n : s.Node,
      s.level n ≤ 31 := by decide +kernel
  obtain ⟨hreplies, -⟩ := hedits [.refine 0, .coarsen 1, .refine 1] hreached
    fun s _ n => (LawfulLocation.level_le (s.location n)).trans (by decide)
  have hvalid : (MeshConfig.unit : MeshConfig ℚ).validate = .ok () := by rfl
  obtain ⟨mesh, hmesh⟩ := exists_make (D := 2) Tree.graded hvalid (by decide)
  have halike := hmake ℚ .unit
  rw [hmesh] at halike
  generalize hmesh' : make (D := 2) (S := ℚ) u .unit = r at halike
  cases halike with
  | ok hmatches =>
    obtain ⟨htree, hconfig, hb⟩ := built_of_make hmesh
    have hfit : mesh.ValuesFit := by
      rw [ValuesFit, TileLayout.extent, hb.layout_eq.1, hb.layout_eq.2, htree, hconfig]
      decide +kernel
    obtain ⟨r, r', hrun⟩ := hexact mesh _ hmatches htree hb hfit
    exact ⟨ht, u, h, hreplies.trans (by decide +kernel), mesh, _, r, r', hmesh, hmesh', hmatches,
      hrun⟩

end Mesh

end AdaptiveMesh
