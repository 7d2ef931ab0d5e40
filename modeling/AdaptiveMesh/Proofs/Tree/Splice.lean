import AdaptiveMesh.Proofs.Tree.Forms
import AdaptiveMesh.Proofs.Tree.Navigate

/-!
# What edits do to the nodes

Refining puts a run of locations behind a node and coarsening takes one out, so the trees before and
after an edit differ by that run alone (`GainsBehind`). The run is the children of the node, or all
that is below it, and coarsening takes out again what refining put in.
-/

namespace AdaptiveMesh

open LocationCode

namespace Tree

variable {D : Nat} {L : Type} [LocationCode D L]

/-- Tree `u` lists what `t` lists and, right behind node `n`, some more locations: the nodes up to
`n` keep their index, and those behind it move up. -/
structure GainsBehind (t : Tree L) (n : t.Node) (xs : List L) (u : Tree L) : Prop where
  size : u.size = t.size + xs.length
  upTo (m : t.Node) : m ≤ n → u.locations[m.val]? = some (t.location m)
  gained (i : Fin xs.length) : u.locations[n.val + 1 + i.val]? = some xs[i]
  behind (m : t.Node) : n < m → u.locations[m.val + xs.length]? = some (t.location m)

variable {t u : Tree L} {n : t.Node} {xs : List L}

theorem getElem?_location (m : t.Node) : t.locations.toList[m.val]? = some (t.location m) := by
  rw [Array.getElem?_toList]
  exact Array.getElem?_eq_getElem m.isLt

theorem length_take_node (n : t.Node) : (t.locations.toList.take (n + 1)).length = n.val + 1 := by
  rw [List.length_take, Array.length_toList]
  exact Nat.min_eq_left n.isLt

theorem exists_node_of_getElem? {i : Nat} {x : L} (h : u.locations[i]? = some x) :
    ∃ m : u.Node, m.val = i ∧ u.location m = x := by
  obtain ⟨hi, hget⟩ := Array.getElem?_eq_some_iff.1 h
  exact ⟨⟨i, hi⟩, rfl, hget⟩

theorem gainsBehind_of_toList (h : u.locations.toList =
    t.locations.toList.take (n + 1) ++ xs ++ t.locations.toList.drop (n + 1)) :
    t.GainsBehind n xs u := by
  have htake := length_take_node n
  have hn : n.val < t.locations.size := n.isLt
  refine ⟨?_, fun m hm => ?_, fun i => ?_, fun m hm => ?_⟩
  · have hsize (v : Tree L) : v.size = v.locations.toList.length := rfl
    rw [hsize, hsize, h, List.length_append, List.length_append, htake, List.length_drop]
    have : n.val < t.locations.toList.length := hn
    omega
  · have hm : m.val < n.val + 1 := Nat.lt_succ_of_le hm
    rw [← Array.getElem?_toList, h, List.append_assoc, List.getElem?_append_left (by omega),
      List.getElem?_take_of_lt hm, getElem?_location]
  · have hi := i.isLt
    rw [← Array.getElem?_toList, h, List.append_assoc, List.getElem?_append_right (by omega),
      htake, Nat.add_sub_cancel_left, List.getElem?_append_left hi, List.getElem?_eq_getElem hi]
    rfl
  · have hm : n.val < m.val := hm
    rw [← Array.getElem?_toList, h,
      List.getElem?_append_right (by rw [List.length_append, htake]; omega), List.length_append,
      htake, List.getElem?_drop, ← getElem?_location]
    congr 1
    omega

/-! ## Refining -/

theorem exists_children_of_level_lt {x : L} (h : LocationCode.level x < LocationCode.maxLevel L) :
    ∃ xs : Vector L (2 ^ D), (∀ p, child? x p = some (xs.get p)) ∧
      (ChildPosition.all D).filterMap (child? x) = xs.toList := by
  have hchild : child? x = fun p => some (push x p h) := funext fun p => dif_pos h
  refine ⟨Vector.ofFn fun p => push x p h, fun p => ?_, ?_⟩
  · rw [hchild]
    simp
  · rw [hchild, Vector.toList_ofFn, List.ofFn_eq_map]
    exact congrFun List.filterMap_eq_map _

variable [LawfulLocation L]

namespace Valid

theorem isSome_refine?_iff (ht : t.Valid) : (t.refine? n).isSome = true ↔
    (∀ m, t.parent? m ≠ some n) ∧ t.level n < LocationCode.maxLevel L := by
  rw [← ht.isLeaf_iff_parent?, ← not_iff_not, ← refine?_eq_none_iff, Option.not_isSome_iff_eq_none]

/-- The children are new, and they are all that a refined node gains. -/
theorem exists_gainsBehind_of_refine? (ht : t.Valid) (h : t.refine? n = some u) :
    ∃ xs : Vector L (2 ^ D), (∀ p, child? (t.location n) p = some (xs.get p)) ∧
      (∀ p, xs.get p ∉ t.locations) ∧ t.GainsBehind n xs.toList u := by
  obtain ⟨hleaf, hlist⟩ := refine?_eq_some h
  have hlevel := (ht.isSome_refine?_iff.1 (by rw [h]; rfl)).2
  obtain ⟨xs, hxs, hchildren⟩ := exists_children_of_level_lt hlevel
  refine ⟨xs, hxs, fun p hp => ?_, gainsBehind_of_toList (by rw [hlist, hchildren])⟩
  have hbelow := isAncestorOf_of_parent? (parent?_of_child? (hxs p))
  rw [ht.isLeaf_iff.1 hleaf _ hp] at hbelow
  contradiction

/-! ## Coarsening -/

omit [LawfulLocation L] in
/-- Putting the descendants of a node back behind it gives the tree before coarsening. -/
theorem exists_gainsBehind_coarsen (n : t.Node) : ∃ m : (t.coarsen n).Node, m.val = n.val ∧
    (t.coarsen n).location m = t.location n ∧
      (t.coarsen n).GainsBehind m (t.descendants n) t := by
  have htake := length_take_node n
  have hlist : (t.coarsen n).locations.toList = t.locations.toList.take (n + 1) ++
      (t.locations.toList.drop (n + 1)).dropWhile (isAncestorOf (t.location n)) := rfl
  have hfront : (t.coarsen n).locations.toList.take (n + 1) =
      t.locations.toList.take (n + 1) := by
    rw [hlist]
    exact List.take_left' htake
  obtain ⟨m, hm, hlocation⟩ : ∃ m : (t.coarsen n).Node, m.val = n.val ∧
      (t.coarsen n).location m = t.location n := by
    refine exists_node_of_getElem? ?_
    rw [← Array.getElem?_toList, ← List.getElem?_take_of_lt (Nat.lt_succ_self n.val), hfront,
      List.getElem?_take_of_lt (Nat.lt_succ_self n.val), getElem?_location]
  refine ⟨m, hm, hlocation, gainsBehind_of_toList ?_⟩
  rw [hm, hfront, hlist, List.drop_left' htake, descendants, List.append_assoc,
    List.takeWhile_append_dropWhile, List.take_append_drop]

theorem ncard_isBelow (ht : t.Valid) (n : t.Node) :
    {m | t.IsBelow m n}.ncard = (t.descendants n).length := by
  have hle := length_descendants_le n
  have himage : Fin.val '' {m | t.IsBelow m n} =
      Finset.Ico (n.val + 1) (n.val + 1 + (t.descendants n).length) := by
    ext i
    simp only [Set.mem_image, Set.mem_ofPred_eq, ht.isBelow_iff_run, Finset.coe_Ico, Set.mem_Ico]
    constructor
    · rintro ⟨m, hm, rfl⟩
      exact hm
    · intro hi
      exact ⟨⟨i, by omega⟩, hi, rfl⟩
  rw [← Set.ncard_image_of_injective _ Fin.val_injective, himage, Set.ncard_coe_finset,
    Nat.card_Ico, Nat.add_sub_cancel_left]

theorem mem_coarsen_iff_isBelow (ht : t.Valid) {x : L} :
    x ∈ (t.coarsen n).locations ↔ ∃ m, ¬ t.IsBelow m n ∧ t.location m = x := by
  rw [ht.mem_coarsen_iff, mem_locations_iff]
  constructor
  · rintro ⟨⟨m, rfl⟩, hnot⟩
    refine ⟨m, fun hbelow => ?_, rfl⟩
    rw [ht.isBelow_iff.1 hbelow] at hnot
    contradiction
  · rintro ⟨m, hnot, rfl⟩
    exact ⟨⟨m, rfl⟩, Bool.eq_false_iff.2 fun hanc => hnot (ht.isBelow_iff.2 hanc)⟩

/-- A leaf has no descendants to lose. -/
theorem coarsen_of_isLeaf (ht : t.Valid) (hn : t.isLeaf n = true) :
    t.descendants n = [] ∧ t.coarsen n = t := by
  have hnone : ∀ x ∈ t.locations, isAncestorOf (t.location n) x = false := ht.isLeaf_iff.1 hn
  constructor
  · rw [descendants, List.takeWhile_eq_nil_iff]
    intro h
    exact Bool.eq_false_iff.1
      (hnone _ (Array.mem_toList_iff.1 (List.mem_of_mem_drop (List.get_mem _ _))))
  · refine (ht.valid_coarsen n).eq_of_mem_iff ht fun x => ?_
    rw [ht.mem_coarsen_iff, and_iff_left_of_imp (hnone x)]

/-- A node that has been coarsened is a leaf. -/
theorem isLeaf_coarsen (ht : t.Valid) {m : (t.coarsen n).Node}
    (hm : (t.coarsen n).location m = t.location n) : (t.coarsen n).isLeaf m = true := by
  rw [(ht.valid_coarsen n).isLeaf_iff, hm]
  exact fun x hx => (ht.mem_coarsen_iff.1 hx).2

/-- Coarsening takes out what refining put in. -/
theorem exists_coarsen_of_refine? (ht : t.Valid) (h : t.refine? n = some u) :
    ∃ m : u.Node, m.val = n.val ∧ (u.descendants m).length = 2 ^ D ∧ u.coarsen m = t := by
  have hu := ht.valid_of_refine? h
  have hleaf := ht.isLeaf_iff.1 (refine?_eq_some h).1
  obtain ⟨xs, -, -, hgains⟩ := ht.exists_gainsBehind_of_refine? h
  obtain ⟨m, hm, hlocation⟩ := exists_node_of_getElem? (hgains.upTo n le_rfl)
  have hback : u.coarsen m = t := by
    refine (hu.valid_coarsen m).eq_of_mem_iff ht fun x => ?_
    rw [hu.mem_coarsen_iff, mem_refine?_iff h, hlocation]
    constructor
    · rintro ⟨hx | hx, hnot⟩
      · exact hx
      · rw [isAncestorOf_of_parent? hx] at hnot
        contradiction
    · exact fun hx => ⟨Or.inl hx, hleaf x hx⟩
  obtain ⟨_, -, -, hagain⟩ := exists_gainsBehind_coarsen m
  have hsize := hagain.size
  rw [hback, hgains.size, Nat.add_left_cancel_iff, Vector.length_toList] at hsize
  exact ⟨m, hm, hsize.symm, hback⟩

/-- A node is refined exactly if it is no node's parent and not at the deepest level. It then gains
its children, right behind it and in order, and coarsening it gives the tree back; otherwise
nothing changes. Coarsening a node takes out the nodes below it, which leaves a leaf in its place,
and all others in order. A second time there is nothing to take out. -/
theorem edits_splice (ht : t.Valid) (n : t.Node) :
    (t.reply (.refine n) = .ok (.refined true) ↔
      (∀ m, t.parent? m ≠ some n) ∧ t.level n < LocationCode.maxLevel L) ∧
    (t.reply (.refine n) = .ok (.refined true) →
      (∀ x, x ∈ (t.next (.refine n)).locations ↔
        x ∈ t.locations ∨ LocationCode.parent? x = some (t.location n)) ∧
      (∃ xs : Vector L (2 ^ D), (∀ p, child? (t.location n) p = some (xs.get p)) ∧
        (∀ p, xs.get p ∉ t.locations) ∧ t.GainsBehind n xs.toList (t.next (.refine n))) ∧
      t.replies [.refine n, .coarsen n, .coarsen n] =
        [.ok (.refined true), .ok (.coarsened (2 ^ D)), .ok (.coarsened 0)] ∧
      (t.next (.refine n)).next (.coarsen n) = t) ∧
    (t.reply (.refine n) ≠ .ok (.refined true) →
      t.reply (.refine n) = .ok (.refined false) ∧ t.next (.refine n) = t) ∧
    t.replies [.coarsen n, .coarsen n] =
      [.ok (.coarsened {m | t.IsBelow m n}.ncard), .ok (.coarsened 0)] ∧
    (∀ x, x ∈ (t.next (.coarsen n)).locations ↔ ∃ m, ¬ t.IsBelow m n ∧ t.location m = x) ∧
    ∃ m : (t.next (.coarsen n)).Node, m.val = n.val ∧
      (t.next (.coarsen n)).location m = t.location n ∧
      (∀ k, (t.next (.coarsen n)).parent? k ≠ some m) ∧
      (t.next (.coarsen n)).GainsBehind m (t.descendants n) t := by
  have hreply : t.reply (.refine n) = .ok (.refined true) ↔ (t.refine? n).isSome = true := by
    rw [reply_refine, Except.ok.injEq, EditReply.refined.injEq]
  obtain ⟨m, hm, hlocation, hgains⟩ := exists_gainsBehind_coarsen n
  have hleaf := ht.isLeaf_coarsen hlocation
  have hagain : (t.coarsen n).reply (.coarsen n) = .ok (.coarsened 0) := by
    rw [← hm, reply_coarsen, ((ht.valid_coarsen n).coarsen_of_isLeaf hleaf).1]
    rfl
  rw [next_coarsen]
  refine ⟨hreply.trans ht.isSome_refine?_iff, fun h => ?_, fun h => ?_, ?_, fun x => ?_, m, hm,
    hlocation, (ht.valid_coarsen n).isLeaf_iff_parent?.1 hleaf, hgains⟩
  · obtain ⟨u, hu⟩ := Option.isSome_iff_exists.1 (hreply.1 h)
    have hnext : t.next (.refine n) = u := by rw [next_refine, hu, Option.getD_some]
    obtain ⟨k, hk, hremoved, hback⟩ := ht.exists_coarsen_of_refine? hu
    have hundone : u.next (.coarsen n) = t := by rw [← hk, next_coarsen, hback]
    have hnone := (ht.coarsen_of_isLeaf (refine?_eq_some hu).1).1
    rw [hnext]
    refine ⟨fun x => mem_refine?_iff hu, ht.exists_gainsBehind_of_refine? hu, ?_, hundone⟩
    rw [replies, replies, replies, replies, h, hnext, hundone, ← hk, reply_coarsen, hremoved, hk,
      reply_coarsen, hnone]
    rfl
  · have hnone : t.refine? n = none := Option.not_isSome_iff_eq_none.1 (mt hreply.2 h)
    rw [reply_refine, next_refine, hnone]
    exact ⟨rfl, rfl⟩
  · rw [replies, replies, replies, next_coarsen, reply_coarsen, hagain, ht.ncard_isBelow]
  · exact ht.mem_coarsen_iff_isBelow

end Valid

/-- A leaf whose parent has only that child, and the parent. -/
theorem edits_splice_gapped : gapped.Valid ∧
    gapped.replies [.refine 3, .coarsen 3, .coarsen 3] =
      [.ok (.refined true), .ok (.coarsened 4), .ok (.coarsened 0)] ∧
    (gapped.next (.refine 3)).next (.coarsen 3) = gapped ∧
    (∀ x, x ∈ (gapped.next (.coarsen 2)).locations ↔
      ∃ m, ¬ gapped.IsBelow m ⟨2, by decide⟩ ∧ gapped.location m = x) ∧
    gapped.reply (.refine 2) = .ok (.refined false) := by
  have hvalid : gapped.Valid := by decide +kernel
  obtain ⟨-, hrefined, -⟩ := hvalid.edits_splice ⟨3, by decide⟩
  obtain ⟨-, -, hrefused, -, hcoarsened, -⟩ := hvalid.edits_splice ⟨2, by decide⟩
  obtain ⟨-, -, hreplies, hundone⟩ := hrefined (by decide +kernel)
  exact ⟨hvalid, hreplies, hundone, hcoarsened, (hrefused (by decide +kernel)).1⟩

end Tree

end AdaptiveMesh
