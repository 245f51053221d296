/-
  Agave.ForkChoice.Leaf

  Inserting a leaf.

  `add_new_leaf_slot` links the leaf to its parent and then updates two caches: the ancestors that
  shared the parent's best slot take the leaf if it is the best child of its parent, and the
  ancestors for which the leaf ends a longest chain take it as their deepest slot.  Both loops end,
  and write to the caches only (`SameButCaches`).
-/

import Agave.ForkChoice.Edits

namespace Agave.ForkChoice

open Agave.Lib Function List

/-- The fork info without what `propagate_new_leaf` writes. -/
def ForkInfo.withoutCaches (info : ForkInfo) : ForkInfo :=
  { info with height := 0, bestSlot := .zero, deepestSlot := .zero }

namespace HeaviestSubtreeForkChoice

/-- The trees agree but for heights, best and deepest slots. -/
structure SameButCaches (fc fc' : HeaviestSubtreeForkChoice) : Prop where
  infos : ∀ key,
    (fc'.infos key).map ForkInfo.withoutCaches = (fc.infos key).map ForkInfo.withoutCaches
  treeRoot : fc'.treeRoot = fc.treeRoot

variable {fc fc' fc'' : HeaviestSubtreeForkChoice} {root start leaf key parentKey : SlotHashKey}
  {info info' parentInfo : ForkInfo}

namespace SameButCaches

theorem refl (fc : HeaviestSubtreeForkChoice) : SameButCaches fc fc := ⟨fun _ => rfl, rfl⟩

theorem trans (h : SameButCaches fc fc') (h' : SameButCaches fc' fc'') : SameButCaches fc fc'' :=
  ⟨fun key => (h'.infos key).trans (h.infos key), h'.treeRoot.trans h.treeRoot⟩

theorem setInfo (h : fc.infos key = some info) (hinfo : info'.withoutCaches = info.withoutCaches) :
    SameButCaches fc (fc.setInfo key info') := by
  refine ⟨fun k => ?_, rfl⟩
  rw [infos_setInfo]
  by_cases hk : k = key
  · rw [hk, update_self, h, Option.map_some, Option.map_some, hinfo]
  · rw [update_of_ne hk]

/-- What does not look at the caches is the same. -/
theorem map_eq {α : Type _} (h : SameButCaches fc fc') {f : ForkInfo → α}
    (hf : ∀ info, f info.withoutCaches = f info) (key : SlotHashKey) :
    (fc'.infos key).map f = (fc.infos key).map f := by
  have hkey := congrArg (Option.map f) (h.infos key)
  rw [Option.map_map, Option.map_map, show f ∘ ForkInfo.withoutCaches = f from funext hf] at hkey
  exact hkey

theorem links_eq (h : SameButCaches fc fc') : fc'.links = fc.links :=
  funext (h.map_eq (fun _ => rfl))

end SameButCaches

/-! ## Reading parent and siblings -/

theorem childInfos_eq (htree : Tree fc.links root)
    (h : fc.infos key = some info) : fc.childInfos info = .ok (fc.infos.childInfos info) := by
  have hreturns : Succeeds (· = fc.infos.childInfos info) (fc.childInfos info) := by
    refine (childInfos_returns info).weaken ?_
    rintro e ⟨child, hchild, hnone⟩
    rw [← children_of_get? h] at hchild
    obtain ⟨_, hsome⟩ := links_ne_none_iff.mp (htree.child_mem hchild)
    rw [hnone] at hsome
    cases hsome
  obtain ⟨children, hchildren, rfl⟩ := hreturns.exists_ok
  exact hchildren

section

variable (htree : Tree fc.links root) (hinfo : fc.infos key = some info)
  (hparent : info.parent = some parentKey) (hparentInfo : fc.infos parentKey = some parentInfo)
include htree hinfo hparent hparentInfo

theorem isBestChild_ok : ∃ isBest, fc.isBestChild key = .ok isBest := by
  rw [isBestChild, getInfo_of_get? hinfo, ok_bind]
  simp only [hparent]
  rw [getInfo_of_get? hparentInfo, ok_bind, childInfos_eq htree hparentInfo, ok_bind]
  exact ⟨_, rfl⟩

theorem isDeepestChild_ok : ∃ isDeepest, fc.isDeepestChild key = .ok isDeepest := by
  rw [isDeepestChild, getInfo_of_get? hinfo, ok_bind]
  simp only [hparent]
  rw [getInfo_of_get? hparentInfo, ok_bind, childInfos_eq htree hparentInfo, ok_bind]
  exact ⟨_, rfl⟩

end

/-! ## The two loops -/

theorem propagateBest_none (parentBest leaf : SlotHashKey) (fuel : Nat) :
    propagateBest parentBest leaf fuel none fc = .ok fc := by
  cases fuel <;> rfl

/-- The first loop ends.  It goes up from parent to parent, so the slot bounds its length. -/
theorem propagateBest_returns {parentBest : SlotHashKey} {fuel : Nat}
    (htree : Tree fc.links root) (hstart : fc.links start ≠ none)
    (hfuel : start.slot < fuel) :
    Succeeds (SameButCaches fc) (propagateBest parentBest leaf fuel (some start) fc) := by
  induction fuel generalizing fc start with
  | zero => omega
  | succ fuel ih =>
    obtain ⟨info, hinfo⟩ := links_ne_none_iff.mp hstart
    rw [propagateBest, getInfo_of_get? hinfo, ok_bind]
    split
    · have hwritten : SameButCaches fc (fc.setInfo start { info with bestSlot := leaf }) :=
        .setInfo hinfo rfl
      have hlinks' := hwritten.links_eq
      generalize fc.setInfo start { info with bestSlot := leaf } = fc₁ at hwritten hlinks' ⊢
      rw [← parent_of_get? hinfo]
      cases hparent : fc.links.parent start with
      | none =>
        rw [propagateBest_none]
        exact hwritten
      | some p =>
        have hslot := htree.slot_lt hparent
        refine (ih (hlinks' ▸ htree) (hlinks' ▸ htree.parent_mem hparent) (by omega)).mono ?_
        exact fun _ => hwritten.trans
    · exact .refl fc

theorem propagateDeepest_none (leaf currentChild : SlotHashKey) (fuel height : Nat) :
    propagateDeepest leaf fuel none currentChild height fc = .ok fc := by
  cases fuel <;> rfl

theorem propagateDeepest_returns {fuel height : Nat} (htree : Tree fc.links root)
    (hkey : fc.links.parent key = some parentKey) (hfuel : parentKey.slot < fuel) :
    Succeeds (SameButCaches fc) (propagateDeepest leaf fuel (some parentKey) key height fc) := by
  induction fuel generalizing fc key parentKey height with
  | zero => omega
  | succ fuel ih =>
    obtain ⟨info, hinfo⟩ := links_ne_none_iff.mp (LinkTable.ne_none_of_parent hkey)
    obtain ⟨parentInfo, hparentInfo⟩ := links_ne_none_iff.mp (htree.parent_mem hkey)
    have hparent : info.parent = some parentKey := by rw [← parent_of_get? hinfo, hkey]
    obtain ⟨isDeepest, hisDeepest⟩ := isDeepestChild_ok htree hinfo hparent hparentInfo
    rw [propagateDeepest, hisDeepest, ok_bind]
    split
    · rw [getInfo_of_get? hparentInfo, ok_bind]
      have hwritten : SameButCaches fc (fc.setInfo parentKey
          { parentInfo with deepestSlot := leaf, height := height + 1 }) :=
        .setInfo hparentInfo rfl
      have hlinks' := hwritten.links_eq
      generalize fc.setInfo parentKey
        { parentInfo with deepestSlot := leaf, height := height + 1 } = fc₁ at hwritten hlinks' ⊢
      rw [← parent_of_get? hparentInfo]
      cases hgrand : fc.links.parent parentKey with
      | none =>
        rw [propagateDeepest_none]
        exact hwritten
      | some grandKey =>
        have hslot := htree.slot_lt hgrand
        refine (ih (hlinks' ▸ htree) (hlinks' ▸ hgrand) (by omega)).mono ?_
        exact fun _ => hwritten.trans
    · exact .refl fc

/-! ## The new leaf -/

theorem propagateNewLeaf_returns (htree : Tree fc.links root)
    (hinfo : fc.infos key = some info) (hparent : info.parent = some parentKey)
    (hparentInfo : fc.infos parentKey = some parentInfo) :
    Succeeds (SameButCaches fc) (fc.propagateNewLeaf key parentKey) := by
  have hlinks : fc.links.parent key = some parentKey := by
    rw [parent_of_get? hinfo, hparent]
  have hslot := htree.slot_lt hlinks
  obtain ⟨isBest, hisBest⟩ := isBestChild_ok htree hinfo hparent hparentInfo
  have hdeepest : ∀ mid, SameButCaches fc mid → Succeeds (SameButCaches fc)
      (propagateDeepest key key.slot (some parentKey) key 1 mid) := by
    intro mid hmid
    have hlinks' := hmid.links_eq
    refine (propagateDeepest_returns (hlinks' ▸ htree) (hlinks' ▸ hlinks) hslot).mono ?_
    exact fun _ => hmid.trans
  rw [propagateNewLeaf, getInfo_of_get? hparentInfo, ok_bind, hisBest, ok_bind]
  split
  · exact (propagateBest_returns htree (htree.parent_mem hlinks) hslot).bind hdeepest
  · exact hdeepest fc (.refl fc)

/-- The tree with the leaf linked to its parent, before the caches are updated. -/
def linkLeaf (fc : HeaviestSubtreeForkChoice) (key parentKey : SlotHashKey)
    (parentInfo : ForkInfo) : HeaviestSubtreeForkChoice :=
  (fc.setInfo key (fc.newLeafInfo key (some parentKey))).setInfo parentKey
    { parentInfo with children := (parentInfo.children.insert key ()).2 }

theorem infos_linkLeaf (key parentKey : SlotHashKey) (parentInfo : ForkInfo) :
    (fc.linkLeaf key parentKey parentInfo).infos =
      update (update fc.infos key (some (fc.newLeafInfo key (some parentKey)))) parentKey
        (some { parentInfo with children := (parentInfo.children.insert key ()).2 }) := by
  rw [linkLeaf, infos_setInfo, infos_setInfo]

section

variable (htree : Tree fc.links root) (hnew : fc.infos key = none)
  (hparentInfo : fc.infos parentKey = some parentInfo) (hslot : parentKey.slot < key.slot)
include htree hnew hparentInfo hslot

theorem linkLeaf_tree :
    Tree (fc.linkLeaf key parentKey parentInfo).links root := by
  have hlinks : (fc.linkLeaf key parentKey parentInfo).links =
      fc.links.insertLeaf key parentKey parentInfo.links
        (parentInfo.children.insert key ()).2.keys := by
    funext k
    rw [links, infos_linkLeaf, LinkTable.insertLeaf, Infos.links]
    by_cases hk : k = parentKey
    · rw [hk, update_self, update_self]
      rfl
    · rw [update_of_ne hk, update_of_ne hk]
      by_cases hkey : k = key
      · rw [hkey, update_self, update_self]
        rfl
      · rw [update_of_ne hkey, update_of_ne hkey]
        rfl
  have hfresh : fc.links key = none := by
    simp [links, Infos.links, hnew]
  rw [hlinks]
  refine htree.insertLeaf hfresh ?_ hslot (BTreeMap.keys_insert_perm () ?_)
  · rw [links, Infos.links, hparentInfo]
    rfl
  · intro hmem
    rw [← children_of_get? hparentInfo] at hmem
    exact htree.child_mem hmem hfresh

/-- `add_new_leaf_slot` of a block that is not in the tree, below one that is. -/
theorem addNewLeafSlot_returns :
    Succeeds (SameButCaches (fc.linkLeaf key parentKey parentInfo))
      (fc.addNewLeafSlot key (some parentKey)) := by
  have hne : parentKey ≠ key := by
    rintro rfl
    rw [hnew] at hparentInfo
    cases hparentInfo
  have hcontains : ¬ fc.containsBlock key = true := by
    have hnone : fc.forkInfos.get? key = none := hnew
    simp [containsBlock, hnone]
  have hget : (fc.setInfo key (fc.newLeafInfo key (some parentKey))).forkInfos.get? parentKey =
      some parentInfo := by
    rw [get?_setInfo, if_neg hne]
    exact hparentInfo
  rw [addNewLeafSlot, if_neg hcontains]
  simp only [getInfo_of_get? hget, ok_bind]
  apply propagateNewLeaf_returns (linkLeaf_tree htree hnew hparentInfo hslot)
  · rw [linkLeaf, infos_setInfo, update_of_ne (Ne.symm hne), infos_setInfo, update_self]
  · rfl
  · rw [linkLeaf, infos_setInfo, update_self]

end

end HeaviestSubtreeForkChoice

end Agave.ForkChoice
