/-
  Agave.ForkChoice.Tree

  The blocks form a tree, and the walks of the fork choice follow it.

  `Tree links root` relates the two directions of the links and orders parent and child by slot.  It
  is what makes the loops over ancestors and over subtrees end: `ancestorIterator_chain` describes
  the former, and `subtreeDiff_returns` the latter, through the depth first walk of a forest.
-/

import Agave.ForkChoice.Operations
import Agave.ForkChoice.Replay
import Agave.Lib.Forest

namespace Agave.ForkChoice

open Agave.Lib List

/-! ## Trees -/

/-- Parents and children name each other, slots grow from parent to child, and
    the root is the only block without a parent. -/
structure Tree (links : LinkTable) (root : SlotHashKey) : Prop where
  mem_children_iff : ∀ {key child},
    child ∈ links.children key ↔ links.parent child = some key
  slot_lt : ∀ {key child}, links.parent child = some key → key.slot < child.slot
  nodup : ∀ key, (links.children key).Nodup
  root_mem : links root ≠ none
  parent_eq_none_iff : ∀ {key}, links key ≠ none → (links.parent key = none ↔ key = root)

namespace LinkTable

variable {links : LinkTable} {key child : SlotHashKey}

theorem ne_none_of_mem_children (h : child ∈ links.children key) : links key ≠ none := by
  intro hnone
  simp [children, hnone] at h

theorem ne_none_of_parent (h : links.parent child = some key) : links child ≠ none := by
  intro hnone
  simp [parent, hnone] at h

end LinkTable

namespace Tree

variable {links : LinkTable} {root key child : SlotHashKey}

section

variable (h : Tree links root)
include h

theorem forest : Forest links.children SlotHashKey.slot where
  level_lt hc := h.slot_lt (h.mem_children_iff.mp hc)
  parent_unique ha hb := by
    have := (h.mem_children_iff.mp ha).symm.trans (h.mem_children_iff.mp hb)
    exact Option.some.inj this
  nodup := h.nodup

theorem child_mem (hc : child ∈ links.children key) : links child ≠ none :=
  LinkTable.ne_none_of_parent (h.mem_children_iff.mp hc)

theorem parent_mem (hp : links.parent child = some key) : links key ≠ none :=
  LinkTable.ne_none_of_mem_children (h.mem_children_iff.mpr hp)

theorem lt_of_mem_children (hc : child ∈ links.children key) : key < child :=
  SlotHashKey.lt_of_slot_lt (h.slot_lt (h.mem_children_iff.mp hc))

end

end Tree

/-- The proper ancestors of a block, nearest first. -/
inductive AncestorChain (links : LinkTable) : SlotHashKey → List SlotHashKey → Prop where
  | nil {key : SlotHashKey} (h : links.parent key = none) : AncestorChain links key []
  | cons {key parentKey : SlotHashKey} {ancestors : List SlotHashKey}
      (h : links.parent key = some parentKey) (hchain : AncestorChain links parentKey ancestors) :
      AncestorChain links key (parentKey :: ancestors)

theorem AncestorChain.mem_links {links : LinkTable} {root key : SlotHashKey}
    {ancestors : List SlotHashKey} (htree : Tree links root)
    (h : AncestorChain links key ancestors) : ∀ a ∈ ancestors, links a ≠ none := by
  induction h with
  | nil => simp
  | cons hparent _ ih =>
    intro a ha
    rcases mem_cons.mp ha with rfl | ha
    · exact htree.parent_mem hparent
    · exact ih a ha

theorem AncestorChain.slot_lt {links : LinkTable} {root key : SlotHashKey}
    {ancestors : List SlotHashKey} (htree : Tree links root)
    (h : AncestorChain links key ancestors) : ∀ a ∈ ancestors, a.slot < key.slot := by
  induction h with
  | nil => simp
  | cons hparent _ ih =>
    have hslot := htree.slot_lt hparent
    exact forall_mem_cons.mpr ⟨hslot, fun a ha => (ih a ha).trans hslot⟩

theorem AncestorChain.nodup {links : LinkTable} {root key : SlotHashKey}
    {ancestors : List SlotHashKey} (htree : Tree links root)
    (h : AncestorChain links key ancestors) : ancestors.Nodup := by
  induction h with
  | nil => exact nodup_nil
  | cons _ hchain ih =>
    exact nodup_cons.mpr ⟨fun hmem => (hchain.slot_lt htree _ hmem).false, ih⟩

theorem AncestorChain.mem_iff {links : LinkTable} {key a : SlotHashKey}
    {ancestors : List SlotHashKey} (h : AncestorChain links key ancestors) :
    a ∈ ancestors ↔ Relation.TransGen (fun p c => links.parent c = some p) a key := by
  induction h with
  | nil hparent => simp [Relation.TransGen.tail'_iff, hparent]
  | cons hparent _ ih =>
    rw [mem_cons, ih, eq_comm, ← Relation.reflTransGen_iff_eq_or_transGen,
      Relation.TransGen.tail'_iff]
    simp [hparent]

/-! ## Links of a fork choice -/

namespace HeaviestSubtreeForkChoice

variable {fc : HeaviestSubtreeForkChoice} {root key root2 : SlotHashKey} {info : ForkInfo}

theorem links_ne_none_iff : fc.links key ≠ none ↔ ∃ info, fc.forkInfos.get? key = some info := by
  simp only [links, Infos.links, infos, ne_eq, Option.map_eq_none_iff, Option.ne_none_iff_exists']

theorem children_of_get? (h : fc.forkInfos.get? key = some info) :
    fc.links.children key = info.children.keys :=
  Infos.children_of_eq h

theorem parent_links (key : SlotHashKey) : fc.links.parent key = fc.parent key := by
  simp only [LinkTable.parent, links, Infos.links, infos, parent]
  cases fc.forkInfos.get? key <;> rfl

theorem parent_of_get? (h : fc.forkInfos.get? key = some info) :
    fc.links.parent key = info.parent :=
  Infos.parent_of_eq h

/-! ## Ancestors -/

theorem ancestorsFrom_chain (htree : Tree fc.links root) {fuel : Nat}
    (hfuel : key.slot ≤ fuel) : AncestorChain fc.links key (fc.ancestorsFrom fuel key) := by
  induction fuel generalizing key with
  | zero =>
    apply AncestorChain.nil
    cases hparent : fc.links.parent key with
    | none => rfl
    | some parentKey =>
      have := htree.slot_lt hparent
      omega
  | succ fuel ih =>
    rw [ancestorsFrom]
    cases hparent : fc.parent key with
    | none => exact AncestorChain.nil (by rw [parent_links, hparent])
    | some parentKey =>
      rw [← parent_links] at hparent
      have := htree.slot_lt hparent
      exact AncestorChain.cons hparent (ih (by omega))

theorem ancestorIterator_chain (htree : Tree fc.links root) (key : SlotHashKey) :
    AncestorChain fc.links key (fc.ancestorIterator key) :=
  ancestorsFrom_chain htree (le_refl _)

/-! ## Subtrees -/

/-- The nodes reached from `root1` without entering `root2`. -/
def Reaches (fc : HeaviestSubtreeForkChoice) (root1 root2 key : SlotHashKey) : Prop :=
  Forest.Reached fc.links.children (fun k => decide (k = root2)) root1 key

/-- The loop of `subtree_diff` walks the tree depth first. -/
theorem subtreeDiffLoop_eq {fuel : Nat} {pending visited reachable : List SlotHashKey}
    (hwalk : Forest.walk fc.links.children (fun k => decide (k = root2)) fuel pending =
      some visited)
    (hmem : ∀ k ∈ visited, fc.links k ≠ none) (hnodup : (visited ++ reachable).Nodup) :
    fc.subtreeDiffLoop root2 fuel pending reachable = .ok (visited.reverse ++ reachable) := by
  induction fuel generalizing pending visited reachable with
  | zero =>
    cases pending with
    | nil =>
      cases hwalk
      rfl
    | cons current pending => cases hwalk
  | succ fuel ih =>
    cases pending with
    | nil =>
      cases hwalk
      rfl
    | cons current pending =>
      rw [subtreeDiffLoop]
      by_cases hroot2 : current = root2
      · simp only [Forest.walk, hroot2, decide_true, if_true] at hwalk
        rw [if_pos hroot2]
        exact ih hwalk hmem hnodup
      · simp only [Forest.walk, hroot2, decide_false, Bool.false_eq_true, if_false,
          Option.map_eq_some_iff] at hwalk
        obtain ⟨rest, hwalk, rfl⟩ := hwalk
        obtain ⟨info, hinfo⟩ := links_ne_none_iff.mp (hmem current mem_cons_self)
        have hnew : current ∉ reachable := by
          intro hin
          exact (nodup_cons.mp hnodup).1 (mem_append_right _ hin)
        rw [if_neg hroot2, getInfo_of_get? hinfo, ok_bind, ← children_of_get? hinfo,
          insert_of_not_mem hnew,
          ih hwalk (fun k hk => hmem k (mem_cons_of_mem _ hk))
            (perm_middle.nodup_iff.mpr hnodup)]
        simp

/-- The blocks of a fork choice. -/
def blocks (fc : HeaviestSubtreeForkChoice) : Finset SlotHashKey := fc.forkInfos.keys.toFinset

theorem mem_blocks : key ∈ fc.blocks ↔ fc.links key ≠ none := by
  rw [blocks, mem_toFinset, BTreeMap.mem_keys_iff, links_ne_none_iff]

theorem card_blocks_le : fc.blocks.card ≤ fc.forkInfos.keys.length := toFinset_card_le _

section

variable (htree : Tree fc.links root) {root1 : SlotHashKey}
include htree

theorem children_mem_blocks :
    ∀ a ∈ fc.blocks, ∀ c ∈ fc.links.children a, c ∈ fc.blocks :=
  fun _ _ _ hc => mem_blocks.mpr (htree.child_mem hc)

theorem links_ne_none_of_reaches
    (hroot1 : fc.links root1 ≠ none) (h : fc.Reaches root1 root2 key) :
    fc.links key ≠ none := by
  rcases h.parent with rfl | ⟨p, -, hp⟩
  · exact hroot1
  · exact htree.child_mem hp

/-- `subtree_diff` returns the nodes it can reach, and does not panic. -/
theorem subtreeDiff_returns (hroot1 : fc.links root1 ≠ none) (root2 : SlotHashKey) :
    Succeeds (fun reachable => reachable.Nodup ∧
      ∀ key, key ∈ reachable ↔ fc.Reaches root1 root2 key) (fc.subtreeDiff root1 root2) := by
  obtain ⟨visited, hwalk, hnodup, hvisited⟩ := htree.forest.walk_root (children_mem_blocks htree)
    card_blocks_le (mem_blocks.mpr hroot1) (fun k => decide (k = root2))
  obtain ⟨info, hinfo⟩ := links_ne_none_iff.mp hroot1
  rw [subtreeDiff, if_pos (by simp [containsBlock, hinfo]), subtreeDiffLoop_eq hwalk
      (fun k hk => links_ne_none_of_reaches htree hroot1 ((hvisited k).mp hk)) (by simpa)]
  refine ⟨by simpa using hnodup, fun key => ?_⟩
  rw [append_nil, mem_reverse]
  exact hvisited key

end

end HeaviestSubtreeForkChoice

end Agave.ForkChoice

