/-
  Agave.ForkChoice.Edits

  Editing the links of a tree.

  A tree stays a tree when a leaf is added to it (`Tree.insertLeaf`).
-/

import Agave.ForkChoice.Tree

namespace Agave.ForkChoice

open Agave.Lib Function

/-! ## Editing links -/

namespace LinkTable

variable {links : LinkTable} {key : SlotHashKey} {x : Links}

theorem children_update (key k : SlotHashKey) (x : Links) :
    LinkTable.children (update links key (some x)) k =
      if k = key then x.children else links.children k := by
  by_cases hk : k = key
  · simp [children, hk]
  · simp [children, hk]

theorem parent_update (key k : SlotHashKey) (x : Links) :
    LinkTable.parent (update links key (some x)) k =
      if k = key then x.parent else links.parent k := by
  by_cases hk : k = key
  · simp [parent, hk]
  · simp [parent, hk]

theorem children_of_eq (h : links key = some x) :
    links.children key = x.children := by
  simp [children, h]

theorem parent_of_eq (h : links key = some x) :
    links.parent key = x.parent := by
  simp [parent, h]

/-- `key` becomes a leaf below `parentKey`, whose children are now `siblings`. -/
def insertLeaf (links : LinkTable) (key parentKey : SlotHashKey) (x : Links)
    (siblings : List SlotHashKey) : LinkTable :=
  Function.update (Function.update links key (some ⟨some parentKey, []⟩)) parentKey
    (some { x with children := siblings })

end LinkTable

namespace Tree

variable {links links' : LinkTable} {root key parentKey top : SlotHashKey}

theorem insertLeaf (h : Tree links root) (hnew : links key = none) {x : Links}
    (hparent : links parentKey = some x) (hslot : parentKey.slot < key.slot)
    {siblings : List SlotHashKey} (hsiblings : siblings.Perm (key :: x.children)) :
    Tree (links.insertLeaf key parentKey x siblings) root := by
  have hne : parentKey ≠ key := by
    rintro rfl
    rw [hnew] at hparent
    cases hparent
  have hchildren : ∀ k, (links.insertLeaf key parentKey x siblings).children k =
      if k = parentKey then siblings else if k = key then [] else links.children k := by
    intro k
    rw [LinkTable.insertLeaf, LinkTable.children_update, LinkTable.children_update]
  have hparents : ∀ k, (links.insertLeaf key parentKey x siblings).parent k =
      if k = key then some parentKey else links.parent k := by
    intro k
    rw [LinkTable.insertLeaf, LinkTable.parent_update, LinkTable.parent_update]
    by_cases hk : k = parentKey
    · rw [if_pos hk, hk, if_neg hne, LinkTable.parent_of_eq hparent]
    · rw [if_neg hk]
  have hfresh : ∀ {c}, links.parent c ≠ some key := by
    intro c hc
    exact h.parent_mem hc hnew
  have hfresh' : ∀ {k}, key ∉ links.children k := by
    intro k hk
    exact h.child_mem hk hnew
  refine ⟨?_, ?_, ?_, ?_, ?_⟩
  · intro k c
    rw [hchildren, hparents]
    by_cases hk : k = parentKey
    · subst hk
      rw [if_pos rfl, hsiblings.mem_iff, List.mem_cons, ← LinkTable.children_of_eq hparent]
      by_cases hc : c = key
      · simp [hc]
      · simp [hc, h.mem_children_iff]
    · rw [if_neg hk]
      by_cases hc : c = key
      · subst hc
        have hno : ¬ parentKey = k := Ne.symm hk
        by_cases hkc : k = c <;> simp [hkc, hfresh', hno]
        exact fun heq => hk (heq ▸ hkc)
      · rw [if_neg hc]
        by_cases hkk : k = key
        · subst hkk
          simp [hfresh]
        · rw [if_neg hkk, h.mem_children_iff]
  · intro k c hc
    rw [hparents] at hc
    by_cases hck : c = key
    · rw [if_pos hck] at hc
      cases hc
      rw [hck]
      exact hslot
    · rw [if_neg hck] at hc
      exact h.slot_lt hc
  · intro k
    rw [hchildren]
    split_ifs with hk hkk
    · rw [hsiblings.nodup_iff, List.nodup_cons, ← LinkTable.children_of_eq hparent]
      exact ⟨hfresh', h.nodup parentKey⟩
    · exact List.nodup_nil
    · exact h.nodup k
  · rw [LinkTable.insertLeaf]
    by_cases hroot : root = parentKey
    · simp [hroot]
    · rw [update_of_ne hroot]
      by_cases hkey : root = key
      · simp [hkey]
      · rw [update_of_ne hkey]
        exact h.root_mem
  · intro k hk
    rw [hparents]
    by_cases hkk : k = key
    · rw [if_pos hkk, hkk]
      have hne : key ≠ root := fun heq => h.root_mem (heq ▸ hnew)
      simp [hne]
    · rw [if_neg hkk]
      apply h.parent_eq_none_iff
      intro hnone
      apply hk
      have hkp : k ≠ parentKey := by
        rintro rfl
        rw [hparent] at hnone
        cases hnone
      rw [LinkTable.insertLeaf, update_of_ne hkp, update_of_ne hkk, hnone]

end Tree

end Agave.ForkChoice
