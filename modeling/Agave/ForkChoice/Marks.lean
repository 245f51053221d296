/-
  Agave.ForkChoice.Marks

  What marking a fork does to the marked block.

  `Consistent` is what the blocks keep: they form a tree, every block is
  balanced, and the latest invalid ancestor of a block is no later than the block.  It makes the two
  kinds of mark exact.  A block marked invalid has its own slot as latest invalid ancestor, because
  no earlier mark names a later slot.  A block marked valid is duplicate confirmed and a candidate
  again, whatever was marked above it.
-/

import Agave.ForkChoice.Queue
import Agave.ForkChoice.Leaf

namespace Agave.ForkChoice

open Agave.Lib Function List

/-! ## Marks of one block -/

variable {e : Entry} {info : ForkInfo}

namespace Infos

variable {t : Infos} {key : SlotHashKey} {agenda : List Entry} {slot : Nat}

/-- The latest invalid ancestor of a block is no later than the block. -/
def InvalidBelow (t : Infos) : Prop :=
  ∀ key info slot, t key = some info → info.latestInvalidAncestor = some slot → slot ≤ key.slot

/-- An operation leaves the latest invalid ancestor, clears it, or sets it to the slot it marks. -/
theorem effect_latestInvalidAncestor (key : SlotHashKey) (operation : UpdateOperation)
    (info : ForkInfo) (h : (t.effect key operation info).latestInvalidAncestor = some slot) :
    info.latestInvalidAncestor = some slot ∨ operation = .markInvalid slot := by
  have hvalid : ∀ newly, (info.updateWithNewlyValidAncestor newly).latestInvalidAncestor =
      some slot → info.latestInvalidAncestor = some slot := by
    intro newly hnew
    unfold ForkInfo.updateWithNewlyValidAncestor at hnew
    split at hnew
    · exact hnew
    · split at hnew
      · cases hnew
      · exact hnew
  cases operation with
  | add stake => exact Or.inl h
  | subtract stake => exact Or.inl h
  | markValid newly =>
    left
    unfold effect at h
    dsimp only at h
    split at h
    · exact hvalid newly h
    · exact hvalid newly h
  | markInvalid newly =>
    unfold effect ForkInfo.invalidatedBy at h
    dsimp only at h
    split at h
    · right
      rw [Option.some_inj.mp h]
    · exact Or.inl h
  | aggregate =>
    left
    unfold effect Aggregation.store at h
    dsimp only at h
    split at h
    · cases h
    · exact h

theorem InvalidBelow.apply (h : t.InvalidBelow)
    (hmark : ∀ slot, e.2 = .markInvalid slot → slot ≤ e.1.slot) : (t.apply e).InvalidBelow := by
  intro key info slot hinfo hslot
  by_cases hkey : key = e.1
  · subst hkey
    rw [apply_self, Option.map_eq_some_iff] at hinfo
    obtain ⟨old, hold, rfl⟩ := hinfo
    rcases effect_latestInvalidAncestor e.1 e.2 old hslot with hbefore | hop
    · exact h e.1 old slot hold hbefore
    · exact hmark slot hop
  · rw [apply_of_ne hkey] at hinfo
    exact h key info slot hinfo hslot

theorem InvalidBelow.foldl (h : t.InvalidBelow)
    (hmark : ∀ e ∈ agenda, ∀ slot, e.2 = .markInvalid slot → slot ≤ e.1.slot) :
    (agenda.foldl Infos.apply t).InvalidBelow := by
  induction agenda generalizing t with
  | nil => exact h
  | cons e rest ih =>
    exact ih (h.apply (hmark e mem_cons_self))
      (fun e' he' => hmark e' (mem_cons_of_mem e he'))

theorem apply_ne_none (h : t key ≠ none) : t.apply e key ≠ none := by
  by_cases hkey : key = e.1
  · rw [hkey, apply_self, ← hkey]
    simpa using h
  · rw [apply_of_ne hkey]
    exact h

/-- The block is duplicate confirmed and a candidate. -/
def Valid (t : Infos) (key : SlotHashKey) : Prop :=
  ∃ info, t key = some info ∧ info.isDuplicateConfirmed = true ∧
    info.latestInvalidAncestor = none

/-- The block is marked invalid itself, and not duplicate confirmed. -/
def Invalid (t : Infos) (key : SlotHashKey) : Prop :=
  ∃ info, t key = some info ∧ info.isDuplicateConfirmed = false ∧
    info.latestInvalidAncestor = some key.slot

/-- Aggregation and marks of validity keep a valid block valid. -/
theorem Valid.apply (h : t.Valid key) (hop : e.2 = .aggregate ∨ ∃ slot, e.2 = .markValid slot) :
    (t.apply e).Valid key := by
  obtain ⟨info, hinfo, hconfirmed, hnone⟩ := h
  by_cases hkey : key = e.1
  · subst hkey
    refine ⟨_, by rw [apply_self, hinfo, Option.map_some], ?_, ?_⟩
    · rw [effect_isDuplicateConfirmed, hconfirmed, Bool.true_or]
    · rw [Option.eq_none_iff_forall_not_mem]
      intro slot hslot
      rcases effect_latestInvalidAncestor e.1 e.2 info hslot with hbefore | hmark
      · rw [hnone] at hbefore
        cases hbefore
      · rcases hop with hop | ⟨slot, hop⟩
        · rw [hop] at hmark
          cases hmark
        · rw [hop] at hmark
          cases hmark
  · exact ⟨info, by rw [apply_of_ne hkey, hinfo], hconfirmed, hnone⟩

theorem valid_markValid (hbelow : t.InvalidBelow) (hinfo : t key = some info) :
    (t.apply (key, .markValid key.slot)).Valid key := by
  refine ⟨_, by rw [apply_self, hinfo, Option.map_some], ?_, ?_⟩
  · unfold effect
    dsimp only
    rw [if_pos rfl]
  · unfold effect
    dsimp only
    rw [if_pos rfl]
    change (info.updateWithNewlyValidAncestor key.slot).latestInvalidAncestor = none
    unfold ForkInfo.updateWithNewlyValidAncestor
    cases hlatest : info.latestInvalidAncestor with
    | none => exact hlatest
    | some latest => simp only [if_pos (hbelow key info latest hinfo hlatest)]

/-- Replaying marks of validity of a block and aggregations makes the block valid. -/
theorem foldl_valid (hbelow : t.InvalidBelow) (hknown : t key ≠ none)
    (hmark : ∀ e ∈ agenda, ∀ slot, e.2 = .markInvalid slot → slot ≤ e.1.slot)
    (hops : ∀ e ∈ agenda, e.2 = .aggregate ∨ ∃ slot, e.2 = .markValid slot)
    (hmem : (key, .markValid key.slot) ∈ agenda) : (agenda.foldl Infos.apply t).Valid key := by
  refine Sweep.foldl_once (P := fun t : Infos => t.InvalidBelow ∧ t key ≠ none)
    (Q := fun t : Infos => t.Valid key) ?_ (fun t ht e he => ht.apply (hops e he)) ?_ hmem
    ⟨hbelow, hknown⟩
  · rintro t ⟨hbelow, hknown⟩ e he
    exact ⟨hbelow.apply (hmark e he), apply_ne_none hknown⟩
  · rintro t ⟨hbelow, hknown⟩
    obtain ⟨info, hinfo⟩ := Option.ne_none_iff_exists'.mp hknown
    exact valid_markValid hbelow hinfo

/-- Neither the block nor anything below it is duplicate confirmed. -/
def Unconfirmed (t : Infos) (key : SlotHashKey) : Prop :=
  ∀ k, Forest.Below t.links.children key k → t.confirmed k = false

theorem Unconfirmed.apply (h : t.Unconfirmed key)
    (hop : e.2 = .aggregate ∨ e.2 = .markInvalid slot) : (t.apply e).Unconfirmed key := by
  intro k hk
  rw [links_apply] at hk
  by_cases hke : k = e.1
  · subst hke
    cases hinfo : t e.1 with
    | none => rw [apply_of_none hinfo, h _ hk]
    | some info =>
      rw [confirmed_apply_self hinfo, ← confirmed_of_eq hinfo, h _ hk, Bool.false_or]
      rcases hop with hop | hop
      · -- the children of a block below are below
        rw [hop, confirms, any_eq_false]
        intro child hchild
        rw [← children_of_eq hinfo] at hchild
        rw [Bool.not_eq_true]
        exact h child (hk.tail hchild)
      · rw [hop]
        rfl
  · rw [confirmed_apply_of_ne hke, h k hk]

/-- Aggregation and marks of the same invalidity keep an invalid block invalid, as long as nothing
    below it is confirmed. -/
theorem Invalid.apply (h : t.Invalid key) (hunconfirmed : t.Unconfirmed key)
    (hop : e.2 = .aggregate ∨ e.2 = .markInvalid key.slot) : (t.apply e).Invalid key := by
  obtain ⟨info, hinfo, hconfirmed, hlatest⟩ := h
  by_cases hkey : key = e.1
  · subst hkey
    refine ⟨_, by rw [apply_self, hinfo, Option.map_some], ?_⟩
    rcases hop with hop | hop
    · have hnone : (t.aggregation e.1 info).isDuplicateConfirmed = false := by
        rw [aggregation_isDuplicateConfirmed, any_eq_false]
        intro child hchild
        rw [Bool.not_eq_true]
        refine hunconfirmed child (Relation.ReflTransGen.single ?_)
        rw [children_of_eq hinfo]
        exact hchild
      rw [hop]
      unfold effect Aggregation.store
      dsimp only
      rw [hnone]
      exact ⟨hconfirmed, hlatest⟩
    · rw [hop]
      unfold effect ForkInfo.invalidatedBy
      dsimp only
      split
      · exact ⟨hconfirmed, rfl⟩
      · exact ⟨hconfirmed, hlatest⟩
  · exact ⟨info, by rw [apply_of_ne hkey, hinfo], hconfirmed, hlatest⟩

theorem invalid_markInvalid (hbelow : t.InvalidBelow) (hunconfirmed : t.Unconfirmed key)
    (hinfo : t key = some info) : (t.apply (key, .markInvalid key.slot)).Invalid key := by
  have hconfirmed : info.isDuplicateConfirmed = false := by
    rw [← confirmed_of_eq hinfo]
    exact hunconfirmed key Relation.ReflTransGen.refl
  refine ⟨_, by rw [apply_self, hinfo, Option.map_some], ?_⟩
  unfold effect ForkInfo.invalidatedBy
  dsimp only
  split
  · exact ⟨hconfirmed, rfl⟩
  · rename_i hnot
    -- a mark that is not earlier than the block's own slot is that slot
    cases hlatest : info.latestInvalidAncestor with
    | none => simp [hlatest] at hnot
    | some latest =>
      have hle := hbelow key info latest hinfo hlatest
      rw [hlatest] at hnot
      have hge : key.slot ≤ latest := by simpa using hnot
      exact ⟨hconfirmed, by rw [Nat.le_antisymm hle hge]⟩

/-- Replaying marks of invalidity of a block and aggregations makes the block invalid. -/
theorem foldl_invalid (hbelow : t.InvalidBelow) (hknown : t key ≠ none)
    (hunconfirmed : t.Unconfirmed key)
    (hmark : ∀ e ∈ agenda, ∀ slot, e.2 = .markInvalid slot → slot ≤ e.1.slot)
    (hops : ∀ e ∈ agenda, e.2 = .aggregate ∨ e.2 = .markInvalid key.slot)
    (hmem : (key, .markInvalid key.slot) ∈ agenda) : (agenda.foldl Infos.apply t).Invalid key := by
  have hend : (agenda.foldl Infos.apply t).Unconfirmed key ∧
      (agenda.foldl Infos.apply t).Invalid key := by
    refine Sweep.foldl_once
      (P := fun t : Infos => t.InvalidBelow ∧ t key ≠ none ∧ t.Unconfirmed key)
      (Q := fun t : Infos => t.Unconfirmed key ∧ t.Invalid key) ?_ ?_ ?_ hmem
      ⟨hbelow, hknown, hunconfirmed⟩
    · rintro t ⟨hbelow, hknown, hunconfirmed⟩ e he
      exact ⟨hbelow.apply (hmark e he), apply_ne_none hknown, hunconfirmed.apply (hops e he)⟩
    · rintro t ⟨hunconfirmed, hinvalid⟩ e he
      exact ⟨hunconfirmed.apply (hops e he), hinvalid.apply hunconfirmed (hops e he)⟩
    · rintro t ⟨hbelow, hknown, hunconfirmed⟩
      obtain ⟨info, hinfo⟩ := Option.ne_none_iff_exists'.mp hknown
      exact ⟨hunconfirmed.apply (.inr rfl), invalid_markInvalid hbelow hunconfirmed hinfo⟩
  exact hend.2

end Infos

/-! ## Marking a fork -/

namespace HeaviestSubtreeForkChoice

variable {fc : HeaviestSubtreeForkChoice} {key parentKey : SlotHashKey}

/-- What the blocks keep. -/
structure Consistent (fc : HeaviestSubtreeForkChoice) : Prop where
  tree : Tree fc.links fc.treeRoot
  balanced : ∀ key, fc.infos.Balanced key
  invalidBelow : fc.infos.InvalidBelow

theorem reaches_self (hslot : 0 < key.slot) : fc.Reaches key .zero key := by
  refine ⟨decide_eq_false ?_, Relation.ReflTransGen.refl⟩
  rintro rfl
  exact absurd hslot (Nat.lt_irrefl 0)

section

variable (h : Consistent fc) (hslot : 0 < key.slot) (hknown : fc.infos key ≠ none)
include h hslot hknown

theorem markForkInvalidCandidate_marks (hkey : fc.infos.confirmed key = false) :
    Succeeds (fun fc' => Consistent fc' ∧ fc'.infos.Invalid key)
      (fc.markForkInvalidCandidate key) := by
  obtain ⟨info, hinfo⟩ := Option.ne_none_iff_exists'.mp hknown
  have hget : fc.forkInfos.get? key = some info := hinfo
  have hconfirmed : ¬ info.isDuplicateConfirmed = true := by
    rw [← Infos.confirmed_of_eq hinfo, hkey]
    exact Bool.false_ne_true
  have hunconfirmed : fc.infos.Unconfirmed key :=
    fun k hk => confirmed_of_below h.balanced hkey hk
  unfold markForkInvalidCandidate
  rw [hget]
  simp only [if_neg hconfirmed]
  apply (queueMarks_returns ⟨key.slot, Or.inr rfl⟩ h.tree (links_ne_none_iff.mpr ⟨info, hget⟩)).bind
  rintro operations ⟨hlabel, hmem⟩
  have hops : ∀ e ∈ agenda operations, e.2 = .aggregate ∨
      (e.2 = .markInvalid key.slot ∧ fc.Reaches key .zero e.1) := by
    intro e he
    rcases (hmem e).mp he with ⟨hreach, hop | hop⟩ | ⟨-, hop⟩
    · exact .inl hop
    · exact .inr ⟨hop, hreach⟩
    · exact .inl hop
  have hready : ∀ t : Infos, t.links = fc.links → t.Unconfirmed key →
      ∀ e ∈ agenda operations, t.Ready e := by
    intro t hlinks ht e he node hnode
    rcases hops e he with hagg | ⟨hop, hreach⟩
    · rw [hagg]
      exact allows_aggregate (hlinks ▸ h.tree) hnode
    · rw [hop]
      exact (Infos.confirmed_of_eq hnode).symm.trans (ht e.1 (hlinks ▸ hreach.below))
  have hlate : ∀ e ∈ agenda operations, ∀ slot, e.2 = .markInvalid slot → slot ≤ e.1.slot := by
    intro e he slot hslot'
    rcases hops e he with hop | ⟨hop, hreach⟩
    · cases hop.symm.trans hslot'
    · cases hop.symm.trans hslot'
      exact slot_le_of_reaches h.tree hreach
  have hmarks := fun e he => (hops e he).imp_right And.left
  apply (replay_balanced_returns h.tree h.balanced hlabel (closed_of_mem_iff h.tree hmem) hready
    (fun t ht e he => ht.apply (hmarks e he)) hunconfirmed).mono
  rintro fc' ⟨hfc', htree', hbalanced'⟩
  refine ⟨⟨htree', hbalanced', ?_⟩, ?_⟩
  · rw [hfc'.infos]
    exact h.invalidBelow.foldl hlate
  · rw [hfc'.infos]
    exact Infos.foldl_invalid h.invalidBelow hknown hunconfirmed hlate hmarks
      ((hmem _).mpr (.inl ⟨reaches_self hslot, .inr rfl⟩))

theorem markForkValidCandidate_marks :
    Succeeds (fun result => Consistent result.2 ∧ result.2.infos.Valid key)
      (fc.markForkValidCandidate key) := by
  obtain ⟨info, hinfo⟩ := Option.ne_none_iff_exists'.mp hknown
  have hlinks := links_ne_none_iff.mpr ⟨info, hinfo⟩
  have hchain := (ancestorIterator_chain h.tree key).mem_links h.tree
  unfold markForkValidCandidate
  rw [unconfirmedAmong_eq (forall_mem_cons.mpr ⟨hlinks, hchain⟩), ok_bind]
  apply (queueMarks_returns ⟨key.slot, Or.inl rfl⟩ h.tree hlinks).bind
  rintro operations ⟨hlabel, hmem⟩
  have hops : ∀ e ∈ agenda operations, e.2 = .aggregate ∨ e.2 = .markValid key.slot := by
    intro e he
    rcases (hmem e).mp he with ⟨-, hop⟩ | ⟨-, hop⟩
    · exact hop
    · exact .inl hop
  have hready : ∀ t : Infos, t.links = fc.links → True → ∀ e ∈ agenda operations, t.Ready e := by
    intro t hlinks _ e he node hnode
    rcases hops e he with hop | hop
    · rw [hop]
      exact allows_aggregate (hlinks ▸ h.tree) hnode
    · rw [hop]
      trivial
  have hlate : ∀ e ∈ agenda operations, ∀ slot, e.2 = .markInvalid slot → slot ≤ e.1.slot := by
    intro e he slot hslot'
    rcases hops e he with hop | hop <;> cases hop.symm.trans hslot'
  apply (replay_balanced_returns h.tree h.balanced hlabel (closed_of_mem_iff h.tree hmem) hready
    (fun _ _ _ _ => trivial) trivial).bind
  rintro fc' ⟨hfc', htree', hbalanced'⟩
  refine ⟨⟨htree', hbalanced', ?_⟩, ?_⟩
  · rw [hfc'.infos]
    exact h.invalidBelow.foldl hlate
  · rw [hfc'.infos]
    exact Infos.foldl_valid h.invalidBelow hknown hlate
      (fun e he => (hops e he).imp_right fun hop => ⟨key.slot, hop⟩)
      ((hmem _).mpr (.inl ⟨reaches_self hslot, .inr rfl⟩))

end

/-! ## A new leaf -/

variable {parentInfo : ForkInfo}

theorem balanced_linkLeaf (h : Consistent fc) (hnew : fc.infos key = none)
    (hparentInfo : fc.infos parentKey = some parentInfo) (k : SlotHashKey) :
    (fc.linkLeaf key parentKey parentInfo).infos.Balanced k := by
  have hne : key ≠ parentKey := by
    rintro rfl
    rw [hnew] at hparentInfo
    cases hparentInfo
  -- the leaf is not confirmed, and every other block as it was
  have hconfirmed : ∀ c, (fc.linkLeaf key parentKey parentInfo).infos.confirmed c =
      if c = key then false else fc.infos.confirmed c := by
    intro c
    rw [Infos.confirmed, infos_linkLeaf]
    by_cases hcp : c = parentKey
    · subst hcp
      rw [update_self, if_neg hne.symm, Infos.confirmed_of_eq hparentInfo]
      rfl
    · rw [update_of_ne hcp]
      by_cases hck : c = key
      · rw [hck, update_self, if_pos rfl]
        rfl
      · rw [update_of_ne hck, if_neg hck]
        rfl
  intro child hchild hc
  rw [hconfirmed] at hc ⊢
  split at hc
  · cases hc
  · rename_i hchildKey
    by_cases hkp : k = parentKey
    · subst hkp
      rw [Infos.children_of_eq (by rw [infos_linkLeaf, update_self])] at hchild
      have hold : child ∈ parentInfo.children.keys := by
        rw [BTreeMap.mem_keys_iff] at hchild ⊢
        simpa only [BTreeMap.get?_insert, if_neg hchildKey] using hchild
      rw [if_neg hne.symm]
      exact h.balanced k child (by rwa [Infos.children_of_eq hparentInfo]) hc
    · rw [LinkTable.children, Infos.links, infos_linkLeaf, update_of_ne hkp] at hchild
      by_cases hkk : k = key
      · rw [hkk, update_self] at hchild
        cases hchild
      · rw [update_of_ne hkk] at hchild
        rw [if_neg hkk]
        exact h.balanced k child hchild hc

theorem invalidBelow_linkLeaf (h : Consistent fc)
    (hparentInfo : fc.infos parentKey = some parentInfo) (hslot : parentKey.slot < key.slot) :
    (fc.linkLeaf key parentKey parentInfo).infos.InvalidBelow := by
  intro k info slot hinfo hlatest
  rw [linkLeaf, infos_setInfo] at hinfo
  by_cases hkp : k = parentKey
  · subst hkp
    rw [update_self, Option.some_inj] at hinfo
    subst hinfo
    exact h.invalidBelow k parentInfo slot hparentInfo hlatest
  · rw [update_of_ne hkp, infos_setInfo] at hinfo
    by_cases hkk : k = key
    · subst hkk
      rw [update_self, Option.some_inj] at hinfo
      subst hinfo
      -- the leaf takes the latest invalid ancestor of its parent
      have hparentLatest : parentInfo.latestInvalidAncestor = some slot := by
        have hget : fc.forkInfos.get? parentKey = some parentInfo := hparentInfo
        simpa [newLeafInfo, latestInvalidAncestor, hget] using hlatest
      have hle := h.invalidBelow parentKey parentInfo slot hparentInfo hparentLatest
      omega
    · rw [update_of_ne hkk] at hinfo
      exact h.invalidBelow k info slot hinfo hlatest

theorem new_marks (root : SlotHashKey) :
    ∃ fc, new root = .ok fc ∧ Consistent fc ∧ ∀ key, fc.infos key ≠ none ↔ key = root := by
  let info : ForkInfo := newLeafInfo ⟨.empty, root⟩ root none
  let fc : HeaviestSubtreeForkChoice := setInfo ⟨.empty, root⟩ root info
  have hinfos : ∀ key, fc.infos key = if key = root then some info else none := by
    intro key
    rw [infos_setInfo, update_apply]
    rfl
  have hchildren : ∀ key, fc.links.children key = [] := by
    intro key
    rw [LinkTable.children, links, Infos.links, hinfos]
    split <;> rfl
  have hparent : ∀ key, fc.links.parent key = none := by
    intro key
    rw [LinkTable.parent, links, Infos.links, hinfos]
    split <;> rfl
  refine ⟨fc, rfl, ⟨⟨?_, ?_, ?_, ?_, ?_⟩, ?_, ?_⟩, fun key => ?_⟩
  · intro key child
    simp [hchildren, hparent]
  · intro key child hchild
    rw [hparent] at hchild
    cases hchild
  · intro key
    rw [hchildren]
    exact nodup_nil
  · rw [links, Infos.links, hinfos]
    simp [fc, setInfo]
  · intro key hkey
    rw [links, Infos.links, hinfos] at hkey
    have hroot : key = root := by simpa using hkey
    exact ⟨fun _ => hroot, fun _ => hparent key⟩
  · intro key child hchild
    have hnone : child ∈ ([] : List SlotHashKey) := hchildren key ▸ hchild
    cases hnone
  · intro key info' slot hinfo hlatest
    rw [hinfos] at hinfo
    obtain ⟨-, rfl⟩ : key = root ∧ info = info' := by simpa using hinfo
    cases hlatest
  · rw [hinfos]
    simp

/-- A block that is new in the tree is not duplicate confirmed. -/
theorem addNewLeafSlot_marks (h : Consistent fc) (hnew : fc.infos key = none)
    (hparent : fc.infos parentKey ≠ none) (hslot : parentKey.slot < key.slot) :
    Succeeds (fun fc' => Consistent fc' ∧ fc'.infos key ≠ none ∧ fc'.infos.confirmed key = false)
      (fc.addNewLeafSlot key (some parentKey)) := by
  obtain ⟨parentInfo, hparentInfo⟩ := Option.ne_none_iff_exists'.mp hparent
  have hne : key ≠ parentKey := by
    rintro rfl
    exact hparent hnew
  apply (addNewLeafSlot_returns h.tree hnew hparentInfo hslot).mono
  intro fc' hleaf
  have hconfirmed : ∀ k, fc'.infos.confirmed k =
      (fc.linkLeaf key parentKey parentInfo).infos.confirmed k := fun k =>
    congrArg (·.getD false) (hleaf.map_eq (f := ForkInfo.isDuplicateConfirmed) (fun _ => rfl) k)
  have hkey : (fc.linkLeaf key parentKey parentInfo).infos key =
      some (fc.newLeafInfo key (some parentKey)) := by
    rw [infos_linkLeaf, update_of_ne hne, update_self]
  refine ⟨⟨?_, ?_, ?_⟩, ?_, ?_⟩
  · rw [hleaf.links_eq, hleaf.treeRoot]
    exact linkLeaf_tree h.tree hnew hparentInfo hslot
  · intro k child hchild hc
    rw [hconfirmed] at hc ⊢
    rw [show fc'.infos.links = _ from hleaf.links_eq] at hchild
    exact balanced_linkLeaf h hnew hparentInfo k child hchild hc
  · intro k info slot hinfo hlatest
    have hmarks := hleaf.map_eq (f := ForkInfo.latestInvalidAncestor) (fun _ => rfl) k
    rw [hinfo, Option.map_some] at hmarks
    obtain ⟨info', hinfo', heq⟩ := Option.map_eq_some_iff.mp hmarks.symm
    exact invalidBelow_linkLeaf h hparentInfo hslot k info' slot hinfo' (heq.trans hlatest)
  · intro hnone
    have hmarks := hleaf.map_eq (f := ForkInfo.parent) (fun _ => rfl) key
    rw [hnone, hkey] at hmarks
    cases hmarks
  · rw [hconfirmed, Infos.confirmed_of_eq hkey]
    rfl

/-! ## Ancestors -/

/-- `is_strict_ancestor` finds exactly the blocks that parent links lead to; its shortcut by slots
    misses none. -/
theorem isStrictAncestor_iff {root : SlotHashKey} (h : Tree fc.links root)
    (a key : SlotHashKey) :
    fc.isStrictAncestor a key = true ↔
      Relation.TransGen (fun p c => fc.parent c = some p) a key := by
  have hchain := ancestorIterator_chain h key
  have hslot := hchain.slot_lt h
  simp only [← parent_links]
  rw [← hchain.mem_iff]
  rw [isStrictAncestor]
  split_ifs with heq hlt
  · simpa using fun hmem => (hslot a hmem).ne (congrArg _ heq)
  · simpa using fun hmem => (hslot a hmem).asymm hlt
  · simp

theorem isStrictAncestor_iff_leaf : ∃ fc : HeaviestSubtreeForkChoice,
    fc.isStrictAncestor ⟨1, 0⟩ ⟨3, 0⟩ = true ∧
      Relation.TransGen (fun p c => fc.parent c = some p) ⟨1, 0⟩ ⟨3, 0⟩ := by
  obtain ⟨fc, hnew, hfc, hroot⟩ := new_marks ⟨1, 0⟩
  obtain ⟨fc', hleaf, hfc', -⟩ := (addNewLeafSlot_marks hfc
    (not_not.mp (mt (hroot ⟨3, 0⟩).mp (by decide))) ((hroot ⟨1, 0⟩).mpr rfl) (by decide)).exists_ok
  have hrun : ((new ⟨1, 0⟩).bind (·.addNewLeafSlot ⟨3, 0⟩ (some ⟨1, 0⟩))).toOption.map
      (·.isStrictAncestor ⟨1, 0⟩ ⟨3, 0⟩) = some true := by decide +kernel
  rw [hnew, Except.bind, hleaf] at hrun
  have hfound := Option.some.inj hrun
  exact ⟨fc', hfound, (isStrictAncestor_iff hfc'.tree _ _).mp hfound⟩

end HeaviestSubtreeForkChoice

end Agave.ForkChoice

