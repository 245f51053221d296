/-
  Agave.ForkChoice.Replay

  The fork choice carries out a queue of operations.

  `Infos` is the map of fork infos as a function, and `Infos.apply` what an update operation makes
  of it when it does not panic.  A queue whose operations stay ready is replayed to its end
  (`processUpdateOperations_returns`).  A block is `Balanced` when it is duplicate confirmed if one
  of its children is.  `sweep_balanced` says that a replay leaves every block balanced, provided the
  parent of every block in the queue is queued for aggregation: a child has a greater key than its
  parent, so it is final when the parent is recomputed.
-/

import Agave.ForkChoice.State
import Agave.Lib.Outcome
import Agave.Lib.Sweep

namespace Agave.ForkChoice

open Agave.Lib Function List Aggregation

/-! ## The order of the queue -/

namespace UpdateOperation

/-- The label an operation is queued under. -/
def label : UpdateOperation → UpdateLabel
  | add _ => .add
  | markValid slot => .markValid slot
  | markInvalid slot => .markInvalid slot
  | subtract _ => .subtract
  | aggregate => .aggregate

theorem label_aggregate : aggregate.label = .aggregate := rfl

end UpdateOperation

/-- An operation and the block it is queued for. -/
abbrev Entry := SlotHashKey × UpdateOperation

/-- `a` is replayed before `b`. -/
def Before (a b : Entry) : Prop := toLex (b.1, b.2.label) < toLex (a.1, a.2.label)

theorem Before.asymm {a b : Entry} (h : Before a b) : ¬ Before b a := lt_asymm h

theorem before_of_lt {a b : Entry} (h : b.1 < a.1) : Before a b :=
  Prod.Lex.toLex_lt_toLex.mpr (Or.inl h)

/-! ## Links -/

/-- The links of a block. -/
structure Links where
  parent : Option SlotHashKey
  children : List SlotHashKey

/-- The links of all blocks of a tree. -/
abbrev LinkTable := SlotHashKey → Option Links

namespace LinkTable

def children (links : LinkTable) (key : SlotHashKey) : List SlotHashKey :=
  ((links key).map Links.children).getD []

def parent (links : LinkTable) (key : SlotHashKey) : Option SlotHashKey :=
  (links key).bind Links.parent

end LinkTable

/-! ## Fork infos -/

def ForkInfo.links (info : ForkInfo) : Links := ⟨info.parent, info.children.keys⟩

/-- What `update_with_newly_invalid_ancestor` makes of a block that is not duplicate confirmed. -/
def ForkInfo.invalidatedBy (info : ForkInfo) (slot : Nat) : ForkInfo :=
  if (info.latestInvalidAncestor.map (fun latest => decide (latest < slot))).getD true then
    { info with latestInvalidAncestor := some slot }
  else info

/-- The fork infos of a tree. -/
abbrev Infos := SlotHashKey → Option ForkInfo

variable {key : SlotHashKey} {info : ForkInfo} {operations : UpdateOperations}

namespace Infos

variable (t : Infos)

def links : LinkTable := fun key => (t key).map ForkInfo.links

def confirmed (key : SlotHashKey) : Bool := ((t key).map ForkInfo.isDuplicateConfirmed).getD false

/-- The children of a node, with their infos. -/
def childInfos (info : ForkInfo) : List (SlotHashKey × ForkInfo) :=
  info.children.keys.filterMap (fun childKey => (t childKey).map (fun child => (childKey, child)))

/-- What the loop of `aggregate_slot` over the children ends with. -/
def aggregation (key : SlotHashKey) (info : ForkInfo) : Aggregation :=
  (t.childInfos info).foldl (Aggregation.visit key) (Aggregation.start key info)

/-- What an operation makes of the node it is queued for. -/
def effect (key : SlotHashKey) : UpdateOperation → ForkInfo → ForkInfo
  | .add stake, info =>
    { info with
      stakeVotedAt := info.stakeVotedAt + stake
      stakeVotedSubtree := info.stakeVotedSubtree + stake }
  | .subtract stake, info =>
    { info with
      stakeVotedAt := info.stakeVotedAt - stake
      stakeVotedSubtree := info.stakeVotedSubtree - stake }
  | .markValid slot, info =>
    if key.slot = slot then
      { info.updateWithNewlyValidAncestor slot with isDuplicateConfirmed := true }
    else info.updateWithNewlyValidAncestor slot
  | .markInvalid slot, info => info.invalidatedBy slot
  | .aggregate, info => (t.aggregation key info).store info

/-- Carrying out one entry. -/
def apply (e : Entry) : Infos := Function.update t e.1 ((t e.1).map (t.effect e.1 e.2))

/-- The operation can be carried out on the node: the children to be summed up exist, there is
    enough stake to subtract, no confirmed block is marked invalid. -/
def Allows (info : ForkInfo) : UpdateOperation → Prop
  | .aggregate => ∀ child ∈ info.children.keys, t child ≠ none
  | .subtract stake => stake ≤ info.stakeVotedAt ∧ stake ≤ info.stakeVotedSubtree
  | .markInvalid _ => info.isDuplicateConfirmed = false
  | .markValid _ => True
  | .add _ => True

/-- The entry can be carried out. -/
def Ready (e : Entry) : Prop := ∀ info, t e.1 = some info → t.Allows info e.2

/-- Confirmation is passed on to the parent. -/
def Balanced (key : SlotHashKey) : Prop :=
  ∀ child ∈ t.links.children key, t.confirmed child = true → t.confirmed key = true

variable {t} {e : Entry}

theorem children_of_eq (h : t key = some info) : t.links.children key = info.children.keys := by
  simp [LinkTable.children, links, h, ForkInfo.links]

theorem parent_of_eq (h : t key = some info) : t.links.parent key = info.parent := by
  simp [LinkTable.parent, links, h, ForkInfo.links]

theorem confirmed_of_eq (h : t key = some info) : t.confirmed key = info.isDuplicateConfirmed := by
  rw [confirmed, h]
  rfl

/-! ## One entry -/

theorem apply_of_ne (h : key ≠ e.1) : t.apply e key = t key :=
  update_of_ne h _ _

theorem apply_self (e : Entry) : t.apply e e.1 = (t e.1).map (t.effect e.1 e.2) :=
  update_self _ _ _

theorem apply_of_none (h : t e.1 = none) : t.apply e = t := by
  unfold apply
  rw [h, Option.map_none, ← h, update_eq_self]

theorem confirmed_apply_of_ne (h : key ≠ e.1) : (t.apply e).confirmed key = t.confirmed key := by
  rw [confirmed, apply_of_ne h]
  rfl

theorem effect_links (key : SlotHashKey) (operation : UpdateOperation) (info : ForkInfo) :
    (t.effect key operation info).links = info.links := by
  cases operation <;>
    simp only [effect, ForkInfo.updateWithNewlyValidAncestor, ForkInfo.invalidatedBy, store,
      ForkInfo.setDuplicateConfirmed] <;>
    repeat' split
  all_goals rfl

@[simp] theorem links_apply (e : Entry) : (t.apply e).links = t.links := by
  funext key
  by_cases hkey : key = e.1
  · subst hkey
    simp only [links, apply_self, Option.map_map]
    cases t e.1 with
    | none => rfl
    | some info => exact congrArg some (effect_links e.1 e.2 info)
  · simp only [links, apply_of_ne hkey]

@[simp] theorem links_foldl (agenda : List Entry) (t : Infos) :
    (agenda.foldl apply t).links = t.links := by
  induction agenda generalizing t with
  | nil => rfl
  | cons e rest ih => rw [foldl_cons, ih, links_apply]

theorem visit_isDuplicateConfirmed (key : SlotHashKey) (a : Aggregation)
    (child : SlotHashKey × ForkInfo) :
    (a.visit key child).isDuplicateConfirmed =
      (a.isDuplicateConfirmed || child.2.isDuplicateConfirmed) := by
  simp only [visit, updateDeepest, updateBest]
  split_ifs <;> rfl

theorem foldl_visit_isDuplicateConfirmed (key : SlotHashKey)
    (children : List (SlotHashKey × ForkInfo)) (a : Aggregation) :
    (children.foldl (visit key) a).isDuplicateConfirmed =
      (a.isDuplicateConfirmed || children.any (fun c => c.2.isDuplicateConfirmed)) := by
  induction children generalizing a with
  | nil => simp
  | cons child children ih =>
    rw [foldl_cons, ih, visit_isDuplicateConfirmed, any_cons, Bool.or_assoc]

/-- Aggregation finds a confirmed child just when there is one. -/
theorem aggregation_isDuplicateConfirmed (key : SlotHashKey) (info : ForkInfo) :
    (t.aggregation key info).isDuplicateConfirmed = info.children.keys.any t.confirmed := by
  have hany : ∀ keys : List SlotHashKey, (keys.filterMap (fun childKey =>
      (t childKey).map (fun child => (childKey, child)))).any (fun c => c.2.isDuplicateConfirmed) =
        keys.any t.confirmed := by
    intro keys
    induction keys with
    | nil => rfl
    | cons key keys ih => cases hkey : t key <;> simp [hkey, ih, confirmed]
  rw [aggregation, foldl_visit_isDuplicateConfirmed, childInfos, hany]
  rfl

/-- What makes a block duplicate confirmed. -/
def confirms (t : Infos) (key : SlotHashKey) (info : ForkInfo) : UpdateOperation → Bool
  | .markValid slot => decide (key.slot = slot)
  | .aggregate => info.children.keys.any t.confirmed
  | _ => false

theorem effect_isDuplicateConfirmed (key : SlotHashKey) (operation : UpdateOperation)
    (info : ForkInfo) :
    (t.effect key operation info).isDuplicateConfirmed =
      (info.isDuplicateConfirmed || t.confirms key info operation) := by
  cases operation with
  | add stake => exact (Bool.or_false _).symm
  | subtract stake => exact (Bool.or_false _).symm
  | markInvalid slot =>
    unfold effect ForkInfo.invalidatedBy
    dsimp only
    split <;> exact (Bool.or_false _).symm
  | markValid slot =>
    have hkept : (info.updateWithNewlyValidAncestor slot).isDuplicateConfirmed =
        info.isDuplicateConfirmed := by
      unfold ForkInfo.updateWithNewlyValidAncestor
      repeat' split
      all_goals rfl
    by_cases hslot : key.slot = slot <;> simp [effect, confirms, hslot, hkept]
  | aggregate =>
    rw [effect, store, aggregation_isDuplicateConfirmed, confirms]
    split <;> simp_all [ForkInfo.setDuplicateConfirmed]

theorem confirmed_apply_self (h : t e.1 = some info) :
    (t.apply e).confirmed e.1 = (info.isDuplicateConfirmed || t.confirms e.1 info e.2) := by
  rw [← effect_isDuplicateConfirmed]
  exact confirmed_of_eq (by rw [apply_self, h, Option.map_some])

/-! ## The sweep -/

/-- An entry repairs the block it aggregates and breaks its parent at most. -/
theorem balanced_apply (h : t.Balanced key ∨ (e.2 = .aggregate ∧ e.1 = key)) :
    (t.apply e).Balanced key ∨ e.1 ∈ t.links.children key := by
  by_cases hparent : e.1 ∈ t.links.children key
  · exact Or.inr hparent
  · left
    intro child hchild hconfirmed
    rw [links_apply] at hchild
    rw [confirmed_apply_of_ne (fun heq => hparent (heq ▸ hchild))] at hconfirmed
    by_cases hkey : key = e.1
    · subst hkey
      cases hinfo : t e.1 with
      | none => simp [LinkTable.children, links, hinfo] at hchild
      | some info =>
        rw [confirmed_apply_self hinfo]
        rcases h with h | ⟨hop, -⟩
        · rw [← confirmed_of_eq hinfo, h child hchild hconfirmed, Bool.true_or]
        · rw [children_of_eq hinfo] at hchild
          rw [hop, confirms, any_eq_true.mpr ⟨child, hchild, hconfirmed⟩, Bool.or_true]
    · rw [confirmed_apply_of_ne hkey]
      exact h.resolve_right (fun h => hkey h.2.symm) child hchild hconfirmed

/-- With every block of the agenda, its parent is queued for aggregation. -/
def Closed (links : LinkTable) (agenda : List Entry) : Prop :=
  ∀ e ∈ agenda, ∀ key, e.1 ∈ links.children key → (key, .aggregate) ∈ agenda

/-- The sweep leaves every block balanced. -/
theorem sweep_balanced {agenda : List Entry} (hord : agenda.Pairwise Before)
    (hclosed : Closed t.links agenda)
    (hchild : ∀ key child, child ∈ t.links.children key → key < child)
    (hstart : ∀ key, t.Balanced key) (key : SlotHashKey) :
    (agenda.foldl apply t).Balanced key := by
  refine Sweep.foldl_good Before.asymm (fun t' => t'.links = t.links) Balanced
    (fun e key => e.2 = .aggregate ∧ e.1 = key) (fun e key => e.1 ∈ t.links.children key)
    ?_ ?_ hord ?_ rfl (fun key => Or.inl (hstart key)) key
  · intro t' e hlinks
    rw [links_apply, hlinks]
  · intro t' e key hlinks h
    rw [← hlinks]
    exact balanced_apply h
  · intro e he key hkey
    exact ⟨(key, .aggregate), hclosed e he key hkey, before_of_lt (hchild key e.1 hkey), rfl, rfl⟩

end Infos

namespace HeaviestSubtreeForkChoice

variable {fc : HeaviestSubtreeForkChoice}

def infos (fc : HeaviestSubtreeForkChoice) : Infos := fc.forkInfos.get?

def links (fc : HeaviestSubtreeForkChoice) : LinkTable := fc.infos.links

theorem get?_setInfo (key : SlotHashKey) (info : ForkInfo) (k : SlotHashKey) :
    (fc.setInfo key info).forkInfos.get? k = if k = key then some info else fc.forkInfos.get? k :=
  BTreeMap.get?_insert _ _ _ _

theorem infos_setInfo (key : SlotHashKey) (info : ForkInfo) :
    (fc.setInfo key info).infos = update fc.infos key (some info) := by
  funext k
  rw [infos, get?_setInfo, update_apply]
  rfl

theorem getInfo_of_get? (h : fc.forkInfos.get? key = some info) (e : Panic) :
    fc.getInfo key e = .ok info := by
  simp only [getInfo, h]

/-! ## One operation -/

theorem childInfos_returns (info : ForkInfo) :
    Returns (fun _ => ∃ child ∈ info.children.keys, fc.forkInfos.get? child = none)
      (fun children => children = fc.infos.childInfos info) (fc.childInfos info) := by
  unfold childInfos Infos.childInfos
  generalize info.children.keys = keys
  induction keys with
  | nil =>
    rw [mapM_nil]
    exact rfl
  | cons key keys ih =>
    rw [mapM_cons]
    cases hkey : fc.forkInfos.get? key with
    | none =>
      simp only [getInfo, hkey]
      exact ⟨key, mem_cons_self, hkey⟩
    | some child =>
      rw [getInfo_of_get? hkey]
      apply (ih.weaken (fun _ ⟨c, hc, hnone⟩ => ⟨c, mem_cons_of_mem _ hc, hnone⟩)).bind
      rintro children rfl
      have hinfo : fc.infos key = some child := hkey
      simp [hinfo]

/-- `fc'` has the fork infos `t` and otherwise agrees with `fc`. -/
structure HasInfos (fc fc' : HeaviestSubtreeForkChoice) (t : Infos) : Prop where
  infos : fc'.infos = t
  treeRoot : fc'.treeRoot = fc.treeRoot

theorem hasInfos_setInfo {operation : UpdateOperation} {info' : ForkInfo}
    (h : fc.forkInfos.get? key = some info) (heffect : info' = fc.infos.effect key operation info) :
    HasInfos fc (fc.setInfo key info') (fc.infos.apply (key, operation)) where
  infos := by
    have hinfo : fc.infos key = some info := h
    rw [infos_setInfo, Infos.apply, hinfo, heffect]
    rfl
  treeRoot := rfl

theorem updateWithNewlyInvalidAncestor_returns (info : ForkInfo) (slot : Nat) :
    Returns (fun _ => info.isDuplicateConfirmed = true)
      (fun info' => info' = info.invalidatedBy slot)
      (info.updateWithNewlyInvalidAncestor slot) := by
  unfold ForkInfo.updateWithNewlyInvalidAncestor ForkInfo.invalidatedBy
  by_cases hconfirmed : info.isDuplicateConfirmed = true
  · rw [if_pos hconfirmed]
    exact hconfirmed
  · rw [if_neg hconfirmed]
    split <;> exact rfl

theorem aggregateSlot_returns (h : fc.forkInfos.get? key = some info) :
    Returns (fun _ => ∃ child ∈ info.children.keys, fc.forkInfos.get? child = none)
      (fun fc' => HasInfos fc fc' (fc.infos.apply (key, .aggregate))) (fc.aggregateSlot key) := by
  simp only [aggregateSlot, h]
  apply (childInfos_returns info).bind
  rintro _ rfl
  exact hasInfos_setInfo h rfl

/-- An operation that returns has its effect, and only one that is not ready panics. -/
theorem processOperation_returns (e : Entry) :
    Returns (fun _ => ¬ fc.infos.Ready e) (fun fc' => HasInfos fc fc' (fc.infos.apply e))
      (fc.processOperation e.1 e.2) := by
  obtain ⟨key, operation⟩ := e
  cases hget : fc.forkInfos.get? key with
  | none =>
    have hsame : HasInfos fc fc (fc.infos.apply (key, operation)) :=
      ⟨(Infos.apply_of_none hget).symm, rfl⟩
    cases operation <;>
      simp only [processOperation, markForkValid, markForkInvalid, aggregateSlot,
        addSlotStake, subtractSlotStake, hget] <;>
      exact hsame
  | some info =>
    have hready : fc.infos.Ready (key, operation) → fc.infos.Allows info operation :=
      fun h => h info hget
    cases operation with
    | add stake =>
      simp only [processOperation, addSlotStake, hget]
      exact hasInfos_setInfo hget rfl
    | subtract stake =>
      simp only [processOperation, subtractSlotStake, hget]
      by_cases hat : info.stakeVotedAt < stake
      · rw [if_pos hat]
        exact fun h => absurd (hready h).1 (not_le.mpr hat)
      · by_cases hsubtree : info.stakeVotedSubtree < stake
        · rw [if_neg hat, if_pos hsubtree]
          exact fun h => absurd (hready h).2 (not_le.mpr hsubtree)
        · rw [if_neg hat, if_neg hsubtree]
          exact hasInfos_setInfo hget rfl
    | markValid slot =>
      simp only [processOperation, markForkValid, hget]
      exact hasInfos_setInfo hget rfl
    | markInvalid slot =>
      simp only [processOperation, markForkInvalid, hget]
      apply ((updateWithNewlyInvalidAncestor_returns info slot).weaken ?_).bind
      · rintro _ rfl
        exact hasInfos_setInfo hget rfl
      · intro _ hconfirmed h
        have hallows : info.isDuplicateConfirmed = false := hready h
        rw [hallows] at hconfirmed
        cases hconfirmed
    | aggregate =>
      apply (aggregateSlot_returns hget).weaken
      rintro _ ⟨child, hchild, hnone⟩ h
      exact hready h child hchild hnone

/-! ## The replay -/

/-- Every operation is queued under its own label. -/
def Labelled (operations : UpdateOperations) : Prop :=
  ∀ label operation, operations.get? label = some operation → (ofLex label).2 = operation.label

theorem mem_agenda {e : Entry} (h : Labelled operations) :
    e ∈ agenda operations ↔ operations.get? (toLex (e.1, e.2.label)) = some e.2 := by
  unfold agenda
  rw [mem_reverse, mem_map, BTreeMap.get?_eq_some_iff]
  constructor
  · rintro ⟨a, ha, rfl⟩
    rw [← h a.1 a.2 (BTreeMap.get?_eq_some_iff.mpr ha)]
    exact ha
  · intro hmem
    exact ⟨_, hmem, rfl⟩

theorem agenda_pairwise (h : Labelled operations) : (agenda operations).Pairwise Before := by
  unfold agenda
  rw [pairwise_reverse, pairwise_map]
  apply operations.sorted.imp_of_mem
  intro a b ha hb hab
  show toLex ((ofLex a.1).1, a.2.label) < toLex ((ofLex b.1).1, b.2.label)
  rw [← h a.1 a.2 (BTreeMap.get?_eq_some_iff.mpr ha),
    ← h b.1 b.2 (BTreeMap.get?_eq_some_iff.mpr hb)]
  exact hab

/-- Replaying a queue does not panic where an invariant keeps its entries ready. -/
theorem processUpdateOperations_returns {P : Infos → Prop}
    (hready : ∀ t, P t → ∀ e ∈ agenda operations, t.Ready e)
    (hinv : ∀ t, P t → ∀ e ∈ agenda operations, P (t.apply e)) (h : P fc.infos) :
    Succeeds (fun fc' => HasInfos fc fc' ((agenda operations).foldl Infos.apply fc.infos))
      (fc.processUpdateOperations operations) := by
  unfold processUpdateOperations
  generalize agenda operations = agenda at hready hinv ⊢
  induction agenda generalizing fc with
  | nil => exact ⟨rfl, rfl⟩
  | cons e rest ih =>
    rw [foldlM_cons, foldl_cons]
    apply ((processOperation_returns e).weaken
      (fun _ hnot => hnot (hready _ h e mem_cons_self))).bind
    rintro fc₁ ⟨hinfos, hroot⟩
    rw [← hinfos]
    apply (ih (hinfos ▸ hinv _ h e mem_cons_self)
      (fun t ht e' he' => hready t ht e' (mem_cons_of_mem _ he'))
      (fun t ht e' he' => hinv t ht e' (mem_cons_of_mem _ he'))).mono
    rintro fc₂ ⟨hinfos', hroot'⟩
    exact ⟨hinfos', hroot'.trans hroot⟩

end HeaviestSubtreeForkChoice

end Agave.ForkChoice
