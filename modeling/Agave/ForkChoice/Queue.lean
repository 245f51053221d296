/-
  Agave.ForkChoice.Queue

  Building a queue of update operations, and replaying it.

  Marking a fork queues its subtree for the mark and for aggregation, and its ancestors for
  aggregation.  The queue is closed: with every block in it, its parent is queued for aggregation.
  A closed queue that stays ready is replayed to its end and leaves a balanced tree
  (`replay_balanced_returns`).
-/

import Agave.ForkChoice.Tree

namespace Agave.ForkChoice

open Agave.Lib List

variable {operation mark : UpdateOperation} {key : SlotHashKey}
  {ancestors : List SlotHashKey} {label : UpdateLabel} {e : Entry}

namespace HeaviestSubtreeForkChoice

variable {fc : HeaviestSubtreeForkChoice} {operations : UpdateOperations} {root : SlotHashKey}

theorem slot_le_of_reaches (htree : Tree fc.links root) {root1 root2 k : SlotHashKey}
    (h : fc.Reaches root1 root2 k) : root1.slot ≤ k.slot := htree.forest.level_le h.below

/-! ## Inserting one operation -/

theorem labelled_empty : Labelled .empty := by
  intro label operation h
  cases h

theorem not_mem_agenda_empty (e : SlotHashKey × UpdateOperation) : e ∉ agenda .empty :=
  not_mem_nil

theorem labelled_insert (h : Labelled operations) (key : SlotHashKey)
    (hlabel : operation.label = label) :
    Labelled (operations.insert (toLex (key, label)) operation).2 := by
  intro l o ho
  rw [BTreeMap.get?_insert] at ho
  split_ifs at ho with hl
  · cases ho
    rw [hl, hlabel]
    rfl
  · exact h l o ho

/-- Queueing an operation that is the only one with its label. -/
theorem mem_agenda_insert (h : Labelled operations) (hlabel : operation.label = label)
    (honly : ∀ o : UpdateOperation, o.label = label → o = operation) :
    e ∈ agenda (operations.insert (toLex (key, label)) operation).2 ↔
      e = (key, operation) ∨ e ∈ agenda operations := by
  obtain ⟨k, o⟩ := e
  rw [mem_agenda (labelled_insert h key hlabel), mem_agenda h]
  simp only [BTreeMap.get?_insert, toLex_inj, Prod.mk.injEq]
  by_cases hsame : k = key ∧ o.label = label
  · rw [if_pos hsame, honly o hsame.2]
    exact iff_of_true rfl (Or.inl ⟨hsame.1, rfl⟩)
  · rw [if_neg hsame]
    refine ⟨Or.inr, ?_⟩
    rintro (⟨rfl, rfl⟩ | ho)
    · exact absurd ⟨rfl, hlabel⟩ hsame
    · exact ho

theorem eq_aggregate_of_label (h : operation.label = .aggregate) : operation = .aggregate := by
  cases operation <;> first | rfl | cases h

/-- The block is queued for aggregation. -/
abbrev Queued (operations : UpdateOperations) (key : SlotHashKey) : Prop :=
  (key, UpdateOperation.aggregate) ∈ agenda operations

theorem queued_iff (h : Labelled operations) (key : SlotHashKey) :
    Queued operations key ↔ (operations.get? (toLex (key, .aggregate))).isSome := by
  rw [Queued, mem_agenda h]
  constructor
  · intro hget
    rw [UpdateOperation.label_aggregate] at hget
    simp [hget]
  · intro hsome
    obtain ⟨operation, hoperation⟩ := Option.isSome_iff_exists.mp hsome
    rw [eq_aggregate_of_label (h _ _ hoperation).symm] at hoperation
    exact hoperation

theorem mem_agenda_insert_aggregate (h : Labelled operations) :
    e ∈ agenda (operations.insert (toLex (key, .aggregate)) .aggregate).2 ↔
      e = (key, .aggregate) ∨ e ∈ agenda operations :=
  mem_agenda_insert h UpdateOperation.label_aggregate fun _ => eq_aggregate_of_label

/-! ## Marks -/

/-- The operations that notify a block of a change of validity. -/
def IsMark (operation : UpdateOperation) : Prop :=
  ∃ slot, operation = .markValid slot ∨ operation = .markInvalid slot

theorem IsMark.eq_of_label (h : IsMark mark) (hlabel : operation.label = mark.label) :
    operation = mark := by
  obtain ⟨slot, rfl | rfl⟩ := h
  · cases operation <;> cases hlabel
    rfl
  · cases operation <;> cases hlabel
    rfl

variable (notice : Option UpdateOperation)

theorem doInsertAggregateOperation_spec (hnotice : ∀ mark ∈ notice, IsMark mark)
    (h : Labelled operations) (hnew : ¬ Queued operations key) :
    (doInsertAggregateOperation notice operations key).1 = true ∧
      Labelled (doInsertAggregateOperation notice operations key).2 ∧
      ∀ e, e ∈ agenda (doInsertAggregateOperation notice operations key).2 ↔
        e ∈ agenda operations ∨ (e.1 = key ∧ (e.2 = .aggregate ∨ notice = some e.2)) := by
  have hnone := mt (queued_iff h key).mpr hnew
  unfold doInsertAggregateOperation
  rw [if_neg hnone]
  cases notice with
  | none =>
    refine ⟨rfl, labelled_insert h key UpdateOperation.label_aggregate, fun e => ?_⟩
    dsimp only
    rw [mem_agenda_insert_aggregate h, Prod.ext_iff]
    simp only [reduceCtorEq, or_false]
    exact or_comm
  | some mark =>
    have hmark := hnotice mark rfl
    have hmarked := labelled_insert h key (rfl : mark.label = _)
    have hspec : ∀ e, e ∈ agenda ((operations.insert (toLex (key, mark.label)) mark).2.insert
        (toLex (key, .aggregate)) .aggregate).2 ↔
        e ∈ agenda operations ∨ (e.1 = key ∧ (e.2 = .aggregate ∨ some mark = some e.2)) := by
      intro e
      rw [mem_agenda_insert_aggregate hmarked,
        mem_agenda_insert h rfl (fun _ => hmark.eq_of_label), Prod.ext_iff, Prod.ext_iff,
        Option.some_inj, eq_comm (a := mark)]
      tauto
    have hlabel := labelled_insert hmarked key UpdateOperation.label_aggregate
    obtain ⟨slot, rfl | rfl⟩ := hmark
    · exact ⟨rfl, hlabel, hspec⟩
    · exact ⟨rfl, hlabel, hspec⟩

/-- Queueing blocks that are not queued, one after the other. -/
theorem foldl_insert_spec (hnotice : ∀ mark ∈ notice, IsMark mark) {keys : List SlotHashKey}
    (hnodup : keys.Nodup) (h : Labelled operations) (hnew : ∀ key ∈ keys, ¬ Queued operations key) :
    Labelled (keys.foldl (fun operations child =>
        (doInsertAggregateOperation notice operations child).2) operations) ∧
      ∀ e, e ∈ agenda (keys.foldl (fun operations child =>
          (doInsertAggregateOperation notice operations child).2) operations) ↔
        e ∈ agenda operations ∨ (e.1 ∈ keys ∧ (e.2 = .aggregate ∨ notice = some e.2)) := by
  induction keys generalizing operations with
  | nil => exact ⟨h, fun e => by simp⟩
  | cons key keys ih =>
    obtain ⟨hkey, hnodup⟩ := nodup_cons.mp hnodup
    obtain ⟨-, hlabel, hmem⟩ :=
      doInsertAggregateOperation_spec notice hnotice h (hnew key mem_cons_self)
    obtain ⟨hlabel', hagenda⟩ := ih hnodup hlabel (by
      intro k hk hq
      rcases (hmem _).mp hq with hq | ⟨rfl, -⟩
      · exact hnew k (mem_cons_of_mem _ hk) hq
      · exact hkey hk)
    refine ⟨hlabel', fun e => ?_⟩
    rw [foldl_cons, hagenda e, hmem e, mem_cons]
    tauto

/-- The loop over the ancestors goes to its end where none of them is queued. -/
theorem insertAcrossAncestors_eq (hnodup : ancestors.Nodup) (h : Labelled operations)
    (hnew : ∀ key ∈ ancestors, ¬ Queued operations key) :
    insertAcrossAncestors none ancestors operations =
      ancestors.foldl (fun operations ancestor =>
        (doInsertAggregateOperation none operations ancestor).2) operations := by
  induction ancestors generalizing operations with
  | nil => rfl
  | cons key ancestors ih =>
    obtain ⟨hkey, hnodup⟩ := nodup_cons.mp hnodup
    obtain ⟨hinserted, hlabel, hmem⟩ := doInsertAggregateOperation_spec none (by simp) h
      (hnew key mem_cons_self)
    rw [insertAcrossAncestors, if_pos hinserted, foldl_cons, ih hnodup hlabel]
    intro k hk hq
    rcases (hmem _).mp hq with hq | ⟨rfl, -⟩
    · exact hnew k (mem_cons_of_mem _ hk) hq
    · exact hkey hk

/-- The queue of `mark_fork_valid_candidate` and `mark_fork_invalid_candidate`: the subtree is
    marked, and aggregated like the ancestors. -/
theorem queueMarks_returns (hmark : IsMark mark) (htree : Tree fc.links root)
    (hkey : fc.links key ≠ none) :
    Succeeds (fun operations => Labelled operations ∧ ∀ e, e ∈ agenda operations ↔
        (fc.Reaches key .zero e.1 ∧ (e.2 = .aggregate ∨ e.2 = mark)) ∨
          (e.1 ∈ fc.ancestorIterator key ∧ e.2 = .aggregate)) (fc.queueMarks mark key) := by
  have hchain := ancestorIterator_chain htree key
  unfold queueMarks
  apply (subtreeDiff_returns htree hkey .zero).bind
  rintro subtree ⟨hnodup, hsubtree⟩
  obtain ⟨hlabel, hagenda⟩ := foldl_insert_spec (some mark) (by simpa using hmark)
    hnodup labelled_empty (fun _ _ hq => not_mem_nil hq)
  have hnew : ∀ a ∈ fc.ancestorIterator key, ¬ Queued (subtree.foldl (fun operations child =>
      (doInsertAggregateOperation (some mark) operations child).2) .empty) a := by
    intro a ha hq
    have hmem : a ∈ subtree := by simpa [not_mem_agenda_empty] using (hagenda _).mp hq
    have hbelow := slot_le_of_reaches htree ((hsubtree a).mp hmem)
    have habove := hchain.slot_lt htree a ha
    omega
  obtain ⟨hlabel', hagenda'⟩ := foldl_insert_spec none (by simp)
    (hchain.nodup htree) hlabel hnew
  dsimp only
  rw [Returns.pure_iff, insertAggregateOperations,
    insertAcrossAncestors_eq (hchain.nodup htree) hlabel hnew]
  refine ⟨hlabel', fun e => ?_⟩
  rw [hagenda', hagenda, hsubtree, Option.some_inj, eq_comm (a := mark)]
  simp [not_mem_agenda_empty]

theorem closed_of_mem_iff (htree : Tree fc.links root) (h : ∀ e, e ∈ agenda operations ↔
      (fc.Reaches key .zero e.1 ∧ (e.2 = .aggregate ∨ e.2 = mark)) ∨
        (e.1 ∈ fc.ancestorIterator key ∧ e.2 = .aggregate)) :
    Infos.Closed fc.links (agenda operations) := by
  have hchain := ancestorIterator_chain htree key
  intro e he p hp
  have hparent := htree.mem_children_iff.mp hp
  rw [h]
  rcases (h e).mp he with ⟨hreach, -⟩ | ⟨hmem, -⟩
  · rcases hreach.parent with heq | ⟨q, hq, hchild⟩
    · rw [heq] at hparent
      exact .inr ⟨hchain.mem_iff.mpr (.single hparent), rfl⟩
    · rw [htree.forest.parent_unique hp hchild]
      exact .inl ⟨hq, .inl rfl⟩
  · exact .inr ⟨hchain.mem_iff.mpr (.head hparent (hchain.mem_iff.mp hmem)), rfl⟩

/-! ## Replaying a queue -/

theorem allows_aggregate {t : Infos} (htree : Tree t.links root) {info : ForkInfo}
    (h : t key = some info) : t.Allows info .aggregate := by
  intro child hchild hnone
  rw [← Infos.children_of_eq h] at hchild
  apply htree.child_mem hchild
  simp [Infos.links, hnone]

/-- Replaying a closed queue that stays ready keeps the tree and the balance of its blocks. -/
theorem replay_balanced_returns {inv : Infos → Prop} (htree : Tree fc.links fc.treeRoot)
    (hbalanced : ∀ key, fc.infos.Balanced key) (hlabel : Labelled operations)
    (hclosed : Infos.Closed fc.links (agenda operations))
    (hready : ∀ t : Infos, t.links = fc.links → inv t → ∀ e ∈ agenda operations, t.Ready e)
    (hinv : ∀ t, inv t → ∀ e ∈ agenda operations, inv (t.apply e)) (h : inv fc.infos) :
    Succeeds (fun fc' => HasInfos fc fc' ((agenda operations).foldl Infos.apply fc.infos) ∧
        Tree fc'.links fc'.treeRoot ∧ ∀ key, fc'.infos.Balanced key)
      (fc.processUpdateOperations operations) := by
  apply (processUpdateOperations_returns (P := fun t => t.links = fc.links ∧ inv t)
    (fun t ht => hready t ht.1 ht.2)
    (fun t ht e he => ⟨(Infos.links_apply e).trans ht.1, hinv t ht.2 e he⟩) ⟨rfl, h⟩).mono
  intro fc' hfc'
  refine ⟨hfc', ?_, ?_⟩
  · rw [links, hfc'.infos, Infos.links_foldl, hfc'.treeRoot]
    exact htree
  · rw [hfc'.infos]
    exact Infos.sweep_balanced (agenda_pairwise hlabel) hclosed
      (fun _ _ hchild => htree.lt_of_mem_children hchild) hbalanced

theorem confirmed_of_below (hbalanced : ∀ key, fc.infos.Balanced key) {top : SlotHashKey}
    (htop : fc.infos.confirmed top = false) (hbelow : Forest.Below fc.links.children top key) :
    fc.infos.confirmed key = false := by
  induction hbelow with
  | refl => exact htop
  | tail _ hstep ih =>
    rw [Bool.eq_false_iff] at ih ⊢
    exact fun hconfirmed => ih (hbalanced _ _ hstep hconfirmed)

theorem unconfirmedAmong_eq {keys : List SlotHashKey} (h : ∀ key ∈ keys, fc.links key ≠ none) :
    fc.unconfirmedAmong keys = .ok (keys.filter (fun key => !fc.infos.confirmed key)) := by
  induction keys with
  | nil => rfl
  | cons key keys ih =>
    obtain ⟨info, hinfo⟩ := links_ne_none_iff.mp (h key mem_cons_self)
    have hconfirmed : fc.infos.confirmed key = info.isDuplicateConfirmed :=
      Infos.confirmed_of_eq hinfo
    rw [unconfirmedAmong, getInfo_of_get? hinfo, ok_bind,
      ih (fun k hk => h k (mem_cons_of_mem _ hk)), ok_bind, filter_cons, hconfirmed]
    cases info.isDuplicateConfirmed <;> rfl

end HeaviestSubtreeForkChoice

end Agave.ForkChoice
