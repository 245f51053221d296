/-
  Agave.Gossip.Indices

  The indices of the table are exact, after any calls.

  `Indexed crds rows` says that every index can be read off `rows`.  It has the rows as an argument
  because the table is written before or after its indices: inside `remove` the two differ.  Each
  half of a call is one step from rows to rows, and `Exact` puts the rows of the table in.
-/

import Agave.Gossip.Crds

namespace Agave.Gossip

open Lib Function List IndexMap VersionedCrdsValue

/-- What the indices depend on in a row of the table. -/
structure Row where
  ordinal : Nat
  value : CrdsValue
deriving DecidableEq

namespace Row

def isContactInfo (r : Row) : Bool := r.value.data matches .contactInfo _

def isVote (r : Row) : Bool := r.value.data matches .vote _ _

def isEpochSlots (r : Row) : Bool := r.value.data matches .epochSlots _ _

def isDuplicateShred (r : Row) : Bool := r.value.data matches .duplicateShred _ _

def isOf (pubkey : Pubkey) (r : Row) : Bool := decide (r.value.pubkey = pubkey)

def hash (r : Row) : BitVec 64 := CrdsFilter.hashAsU64 r.value.hash

end Row

def VersionedCrdsValue.row (v : VersionedCrdsValue) : Row := ⟨v.ordinal, v.value⟩

variable {label key : CrdsValueLabel} {v : CrdsValue} {e last : CrdsValueLabel × VersionedCrdsValue}

namespace Crds

def rows (crds : Crds) (i : Nat) : Option Row := (crds.table.getIndex? i).map fun e => e.2.row

/-- The records are the positions of each node's values, and no node has none. -/
structure RecordsIndexed (records : BTreeMap Pubkey (IndexSet Nat)) (rows : Nat → Option Row) :
    Prop where
  positions : ∀ pubkey, PositionSet (Row.isOf pubkey) ((records.get? pubkey).getD .empty) rows
  nonempty : ∀ pubkey positions, records.get? pubkey = some positions →
    positions.isEmpty = false

/-- Every index agrees with the rows. -/
structure Indexed (crds : Crds) (rows : Nat → Option Row) : Prop where
  entries : KeyIndex Row.ordinal (fun _ => true) crds.entries rows
  votes : KeyIndex Row.ordinal Row.isVote crds.votes rows
  epochSlots : KeyIndex Row.ordinal Row.isEpochSlots crds.epochSlots rows
  duplicateShreds : KeyIndex Row.ordinal Row.isDuplicateShred crds.duplicateShreds rows
  nodes : PositionSet Row.isContactInfo crds.nodes rows
  records : RecordsIndexed crds.records rows
  shards : crds.shards.Covers fun i => (rows i).map Row.hash

/-! ## The kinds of values -/

variable {crds crds' : Crds} {value old : VersionedCrdsValue} {index size : Nat}

/-- The index of a row's kind changed: to `nodes`, or by `step`. -/
def changeKind (crds : Crds) (r : Row) (nodes : IndexSet Nat)
    (step : BTreeMap Nat Nat → BTreeMap Nat Nat) : Crds :=
  { crds with
    nodes := if r.isContactInfo then nodes else crds.nodes
    votes := if r.isVote then step crds.votes else crds.votes
    epochSlots := if r.isEpochSlots then step crds.epochSlots else crds.epochSlots
    duplicateShreds := if r.isDuplicateShred then step crds.duplicateShreds
      else crds.duplicateShreds }

theorem insertKind_eq :
    crds.insertKind value index = crds.changeKind value.row (crds.nodes.insert index ())
      (fun kind => (kind.insert value.row.ordinal index).2) := by
  unfold insertKind changeKind Row.isContactInfo Row.isVote Row.isEpochSlots Row.isDuplicateShred
  cases hdata : value.value.data <;> simp [row, hdata]

theorem removeKind_eq :
    crds.removeKind value index = crds.changeKind value.row (crds.nodes.swapRemoveFull index).2
      (fun kind => (kind.remove value.row.ordinal).2) := by
  unfold removeKind changeKind Row.isContactInfo Row.isVote Row.isEpochSlots Row.isDuplicateShred
  cases hdata : value.value.data <;> simp [row, hdata]

theorem moveKind_eq :
    crds.moveKind value size index =
      crds.changeKind value.row ((crds.nodes.swapRemoveFull size).2.insert index ())
        (fun kind => (kind.insert value.row.ordinal index).2) := by
  unfold moveKind changeKind Row.isContactInfo Row.isVote Row.isEpochSlots Row.isDuplicateShred
  cases hdata : value.value.data <;> simp [row, hdata]

theorem replaceKind_eq :
    crds.replaceKind old value index = crds.changeKind value.row crds.nodes
      (fun kind => ((kind.remove old.row.ordinal).2.insert value.row.ordinal index).2) := by
  unfold replaceKind changeKind Row.isContactInfo Row.isVote Row.isEpochSlots Row.isDuplicateShred
  cases hdata : value.value.data <;> simp [row, hdata]

/-! ## The records of the nodes -/

variable {records : BTreeMap Pubkey (IndexSet Nat)} {rows : Nat → Option Row} {r : Row}
  {pubkey : Pubkey} {i : Nat}

theorem RecordsIndexed.get?_of_row (h : RecordsIndexed records rows) (hrow : rows index = some r) :
    ∃ positions, records.get? r.value.pubkey = some positions ∧
      PositionSet (Row.isOf r.value.pubkey) positions rows := by
  have hpositions := h.positions r.value.pubkey
  have hmem := (hpositions index).mpr ⟨r, hrow, decide_eq_true rfl⟩
  cases hget : records.get? r.value.pubkey with
  | none =>
    rw [hget] at hmem
    cases hmem
  | some positions =>
    rw [hget] at hpositions
    exact ⟨positions, rfl, hpositions⟩

theorem isOf_eq_true_iff : Row.isOf pubkey r = true ↔ r.value.pubkey = pubkey :=
  decide_eq_true_iff

theorem not_isOf_of_ne (hpubkey : pubkey ≠ r.value.pubkey) : ¬ Row.isOf pubkey r = true :=
  fun hof => hpubkey (isOf_eq_true_iff.mp hof).symm

theorem RecordsIndexed.insert {rows' : Nat → Option Row} {positions : IndexSet Nat}
    (h : RecordsIndexed records rows)
    (hset : PositionSet (Row.isOf r.value.pubkey) positions rows') (hne : positions.isEmpty = false)
    (hother : ∀ pubkey, ¬ Row.isOf pubkey r = true →
      PositionSet (Row.isOf pubkey) ((records.get? pubkey).getD .empty) rows') :
    RecordsIndexed (records.insert r.value.pubkey positions).2 rows' := by
  constructor
  · intro pubkey
    rw [BTreeMap.get?_insert]
    by_cases hpubkey : pubkey = r.value.pubkey
    · rw [if_pos hpubkey, hpubkey]
      exact hset
    · rw [if_neg hpubkey]
      exact hother pubkey (not_isOf_of_ne hpubkey)
  · intro pubkey positions' hget
    rw [BTreeMap.get?_insert] at hget
    split at hget
    · cases hget
      exact hne
    · exact h.nonempty pubkey positions' hget

theorem RecordsIndexed.put (h : RecordsIndexed records rows) (hfree : rows index = none) :
    RecordsIndexed (records.insert r.value.pubkey
        (((records.get? r.value.pubkey).getD .empty).insert index ())).2
      (update rows index (some r)) := by
  have hput := fun pubkey => (h.positions pubkey).put hfree (r := r)
  refine h.insert ?_ (isEmpty_eq_false_of_get? (k := index) (by rw [get?_insert, if_pos rfl])) ?_
  · have hself := hput r.value.pubkey
    rwa [if_pos (isOf_eq_true_iff.mpr rfl)] at hself
  · intro pubkey hof
    have hother := hput pubkey
    rwa [if_neg hof] at hother

theorem removeRecord_returns (h : RecordsIndexed records rows) (hrow : rows index = some r) :
    ∃ records', removeRecord records r.value.pubkey index = .ok records' ∧
      RecordsIndexed records' (update rows index none) := by
  obtain ⟨positions, hget, hpositions⟩ := h.get?_of_row hrow
  have herased := hpositions.erase hrow
  rw [if_pos (isOf_eq_true_iff.mpr rfl)] at herased
  -- the sets of the other nodes do not hold the position
  have hother : ∀ pubkey, ¬ Row.isOf pubkey r = true →
      PositionSet (Row.isOf pubkey) ((records.get? pubkey).getD .empty)
        (update rows index none) := by
    intro pubkey hof
    have h' := (h.positions pubkey).erase hrow
    rwa [if_neg hof] at h'
  rw [removeRecord, hget]
  by_cases hempty : (positions.swapRemoveFull index).2.isEmpty = true
  · refine ⟨_, if_pos hempty, ?_, ?_⟩
    · intro pubkey
      rw [BTreeMap.get?_remove]
      by_cases hpubkey : pubkey = r.value.pubkey
      · rw [if_pos hpubkey, hpubkey]
        intro i
        rw [← herased i, get?_of_isEmpty hempty i]
        rfl
      · rw [if_neg hpubkey]
        exact hother pubkey (not_isOf_of_ne hpubkey)
    · intro pubkey positions' hget'
      rw [BTreeMap.get?_remove] at hget'
      split at hget'
      · cases hget'
      · exact h.nonempty pubkey positions' hget'
  · exact ⟨_, if_neg hempty, h.insert herased (eq_false_of_ne_true hempty) hother⟩

theorem update_none_of_free (size : Nat) (hfree : rows index = none) :
    update rows size none index = none := by
  rw [update_apply]
  split
  · rfl
  · exact hfree

theorem moveRecord_returns (h : RecordsIndexed records rows) (hrow : rows size = some r)
    (hfree : rows index = none) :
    ∃ records', moveRecord records r.value.pubkey size index = .ok records' ∧
      RecordsIndexed records'
        (update (update rows size none) index (some r)) := by
  obtain ⟨positions, hget, hpositions⟩ := h.get?_of_row hrow
  have hfree' := update_none_of_free size hfree
  refine ⟨_, by rw [moveRecord, hget], h.insert ?_
    (isEmpty_eq_false_of_get? (k := index) (by rw [get?_insert, if_pos rfl])) ?_⟩
  · have hof : Row.isOf r.value.pubkey r = true := isOf_eq_true_iff.mpr rfl
    have hmoved := (hpositions.erase hrow).put hfree' (r := r)
    rwa [if_pos hof, if_pos hof] at hmoved
  · intro pubkey hof
    have hmoved := ((h.positions pubkey).erase hrow).put hfree' (r := r)
    rwa [if_neg hof, if_neg hof] at hmoved

/-! ## One write to the rows -/

theorem crdsShardsBits_le : crdsShardsBits ≤ 64 := by decide

theorem map_update (rows : Nat → Option Row) (index : Nat) (row : Option Row) :
    (fun i => (update rows index row i).map Row.hash) =
      update (fun i => (rows i).map Row.hash) index (row.map Row.hash) := by
  funext i
  rw [update_apply, update_apply]
  split <;> rfl

theorem hash_of_row (hrow : rows index = some value.row) :
    (rows index).map Row.hash = some (CrdsFilter.hashAsU64 value.value.hash) := by
  rw [hrow]
  rfl

/-- What a call leaves alone besides the indices. -/
structure SameTable (crds crds' : Crds) : Prop where
  table : crds'.table = crds.table
  cursor : crds'.cursor = crds.cursor
  purged : crds'.purged = crds.purged

section

variable (h : crds.Indexed rows) (hd : DistinctKeys Row.ordinal rows)
include h hd

/-- A value leaves its position. -/
theorem unindex_returns (hrow : rows index = some value.row) :
    ∃ crds', crds.unindex value index = .ok crds' ∧ SameTable crds crds' ∧
      crds'.Indexed (update rows index none) := by
  obtain ⟨shards, hshards, hcovers⟩ :=
    CrdsShards.remove_returns crdsShardsBits_le h.shards (hash_of_row hrow)
  obtain ⟨records', hrecords, hindexed⟩ := removeRecord_returns h.records hrow
  have hrecords : removeRecord crds.records value.value.pubkey index = .ok records' := hrecords
  simp only [unindex, hshards, ok_bind, removeKind_eq, changeKind, hrecords]
  refine ⟨_, rfl, ⟨rfl, rfl, rfl⟩, ?_⟩
  constructor
  · exact h.entries.erase hd hrow
  · exact h.votes.erase hd hrow
  · exact h.epochSlots.erase hd hrow
  · exact h.duplicateShreds.erase hd hrow
  · exact h.nodes.erase hrow
  · exact hindexed
  · rw [map_update]
    exact hcovers

theorem reindex_returns (hrow : rows size = some value.row) (hfree : rows index = none) :
    ∃ crds', crds.reindex value size index = .ok crds' ∧ SameTable crds crds' ∧
      crds'.Indexed (update (update rows size none) index (some value.row)) := by
  have hfree' := update_none_of_free size hfree
  obtain ⟨shards, hshards, hcovers⟩ :=
    CrdsShards.remove_returns crdsShardsBits_le h.shards (hash_of_row hrow)
  have hcovers : shards.Covers fun i => (update rows size none i).map Row.hash := by
    rw [map_update]
    exact hcovers
  obtain ⟨shards', hshards', hcovers'⟩ :=
    CrdsShards.insert_returns crdsShardsBits_le hcovers
      (show (update rows size none index).map Row.hash = none by rw [hfree']; rfl)
      value.value
  obtain ⟨records', hrecords, hindexed⟩ := moveRecord_returns h.records hrow hfree
  have hrecords : moveRecord crds.records value.value.pubkey size index = .ok records' := hrecords
  simp only [reindex, hshards, ok_bind, hshards', moveKind_eq, changeKind, hrecords]
  refine ⟨_, rfl, ⟨rfl, rfl, rfl⟩, ?_⟩
  constructor
  · exact h.entries.move hd hrow hfree
  · exact h.votes.move hd hrow hfree
  · exact h.epochSlots.move hd hrow hfree
  · exact h.duplicateShreds.move hd hrow hfree
  · have hmoved := (h.nodes.erase hrow).put hfree' (r := value.row)
    by_cases hnode : value.row.isContactInfo = true
    · simp only [if_pos hnode] at hmoved ⊢
      exact hmoved
    · simp only [if_neg hnode] at hmoved ⊢
      exact hmoved
  · exact hindexed
  · rw [map_update]
    exact hcovers'

end

theorem indexed_insertVacant (h : crds.Indexed rows) (hfree : rows crds.table.len = none)
    (hnew : ∀ j r', rows j = some r' → r'.ordinal ≠ value.row.ordinal) :
    ∃ crds', crds.insertVacant value = .ok crds' ∧
      crds'.Indexed (update rows crds.table.len (some value.row)) ∧
      crds'.table = crds.table.insert value.value.label value ∧
      crds'.cursor = consume crds.cursor value.ordinal ∧ crds'.purged = crds.purged := by
  obtain ⟨shards, hshards, hcovers⟩ :=
    CrdsShards.insert_returns crdsShardsBits_le h.shards
      (show (rows crds.table.len).map Row.hash = none by rw [hfree]; rfl) value.value
  simp only [insertVacant, hshards, ok_bind, insertKind_eq, changeKind]
  refine ⟨_, rfl, ?_, rfl, rfl, rfl⟩
  constructor
  · exact h.entries.put hfree hnew
  · exact h.votes.put hfree hnew
  · exact h.epochSlots.put hfree hnew
  · exact h.duplicateShreds.put hfree hnew
  · exact h.nodes.put hfree
  · exact h.records.put hfree (r := value.row)
  · rw [map_update]
    exact hcovers

/-- Two rows of one label are indexed by kind in the same way. -/
structure SameKind (r r' : Row) : Prop where
  isVote : r.isVote = r'.isVote
  isEpochSlots : r.isEpochSlots = r'.isEpochSlots
  isDuplicateShred : r.isDuplicateShred = r'.isDuplicateShred
  isContactInfo : r.isContactInfo = r'.isContactInfo
  pubkey : r.value.pubkey = r'.value.pubkey

theorem sameKind_of_label_eq {r' : Row} (h : r.value.label = r'.value.label) : SameKind r r' := by
  have hpubkey := CrdsValue.label_pubkey_inj h
  unfold CrdsValue.label at h
  constructor
  · unfold Row.isVote
    cases hv : r.value.data <;> cases ho : r'.value.data <;> simp_all
  · unfold Row.isEpochSlots
    cases hv : r.value.data <;> cases ho : r'.value.data <;> simp_all
  · unfold Row.isDuplicateShred
    cases hv : r.value.data <;> cases ho : r'.value.data <;> simp_all
  · unfold Row.isContactInfo
    cases hv : r.value.data <;> cases ho : r'.value.data <;> simp_all
  · exact hpubkey

/-- A value takes the position of an older one of its label. -/
theorem indexed_insertOverride (h : crds.Indexed rows) (hd : DistinctKeys Row.ordinal rows)
    (hrow : rows index = some old.row) (hlabel : old.value.label = value.value.label)
    (hnew : ∀ j r', rows j = some r' → r'.ordinal ≠ value.row.ordinal) (now : Nat) :
    ∃ crds', crds.insertOverride value now index old = .ok crds' ∧
      crds'.Indexed (update rows index (some value.row)) ∧
      crds'.table = crds.table.insert value.value.label value ∧
      crds'.cursor = consume crds.cursor value.ordinal ∧
      crds'.purged = crds.purged ++ [(old.value.hash, now)] := by
  have hsame : SameKind old.row value.row := sameKind_of_label_eq hlabel
  obtain ⟨shards, hshards, hcovers⟩ :=
    CrdsShards.remove_returns crdsShardsBits_le h.shards (hash_of_row hrow)
  have hfree : update (fun i => (rows i).map Row.hash) index none index = none :=
    update_self _ _ _
  obtain ⟨shards', hshards', hcovers'⟩ :=
    CrdsShards.insert_returns crdsShardsBits_le hcovers hfree value.value
  rw [update_idem] at hcovers'
  simp only [insertOverride, hshards, hshards', ok_bind, replaceKind_eq, changeKind, ite_self]
  refine ⟨_, rfl, ?_, rfl, rfl, rfl⟩
  constructor
  · exact h.entries.replace hd hrow rfl hnew
  · exact h.votes.replace hd hrow hsame.isVote hnew
  · exact h.epochSlots.replace hd hrow hsame.isEpochSlots hnew
  · exact h.duplicateShreds.replace hd hrow hsame.isDuplicateShred hnew
  · exact h.nodes.replace hrow hsame.isContactInfo
  · constructor
    · intro pubkey
      refine (h.records.positions pubkey).replace hrow ?_
      rw [Row.isOf, Row.isOf, hsame.pubkey]
    · exact h.records.nonempty
  · rw [map_update]
    exact hcovers'

/-! ## The rows of the table -/

theorem rows_eq_some_iff :
    crds.rows i = some r ↔ ∃ label v, crds.table.getIndex? i = some (label, v) ∧ v.row = r := by
  rw [rows, Option.map_eq_some_iff]
  constructor
  · rintro ⟨⟨label, v⟩, hv, hr⟩
    exact ⟨label, v, hv, hr⟩
  · rintro ⟨label, v, hv, hr⟩
    exact ⟨(label, v), hv, hr⟩

theorem rows_of_len_le (h : crds.table.len ≤ i) : crds.rows i = none := by
  have hend : crds.table.getIndex? i = none := getElem?_eq_none h
  rw [rows, hend]
  rfl

theorem rows_insert_of_none (htable : crds'.table = crds.table.insert label value)
    (hnone : crds.table.getIndexOf? label = none) :
    crds'.rows = update crds.rows crds.table.len (some value.row) := by
  funext i
  rw [rows, htable, getIndex?_insert_of_none hnone, update_apply]
  split <;> rfl

theorem rows_insert_of_some (htable : crds'.table = crds.table.insert label value)
    (hsome : crds.table.getIndexOf? label = some index) :
    crds'.rows = update crds.rows index (some value.row) := by
  funext i
  rw [rows, htable, getIndex?_insert_of_some hsome, update_apply]
  split <;> rfl

section

variable (htable : crds'.table = crds.table.swapRemoveIndex index)
  (he : crds.table.getIndex? index = some e)
include htable he

theorem rows_swapRemove_last (hlast : crds.table.len - 1 ≤ index) :
    crds'.rows = update crds.rows index none := by
  have hlt := getIndex?_lt he
  funext i
  rw [rows, htable, getIndex?_swapRemoveIndex he, update_apply]
  by_cases hi : i = index
  · rw [if_neg (by omega), if_pos hi]
    rfl
  · rw [if_neg hi]
    by_cases hend : i < crds.table.len - 1
    · rw [if_pos hend, if_neg hi]
      rfl
    · rw [if_neg hend, if_neg hi, rows_of_len_le (by omega)]
      rfl

theorem rows_swapRemove_moved (hlast : crds.table.getIndex? (crds.table.len - 1) = some last)
    (hlt : index < crds.table.len - 1) :
    crds'.rows = update (update (update crds.rows index none)
      (crds.table.len - 1) none) index (some last.2.row) := by
  funext i
  rw [rows, htable, getIndex?_swapRemoveIndex he, update_apply]
  by_cases hi : i = index
  · rw [if_pos (by omega), if_pos hi, if_pos hi, hlast]
    rfl
  · rw [if_neg hi, update_apply, update_apply, if_neg hi, if_neg hi]
    by_cases hsize : i = crds.table.len - 1
    · rw [if_neg (by omega), if_pos hsize]
      rfl
    · rw [if_neg hsize]
      by_cases hend : i < crds.table.len - 1
      · rw [if_pos hend]
        rfl
      · rw [if_neg hend, rows_of_len_le (by omega)]
        rfl

end

/-! ## Exactness -/

/-- The table and its indices agree. -/
structure Exact (crds : Crds) : Prop where
  labels : ∀ i label v, crds.table.getIndex? i = some (label, v) → v.value.label = label
  below : ∀ i r, crds.rows i = some r → r.ordinal < crds.cursor
  distinct : DistinctKeys Row.ordinal crds.rows
  indexed : crds.Indexed crds.rows

theorem rows_default (i : Nat) : default.rows i = none := rfl

theorem exact_default : default.Exact := by
  have hrows : default.rows = fun _ => none := funext rows_default
  constructor
  · intro i label v h
    cases h
  · intro i r h
    cases h
  · intro i j r r' h
    cases h
  · rw [hrows]
    constructor
    · exact .empty
    · exact .empty
    · exact .empty
    · exact .empty
    · exact .empty
    · constructor
      · exact fun pubkey => .empty
      · intro pubkey positions h
        cases h
    · exact CrdsShards.covers_new

/-- The value stored under a label. -/
def stored (crds : Crds) (label : CrdsValueLabel) : Option CrdsValue :=
  (crds.table.get? label).map VersionedCrdsValue.value

theorem Exact.ordinal_ne (h : crds.Exact) (hvalue : value.ordinal = crds.cursor) (i : Nat)
    (r : Row) (hr : crds.rows i = some r) : r.ordinal ≠ value.row.ordinal := by
  have hlt : r.ordinal < value.ordinal := by
    rw [hvalue]
    exact h.below i r hr
  exact Nat.ne_of_lt hlt

theorem consume_self (cursor : Nat) : consume cursor cursor = cursor + 1 :=
  Nat.max_eq_right (Nat.le_succ cursor)

theorem below_put (hbelow : ∀ i r, rows i = some r → r.ordinal < crds.cursor)
    (hvalue : value.ordinal = crds.cursor) (i : Nat) (r : Row)
    (hr : update rows index (some value.row) i = some r) :
    r.ordinal < consume crds.cursor value.ordinal := by
  rw [hvalue, consume_self]
  rcases update_some_eq_some.mp hr with ⟨-, rfl⟩ | ⟨-, hr⟩
  · exact Nat.lt_succ_of_le (Nat.le_of_eq hvalue)
  · exact Nat.lt_succ_of_lt (hbelow i r hr)

theorem labels_insert (hlabels : ∀ i label v, crds.table.getIndex? i = some (label, v) →
      v.value.label = label) (i : Nat) (label : CrdsValueLabel) (v : VersionedCrdsValue)
    (hv : (crds.table.insert value.value.label value).getIndex? i = some (label, v)) :
    v.value.label = label := by
  have hget := get?_eq_some_iff.mpr ⟨i, hv⟩
  rw [get?_insert] at hget
  split at hget
  · rename_i hlabel
    cases hget
    exact hlabel.symm
  · obtain ⟨j, hj⟩ := get?_eq_some_iff.mp hget
    exact hlabels j label v hj

section

variable (h : crds.Exact) (hvalue : value.ordinal = crds.cursor)
include h hvalue

/-- A value with the next ordinal is written to a row, old or new. -/
theorem exact_of_put (htable : crds'.table = crds.table.insert value.value.label value)
    (hcursor : crds'.cursor = consume crds.cursor value.ordinal)
    (hrows : crds'.rows = update crds.rows index (some value.row))
    (hindexed : crds'.Indexed (update crds.rows index (some value.row))) : crds'.Exact := by
  constructor
  · rw [htable]
    exact labels_insert h.labels
  · rw [hrows, hcursor]
    exact below_put h.below hvalue
  · rw [hrows]
    exact h.distinct.put (h.ordinal_ne hvalue)
  · rw [hrows]
    exact hindexed

theorem exact_insertVacant (hnone : crds.table.getIndexOf? value.value.label = none) :
    ∃ crds', crds.insertVacant value = .ok crds' ∧ crds'.Exact ∧
      crds'.table = crds.table.insert value.value.label value ∧ crds'.purged = crds.purged := by
  have hnew := h.ordinal_ne hvalue
  obtain ⟨crds', hrun, hindexed, htable, hcursor, hpurged⟩ :=
    indexed_insertVacant h.indexed (rows_of_len_le (Nat.le_refl _)) hnew
  have hrows := rows_insert_of_none htable hnone
  exact ⟨crds', hrun, exact_of_put h hvalue htable hcursor hrows hindexed, htable, hpurged⟩

theorem exact_insertOverride
    (hold : crds.table.getIndex? index = some (value.value.label, old)) (now : Nat) :
    ∃ crds', crds.insertOverride value now index old = .ok crds' ∧ crds'.Exact ∧
      crds'.table = crds.table.insert value.value.label value ∧
      crds'.purged = crds.purged ++ [(old.value.hash, now)] := by
  have hnew := h.ordinal_ne hvalue
  have hrow : crds.rows index = some old.row := rows_eq_some_iff.mpr ⟨_, old, hold, rfl⟩
  obtain ⟨crds', hrun, hindexed, htable, hcursor, hpurged⟩ :=
    indexed_insertOverride h.indexed h.distinct hrow (h.labels index _ old hold) hnew now
  have hrows := rows_insert_of_some htable (getIndexOf?_eq_some_iff.mpr ⟨old, hold⟩)
  exact ⟨crds', hrun, exact_of_put h hvalue htable hcursor hrows hindexed, htable, hpurged⟩

end

/-- A row with its label. -/
def labelledRows (crds : Crds) (i : Nat) : Option (CrdsValueLabel × Row) :=
  (crds.table.getIndex? i).map fun e => (e.1, e.2.row)

theorem rows_eq_labelledRows (crds : Crds) (i : Nat) :
    crds.rows i = (crds.labelledRows i).map Prod.snd := by
  rw [labelledRows, Option.map_map]
  rfl

theorem stored_eq_some_iff :
    crds.stored label = some v ↔ ∃ i ordinal, crds.labelledRows i = some (label, ⟨ordinal, v⟩) := by
  simp only [stored, labelledRows, Option.map_eq_some_iff, get?_eq_some_iff]
  constructor
  · rintro ⟨w, ⟨i, hi⟩, rfl⟩
    exact ⟨i, w.ordinal, (label, w), hi, rfl⟩
  · rintro ⟨i, ordinal, ⟨label', w⟩, hi, heq⟩
    cases heq
    exact ⟨w, ⟨i, hi⟩, rfl⟩

/-- Only local metadata of the values differs, which no index depends on. -/
structure SameRows (crds crds' : Crds) : Prop where
  labelledRows : crds'.labelledRows = crds.labelledRows
  indices : ∀ rows, crds.Indexed rows → crds'.Indexed rows
  cursor : crds'.cursor = crds.cursor
  purged : crds'.purged = crds.purged

theorem SameRows.rows_eq (h : SameRows crds crds') : crds'.rows = crds.rows := by
  funext i
  rw [rows_eq_labelledRows, rows_eq_labelledRows, h.labelledRows]

theorem SameRows.stored (h : SameRows crds crds') : crds'.stored = crds.stored := by
  funext label
  apply Option.ext
  intro v
  rw [stored_eq_some_iff, stored_eq_some_iff, h.labelledRows]

theorem SameRows.exact (hsame : SameRows crds crds') (h : crds.Exact) : crds'.Exact := by
  constructor
  · intro i label v' hv'
    have hrow : crds'.labelledRows i = some (label, v'.row) := by
      rw [Crds.labelledRows, hv']
      rfl
    rw [hsame.labelledRows] at hrow
    obtain ⟨⟨label', v⟩, hv, heq⟩ := Option.map_eq_some_iff.mp hrow
    have hlabel : label' = label := congrArg Prod.fst heq
    have hvalue : v.value = v'.value := congrArg (fun e => e.2.value) heq
    rw [← hvalue, ← hlabel]
    exact h.labels i label' v hv
  · rw [hsame.rows_eq, hsame.cursor]
    exact h.below
  · rw [hsame.rows_eq]
    exact h.distinct
  · rw [hsame.rows_eq]
    exact hsame.indices _ h.indexed

theorem SameRows.refl (crds : Crds) : SameRows crds crds :=
  ⟨rfl, fun _ h => h, rfl, rfl⟩

theorem SameRows.trans {crds₁ crds₂ : Crds} (h₁ : SameRows crds crds₁)
    (h₂ : SameRows crds₁ crds₂) : SameRows crds crds₂ := by
  constructor
  · rw [h₂.labelledRows, h₁.labelledRows]
  · exact fun rows h => h₂.indices rows (h₁.indices rows h)
  · rw [h₂.cursor, h₁.cursor]
  · rw [h₂.purged, h₁.purged]

theorem sameRows_modifyIndex (crds : Crds) (index : Nat)
    {f : VersionedCrdsValue → VersionedCrdsValue} (hf : ∀ v, (f v).row = v.row) :
    SameRows crds { crds with table := crds.table.modifyIndex index f } := by
  constructor
  · funext i
    simp only [labelledRows, getIndex?_modifyIndex]
    split
    · rw [Option.map_map]
      congr 1
      funext e
      exact Prod.ext rfl (hf e.2)
    · rfl
  · intro rows h
    exact ⟨h.entries, h.votes, h.epochSlots, h.duplicateShreds, h.nodes, h.records, h.shards⟩
  · rfl
  · rfl

/-! ## Insertion -/

/-- What an insertion does to the table, in terms of values. -/
structure Inserted (crds : Crds) (value : CrdsValue) (crds' : Crds) : Prop where
  /-- Under the value's label, the greater one is stored. -/
  winner : ∃ w, crds'.stored value.label = some w ∧ value.rank ≤ w.rank ∧
    (w = value ∨ crds.stored value.label = some w) ∧
    ∀ u, crds.stored value.label = some u → u.rank ≤ w.rank
  other : ∀ label, label ≠ value.label → crds'.stored label = crds.stored label
  purged_mono : ∀ e ∈ crds.purged, e ∈ crds'.purged
  /-- What is not stored in the end has been purged. -/
  accounted : ∀ v, v = value ∨ crds.stored value.label = some v →
    (∃ w, crds'.stored value.label = some w ∧ w.hash = v.hash) ∨ ∃ ts, (v.hash, ts) ∈ crds'.purged

theorem stored_of_table_insert (htable : crds'.table = crds.table.insert label value)
    (label' : CrdsValueLabel) :
    crds'.stored label' = if label' = label then some value.value else crds.stored label' := by
  rw [stored, htable, get?_insert]
  split <;> rfl

theorem stored_of_getIndex? {v : VersionedCrdsValue}
    (h : crds.table.getIndex? i = some (label, v)) : crds.stored label = some v.value := by
  rw [stored, get?_eq_some_iff.mpr ⟨i, h⟩]
  rfl

/-- The value is stored, and the one it replaces, if any, ranks below it and has been purged. -/
theorem inserted_of_put (hvalue : value.value = v)
    (htable : crds'.table = crds.table.insert v.label value)
    (hmono : ∀ e ∈ crds.purged, e ∈ crds'.purged)
    (hold : ∀ u, crds.stored v.label = some u →
      u.rank ≤ v.rank ∧ ∃ ts, (u.hash, ts) ∈ crds'.purged) : Inserted crds v crds' := by
  have hstored := stored_of_table_insert htable
  have hself : crds'.stored v.label = some v := by
    rw [hstored, if_pos rfl, hvalue]
  constructor
  · exact ⟨v, hself, le_rfl, .inl rfl, fun u hu => (hold u hu).1⟩
  · intro label hlabel
    rw [hstored, if_neg hlabel]
  · exact hmono
  · rintro u (rfl | hu)
    · exact .inl ⟨u, hself, rfl⟩
    · exact .inr (hold u hu).2

/-- A value that does not override leaves the stored ones. -/
theorem insertFail_spec (h : crds.Exact) (hvalue : value.value = v)
    (hold : crds.table.getIndex? index = some (v.label, old)) (hrank : ¬ old.value.rank < v.rank)
    (now : Nat) (route : GossipRoute) :
    (crds.insertFail value now route index old).2.Exact ∧
      Inserted crds v (crds.insertFail value now route index old).2 := by
  have hstored : crds.stored v.label = some old.value := stored_of_getIndex? hold
  have hle : v.rank ≤ old.value.rank := le_of_not_gt hrank
  -- what follows when the same values are stored as before
  have hkeep : ∀ crds' : Crds, crds'.stored = crds.stored →
      (∀ e ∈ crds.purged, e ∈ crds'.purged) →
      (old.value.hash = v.hash ∨ ∃ ts, (v.hash, ts) ∈ crds'.purged) → Inserted crds v crds' := by
    intro crds' hsame hmono hv
    constructor
    · refine ⟨old.value, by rw [hsame, hstored], hle, .inr hstored, ?_⟩
      intro u hu
      rw [hstored] at hu
      cases hu
      exact le_rfl
    · exact fun label _ => congrFun hsame label
    · exact hmono
    · rintro u (rfl | hu)
      · rcases hv with hhash | hpurged
        · exact .inl ⟨old.value, by rw [hsame, hstored], hhash⟩
        · exact .inr hpurged
      · exact .inl ⟨u, by rw [hsame, hu], rfl⟩
  unfold insertFail
  split
  · -- outdated
    refine ⟨⟨h.labels, h.below, h.distinct, ?_⟩, hkeep _ rfl ?_ (.inr ⟨now, ?_⟩)⟩
    · exact { h.indexed with }
    · exact fun e he => mem_append_left _ he
    · rw [hvalue]
      exact mem_append_right _ (mem_singleton.mpr rfl)
  · -- a duplicate
    rename_i hhash
    have hhash : old.value.hash = v.hash := by
      rw [← hvalue]
      exact not_not.mp hhash
    split
    · have hsame := sameRows_modifyIndex crds index
        (f := fun entry => { entry with numPushRecv := some (min (old.numPushRecv.getD 0 + 1) 255) })
        (fun _ => rfl)
      exact ⟨hsame.exact h, hkeep _ hsame.stored (fun e he => he) (.inl hhash)⟩
    · exact ⟨h, hkeep crds rfl (fun e he => he) (.inl hhash)⟩

theorem insert_returns (h : crds.Exact) (v : CrdsValue) (now : Nat) (route : GossipRoute) :
    ∃ result crds', crds.insert v now route = .ok (result, crds') ∧ crds'.Exact ∧
      Inserted crds v crds' := by
  have hordinal : (new v crds.cursor now route).ordinal = crds.cursor := rfl
  have hvalue : (new v crds.cursor now route).value = v := rfl
  unfold insert
  cases hfull : crds.table.getFull? v.label with
  | none =>
    have hget : crds.table.get? v.label = none := by rw [get?, hfull]; rfl
    have hnone : crds.table.getIndexOf? v.label = none := by
      cases hidx : crds.table.getIndexOf? v.label with
      | none => rfl
      | some i =>
        obtain ⟨w, hw⟩ := getIndexOf?_eq_some_iff.mp hidx
        rw [getFull?_eq_some_iff.mpr hw] at hfull
        cases hfull
    obtain ⟨crds', hrun, hexact, htable, hpurged⟩ :=
      exact_insertVacant h hordinal hnone
    simp only [hrun, ok_bind]
    refine ⟨_, crds', rfl, hexact, inserted_of_put rfl htable (fun e he => hpurged ▸ he) ?_⟩
    intro u hu
    rw [stored, hget] at hu
    cases hu
  | some e =>
    obtain ⟨index, old⟩ := e
    have hold := getFull?_eq_some_iff.mp hfull
    have hlabel : v.label = old.value.label := (h.labels index _ old hold).symm
    simp only [overrides_of_label_eq hlabel, ok_bind]
    by_cases hrank : old.value.rank < v.rank
    · obtain ⟨crds', hrun, hexact, htable, hpurged⟩ :=
        exact_insertOverride h hordinal hold now
      simp only [decide_eq_true hrank, if_true, hrun, ok_bind]
      refine ⟨_, crds', rfl, hexact, inserted_of_put rfl htable ?_ ?_⟩
      · intro e he
        rw [hpurged]
        exact mem_append_left _ he
      · intro u hu
        rw [stored_of_getIndex? hold] at hu
        cases hu
        rw [hpurged]
        exact ⟨le_of_lt hrank, now, mem_append_right _ (mem_singleton.mpr rfl)⟩
    · obtain ⟨hexact, hinserted⟩ :=
        insertFail_spec h hvalue hold hrank now route
      simp only [decide_eq_false hrank, Bool.false_eq_true, if_false]
      exact ⟨_, _, rfl, hexact, hinserted⟩

/-! ## Removal -/

/-- What a removal does to the table, in terms of values. -/
structure Removed (crds : Crds) (key : CrdsValueLabel) (crds' : Crds) : Prop where
  stored : ∀ label, crds'.stored label = if label = key then none else crds.stored label
  purged_mono : ∀ e ∈ crds.purged, e ∈ crds'.purged
  accounted : ∀ v, crds.stored key = some v → ∃ ts, (v.hash, ts) ∈ crds'.purged

theorem labels_swapRemove (h : crds.Exact) (hindex : crds.table.getIndex? index = some (key, value))
    (i : Nat) (label : CrdsValueLabel) (v : VersionedCrdsValue)
    (hv : (crds.table.swapRemoveIndex index).getIndex? i = some (label, v)) :
    v.value.label = label := by
  have hswap := swapRemoveFull_of_getIndex? hindex
  have hget : (crds.table.swapRemoveFull key).2.get? label = some v := by
    rw [hswap]
    exact get?_eq_some_iff.mpr ⟨i, hv⟩
  rw [get?_swapRemoveFull] at hget
  split at hget
  · cases hget
  · obtain ⟨j, hj⟩ := get?_eq_some_iff.mp hget
    exact h.labels j label v hj

theorem removed_of_table {now : Nat} (hget : crds.table.get? key = some value)
    (htable : crds'.table = (crds.table.swapRemoveFull key).2)
    (hpurged : crds'.purged = crds.purged ++ [(value.value.hash, now)]) :
    Removed crds key crds' := by
  constructor
  · intro label
    rw [stored, htable, get?_swapRemoveFull]
    split <;> rfl
  · intro e he
    rw [hpurged]
    exact mem_append_left _ he
  · intro v hv
    rw [stored, hget] at hv
    cases hv
    refine ⟨now, ?_⟩
    rw [hpurged]
    exact mem_append_right _ (mem_singleton.mpr rfl)

theorem removed_of_none (hget : crds.table.get? key = none) : Removed crds key crds := by
  have hnone : crds.stored key = none := by
    rw [stored, hget]
    rfl
  refine ⟨?_, fun e he => he, ?_⟩
  · intro label
    split
    · rename_i hlabel
      rw [hlabel, hnone]
    · rfl
  · intro v hv
    rw [hnone] at hv
    cases hv

section

variable (h : crds.Exact) (hindex : crds.table.getIndex? index = some (key, value))
include h hindex

/-- The removed value was the last one, and no other has moved. -/
theorem exact_of_last
    (hlast : crds.table.len - 1 ≤ index) (htable : crds'.table = crds.table.swapRemoveIndex index)
    (hcursor : crds'.cursor = crds.cursor)
    (hindexed : crds'.Indexed (update crds.rows index none)) : crds'.Exact := by
  have hrows := rows_swapRemove_last htable hindex hlast
  constructor
  · rw [htable]
    exact labels_swapRemove h hindex
  · rw [hrows, hcursor]
    exact fun i r hr => h.below i r (update_none_eq_some.mp hr).2
  · rw [hrows]
    exact h.distinct.erase index
  · rw [hrows]
    exact hindexed

/-- The last value fills the hole, with the ordinal it had. -/
theorem exact_of_moved (hlast : crds.table.getIndex? (crds.table.len - 1) = some last)
    (hmove : index < crds.table.len - 1) (htable : crds'.table = crds.table.swapRemoveIndex index)
    (hcursor : crds'.cursor = crds.cursor) (hindexed : crds'.Indexed (update (update
      (update crds.rows index none) (crds.table.len - 1) none) index
      (some last.2.row))) : crds'.Exact := by
  have hrows := rows_swapRemove_moved htable hindex hlast hmove
  have hlastRow : crds.rows (crds.table.len - 1) = some last.2.row :=
    rows_eq_some_iff.mpr ⟨last.1, last.2, hlast, rfl⟩
  constructor
  · rw [htable]
    exact labels_swapRemove h hindex
  · rw [hrows, hcursor]
    intro i r hr
    rcases update_some_eq_some.mp hr with ⟨-, rfl⟩ | ⟨-, hr⟩
    · exact h.below _ _ hlastRow
    · exact h.below i r (update_none_eq_some.mp (update_none_eq_some.mp hr).2).2
  · rw [hrows]
    apply ((h.distinct.erase index).erase _).put
    intro j r' hr' hordinal
    obtain ⟨hne, hr'⟩ := update_none_eq_some.mp hr'
    exact hne (h.distinct (update_none_eq_some.mp hr').2 hlastRow hordinal)
  · rw [hrows]
    exact hindexed

end

/-- Neither panic of `remove` is reached. -/
theorem remove_returns (h : crds.Exact) (key : CrdsValueLabel) (now : Nat) :
    ∃ crds', crds.remove key now = .ok crds' ∧ crds'.Exact ∧ Removed crds key crds' := by
  unfold remove
  cases hget : crds.table.get? key with
  | none =>
    rw [swapRemoveFull_of_none hget]
    exact ⟨crds, rfl, h, removed_of_none hget⟩
  | some value =>
    obtain ⟨index, hindex⟩ := get?_eq_some_iff.mp hget
    have hswap := swapRemoveFull_of_getIndex? hindex
    have hrow : crds.rows index = some value.row := rows_eq_some_iff.mpr ⟨key, value, hindex, rfl⟩
    have hlt := getIndex?_lt hindex
    -- the table is written first, and the indices still describe the old rows
    have hindexed : Indexed { crds with
        table := crds.table.swapRemoveIndex index
        purged := crds.purged ++ [(value.value.hash, now)] } crds.rows := by
      exact { h.indexed with }
    obtain ⟨crds₁, hrun₁, hsame₁, hindexed₁⟩ := unindex_returns hindexed h.distinct hrow
    have htable₁ : crds₁.table = crds.table.swapRemoveIndex index := hsame₁.table
    have hcursor₁ : crds₁.cursor = crds.cursor := hsame₁.cursor
    have hpurged₁ : crds₁.purged = crds.purged ++ [(value.value.hash, now)] := hsame₁.purged
    simp only [hswap, hrun₁, ok_bind, htable₁, len_swapRemoveIndex hindex]
    by_cases hmove : index < crds.table.len - 1
    · obtain ⟨last, hlast⟩ : ∃ last, crds.table.getIndex? (crds.table.len - 1) = some last :=
        ⟨_, getElem?_eq_getElem (show crds.table.len - 1 < crds.table.len by omega)⟩
      have hfilled : (crds.table.swapRemoveIndex index).getIndex? index = some last := by
        rw [getIndex?_swapRemoveIndex hindex, if_pos hmove, if_pos rfl, hlast]
      have hlastRow : update crds.rows index none (crds.table.len - 1) =
          some last.2.row := by
        rw [update_of_ne (by omega)]
        exact rows_eq_some_iff.mpr ⟨last.1, last.2, hlast, rfl⟩
      obtain ⟨crds₂, hrun₂, hsame₂, hindexed₂⟩ :=
        reindex_returns hindexed₁ (h.distinct.erase index) hlastRow (update_self _ _ _)
      have htable₂ := hsame₂.table.trans htable₁
      rw [if_pos hmove, hfilled]
      refine ⟨crds₂, hrun₂, ?_, ?_⟩
      · exact exact_of_moved h hindex hlast hmove htable₂ (hsame₂.cursor.trans hcursor₁) hindexed₂
      · exact removed_of_table hget (by rw [htable₂, hswap]) (hsame₂.purged.trans hpurged₁)
    · rw [if_neg hmove]
      refine ⟨crds₁, rfl, ?_, ?_⟩
      · exact exact_of_last h hindex (by omega) htable₁ hcursor₁ hindexed₁
      · exact removed_of_table hget (by rw [htable₁, hswap]) hpurged₁

end Crds

end Agave.Gossip

