/-
  Agave.Gossip.Crds

  The table of replicated values.

  The table maps labels to values and gives every value a position.  Seven other maps refer to
  values by position: four from the ordinal of an insertion, one set for the contact-infos, one set
  for each node, and the shards.  A removal moves the last value of the table into the hole, so that
  these have to follow.  The table is an `IndexMap` of another crate; the positions here are those
  that it documents.

  Statistics and the channel for contact-info events are written and never read by the table; they
  are left out.  Ordinals are natural numbers: the source's `u64` counts insertions and is taken not
  to overflow.  `trim` does not say which nodes it drops among equals, nor in which order, so its
  choice is an argument here, and `ChosenToDrop` says what the choice can be.
-/

import Agave.Gossip.Shards
import Agave.Lib.RowIndex

namespace Agave.Gossip

open Lib

inductive CrdsError where
  | duplicatePush (numDups : Nat)
  | insertFailed
deriving DecidableEq

inductive GossipRoute where
  | localMessage
  | pullRequest
  | pullResponse
  | pushMessage (origin : Pubkey)
deriving DecidableEq

structure VersionedCrdsValue where
  /-- When the value was inserted, counted in insertions. -/
  ordinal : Nat
  value : CrdsValue
  localTimestamp : Nat
  numPushRecv : Option Nat
deriving DecidableEq

def VersionedCrdsValue.new (value : CrdsValue) (cursor localTimestamp : Nat)
    (route : GossipRoute) : VersionedCrdsValue where
  ordinal := cursor
  value := value
  localTimestamp := localTimestamp
  numPushRecv :=
    match route with
    | .localMessage => none
    | .pullRequest => none
    | .pullResponse => some 0
    | .pushMessage _ => some 1

/-- `CRDS_SHARDS_BITS`. -/
abbrev crdsShardsBits : Nat := 12

structure Crds where
  table : IndexMap CrdsValueLabel VersionedCrdsValue
  /-- The next ordinal. -/
  cursor : Nat
  shards : CrdsShards crdsShardsBits
  nodes : IndexSet Nat
  votes : BTreeMap Nat Nat
  epochSlots : BTreeMap Nat Nat
  duplicateShreds : BTreeMap Nat Nat
  records : BTreeMap Pubkey (IndexSet Nat)
  entries : BTreeMap Nat Nat
  purged : List (Hash × Nat)

namespace Crds

def default : Crds where
  table := .empty
  cursor := 0
  shards := .new crdsShardsBits
  nodes := .empty
  votes := .empty
  epochSlots := .empty
  duplicateShreds := .empty
  records := .empty
  entries := .empty
  purged := []

/-- `Cursor::consume`. -/
def consume (cursor ordinal : Nat) : Nat := max cursor (ordinal + 1)

variable (crds : Crds) (value : VersionedCrdsValue)

/-- `records.entry(pubkey).or_default()`. -/
def recordsOf (pubkey : Pubkey) : IndexSet Nat :=
  (crds.records.get? pubkey).getD .empty

/-! ## Insertion -/

/-- The index of the value's kind, when a value takes a free position. -/
def insertKind (index : Nat) : Crds :=
  match value.value.data with
  | .contactInfo _ => { crds with nodes := crds.nodes.insert index () }
  | .vote _ _ => { crds with votes := (crds.votes.insert value.ordinal index).2 }
  | .epochSlots _ _ => { crds with epochSlots := (crds.epochSlots.insert value.ordinal index).2 }
  | .duplicateShred _ _ =>
    { crds with duplicateShreds := (crds.duplicateShreds.insert value.ordinal index).2 }
  | _ => crds

/-- The index of the value's kind, when a value takes the place of an older one.  The
    contact-infos stay where they are. -/
def replaceKind (old value : VersionedCrdsValue) (index : Nat) : Crds :=
  match value.value.data with
  | .contactInfo _ => crds
  | .vote _ _ =>
    { crds with votes := ((crds.votes.remove old.ordinal).2.insert value.ordinal index).2 }
  | .epochSlots _ _ =>
    { crds with
      epochSlots := ((crds.epochSlots.remove old.ordinal).2.insert value.ordinal index).2 }
  | .duplicateShred _ _ =>
    { crds with
      duplicateShreds :=
        ((crds.duplicateShreds.remove old.ordinal).2.insert value.ordinal index).2 }
  | _ => crds

/-- `insert`, where the table has no value of the label. -/
def insertVacant : Except Panic Crds := do
  let index := crds.table.len
  let shards ← crds.shards.insert index value.value
  let crds := { crds with shards := shards }.insertKind value index
  let pubkey := value.value.pubkey
  .ok { crds with
    entries := (crds.entries.insert value.ordinal index).2
    records := (crds.records.insert pubkey ((crds.recordsOf pubkey).insert index ())).2
    cursor := consume crds.cursor value.ordinal
    table := crds.table.insert value.value.label value }

/-- `insert`, where the value overrides the one in the table. -/
def insertOverride (now index : Nat) (old : VersionedCrdsValue) : Except Panic Crds := do
  let shards ← crds.shards.remove index old.value
  let shards ← shards.insert index value.value
  let crds := { crds with shards := shards }.replaceKind old value index
  .ok { crds with
    entries := ((crds.entries.remove old.ordinal).2.insert value.ordinal index).2
    cursor := consume crds.cursor value.ordinal
    purged := crds.purged ++ [(old.value.hash, now)]
    table := crds.table.insert value.value.label value }

/-- `insert`, where the value in the table stays. -/
def insertFail (now : Nat) (route : GossipRoute) (index : Nat) (old : VersionedCrdsValue) :
    CrdsError × Crds :=
  if old.value.hash ≠ value.value.hash then
    (.insertFailed, { crds with purged := crds.purged ++ [(value.value.hash, now)] })
  else
    match route with
    | .pushMessage _ =>
      let numPushDups := old.numPushRecv.getD 0
      let table := crds.table.modifyIndex index fun entry =>
        { entry with numPushRecv := some (min (numPushDups + 1) 255) }
      (.duplicatePush numPushDups, { crds with table := table })
    | _ => (.insertFailed, crds)

def insert (value : CrdsValue) (now : Nat) (route : GossipRoute) : Except Panic
    (Except CrdsError Unit × Crds) :=
  let versioned := VersionedCrdsValue.new value crds.cursor now route
  match crds.table.getFull? value.label with
  | none => do
    let crds ← crds.insertVacant versioned
    .ok (.ok (), crds)
  | some (index, old) => do
    if ← overrides value old.value then
      let crds ← crds.insertOverride versioned now index old
      .ok (.ok (), crds)
    else
      let (e, crds) := crds.insertFail versioned now route index old
      .ok (.error e, crds)

/-! ## Removal -/

/-- The index of the value's kind, when the value leaves its position. -/
def removeKind (index : Nat) : Crds :=
  match value.value.data with
  | .contactInfo _ => { crds with nodes := (crds.nodes.swapRemoveFull index).2 }
  | .vote _ _ => { crds with votes := (crds.votes.remove value.ordinal).2 }
  | .epochSlots _ _ => { crds with epochSlots := (crds.epochSlots.remove value.ordinal).2 }
  | .duplicateShred _ _ =>
    { crds with duplicateShreds := (crds.duplicateShreds.remove value.ordinal).2 }
  | _ => crds

/-- The index of the value's kind, when the value moves from `size` to `index`. -/
def moveKind (size index : Nat) : Crds :=
  match value.value.data with
  | .contactInfo _ =>
    { crds with nodes := (crds.nodes.swapRemoveFull size).2.insert index () }
  | .vote _ _ => { crds with votes := (crds.votes.insert value.ordinal index).2 }
  | .epochSlots _ _ => { crds with epochSlots := (crds.epochSlots.insert value.ordinal index).2 }
  | .duplicateShred _ _ =>
    { crds with duplicateShreds := (crds.duplicateShreds.insert value.ordinal index).2 }
  | _ => crds

/-- A position leaves the records of a node, and the node with its last one. -/
def removeRecord (records : BTreeMap Pubkey (IndexSet Nat)) (pubkey : Pubkey) (index : Nat) :
    Except Panic (BTreeMap Pubkey (IndexSet Nat)) :=
  match records.get? pubkey with
  | none => .error .thisShouldNotHappen
  | some positions =>
    let positions := (positions.swapRemoveFull index).2
    if positions.isEmpty then .ok (records.remove pubkey).2
    else .ok (records.insert pubkey positions).2

/-- A position in the records of a node changes. -/
def moveRecord (records : BTreeMap Pubkey (IndexSet Nat)) (pubkey : Pubkey) (size index : Nat) :
    Except Panic (BTreeMap Pubkey (IndexSet Nat)) :=
  match records.get? pubkey with
  | none => .error .unwrapNone
  | some positions =>
    .ok (records.insert pubkey ((positions.swapRemoveFull size).2.insert index ())).2

/-- The first half of `remove`: the removed value leaves every index. -/
def unindex (index : Nat) : Except Panic Crds := do
  let shards ← crds.shards.remove index value.value
  let crds := { crds with shards := shards }.removeKind value index
  let crds := { crds with entries := (crds.entries.remove value.ordinal).2 }
  let records ← removeRecord crds.records value.value.pubkey index
  .ok { crds with records := records }

/-- The second half of `remove`: the indices follow the value that filled the hole. -/
def reindex (size index : Nat) : Except Panic Crds := do
  let shards ← crds.shards.remove size value.value
  let shards ← shards.insert index value.value
  let crds := { crds with shards := shards }.moveKind value size index
  let crds := { crds with entries := (crds.entries.insert value.ordinal index).2 }
  let records ← moveRecord crds.records value.value.pubkey size index
  .ok { crds with records := records }

def remove (key : CrdsValueLabel) (now : Nat) : Except Panic Crds :=
  match crds.table.swapRemoveFull key with
  | (none, _) => .ok crds
  | (some (index, value), table) => do
    let crds := { crds with
      table := table
      purged := crds.purged ++ [(value.value.hash, now)] }
    let crds ← crds.unindex value index
    let size := crds.table.len
    if index < size then
      match crds.table.getIndex? index with
      | none => .error .indexOutOfBounds
      | some (_, moved) => crds.reindex moved size index
    else .ok crds

def removeAll (crds : Crds) (now : Nat) : List CrdsValueLabel → Except Panic Crds
  | [] => .ok crds
  | key :: keys => do
    let crds ← crds.remove key now
    crds.removeAll now keys

/-! ## Trimming -/

def shouldTrim (cap : Nat) : Bool := 10 * crds.records.keys.length > 11 * cap

/-- `stakes.values().all(|&stake| stake == 0)`. -/
def stakesUnavailable (stakes : BTreeMap Pubkey Nat) : Bool := stakes.values.all (· == 0)

def stakeOf (stakes : BTreeMap Pubkey Nat) (pubkey : Pubkey) : Nat := (stakes.get? pubkey).getD 0

/-- What `drop` and `drop_random` can pick: the nodes with the least `(stake, pubkey)`, or,
    where no stake is known, any nodes that need not be kept. -/
def ChosenToDrop (size : Nat) (keep : List Pubkey) (stakes : BTreeMap Pubkey Nat)
    (chosen : List Pubkey) : Prop :=
  chosen.Nodup ∧
    if stakesUnavailable stakes then
      chosen ⊆ crds.records.keys.filter (· ∉ keep) ∧
        chosen.length = min size (crds.records.keys.filter (· ∉ keep)).length
    else
      chosen ⊆ crds.records.keys ∧ chosen.length = min size crds.records.keys.length ∧
        ∀ k ∈ chosen, ∀ k' ∈ crds.records.keys, k' ∉ chosen →
          toLex (stakeOf stakes k, k) < toLex (stakeOf stakes k', k')

/-- The label at a position: `self.table.get_index(index).unwrap().0.clone()`. -/
def labelAt (index : Nat) : Except Panic CrdsValueLabel :=
  match crds.table.getIndex? index with
  | none => .error .unwrapNone
  | some (label, _) => .ok label

/-- `self.records[&k]`. -/
def recordsAt (pubkey : Pubkey) : Except Panic (List Nat) :=
  match crds.records.get? pubkey with
  | none => .error .indexOutOfBounds
  | some positions => .ok positions.keys

/-- The labels of all values of the chosen nodes, read before any of them is removed. -/
def labelsOf (chosen : List Pubkey) : Except Panic (List CrdsValueLabel) := do
  let positions ← chosen.mapM crds.recordsAt
  positions.flatten.mapM crds.labelAt

/-- `drop` and `drop_random`, for the nodes that were chosen.  The latter chooses none that
    is kept, so that the filter of the former changes nothing there. -/
def drop (keep : List Pubkey) (chosen : List Pubkey) (now : Nat) : Except Panic (Nat × Crds) := do
  let keys ← crds.labelsOf (chosen.filter (· ∉ keep))
  let crds ← crds.removeAll now keys
  .ok (keys.length, crds)

def trim (cap : Nat) (keep : List Pubkey) (chosen : List Pubkey) (now : Nat) : Except Panic
    (Nat × Crds) :=
  if crds.shouldTrim cap then crds.drop keep chosen now else .ok (0, crds)

/-! ## Timestamps and queries -/

/-- `if entry.local_timestamp < now { entry.local_timestamp = now }`. -/
def touch (now : Nat) (entry : VersionedCrdsValue) : VersionedCrdsValue :=
  if entry.localTimestamp < now then { entry with localTimestamp := now } else entry

/-- The exhaustive update, over the positions of a node's values. -/
def touchAll (table : IndexMap CrdsValueLabel VersionedCrdsValue) (now : Nat) :
    List Nat → Except Panic (IndexMap CrdsValueLabel VersionedCrdsValue)
  | [] => .ok table
  | index :: indices =>
    if table.len ≤ index then .error .indexOutOfBounds
    else touchAll (table.modifyIndex index (touch now)) now indices

def updateRecordTimestamp (pubkey : Pubkey) (now : Nat) : Except Panic Crds :=
  match crds.table.getIndexOf? (.contactInfo pubkey) with
  | some index =>
    .ok { crds with table := crds.table.modifyIndex index (touch now) }
  | none =>
    match crds.records.get? pubkey with
    | none => .ok crds
    | some indices => do
      let table ← touchAll crds.table now indices.keys
      .ok { crds with table := table }

/-- `self.table.index(i)`. -/
def valueAt (index : Nat) : Except Panic VersionedCrdsValue :=
  match crds.table.getIndex? index with
  | none => .error .indexOutOfBounds
  | some (_, value) => .ok value

def filterBitmask (mask : BitVec 64) (maskBits : Nat) : Except Panic (List VersionedCrdsValue) := do
  let positions ← crds.shards.find mask maskBits
  let values ← positions.mapM crds.valueAt
  .ok (values.filter fun v => !v.value.data.isDeprecated)

end Crds

end Agave.Gossip
