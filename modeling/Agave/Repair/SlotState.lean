/-
  Agave.Repair.SlotState

  The cluster slot state verifier: what the replay stage does when it learns something about one
  slot, that its bank was frozen or is dead, that there are two versions of it, that the cluster
  confirmed one of them.

  A signal is first turned into a state, which reads what the trackers and the fork choice know of
  the slot.  Each kind of state has its own table of changes, and the changes are applied in order
  to the fork choice, to the slots that are to be repaired, to the bank hashes of the blockstore and
  to the service that samples ancestor hashes.

  Log lines and metrics are left out.  The maps of the source are functions of the slot: nothing
  here iterates over them.
-/

import Agave.ForkChoice.Operations

namespace Agave.Repair

open Agave.Lib
open Agave.ForkChoice (SlotHashKey HeaviestSubtreeForkChoice)

/-! ## What is known of a slot -/

/-- `ClusterConfirmedHash`, the stronger confirmation first. -/
inductive ClusterConfirmedHash where
  | duplicateConfirmed (hash : Hash)
  | epochSlotsFrozen (hash : Hash)
deriving DecidableEq

inductive BankStatus where
  | frozen (hash : Hash)
  | dead
  | unprocessed
deriving DecidableEq

namespace BankStatus

/-- `new_from_hash`: a bank that is not frozen has the default hash. -/
def newFromHash : Option Hash → BankStatus
  | some hash => if hash = 0 then unprocessed else frozen hash
  | none => unprocessed

/-- `BankStatus::new`. -/
def new (isDead : Bool) (getHash : Option Hash) : BankStatus :=
  if isDead then dead else newFromHash getHash

def bankHash : BankStatus → Option Hash
  | frozen hash => some hash
  | dead => none
  | unprocessed => none

def isDead : BankStatus → Bool
  | frozen _ => false
  | dead => true
  | unprocessed => false

def canBeFurtherReplayed : BankStatus → Bool
  | unprocessed => true
  | dead => false
  | frozen _ => false

end BankStatus

/-- Where the modelled code panics. -/
inductive Panic where
  | forkChoice (e : ForkChoice.Panic)
  /-- `assert!(frozen_hash != Hash::default())` -/
  | defaultFrozenHash
  /-- `bank_frozen_hash.unwrap()` of `get_duplicate_confirmed_hash` -/
  | noFrozenHash
  /-- "frozen bank must exist in fork choice" -/
  | frozenBankMissing
  /-- `assert!(is_popular_pruned)` -/
  | notPopularPruned
deriving DecidableEq

/-- The trackers of the replay stage. -/
structure SlotTrackers where
  duplicateSlotsTracker : Finset Nat
  duplicateConfirmedSlots : Nat → Option Hash
  epochSlotsFrozenSlots : Nat → Option Hash

/-- `HeaviestSubtreeForkChoice::is_duplicate_confirmed`. -/
def isDuplicateConfirmed (forkChoice : HeaviestSubtreeForkChoice) (key : SlotHashKey) :
    Option Bool :=
  (forkChoice.forkInfos.get? key).map ForkChoice.ForkInfo.isDuplicateConfirmed

def getDuplicateConfirmedHash (duplicateConfirmedHash bankFrozenHash : Option Hash)
    (isLocalReplayDuplicateConfirmed : Bool) : Except Panic (Option Hash) :=
  if isLocalReplayDuplicateConfirmed then
    match bankFrozenHash with
    | none => .error .noFrozenHash
    | some bankFrozenHash => .ok (some bankFrozenHash)
  else .ok duplicateConfirmedHash

variable (slot : Nat) (trackers : SlotTrackers) (forkChoice : HeaviestSubtreeForkChoice)

def getDuplicateConfirmedHashFromState (bankFrozenHash : Option Hash) :
    Except Panic (Option Hash) :=
  -- a bank that is not frozen has not been confirmed through replay
  let isLocalReplayDuplicateConfirmed :=
    match bankFrozenHash with
    | some hash => (isDuplicateConfirmed forkChoice ⟨slot, hash⟩).getD false
    | none => false
  getDuplicateConfirmedHash (trackers.duplicateConfirmedSlots slot) bankFrozenHash
    isLocalReplayDuplicateConfirmed

def getClusterConfirmedHashFromState (bankFrozenHash : Option Hash) : Except Panic
    (Option ClusterConfirmedHash) := do
  let duplicateConfirmedHash ←
    getDuplicateConfirmedHashFromState slot trackers forkChoice bankFrozenHash
  .ok ((duplicateConfirmedHash.map .duplicateConfirmed).or
    ((trackers.epochSlotsFrozenSlots slot).map .epochSlotsFrozen))

/-! ## States and signals -/

structure DeadState where
  clusterConfirmedHash : Option ClusterConfirmedHash
  isSlotDuplicate : Bool

structure BankFrozenState where
  frozenHash : Hash
  clusterConfirmedHash : Option ClusterConfirmedHash
  isSlotDuplicate : Bool

structure DuplicateConfirmedState where
  duplicateConfirmedHash : Hash
  bankStatus : BankStatus

structure DuplicateState where
  duplicateConfirmedHash : Option Hash
  bankStatus : BankStatus

structure EpochSlotsFrozenState where
  epochSlotsFrozenHash : Hash
  duplicateConfirmedHash : Option Hash
  bankStatus : BankStatus
  isPopularPruned : Bool

/-- `BankFrozenState::new_from_state`. -/
def BankFrozenState.newFromState (frozenHash : Hash) (trackers : SlotTrackers)
    (forkChoice : HeaviestSubtreeForkChoice) : Except Panic BankFrozenState := do
  let clusterConfirmedHash ←
    getClusterConfirmedHashFromState slot trackers forkChoice (some frozenHash)
  if frozenHash = 0 then .error .defaultFrozenHash
  else .ok {
    frozenHash
    clusterConfirmedHash
    isSlotDuplicate := decide (slot ∈ trackers.duplicateSlotsTracker) }

/-- `DuplicateConfirmedState::new_from_state`. -/
def DuplicateConfirmedState.newFromState (duplicateConfirmedHash : Hash) (isDead : Bool)
    (getHash : Option Hash) : DuplicateConfirmedState :=
  { duplicateConfirmedHash, bankStatus := BankStatus.new isDead getHash }

/-- `DuplicateState::new_from_state`. -/
def DuplicateState.newFromState (isDead : Bool) (getHash : Option Hash) : Except Panic
    DuplicateState := do
  let bankStatus := BankStatus.new isDead getHash
  let duplicateConfirmedHash ←
    getDuplicateConfirmedHashFromState slot trackers forkChoice bankStatus.bankHash
  .ok { duplicateConfirmedHash, bankStatus }

/-- `EpochSlotsFrozenState::new_from_state`. -/
def EpochSlotsFrozenState.newFromState (epochSlotsFrozenHash : Hash) (trackers : SlotTrackers)
    (forkChoice : HeaviestSubtreeForkChoice) (isDead : Bool) (getHash : Option Hash)
    (isPopularPruned : Bool) : Except Panic EpochSlotsFrozenState := do
  let bankStatus := BankStatus.new isDead getHash
  let duplicateConfirmedHash ←
    getDuplicateConfirmedHashFromState slot trackers forkChoice bankStatus.bankHash
  .ok { epochSlotsFrozenHash, duplicateConfirmedHash, bankStatus, isPopularPruned }

inductive SlotStateUpdate where
  | bankFrozen (state : BankFrozenState)
  | duplicateConfirmed (state : DuplicateConfirmedState)
  | dead (state : DeadState)
  | duplicate (state : DuplicateState)
  | epochSlotsFrozen (state : EpochSlotsFrozenState)
  | popularPrunedFork

inductive AncestorHashesReplayUpdate where
  | dead (slot : Nat)
  | deadDuplicateConfirmed (slot : Nat)
  | popularPrunedFork (slot : Nat)
deriving DecidableEq

inductive ResultingStateChange where
  | bankFrozen (hash : Hash)
  | markSlotDuplicate (hash : Hash)
  | repairDuplicateConfirmedVersion (hash : Hash)
  | duplicateConfirmedSlotMatchesCluster (hash : Hash)
  | sendAncestorHashesReplayUpdate (update : AncestorHashesReplayUpdate)
deriving DecidableEq

/-! ## The tables of changes -/

def checkDuplicateConfirmedHashAgainstBankStatus (duplicateConfirmedHash : Hash) :
    BankStatus → List ResultingStateChange
  | .unprocessed => []
  | .dead => [.repairDuplicateConfirmedVersion duplicateConfirmedHash]
  | .frozen bankFrozenHash =>
    if duplicateConfirmedHash = bankFrozenHash then
      [.duplicateConfirmedSlotMatchesCluster bankFrozenHash]
    else
      [.markSlotDuplicate bankFrozenHash,
        .repairDuplicateConfirmedVersion duplicateConfirmedHash]

def checkEpochSlotsHashAgainstBankStatus (epochSlotsFrozenHash : Hash) (bankStatus : BankStatus)
    (isPopularPruned : Bool) : Except Panic (List ResultingStateChange) :=
  match bankStatus with
  | .frozen bankFrozenHash =>
    if bankFrozenHash = epochSlotsFrozenHash then .ok []
    else .ok ((if !isPopularPruned then [.markSlotDuplicate bankFrozenHash] else []) ++
      [.repairDuplicateConfirmedVersion epochSlotsFrozenHash])
  | .dead => .ok [.repairDuplicateConfirmedVersion epochSlotsFrozenHash]
  | .unprocessed =>
    if !isPopularPruned then .error .notPopularPruned
    else .ok [.repairDuplicateConfirmedVersion epochSlotsFrozenHash]

def onDeadSlot (state : DeadState) : Except Panic (List ResultingStateChange) :=
  match state.clusterConfirmedHash with
  | some (.duplicateConfirmed hash) =>
    .ok (.sendAncestorHashesReplayUpdate (.deadDuplicateConfirmed slot) ::
      checkDuplicateConfirmedHashAgainstBankStatus hash .dead)
  | some (.epochSlotsFrozen hash) => checkEpochSlotsHashAgainstBankStatus hash .dead false
  | none => .ok [.sendAncestorHashesReplayUpdate (.dead slot)]

def onFrozenSlot (state : BankFrozenState) : Except Panic (List ResultingStateChange) :=
  match state.clusterConfirmedHash with
  | some (.duplicateConfirmed hash) =>
    .ok (.bankFrozen state.frozenHash ::
      checkDuplicateConfirmedHashAgainstBankStatus hash (.frozen state.frozenHash))
  | some (.epochSlotsFrozen hash) => do
    let changes ← checkEpochSlotsHashAgainstBankStatus hash (.frozen state.frozenHash) false
    .ok (.bankFrozen state.frozenHash :: changes)
  | none =>
    .ok (.bankFrozen state.frozenHash ::
      if state.isSlotDuplicate then [.markSlotDuplicate state.frozenHash] else [])

def onDuplicateConfirmed (state : DuplicateConfirmedState) : List ResultingStateChange :=
  match state.bankStatus with
  | .unprocessed => []
  | bankStatus =>
    (if bankStatus.isDead then
      [.sendAncestorHashesReplayUpdate (.deadDuplicateConfirmed slot)] else []) ++
      checkDuplicateConfirmedHashAgainstBankStatus state.duplicateConfirmedHash bankStatus

def onDuplicate (state : DuplicateState) : List ResultingStateChange :=
  match state.bankStatus with
  | .unprocessed => []
  | bankStatus =>
    if state.duplicateConfirmedHash.isNone then
      match bankStatus.bankHash with
      | some bankHash => [.markSlotDuplicate bankHash]
      | none => []
    else []

def onEpochSlotsFrozen (state : EpochSlotsFrozenState) :
    Except Panic (List ResultingStateChange) :=
  -- once a version is duplicate confirmed the sample is redundant, unless the slot was pruned
  -- before it could be replayed
  if !state.isPopularPruned && state.duplicateConfirmedHash.isSome then .ok []
  else
    match state.bankStatus with
    | .unprocessed =>
      if !state.isPopularPruned then .ok []
      else checkEpochSlotsHashAgainstBankStatus state.epochSlotsFrozenHash .unprocessed
        state.isPopularPruned
    | bankStatus =>
      checkEpochSlotsHashAgainstBankStatus state.epochSlotsFrozenHash bankStatus
        state.isPopularPruned

namespace SlotStateUpdate

def canBeFurtherReplayed : SlotStateUpdate → Bool
  | bankFrozen _ => false
  | duplicateConfirmed state => state.bankStatus.canBeFurtherReplayed
  | dead _ => false
  | duplicate state => state.bankStatus.canBeFurtherReplayed
  | epochSlotsFrozen state => state.bankStatus.canBeFurtherReplayed && !state.isPopularPruned
  | popularPrunedFork => false

def intoStateChanges (update : SlotStateUpdate) (slot : Nat) :
    Except Panic (List ResultingStateChange) :=
  if update.canBeFurtherReplayed then .ok []
  else
    match update with
    | dead state => onDeadSlot slot state
    | bankFrozen state => onFrozenSlot state
    | duplicateConfirmed state => .ok (onDuplicateConfirmed slot state)
    | duplicate state => .ok (onDuplicate state)
    | epochSlotsFrozen state => onEpochSlotsFrozen state
    | popularPrunedFork => .ok [.sendAncestorHashesReplayUpdate (.popularPrunedFork slot)]

end SlotStateUpdate

/-! ## Applying the changes -/

structure FrozenHashStatus where
  frozenHash : Hash
  isDuplicateConfirmed : Bool
deriving DecidableEq

variable (bankHashes : Nat → Option FrozenHashStatus)

/-- What the changes are applied to. -/
structure Targets where
  forkChoice : HeaviestSubtreeForkChoice
  duplicateSlotsToRepair : Nat → Option Hash
  bankHashes : Nat → Option FrozenHashStatus
  replayUpdates : List AncestorHashesReplayUpdate
  purgeRepairSlotCounter : Nat → Option Nat

/-- `Blockstore::insert_bank_hash`: a confirmed hash is not overwritten by the same hash
    unconfirmed. -/
def insertBankHash (slot : Nat) (frozenHash : Hash)
    (isDuplicateConfirmed : Bool) : Nat → Option FrozenHashStatus :=
  if (bankHashes slot).any fun prev => prev.frozenHash == frozenHash && prev.isDuplicateConfirmed
  then bankHashes
  else Function.update bankHashes slot (some ⟨frozenHash, isDuplicateConfirmed⟩)

/-- `Blockstore::set_duplicate_confirmed_slots_and_hashes`. -/
def setDuplicateConfirmedSlotsAndHashes (keys : List SlotHashKey) : Nat → Option FrozenHashStatus :=
  keys.foldl (fun hashes key => Function.update hashes key.slot (some ⟨key.hash, true⟩)) bankHashes

/-- A panic of the fork choice. -/
def liftForkChoice {α : Type} : Except ForkChoice.Panic α → Except Panic α
  | .ok a => .ok a
  | .error e => .error (.forkChoice e)

/-- One turn of the loop of `apply_state_changes`, with its
    `not_duplicate_confirmed_frozen_hash`. -/
def applyStateChange (acc : Option Hash × Targets) : ResultingStateChange → Except Panic
    (Option Hash × Targets)
  | .bankFrozen hash =>
    match isDuplicateConfirmed acc.2.forkChoice ⟨slot, hash⟩ with
    | none => .error .frozenBankMissing
    | some true => .ok acc
    | some false => .ok (some hash, acc.2)
  | .markSlotDuplicate hash => do
    let forkChoice ← liftForkChoice (acc.2.forkChoice.markForkInvalidCandidate ⟨slot, hash⟩)
    .ok (acc.1, { acc.2 with forkChoice })
  | .repairDuplicateConfirmedVersion hash =>
    .ok (acc.1, { acc.2 with
      duplicateSlotsToRepair := Function.update acc.2.duplicateSlotsToRepair slot (some hash) })
  | .duplicateConfirmedSlotMatchesCluster hash => do
    let marked ← liftForkChoice (acc.2.forkChoice.markForkValidCandidate ⟨slot, hash⟩)
    .ok (none, { acc.2 with
      forkChoice := marked.2
      bankHashes := setDuplicateConfirmedSlotsAndHashes acc.2.bankHashes marked.1
      duplicateSlotsToRepair := Function.update acc.2.duplicateSlotsToRepair slot none
      purgeRepairSlotCounter := Function.update acc.2.purgeRepairSlotCounter slot none })
  | .sendAncestorHashesReplayUpdate update =>
    .ok (acc.1, { acc.2 with replayUpdates := acc.2.replayUpdates ++ [update] })

/-- The end of `apply_state_changes`. -/
def recordFrozenHash (acc : Option Hash × Targets) : Targets :=
  match acc.1 with
  | some frozenHash =>
    { acc.2 with bankHashes := insertBankHash acc.2.bankHashes slot frozenHash false }
  | none => acc.2

def applyStateChanges (targets : Targets) (changes : List ResultingStateChange) : Except Panic
    Targets := do
  let acc ← changes.foldlM (applyStateChange slot) (none, targets)
  .ok (recordFrozenHash slot acc)

/-- The bookkeeping of `check_slot_agrees_with_cluster` before the changes: the trackers, and
    whether the signal was handled before. -/
def trackUpdate : SlotStateUpdate → SlotTrackers × Bool
  | .duplicate _ =>
    ({ trackers with
      duplicateSlotsTracker := insert slot trackers.duplicateSlotsTracker },
      decide (slot ∈ trackers.duplicateSlotsTracker))
  | .duplicateConfirmed state =>
    (trackers,
      match state.bankStatus.bankHash with
      | some bankHash => isDuplicateConfirmed forkChoice ⟨slot, bankHash⟩ == some true
      | none => false)
  | .epochSlotsFrozen state =>
    ({ trackers with
      epochSlotsFrozenSlots :=
        Function.update trackers.epochSlotsFrozenSlots slot (some state.epochSlotsFrozenHash) },
      trackers.epochSlotsFrozenSlots slot == some state.epochSlotsFrozenHash)
  | _ => (trackers, false)

def checkSlotAgreesWithCluster (slot root : Nat) (trackers : SlotTrackers) (targets : Targets)
    (update : SlotStateUpdate) : Except Panic (SlotTrackers × Targets) :=
  if slot ≤ root then .ok (trackers, targets)
  else
    let tracked := trackUpdate slot trackers targets.forkChoice update
    if tracked.2 then .ok (tracked.1, targets)
    else do
      let changes ← update.intoStateChanges slot
      let targets ← applyStateChanges slot targets changes
      .ok (tracked.1, targets)

end Agave.Repair
