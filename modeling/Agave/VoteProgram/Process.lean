/-
  Agave.VoteProgram.Process

  Vote processing (`programs/vote/src/vote_state/mod.rs`): the two ways in which an instruction
  changes a tower.

    * `processVote` feeds the slots of a `Vote` to `process_next_vote_slot`, one
      by one, after `checkSlotsAreValid`.
    * `doProcessVoteStateUpdate` and `doProcessTowerSync` replace the tower by a
      proposed one: `checkAndFilterProposedVoteState` compares the proposal with
      the slot hashes, `processNewVoteState` compares it with the stored tower.

  Functions that change the state through `&mut` run in `EStateM`, which keeps what was written
  before an error.  The loops over two sequences in step recurse on what is left of both.
-/

import Agave.VoteProgram.Proposal

namespace Agave.VoteProgram

/-- A computation on the vote state that may stop early. -/
abbrev VoteM := EStateM Stop VoteState

/-- Runs a check that does not write. -/
def VoteM.check {α : Type} (x : Except Stop α) : VoteM α :=
  match x with
  | .ok a => pure a
  | .error e => throw e

/-- Records the timestamp that came with a vote, if one did.  Without a slot to
    record it at, the call stops with `missing`. -/
def stampAt (slot : Option Nat) (missing : Stop) : Option Int → VoteM Unit
  | none => pure ()
  | some timestamp =>
    match slot with
    | some slot => VoteState.processTimestamp slot timestamp
    | none => throw missing

/-! ## process_new_vote_state -/

def checkNewRoot (newRoot currentRoot : Option Nat) : Except Stop Unit :=
  match newRoot, currentRoot with
  | some newRoot, some currentRoot =>
    if newRoot < currentRoot then .error (.err .rootRollBack) else .ok ()
  | none, some _ => .error (.err .rootRollBack)
  | _, none => .ok ()

/-- The tests of one vote of the new state by itself. -/
def checkNewVote (newRoot : Option Nat) (vote : LandedVote) : Except Stop Unit :=
  if vote.confirmationCount = 0 then .error (.err .zeroConfirmations)
  else if maxLockoutHistory < vote.confirmationCount then .error (.err .confirmationTooLarge)
  else match newRoot with
    | some newRoot =>
      if vote.slot ≤ newRoot ∧ newRoot ≠ 0 then .error (.err .slotSmallerThanRoot) else .ok ()
    | none => .ok ()

/-- The tests of a vote of the new state against the one before it. -/
def checkConsecutive (previous : Option LandedVote) (vote : LandedVote) : Except Stop Unit :=
  match previous with
  | none => .ok ()
  | some previous =>
    if vote.slot ≤ previous.slot then .error (.err .slotsNotOrdered)
    else if previous.confirmationCount ≤ vote.confirmationCount then
      .error (.err .confirmationsNotOrdered)
    else if previous.lockout.lastLockedOutSlot < vote.slot then
      .error (.err .newVoteStateLockoutMismatch)
    else .ok ()

def checkNewVotes (newRoot : Option Nat) :
    Option LandedVote → List LandedVote → Except Stop Unit
  | _, [] => .ok ()
  | previous, vote :: rest => do
    checkNewVote newRoot vote
    checkConsecutive previous vote
    checkNewVotes newRoot (some vote) rest

/-- The loop over the current votes at or below the new root: how many they are,
    and the credits they earn. -/
def rootVotes (voteState : VoteState) (newRoot : Nat) :
    List LandedVote → Nat → Nat → Except Stop (Nat × Nat)
  | [], index, earned => .ok (index, earned)
  | current :: rest, index, earned =>
    if current.slot ≤ newRoot then
      let earned := earned + voteState.creditsForVoteAtIndex index
      if u64Max < earned then .error .earnedCreditsOverflow
      else rootVotes voteState newRoot rest (index + 1) earned
    else .ok (index, earned)

/-- How many current votes the new root reaches, if there is one, and their credits. -/
def rootCurrentVotes (voteState : VoteState) : Option Nat → Except Stop (Nat × Nat)
  | some newRoot => rootVotes voteState newRoot voteState.votes 0 0
  | none => .ok (0, 0)

/-- The loop that compares the current votes with the new ones.  Returns the new
    votes, those for a slot already voted on with their stored latency. -/
def mergeVotes : List LandedVote → List LandedVote → Except Stop (List LandedVote)
  | [], new => .ok new
  | _ :: _, [] => .ok []
  | current :: currents, new :: news =>
    match compare current.slot new.slot with
    | .lt =>
      if new.slot ≤ current.lockout.lastLockedOutSlot then .error (.err .lockoutConflict)
      else mergeVotes currents (new :: news)
    | .eq =>
      if new.confirmationCount < current.confirmationCount then
        .error (.err .confirmationRollBack)
      else do
        let merged ← mergeVotes currents news
        return { new with latency := current.latency } :: merged
    | .gt => do
      let merged ← mergeVotes (current :: currents) news
      return new :: merged
termination_by currents news => currents.length + news.length

/-- A vote for a new slot gets the latency with which it landed. -/
def setLatency (currentSlot : Nat) (vote : LandedVote) : LandedVote :=
  if vote.latency = 0 then { vote with latency := computeVoteLatency vote.slot currentSlot }
  else vote

/-- The checks of `process_new_vote_state`, up to where it begins to write.
    Returns the votes to store and the credits earned. -/
def checkNewState (voteState : VoteState) (newState : List LandedVote) (newRoot : Option Nat)
    (currentSlot : Nat) : Except Stop (List LandedVote × Nat) :=
  if newState.isEmpty then .error .emptyNewState
  else if maxLockoutHistory < newState.length then .error (.err .tooManyVotes)
  else do
    checkNewRoot newRoot voteState.rootSlot
    checkNewVotes newRoot none newState
    let rooted ← rootCurrentVotes voteState newRoot
    let merged ← mergeVotes (voteState.votes.drop rooted.1) newState
    return (merged.map (setLatency currentSlot), rooted.2)

/-- Credits are awarded when the root moves. -/
def VoteState.awardCredits (s : VoteState) (newRoot : Option Nat) (epoch earnedCredits : Nat) :
    VoteState :=
  if s.rootSlot ≠ newRoot then s.incrementCredits epoch earnedCredits else s

def processNewVoteState (newState : List LandedVote) (newRoot : Option Nat)
    (timestamp : Option Int) (epoch : Nat) (currentSlot : Nat) : VoteM Unit := do
  let voteState ← get
  let checked ← VoteM.check (checkNewState voteState newState newRoot currentSlot)
  modify (fun s => s.awardCredits newRoot epoch checked.2)
  stampAt (checked.1.getLast?.map LandedVote.slot) .emptyNewState timestamp
  modify (fun s => { s with rootSlot := newRoot, votes := checked.1 })

/-! ## process_vote -/

structure Vote where
  slots : List Nat
  hash : Hash
  timestamp : Option Int
deriving DecidableEq

/-- The loop of `check_slots_are_valid`, from the vote slots `i..` and the slot
    hashes `..j`; returns the final `i` and `j`. -/
def findSlots (lastVotedSlot : Option Nat) (voteSlots : List Nat) (slotHashes : List SlotHash)
    (i j : Nat) : Except Stop (Nat × Nat) :=
  if i < voteSlots.length ∧ 0 < j then
    match voteSlots[i]?, slotHashes[j - 1]? with
    | some voteSlot, some (slot, _) =>
      if lastVotedSlot.any (fun lastVotedSlot => voteSlot ≤ lastVotedSlot) then
        findSlots lastVotedSlot voteSlots slotHashes (i + 1) j
      else if voteSlot ≠ slot then
        findSlots lastVotedSlot voteSlots slotHashes i (j - 1)
      else findSlots lastVotedSlot voteSlots slotHashes (i + 1) (j - 1)
    | _, _ => .error .indexOutOfBounds
  else .ok (i, j)
termination_by (voteSlots.length - i) + j

def checkSlotsAreValid (voteState : VoteState) (voteSlots : List Nat) (voteHash : Hash)
    (slotHashes : List SlotHash) : Except Stop Unit := do
  let found ← findSlots voteState.lastVotedSlot voteSlots slotHashes 0 slotHashes.length
  if found.2 = slotHashes.length then .error (.err .voteTooOld)
  else if found.1 ≠ voteSlots.length then .error (.err .slotsMismatch)
  else match slotHashes[found.2]? with
    | none => .error .indexOutOfBounds
    | some (_, hash) => if hash ≠ voteHash then .error (.err .slotHashMismatch) else .ok ()

/-- Voting on several slots in turn. -/
def VoteState.processVoteSlots (s : VoteState) (slots : List Nat) (epoch : Nat)
    (currentSlot : Nat) : VoteState :=
  slots.foldl (fun s slot => s.processNextVoteSlot slot epoch currentSlot) s

def processVoteUnfiltered (voteSlots : List Nat) (vote : Vote) (slotHashes : List SlotHash)
    (epoch : Nat) (currentSlot : Nat) : VoteM Unit := do
  let voteState ← get
  VoteM.check (checkSlotsAreValid voteState voteSlots vote.hash slotHashes)
  modify (fun s => s.processVoteSlots voteSlots epoch currentSlot)

/-- The vote slots that are not older than the slot hashes. -/
def recentSlots (slots : List Nat) (slotHashes : List SlotHash) : List Nat :=
  slots.filter (fun slot => slotHashes.getLast?.elim 0 Prod.fst ≤ slot)

def processVote (vote : Vote) (slotHashes : List SlotHash) (epoch : Nat) (currentSlot : Nat) :
    VoteM Unit :=
  if vote.slots.isEmpty then throw (.err .emptySlots)
  else if (recentSlots vote.slots slotHashes).isEmpty then throw (.err .votesTooOldAllFiltered)
  else
    processVoteUnfiltered (recentSlots vote.slots slotHashes) vote slotHashes epoch currentSlot

/-- The part of `process_vote_with_account` between its account checks and the
    write of the account: the vote, then its timestamp at the largest slot. -/
def processVoteWithAccount (vote : Vote) (slotHashes : List SlotHash) (epoch : Nat)
    (currentSlot : Nat) : VoteM Unit := do
  processVote vote slotHashes epoch currentSlot
  stampAt vote.slots.max? (.err .emptySlots) vote.timestamp

/-! ## Replacing the tower -/

structure VoteStateUpdate where
  lockouts : List Lockout
  root : Option Nat
  hash : Hash
  timestamp : Option Int
deriving DecidableEq

/-- The block id of a tower sync is not read by the vote program. -/
structure TowerSync where
  lockouts : List Lockout
  root : Option Nat
  hash : Hash
  timestamp : Option Int
deriving DecidableEq

variable (slotHashes : List SlotHash) (epoch : Nat) (slot : Nat)

/-- The common body of `do_process_vote_state_update` and `do_process_tower_sync`. -/
def replaceTower (lockouts : List Lockout) (root : Option Nat) (hash : Hash)
    (timestamp : Option Int) : VoteM Unit := do
  let voteState ← get
  let proposal ← VoteM.check
    (checkAndFilterProposedVoteState voteState lockouts root hash slotHashes)
  processNewVoteState (proposal.1.map LandedVote.ofLockout) proposal.2 timestamp epoch slot

def doProcessVoteStateUpdate (update : VoteStateUpdate) : VoteM Unit :=
  replaceTower slotHashes epoch slot update.lockouts update.root update.hash update.timestamp

def doProcessTowerSync (towerSync : TowerSync) : VoteM Unit :=
  replaceTower slotHashes epoch slot towerSync.lockouts towerSync.root towerSync.hash
    towerSync.timestamp

end Agave.VoteProgram
