/-
  Agave.VoteProgram.State

  The vote state of one vote account and the operations of its handler
  (`programs/vote/src/vote_state/handler.rs`).

  Only the fields the vote-processing functions read or write are kept: the votes of the tower, the
  root, the epoch credits and the last timestamp.  The tower is a list, oldest vote first, so that
  the source's `back` is the end of the list and `pop_back` drops from there.

  `Lockout` belongs to the external vote-interface crate and is taken as documented there: a vote
  with `c` confirmations locks out every slot up to `slot + 2 ^ c`, saturating at `u64::MAX`.
-/

import Mathlib.Data.List.DropRight
import Agave.Basic

namespace Agave.VoteProgram

/-! ## Constants -/

/-- The number of votes a tower holds before its oldest one is rooted. -/
def maxLockoutHistory : Nat := 31

def initialLockout : Nat := 2

def maxEpochCreditsHistory : Nat := 64

def voteCreditsGraceSlots : Nat := 2

def voteCreditsMaximumPerSlot : Nat := 16

/-- `u8::MAX`, the largest latency that is stored. -/
def u8Max : Nat := 2 ^ 8 - 1

/-- `u32::MAX`, where a confirmation count saturates. -/
def u32Max : Nat := 2 ^ 32 - 1

/-! ## Lockouts and landed votes -/

structure Lockout where
  slot : Nat
  confirmationCount : Nat
deriving DecidableEq

namespace Lockout

def new (slot : Nat) : Lockout := ⟨slot, 1⟩

variable (l : Lockout)

/-- The last slot at which a vote for another fork would break this lockout. -/
def lastLockedOutSlot : Nat :=
  min (l.slot + initialLockout ^ l.confirmationCount) u64Max

def isLockedOutAtSlot (slot : Nat) : Bool :=
  decide (slot ≤ l.lastLockedOutSlot)

def increaseConfirmationCount (n : Nat) : Lockout :=
  { l with confirmationCount := min (l.confirmationCount + n) u32Max }

end Lockout

/-- A lockout and the number of slots its vote took to land. -/
structure LandedVote where
  latency : Nat
  lockout : Lockout
deriving DecidableEq

namespace LandedVote

def slot (v : LandedVote) : Nat := v.lockout.slot

def confirmationCount (v : LandedVote) : Nat := v.lockout.confirmationCount

/-- `LandedVote::from(lockout)`: the latency is not known yet. -/
def ofLockout (l : Lockout) : LandedVote := ⟨0, l⟩

end LandedVote

def computeVoteLatency (votedForSlot currentSlot : Nat) : Nat :=
  min (currentSlot - votedForSlot) u8Max

structure BlockTimestamp where
  slot : Nat
  timestamp : Int
deriving DecidableEq

/-- One entry `(epoch, credits, prev_credits)` of the credit history. -/
structure EpochCredits where
  epoch : Nat
  credits : Nat
  prevCredits : Nat
deriving DecidableEq

/-! ## The vote state -/

structure VoteState where
  votes : List LandedVote
  rootSlot : Option Nat
  epochCredits : List EpochCredits
  lastTimestamp : BlockTimestamp
deriving DecidableEq

/-- The errors of the vote program that the modelled functions return. -/
inductive VoteError where
  | voteTooOld
  | slotsMismatch
  | slotHashMismatch
  | emptySlots
  | timestampTooOld
  | tooManyVotes
  | rootRollBack
  | confirmationRollBack
  | slotSmallerThanRoot
  | confirmationsNotOrdered
  | slotsNotOrdered
  | zeroConfirmations
  | confirmationTooLarge
  | lockoutConflict
  | newVoteStateLockoutMismatch
  | votesTooOldAllFiltered
  | rootOnDifferentFork
  | assertionFailed
deriving DecidableEq

/-- The ways a call stops before its end: an `Err` returned to the caller, or a panic. -/
inductive Stop where
  | err (e : VoteError)
  /-- `process_new_vote_state`: `assert!(!new_state.is_empty())`, or `new_state.back().unwrap()`. -/
  | emptyNewState
  /-- `process_new_vote_state`: the `checked_add` to `earned_credits`. -/
  | earnedCreditsOverflow
  /-- `check_and_filter_proposed_vote_state`: the final `assert_eq!`. -/
  | lastSlotAssertion
  /-- An index past the end of a slice. -/
  | indexOutOfBounds
deriving DecidableEq

/-- A stop that is not a panic. -/
def Stop.IsErr (e : Stop) : Prop := ∃ err, e = .err err

/-- The credits a vote that landed after `latency` slots is worth. -/
def creditsForLatency (latency : Nat) : Nat :=
  if latency = 0 then 1
  else if latency ≤ voteCreditsGraceSlots then voteCreditsMaximumPerSlot
  else if voteCreditsMaximumPerSlot ≤ latency - voteCreditsGraceSlots then 1
  else voteCreditsMaximumPerSlot - (latency - voteCreditsGraceSlots)

namespace VoteState

/-- The state of a newly created vote account. -/
def empty : VoteState := ⟨[], none, [], ⟨0, 0⟩⟩

variable (s : VoteState)

def lastVotedSlot : Option Nat := s.votes.getLast?.map LandedVote.slot

/-- `contains_slot` searches the votes by bisection.  On a tower in slot order
    that finds a slot exactly when it is there. -/
def containsSlot (candidateSlot : Nat) : Bool :=
  s.votes.any (fun v => v.slot == candidateSlot)

/-! ## Credits and timestamps -/

/-- `credits_for_vote_at_index`; an index past the end counts as latency 0. -/
def creditsForVoteAtIndex (index : Nat) : Nat :=
  creditsForLatency ((s.votes[index]?).elim 0 LandedVote.latency)

/-- The entry that `increment_credits` adds to, put at the end of the history. -/
def openEpoch (entries : List EpochCredits) (epoch : Nat) : List EpochCredits :=
  match entries.getLast? with
  | none => [⟨epoch, 0, 0⟩]
  | some last =>
    if epoch ≠ last.epoch then
      let entries :=
        if last.credits ≠ last.prevCredits then
          entries ++ [⟨epoch, last.credits, last.credits⟩]
        else
          entries.dropLast ++ [{ last with epoch := epoch }]
      if maxEpochCreditsHistory < entries.length then entries.tail else entries
    else entries

/-- `last_mut().unwrap().1 = last().unwrap().1.saturating_add(credits)`. -/
def addToLast (entries : List EpochCredits) (credits : Nat) : List EpochCredits :=
  match entries.getLast? with
  | none => entries
  | some last =>
    entries.dropLast ++ [{ last with credits := min (last.credits + credits) u64Max }]

def incrementCredits (epoch : Nat) (credits : Nat) : VoteState :=
  { s with epochCredits := addToLast (openEpoch s.epochCredits epoch) credits }

/-- All credits earned so far. -/
def credits : Nat := s.epochCredits.getLast?.elim 0 EpochCredits.credits

/-- Whether `process_timestamp` refuses `⟨slot, timestamp⟩`. -/
def isTimestampTooOld (last : BlockTimestamp) (slot : Nat) (timestamp : Int) : Bool :=
  (slot < last.slot || timestamp < last.timestamp) ||
    (slot == last.slot && ⟨slot, timestamp⟩ != last && last.slot != 0)

def processTimestamp (slot : Nat) (timestamp : Int) : EStateM Stop VoteState Unit := fun s =>
  if isTimestampTooOld s.lastTimestamp slot timestamp then .error (.err .timestampTooOld) s
  else .ok () { s with lastTimestamp := ⟨slot, timestamp⟩ }

/-! ## Voting one slot at a time -/

/-- `pop_expired_votes`: drop from the back of the tower the votes whose lockout
    does not reach `nextVoteSlot`, up to the first one that still holds. -/
def popExpiredVotes (nextVoteSlot : Nat) : VoteState :=
  { s with votes := s.votes.rdropWhile (fun v => !v.lockout.isLockedOutAtSlot nextVoteSlot) }

/-- The body of the loop of `double_lockouts`: the vote at index `i` gains a
    confirmation once the stack above it is deeper than ever before. -/
def doubleLockout (stackDepth i : Nat) (v : LandedVote) : LandedVote :=
  if i + v.confirmationCount < stackDepth then
    { v with lockout := v.lockout.increaseConfirmationCount 1 }
  else v

def doubleLockouts : VoteState :=
  { s with votes := s.votes.mapIdx (doubleLockout s.votes.length) }

/-- A full tower roots its oldest vote and earns the credits for it. -/
def rootOldestIfFull (epoch : Nat) : VoteState :=
  if s.votes.length = maxLockoutHistory then
    match s.votes with
    | [] => s
    | oldest :: rest =>
      { s with votes := rest, rootSlot := some oldest.slot }.incrementCredits epoch
        (s.creditsForVoteAtIndex 0)
  else s

def pushVote (v : LandedVote) : VoteState := { s with votes := s.votes ++ [v] }

def processNextVoteSlot (nextVoteSlot : Nat) (epoch : Nat) (currentSlot : Nat) : VoteState :=
  if s.lastVotedSlot.any (fun lastVotedSlot => nextVoteSlot ≤ lastVotedSlot) then s
  else
    let landedVote : LandedVote :=
      ⟨computeVoteLatency nextVoteSlot currentSlot, Lockout.new nextVoteSlot⟩
    (((s.popExpiredVotes nextVoteSlot).rootOldestIfFull epoch).pushVote landedVote).doubleLockouts

end VoteState

end Agave.VoteProgram
