/-
  Agave.VoteProgram.Run

  Runs of the vote program on one vote account.

  A run is a list of calls, each an instruction that reached the vote state.  A call that fails
  leaves the account as it was.  `Transition` lists what a call that succeeds does to a well-formed
  state; that every state of a run is well formed follows from it.
-/

import Agave.VoteProgram.Replace

namespace Agave.VoteProgram

open Agave.Lib

/-! ## Calls -/

/-- What the sysvars say when an instruction is executed. -/
structure Sysvars where
  slotHashes : List SlotHash
  epoch : Nat
  slot : Nat
deriving DecidableEq

/-- The instructions that change a tower. -/
inductive Call where
  | processVote (vote : Vote) (sysvars : Sysvars)
  | processVoteWithAccount (vote : Vote) (sysvars : Sysvars)
  | doProcessVoteStateUpdate (update : VoteStateUpdate) (sysvars : Sysvars)
  | doProcessTowerSync (towerSync : TowerSync) (sysvars : Sysvars)
deriving DecidableEq

namespace Call

def run : Call → VoteM Unit
  | processVote vote v => VoteProgram.processVote vote v.slotHashes v.epoch v.slot
  | processVoteWithAccount vote v =>
    VoteProgram.processVoteWithAccount vote v.slotHashes v.epoch v.slot
  | doProcessVoteStateUpdate update v =>
    VoteProgram.doProcessVoteStateUpdate v.slotHashes v.epoch v.slot update
  | doProcessTowerSync towerSync v =>
    VoteProgram.doProcessTowerSync v.slotHashes v.epoch v.slot towerSync

def sysvars : Call → Sysvars
  | processVote _ v => v
  | processVoteWithAccount _ v => v
  | doProcessVoteStateUpdate _ v => v
  | doProcessTowerSync _ v => v

/-- The slots that a call feeds to `process_next_vote_slot`. -/
def votedSlots : Call → List Nat
  | processVote vote v => recentSlots vote.slots v.slotHashes
  | processVoteWithAccount vote v => recentSlots vote.slots v.slotHashes
  | doProcessVoteStateUpdate _ _ => []
  | doProcessTowerSync _ _ => []

/-- The tower and root that a call proposes to replace those of `s`, after they
    were checked against the slot hashes. -/
def proposal (s : VoteState) : Call → Option (List Lockout × Option Nat)
  | processVote _ _ => none
  | processVoteWithAccount _ _ => none
  | doProcessVoteStateUpdate u v =>
    (checkAndFilterProposedVoteState s u.lockouts u.root u.hash v.slotHashes).toOption
  | doProcessTowerSync t v =>
    (checkAndFilterProposedVoteState s t.lockouts t.root t.hash v.slotHashes).toOption

end Call

/-- The account after a call. -/
def VoteState.call (s : VoteState) (c : Call) : VoteState :=
  match c.run s with
  | .ok _ s' => s'
  | .error _ _ => s

/-- The account after a run. -/
def VoteState.runCalls (s : VoteState) (calls : List Call) : VoteState :=
  calls.foldl VoteState.call s

/-! ## What a call does -/

/-- What a call that succeeds does to a well-formed state. -/
inductive Transition (s : VoteState) (c : Call) : VoteState → Prop
  | voted (stamp : BlockTimestamp) :
      Transition s c
        { s.processVoteSlots c.votedSlots c.sysvars.epoch c.sysvars.slot with
          lastTimestamp := stamp }
  | replaced {s' : VoteState} (hvoted : c.votedSlots = [])
      (hreplaced : Replaced s s' c.sysvars.epoch)
      (hproposal : c.proposal s = some (s'.votes.map LandedVote.lockout, s'.rootSlot)) :
      Transition s c s'

variable {s s' : VoteState} {c : Call}

theorem processVote_ok {vote : Vote} {slotHashes : List SlotHash} {epoch currentSlot : Nat}
    (h : processVote vote slotHashes epoch currentSlot s = .ok () s') :
    s' = s.processVoteSlots (recentSlots vote.slots slotHashes) epoch currentSlot := by
  unfold processVote at h
  split at h
  · cases h
  · split at h
    · cases h
    · obtain ⟨_, _, hget, h⟩ := run_bind_eq_ok_iff.mp h
      cases hget
      obtain ⟨_, _, hcheck, h⟩ := run_bind_eq_ok_iff.mp h
      obtain ⟨-, rfl⟩ := VoteM.check_eq_ok_iff.mp hcheck
      cases h
      rfl

theorem run_transition (h : WellFormed s) (hrun : c.run s = .ok () s') :
    Transition s c s' := by
  cases c with
  | processVote vote v =>
    rw [processVote_ok hrun]
    exact .voted _
  | processVoteWithAccount vote v =>
    obtain ⟨_, _, hvote, hstamp⟩ := run_bind_eq_ok_iff.mp hrun
    obtain ⟨stamp, rfl⟩ := stampAt_ok hstamp
    rw [processVote_ok hvote]
    exact .voted stamp
  | doProcessVoteStateUpdate u v =>
    obtain ⟨hreplaced, hproposal⟩ := replaceTower_ok h.tower hrun
    exact .replaced rfl hreplaced (by rw [Call.proposal, hproposal]; rfl)
  | doProcessTowerSync t v =>
    obtain ⟨hreplaced, hproposal⟩ := replaceTower_ok h.tower hrun
    exact .replaced rfl hreplaced (by rw [Call.proposal, hproposal]; rfl)

theorem Replaced.wellFormed {epoch : Nat} (h : Replaced s s' epoch) : WellFormed s' :=
  ⟨h.accepted.tower, fun _ => h.accepted.nonempty⟩

/-- Both ways of changing a tower keep it well formed and move its root only forward. -/
theorem WellFormed.transition (h : WellFormed s) (htransition : Transition s c s') :
    WellFormed s' ∧ RootLe s.rootSlot s'.rootSlot := by
  cases htransition with
  | voted stamp =>
    obtain ⟨hwf, hroot⟩ := h.processVoteSlots c.votedSlots c.sysvars.epoch c.sysvars.slot
    exact ⟨⟨hwf.tower, hwf.nonempty⟩, hroot⟩
  | replaced _ hreplaced => exact ⟨hreplaced.wellFormed, hreplaced.accepted.root_le⟩

theorem WellFormed.call (h : WellFormed s) (c : Call) :
    WellFormed (s.call c) ∧ RootLe s.rootSlot (s.call c).rootSlot := by
  unfold VoteState.call
  cases hrun : c.run s with
  | ok _ s' => exact h.transition (run_transition h hrun)
  | error e s' => exact ⟨h, .refl _⟩

theorem WellFormed.runCalls (h : WellFormed s) (calls : List Call) :
    WellFormed (s.runCalls calls) := by
  induction calls generalizing s with
  | nil => exact h
  | cons c calls ih => exact ih (h.call c).1

/-- Along every run of the vote program, from an account with no votes and no
    root, the tower keeps its shape, and no call moves the root back. -/
theorem tower_wellFormed (epochCredits : List EpochCredits) (stamp : BlockTimestamp)
    (calls : List Call) :
    let s := VoteState.runCalls ⟨[], none, epochCredits, stamp⟩ calls
    s.votes.length ≤ maxLockoutHistory ∧
      s.votes.Pairwise (fun a b => a.slot < b.slot) ∧
      s.votes.Pairwise (fun a b => b.confirmationCount < a.confirmationCount) ∧
      (∀ v ∈ s.votes, 1 ≤ v.confirmationCount ∧ v.confirmationCount ≤ maxLockoutHistory) ∧
      s.votes.IsChain (fun a b => b.slot ≤ a.lockout.lastLockedOutSlot) ∧
      (∀ root ∈ s.rootSlot, root ≠ 0 → ∀ v ∈ s.votes, root < v.slot) ∧
      ∀ call, RootLe s.rootSlot (s.call call).rootSlot := by
  intro s
  have h : WellFormed s := (wellFormed_nil epochCredits stamp).runCalls calls
  refine ⟨h.tower.length_le, h.tower.slots_lt, h.tower.counts_lt, ?_, ?_, ?_, ?_⟩
  · intro v hv
    exact ⟨(h.tower.ok v hv).count_pos, (h.tower.ok v hv).count_le⟩
  · exact h.tower.follows.imp fun _ _ hf => hf.locked
  · intro root hroot hne v hv
    exact (h.tower.ok v hv).above_root root hroot hne
  · intro call
    exact (h.call call).2

/-! ## No lockout is rolled back -/

/-- A tower sync over a well-formed tower: the last new vote is newer than every
    old one, and an old vote above the new root either stays with no fewer
    confirmations or had expired before every later new vote. -/
theorem towerSync_no_lockout_rollback {slotHashes : List SlotHash} {epoch slot : Nat}
    {towerSync : TowerSync} {s s' : VoteState} (hs : Tower s.rootSlot s.votes)
    (h : doProcessTowerSync slotHashes epoch slot towerSync s = .ok () s') :
    (∃ last ∈ s'.votes.getLast?, ∀ v ∈ s.votes, v.slot < last.slot) ∧
      ∀ v ∈ s.votes, (∀ root ∈ s'.rootSlot, root < v.slot) →
        (∃ v' ∈ s'.votes, v'.slot = v.slot ∧ v.confirmationCount ≤ v'.confirmationCount) ∨
        ∀ v' ∈ s'.votes, v.slot < v'.slot → v.lockout.lastLockedOutSlot < v'.slot := by
  obtain ⟨hreplaced, hproposal⟩ := replaceTower_ok hs h
  constructor
  · obtain ⟨-, last, hlast, hnew⟩ := checkAndFilterProposedVoteState_ok hproposal
    rw [List.getLast?_map, Option.map_eq_some_iff] at hlast
    obtain ⟨last, hlast, rfl⟩ := hlast
    exact ⟨last, hlast, hs.slot_lt_of_new hnew⟩
  · intro v hv habove
    have hnoRollBack := hreplaced.accepted.noRollBack
    have hlive : v ∈ s.votes.filter (fun v => !reachedBy s'.rootSlot v) :=
      List.mem_filter.mpr ⟨hv, not_reachedBy_iff.mpr habove⟩
    by_cases hstay : ∃ v' ∈ s'.votes, v'.slot = v.slot
    · obtain ⟨v', hv', hslot⟩ := hstay
      exact .inl ⟨v', hv', hslot, hnoRollBack.weight_le v hlive v' hv' hslot⟩
    · right
      exact hnoRollBack.expired v hlive (fun v' hv' hslot => hstay ⟨v', hv', hslot⟩)

/-- A call that changed the account did not fail. -/
theorem run_eq_ok_of_call_ne (h : s.call c = s') (hne : s' ≠ s) :
    c.run s = .ok () s' := by
  unfold VoteState.call at h
  cases hrun : c.run s with
  | ok _ s₁ =>
    rw [hrun] at h
    rw [← h]
  | error e s₁ =>
    rw [hrun] at h
    exact absurd h.symm hne

/-- Slot hashes from plain slots, the hash of a slot made from its number. -/
def slotHashesOf (slots : List Nat) : List SlotHash :=
  slots.map (fun slot => (slot, Hash.ofNat slot))

/-- A tower sync that drops the vote for slot 2 and keeps the one for slot 1. -/
theorem towerSync_no_lockout_rollback_expired :
    let s := VoteState.empty.call
      (.processVote ⟨[1, 2], Hash.ofNat 2, none⟩ ⟨slotHashesOf [2, 1], 0, 3⟩)
    let s' := s.call
      (.doProcessTowerSync ⟨[⟨1, 3⟩, ⟨5, 1⟩], none, Hash.ofNat 5, none⟩ ⟨slotHashesOf [5, 1], 0, 6⟩)
    s.votes.map LandedVote.lockout = [⟨1, 2⟩, ⟨2, 1⟩] ∧
      (∃ last ∈ s'.votes.getLast?, ∀ v ∈ s.votes, v.slot < last.slot) ∧
      ∀ v ∈ s.votes, (∀ root ∈ s'.rootSlot, root < v.slot) →
        (∃ v' ∈ s'.votes, v'.slot = v.slot ∧ v.confirmationCount ≤ v'.confirmationCount) ∨
        ∀ v' ∈ s'.votes, v.slot < v'.slot → v.lockout.lastLockedOutSlot < v'.slot := by
  intro s s'
  have hs : WellFormed s := ((wellFormed_nil [] ⟨0, 0⟩).call _).1
  have hrun : Call.run _ s = .ok () s' := run_eq_ok_of_call_ne rfl (by decide +kernel)
  exact ⟨by decide +kernel, towerSync_no_lockout_rollback hs.tower hrun⟩

end Agave.VoteProgram
