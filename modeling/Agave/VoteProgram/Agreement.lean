/-
  Agave.VoteProgram.Agreement

  Voting slot by slot agrees with submitting whole towers.

  A validator builds its tower with `process_next_vote_slot` and submits it for
  `process_new_vote_state` to accept over whatever tower the account holds. `Extends s s'` is what
  one tower has to be to another for that to succeed. Voting on a slot extends a tower, and
  extending is transitive, so any number of submissions may be skipped.
-/

import Agave.VoteProgram.Replace

namespace Agave.VoteProgram

open Agave.Lib VoteState List

/-! ## Extending a tower -/

/-- `s'` comes after `s`: it takes no lockout back, and it changes the slots
    voted on at the end only. -/
structure Extends (s s' : VoteState) : Prop where
  root_le : RootLe s.rootSlot s'.rootSlot
  noRollBack : NoRollBack (s.votes.filter (fun v => !reachedBy s'.rootSlot v)) s'.votes
  last : ∀ v ∈ s.votes, ∃ v' ∈ s'.votes, v.slot ≤ v'.slot
  grows : ∀ v' ∈ s'.votes, (∃ v ∈ s.votes, v.slot = v'.slot) ∨ ∀ v ∈ s.votes, v.slot < v'.slot

variable {votes kept : List LandedVote} {s : VoteState} {v : LandedVote}

theorem NoRollBack.refl {root : Option Nat} (h : Tower root votes) (p : LandedVote → Bool) :
    NoRollBack (votes.filter p) votes := by
  refine ⟨fun o ho n hn hslot => ?_, fun o ho hgone => ?_⟩
  · rw [h.eq_of_slot hn (mem_filter.mp ho).1 hslot]
  · exact absurd rfl (hgone o (mem_filter.mp ho).1)

theorem Extends.refl (h : Tower s.rootSlot s.votes) : Extends s s :=
  ⟨.refl _, .refl h _, fun v hv => ⟨v, hv, Nat.le_refl _⟩, fun v hv => .inl ⟨v, hv, rfl⟩⟩

theorem Extends.trans {a b c : VoteState} (hab : Extends a b) (hbc : Extends b c) :
    Extends a c := by
  refine ⟨hab.root_le.trans hbc.root_le, ?_, ?_, ?_⟩
  · refine Supersedes.trans ?_ ?_ ?_ hab.last hbc.grows hab.noRollBack hbc.noRollBack
    · intro o n hslot hcount
      exact Lockout.lastLockedOutSlot_mono hslot hcount
    · -- What the later root does not reach, the earlier one does not either.
      intro v hv
      rw [not_reachedBy_iff] at hv ⊢
      intro r hr
      obtain ⟨r', hr', hle⟩ := hbc.root_le r hr
      have := hv r' hr'
      omega
    · intro o n hslot ho
      rw [not_reachedBy_iff] at ho ⊢
      exact hslot ▸ ho
  · intro v hv
    obtain ⟨v', hv', hle⟩ := hab.last v hv
    obtain ⟨v'', hv'', hle'⟩ := hbc.last v' hv'
    exact ⟨v'', hv'', hle.trans hle'⟩
  · intro v'' hv''
    rcases hbc.grows v'' hv'' with ⟨v', hv', hslot⟩ | habove
    · exact hslot ▸ hab.grows v' hv'
    · right
      intro v hv
      obtain ⟨v', hv', hle⟩ := hab.last v hv
      have := habove v' hv'
      omega

/-- A push on a tower that has let go of its expired votes, and of votes that
    the new root reaches, takes no lockout back. -/
theorem noRollBack_pushed {root newRoot : Option Nat} {expired : List LandedVote}
    (rooted : List LandedVote) (h : Tower root votes) (hvotes : votes = rooted ++ kept ++ expired)
    (hnew : ∀ w ∈ votes, w.slot < v.slot) (hrooted : ∀ w ∈ rooted, reachedBy newRoot w)
    (hexpired : ∀ w ∈ expired, w.lockout.lastLockedOutSlot < v.slot) :
    NoRollBack (votes.filter (fun w => !reachedBy newRoot w)) (pushed kept v) := by
  have hkept : ∀ w ∈ kept, w ∈ votes := by
    intro w hw
    rw [hvotes]
    exact mem_append_left expired (mem_append_right rooted hw)
  refine ⟨fun o ho m hm hslot => ?_, fun o ho hgone m hm hlt => ?_⟩
  · obtain ⟨ho, -⟩ := mem_filter.mp ho
    obtain ⟨w, hw, hmw, hcount⟩ := mem_pushed hm
    rcases mem_append.mp hw with hw | hw
    · rw [← h.eq_of_slot (hkept w hw) ho (hmw.symm.trans hslot)]
      exact hcount (h.ok w (hkept w hw)).count_le
    · rw [mem_singleton.mp hw] at hmw
      have := hnew o ho
      omega
  · obtain ⟨ho, hlive⟩ := mem_filter.mp ho
    rw [hvotes, mem_append, mem_append] at ho
    rcases ho with (ho | ho) | ho
    · simp [hrooted o ho] at hlive
    · obtain ⟨m', hm', hslot⟩ := exists_mem_pushed (mem_append_left [v] ho)
      exact absurd hslot (hgone m' hm')
    · obtain ⟨w, hw, hmw, -⟩ := mem_pushed hm
      rcases mem_append.mp hw with hw | hw
      · -- What was kept is older than what expired.
        have hsorted := h.slots_lt
        rw [hvotes] at hsorted
        have := (pairwise_append.mp hsorted).2.2 w (mem_append_right rooted hw) o ho
        omega
      · rw [mem_singleton.mp hw] at hmw
        exact hmw ▸ hexpired o ho

theorem grows_pushed (hkept : ∀ w ∈ kept, w ∈ votes) (hnew : ∀ w ∈ votes, w.slot < v.slot) :
    ∀ m ∈ pushed kept v, (∃ w ∈ votes, w.slot = m.slot) ∨ ∀ w ∈ votes, w.slot < m.slot := by
  intro m hm
  obtain ⟨w, hw, hslot, -⟩ := mem_pushed hm
  rcases mem_append.mp hw with hw | hw
  · exact .inl ⟨w, hkept w hw, hslot.symm⟩
  · rw [mem_singleton.mp hw] at hslot
    right
    intro w hw
    have := hnew w hw
    omega

theorem last_pushed (hnew : ∀ w ∈ votes, w.slot < v.slot) :
    ∀ w ∈ votes, ∃ m ∈ pushed kept v, w.slot ≤ m.slot := by
  intro w hw
  obtain ⟨m, hm, hslot⟩ := exists_mem_pushed (mem_append_right kept (mem_singleton_self v))
  have := hnew w hw
  exact ⟨m, hm, by omega⟩

theorem Extends.of_outcome {s' : VoteState} {nextVoteSlot epoch : Nat} (h : WellFormed s)
    (hv : v.lockout = Lockout.new nextVoteSlot) (hout : VoteOutcome s nextVoteSlot epoch v s') :
    Extends s s' := by
  have hslot : v.slot = nextVoteSlot := by rw [LandedVote.slot, hv]; rfl
  have hroot := (h.of_outcome hv hout).2
  cases hout with
  | ignored => exact .refl h.tower
  | @pushed kept expired hnew hvotes hexpired hkept hroom =>
    have hnew := hslot ▸ h.tower.slot_lt_of_new hnew
    refine ⟨hroot, ?_, last_pushed hnew, grows_pushed ?_ hnew⟩
    · apply noRollBack_pushed [] h.tower hvotes hnew
      · intro w hw
        cases hw
      · exact hslot ▸ hexpired
    · intro w hw
      rw [hvotes]
      exact mem_append_left expired hw
  | @rooted oldest kept expired hnew hvotes hexpired hkept hfull =>
    have hnew := hslot ▸ h.tower.slot_lt_of_new hnew
    refine ⟨hroot, ?_, last_pushed hnew, grows_pushed ?_ hnew⟩
    · apply noRollBack_pushed [oldest] h.tower hvotes hnew
      · intro w hw
        rw [mem_singleton.mp hw]
        simp [reachedBy]
      · exact hslot ▸ hexpired
    · intro w hw
      rw [hvotes]
      exact mem_append_left expired (mem_cons_of_mem oldest hw)

/-! ## Any number of votes -/

/-- A vote for a slot, and when it landed. -/
structure Ballot where
  slot : Nat
  epoch : Nat
  currentSlot : Nat
deriving DecidableEq

/-- Feeding ballots to `process_next_vote_slot`. -/
def VoteState.feed (s : VoteState) (ballots : List Ballot) : VoteState :=
  ballots.foldl (fun s b => s.processNextVoteSlot b.slot b.epoch b.currentSlot) s

theorem feed_extends (h : WellFormed s) (ballots : List Ballot) :
    WellFormed (s.feed ballots) ∧ Extends s (s.feed ballots) := by
  induction ballots generalizing s with
  | nil => exact ⟨h, .refl h.tower⟩
  | cons b ballots ih =>
    have hstep := h.processNextVoteSlot b.slot b.epoch b.currentSlot
    have hextends : Extends s (s.processNextVoteSlot b.slot b.epoch b.currentSlot) :=
      .of_outcome h rfl (s.processNextVoteSlot_outcome b.slot b.epoch b.currentSlot)
    obtain ⟨hwf, hrest⟩ := ih hstep.1
    exact ⟨hwf, hextends.trans hrest⟩

theorem votes_processNextVoteSlot_ne_nil (s : VoteState) (slot epoch currentSlot : Nat) :
    (s.processNextVoteSlot slot epoch currentSlot).votes ≠ [] := by
  have hout := s.processNextVoteSlot_outcome slot epoch currentSlot
  generalize s.processNextVoteSlot slot epoch currentSlot = s' at hout
  cases hout with
  | @ignored last hlast hold =>
    intro hnil
    rw [lastVotedSlot, hnil] at hlast
    cases hlast
  | pushed => simp [VoteState.pushed]
  | rooted => simp [VoteState.pushed]

theorem feed_votes_ne_nil (h : WellFormed s) {ballots : List Ballot} (hne : ballots ≠ []) :
    (s.feed ballots).votes ≠ [] := by
  cases ballots with
  | nil => exact absurd rfl hne
  | cons b ballots =>
    obtain ⟨v, hv⟩ := exists_mem_of_ne_nil _
      (votes_processNextVoteSlot_ne_nil s b.slot b.epoch b.currentSlot)
    have hextends := (feed_extends (h.processNextVoteSlot b.slot b.epoch b.currentSlot).1 ballots).2
    obtain ⟨v', hv', -⟩ := hextends.last v hv
    exact ne_nil_of_mem hv'

/-- A tower built by voting slot by slot is accepted over every earlier tower of
    the same history, and replaces it exactly. -/
theorem incremental_tower_accepted (past further : List Ballot) (hfurther : further ≠ [])
    (epoch currentSlot : Nat) :
    let s := VoteState.empty.feed past
    let s' := s.feed further
    ∃ s'', processNewVoteState s'.votes s'.rootSlot none epoch currentSlot s = .ok () s'' ∧
      s''.votes.map LandedVote.lockout = s'.votes.map LandedVote.lockout ∧
      s''.rootSlot = s'.rootSlot := by
  intro s s'
  have hs : WellFormed s := (feed_extends (wellFormed_nil [] ⟨0, 0⟩) past).1
  obtain ⟨hs', hextends⟩ := feed_extends hs further
  have haccepted : Accepted s s'.votes s'.rootSlot :=
    ⟨feed_votes_ne_nil hs hfurther, hs'.tower, hextends.root_le, hextends.noRollBack⟩
  obtain ⟨checked, hchecked⟩ := (checkNewState_ok_iff hs.tower).mpr haccepted
  exact ⟨_, processNewVoteState_of_checked hchecked,
    (checkNewState_stored hs.tower hchecked).1, rfl⟩

/-- Votes for slots 1 and 2 stored, votes for 3, 20 and 21 not submitted in between. -/
theorem incremental_tower_accepted_skipped :
    let s := VoteState.empty.feed [⟨1, 0, 2⟩, ⟨2, 0, 3⟩]
    let s' := s.feed [⟨3, 0, 4⟩, ⟨20, 0, 21⟩, ⟨21, 0, 22⟩]
    s'.votes.map LandedVote.lockout = [⟨20, 2⟩, ⟨21, 1⟩] ∧
      ∃ s'', processNewVoteState s'.votes s'.rootSlot none 0 22 s = .ok () s'' ∧
        s''.votes.map LandedVote.lockout = s'.votes.map LandedVote.lockout ∧
        s''.rootSlot = s'.rootSlot :=
  ⟨by decide, incremental_tower_accepted [⟨1, 0, 2⟩, ⟨2, 0, 3⟩]
    [⟨3, 0, 4⟩, ⟨20, 0, 21⟩, ⟨21, 0, 22⟩] (by decide) 0 22⟩

end Agave.VoteProgram
