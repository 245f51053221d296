/-
  Agave.VoteProgram.Tower

  The shape of a tower and how voting on one more slot keeps it.

  `Tower root votes` is what the rest of the validator relies on: at most
  `MAX_LOCKOUT_HISTORY` votes, slots increasing, confirmation counts decreasing,
  no vote expired by the next one, and no vote at or below the root.  The one
  exception is a root of slot 0, below which votes are let stand.

  The incremental path pops expired votes, roots the oldest vote of a full
  tower, pushes the new vote and doubles lockouts.  In between the tower is out
  of shape: the pushed vote has one confirmation, as the vote below it may have.
  `Tower.push` therefore takes the last two steps together.
-/

import Mathlib.Data.List.Chain
import Agave.VoteProgram.Process

namespace Agave.VoteProgram

open List VoteState

/-! ## Towers -/

/-- What is asked of a vote by itself. -/
structure VoteOk (root : Option Nat) (v : LandedVote) : Prop where
  count_pos : 0 < v.confirmationCount
  count_le : v.confirmationCount ≤ maxLockoutHistory
  above_root : ∀ r ∈ root, r ≠ 0 → r < v.slot

/-- What is asked of two consecutive votes. -/
structure Follows (a b : LandedVote) : Prop where
  slot_lt : a.slot < b.slot
  count_lt : b.confirmationCount < a.confirmationCount
  locked : b.slot ≤ a.lockout.lastLockedOutSlot

structure Tower (root : Option Nat) (votes : List LandedVote) : Prop where
  length_le : votes.length ≤ maxLockoutHistory
  follows : votes.IsChain Follows
  ok : ∀ v ∈ votes, VoteOk root v

namespace Tower

variable {root : Option Nat} {votes votes' : List LandedVote} {v : LandedVote}

theorem nil : Tower root [] := ⟨Nat.zero_le _, .nil, fun _ hv => absurd hv not_mem_nil⟩

section

variable (h : Tower root votes)
include h

theorem slots_lt : votes.Pairwise (fun a b => a.slot < b.slot) := by
  have : IsTrans LandedVote (fun a b => a.slot < b.slot) := ⟨fun _ _ _ => Nat.lt_trans⟩
  exact isChain_iff_pairwise.mp (h.follows.imp fun _ _ hf => hf.slot_lt)

theorem counts_lt :
    votes.Pairwise (fun a b => b.confirmationCount < a.confirmationCount) := by
  have : IsTrans LandedVote (fun a b => b.confirmationCount < a.confirmationCount) :=
    ⟨fun _ _ _ hab hbc => Nat.lt_trans hbc hab⟩
  exact isChain_iff_pairwise.mp (h.follows.imp fun _ _ hf => hf.count_lt)

theorem of_prefix (hp : votes' <+: votes) : Tower root votes' :=
  ⟨hp.length_le.trans h.length_le, h.follows.prefix hp, fun v hv => h.ok v (hp.subset hv)⟩

theorem slot_le_last {last : LandedVote} (hlast : votes.getLast? = some last)
    (v : LandedVote) (hv : v ∈ votes) : v.slot ≤ last.slot := by
  obtain ⟨older, rfl⟩ := getLast?_eq_some_iff.mp hlast
  rcases mem_append.mp hv with hv | hv
  · exact ((pairwise_append.mp h.slots_lt).2.2 v hv last (mem_singleton_self last)).le
  · rw [mem_singleton.mp hv]

end

theorem tail (h : Tower root (v :: votes)) : Tower (some v.slot) votes := by
  refine ⟨(Nat.le_succ _).trans h.length_le, h.follows.tail, fun w hw => ?_⟩
  have hok := h.ok w (mem_cons_of_mem v hw)
  refine ⟨hok.count_pos, hok.count_le, fun r hr _ => ?_⟩
  have hlt := rel_of_pairwise_cons h.slots_lt hw
  rw [Option.mem_some_iff] at hr
  omega

theorem nodup_slots (h : Tower root votes) : (votes.map LandedVote.slot).Nodup :=
  pairwise_map.mpr (h.slots_lt.imp fun hlt => Nat.ne_of_lt hlt)

theorem eq_of_slot (h : Tower root votes) {a b : LandedVote} (ha : a ∈ votes) (hb : b ∈ votes)
    (hslot : a.slot = b.slot) : a = b :=
  inj_on_of_nodup_map h.nodup_slots ha hb hslot

end Tower

/-! ## Doubling lockouts -/

theorem Lockout.lastLockedOutSlot_mono {a b : Lockout} (hslot : a.slot = b.slot)
    (hcount : a.confirmationCount ≤ b.confirmationCount) :
    a.lastLockedOutSlot ≤ b.lastLockedOutSlot := by
  have hpow : initialLockout ^ a.confirmationCount ≤ initialLockout ^ b.confirmationCount :=
    Nat.pow_le_pow_right (by decide) hcount
  unfold lastLockedOutSlot
  omega

variable {depth i slot : Nat} {votes : List LandedVote} {root : Option Nat}

namespace VoteState

@[simp] theorem doubleLockout_slot (depth i : Nat) (v : LandedVote) :
    (doubleLockout depth i v).slot = v.slot := by
  unfold doubleLockout
  split <;> rfl

/-- A count within bounds does not saturate. -/
theorem doubleLockout_count {v : LandedVote} (h : v.confirmationCount ≤ maxLockoutHistory) :
    (doubleLockout depth i v).confirmationCount =
      if i + v.confirmationCount < depth then v.confirmationCount + 1
      else v.confirmationCount := by
  have hmax : maxLockoutHistory < u32Max := by decide
  unfold doubleLockout
  split
  · show min (v.confirmationCount + 1) u32Max = _
    omega
  · rfl

theorem le_doubleLockout_count {v : LandedVote} (h : v.confirmationCount ≤ maxLockoutHistory) :
    v.confirmationCount ≤ (doubleLockout depth i v).confirmationCount := by
  rw [doubleLockout_count h]
  split <;> omega

end VoteState

/-- Two consecutive votes stay in order under doubling.  Their counts may even
    be equal before, if the depth has just passed the older one's. -/
theorem Follows.doubleLockout {a b : LandedVote} (hslot : a.slot < b.slot)
    (hlocked : b.slot ≤ a.lockout.lastLockedOutSlot) (ha : a.confirmationCount ≤ maxLockoutHistory)
    (hb : b.confirmationCount ≤ maxLockoutHistory)
    (hcount : b.confirmationCount < a.confirmationCount ∨
      b.confirmationCount = a.confirmationCount ∧ i + a.confirmationCount + 1 = depth) :
    Follows (VoteState.doubleLockout depth i a) (VoteState.doubleLockout depth (i + 1) b) := by
  constructor
  · rw [VoteState.doubleLockout_slot, VoteState.doubleLockout_slot]
    exact hslot
  · rw [doubleLockout_count ha, doubleLockout_count hb]
    split <;> split <;> omega
  · rw [VoteState.doubleLockout_slot]
    calc b.slot ≤ a.lockout.lastLockedOutSlot := hlocked
      _ ≤ (VoteState.doubleLockout depth i a).lockout.lastLockedOutSlot :=
        Lockout.lastLockedOutSlot_mono (VoteState.doubleLockout_slot depth i a).symm
          (le_doubleLockout_count ha)

theorem VoteOk.doubleLockout {v : LandedVote} (h : VoteOk root v)
    (hdepth : depth ≤ maxLockoutHistory) : VoteOk root (VoteState.doubleLockout depth i v) := by
  have hcount := h.count_le
  have hpos := h.count_pos
  constructor
  · exact hpos.trans_le (le_doubleLockout_count hcount)
  · rw [doubleLockout_count hcount]
    split <;> omega
  · rw [VoteState.doubleLockout_slot]
    exact h.above_root

/-- Pushing a vote on a tower that has room for it, and doubling lockouts. -/
theorem Tower.push {v : LandedVote}
    (h : Tower root votes) (hroom : votes.length < maxLockoutHistory) (hv : VoteOk root v)
    (hone : v.confirmationCount = 1)
    (hlast : ∀ a ∈ votes.getLast?, a.slot < v.slot ∧ v.slot ≤ a.lockout.lastLockedOutSlot) :
    Tower root ((votes ++ [v]).mapIdx (VoteState.doubleLockout (votes.length + 1))) := by
  have hok : ∀ w ∈ votes ++ [v], VoteOk root w := by
    intro w hw
    rcases mem_append.mp hw with hw | hw
    · exact h.ok w hw
    · rw [mem_singleton.mp hw]
      exact hv
  constructor
  · rw [length_mapIdx, length_append, length_singleton]
    omega
  · rw [isChain_iff_getElem]
    intro i hi
    rw [length_mapIdx, length_append, length_singleton] at hi
    rw [getElem_mapIdx, getElem_mapIdx]
    have hi' : i < votes.length := by omega
    have ha := h.ok votes[i] (getElem_mem hi')
    rw [getElem_append_left hi']
    rcases Nat.lt_or_ge (i + 1) votes.length with hnext | hnext
    · -- Two old votes.
      have hfollows := isChain_iff_getElem.mp h.follows i hnext
      rw [getElem_append_left hnext]
      exact .doubleLockout hfollows.slot_lt hfollows.locked ha.count_le
        (h.ok _ (getElem_mem hnext)).count_le (.inl hfollows.count_lt)
    · -- The last old vote and the new one.
      have hidx : votes.length - 1 = i := by omega
      have hlast := hlast votes[i] (by
        rw [getLast?_eq_getElem?, hidx]
        exact getElem?_eq_getElem hi')
      have hpos := ha.count_pos
      rw [getElem_append_right hnext, getElem_singleton]
      apply Follows.doubleLockout hlast.1 hlast.2 ha.count_le hv.count_le
      omega
  · intro w hw
    obtain ⟨i, hi, rfl⟩ := mem_mapIdx.mp hw
    exact (hok _ (getElem_mem hi)).doubleLockout hroom

/-! ## Voting on one slot -/

namespace VoteState

/-- The votes after `v` was pushed on them and lockouts were doubled. -/
def pushed (votes : List LandedVote) (v : LandedVote) : List LandedVote :=
  (votes ++ [v]).mapIdx (doubleLockout (votes.length + 1))

/-- What `process_next_vote_slot` does: nothing, or push a vote on what is left of the tower after
    the expired votes are gone, or also root the oldest vote of what is left. -/
inductive VoteOutcome (s : VoteState) (nextVoteSlot epoch : Nat) (v : LandedVote) :
    VoteState → Prop
  | ignored {last : Nat} (hlast : s.lastVotedSlot = some last) (hold : nextVoteSlot ≤ last) :
      VoteOutcome s nextVoteSlot epoch v s
  | pushed {kept expired : List LandedVote} (hnew : ∀ last ∈ s.lastVotedSlot, last < nextVoteSlot)
      (hvotes : s.votes = kept ++ expired)
      (hexpired : ∀ w ∈ expired, w.lockout.lastLockedOutSlot < nextVoteSlot)
      (hkept : ∀ w ∈ kept.getLast?, nextVoteSlot ≤ w.lockout.lastLockedOutSlot)
      (hroom : kept.length ≠ maxLockoutHistory) :
      VoteOutcome s nextVoteSlot epoch v { s with votes := VoteState.pushed kept v }
  | rooted {oldest : LandedVote} {kept expired : List LandedVote}
      (hnew : ∀ last ∈ s.lastVotedSlot, last < nextVoteSlot)
      (hvotes : s.votes = oldest :: kept ++ expired)
      (hexpired : ∀ w ∈ expired, w.lockout.lastLockedOutSlot < nextVoteSlot)
      (hkept : ∀ w ∈ (oldest :: kept).getLast?, nextVoteSlot ≤ w.lockout.lastLockedOutSlot)
      (hfull : kept.length + 1 = maxLockoutHistory) :
      VoteOutcome s nextVoteSlot epoch v
        { s.incrementCredits epoch (creditsForLatency oldest.latency) with
          votes := VoteState.pushed kept v
          rootSlot := some oldest.slot }

theorem mem_pushed {v m : LandedVote} (hm : m ∈ pushed votes v) :
    ∃ w ∈ votes ++ [v], m.slot = w.slot ∧
      (w.confirmationCount ≤ maxLockoutHistory → w.confirmationCount ≤ m.confirmationCount) := by
  obtain ⟨i, hi, rfl⟩ := mem_mapIdx.mp hm
  exact ⟨_, getElem_mem hi, doubleLockout_slot _ _ _, le_doubleLockout_count⟩

theorem exists_mem_pushed {v w : LandedVote} (hw : w ∈ votes ++ [v]) :
    ∃ m ∈ pushed votes v, m.slot = w.slot := by
  obtain ⟨i, hi, rfl⟩ := mem_iff_getElem.mp hw
  exact ⟨_, mem_mapIdx.mpr ⟨i, hi, rfl⟩, doubleLockout_slot _ _ _⟩

variable (s : VoteState)

theorem popExpiredVotes_spec (nextVoteSlot : Nat) :
    ∃ kept expired, s.popExpiredVotes nextVoteSlot = { s with votes := kept } ∧
      s.votes = kept ++ expired ∧
      (∀ w ∈ expired, w.lockout.lastLockedOutSlot < nextVoteSlot) ∧
      ∀ w ∈ kept.getLast?, nextVoteSlot ≤ w.lockout.lastLockedOutSlot := by
  let isExpired := fun w : LandedVote => !w.lockout.isLockedOutAtSlot nextVoteSlot
  refine ⟨s.votes.rdropWhile isExpired, s.votes.rtakeWhile isExpired, rfl,
    rdropWhile_append_rtakeWhile.symm, ?_, ?_⟩
  · intro w hw
    have := mem_rtakeWhile_imp hw
    simpa [isExpired, Lockout.isLockedOutAtSlot] using this
  · intro w hw
    obtain ⟨hne, rfl⟩ := mem_getLast?_eq_getLast hw
    have := rdropWhile_last_not isExpired s.votes hne
    simpa [isExpired, Lockout.isLockedOutAtSlot] using this

theorem doubleLockouts_pushVote (v : LandedVote) :
    (s.pushVote v).doubleLockouts = { s with votes := pushed s.votes v } := by
  simp only [doubleLockouts, pushVote, pushed, length_append, length_singleton]

theorem processNextVoteSlot_outcome (nextVoteSlot epoch currentSlot : Nat) :
    VoteOutcome s nextVoteSlot epoch
      ⟨computeVoteLatency nextVoteSlot currentSlot, Lockout.new nextVoteSlot⟩
      (s.processNextVoteSlot nextVoteSlot epoch currentSlot) := by
  unfold processNextVoteSlot
  split
  · rename_i hold
    obtain ⟨last, hlast, hle⟩ := (Option.any_eq_true _ _).mp hold
    exact .ignored hlast (of_decide_eq_true hle)
  · rename_i hnew
    have hnew : ∀ last ∈ s.lastVotedSlot, last < nextVoteSlot := by
      intro last hlast
      have := (Option.any_eq_false _ _).mp (eq_false_of_ne_true hnew) last hlast
      simpa using this
    obtain ⟨kept, expired, hpop, hvotes, hexpired, hkept⟩ := s.popExpiredVotes_spec nextVoteSlot
    rw [hpop, doubleLockouts_pushVote]
    by_cases hfull : kept.length = maxLockoutHistory
    · simp only [rootOldestIfFull, hfull, if_true]
      cases kept with
      | nil => cases hfull
      | cons oldest rest => exact .rooted hnew hvotes hexpired hkept hfull
    · simp only [rootOldestIfFull, hfull, if_false]
      exact .pushed hnew hvotes hexpired hkept hfull

end VoteState

theorem Tower.slot_lt_of_new {s : VoteState}
    (h : Tower root s.votes) (hnew : ∀ last ∈ s.lastVotedSlot, last < slot) :
    ∀ v ∈ s.votes, v.slot < slot := by
  intro v hv
  have hlast := getLast?_eq_some_getLast (ne_nil_of_mem hv)
  have hlt := hnew _ (by rw [lastVotedSlot, hlast]; rfl)
  have hle := h.slot_le_last hlast v hv
  omega

/-- The invariant of a vote state: its tower is in shape, and once there is a
    root there are votes above it. -/
structure WellFormed (s : VoteState) : Prop where
  tower : Tower s.rootSlot s.votes
  nonempty : s.rootSlot ≠ none → s.votes ≠ []

/-- An account without votes and root, whatever credits and timestamp it has. -/
theorem wellFormed_nil (epochCredits : List EpochCredits) (stamp : BlockTimestamp) :
    WellFormed ⟨[], none, epochCredits, stamp⟩ :=
  ⟨Tower.nil, fun h => absurd rfl h⟩

/-- The root `new` is not behind `old`, nor gone. -/
def RootLe (old new : Option Nat) : Prop := ∀ r ∈ old, ∃ r' ∈ new, r ≤ r'

theorem RootLe.refl (root : Option Nat) : RootLe root root := fun r hr => ⟨r, hr, Nat.le_refl r⟩

theorem RootLe.trans {a b c : Option Nat} (hab : RootLe a b) (hbc : RootLe b c) : RootLe a c := by
  intro r hr
  obtain ⟨r', hr', hle⟩ := hab r hr
  obtain ⟨r'', hr'', hle'⟩ := hbc r' hr'
  exact ⟨r'', hr'', hle.trans hle'⟩

namespace WellFormed

variable {s : VoteState}

theorem root_lt_of_new (h : WellFormed s) (hnew : ∀ v ∈ s.votes, v.slot < slot) :
    ∀ r ∈ s.rootSlot, r ≠ 0 → r < slot := by
  intro r hr hr0
  obtain ⟨v, hv⟩ := exists_mem_of_ne_nil s.votes
    (h.nonempty (Option.ne_none_iff_exists'.mpr ⟨r, hr⟩))
  have hroot := (h.tower.ok v hv).above_root r hr hr0
  have hslot := hnew v hv
  omega

theorem of_outcome {s' : VoteState} {nextVoteSlot epoch : Nat} {v : LandedVote}
    (h : WellFormed s) (hv : v.lockout = Lockout.new nextVoteSlot)
    (hout : VoteState.VoteOutcome s nextVoteSlot epoch v s') :
    WellFormed s' ∧ RootLe s.rootSlot s'.rootSlot := by
  have hslot : v.slot = nextVoteSlot := by rw [LandedVote.slot, hv]; rfl
  have hone : v.confirmationCount = 1 := by rw [LandedVote.confirmationCount, hv]; rfl
  have hne : ∀ votes, pushed votes v ≠ [] := by
    intro votes
    simp [pushed]
  cases hout with
  | ignored => exact ⟨h, .refl _⟩
  | @pushed kept expired hnew hvotes hexpired hkept hroom =>
    have hlt := h.tower.slot_lt_of_new hnew
    have htower : Tower s.rootSlot kept := h.tower.of_prefix ⟨expired, hvotes.symm⟩
    have hle := htower.length_le
    refine ⟨⟨htower.push (by omega) ?_ hone ?_, fun _ => hne kept⟩, .refl _⟩
    · exact ⟨by omega, by rw [hone]; decide, fun r hr hr0 => hslot ▸ h.root_lt_of_new hlt r hr hr0⟩
    · intro w hw
      have hmem : w ∈ s.votes := hvotes ▸ mem_append_left expired (mem_of_getLast? hw)
      rw [hslot]
      exact ⟨hlt w hmem, hkept w hw⟩
  | @rooted oldest kept expired hnew hvotes hexpired hkept hfull =>
    have hlt := h.tower.slot_lt_of_new hnew
    have htower : Tower s.rootSlot (oldest :: kept) := h.tower.of_prefix ⟨expired, hvotes.symm⟩
    have hmem : ∀ w ∈ oldest :: kept, w ∈ s.votes :=
      fun w hw => hvotes ▸ mem_append_left expired hw
    have holdest := hmem oldest mem_cons_self
    refine ⟨⟨htower.tail.push (by omega) ?_ hone ?_, fun _ => hne kept⟩, ?_⟩
    · refine ⟨by omega, by rw [hone]; decide, fun r hr _ => ?_⟩
      rw [Option.mem_some_iff] at hr
      rw [hslot, ← hr]
      exact hlt oldest holdest
    · intro w hw
      have hlast : (oldest :: kept).getLast? = some w := by
        rw [getLast?_cons, hw]
        rfl
      rw [hslot]
      exact ⟨hlt w (hmem w (mem_of_getLast? hlast)), hkept w hlast⟩
    · intro r hr
      refine ⟨oldest.slot, rfl, ?_⟩
      have hroot := (h.tower.ok oldest holdest).above_root r hr
      omega

/-- The incremental path keeps a vote state well formed and moves its root only forward. -/
theorem processNextVoteSlot (h : WellFormed s) (nextVoteSlot epoch currentSlot : Nat) :
    WellFormed (s.processNextVoteSlot nextVoteSlot epoch currentSlot) ∧
      RootLe s.rootSlot (s.processNextVoteSlot nextVoteSlot epoch currentSlot).rootSlot :=
  h.of_outcome rfl (s.processNextVoteSlot_outcome nextVoteSlot epoch currentSlot)

theorem processVoteSlots (h : WellFormed s) (slots : List Nat) (epoch currentSlot : Nat) :
    WellFormed (s.processVoteSlots slots epoch currentSlot) ∧
      RootLe s.rootSlot (s.processVoteSlots slots epoch currentSlot).rootSlot := by
  induction slots generalizing s with
  | nil => exact ⟨h, .refl _⟩
  | cons slot slots ih =>
    have hstep := h.processNextVoteSlot slot epoch currentSlot
    have hrest := ih hstep.1
    exact ⟨hrest.1, hstep.2.trans hrest.2⟩

end WellFormed

end Agave.VoteProgram

