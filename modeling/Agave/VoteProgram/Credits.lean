/-
  Agave.VoteProgram.Credits

  Where the credits of a vote account come from.

  Credits are awarded in two places: `process_next_vote_slot` awards the oldest vote of a full tower
  when it roots it, and `process_new_vote_state` awards all votes that a new root reaches.
  `Account` keeps beside a vote state the votes that left its tower at or below the root, and the
  question is whether the credits recorded are the credits of some of them, no slot counted twice.

  They are not.  Votes at or below a root of slot 0 are let stand in the tower, so the vote for slot
  0 can be awarded when the root becomes 0 and, still in the tower, again when the root moves on.
  `SlotZeroOnce` is the condition on a call under which this cannot happen.

  The history that the credits are recorded in is a chain of epochs (`Chained`), cut off at its old
  end.
-/

import Agave.VoteProgram.Run

namespace Agave.VoteProgram

open Agave.Lib VoteState List

/-! ## The credit history -/

variable (entries : List EpochCredits)

theorem getLast?_addToLast (credits : Nat) : (addToLast entries credits).getLast? =
      entries.getLast?.map (fun e => { e with credits := min (e.credits + credits) u64Max }) := by
  unfold addToLast
  cases hlast : entries.getLast? with
  | none => rw [Option.map_none, hlast]
  | some last => rw [getLast?_concat, Option.map_some]

/-- Dropping the oldest entry of a long history does not touch the newest. -/
theorem getLast?_trim (e : EpochCredits) :
    (if maxEpochCreditsHistory < (entries ++ [e]).length then (entries ++ [e]).tail
      else entries ++ [e]).getLast? = some e := by
  split
  · rename_i hlong
    rw [getLast?_tail, if_neg, getLast?_concat]
    unfold maxEpochCreditsHistory at hlong
    omega
  · exact getLast?_concat

/-- Opening an epoch puts its entry at the end, and carries the credits over. -/
theorem getLast?_openEpoch (epoch : Nat) :
    ∃ last, (openEpoch entries epoch).getLast? = some last ∧ last.epoch = epoch ∧
      last.credits = entries.getLast?.elim 0 EpochCredits.credits := by
  unfold openEpoch
  cases hlast : entries.getLast? with
  | none => exact ⟨_, rfl, rfl, rfl⟩
  | some last =>
    dsimp only
    by_cases hepoch : epoch ≠ last.epoch
    · rw [if_pos hepoch]
      by_cases hearned : last.credits ≠ last.prevCredits
      · rw [if_pos hearned, getLast?_trim]
        exact ⟨_, rfl, rfl, rfl⟩
      · rw [if_neg hearned, getLast?_trim]
        exact ⟨_, rfl, rfl, rfl⟩
    · rw [if_neg hepoch]
      exact ⟨last, hlast, (not_not.mp hepoch).symm, rfl⟩

/-- An award that changes nothing is for the newest epoch, and adds nothing to its credits. -/
theorem incrementCredits_eq_self_iff (s : VoteState) (epoch n : Nat) :
    s.incrementCredits epoch n = s ↔ ∃ last, s.epochCredits.getLast? = some last ∧
      last.epoch = epoch ∧ min (last.credits + n) u64Max = last.credits := by
  constructor
  · intro hsame
    have hadd := getLast?_addToLast (openEpoch s.epochCredits epoch) n
    rw [show addToLast (openEpoch s.epochCredits epoch) n = s.epochCredits from
      congrArg VoteState.epochCredits hsame] at hadd
    obtain ⟨e, he, hepoch, hcredits⟩ := getLast?_openEpoch s.epochCredits epoch
    rw [he, Option.map_some] at hadd
    rw [hadd] at hcredits
    refine ⟨_, hadd, hepoch, ?_⟩
    have heq : e.credits = min (e.credits + n) u64Max := hcredits
    dsimp only
    rw [← heq, ← heq]
  · rintro ⟨last, hlast, rfl, hmin⟩
    have hopen : openEpoch s.epochCredits last.epoch = s.epochCredits := by
      unfold openEpoch
      rw [hlast]
      exact if_neg (not_not_intro rfl)
    unfold incrementCredits addToLast
    rw [hopen, hlast]
    dsimp only
    rw [hmin, dropLast_append_getLast? last hlast]

theorem credits_incrementCredits (s : VoteState) (epoch n : Nat) :
    (s.incrementCredits epoch n).credits = min (s.credits + n) u64Max := by
  obtain ⟨e, he, -, hcredits⟩ := getLast?_openEpoch s.epochCredits epoch
  show ((addToLast _ n).getLast?.elim 0 EpochCredits.credits) = _
  rw [getLast?_addToLast, he]
  show min (e.credits + n) u64Max = _
  rw [hcredits]
  rfl

/-! ## The chain of epochs -/

/-- A history in the order of its epochs.  Each entry goes on from the credits of the one before,
    and only the last one may have none of its own. -/
@[mk_iff]
structure Chained (entries : List EpochCredits) : Prop where
  epochs_lt : entries.Pairwise fun e e' => e.epoch < e'.epoch
  prev_le : ∀ e ∈ entries, e.prevCredits ≤ e.credits
  linked : entries.IsChain fun e e' => e'.prevCredits = e.credits ∧ e.credits ≠ e.prevCredits

namespace Chained

variable {entries past : List EpochCredits} {last last' : EpochCredits} {epoch : Nat}

theorem tail (h : Chained entries) : Chained entries.tail :=
  ⟨h.epochs_lt.tail, fun e he => h.prev_le e (mem_of_mem_tail he), h.linked.tail⟩

theorem concat_iff : Chained (past ++ [last]) ↔ Chained past ∧ (∀ e ∈ past, e.epoch < last.epoch) ∧
    last.prevCredits ≤ last.credits ∧
    ∀ e ∈ past.getLast?, last.prevCredits = e.credits ∧ e.credits ≠ e.prevCredits := by
  simp only [chained_iff, pairwise_append, isChain_append, pairwise_singleton, mem_singleton,
    forall_eq, forall_mem_append, isChain_singleton, head?_cons, Option.mem_some_iff,
    forall_eq', true_and]
  tauto

section

variable (h : Chained (past ++ [last]))
include h

theorem replace (hepoch : last.epoch ≤ last'.epoch)
    (hprev : last'.prevCredits = last.prevCredits) (hle : last.credits ≤ last'.credits) :
    Chained (past ++ [last']) := by
  obtain ⟨hpast, hlast, hcredits, hlink⟩ := concat_iff.mp h
  refine concat_iff.mpr ⟨hpast, fun e he => (hlast e he).trans_le hepoch, ?_, hprev ▸ hlink⟩
  exact hprev ▸ hcredits.trans hle

theorem push (hearned : last.credits ≠ last.prevCredits) (hepoch : last.epoch < epoch) :
    Chained (past ++ [last] ++ [⟨epoch, last.credits, last.credits⟩]) := by
  obtain ⟨-, hlast, -, -⟩ := concat_iff.mp h
  refine concat_iff.mpr ⟨h, forall_mem_append.mpr ⟨fun e he => (hlast e he).trans hepoch, ?_⟩,
    le_rfl, fun e he => ?_⟩
  · exact forall_mem_singleton.mpr hepoch
  · rw [getLast?_concat] at he
    cases he
    exact ⟨rfl, hearned⟩

/-- Dropping the oldest entry of a history that has grown too long by one. -/
theorem trim (hlength : past.length ≤ maxEpochCreditsHistory) :
    ∃ past', (if maxEpochCreditsHistory < (past ++ [last]).length then (past ++ [last]).tail
        else past ++ [last]) = past' ++ [last] ∧
      past'.length < maxEpochCreditsHistory ∧ Chained (past' ++ [last]) := by
  rw [length_append, length_singleton]
  split
  · cases past with
    | nil =>
      rename_i hlong
      exact absurd hlong (by decide)
    | cons oldest past => exact ⟨past, rfl, hlength, h.tail⟩
  · exact ⟨past, rfl, by omega, h⟩

end

theorem openEpoch (h : Chained entries) (hlength : entries.length ≤ maxEpochCreditsHistory)
    (hlast : ∀ e ∈ entries.getLast?, e.epoch ≤ epoch) :
    ∃ past last, openEpoch entries epoch = past ++ [last] ∧ last.epoch = epoch ∧
      past.length < maxEpochCreditsHistory ∧ Chained (past ++ [last]) := by
  unfold VoteState.openEpoch
  cases hentries : entries.getLast? with
  | none =>
    refine ⟨[], ⟨epoch, 0, 0⟩, rfl, rfl, by decide, pairwise_singleton _ _, ?_, .singleton _⟩
    intro e he
    rw [mem_singleton.mp he]
  | some last =>
    obtain ⟨past, rfl⟩ := getLast?_eq_some_iff.mp hentries
    have hle := hlast last hentries
    rw [length_append, length_singleton] at hlength
    dsimp only
    by_cases hepoch : epoch ≠ last.epoch
    · rw [if_pos hepoch]
      by_cases hearned : last.credits ≠ last.prevCredits
      · rw [if_pos hearned]
        have hpush := h.push hearned (lt_of_le_of_ne hle hepoch.symm)
        obtain ⟨past', htrim, hshort, h'⟩ := hpush.trim (by simpa using hlength)
        exact ⟨past', _, htrim, rfl, hshort, h'⟩
      · rw [if_neg hearned, dropLast_concat]
        have hmoved : Chained (past ++ [{ last with epoch }]) := h.replace hle rfl le_rfl
        obtain ⟨past', htrim, hshort, h'⟩ := hmoved.trim (by omega)
        exact ⟨past', _, htrim, rfl, hshort, h'⟩
    · rw [if_neg hepoch]
      exact ⟨past, last, rfl, (not_not.mp hepoch).symm, hlength, h⟩

theorem incrementCredits {s : VoteState} (h : Chained s.epochCredits)
    (hlength : s.epochCredits.length ≤ maxEpochCreditsHistory)
    (hlast : ∀ e ∈ s.epochCredits.getLast?, e.epoch ≤ epoch) {n : Nat}
    (hfit : s.credits + n ≤ u64Max) :
    ∃ past last, (s.incrementCredits epoch n).epochCredits = past ++ [last] ∧
      last.epoch = epoch ∧ past.length < maxEpochCreditsHistory ∧ Chained (past ++ [last]) := by
  obtain ⟨past, last, hopen, hepoch, hshort, h'⟩ := h.openEpoch hlength hlast
  obtain ⟨e, he, -, hcredits⟩ := getLast?_openEpoch s.epochCredits epoch
  rw [hopen, getLast?_concat, Option.some_inj] at he
  subst he
  have hsum : last.credits + n ≤ u64Max := hcredits ▸ hfit
  refine ⟨past, { last with credits := last.credits + n }, ?_, hepoch, hshort,
    h'.replace le_rfl rfl (Nat.le_add_right _ n)⟩
  show addToLast (VoteState.openEpoch s.epochCredits epoch) n = _
  rw [hopen, addToLast, getLast?_concat, dropLast_concat]
  simp only [Nat.min_eq_left hsum]

end Chained

/-- `increment_credits`, once for every award of credits in an epoch. -/
def VoteState.incrementAll (s : VoteState) (awards : List (Nat × Nat)) : VoteState :=
  awards.foldl (fun s award => s.incrementCredits award.1 award.2) s

theorem Chained.incrementAll {s : VoteState} {awards : List (Nat × Nat)}
    (h : Chained s.epochCredits) (hlength : s.epochCredits.length ≤ maxEpochCreditsHistory)
    (hlast : ∀ e ∈ s.epochCredits.getLast?, ∀ award ∈ awards, e.epoch ≤ award.1)
    (hepochs : (awards.map Prod.fst).Pairwise (· ≤ ·))
    (hfit : s.credits + (awards.map Prod.snd).sum ≤ u64Max) :
    Chained (s.incrementAll awards).epochCredits ∧
      (s.incrementAll awards).epochCredits.length ≤ maxEpochCreditsHistory ∧
      (s.incrementAll awards).credits = s.credits + (awards.map Prod.snd).sum := by
  induction awards generalizing s with
  | nil => exact ⟨h, hlength, rfl⟩
  | cons award awards ih =>
    rw [map_cons, sum_cons] at hfit
    obtain ⟨hlater, hepochs⟩ := pairwise_cons.mp hepochs
    obtain ⟨past, last, heq, hepoch, hshort, h'⟩ := h.incrementCredits hlength
      (fun e he => hlast e he award mem_cons_self) (n := award.2) (by omega)
    have hcredits := credits_incrementCredits s award.1 award.2
    rw [Nat.min_eq_left (by omega)] at hcredits
    obtain ⟨hchained, hle, htotal⟩ := ih (s := s.incrementCredits award.1 award.2) (heq ▸ h')
      (by rw [heq, length_append]; exact hshort)
      (fun e he award' haward' => by
        rw [heq, getLast?_concat] at he
        cases he
        exact hepoch ▸ hlater _ (mem_map_of_mem haward'))
      hepochs (by omega)
    refine ⟨hchained, hle, htotal.trans ?_⟩
    rw [hcredits, map_cons, sum_cons, Nat.add_assoc]

/-- However many awards there are, as long as their sum fits, the history is short and chained,
    and its last entry has the sum of all of them. -/
theorem epoch_credits_chained (s : VoteState) (awards : List (Nat × Nat))
    (hempty : s.epochCredits = []) (hepochs : (awards.map Prod.fst).Pairwise (· ≤ ·))
    (hfit : (awards.map Prod.snd).sum ≤ u64Max) :
    Chained (s.incrementAll awards).epochCredits ∧
      (s.incrementAll awards).epochCredits.length ≤ maxEpochCreditsHistory ∧
      (s.incrementAll awards).credits = (awards.map Prod.snd).sum := by
  have hzero : s.credits = 0 := by
    rw [VoteState.credits, hempty]
    rfl
  have hrun := Chained.incrementAll (s := s) (hempty ▸ ⟨.nil, forall_mem_nil _, .nil⟩)
    (hempty ▸ Nat.zero_le _) (by simp [hempty]) hepochs (by omega)
  rwa [hzero, Nat.zero_add] at hrun

/-- An epoch without credits leaves no entry behind. -/
theorem epoch_credits_chained_idle_epoch :
    (VoteState.empty.incrementAll [(3, 16), (5, 0), (7, 4)]).epochCredits =
        [⟨3, 16, 0⟩, ⟨7, 20, 16⟩] ∧
      (VoteState.empty.incrementAll [(3, 16), (5, 0), (7, 4)]).credits = 20 :=
  ⟨rfl, (epoch_credits_chained .empty [(3, 16), (5, 0), (7, 4)] rfl (by decide) (by decide)).2.2⟩

/-! ## Votes that left the tower -/

/-- The votes of `s` that are at or below the root of `s'` and not in its tower. -/
def departures (s s' : VoteState) : List LandedVote :=
  s.votes.filter (fun v => reachedBy s'.rootSlot v && !s'.containsSlot v.slot)

/-- A vote account, and the votes that left its tower at or below the root. -/
structure Account where
  state : VoteState
  departed : List LandedVote

namespace Account

def new : Account := ⟨.empty, []⟩

variable (a : Account)

def become (s' : VoteState) : Account := ⟨s', a.departed ++ departures a.state s'⟩

def vote (epoch currentSlot : Nat) (a : Account) (slot : Nat) : Account :=
  a.become (a.state.processNextVoteSlot slot epoch currentSlot)

/-- A call takes the account through the states between the slots it votes on. -/
def call (c : Call) : Account :=
  match c.run a.state with
  | .ok _ s' => (c.votedSlots.foldl (vote c.sysvars.epoch c.sysvars.slot) a).become s'
  | .error _ _ => a

def runCalls (calls : List Call) : Account := calls.foldl call a

theorem foldl_vote_state (epoch currentSlot : Nat) (slots : List Nat) :
    (slots.foldl (vote epoch currentSlot) a).state =
      a.state.processVoteSlots slots epoch currentSlot := by
  induction slots generalizing a with
  | nil => rfl
  | cons slot slots ih => exact ih _

theorem call_state (c : Call) : (a.call c).state = a.state.call c := by
  unfold call VoteState.call
  cases c.run a.state <;> rfl

/-- The credits recorded are those of votes that left the tower, no slot twice.
    Credits saturate at `u64::MAX`. -/
def CreditedOnce : Prop :=
  ∃ ledger : List LandedVote, (ledger.map LandedVote.slot).Nodup ∧
    (∀ v ∈ ledger, v ∈ a.departed ∧ 1 ≤ creditsForLatency v.latency ∧
      creditsForLatency v.latency ≤ voteCreditsMaximumPerSlot) ∧
    a.state.credits = min (totalCredits ledger) u64Max

end Account

/-! ## The ledger -/

theorem totalCredits_append (votes votes' : List LandedVote) :
    totalCredits (votes ++ votes') = totalCredits votes + totalCredits votes' := by
  simp [totalCredits]

variable {v : LandedVote} {s' : VoteState}

theorem reachedBy_iff {root : Option Nat} : reachedBy root v = true ↔ ∃ r ∈ root, v.slot ≤ r := by
  cases root with
  | none => simp [reachedBy]
  | some r => simp [reachedBy]

theorem reachedBy_mono {root root' : Option Nat} (hle : RootLe root root') (h : reachedBy root v) :
    reachedBy root' v := by
  obtain ⟨r, hr, hv⟩ := reachedBy_iff.mp h
  obtain ⟨r', hr', hrr'⟩ := hle r hr
  exact reachedBy_iff.mpr ⟨r', hr', hv.trans hrr'⟩

theorem mem_departures {s : VoteState} (hv : v ∈ s.votes) (hreached : reachedBy s'.rootSlot v)
    (hgone : ∀ w ∈ s'.votes, w.slot ≠ v.slot) : v ∈ departures s s' := by
  have hcontains : s'.containsSlot v.slot = false := by
    unfold containsSlot
    rw [any_eq_false]
    intro w hw
    simpa using hgone w hw
  exact mem_filter.mpr ⟨hv, by simp [hreached, hcontains]⟩

/-- `ledger` accounts for the credits of `a`.  Its slots are at or below the
    root and no longer in the tower, so that none of them is awarded again. -/
structure Ledger (a : Account) (ledger : List LandedVote) : Prop where
  wf : WellFormed a.state
  nodup : (ledger.map LandedVote.slot).Nodup
  departed : ∀ d ∈ ledger, d ∈ a.departed
  credits : a.state.credits = min (totalCredits ledger) u64Max
  reached : ∀ d ∈ ledger, reachedBy a.state.rootSlot d
  gone : ∀ d ∈ ledger, ∀ v ∈ a.state.votes, v.slot ≠ d.slot

namespace Ledger

variable {a : Account} {ledger : List LandedVote}

theorem new : Ledger Account.new [] := by
  refine ⟨wellFormed_nil [] ⟨0, 0⟩, nodup_nil, ?_, rfl, ?_, ?_⟩
  · intro d hd; cases hd
  · intro d hd; cases hd
  · intro d hd; cases hd

section

variable (h : Ledger a ledger)
include h

theorem creditedOnce : a.CreditedOnce :=
  ⟨ledger, h.nodup, fun v hv => ⟨h.departed v hv, creditsForLatency_bounds _⟩,
    h.credits⟩

section

variable (hwf : WellFormed s') (hroot : RootLe a.state.rootSlot s'.rootSlot)
include hwf hroot

/-- A step that awards nothing. -/
theorem keep (hcredits : s'.credits = a.state.credits)
    (hgone : ∀ d ∈ ledger, ∀ v ∈ s'.votes, v.slot ≠ d.slot) : Ledger (a.become s') ledger :=
  ⟨hwf, h.nodup, fun d hd => mem_append_left _ (h.departed d hd), hcredits.trans h.credits,
    fun d hd => reachedBy_mono hroot (h.reached d hd), hgone⟩

/-- A step that awards the votes `rooted`, which leave the tower. -/
theorem award {rooted : List LandedVote} (hsub : rooted.Sublist a.state.votes)
    (hreached : ∀ v ∈ rooted, reachedBy s'.rootSlot v)
    (hcredits : s'.credits = min (a.state.credits + totalCredits rooted) u64Max)
    (hgone : ∀ d ∈ ledger ++ rooted, ∀ v ∈ s'.votes, v.slot ≠ d.slot) :
    Ledger (a.become s') (ledger ++ rooted) := by
  refine ⟨hwf, ?_, ?_, ?_, ?_, hgone⟩
  · rw [map_append, nodup_append]
    refine ⟨h.nodup, h.wf.tower.nodup_slots.sublist (hsub.map _), ?_⟩
    intro slot hslot slot' hslot'
    obtain ⟨d, hd, rfl⟩ := mem_map.mp hslot
    obtain ⟨v, hv, rfl⟩ := mem_map.mp hslot'
    exact (h.gone d hd v (hsub.subset hv)).symm
  · intro d hd
    rcases mem_append.mp hd with hd' | hd'
    · exact mem_append_left _ (h.departed d hd')
    · exact mem_append_right _
        (mem_departures (hsub.subset hd') (hreached d hd') (hgone d hd))
  · show s'.credits = _
    rw [hcredits, h.credits, totalCredits_append]
    omega
  · intro d hd
    rcases mem_append.mp hd with hd | hd
    · exact reachedBy_mono hroot (h.reached d hd)
    · exact hreached d hd

end

/-- A slot newer than every vote is newer than everything in the ledger. -/
theorem slot_lt_of_new {slot : Nat}
    (hnew : ∀ v ∈ a.state.votes, v.slot < slot) : ∀ d ∈ ledger, d.slot < slot := by
  intro d hd
  obtain ⟨r, hr, hle⟩ := reachedBy_iff.mp (h.reached d hd)
  have hroot := h.wf.root_lt_of_new hnew r hr
  obtain ⟨v, hv⟩ := exists_mem_of_ne_nil _
    (h.wf.nonempty (Option.ne_none_iff_exists'.mpr ⟨r, hr⟩))
  have hv := hnew v hv
  omega

theorem of_outcome {nextVoteSlot epoch : Nat} (hv : v.lockout = Lockout.new nextVoteSlot)
    (hout : VoteOutcome a.state nextVoteSlot epoch v s') :
    ∃ ledger', Ledger (a.become s') ledger' := by
  have hslot : v.slot = nextVoteSlot := by rw [LandedVote.slot, hv]; rfl
  obtain ⟨hwf, hroot⟩ := h.wf.of_outcome hv hout
  cases hout with
  | ignored => exact ⟨ledger, h.keep hwf hroot rfl h.gone⟩
  | @pushed kept expired hnew hvotes hexpired hkept hroom =>
    have hnew := hslot ▸ h.wf.tower.slot_lt_of_new hnew
    refine ⟨ledger, h.keep hwf hroot rfl fun d hd m hm => ?_⟩
    obtain ⟨w, hw, hmw, -⟩ := mem_pushed hm
    rcases mem_append.mp hw with hw | hw
    · exact hmw ▸ h.gone d hd w (hvotes ▸ mem_append_left expired hw)
    · rw [mem_singleton.mp hw] at hmw
      have := h.slot_lt_of_new hnew d hd
      omega
  | @rooted oldest kept expired hnew hvotes hexpired hkept hfull =>
    have hnew := hslot ▸ h.wf.tower.slot_lt_of_new hnew
    have hsub : [oldest].Sublist a.state.votes := by
      rw [hvotes, cons_append]
      exact (nil_sublist _).cons_cons oldest
    have holdest := hsub.subset (mem_singleton_self oldest)
    -- Everything awarded so far is at or below the vote that is rooted now.
    have hbelow : ∀ d ∈ ledger ++ [oldest], d.slot ≤ oldest.slot := by
      intro d hd
      rcases mem_append.mp hd with hd | hd
      · obtain ⟨r, hr, hle⟩ := reachedBy_iff.mp (reachedBy_mono hroot (h.reached d hd))
        cases hr
        exact hle
      · rw [mem_singleton.mp hd]
    refine ⟨ledger ++ [oldest], h.award hwf hroot hsub ?_ ?_ ?_⟩
    · intro w hw
      rw [mem_singleton.mp hw]
      exact reachedBy_iff.mpr ⟨oldest.slot, rfl, Nat.le_refl _⟩
    · have htotal : totalCredits [oldest] = creditsForLatency oldest.latency := by
        simp [totalCredits]
      rw [htotal]
      exact credits_incrementCredits a.state epoch _
    · intro d hd m hm
      have hd := hbelow d hd
      obtain ⟨w, hw, hmw, -⟩ := mem_pushed hm
      rcases mem_append.mp hw with hw | hw
      · have hsorted := h.wf.tower.slots_lt
        rw [hvotes, cons_append] at hsorted
        have := rel_of_pairwise_cons hsorted (mem_append_left expired hw)
        omega
      · rw [mem_singleton.mp hw] at hmw
        have := hnew oldest holdest
        omega

theorem vote (epoch currentSlot slot : Nat) :
    ∃ ledger', Ledger (a.vote epoch currentSlot slot) ledger' :=
  h.of_outcome rfl (a.state.processNextVoteSlot_outcome slot epoch currentSlot)

theorem votes (epoch currentSlot : Nat) (slots : List Nat) :
    ∃ ledger', Ledger (slots.foldl (Account.vote epoch currentSlot) a) ledger' := by
  induction slots generalizing a ledger with
  | nil => exact ⟨ledger, h⟩
  | cons slot slots ih =>
    obtain ⟨ledger', h'⟩ := h.vote epoch currentSlot slot
    exact ih h'

end

end Ledger

/-! ## The vote for slot 0 -/

/-- A call that keeps the vote for slot 0 under a root of slot 0 does not do so
    when that vote is awarded in this call or was awarded before.  Under a root
    of slot 0 no other vote can have been awarded. -/
def SlotZeroOnce (s : VoteState) (c : Call) : Prop :=
  ∀ proposal ∈ c.proposal s, proposal.2 = some 0 → (∃ l ∈ proposal.1, l.slot = 0) →
    (s.rootSlot = none → s.containsSlot 0 = false) ∧
    (s.rootSlot = some 0 → s.containsSlot 0 = true ∨ s.credits = 0)

instance (s : VoteState) (c : Call) : Decidable (SlotZeroOnce s c) :=
  inferInstanceAs (Decidable (∀ proposal ∈ c.proposal s, _))

theorem containsSlot_iff {s : VoteState} {slot : Nat} :
    s.containsSlot slot = true ↔ ∃ v ∈ s.votes, v.slot = slot := by
  simp [containsSlot]

namespace Ledger

variable {a : Account} {ledger : List LandedVote} {c : Call}

theorem eq_nil_of_credits (h : Ledger a ledger) (hzero : a.state.credits = 0) : ledger = [] := by
  cases ledger with
  | nil => rfl
  | cons d ledger =>
    have hpos := (creditsForLatency_bounds d.latency).1
    have htotal : totalCredits (d :: ledger) = creditsForLatency d.latency + totalCredits ledger :=
      sum_cons
    have hcredits := h.credits
    have hmax : 0 < u64Max := by decide
    omega

/-- The condition, for the votes that a replacement leaves in the tower. -/
theorem slotZeroOnce (hc : SlotZeroOnce a.state c)
    (hproposal : c.proposal a.state = some (s'.votes.map LandedVote.lockout, s'.rootSlot))
    (hroot : s'.rootSlot = some 0) (hv : v ∈ s'.votes) (hzero : v.slot = 0) :
    (a.state.rootSlot = none → a.state.containsSlot 0 = false) ∧
    (a.state.rootSlot = some 0 → a.state.containsSlot 0 = true ∨ a.state.credits = 0) :=
  hc _ hproposal hroot ⟨v.lockout, mem_map_of_mem hv, hzero⟩

theorem replaced (h : Ledger a ledger) {epoch : Nat} (hc : SlotZeroOnce a.state c)
    (hreplaced : Replaced a.state s' epoch)
    (hproposal : c.proposal a.state = some (s'.votes.map LandedVote.lockout, s'.rootSlot)) :
    ∃ ledger', Ledger (a.become s') ledger' := by
  have hwf := hreplaced.wellFormed
  have hle := hreplaced.accepted.root_le
  have habove : ∀ r ∈ s'.rootSlot, r ≠ 0 → ∀ v ∈ s'.votes, r < v.slot :=
    fun r hr hr0 v hv => (hwf.tower.ok v hv).above_root r hr hr0
  by_cases hsame : a.state.rootSlot = s'.rootSlot
  · -- The root stays, and nothing is awarded.
    refine ⟨ledger, h.keep hwf hle ?_ fun d hd v hv hslot => ?_⟩
    · unfold VoteState.credits
      rw [hreplaced.credits, awardCredits, if_neg (not_not.mpr hsame)]
    · obtain ⟨r, hr, hdr⟩ := reachedBy_iff.mp (reachedBy_mono hle (h.reached d hd))
      by_cases hr0 : r = 0
      · rw [hr0] at hr hdr
        have hkeeps := slotZeroOnce hc hproposal hr hv (by omega)
        rcases hkeeps.2 (hsame.trans hr) with hcontains | hcredits
        · obtain ⟨w, hw, hzero⟩ := containsSlot_iff.mp hcontains
          exact h.gone d hd w hw (by omega)
        · rw [h.eq_nil_of_credits hcredits] at hd
          cases hd
      · have := habove r hr hr0 v hv
        omega
  · -- The root moves, and the votes it reaches are awarded.
    have hgone : ∀ d ∈ ledger ++ a.state.votes.filter (reachedBy s'.rootSlot),
        ∀ v ∈ s'.votes, v.slot ≠ d.slot := by
      intro d hd v hv hslot
      have hreached : reachedBy s'.rootSlot d := by
        rcases mem_append.mp hd with hd | hd
        · exact reachedBy_mono hle (h.reached d hd)
        · exact (mem_filter.mp hd).2
      obtain ⟨r, hr, hdr⟩ := reachedBy_iff.mp hreached
      by_cases hr0 : r = 0
      · -- The root was `None`, so nothing was awarded before, and slot 0 is new.
        rw [hr0] at hr hdr
        have hnone : a.state.rootSlot = none := by
          cases hold : a.state.rootSlot with
          | none => rfl
          | some r₀ =>
            obtain ⟨r', hr', hle'⟩ := hle r₀ hold
            rw [hr, Option.mem_some_iff] at hr'
            rw [hold, hr] at hsame
            exact absurd (congrArg some (by omega)) hsame
        have hkeeps := slotZeroOnce hc hproposal hr hv (by omega)
        rcases mem_append.mp hd with hd | hd
        · obtain ⟨r₀, hr₀, -⟩ := reachedBy_iff.mp (h.reached d hd)
          rw [hnone] at hr₀
          cases hr₀
        · have hcontains : a.state.containsSlot 0 = true :=
            containsSlot_iff.mpr ⟨d, (mem_filter.mp hd).1, by omega⟩
          rw [hkeeps.1 hnone] at hcontains
          cases hcontains
      · have := habove r hr hr0 v hv
        omega
    refine ⟨_, h.award hwf hle filter_sublist (fun v hv => (mem_filter.mp hv).2) ?_ hgone⟩
    rw [← credits_incrementCredits a.state epoch]
    unfold VoteState.credits
    rw [hreplaced.credits, awardCredits, if_pos hsame]

theorem call (h : Ledger a ledger) (hc : SlotZeroOnce a.state c) :
    ∃ ledger', Ledger (a.call c) ledger' := by
  unfold Account.call
  cases hrun : c.run a.state with
  | error e s' => exact ⟨ledger, h⟩
  | ok _ s' =>
    dsimp only
    cases run_transition h.wf hrun with
    | voted stamp =>
      obtain ⟨ledger', h'⟩ := h.votes c.sysvars.epoch c.sysvars.slot c.votedSlots
      rw [← Account.foldl_vote_state]
      exact ⟨ledger', h'.keep ⟨h'.wf.tower, h'.wf.nonempty⟩ (.refl _) rfl h'.gone⟩
    | replaced hvoted hreplaced hproposal =>
      rw [hvoted]
      exact h.replaced hc hreplaced hproposal

end Ledger

/-- The condition, at every call of a run. -/
def SlotZeroOnceAlong (s : VoteState) : List Call → Prop
  | [] => True
  | c :: calls => SlotZeroOnce s c ∧ SlotZeroOnceAlong (s.call c) calls

theorem Ledger.runCalls {a : Account} {ledger : List LandedVote} (h : Ledger a ledger)
    {calls : List Call} (hcalls : SlotZeroOnceAlong a.state calls) :
    ∃ ledger', Ledger (a.runCalls calls) ledger' := by
  induction calls generalizing a ledger with
  | nil => exact ⟨ledger, h⟩
  | cons c calls ih =>
    obtain ⟨ledger', h'⟩ := h.call hcalls.1
    exact ih h' (a.call_state c ▸ hcalls.2)

/-- In every run that keeps to the condition on slot 0, the credits recorded are
    those of votes that left the tower at or below the root, each slot once. -/
theorem credits_earned_once (calls : List Call) (hcalls : SlotZeroOnceAlong .empty calls) :
    (Account.new.runCalls calls).CreditedOnce := by
  obtain ⟨ledger, h⟩ := Ledger.new.runCalls hcalls
  exact h.creditedOnce

/-- A run that votes on slot 0 and roots it: 16 credits for slot 0, and 16 for
    slot 1 when the root moves there. -/
def rootingRun : List Call :=
  [.processVote ⟨[0], Hash.ofNat 0, none⟩ ⟨slotHashesOf [0], 0, 1⟩,
    .doProcessTowerSync ⟨[⟨1, 1⟩], some 0, Hash.ofNat 1, none⟩ ⟨slotHashesOf [1, 0], 0, 2⟩,
    .doProcessTowerSync ⟨[⟨2, 1⟩], some 1, Hash.ofNat 2, none⟩ ⟨slotHashesOf [2, 1, 0], 0, 3⟩]

theorem credits_earned_once_rooting :
    (Account.new.runCalls rootingRun).state.credits = 32 ∧
      (Account.new.runCalls rootingRun).CreditedOnce :=
  ⟨by decide +kernel, credits_earned_once rootingRun
    ⟨by decide +kernel, by decide +kernel, by decide +kernel, trivial⟩⟩

/-- The same run, except that the tower that roots slot 0 keeps its vote. -/
def doubleCreditRun : List Call :=
  [.processVote ⟨[0], Hash.ofNat 0, none⟩ ⟨slotHashesOf [0], 0, 1⟩,
    .doProcessTowerSync ⟨[⟨0, 2⟩, ⟨1, 1⟩], some 0, Hash.ofNat 1, none⟩
      ⟨slotHashesOf [1, 0], 0, 2⟩,
    .doProcessTowerSync ⟨[⟨2, 1⟩], some 1, Hash.ofNat 2, none⟩ ⟨slotHashesOf [2, 1, 0], 0, 3⟩]

/-- Slot 0 is awarded when it becomes the root and again when the root moves to
    slot 1: 48 credits, where the two slots that left the tower are worth at most
    16 each. -/
theorem slotZero_credited_twice :
    (Account.new.runCalls doubleCreditRun).state.credits = 48 ∧
      (Account.new.runCalls doubleCreditRun).departed.map LandedVote.slot = [0, 1] ∧
      ¬ (Account.new.runCalls doubleCreditRun).CreditedOnce := by
  have hcredits : (Account.new.runCalls doubleCreditRun).state.credits = 48 := by decide +kernel
  have hdeparted : (Account.new.runCalls doubleCreditRun).departed.map LandedVote.slot = [0, 1] := by
    decide +kernel
  refine ⟨hcredits, hdeparted, fun ⟨ledger, hnodup, hledger, htotal⟩ => ?_⟩
  have hsub : ledger.map LandedVote.slot ⊆ [0, 1] := by
    intro slot hslot
    obtain ⟨v, hv, rfl⟩ := mem_map.mp hslot
    rw [← hdeparted]
    exact mem_map_of_mem (hledger v hv).1
  have hlen := (hnodup.subperm hsub).length_le
  have hle := totalCredits_le ledger
  rw [length_map] at hlen
  have hcap : ledger.length * voteCreditsMaximumPerSlot ≤ 2 * voteCreditsMaximumPerSlot :=
    Nat.mul_le_mul_right _ hlen
  have hvalue : 2 * voteCreditsMaximumPerSlot = 32 := rfl
  omega

end Agave.VoteProgram

