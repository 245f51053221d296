/-
  Agave.Repair.Verdict

  What the replay stage makes of one slot, whatever the order of the signals.

  The bank of a slot freezes once, with one hash, and the cluster may confirm one hash.  Before the
  bank is frozen a signal only reaches the trackers (`Pending`). From then on the block is judged by
  the confirmed hash as soon as there is one (`Judged`); without one it stays open, and is marked
  invalid if there is a proof that the slot is duplicate (`Settled`).

  One order loses the proof: it arrives before the bank is frozen, together with a sample of the
  cluster that names the hash the bank then freezes with.  The sample takes the place of a confirmed
  hash in `on_frozen_slot`, agrees, and the proof is not looked at (`ProofHidden`).
-/

import Agave.ForkChoice.Marks
import Agave.Repair.SlotState

namespace Agave.Repair

open Agave.Lib List
open Agave.ForkChoice (SlotHashKey HeaviestSubtreeForkChoice)
open Agave.ForkChoice.HeaviestSubtreeForkChoice

/-! ## Signals -/

/-- What the replay stage holds while the signals of a slot arrive. -/
structure ReplayState where
  trackers : SlotTrackers
  targets : Targets
  /-- the hash of the bank in the bank forks, the default one until it is frozen -/
  bankHash : Option Hash

/-- The signals of a slot that is not dead. -/
inductive Signal where
  | bankFrozen
  | duplicate
  | duplicateConfirmed
  | epochSlotsFrozen (hash : Hash) (isPopularPruned : Bool)
deriving DecidableEq

section

variable (slot root : Nat) (frozenHash confirmedHash : Hash) (parent : SlotHashKey)

/-- The replay stage on a signal: it builds the state from what it knows and hands it to
    `check_slot_agrees_with_cluster`.  A bank that is frozen is put into the fork choice first, a
    confirmed hash into its tracker. -/
def handle (st : ReplayState) : Signal → Except Panic ReplayState
  | .bankFrozen => do
    let forkChoice ← liftForkChoice
      (st.targets.forkChoice.addNewLeafSlot ⟨slot, frozenHash⟩ (some parent))
    let state ← BankFrozenState.newFromState slot frozenHash st.trackers forkChoice
    let checked ← checkSlotAgreesWithCluster slot root st.trackers
      { st.targets with forkChoice } (.bankFrozen state)
    .ok ⟨checked.1, checked.2, some frozenHash⟩
  | .duplicate => do
    let state ← DuplicateState.newFromState slot st.trackers st.targets.forkChoice false
      st.bankHash
    let checked ← checkSlotAgreesWithCluster slot root st.trackers st.targets (.duplicate state)
    .ok ⟨checked.1, checked.2, st.bankHash⟩
  | .duplicateConfirmed => do
    let trackers := { st.trackers with
      duplicateConfirmedSlots :=
        Function.update st.trackers.duplicateConfirmedSlots slot (some confirmedHash) }
    let state := DuplicateConfirmedState.newFromState confirmedHash false st.bankHash
    let checked ← checkSlotAgreesWithCluster slot root trackers st.targets
      (.duplicateConfirmed state)
    .ok ⟨checked.1, checked.2, st.bankHash⟩
  | .epochSlotsFrozen hash isPopularPruned => do
    let state ← EpochSlotsFrozenState.newFromState slot hash st.trackers st.targets.forkChoice
      false st.bankHash isPopularPruned
    let checked ← checkSlotAgreesWithCluster slot root st.trackers st.targets
      (.epochSlotsFrozen state)
    .ok ⟨checked.1, checked.2, st.bankHash⟩

/-- The signals in the order they arrive. -/
def run (st : ReplayState) (signals : List Signal) : Except Panic ReplayState :=
  signals.foldlM (handle slot root frozenHash confirmedHash parent) st

end

/-- The last hash the cluster was sampled with. -/
def lastSample (signals : List Signal) : Option Hash :=
  signals.foldl (fun last signal =>
    match signal with
    | .epochSlotsFrozen hash _ => some hash
    | _ => last) none

/-- A proof that the slot is duplicate came before the bank was frozen, together with a sample of
    the hash it then froze with, and no other hash was sampled since. -/
def ProofHidden (frozenHash : Hash) (signals : List Signal) : Prop :=
  ∃ pre post, signals = pre ++ .bankFrozen :: post ∧ .bankFrozen ∉ pre ∧ .duplicate ∈ pre ∧
    lastSample pre = some frozenHash ∧
    ∀ hash isPopularPruned, .epochSlotsFrozen hash isPopularPruned ∈ post → hash = frozenHash

/-- A sample of another hash that is flagged as pruned comes after the bank was frozen. -/
def PrunedAfterFrozen (frozenHash : Hash) (signals : List Signal) : Prop :=
  ∃ pre post hash, signals = pre ++ .epochSlotsFrozen hash true :: post ∧ .bankFrozen ∈ pre ∧
    hash ≠ frozenHash

variable {slot root : Nat} {frozenHash confirmedHash : Hash} {parent key : SlotHashKey}
  {t : Targets} {acc : Option Hash × Targets}

theorem lastSample_append (seen : List Signal) (signal : Signal) :
    lastSample (seen ++ [signal]) =
      match signal with
      | .epochSlotsFrozen hash _ => some hash
      | _ => lastSample seen := by
  rw [lastSample, foldl_append]
  rfl

variable {signal : Signal} {seen : List Signal}

/-- A hidden proof stays hidden until another hash is sampled. -/
theorem ProofHidden.append (h : ProofHidden frozenHash seen)
    (hsignal : ∀ hash isPopularPruned, signal = .epochSlotsFrozen hash isPopularPruned →
      hash = frozenHash) : ProofHidden frozenHash (seen ++ [signal]) := by
  obtain ⟨pre, post, rfl, hfirst, hproof, hlast, hpost⟩ := h
  refine ⟨pre, post ++ [signal], by simp, hfirst, hproof, hlast, ?_⟩
  intro hash isPopularPruned hmem
  rcases mem_append.mp hmem with hmem | hmem
  · exact hpost hash isPopularPruned hmem
  · exact hsignal hash isPopularPruned (mem_singleton.mp hmem).symm

theorem ProofHidden.lastSample (h : ProofHidden frozenHash seen) :
    lastSample seen = some frozenHash := by
  obtain ⟨pre, post, rfl, -, -, hlast, hpost⟩ := h
  -- from the right: a sample of `post` names the hash, another signal changes nothing
  induction post using reverseRecOn with
  | nil =>
    rw [lastSample_append]
    exact hlast
  | append_singleton post signal ih =>
    have ih' := ih (fun hash p hmem => hpost hash p (mem_append_left _ hmem))
    rw [← cons_append, ← append_assoc, lastSample_append]
    cases signal with
    | epochSlotsFrozen hash p => rw [hpost hash p (by simp)]
    | bankFrozen => exact ih'
    | duplicate => exact ih'
    | duplicateConfirmed => exact ih'

/-! ## Verdicts -/

variable {forkChoice : HeaviestSubtreeForkChoice}

/-- The block is in the fork choice and not duplicate confirmed. -/
structure Open (key : SlotHashKey) (forkChoice : HeaviestSubtreeForkChoice) : Prop where
  consistent : Consistent forkChoice
  known : forkChoice.infos key ≠ none
  unconfirmed : forkChoice.infos.confirmed key = false

/-- The block is marked invalid. -/
structure Rejected (key : SlotHashKey) (forkChoice : HeaviestSubtreeForkChoice) : Prop where
  consistent : Consistent forkChoice
  invalid : forkChoice.infos.Invalid key

/-- The block is duplicate confirmed and a candidate. -/
structure Accepted (key : SlotHashKey) (forkChoice : HeaviestSubtreeForkChoice) : Prop where
  consistent : Consistent forkChoice
  valid : forkChoice.infos.Valid key

/-- The verdict of the confirmed hash on the block. -/
def Judged (confirmedHash : Hash) (key : SlotHashKey) (t : Targets) : Prop :=
  if confirmedHash = key.hash then
    Accepted key t.forkChoice ∧ t.duplicateSlotsToRepair key.slot = none
  else Rejected key t.forkChoice ∧ t.duplicateSlotsToRepair key.slot = some confirmedHash

theorem Rejected.open (h : Rejected key forkChoice) : Open key forkChoice := by
  obtain ⟨info, hinfo, hconfirmed, -⟩ := h.invalid
  exact ⟨h.consistent, by rw [hinfo]; exact Option.some_ne_none info,
    (ForkChoice.Infos.confirmed_of_eq hinfo).trans hconfirmed⟩

theorem Open.isDuplicateConfirmed (h : Open key forkChoice) :
    isDuplicateConfirmed forkChoice key = some false := by
  obtain ⟨info, hinfo⟩ := Option.ne_none_iff_exists'.mp h.known
  have hget : forkChoice.forkInfos.get? key = some info := hinfo
  have hconfirmed : info.isDuplicateConfirmed = false :=
    (ForkChoice.Infos.confirmed_of_eq hinfo).symm.trans h.unconfirmed
  rw [Repair.isDuplicateConfirmed, hget, Option.map_some, hconfirmed]

/-- A block that is frozen: only the confirmed hash confirms it. -/
def Ready (confirmedHash : Hash) (seen : List Signal) (key : SlotHashKey)
    (forkChoice : HeaviestSubtreeForkChoice) : Prop :=
  Open key forkChoice ∨
    .duplicateConfirmed ∈ seen ∧ confirmedHash = key.hash ∧ Accepted key forkChoice

namespace Ready

section

variable (h : Ready confirmedHash seen key forkChoice)
include h

theorem consistent : Consistent forkChoice := by
  rcases h with hopen | ⟨-, -, haccepted⟩
  · exact hopen.consistent
  · exact haccepted.consistent

theorem known : forkChoice.infos key ≠ none := by
  rcases h with hopen | ⟨-, -, -, info, hinfo, -⟩
  · exact hopen.known
  · rw [hinfo]
    exact Option.some_ne_none info

theorem open_of_ne (hne : confirmedHash ≠ key.hash) :
    Open key forkChoice := by
  rcases h with hopen | ⟨-, heq, -⟩
  · exact hopen
  · exact absurd heq hne

theorem open_of_not_mem (hseen : .duplicateConfirmed ∉ seen) : Open key forkChoice := by
  rcases h with hopen | ⟨hmem, -, -⟩
  · exact hopen
  · exact absurd hmem hseen

/-- The fork choice confirms no other hash than the tracker. -/
theorem accepted_of_isDuplicateConfirmed
    (hconfirmed : isDuplicateConfirmed forkChoice key = some true) :
    .duplicateConfirmed ∈ seen ∧ confirmedHash = key.hash ∧ Accepted key forkChoice := by
  rcases h with hopen | haccepted
  · rw [hopen.isDuplicateConfirmed] at hconfirmed
    cases hconfirmed
  · exact haccepted

end

/-- So the hash a state is built with is that of the tracker. -/
theorem getDuplicateConfirmedHashFromState_eq {trackers : SlotTrackers}
    (h : Ready confirmedHash seen ⟨slot, frozenHash⟩ forkChoice)
    (htracked : trackers.duplicateConfirmedSlots slot =
      if .duplicateConfirmed ∈ seen then some confirmedHash else none) :
    getDuplicateConfirmedHashFromState slot trackers forkChoice (some frozenHash) =
      .ok (trackers.duplicateConfirmedSlots slot) := by
  unfold getDuplicateConfirmedHashFromState getDuplicateConfirmedHash
  dsimp only
  rcases hconfirmed : isDuplicateConfirmed forkChoice ⟨slot, frozenHash⟩ with _ | _ | _
  · rfl
  · rfl
  · obtain ⟨hmem, heq, -⟩ := h.accepted_of_isDuplicateConfirmed hconfirmed
    rw [htracked, if_pos hmem, heq]
    rfl

end Ready

theorem Judged.ready (h : Judged confirmedHash key t)
    (hseen : .duplicateConfirmed ∈ seen) : Ready confirmedHash seen key t.forkChoice := by
  unfold Judged at h
  split at h
  · next heq => exact .inr ⟨hseen, heq, h.1⟩
  · exact .inl h.1.open

/-! ## Changes -/

theorem liftForkChoice_returns {α : Type} {post : α → Prop} {x : Except ForkChoice.Panic α}
    (h : Succeeds post x) : Succeeds post (liftForkChoice x) := by
  cases x with
  | ok a => exact h
  | error e => exact h

@[simp] theorem recordFrozenHash_forkChoice (acc : Option Hash × Targets) :
    (recordFrozenHash slot acc).forkChoice = acc.2.forkChoice := by
  obtain ⟨_ | hash, t⟩ := acc <;> rfl

@[simp] theorem recordFrozenHash_duplicateSlotsToRepair (acc : Option Hash × Targets) :
    (recordFrozenHash slot acc).duplicateSlotsToRepair = acc.2.duplicateSlotsToRepair := by
  obtain ⟨_ | hash, t⟩ := acc <;> rfl

@[simp] theorem judged_recordFrozenHash (acc : Option Hash × Targets) :
    Judged confirmedHash key (recordFrozenHash slot acc) ↔ Judged confirmedHash key acc.2 := by
  simp only [Judged, recordFrozenHash_forkChoice, recordFrozenHash_duplicateSlotsToRepair]

/-- The hash of a bank that is in the fork choice is only noted. -/
theorem applyStateChange_bankFrozen (h : t.forkChoice.infos ⟨slot, frozenHash⟩ ≠ none)
    (noted : Option Hash) :
    ∃ noted', applyStateChange slot (noted, t) (.bankFrozen frozenHash) = .ok (noted', t) := by
  obtain ⟨info, hinfo⟩ := Option.ne_none_iff_exists'.mp h
  have hget : t.forkChoice.forkInfos.get? ⟨slot, frozenHash⟩ = some info := hinfo
  cases hconfirmed : info.isDuplicateConfirmed with
  | true => exact ⟨noted, by simp [applyStateChange, isDuplicateConfirmed, hget, hconfirmed]⟩
  | false =>
    exact ⟨some frozenHash, by simp [applyStateChange, isDuplicateConfirmed, hget, hconfirmed]⟩

section

variable (hslot : 0 < slot)
include hslot

theorem applyStateChange_markSlotDuplicate (h : Open ⟨slot, frozenHash⟩ acc.2.forkChoice) :
    Succeeds (fun acc' => Rejected ⟨slot, frozenHash⟩ acc'.2.forkChoice)
      (applyStateChange slot acc (.markSlotDuplicate frozenHash)) := by
  refine (liftForkChoice_returns
    (markForkInvalidCandidate_marks h.consistent hslot h.known h.unconfirmed)).bind ?_
  rintro forkChoice ⟨hconsistent, hinvalid⟩
  exact ⟨hconsistent, hinvalid⟩

theorem applyStateChange_duplicateConfirmedSlotMatchesCluster
    (h : Consistent acc.2.forkChoice) (hknown : acc.2.forkChoice.infos ⟨slot, frozenHash⟩ ≠ none) :
    Succeeds (fun acc' => Accepted ⟨slot, frozenHash⟩ acc'.2.forkChoice ∧
        acc'.2.duplicateSlotsToRepair slot = none)
      (applyStateChange slot acc (.duplicateConfirmedSlotMatchesCluster frozenHash)) := by
  refine (liftForkChoice_returns (markForkValidCandidate_marks h hslot hknown)).bind ?_
  rintro marked ⟨hconsistent, hvalid⟩
  exact ⟨⟨hconsistent, hvalid⟩, Function.update_self slot none acc.2.duplicateSlotsToRepair⟩

/-! ## Tables -/

theorem mark_and_repair (h : Open ⟨slot, frozenHash⟩ acc.2.forkChoice) (hash : Hash) :
    Succeeds (fun acc' => Rejected ⟨slot, frozenHash⟩ acc'.2.forkChoice ∧
        acc'.2.duplicateSlotsToRepair slot = some hash)
      ([.markSlotDuplicate frozenHash, .repairDuplicateConfirmedVersion hash].foldlM
        (applyStateChange slot) acc) := by
  rw [foldlM_cons]
  refine (applyStateChange_markSlotDuplicate hslot h).bind ?_
  intro acc' hrejected
  exact ⟨hrejected, Function.update_self slot (some hash) acc'.2.duplicateSlotsToRepair⟩

/-- A confirmed hash judges a block that is frozen. -/
theorem confirmed_judges (h : Ready confirmedHash seen ⟨slot, frozenHash⟩ acc.2.forkChoice) :
    Succeeds (fun acc' => Judged confirmedHash ⟨slot, frozenHash⟩ acc'.2)
      ((checkDuplicateConfirmedHashAgainstBankStatus confirmedHash (.frozen frozenHash)).foldlM
        (applyStateChange slot) acc) := by
  unfold checkDuplicateConfirmedHashAgainstBankStatus Judged
  by_cases hagrees : confirmedHash = frozenHash
  · simp only [if_pos hagrees]
    rw [foldlM_cons]
    exact (applyStateChange_duplicateConfirmedSlotMatchesCluster hslot h.consistent h.known).bind
      (fun acc' h => h)
  · simp only [if_neg hagrees]
    exact mark_and_repair hslot (h.open_of_ne hagrees) confirmedHash

/-- A sample judges a block that is frozen and not confirmed, unless it is flagged as pruned. -/
theorem sample_judges (acc : Option Hash × Targets)
    (h : Open ⟨slot, frozenHash⟩ acc.2.forkChoice) (hash : Hash) :
    ∃ changes, checkEpochSlotsHashAgainstBankStatus hash (.frozen frozenHash) false = .ok changes ∧
      Succeeds (fun acc' => Rejected ⟨slot, frozenHash⟩ acc'.2.forkChoice ∨
          hash = frozenHash ∧ acc' = acc)
        (changes.foldlM (applyStateChange slot) acc) := by
  by_cases hagrees : hash = frozenHash
  · exact ⟨[], if_pos hagrees.symm, .inr ⟨hagrees, rfl⟩⟩
  · refine ⟨_, if_neg (Ne.symm hagrees), ?_⟩
    exact (mark_and_repair hslot h hash).mono (fun acc' h => .inl h.1)

end

/-- A signal above the root is tracked; its changes are applied unless it was handled before. -/
theorem checkSlotAgreesWithCluster_returns {trackers : SlotTrackers} {update : SlotStateUpdate}
    {post : SlotTrackers × Targets → Prop} (hroot : root < slot)
    (hhandled : (trackUpdate slot trackers t.forkChoice update).2 = true →
      post ((trackUpdate slot trackers t.forkChoice update).1, t))
    (hchanges : (trackUpdate slot trackers t.forkChoice update).2 = false →
      ∃ changes, update.intoStateChanges slot = .ok changes ∧
        Succeeds (fun acc => post ((trackUpdate slot trackers t.forkChoice update).1,
            recordFrozenHash slot acc))
          (changes.foldlM (applyStateChange slot) (none, t))) :
    Succeeds post (checkSlotAgreesWithCluster slot root trackers t update) := by
  unfold checkSlotAgreesWithCluster
  rw [if_neg (Nat.not_le.mpr hroot)]
  dsimp only
  cases htracked : (trackUpdate slot trackers t.forkChoice update).2 with
  | true =>
    rw [if_pos rfl]
    exact hhandled htracked
  | false =>
    rw [if_neg Bool.false_ne_true]
    obtain ⟨changes, hinto, hreturns⟩ := hchanges htracked
    rw [hinto, ok_bind, applyStateChanges, bind_assoc]
    exact hreturns.bind (fun acc hacc => hacc)

/-! ## Signals before and after the bank is frozen -/

/-- The trackers hold what was seen of the slot. -/
structure Tracked (slot : Nat) (confirmedHash : Hash) (seen : List Signal)
    (trackers : SlotTrackers) : Prop where
  duplicate : slot ∈ trackers.duplicateSlotsTracker ↔ .duplicate ∈ seen
  confirmed : trackers.duplicateConfirmedSlots slot =
    if .duplicateConfirmed ∈ seen then some confirmedHash else none
  sampled : trackers.epochSlotsFrozenSlots slot = lastSample seen

/-- The bank is not frozen, and the fork choice does not know it. -/
structure Pending (slot : Nat) (frozenHash : Hash) (parent : SlotHashKey)
    (bankHash : Option Hash) (forkChoice : HeaviestSubtreeForkChoice) : Prop where
  bankHash : bankHash = none ∨ bankHash = some 0
  consistent : Consistent forkChoice
  new : forkChoice.infos ⟨slot, frozenHash⟩ = none
  parent_known : forkChoice.infos parent ≠ none

/-- The bank is frozen and the block judged by what is known. -/
structure Settled (slot : Nat) (frozenHash confirmedHash : Hash) (seen : List Signal)
    (t : Targets) : Prop where
  judged : .duplicateConfirmed ∈ seen → Judged confirmedHash ⟨slot, frozenHash⟩ t
  unjudged : .duplicateConfirmed ∉ seen → Open ⟨slot, frozenHash⟩ t.forkChoice
  proven : .duplicateConfirmed ∉ seen → .duplicate ∈ seen →
    Rejected ⟨slot, frozenHash⟩ t.forkChoice ∨ ProofHidden frozenHash seen

/-- What the replay stage holds after the signals `seen`. -/
structure History (slot : Nat) (frozenHash confirmedHash : Hash) (parent : SlotHashKey)
    (seen : List Signal) (st : ReplayState) : Prop where
  tracked : Tracked slot confirmedHash seen st.trackers
  pending : .bankFrozen ∉ seen →
    Pending slot frozenHash parent st.bankHash st.targets.forkChoice
  settled : .bankFrozen ∈ seen → st.bankHash = some frozenHash ∧
    Settled slot frozenHash confirmedHash seen st.targets

variable {st : ReplayState} {trackers : SlotTrackers}

namespace Tracked

variable (h : Tracked slot confirmedHash seen trackers)

include h

theorem confirmed_of_mem (hseen : .duplicateConfirmed ∈ seen) :
    trackers.duplicateConfirmedSlots slot = some confirmedHash := by
  rw [h.confirmed, if_pos hseen]

theorem confirmed_of_not_mem (hseen : .duplicateConfirmed ∉ seen) :
    trackers.duplicateConfirmedSlots slot = none := by
  rw [h.confirmed, if_neg hseen]

theorem bankFrozen : Tracked slot confirmedHash (seen ++ [.bankFrozen]) trackers :=
  ⟨by simp [h.duplicate], by simp [h.confirmed], by rw [h.sampled, lastSample_append]⟩

theorem insert_duplicate : Tracked slot confirmedHash (seen ++ [.duplicate])
    { trackers with duplicateSlotsTracker := insert slot trackers.duplicateSlotsTracker } :=
  ⟨by simp, by simp [h.confirmed], by rw [h.sampled, lastSample_append]⟩

theorem update_confirmed : Tracked slot confirmedHash (seen ++ [.duplicateConfirmed])
    { trackers with
      duplicateConfirmedSlots :=
        Function.update trackers.duplicateConfirmedSlots slot (some confirmedHash) } :=
  ⟨by simp [h.duplicate], by simp, by rw [h.sampled, lastSample_append]⟩

theorem update_sampled (hash : Hash) (isPopularPruned : Bool) :
    Tracked slot confirmedHash (seen ++ [.epochSlotsFrozen hash isPopularPruned])
      { trackers with
        epochSlotsFrozenSlots :=
          Function.update trackers.epochSlotsFrozenSlots slot (some hash) } :=
  ⟨by simp [h.duplicate], by simp [h.confirmed], by rw [lastSample_append]; simp⟩

end Tracked

theorem Pending.status {bankHash : Option Hash}
    (h : Pending slot frozenHash parent bankHash forkChoice) :
    BankStatus.new false bankHash = .unprocessed := by
  rcases h.bankHash with hnone | hzero
  · rw [hnone]
    rfl
  · rw [hzero]
    rfl

theorem status_frozen (hhash : frozenHash ≠ 0) :
    BankStatus.new false (some frozenHash) = .frozen frozenHash :=
  if_neg hhash

namespace Settled

theorem ready (h : Settled slot frozenHash confirmedHash seen t) :
    Ready confirmedHash seen ⟨slot, frozenHash⟩ t.forkChoice := by
  by_cases hseen : .duplicateConfirmed ∈ seen
  · exact (h.judged hseen).ready hseen
  · exact .inl (h.unjudged hseen)

theorem of_judged (h : Judged confirmedHash ⟨slot, frozenHash⟩ t)
    (hseen : .duplicateConfirmed ∈ seen) : Settled slot frozenHash confirmedHash seen t :=
  ⟨fun _ => h, fun hnot => absurd hseen hnot, fun hnot => absurd hseen hnot⟩

theorem of_rejected (h : Rejected ⟨slot, frozenHash⟩ t.forkChoice)
    (hseen : .duplicateConfirmed ∉ seen) : Settled slot frozenHash confirmedHash seen t :=
  ⟨fun hmem => absurd hmem hseen, fun _ => h.open, fun _ _ => .inl h⟩

/-- A signal that changes nothing: it is not the first proof, and not the first sample after a
    hidden one. -/
theorem append (h : Settled slot frozenHash confirmedHash seen t)
    (hconfirmed : signal ≠ .duplicateConfirmed)
    (hduplicate : .duplicateConfirmed ∉ seen → signal = .duplicate → .duplicate ∈ seen)
    (hsample : ∀ hash isPopularPruned, signal = .epochSlotsFrozen hash isPopularPruned →
      .duplicateConfirmed ∉ seen → ProofHidden frozenHash seen → hash = frozenHash) :
    Settled slot frozenHash confirmedHash (seen ++ [signal]) t := by
  have hiff : .duplicateConfirmed ∈ seen ++ [signal] ↔ .duplicateConfirmed ∈ seen := by
    simp [hconfirmed.symm]
  refine ⟨fun hmem => h.judged (hiff.mp hmem),
    fun hnot => h.unjudged (fun hm => hnot (hiff.mpr hm)), fun hnot hmem => ?_⟩
  have hunseen : .duplicateConfirmed ∉ seen := fun hm => hnot (hiff.mpr hm)
  have hbefore : .duplicate ∈ seen := by
    rcases mem_append.mp hmem with hmem | hmem
    · exact hmem
    · exact hduplicate hunseen (mem_singleton.mp hmem).symm
  refine (h.proven hunseen hbefore).imp_right (fun hidden => hidden.append ?_)
  intro hash isPopularPruned hsignal
  exact hsample hash isPopularPruned hsignal hunseen hidden

end Settled

namespace History

/-- The hash a state is built with is that of the tracker, frozen or not. -/
theorem getDuplicateConfirmedHash_eq (h : History slot frozenHash confirmedHash parent seen st)
    (hhash : frozenHash ≠ 0) :
    getDuplicateConfirmedHashFromState slot st.trackers st.targets.forkChoice
        (BankStatus.new false st.bankHash).bankHash =
      .ok (st.trackers.duplicateConfirmedSlots slot) := by
  by_cases hfrozen : .bankFrozen ∈ seen
  · obtain ⟨hbank, hsettled⟩ := h.settled hfrozen
    rw [hbank, status_frozen hhash]
    exact hsettled.ready.getDuplicateConfirmedHashFromState_eq h.tracked.confirmed
  · rw [(h.pending hfrozen).status]
    rfl

theorem of_pending (hfrozen : .bankFrozen ∉ seen) (hsignal : signal ≠ .bankFrozen)
    (htracked : Tracked slot confirmedHash (seen ++ [signal]) st.trackers)
    (hpending : Pending slot frozenHash parent st.bankHash st.targets.forkChoice) :
    History slot frozenHash confirmedHash parent (seen ++ [signal]) st :=
  ⟨htracked, fun _ => hpending, fun hmem => absurd hmem (by simp [hfrozen, hsignal.symm])⟩

theorem of_settled (hfrozen : .bankFrozen ∈ seen ++ [signal])
    (htracked : Tracked slot confirmedHash (seen ++ [signal]) st.trackers)
    (hbank : st.bankHash = some frozenHash)
    (hsettled : Settled slot frozenHash confirmedHash (seen ++ [signal]) st.targets) :
    History slot frozenHash confirmedHash parent (seen ++ [signal]) st :=
  ⟨htracked, fun hnot => absurd hfrozen hnot, fun _ => ⟨hbank, hsettled⟩⟩

end History

section Steps

variable (hroot : root < slot) (hhash : frozenHash ≠ 0)
  (h : History slot frozenHash confirmedHash parent seen st)

include hroot hhash h

/-- A proof marks the block once, unless a hash is confirmed. -/
theorem handle_duplicate :
    Succeeds (History slot frozenHash confirmedHash parent (seen ++ [.duplicate]))
      (handle slot root frozenHash confirmedHash parent st .duplicate) := by
  have hslot : 0 < slot := Nat.zero_lt_of_lt hroot
  have htracked := h.tracked.insert_duplicate
  unfold handle DuplicateState.newFromState
  dsimp only
  rw [h.getDuplicateConfirmedHash_eq hhash, ok_bind, ok_bind]
  refine Returns.bind ?_ (fun checked hchecked => hchecked)
  by_cases hfrozen : .bankFrozen ∈ seen
  · obtain ⟨hbank, hsettled⟩ := h.settled hfrozen
    have hfrozen' : .bankFrozen ∈ seen ++ [.duplicate] := mem_append_left _ hfrozen
    have hunchanged : (.duplicateConfirmed ∉ seen → .duplicate ∈ seen) →
        Settled slot frozenHash confirmedHash (seen ++ [.duplicate]) st.targets := fun hmem =>
      hsettled.append (by decide) (fun hunseen _ => hmem hunseen) (by simp)
    rw [hbank, status_frozen hhash]
    refine checkSlotAgreesWithCluster_returns hroot (fun hhandled => ?_) (fun _ => ⟨_, rfl, ?_⟩)
    · have hmem : .duplicate ∈ seen := h.tracked.duplicate.mp (of_decide_eq_true hhandled)
      exact .of_settled hfrozen' htracked rfl (hunchanged fun _ => hmem)
    · by_cases hseen : .duplicateConfirmed ∈ seen
      · rw [h.tracked.confirmed_of_mem hseen]
        exact .of_settled hfrozen' htracked rfl (hunchanged fun hnot => absurd hseen hnot)
      · rw [h.tracked.confirmed_of_not_mem hseen]
        refine (applyStateChange_markSlotDuplicate hslot (hsettled.unjudged hseen)).bind ?_
        intro acc hrejected
        refine .of_settled hfrozen' htracked rfl (.of_rejected ?_ (by simpa using hseen))
        rwa [recordFrozenHash_forkChoice]
  · have hpending := h.pending hfrozen
    rw [hpending.status]
    refine checkSlotAgreesWithCluster_returns hroot (fun _ => ?_) (fun _ => ⟨[], rfl, ?_⟩)
    · exact .of_pending hfrozen (by simp) htracked hpending
    · exact .of_pending hfrozen (by simp) htracked hpending

/-- The first time a hash is confirmed it judges the block; a block it already confirmed is left. -/
theorem handle_duplicateConfirmed :
    Succeeds (History slot frozenHash confirmedHash parent (seen ++ [.duplicateConfirmed]))
      (handle slot root frozenHash confirmedHash parent st .duplicateConfirmed) := by
  have hslot : 0 < slot := Nat.zero_lt_of_lt hroot
  have htracked := h.tracked.update_confirmed
  have hseen' : .duplicateConfirmed ∈ seen ++ [.duplicateConfirmed] := by simp
  refine Returns.bind ?_ (fun checked hchecked => hchecked)
  by_cases hfrozen : .bankFrozen ∈ seen
  · obtain ⟨hbank, hsettled⟩ := h.settled hfrozen
    have hfrozen' : .bankFrozen ∈ seen ++ [.duplicateConfirmed] := mem_append_left _ hfrozen
    rw [hbank, DuplicateConfirmedState.newFromState, status_frozen hhash]
    refine checkSlotAgreesWithCluster_returns hroot (fun hhandled => ?_) (fun _ => ?_)
    · have hconfirmed : isDuplicateConfirmed st.targets.forkChoice ⟨slot, frozenHash⟩ = some true :=
        beq_iff_eq.mp hhandled
      obtain ⟨hseen, -, -⟩ := hsettled.ready.accepted_of_isDuplicateConfirmed hconfirmed
      exact .of_settled hfrozen' htracked rfl (.of_judged (hsettled.judged hseen) hseen')
    · refine ⟨_, rfl, (confirmed_judges hslot hsettled.ready).mono ?_⟩
      intro acc hjudged
      exact .of_settled hfrozen' htracked rfl
        (.of_judged ((judged_recordFrozenHash acc).mpr hjudged) hseen')
  · have hpending := h.pending hfrozen
    rw [DuplicateConfirmedState.newFromState, hpending.status]
    refine checkSlotAgreesWithCluster_returns hroot (fun _ => ?_) (fun _ => ⟨[], rfl, ?_⟩)
    · exact .of_pending hfrozen (by simp) htracked hpending
    · exact .of_pending hfrozen (by simp) htracked hpending

/-- A sample of another hash marks the block, unless a hash is confirmed. -/
theorem handle_epochSlotsFrozen (hash : Hash) (isPopularPruned : Bool)
    (hpruned : .bankFrozen ∈ seen → isPopularPruned = true → hash = frozenHash) :
    Succeeds (History slot frozenHash confirmedHash parent
        (seen ++ [.epochSlotsFrozen hash isPopularPruned]))
      (handle slot root frozenHash confirmedHash parent st
        (.epochSlotsFrozen hash isPopularPruned)) := by
  have hslot : 0 < slot := Nat.zero_lt_of_lt hroot
  have htracked := h.tracked.update_sampled hash isPopularPruned
  unfold handle EpochSlotsFrozenState.newFromState
  dsimp only
  rw [h.getDuplicateConfirmedHash_eq hhash, ok_bind, ok_bind]
  refine Returns.bind ?_ (fun checked hchecked => hchecked)
  by_cases hfrozen : .bankFrozen ∈ seen
  · obtain ⟨hbank, hsettled⟩ := h.settled hfrozen
    have hfrozen' : .bankFrozen ∈ seen ++ [.epochSlotsFrozen hash isPopularPruned] :=
      mem_append_left _ hfrozen
    have hunchanged : (.duplicateConfirmed ∉ seen → ProofHidden frozenHash seen →
        hash = frozenHash) → Settled slot frozenHash confirmedHash
          (seen ++ [.epochSlotsFrozen hash isPopularPruned]) st.targets := by
      intro hsame
      refine hsettled.append (by simp) (by simp) ?_
      intro hash' p' hsignal
      cases hsignal
      exact hsame
    rw [hbank, status_frozen hhash]
    refine checkSlotAgreesWithCluster_returns hroot (fun hhandled => ?_) (fun _ => ?_)
    · -- the same sample again
      refine .of_settled hfrozen' htracked rfl (hunchanged fun _ hidden => ?_)
      have hlast : st.trackers.epochSlotsFrozenSlots slot = some hash := beq_iff_eq.mp hhandled
      rw [h.tracked.sampled, hidden.lastSample] at hlast
      exact (Option.some.inj hlast).symm
    · by_cases hseen : .duplicateConfirmed ∈ seen
      · have hnone : SlotStateUpdate.intoStateChanges (.epochSlotsFrozen
            ⟨hash, st.trackers.duplicateConfirmedSlots slot, .frozen frozenHash, isPopularPruned⟩)
            slot = .ok [] := by
          rw [h.tracked.confirmed_of_mem hseen]
          cases isPopularPruned with
          | false => rfl
          | true => exact if_pos (hpruned hfrozen rfl).symm
        exact ⟨[], hnone,
          .of_settled hfrozen' htracked rfl (hunchanged fun hnot => absurd hseen hnot)⟩
      · rw [h.tracked.confirmed_of_not_mem hseen]
        have hseen' : .duplicateConfirmed ∉ seen ++ [.epochSlotsFrozen hash isPopularPruned] := by
          simpa using hseen
        cases isPopularPruned with
        | true =>
          have hsame := hpruned hfrozen rfl
          exact ⟨[], if_pos hsame.symm,
            .of_settled hfrozen' htracked rfl (hunchanged fun _ _ => hsame)⟩
        | false =>
          obtain ⟨changes, hchanges, hreturns⟩ :=
            sample_judges hslot (none, st.targets) (hsettled.unjudged hseen) hash
          refine ⟨changes, hchanges, hreturns.mono ?_⟩
          rintro acc (hrejected | ⟨hsame, rfl⟩)
          · refine .of_settled hfrozen' htracked rfl (.of_rejected ?_ hseen')
            rwa [recordFrozenHash_forkChoice]
          · exact .of_settled hfrozen' htracked rfl (hunchanged fun _ _ => hsame)
  · have hpending := h.pending hfrozen
    rw [hpending.status]
    refine checkSlotAgreesWithCluster_returns hroot (fun _ => ?_) (fun _ => ?_)
    · exact .of_pending hfrozen (by simp) htracked hpending
    · cases isPopularPruned with
      | false => exact ⟨[], rfl, .of_pending hfrozen (by simp) htracked hpending⟩
      | true =>
        -- the pruned slot is to be repaired, whatever its bank freezes with
        exact ⟨[.repairDuplicateConfirmedVersion hash], rfl,
          .of_pending hfrozen (by simp) htracked hpending⟩

omit hroot hhash in
/-- The bank is put into the fork choice, or is there already. -/
theorem leaf_ready (hparent : parent.slot < slot) :
    Succeeds (fun forkChoice => Ready confirmedHash seen ⟨slot, frozenHash⟩ forkChoice ∧
        (.bankFrozen ∈ seen → forkChoice = st.targets.forkChoice))
      (st.targets.forkChoice.addNewLeafSlot ⟨slot, frozenHash⟩ (some parent)) := by
  by_cases hfrozen : .bankFrozen ∈ seen
  · have hready := (h.settled hfrozen).2.ready
    have hcontains : st.targets.forkChoice.containsBlock ⟨slot, frozenHash⟩ = true :=
      Option.isSome_iff_ne_none.mpr hready.known
    rw [addNewLeafSlot, if_pos hcontains]
    exact ⟨hready, fun _ => rfl⟩
  · have hpending := h.pending hfrozen
    refine (addNewLeafSlot_marks hpending.consistent hpending.new hpending.parent_known
      hparent).mono ?_
    rintro forkChoice ⟨hconsistent, hknown, hunconfirmed⟩
    exact ⟨.inl ⟨hconsistent, hknown, hunconfirmed⟩, fun hmem => absurd hmem hfrozen⟩

/-- A bank that is frozen is judged by the confirmed hash, or else by the sample, or else by the
    proof. -/
theorem handle_bankFrozen (hparent : parent.slot < slot) :
    Succeeds (History slot frozenHash confirmedHash parent (seen ++ [.bankFrozen]))
      (handle slot root frozenHash confirmedHash parent st .bankFrozen) := by
  have hslot : 0 < slot := Nat.zero_lt_of_lt hroot
  have htracked := h.tracked.bankFrozen
  have hfrozen' : .bankFrozen ∈ seen ++ [.bankFrozen] := by simp
  refine (liftForkChoice_returns (leaf_ready h hparent)).bind ?_
  rintro forkChoice ⟨hready, hsame⟩
  unfold BankFrozenState.newFromState getClusterConfirmedHashFromState
  rw [hready.getDuplicateConfirmedHashFromState_eq h.tracked.confirmed, ok_bind, ok_bind,
    if_neg hhash, ok_bind]
  refine Returns.bind ?_ (fun checked hchecked => hchecked)
  refine checkSlotAgreesWithCluster_returns hroot (fun hhandled => ?_) (fun _ => ?_)
  · cases hhandled
  obtain ⟨noted, hnoted⟩ :=
    applyStateChange_bankFrozen (t := { st.targets with forkChoice }) hready.known none
  by_cases hseen : .duplicateConfirmed ∈ seen
  · rw [h.tracked.confirmed_of_mem hseen]
    refine ⟨_, rfl, ?_⟩
    rw [foldlM_cons, hnoted, ok_bind]
    refine (confirmed_judges hslot hready).mono (fun acc hjudged => ?_)
    exact .of_settled hfrozen' htracked rfl
      (.of_judged ((judged_recordFrozenHash acc).mpr hjudged) (by simpa using hseen))
  · have hseen' : .duplicateConfirmed ∉ seen ++ [.bankFrozen] := by simpa using hseen
    have hopen := hready.open_of_not_mem hseen
    rw [h.tracked.confirmed_of_not_mem hseen]
    cases hsample : st.trackers.epochSlotsFrozenSlots slot with
    | some hash =>
      obtain ⟨changes, hchanges, hreturns⟩ :=
        sample_judges hslot (noted, { st.targets with forkChoice }) hopen hash
      refine ⟨.bankFrozen frozenHash :: changes, ?_, ?_⟩
      · show (checkEpochSlotsHashAgainstBankStatus hash (.frozen frozenHash) false >>= _) = _
        rw [hchanges]
        rfl
      · rw [foldlM_cons, hnoted, ok_bind]
        refine hreturns.mono ?_
        rintro acc (hrejected | ⟨hagrees, rfl⟩)
        · refine .of_settled hfrozen' htracked rfl (.of_rejected ?_ hseen')
          rwa [recordFrozenHash_forkChoice]
        · refine .of_settled hfrozen' htracked rfl ⟨fun hmem => absurd hmem hseen', fun _ => ?_,
            fun _ hproof => ?_⟩
          · rwa [recordFrozenHash_forkChoice]
          · rw [recordFrozenHash_forkChoice]
            have hbefore : .duplicate ∈ seen := by simpa using hproof
            by_cases hfrozen : .bankFrozen ∈ seen
            · rw [hsame hfrozen]
              exact ((h.settled hfrozen).2.proven hseen hbefore).imp_right
                (fun hidden => hidden.append (by simp))
            · refine .inr ⟨seen, [], rfl, hfrozen, hbefore, ?_, by simp⟩
              rw [← h.tracked.sampled, hsample, hagrees]
    | none =>
      refine ⟨_, rfl, ?_⟩
      rw [foldlM_cons, hnoted, ok_bind]
      by_cases hproof : slot ∈ st.trackers.duplicateSlotsTracker
      · simp only [hproof, decide_true, if_true, foldlM_cons]
        refine (applyStateChange_markSlotDuplicate hslot hopen).bind (fun acc hrejected => ?_)
        refine .of_settled hfrozen' htracked rfl (.of_rejected ?_ hseen')
        rwa [recordFrozenHash_forkChoice]
      · simp only [hproof, decide_false, Bool.false_eq_true, if_false]
        refine .of_settled hfrozen' htracked rfl ⟨fun hmem => absurd hmem hseen', fun _ => ?_,
          fun _ hmem => absurd (h.tracked.duplicate.mpr (by simpa using hmem)) hproof⟩
        rwa [recordFrozenHash_forkChoice]

end Steps

/-! ## Whole runs -/

/-- Nothing is known of the slot, and its parent is in the fork choice. -/
structure Fresh (slot root : Nat) (frozenHash : Hash) (parent : SlotHashKey) (st : ReplayState) :
    Prop where
  root_lt : root < slot
  frozenHash_ne : frozenHash ≠ 0
  parent_lt : parent.slot < slot
  duplicate : slot ∉ st.trackers.duplicateSlotsTracker
  confirmed : st.trackers.duplicateConfirmedSlots slot = none
  sampled : st.trackers.epochSlotsFrozenSlots slot = none
  pending : Pending slot frozenHash parent st.bankHash st.targets.forkChoice

/-- Nothing is known of any slot but what the fork choice holds. -/
def ReplayState.unseen (forkChoice : HeaviestSubtreeForkChoice) : ReplayState where
  trackers := ⟨∅, fun _ => none, fun _ => none⟩
  targets := ⟨forkChoice, fun _ => none, fun _ => none, [], fun _ => none⟩
  bankHash := none

/-- A slot above the root of a fork choice that was just made. -/
theorem fresh_unseen_new (slot root : Nat) (frozenHash : Hash) (parent : SlotHashKey)
    (hroot : root < slot) (hhash : frozenHash ≠ 0) (hparent : parent.slot < slot) :
    ∃ forkChoice, new parent = .ok forkChoice ∧
      Fresh slot root frozenHash parent (.unseen forkChoice) := by
  obtain ⟨forkChoice, hnew, hconsistent, hinfos⟩ := new_marks parent
  refine ⟨forkChoice, hnew, hroot, hhash, hparent, Finset.notMem_empty slot, rfl, rfl, .inl rfl,
    hconsistent, ?_, (hinfos parent).mpr rfl⟩
  by_contra hknown
  rw [← (hinfos ⟨slot, frozenHash⟩).mp hknown] at hparent
  exact Nat.lt_irrefl slot hparent

theorem Fresh.history (h : Fresh slot root frozenHash parent st) :
    History slot frozenHash confirmedHash parent [] st :=
  ⟨⟨by simp [h.duplicate], by simp [h.confirmed], h.sampled⟩, fun _ => h.pending, by simp⟩

variable {signals : List Signal}

theorem run_history (h : Fresh slot root frozenHash parent st)
    (hpruned : ¬ PrunedAfterFrozen frozenHash signals) :
    Succeeds (History slot frozenHash confirmedHash parent signals)
      (run slot root frozenHash confirmedHash parent st signals) := by
  refine Returns.foldlM_seen ?_ h.history
  intro seen signal rest st' hsignals hst'
  cases signal with
  | bankFrozen => exact handle_bankFrozen h.root_lt h.frozenHash_ne hst' h.parent_lt
  | duplicate => exact handle_duplicate h.root_lt h.frozenHash_ne hst'
  | duplicateConfirmed => exact handle_duplicateConfirmed h.root_lt h.frozenHash_ne hst'
  | epochSlotsFrozen hash isPopularPruned =>
    refine handle_epochSlotsFrozen h.root_lt h.frozenHash_ne hst' hash isPopularPruned ?_
    rintro hfrozen rfl
    by_contra hne
    exact hpruned ⟨seen, rest, hash, hsignals, hfrozen, hne⟩

/-- Whatever the order of the signals, none stops the replay stage, and once the bank is frozen the
    block is judged: by the confirmed hash if there is one, by a proof otherwise, unless the proof
    is hidden. -/
theorem run_verdict (confirmedHash : Hash) (h : Fresh slot root frozenHash parent st)
    {signals : List Signal}
    (hpruned : ¬ PrunedAfterFrozen frozenHash signals) (hfrozen : .bankFrozen ∈ signals)
    (hproof : .duplicateConfirmed ∉ signals → ¬ ProofHidden frozenHash signals) :
    ∃ st', run slot root frozenHash confirmedHash parent st signals = .ok st' ∧
      (.duplicateConfirmed ∈ signals → confirmedHash = frozenHash →
        st'.targets.forkChoice.infos.Valid ⟨slot, frozenHash⟩ ∧
        st'.targets.duplicateSlotsToRepair slot = none) ∧
      (.duplicateConfirmed ∈ signals → confirmedHash ≠ frozenHash →
        st'.targets.forkChoice.infos.Invalid ⟨slot, frozenHash⟩ ∧
        st'.targets.duplicateSlotsToRepair slot = some confirmedHash) ∧
      (.duplicateConfirmed ∉ signals → .duplicate ∈ signals →
        st'.targets.forkChoice.infos.Invalid ⟨slot, frozenHash⟩) := by
  obtain ⟨st', hrun, hhistory⟩ := (run_history h hpruned).exists_ok
  obtain ⟨-, hsettled⟩ := hhistory.settled hfrozen
  refine ⟨st', hrun, fun hmem hagrees => ?_, fun hmem hdiffers => ?_, fun hnot hmem => ?_⟩
  · have hjudged := hsettled.judged hmem
    rw [Judged, if_pos hagrees] at hjudged
    exact ⟨hjudged.1.valid, hjudged.2⟩
  · have hjudged := hsettled.judged hmem
    rw [Judged, if_neg hdiffers] at hjudged
    exact ⟨hjudged.1.invalid, hjudged.2⟩
  · rcases hsettled.proven hnot hmem with hrejected | hidden
    · exact hrejected.invalid
    · exact absurd hidden (hproof hnot)

/-- The bank of slot 2 freezes with hash 5 after a proof, and nothing is sampled. -/
theorem run_verdict_proof_then_frozen :
    ∃ st st', Fresh 2 1 5 ⟨1, 1⟩ st ∧
      run 2 1 5 7 ⟨1, 1⟩ st [.duplicate, .bankFrozen] = .ok st' ∧
      st'.targets.forkChoice.infos.Invalid ⟨2, 5⟩ := by
  obtain ⟨forkChoice, -, hfresh⟩ :=
    fresh_unseen_new 2 1 5 ⟨1, 1⟩ (by decide) (by decide) (by decide)
  have hpruned : ¬ PrunedAfterFrozen 5 [.duplicate, .bankFrozen] := by
    rintro ⟨pre, post, hash, hsignals, -⟩
    have hmem : Signal.epochSlotsFrozen hash true ∈ [Signal.duplicate, .bankFrozen] := by
      rw [hsignals]
      simp
    simp at hmem
  have hproof : ¬ ProofHidden 5 [.duplicate, .bankFrozen] := by
    intro hidden
    have hlast := hidden.lastSample
    cases hlast
  obtain ⟨st', hrun, -, -, hinvalid⟩ := run_verdict 7 hfresh hpruned (by simp) (fun _ => hproof)
  exact ⟨.unseen forkChoice, st', hfresh, hrun, hinvalid (by simp) (by simp)⟩

/-- What two runs on slot 2 of a new fork choice leave: the slot of the invalid ancestor of the
    block with hash 5, and the version to repair. -/
def outcomeOnNew (confirmedHash : Hash) (signals : List Signal) :
    Option (Option Nat × Option Hash) := do
  let forkChoice ← (new ⟨1, 1⟩).toOption
  let st ← (run 2 1 5 confirmedHash ⟨1, 1⟩ (.unseen forkChoice) signals).toOption
  return (st.targets.forkChoice.latestInvalidAncestor ⟨2, 5⟩, st.targets.duplicateSlotsToRepair 2)

theorem of_outcomeOnNew {latest : Option Nat} {repair : Option Hash}
    (h : outcomeOnNew confirmedHash signals = some (latest, repair)) :
    ∃ st st', Fresh 2 1 5 ⟨1, 1⟩ st ∧ run 2 1 5 confirmedHash ⟨1, 1⟩ st signals = .ok st' ∧
      st'.targets.forkChoice.latestInvalidAncestor ⟨2, 5⟩ = latest ∧
      st'.targets.duplicateSlotsToRepair 2 = repair := by
  obtain ⟨forkChoice, hnew, hfresh⟩ :=
    fresh_unseen_new 2 1 5 ⟨1, 1⟩ (by decide) (by decide) (by decide)
  unfold outcomeOnNew at h
  rw [hnew] at h
  cases hrun : run 2 1 5 confirmedHash ⟨1, 1⟩ (.unseen forkChoice) signals with
  | error e =>
    simp [hrun, Except.toOption] at h
  | ok st' =>
    simp only [Except.toOption, hrun, Option.bind_eq_bind, Option.bind_some, Option.pure_def,
      Option.some.injEq, Prod.mk.injEq] at h
    exact ⟨.unseen forkChoice, st', hfresh, hrun, h.1, h.2⟩

/-- Two orders of signals that leave the wrong verdict.  A proof, a sample of hash 5, and then the
    bank freezes with hash 5: the block has no invalid ancestor, not even itself.  Hash 5 confirmed,
    the bank frozen with it, and then a sample of hash 7 that is flagged as pruned: the version with
    hash 7 is to be repaired. -/
theorem run_wrong_verdict :
    (∃ st st', Fresh 2 1 5 ⟨1, 1⟩ st ∧
      run 2 1 5 7 ⟨1, 1⟩ st [.duplicate, .epochSlotsFrozen 5 false, .bankFrozen] = .ok st' ∧
      st'.targets.forkChoice.latestInvalidAncestor ⟨2, 5⟩ = none) ∧
    (∃ st st', Fresh 2 1 5 ⟨1, 1⟩ st ∧
      run 2 1 5 5 ⟨1, 1⟩ st [.duplicateConfirmed, .bankFrozen, .epochSlotsFrozen 7 true] = .ok st' ∧
      st'.targets.duplicateSlotsToRepair 2 = some 7) := by
  refine ⟨?_, ?_⟩
  · obtain ⟨st, st', hfresh, hrun, hlatest, -⟩ := of_outcomeOnNew
      (show outcomeOnNew 7 [.duplicate, .epochSlotsFrozen 5 false, .bankFrozen] = some (none, none)
        by decide +kernel)
    exact ⟨st, st', hfresh, hrun, hlatest⟩
  · obtain ⟨st, st', hfresh, hrun, -, hrepair⟩ := of_outcomeOnNew
      (show outcomeOnNew 5 [.duplicateConfirmed, .bankFrozen, .epochSlotsFrozen 7 true] =
        some (none, some 7) by decide +kernel)
    exact ⟨st, st', hfresh, hrun, hrepair⟩

end Agave.Repair

