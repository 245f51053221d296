/-
  Agave.VoteProgram.Proposal

  `check_and_filter_proposed_vote_state` (`programs/vote/src/vote_state/mod.rs`): a proposed tower
  against the slot hashes.

  The loop walks the proposed root and then the proposed slots, oldest first, along the slot hashes,
  which are stored newest first.  It keeps the source's two indices; `Cursor.step` is its body and
  `Cursor.Moves` lists what a step that does not return can do.
-/

import Agave.Lib.Outcome
import Agave.VoteProgram.State

namespace Agave.VoteProgram

open Agave.Lib List

/-- An entry of the `SlotHashes` sysvar. -/
abbrev SlotHash := Nat × Hash

/-- A proposed root older than the slot hashes is overwritten by the latest vote
    of the state at or below it, or else by the root of the state. -/
def overwriteProposedRoot (voteState : VoteState) (earliest : Nat) : Option Nat → Option Nat
  | none => none
  | some root =>
    if root < earliest then
      match voteState.votes.reverse.find? (fun v => v.slot ≤ root) with
      | some vote => some vote.slot
      | none => voteState.rootSlot
    else some root

/-- The variables of the loop. -/
structure Cursor where
  rootToCheck : Option Nat
  proposedLockoutsIndex : Nat
  slotHashesIndex : Nat
  indicesToFilter : List Nat
deriving DecidableEq

variable {c c' : Cursor} {lockouts : List Lockout}

namespace Cursor

variable (voteState : VoteState) (lockouts : List Lockout) (slotHashes : List SlotHash)
  (earliest : Nat)

/-- The condition of the loop. -/
def Continues (c : Cursor) : Prop :=
  c.proposedLockoutsIndex < lockouts.length ∧ 0 < c.slotHashesIndex

instance (c : Cursor) : Decidable (c.Continues lockouts) := inferInstanceAs (Decidable (_ ∧ _))

/-- The test of a proposed vote slot against the one before it. -/
def NotOrdered (c : Cursor) (proposedVoteSlot : Nat) : Prop :=
  c.rootToCheck.isNone ∧ 0 < c.proposedLockoutsIndex ∧
    ∃ previous ∈ lockouts[c.proposedLockoutsIndex - 1]?, proposedVoteSlot ≤ previous.slot

instance (c : Cursor) (slot : Nat) : Decidable (c.NotOrdered lockouts slot) :=
  inferInstanceAs (Decidable (_ ∧ _ ∧ _))

/-- A slot below every slot hash.  If it is a vote that the state does not have,
    it is to be filtered out. -/
def stepTooOld (c : Cursor) (proposedVoteSlot : Nat) : Except Stop Cursor :=
  if earliest ≤ proposedVoteSlot then .error (.err .assertionFailed)
  else match c.rootToCheck with
    | some newProposedRoot =>
      if earliest ≤ newProposedRoot then .error (.err .assertionFailed)
      else .ok { c with rootToCheck := none }
    | none =>
      .ok { c with
        proposedLockoutsIndex := c.proposedLockoutsIndex + 1
        indicesToFilter :=
          if voteState.containsSlot proposedVoteSlot then c.indicesToFilter
          else c.indicesToFilter ++ [c.proposedLockoutsIndex] }

/-- The slot hash under the cursor is the one of the proposed slot. -/
def stepFound (c : Cursor) : Cursor :=
  match c.rootToCheck with
  | some _ => { c with rootToCheck := none }
  | none =>
    { c with
      proposedLockoutsIndex := c.proposedLockoutsIndex + 1
      slotHashesIndex := c.slotHashesIndex - 1 }

/-- The body of the loop. -/
def step (c : Cursor) : Except Stop Cursor :=
  match lockouts[c.proposedLockoutsIndex]?, slotHashes[c.slotHashesIndex - 1]? with
  | some lockout, some (ancestorSlot, _) =>
    let proposedVoteSlot := c.rootToCheck.getD lockout.slot
    if c.NotOrdered lockouts proposedVoteSlot then .error (.err .slotsNotOrdered)
    else match compare proposedVoteSlot ancestorSlot with
      | .lt =>
        if c.slotHashesIndex = slotHashes.length then c.stepTooOld voteState earliest proposedVoteSlot
        else if c.rootToCheck.isSome then .error (.err .rootOnDifferentFork)
        else .error (.err .slotsMismatch)
      | .gt => .ok { c with slotHashesIndex := c.slotHashesIndex - 1 }
      | .eq => .ok c.stepFound
  | _, _ => .error .indexOutOfBounds

/-- What a step that does not return can do. -/
inductive Moves : Cursor → Cursor → Prop
  | rootTooOld {c : Cursor} {root : Nat} (hroot : c.rootToCheck = some root)
      (hfirst : c.slotHashesIndex = slotHashes.length) (hold : root < earliest) :
      Moves c { c with rootToCheck := none }
  | rootFound {c : Cursor} {root : Nat} {hash : Hash} (hroot : c.rootToCheck = some root)
      (hhash : slotHashes[c.slotHashesIndex - 1]? = some (root, hash)) :
      Moves c { c with rootToCheck := none }
  | voteTooOld {c : Cursor} {lockout : Lockout} (hroot : c.rootToCheck = none)
      (hlockout : lockouts[c.proposedLockoutsIndex]? = some lockout)
      (hordered : ¬ c.NotOrdered lockouts lockout.slot)
      (hfirst : c.slotHashesIndex = slotHashes.length) (hold : lockout.slot < earliest) :
      Moves c { c with
        proposedLockoutsIndex := c.proposedLockoutsIndex + 1
        indicesToFilter :=
          if voteState.containsSlot lockout.slot then c.indicesToFilter
          else c.indicesToFilter ++ [c.proposedLockoutsIndex] }
  | voteFound {c : Cursor} {lockout : Lockout} {hash : Hash} (hroot : c.rootToCheck = none)
      (hlockout : lockouts[c.proposedLockoutsIndex]? = some lockout)
      (hordered : ¬ c.NotOrdered lockouts lockout.slot)
      (hhash : slotHashes[c.slotHashesIndex - 1]? = some (lockout.slot, hash)) :
      Moves c { c with
        proposedLockoutsIndex := c.proposedLockoutsIndex + 1
        slotHashesIndex := c.slotHashesIndex - 1 }
  | newer {c : Cursor} {lockout : Lockout} {ancestor : SlotHash}
      (hlockout : lockouts[c.proposedLockoutsIndex]? = some lockout)
      (hhash : slotHashes[c.slotHashesIndex - 1]? = some ancestor)
      (hnewer : ancestor.1 < c.rootToCheck.getD lockout.slot) :
      Moves c { c with slotHashesIndex := c.slotHashesIndex - 1 }

theorem step_moves (h : c.step voteState lockouts slotHashes earliest = .ok c') :
    Moves voteState lockouts slotHashes earliest c c' := by
  obtain ⟨rootToCheck, lockoutsIndex, hashesIndex, filtered⟩ := c
  simp only [step] at h
  split at h
  case h_2 => cases h
  case h_1 lockout ancestorSlot hash hlockout hhash =>
    split at h
    · cases h
    · rename_i hordered
      cases hcmp : compare (rootToCheck.getD lockout.slot) ancestorSlot with
      | lt =>
        simp only [hcmp] at h
        split at h
        · rename_i hfirst
          simp only [stepTooOld] at h
          split at h
          · cases h
          · rename_i hold
            have hold := Nat.lt_of_not_le hold
            cases rootToCheck with
            | none =>
              cases h
              exact .voteTooOld rfl hlockout hordered hfirst hold
            | some root =>
              rw [Option.getD_some] at hold
              simp only [Nat.not_le.mpr hold, if_false] at h
              cases h
              exact .rootTooOld rfl hfirst hold
        · split at h <;> cases h
      | gt =>
        simp only [hcmp] at h
        cases h
        exact .newer hlockout hhash (Nat.compare_eq_gt.mp hcmp)
      | eq =>
        simp only [hcmp] at h
        have hfound := Nat.compare_eq_eq.mp hcmp
        cases rootToCheck with
        | none =>
          cases h
          exact .voteFound rfl hlockout hordered (hfound ▸ hhash)
        | some root =>
          cases h
          exact .rootFound rfl (hfound ▸ hhash)

/-- What the loop has left to do. -/
def remaining (c : Cursor) : Nat :=
  (lockouts.length - c.proposedLockoutsIndex) + c.slotHashesIndex + c.rootToCheck.elim 0 (fun _ => 1)

theorem Moves.remaining_lt (h : Moves voteState lockouts slotHashes earliest c c')
    (hc : c.Continues lockouts) : c'.remaining lockouts < c.remaining lockouts := by
  obtain ⟨hlt, hpos⟩ := hc
  cases h with
  | rootTooOld hroot => simp [remaining, hroot]
  | rootFound hroot => simp [remaining, hroot]
  | voteTooOld hroot =>
    simp only [remaining, hroot, Option.elim_none]
    omega
  | voteFound hroot =>
    simp only [remaining, hroot, Option.elim_none]
    omega
  | newer =>
    simp only [remaining]
    omega

/-- The loop.  Every step that does not return moves an index or is done with the root. -/
def run (c : Cursor) : Except Stop Cursor :=
  if _hc : c.Continues lockouts then
    match _h : c.step voteState lockouts slotHashes earliest with
    | .ok c' => run c'
    | .error e => .error e
  else .ok c
termination_by c.remaining lockouts
decreasing_by
  exact (step_moves voteState lockouts slotHashes earliest _h).remaining_lt _ _ _ _ _hc

end Cursor

/-- The closure given to `retain`, over the lockouts from index `i` on. -/
def retainLockouts : Nat → List Nat → List Lockout → List Lockout
  | _, _, [] => []
  | i, [], lockout :: lockouts => lockout :: retainLockouts (i + 1) [] lockouts
  | i, filtered :: rest, lockout :: lockouts =>
    if i = filtered then retainLockouts (i + 1) rest lockouts
    else lockout :: retainLockouts (i + 1) (filtered :: rest) lockouts

/-- What follows the loop: every lockout was passed, and the last one was found
    under the proposed hash. -/
def Cursor.checkLast (c : Cursor) (lockouts : List Lockout) (slotHashes : List SlotHash)
    (lastProposedSlot : Nat) (proposedHash : Hash) : Except Stop Unit :=
  if c.proposedLockoutsIndex ≠ lockouts.length then .error (.err .slotsMismatch)
  else match slotHashes[c.slotHashesIndex]? with
    | none => .error .indexOutOfBounds
    | some (slot, hash) =>
      if lastProposedSlot ≠ slot then .error .lastSlotAssertion
      else if hash ≠ proposedHash then .error (.err .slotHashMismatch)
      else .ok ()

/-- Returns the lockouts and the root that the proposal is left with. -/
def checkAndFilterProposedVoteState (voteState : VoteState) (proposedLockouts : List Lockout)
    (proposedRoot : Option Nat) (proposedHash : Hash) (slotHashes : List SlotHash) :
    Except Stop (List Lockout × Option Nat) :=
  match proposedLockouts.getLast? with
  | none => .error (.err .emptySlots)
  | some lastProposed =>
    if voteState.lastVotedSlot.any (fun lastVoteSlot => lastProposed.slot ≤ lastVoteSlot) then
      .error (.err .voteTooOld)
    else match slotHashes.getLast? with
      | none => .error (.err .slotsMismatch)
      | some (earliest, _) =>
        if lastProposed.slot < earliest then .error (.err .voteTooOld)
        else do
          let root := overwriteProposedRoot voteState earliest proposedRoot
          let c ← Cursor.run voteState proposedLockouts slotHashes earliest
            ⟨root, 0, slotHashes.length, []⟩
          c.checkLast proposedLockouts slotHashes lastProposed.slot proposedHash
          return (retainLockouts 0 c.indicesToFilter proposedLockouts, root)

/-! ## What a proposal that passes is left with -/

section Run

variable {voteState : VoteState} {slotHashes : List SlotHash} {earliest : Nat}

/-- An invariant of the steps is an invariant of the loop. -/
theorem Cursor.run_invariant {Inv : Cursor → Prop}
    (hmoves : ∀ c c', Inv c → Cursor.Moves voteState lockouts slotHashes earliest c c' → Inv c')
    (hinv : Inv c) (hrun : c.run voteState lockouts slotHashes earliest = .ok c') : Inv c' := by
  fun_induction Cursor.run voteState lockouts slotHashes earliest c with
  | case1 c hc next hstep ih =>
    exact ih (hmoves c next hinv (Cursor.step_moves _ _ _ _ hstep)) hrun
  | case2 c hc e hstep => cases hrun
  | case3 c hc =>
    cases hrun
    exact hinv

/-- Only slots below every slot hash, and not voted on, are filtered out. -/
def Cursor.FiltersOld (voteState : VoteState) (lockouts : List Lockout) (earliest : Nat)
    (c : Cursor) : Prop :=
  ∀ i ∈ c.indicesToFilter, ∃ lockout, lockouts[i]? = some lockout ∧ lockout.slot < earliest ∧
    voteState.containsSlot lockout.slot = false

theorem Cursor.Moves.filtersOld (hinv : c.FiltersOld voteState lockouts earliest)
    (h : Cursor.Moves voteState lockouts slotHashes earliest c c') :
    c'.FiltersOld voteState lockouts earliest := by
  cases h with
  | rootTooOld => exact hinv
  | rootFound => exact hinv
  | voteFound => exact hinv
  | newer => exact hinv
  | @voteTooOld lockout hroot hlockout hordered hfirst hold =>
    intro i hi
    cases hcontains : voteState.containsSlot lockout.slot with
    | true =>
      simp only [hcontains, if_true] at hi
      exact hinv i hi
    | false =>
      simp only [hcontains] at hi
      rcases mem_append.mp hi with hi | hi
      · exact hinv i hi
      · rw [mem_singleton.mp hi]
        exact ⟨lockout, hlockout, hold, hcontains⟩

end Run

theorem retainLockouts_sublist (i : Nat) (filtered : List Nat) (lockouts : List Lockout) :
    (retainLockouts i filtered lockouts).Sublist lockouts := by
  fun_induction retainLockouts i filtered lockouts with
  | case1 => exact .slnil
  | case2 i lockout lockouts ih => exact ih.cons_cons lockout
  | case3 filtered rest lockout lockouts ih => exact ih.cons lockout
  | case4 i filtered rest lockout lockouts hne ih => exact ih.cons_cons lockout

/-- The last lockout is retained if its index is not filtered. -/
theorem retainLockouts_append_singleton {i : Nat} {filtered : List Nat}
    {last : Lockout} (h : i + lockouts.length ∉ filtered) :
    (retainLockouts i filtered (lockouts ++ [last])).getLast? = some last := by
  induction lockouts generalizing i filtered with
  | nil =>
    cases filtered with
    | nil => rfl
    | cons j rest =>
      have hne : i ≠ j := fun hij => h (by simp [hij])
      simp [retainLockouts, hne]
  | cons lockout lockouts ih =>
    rw [length_cons, ← Nat.add_assoc, Nat.add_right_comm] at h
    cases filtered with
    | nil => rw [cons_append, retainLockouts, getLast?_cons, ih h, Option.getD_some]
    | cons j rest =>
      rw [cons_append, retainLockouts]
      split
      · exact ih (fun hmem => h (mem_cons_of_mem j hmem))
      · rw [getLast?_cons, ih h, Option.getD_some]

/-- A proposal that passes is a part of what was proposed; its last lockout is
    the last one proposed and is newer than every vote. -/
theorem checkAndFilterProposedVoteState_ok {voteState : VoteState}
    {root : Option Nat} {hash : Hash} {slotHashes : List SlotHash}
    {proposal : List Lockout × Option Nat}
    (h : checkAndFilterProposedVoteState voteState lockouts root hash slotHashes = .ok proposal) :
    proposal.1.Sublist lockouts ∧
      ∃ last, proposal.1.getLast? = some last ∧
        ∀ lastVoteSlot ∈ voteState.lastVotedSlot, lastVoteSlot < last.slot := by
  unfold checkAndFilterProposedVoteState at h
  split at h
  · cases h
  · rename_i last hlast
    obtain ⟨hnew, h⟩ := guard_eq_ok_iff.mp h
    split at h
    · cases h
    · rename_i earliest _ hearliest
      obtain ⟨hrecent, h⟩ := guard_eq_ok_iff.mp h
      obtain ⟨c, hrun, h⟩ := bind_eq_ok_iff.mp h
      obtain ⟨_, -, h⟩ := bind_eq_ok_iff.mp h
      cases h
      have hfilters : c.FiltersOld voteState lockouts earliest :=
        Cursor.run_invariant (fun c c' hinv hmoves => hmoves.filtersOld hinv)
          (by intro i hi; cases hi) hrun
      refine ⟨retainLockouts_sublist 0 _ lockouts, last, ?_, ?_⟩
      · -- The last slot is not old, so it is not among the filtered ones.
        obtain ⟨older, rfl⟩ := getLast?_eq_some_iff.mp hlast
        apply retainLockouts_append_singleton
        intro hmem
        obtain ⟨lockout, hlockout, hold, -⟩ := hfilters _ hmem
        rw [Nat.zero_add, getElem?_concat_length] at hlockout
        cases hlockout
        omega
      · intro lastVoteSlot hvoted
        have := (Option.any_eq_false _ _).mp (eq_false_of_ne_true hnew) lastVoteSlot hvoted
        simpa using this

end Agave.VoteProgram
