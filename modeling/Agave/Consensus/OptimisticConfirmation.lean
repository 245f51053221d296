/-
  Agave.Consensus.OptimisticConfirmation

  Verification of optimistic confirmations.

  The verifier keeps the optimistically confirmed blocks until their slot is rooted and then returns
  those that were not rooted.  The rooted chain is the list `chain` of its blocks.
-/

import Mathlib.Data.Finset.Basic
import Mathlib.Order.Nat

namespace Agave.Consensus

open List

/-- What is read of the root bank. -/
structure RootBank (Hash : Type) where
  slot : Nat
  hash : Hash
  ancestors : Finset Nat

/-- `OptimisticConfirmationVerifier`; `unchecked_slots` is a set. -/
structure OptimisticConfirmationVerifier (Hash : Type) where
  snapshotStartSlot : Nat
  uncheckedSlots : Finset (Nat × Hash)

-- a `Hash` is ordered by its bytes, and `Hash::default()` is the least
variable {Hash : Type} [LinearOrder Hash] {p : Nat × Hash} {slots chain : List (Nat × Hash)}

namespace OptimisticConfirmationVerifier

variable (v : OptimisticConfirmationVerifier Hash)

def addNewOptimisticConfirmedSlots (newOptimisticSlots : List (Nat × Hash)) :
    OptimisticConfirmationVerifier Hash :=
  { v with uncheckedSlots := newOptimisticSlots.foldl (fun unchecked p =>
      if v.snapshotStartSlot < p.1 then insert p unchecked else unchecked) v.uncheckedSlots }

theorem mem_add : p ∈ (v.addNewOptimisticConfirmedSlots slots).uncheckedSlots ↔
    p ∈ v.uncheckedSlots ∨ p ∈ slots ∧ v.snapshotStartSlot < p.1 := by
  simp only [addNewOptimisticConfirmedSlots]
  generalize v.uncheckedSlots = unchecked
  induction slots generalizing unchecked with
  | nil => simp
  | cons q slots ih =>
    rw [foldl_cons, ih]
    split
    · grind
    · grind

variable [OrderBot Hash]

/-- The entries below the key at which `split_off` cuts. -/
def slotsBeforeRoot (root : Nat) : Finset (Nat × Hash) :=
  v.uncheckedSlots.filter fun p => p.1 < root + 1 ∨ p.1 = root + 1 ∧ p.2 < ⊥

/-- `verify_for_unrooted_optimistic_slots`; `isRoot` is the answer of the blockstore. -/
def verifyForUnrootedOptimisticSlots (rootBank : RootBank Hash) (isRoot : Nat → Bool) :
    Finset (Nat × Hash) × OptimisticConfirmationVerifier Hash :=
  ((v.slotsBeforeRoot rootBank.slot).filter fun p =>
      p.1 = rootBank.slot ∧ p.2 ≠ rootBank.hash ∨ p.1 ∉ rootBank.ancestors ∧ isRoot p.1 = false,
    { v with uncheckedSlots := v.uncheckedSlots \ v.slotsBeforeRoot rootBank.slot })

end OptimisticConfirmationVerifier

/-- The calls of `process_votes_loop`. -/
inductive Event (Hash : Type)
  | add (newOptimisticSlots : List (Nat × Hash))
  | verify (rootBank : RootBank Hash) (isRoot : Nat → Bool)

open OptimisticConfirmationVerifier Event

variable [OrderBot Hash]

/-- What the verifications of a run return, one set for each. -/
def reports : OptimisticConfirmationVerifier Hash → List (Event Hash) → List (Finset (Nat × Hash))
  | _, [] => []
  | v, add slots :: events => reports (v.addNewOptimisticConfirmedSlots slots) events
  | v, verify bank isRoot :: events =>
    (v.verifyForUnrootedOptimisticSlots bank isRoot).1 ::
      reports (v.verifyForUnrootedOptimisticSlots bank isRoot).2 events

/-- The bank is a block of the chain, its ancestors go back to some block of it, and the blockstore
has the roots up to it. -/
structure Rooted (chain : List (Nat × Hash)) (bank : RootBank Hash) (isRoot : Nat → Bool) :
    Prop where
  mem : (bank.slot, bank.hash) ∈ chain
  ancestors : ∀ slot ∈ bank.ancestors, slot ∈ chain.map Prod.fst
  isRoot_iff : ∀ slot, isRoot slot = true ↔ slot ≤ bank.slot ∧ slot ∈ chain.map Prod.fst

/-- What an event of a run is after the one that adds `p`. -/
def Event.Follows (chain : List (Nat × Hash)) (p : Nat × Hash) : Event Hash → Prop
  | add slots => p ∉ slots
  | verify bank isRoot => Rooted chain bank isRoot

/-- The root banks of a run. -/
def roots (events : List (Event Hash)) : List (RootBank Hash) :=
  events.filterMap fun | verify bank _ => some bank | add _ => none

/-- Where the chain has a block in the slot of `p`, the first verification at or above this slot is
the one at it. -/
def VerifiedAtSlot (chain : List (Nat × Hash)) (p : Nat × Hash) (events : List (Event Hash)) :
    Prop :=
  ∀ bank ∈ (roots events).find? (p.1 ≤ ·.slot), p.1 ∈ chain.map Prod.fst → bank.slot = p.1

variable {v : OptimisticConfirmationVerifier Hash} {bank : RootBank Hash} {isRoot : Nat → Bool}
  {events : List (Event Hash)}

theorem mem_slotsBeforeRoot {root : Nat} :
    p ∈ v.slotsBeforeRoot root ↔ p ∈ v.uncheckedSlots ∧ p.1 ≤ root := by
  simp only [slotsBeforeRoot, Finset.mem_filter, not_lt_bot, and_false, or_false, Nat.lt_succ_iff]

theorem mem_verify_snd : p ∈ (v.verifyForUnrootedOptimisticSlots bank isRoot).2.uncheckedSlots ↔
    p ∈ v.uncheckedSlots ∧ ¬ p.1 ≤ bank.slot := by
  simp only [verifyForUnrootedOptimisticSlots, Finset.mem_sdiff, mem_slotsBeforeRoot]
  tauto

/-- What the verification against a root of the chain says of a block that is not above it: only
in the slot of the root are hashes compared. -/
def flagged (chain : List (Nat × Hash)) (p : Nat × Hash) (bank : RootBank Hash) : Bool :=
  decide (p.1 = bank.slot ∧ p.2 ≠ bank.hash ∨ p.1 ∉ chain.map Prod.fst)

theorem mem_verify_fst (hrooted : Rooted chain bank isRoot) :
    p ∈ (v.verifyForUnrootedOptimisticSlots bank isRoot).1 ↔
      (p ∈ v.uncheckedSlots ∧ p.1 ≤ bank.slot) ∧ flagged chain p bank = true := by
  simp only [verifyForUnrootedOptimisticSlots, Finset.mem_filter, mem_slotsBeforeRoot,
    ← Bool.not_eq_true, hrooted.isRoot_iff, flagged, decide_eq_true_iff]
  refine and_congr_right fun ⟨_, hroot⟩ => or_congr_right ⟨?_, ?_⟩
  · rintro ⟨-, hother⟩ hslot
    exact hother ⟨hroot, hslot⟩
  · intro hslot
    exact ⟨fun h => hslot (hrooted.ancestors _ h), fun h => hslot h.2⟩

/-- A block under observation is returned at most once, by the first verification at or above its
slot. -/
theorem countP_reports_eq (hevents : ∀ event ∈ events, event.Follows chain p) :
    (reports v events).countP (p ∈ ·) =
      if p ∈ v.uncheckedSlots ∧ ((roots events).find? (p.1 ≤ ·.slot)).any (flagged chain p) then 1
      else 0 := by
  induction events generalizing v with
  | nil => simp [reports, roots]
  | cons event events ih =>
    obtain ⟨hevent, hrun⟩ := forall_mem_cons.mp hevents
    cases event with
    | add slots =>
      have hkeep : p ∈ (v.addNewOptimisticConfirmedSlots slots).uncheckedSlots ↔
          p ∈ v.uncheckedSlots := by simp [mem_add, show p ∉ slots from hevent]
      have hrest := @ih (v.addNewOptimisticConfirmedSlots slots) hrun
      simp only [hkeep] at hrest
      exact hrest
    | verify bank isRoot =>
      have hroots : roots (verify bank isRoot :: events) = bank :: roots events := rfl
      rw [reports, hroots, countP_cons, ih hrun]
      simp only [mem_verify_fst hevent, mem_verify_snd]
      by_cases hroot : p.1 ≤ bank.slot <;> simp [hroot]

omit [LinearOrder Hash] [OrderBot Hash] in
theorem rooted_of_mem_roots (hevents : ∀ event ∈ events, event.Follows chain p)
    (hbank : bank ∈ roots events) : ∃ isRoot, Rooted chain bank isRoot := by
  obtain ⟨event, hevent, hsome⟩ := mem_filterMap.mp hbank
  cases event with
  | add slots => cases hsome
  | verify bank' isRoot =>
    cases hsome
    exact ⟨isRoot, hevents _ hevent⟩

omit [OrderBot Hash] in
/-- The first verification at or above the slot of a block tells whether it is of the chain, if it
is or the verification is not too late. -/
theorem flagged_iff (hchain : (chain.map Prod.fst).Nodup) (hrooted : Rooted chain bank isRoot) :
    (flagged chain p bank = true ↔ p ∉ chain) ↔
      p ∈ chain ∨ (p.1 ∈ chain.map Prod.fst → bank.slot = p.1) := by
  rw [flagged, decide_eq_true_iff]
  by_cases hmem : p ∈ chain
  · refine iff_of_true (iff_of_false ?_ (not_not.mpr hmem)) (.inl hmem)
    rintro (⟨hslot, hhash⟩ | hslot)
    · have heq := inj_on_of_nodup_map hchain hmem hrooted.mem hslot
      exact hhash (congrArg Prod.snd heq)
    · exact hslot (mem_map_of_mem hmem)
  · have hhash : p.1 = bank.slot → p.2 ≠ bank.hash := by
      intro hslot hhash
      rw [show p = (bank.slot, bank.hash) from Prod.ext hslot hhash] at hmem
      exact hmem hrooted.mem
    by_cases hslot : p.1 = bank.slot
    · simp [hmem, hslot, hhash hslot]
    · simp [hmem, hslot, Ne.symm hslot]

/-- The calls of a run go on from the verifier that the ones before them leave. -/
theorem exists_reports_append (before : List (Event Hash)) :
    ∃ v', v'.snapshotStartSlot = v.snapshotStartSlot ∧
      ∀ events, reports v (before ++ events) = reports v before ++ reports v' events := by
  induction before generalizing v with
  | nil => exact ⟨v, rfl, fun _ => rfl⟩
  | cons event before ih =>
    cases event with
    | add slots => exact @ih (v.addNewOptimisticConfirmedSlots slots)
    | verify bank isRoot =>
      obtain ⟨v', hstart, hrun⟩ := @ih (v.verifyForUnrootedOptimisticSlots bank isRoot).2
      exact ⟨v', hstart, fun events => congrArg _ (hrun events)⟩

/-- A block that a run adds is returned once if its slot is reached and it is not of the chain, and
never if it is, exactly if it is of the chain or is verified at its own slot. -/
theorem countP_reports {before : List (Event Hash)} (hchain : (chain.map Prod.fst).Nodup)
    (hnew : p ∉ v.uncheckedSlots) (hp : p ∈ slots) (hsnapshot : v.snapshotStartSlot < p.1)
    (hevents : ∀ event ∈ before ++ events, event.Follows chain p) :
    (reports v (before ++ add slots :: events)).countP (p ∈ ·) =
        (if p ∉ chain ∧ (roots events).any (p.1 ≤ ·.slot) then 1 else 0) ↔
      p ∈ chain ∨ VerifiedAtSlot chain p events := by
  obtain ⟨hbefore, hafter⟩ := forall_mem_append.mp hevents
  obtain ⟨v', hstart, hrun⟩ := @exists_reports_append _ _ _ v before
  have hadded : p ∈ (v'.addNewOptimisticConfirmedSlots slots).uncheckedSlots := by
    simp [mem_add, hp, hsnapshot, hstart]
  have hcount : (reports v (before ++ add slots :: events)).countP (p ∈ ·) =
      if ((roots events).find? (p.1 ≤ ·.slot)).any (flagged chain p) then 1 else 0 := by
    rw [hrun, countP_append, reports, countP_reports_eq hbefore, countP_reports_eq hafter]
    simp [hnew, hadded]
  rw [hcount, VerifiedAtSlot]
  cases hfirst : (roots events).find? (p.1 ≤ ·.slot) with
  | none =>
    -- no root has reached the slot
    have hany : (roots events).any (p.1 ≤ ·.slot) = false := by simpa using hfirst
    simp [hany]
  | some bank =>
    have hmem := mem_of_find?_eq_some hfirst
    have hany : (roots events).any (p.1 ≤ ·.slot) = true :=
      any_eq_true.mpr ⟨bank, hmem, by simpa using find?_some hfirst⟩
    obtain ⟨isRoot, hrooted⟩ := rooted_of_mem_roots hafter hmem
    have hflagged : (flagged chain p bank = true ↔ p ∉ chain) ↔ _ := flagged_iff hchain hrooted
    simp only [Option.mem_some_iff, forall_eq']
    rw [← hflagged, hany, Option.any_some]
    cases flagged chain p bank <;> by_cases hp : p ∈ chain <;> simp [hp]

/-- A block that was rooted, and another one of its slot. -/
theorem countP_reports_other_block :
    let events := [verify ⟨1, 5, {1}⟩ (· == 1)]
    (reports ⟨0, ∅⟩ ([] ++ add [(1, 9), (1, 5)] :: events)).countP ((1, 9) ∈ ·) = 1 ∧
      (reports ⟨0, ∅⟩ ([] ++ add [(1, 9), (1, 5)] :: events)).countP ((1, 5) ∈ ·) = 0 := by
  intro events
  have hrooted : Rooted [(1, 5)] ⟨1, 5, {1}⟩ (· == 1) := ⟨by decide, by decide, by simp⟩
  have hcount : ∀ p ∈ [(1, 9), (1, 5)], p ∈ [(1, 5)] ∨ VerifiedAtSlot [(1, 5)] p events → _ :=
    fun p hp => (@countP_reports _ _ p [(1, 9), (1, 5)] [(1, 5)] _ ⟨0, ∅⟩ events [] (by decide)
      (by simp) hp (by revert p; decide) (by simpa [events, Event.Follows])).mpr
  have hother := hcount (1, 9) (by decide) (.inr (by simp [VerifiedAtSlot, events, roots]))
  have hsame := hcount (1, 5) (by decide) (.inl (by decide))
  exact ⟨hother.trans rfl, hsame.trans rfl⟩

/-- A block of slot 1 whose hash is not that of the rooted block, verified with a later root. -/
theorem reports_skipped_block :
    Rooted [(1, 5), (2, 6)] ⟨2, 6, {1, 2}⟩ (fun s => s == 1 || s == 2) ∧
    reports ⟨0, ∅⟩ [add [(1, 9)], verify ⟨2, 6, {1, 2}⟩ fun s => s == 1 || s == 2] = [∅] := by
  refine ⟨⟨by decide, by decide, fun slot => ?_⟩, by decide⟩
  simp
  omega

end Agave.Consensus
