/-
  Agave.TransactionView.Resolved

  Which accounts of a resolved transaction are writable.

  `cache_is_writable` fills a table of 256 flags from the ranges of the header, and then clears the
  flags of the programs that are called, unless the upgradeable loader is among the accounts.
-/

import Agave.TransactionView.Sanitize

namespace Agave.TxView

open Lib List TransactionFrame

structure LoadedAddresses where
  writable : List Pubkey
  readonly : List Pubkey

/-- The keys of the accounts that were looked up, in the order of `AccountKeys`. -/
def LoadedAddresses.keys (resolved : Option LoadedAddresses) : List Pubkey :=
  resolved.elim [] fun loaded => loaded.writable ++ loaded.readonly

/-- `is_writable_cache`: an array of 256 flags, of which no other is read or written. -/
abbrev WritableCache := Nat → Bool

def assign (cache : WritableCache) (index : Nat) (flag : Bool) : Parse WritableCache :=
  if index < 256 then .ok (Function.update cache index flag) else .error .panicked

namespace TransactionFrame

variable (frame : TransactionFrame) (bytes : List UInt8) (loader : Pubkey)
  (resolved : Option LoadedAddresses) (reserved : List Pubkey)

/-- `num_writable_unsigned_static_accounts`, with the subtraction of bytes. -/
def numWritableUnsignedStaticAccounts : UInt8 :=
  frame.numStaticAccountKeys - frame.numRequiredSignatures -
    frame.numReadonlyUnsignedStaticAccounts

def numWritableSignedStaticAccounts : UInt8 :=
  frame.numRequiredSignatures - frame.numReadonlySignedStaticAccounts

def isRequestedWrite (index : Nat) : Bool :=
  if index ≥ frame.numStaticAccountKeys.toNat then
    index - frame.numStaticAccountKeys.toNat < frame.totalWritableLookupAccounts
  else if index ≥ frame.numRequiredSignatures.toNat then
    index - frame.numRequiredSignatures.toNat < frame.numWritableUnsignedStaticAccounts.toNat
  else index < frame.numWritableSignedStaticAccounts.toNat

/-- A turn of the second loop, with the flag that is computed when it is first asked for. -/
def demoteProgram (keys : List Pubkey) (state : WritableCache × Option Bool)
    (instruction : Instruction) : Parse (WritableCache × Option Bool) :=
  let index := instruction.programIdIndex.toNat
  if state.1 index then
    let isPresent := state.2.getD (keys.contains loader)
    if isPresent then .ok (state.1, some isPresent)
    else do return (← assign state.1 index false, some isPresent)
  else .ok state

def cacheIsWritable : Parse WritableCache := do
  let staticKeys ← frame.readStaticAccountKeys bytes
  let keys := staticKeys ++ LoadedAddresses.keys resolved
  let cache ← keys.zipIdx.foldlM (fun cache (key, index) =>
    assign cache index (frame.isRequestedWrite index && !reserved.contains key)) fun _ => false
  let state ← forEach (InstructionsIterator.next bytes) (demoteProgram loader keys)
    frame.numInstructions.toNat frame.instructionsIter (cache, none)
  return state.1

/-- `ResolvedTransactionView::try_new`, which returns the table. -/
def tryNewResolved : Parse WritableCache :=
  if frame.version = .v0 ∧ resolved = none then .error (.error .addressLookupMismatch)
  else
    let loaded := resolved.getD ⟨[], []⟩
    if loaded.writable.length ≠ frame.totalWritableLookupAccounts ∨
        loaded.readonly.length ≠ frame.totalReadonlyLookupAccounts then
      .error (.error .addressLookupMismatch)
    else frame.cacheIsWritable bytes loader resolved reserved

end TransactionFrame

def WritableCache.isWritable (cache : WritableCache) (index : Nat) : Bool :=
  if index < 256 then cache index else false

/-! ## What the table says -/

/-- The range of the header that an account is in makes it writable. -/
def Transaction.InWritableRange (tx : Transaction) (index : Nat) : Prop :=
  if index < tx.header.numRequiredSignatures.toNat then
    index < tx.header.numRequiredSignatures.toNat - tx.header.numReadonlySignedAccounts.toNat
  else if index < tx.staticAccountKeys.length then
    index < tx.staticAccountKeys.length - tx.header.numReadonlyUnsignedAccounts.toNat
  else index < tx.staticAccountKeys.length + totalWritable tx.versioned.lookups

variable {frame : TransactionFrame} {bytes : List UInt8} {tx : Transaction}
  {config : SanitizeConfig} {keys : List Pubkey} {cache : WritableCache} {index : Nat}

theorem isRequestedWrite_iff (h : frame.Reads bytes tx) (hsanitary : tx.Sanitary config) :
    frame.isRequestedWrite index = true ↔ tx.InWritableRange index := by
  obtain ⟨-, -, hrequired, -, hkeys, hsigned, hunsigned, -⟩ := hsanitary
  have hstatic := h.numStaticAccountKeys
  rw [isRequestedWrite, Transaction.InWritableRange, numWritableUnsignedStaticAccounts,
    numWritableSignedStaticAccounts, ← h.writable]
  simp only [h.header, ← hstatic] at hrequired hkeys hsigned hunsigned ⊢
  have hlt := frame.numStaticAccountKeys.toNat_lt
  simp only [UInt8.toNat_sub]
  split_ifs <;> simp only [decide_eq_true_iff] <;> omega

theorem foldlM_assign (f : Pubkey → Nat → Bool) {n : Nat} (hle : n + keys.length ≤ 256) :
    ∃ cache', (keys.zipIdx n).foldlM (fun cache (key, index) => assign cache index (f key index))
        cache = .ok cache' ∧ (∀ index < n, cache' index = cache index) ∧
      ∀ index key, keys[index]? = some key → cache' (n + index) = f key (n + index) := by
  induction keys generalizing n cache with
  | nil => exact ⟨cache, rfl, fun _ _ => rfl, fun _ _ h => (nomatch h)⟩
  | cons key keys ih =>
    rw [length_cons] at hle
    obtain ⟨cache', heq, hbefore, hafter⟩ :=
      @ih (Function.update cache n (f key n)) (n + 1) (by omega)
    refine ⟨cache', ?_, fun index hlt => ?_, fun index key' hkey => ?_⟩
    · rw [zipIdx_cons, foldlM_cons]
      show (assign cache n (f key n) >>= _) = _
      rw [assign, if_pos (by omega), ok_bind, heq]
    · rw [hbefore index (by omega), Function.update_of_ne (by omega)]
    · cases index with
      | zero =>
        cases hkey
        exact (hbefore n (by omega)).trans (Function.update_self ..)
      | succ index =>
        rw [← Nat.add_assoc, Nat.add_right_comm]
        exact hafter index key' hkey

section

variable {loader : Pubkey} {present : Option Bool} {instruction : Instruction}
  {instructions : List Instruction} (hpresent : ∀ flag ∈ present, flag = keys.contains loader)
include hpresent

/-- A program loses its flag, unless the loader is there. -/
theorem demoteProgram_eq (hlt : instruction.programIdIndex.toNat < 256) :
    ∃ cache' present', demoteProgram loader keys (cache, present) instruction =
        .ok (cache', present') ∧ (∀ flag ∈ present', flag = keys.contains loader) ∧
      ∀ index, cache' index = true ↔ cache index = true ∧
        ¬ (instruction.programIdIndex.toNat = index ∧ loader ∉ keys) := by
  have hloader : present.getD (keys.contains loader) = keys.contains loader := by
    cases present with
    | none => rfl
    | some flag => exact hpresent flag rfl
  simp only [demoteProgram, hloader, assign, if_pos hlt]
  split_ifs with hflag hcontains
  · refine ⟨cache, _, rfl, by simp, fun index => ?_⟩
    simp [contains_iff_mem.mp hcontains]
  · refine ⟨_, _, rfl, by simp, fun index => ?_⟩
    have hloader : loader ∉ keys := by simpa using hcontains
    by_cases hindex : instruction.programIdIndex.toNat = index
    · simp [hindex, hloader]
    · simp [hindex, Function.update_of_ne (Ne.symm hindex)]
  · refine ⟨cache, present, rfl, hpresent, fun index => ?_⟩
    grind

theorem foldlM_demoteProgram
    (hprograms : ∀ instruction ∈ instructions, instruction.programIdIndex.toNat < 256) :
    ∃ state, instructions.foldlM (demoteProgram loader keys) (cache, present) = .ok state ∧
      ∀ index, state.1 index = true ↔ cache index = true ∧
        ¬ ((∃ instruction ∈ instructions, instruction.programIdIndex.toNat = index) ∧
          loader ∉ keys) := by
  induction instructions generalizing cache present with
  | nil => exact ⟨(cache, present), rfl, by simp⟩
  | cons instruction instructions ih =>
    obtain ⟨hlt, hprograms⟩ := forall_mem_cons.mp hprograms
    obtain ⟨cache', present', heq, hpresent', hstep⟩ := demoteProgram_eq hpresent hlt
    obtain ⟨state, hrun, hstate⟩ := ih hpresent' hprograms
    refine ⟨state, ?_, fun index => ?_⟩
    · rw [foldlM_cons, heq, ok_bind, hrun]
    · rw [hstate, hstep, exists_mem_cons_iff, or_and_right, not_or, and_assoc]

end

/-- The table of a sanitized transaction with the addresses it looked up. -/
theorem is_writable_exact (h : tryNew bytes = .ok frame)
    (hsanitized : frame.sanitize bytes config = .ok ()) (loader : Pubkey)
    (resolved : Option LoadedAddresses) (reserved : List Pubkey)
    (hsome : frame.version = .v0 → resolved ≠ none)
    (hwritable : (resolved.getD ⟨[], []⟩).writable.length = frame.totalWritableLookupAccounts)
    (hreadonly : (resolved.getD ⟨[], []⟩).readonly.length = frame.totalReadonlyLookupAccounts) :
    ∃ tx cache, frame.Reads bytes tx ∧
      frame.tryNewResolved bytes loader resolved reserved = .ok cache ∧
      ∀ index key, (tx.staticAccountKeys ++ LoadedAddresses.keys resolved)[index]? = some key →
        (cache.isWritable index = true ↔ tx.InWritableRange index ∧ key ∉ reserved ∧
          ¬ ((∃ instruction ∈ tx.instructions, instruction.programIdIndex.toNat = index) ∧
            loader ∉ tx.staticAccountKeys ++ LoadedAddresses.keys resolved)) := by
  have hlength := length_lt_of_tryNewWith h
  obtain ⟨tx, haccepted, hencode, rfl⟩ := (tryNewWith_eq_ok (by omega)).mp h
  have hreads := haccepted.reads hencode
  have hsanitary := (sanitize_eq_ok_iff hreads hencode).mp hsanitized
  have hkeys : 0 + (tx.staticAccountKeys ++ LoadedAddresses.keys resolved).length ≤ 256 := by
    have haccounts := hsanitary.accounts
    have hloaded : (LoadedAddresses.keys resolved).length =
        totalWritable tx.versioned.lookups + totalReadonly tx.versioned.lookups := by
      rw [← hreads.writable, ← hreads.readonly, ← hwritable, ← hreadonly]
      cases resolved <;> simp [LoadedAddresses.keys]
    rw [length_append, hloaded]
    rw [Transaction.numAccounts] at haccounts
    split_ifs at haccounts <;> omega
  obtain ⟨filled, hfill, -, hfilled⟩ := foldlM_assign (fun key index =>
    (tx.frame truncateU16).isRequestedWrite index && !reserved.contains key) hkeys
  obtain ⟨state, hdemote, hstate⟩ := foldlM_demoteProgram (show ∀ flag ∈ none, flag =
    (tx.staticAccountKeys ++ LoadedAddresses.keys resolved).contains loader by simp)
    fun instruction (_ : instruction ∈ tx.instructions) => instruction.programIdIndex.toNat_lt
  refine ⟨tx, state.1, hreads, ?_, fun index key hkey => ?_⟩
  · rw [tryNewResolved, if_neg (fun h => hsome h.1 h.2)]
    dsimp only
    rw [if_neg (by simp [hwritable, hreadonly]), cacheIsWritable, hreads.staticAccountKeys, ok_bind]
    dsimp only
    rw [hfill, ok_bind, hreads.instructions.forEach_eq hreads.numInstructions.ge, hdemote]
    rfl
  · obtain ⟨hlt, -⟩ := List.getElem?_eq_some_iff.mp hkey
    have hflag := hfilled index key hkey
    rw [Nat.zero_add] at hflag
    rw [WritableCache.isWritable, if_pos (by omega), hstate, hflag, Bool.and_eq_true,
      isRequestedWrite_iff hreads hsanitary]
    simp [and_assoc]

/-- A transaction that asks to write its program. -/
def writesProgram : Transaction := { transferV0 with header := ⟨1, 0, 0⟩ }

theorem reads_writesProgram :
    (writesProgram.frame truncateU16).Reads writesProgram.encode writesProgram := by
  have hvalid : writesProgram.Valid :=
    { signatures_pos := by decide +kernel
      signatures_le := by decide +kernel
      required := by decide +kernel
      keys := by decide +kernel
      lookups := by decide +kernel
      counts := by decide +kernel
      size := by decide +kernel }
  exact hvalid.accepted.reads rfl

/-- The payer and the first of the looked up accounts are writable; the program is not, though the
    header has it in a writable range. -/
theorem is_writable_exact_v0 :
    writesProgram.InWritableRange 1 ∧
      ∃ cache, (writesProgram.frame truncateU16).tryNewResolved writesProgram.encode 9
          (some ⟨[5], [6]⟩) [] = .ok cache ∧
        cache.isWritable 0 = true ∧ cache.isWritable 1 = false ∧ cache.isWritable 2 = true ∧
        cache.isWritable 3 = false := by
  obtain ⟨tx, cache, hreads, hcache, hexact⟩ := is_writable_exact
    (show tryNew writesProgram.encode = .ok (writesProgram.frame truncateU16) by decide +kernel)
    (show (writesProgram.frame truncateU16).sanitize _ ⟨0, 0, 64, none⟩ = .ok () by decide +kernel)
    9 (some ⟨[5], [6]⟩) [] (by decide +kernel) (by decide +kernel) (by decide +kernel)
  obtain rfl := hreads.unique reads_writesProgram
  simp only [Transaction.InWritableRange, ← Bool.not_eq_true] at hexact ⊢
  refine ⟨by decide, cache, hcache, ?_, ?_, ?_, ?_⟩
  · rw [hexact 0 1 rfl]
    decide +kernel
  · rw [hexact 1 2 rfl]
    decide +kernel
  · rw [hexact 2 5 rfl]
    decide +kernel
  · rw [hexact 3 6 rfl]
    decide +kernel

end Agave.TxView
