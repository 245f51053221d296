/-
  Agave.TransactionView.Sanitize

  The checks that make an accepted transaction a sanitized one.

  They run on the numbers of the frame, in the widths of these numbers: a difference that wraps is
  compared before the check that excludes the wrap, and indexes are compared with one less than a
  count, cut to a byte.  `Transaction.Sanitary` says what they amount to.
-/

import Agave.TransactionView.Correct

namespace Agave.TxView

open Lib List TransactionFrame

structure SanitizeConfig where
  minRequestedHeapSize : Nat
  maxRequestedHeapSize : Nat
  maxInstructions : Nat
  maxAccountsPerInstruction : Option Nat

/-! ## The checks -/

/-- A `for` loop over an iterator that yields no more items than `fuel`. -/
def forEach {σ α β : Type} (next : σ → Parse (Option (α × σ))) (body : β → α → Parse β) :
    Nat → σ → β → Parse β
  | 0, _, b => .ok b
  | fuel + 1, iter, b => do
    match ← next iter with
    | none => .ok b
    | some (item, iter) => forEach next body fuel iter (← body b item)

def rejectIf (condition : Prop) [Decidable condition] : Parse Unit :=
  if condition then .error (.error .sanitizeError) else .ok ()

namespace TransactionFrame

variable (frame : TransactionFrame) (bytes : List UInt8) (config : SanitizeConfig)

def sanitizeTransactionSize : Parse Unit :=
  rejectIf (bytes.length > if frame.version = .v1 then maxTransactionSize else packetDataSize)

/-- `sanitize_message_header`, with the subtraction of bytes. -/
def sanitizeMessageHeader : Parse Unit := do
  rejectIf (frame.numRequiredSignatures < 1)
  rejectIf (frame.numReadonlySignedStaticAccounts ≥ frame.numRequiredSignatures)
  rejectIf (frame.numReadonlyUnsignedStaticAccounts >
    frame.numStaticAccountKeys - frame.numRequiredSignatures)

/-- `requested_heap_size` of `transaction_config`, if there is one. -/
def configHeapSize : Parse (Option U32) :=
  if frame.transactionConfigFrame.isPresent then
    frame.transactionConfigFrame.requestedHeapSize bytes
  else .ok none

def sanitizeConfig : Parse Unit := do
  match ← frame.configHeapSize bytes with
  | none => .ok ()
  | some heap => rejectIf (¬ (config.minRequestedHeapSize ≤ heap.val ∧
      heap.val ≤ config.maxRequestedHeapSize) ∨ ¬ heap.val % 1024 = 0)

def sanitizeSignatures : Parse Unit := do
  rejectIf (frame.numSignatures ≠ frame.numRequiredSignatures)
  rejectIf (frame.numSignatures > maxSignaturesPerPacket)
  rejectIf (frame.numStaticAccountKeys < frame.numSignatures)

/-- `total_number_of_accounts`, whose sums saturate. -/
def totalNumberOfAccounts : Nat :=
  min (min (frame.numStaticAccountKeys.toNat + frame.totalWritableLookupAccounts) (2 ^ 16 - 1) +
    frame.totalReadonlyLookupAccounts) (2 ^ 16 - 1)

def sanitizeAccountAccess : Parse Unit :=
  rejectIf (frame.totalNumberOfAccounts > if frame.version = .v1 then 64 else 256)

def sanitizeInstructions : Parse Unit := do
  rejectIf (frame.numInstructions.toNat > config.maxInstructions)
  let maxProgramIdIndex := frame.numStaticAccountKeys - 1
  let maxAccountIndex := UInt8.ofNat ((frame.totalNumberOfAccounts + (2 ^ 16 - 1)) % 2 ^ 16)
  let sanitizeInstruction (_ : Unit) (instruction : Instruction) : Parse Unit := do
    rejectIf (instruction.programIdIndex > maxProgramIdIndex)
    rejectIf (instruction.programIdIndex = 0)
    forM instruction.accounts fun accountIndex => rejectIf (accountIndex > maxAccountIndex)
    rejectIf (config.maxAccountsPerInstruction.any (instruction.accounts.length > ·))
  forEach (InstructionsIterator.next bytes) sanitizeInstruction frame.numInstructions.toNat
    frame.instructionsIter ()

def sanitizeAddressTableLookups : Parse Unit :=
  forEach (AddressTableLookupIterator.next bytes)
    (fun _ lookup => rejectIf (lookup.writableIndexes = [] ∧ lookup.readonlyIndexes = []))
    frame.numAddressTableLookups.toNat frame.addressTableLookupIter ()

def sanitize : Parse Unit := do
  frame.sanitizeTransactionSize bytes
  frame.sanitizeMessageHeader
  frame.sanitizeConfig bytes config
  frame.sanitizeSignatures
  frame.sanitizeAccountAccess
  frame.sanitizeInstructions bytes config
  frame.sanitizeAddressTableLookups bytes

end TransactionFrame

/-! ## What they amount to -/

namespace Transaction

def numAccounts (tx : Transaction) : Nat :=
  tx.staticAccountKeys.length + totalWritable tx.versioned.lookups +
    totalReadonly tx.versioned.lookups

/-- The transactions that `sanitize` lets pass, in terms of their values. -/
@[mk_iff]
structure Sanitary (config : SanitizeConfig) (tx : Transaction) : Prop where
  size : tx.encode.length ≤
    if tx.versioned.version = .v1 then maxTransactionSize else packetDataSize
  required_pos : 1 ≤ tx.header.numRequiredSignatures.toNat
  required_eq : tx.header.numRequiredSignatures.toNat = tx.signatures.length
  signatures_le : tx.signatures.length ≤ 12
  keys : tx.signatures.length ≤ tx.staticAccountKeys.length
  readonly_signed : tx.header.numReadonlySignedAccounts.toNat <
    tx.header.numRequiredSignatures.toNat
  readonly_unsigned : tx.header.numReadonlyUnsignedAccounts.toNat ≤
    tx.staticAccountKeys.length - tx.header.numRequiredSignatures.toNat
  heap : ∀ heap ∈ tx.versioned.config.requestedHeapSize,
    config.minRequestedHeapSize ≤ heap.val ∧ heap.val ≤ config.maxRequestedHeapSize ∧
      1024 ∣ heap.val
  accounts : tx.numAccounts ≤ if tx.versioned.version = .v1 then 64 else 256
  instructions : tx.instructions.length ≤ config.maxInstructions
  program : ∀ instruction ∈ tx.instructions, instruction.programIdIndex.toNat ≠ 0 ∧
    instruction.programIdIndex.toNat < tx.staticAccountKeys.length
  indexes : ∀ instruction ∈ tx.instructions, ∀ index ∈ instruction.accounts,
    index.toNat < tx.numAccounts
  per_instruction : ∀ limit ∈ config.maxAccountsPerInstruction,
    ∀ instruction ∈ tx.instructions, instruction.accounts.length ≤ limit
  lookups : ∀ lookup ∈ tx.versioned.lookups,
    1 ≤ lookup.writableIndexes.length + lookup.readonlyIndexes.length

end Transaction

variable {σ α β : Type} {next : σ → Parse (Option (α × σ))} {iter : σ} {items : List α} {fuel : Nat}

@[simp] theorem rejectIf_eq_ok_iff {condition : Prop} [Decidable condition] :
    rejectIf condition = .ok () ↔ ¬ condition := by
  simp [rejectIf]

theorem Yields.forEach_eq (h : Yields next iter items) (hfuel : items.length ≤ fuel)
    {body : β → α → Parse β} (b : β) : forEach next body fuel iter b = items.foldlM body b := by
  induction items generalizing iter fuel b with
  | nil =>
    cases fuel with
    | zero => rfl
    | succ fuel => rw [forEach, show next iter = .ok none from h]; rfl
  | cons item items ih =>
    obtain ⟨iter', hnext, hrest⟩ := h
    cases fuel with
    | zero => exact absurd hfuel (by simp)
    | succ fuel =>
      rw [forEach, hnext, foldlM_cons, ok_bind]
      exact congrArg _ (funext fun b => ih hrest (Nat.le_of_succ_le_succ hfuel) b)

theorem Yields.forEach_eq_ok_iff (h : Yields next iter items) (hfuel : items.length ≤ fuel)
    {body : Unit → α → Parse Unit} :
    forEach next body fuel iter () = .ok () ↔ ∀ item ∈ items, body () item = .ok () := by
  rw [h.forEach_eq hfuel]
  clear h hfuel
  induction items with
  | nil => exact ⟨fun _ => forall_mem_nil _, fun _ => rfl⟩
  | cons item items ih => rw [foldlM_cons, check_bind_eq_ok_iff, ih, forall_mem_cons]

namespace TransactionFrame

variable {frame : TransactionFrame} {bytes : List UInt8} {tx : Transaction}
  {config : SanitizeConfig}

section

variable (h : frame.Reads bytes tx)
include h

theorem sanitizeConfig_eq_ok_iff : frame.sanitizeConfig bytes config = .ok () ↔
    ∀ heap ∈ tx.versioned.config.requestedHeapSize, config.minRequestedHeapSize ≤ heap.val ∧
      heap.val ≤ config.maxRequestedHeapSize ∧ 1024 ∣ heap.val := by
  have hheap : frame.configHeapSize bytes = .ok tx.versioned.config.requestedHeapSize := by
    rw [configHeapSize, ← h.requestedHeapSize]
    split_ifs with hpresent
    · rfl
    · simp [TransactionConfigFrame.requestedHeapSize, TransactionConfigFrame.wordOffset,
        TransactionConfigFrame.wordIndexForBit, hpresent, TransactionConfigFrame.valueAt]
  rw [sanitizeConfig, hheap, ok_bind]
  cases tx.versioned.config.requestedHeapSize with
  | none => simp
  | some heap => simp [Nat.dvd_iff_mod_eq_zero, and_assoc]

theorem sanitizeInstructions_eq_ok_iff : frame.sanitizeInstructions bytes config = .ok () ↔
    tx.instructions.length ≤ config.maxInstructions ∧ ∀ instruction ∈ tx.instructions,
      instruction.programIdIndex.toNat ≤ (tx.staticAccountKeys.length + 255) % 256 ∧
      instruction.programIdIndex.toNat ≠ 0 ∧
      (∀ index ∈ instruction.accounts, index.toNat ≤
        (frame.totalNumberOfAccounts + (2 ^ 16 - 1)) % 2 ^ 16 % 2 ^ 8) ∧
      ∀ limit ∈ config.maxAccountsPerInstruction, instruction.accounts.length ≤ limit := by
  have hprogram : (frame.numStaticAccountKeys - 1).toNat =
      (tx.staticAccountKeys.length + 255) % 256 := by
    rw [UInt8.toNat_sub, h.numStaticAccountKeys, Nat.add_comm]
    rfl
  rw [sanitizeInstructions, check_bind_eq_ok_iff, rejectIf_eq_ok_iff,
    h.instructions.forEach_eq_ok_iff h.numInstructions.ge, h.numInstructions, not_lt]
  simp only [check_bind_eq_ok_iff, forM_eq_ok_iff, rejectIf_eq_ok_iff, gt_iff_lt,
    UInt8.lt_iff_toNat_lt, ← UInt8.toNat_inj, hprogram, UInt8.toNat_ofNat', Option.any_eq_true,
    not_exists, decide_eq_true_iff, not_and, not_lt]
  rfl

/-- The checks, with the numbers of the frame as natural numbers. -/
theorem sanitize_eq_ok_iff (hencode : tx.encode = bytes) :
    frame.sanitize bytes config = .ok () ↔ tx.Sanitary config := by
  have hversion := h.version
  have hkeys := h.numStaticAccountKeys
  have hsignatures := h.numSignatures
  have hmax : maxSignaturesPerPacket.toNat = 12 := by decide
  have htotal : tx.numAccounts = frame.numStaticAccountKeys.toNat +
      frame.totalWritableLookupAccounts + frame.totalReadonlyLookupAccounts := by
    rw [Transaction.numAccounts, h.writable, h.readonly, hkeys]
  have hsaturating : frame.totalNumberOfAccounts = min tx.numAccounts (2 ^ 16 - 1) := by
    rw [htotal, totalNumberOfAccounts]
    omega
  have hone : (1 : UInt8).toNat = 1 := rfl
  have hbyte := frame.numStaticAccountKeys.toNat_lt
  have hbyte' := frame.numRequiredSignatures.toNat_lt
  simp only [sanitize, sanitizeTransactionSize, sanitizeMessageHeader, sanitizeSignatures,
    sanitizeAccountAccess, sanitizeAddressTableLookups, check_bind_eq_ok_iff, rejectIf_eq_ok_iff,
    sanitizeConfig_eq_ok_iff h, sanitizeInstructions_eq_ok_iff h,
    h.lookups.forEach_eq_ok_iff h.numAddressTableLookups.ge, Transaction.sanitary_iff, h.header,
    hsaturating, hencode, ← hversion, ← hkeys, ← hsignatures, gt_iff_lt, ge_iff_le, ne_eq, not_not,
    UInt8.lt_iff_toNat_lt, UInt8.le_iff_toNat_le, UInt8.toNat_sub, ← UInt8.toNat_inj, not_lt,
    not_le, hmax, hone, ← length_eq_zero_iff]
  constructor
  · rintro ⟨hsize, ⟨hrequired, hsigned, hunsigned⟩, hheap, ⟨hequal, htwelve, hless⟩, haccounts,
      ⟨hcount, hinstructions⟩, hlookups⟩
    have hle : tx.numAccounts ≤ 256 := by split_ifs at haccounts <;> omega
    refine ⟨hsize, hrequired, hequal.symm, htwelve, hless, hsigned, by omega, hheap, by omega,
      hcount, fun instruction hmem => ?_, fun instruction hmem index hindex => ?_,
      fun limit hlimit instruction hmem => (hinstructions instruction hmem).2.2.2 limit hlimit,
      fun lookup hmem => by have := hlookups lookup hmem; omega⟩
    · have := hinstructions instruction hmem
      omega
    · have := (hinstructions instruction hmem).2.2.1 index hindex
      omega
  · rintro ⟨hsize, hrequired, hequal, htwelve, hless, hsigned, hunsigned, hheap, haccounts, hcount,
      hprogram, hindexes, hlimit, hlookups⟩
    have hle : tx.numAccounts ≤ 256 := by split_ifs at haccounts <;> omega
    refine ⟨hsize, ⟨hrequired, hsigned, by omega⟩, hheap, ⟨hequal.symm, htwelve, hless⟩, by omega,
      ⟨hcount, fun instruction hmem => ?_⟩, fun lookup hmem => by
        have := hlookups lookup hmem; omega⟩
    have := hprogram instruction hmem
    refine ⟨by omega, this.1, fun index hindex => ?_, fun limit hmem' =>
      hlimit limit hmem' instruction hmem⟩
    have := hindexes instruction hmem index hindex
    omega

end

end TransactionFrame

/-- `sanitize` lets an accepted transaction pass exactly when it is sanitary. -/
theorem sanitize_exact {bytes : List UInt8} {frame : TransactionFrame}
    (h : tryNew bytes = .ok frame) (config : SanitizeConfig) :
    ∃ tx, frame.Reads bytes tx ∧ tx.encode = bytes ∧
      (frame.sanitize bytes config = .ok () ↔ tx.Sanitary config) := by
  have hlength := length_lt_of_tryNewWith h
  obtain ⟨tx, haccepted, hencode, rfl⟩ := (tryNewWith_eq_ok (by omega)).mp h
  have hreads := haccepted.reads hencode
  exact ⟨tx, hreads, hencode, sanitize_eq_ok_iff hreads hencode⟩

theorem sanitize_exact_v1 : ∃ tx, (transferV1.frame truncateU16).Reads transferV1.encode tx ∧
    tx.Sanitary ⟨0, 0, 64, none⟩ := by
  obtain ⟨tx, hreads, -, hiff⟩ := sanitize_exact
    (show tryNew transferV1.encode = .ok (transferV1.frame truncateU16) by decide +kernel) _
  exact ⟨tx, hreads, hiff.mp (by decide +kernel)⟩

end Agave.TxView
