/-
  Agave.TransactionView.Access

  The accessors of a frame, which read from the bytes without parsing them again.

  A read that leaves the bytes is `outOfBounds`.  An iterator that has ended is not asked again, so
  what `next` leaves behind at the end is not kept.
-/

import Agave.TransactionView.Frame

namespace Agave.TxView

open Lib

/-! ## Iterators -/

/-- An iterator yields the items, and then ends. -/
def Yields {σ α : Type} (next : σ → Parse (Option (α × σ))) (iter : σ) : List α → Prop
  | [] => next iter = .ok none
  | item :: items => ∃ iter', next iter = .ok (some (item, iter')) ∧ Yields next iter' items

theorem Yields.unique {σ α : Type} {next : σ → Parse (Option (α × σ))} {iter : σ}
    {items items' : List α} (h : Yields next iter items) (h' : Yields next iter items') :
    items = items' := by
  induction items generalizing iter items' with
  | nil =>
    cases items' with
    | nil => rfl
    | cons item' items' =>
      obtain ⟨iter', hnext, -⟩ := h'
      cases h.symm.trans hnext
  | cons item items ih =>
    obtain ⟨iter₁, hnext, hrest⟩ := h
    cases items' with
    | nil => cases hnext.symm.trans h'
    | cons item' items' =>
      obtain ⟨iter₂, hnext', hrest'⟩ := h'
      cases hnext.symm.trans hnext'
      rw [ih hrest hrest']

/-- `ok()?`: an error ends an iterator. -/
def endOnError {α : Type} : Parse α → Parse (Option α)
  | .ok a => .ok (some a)
  | .error (.error _) => .ok none
  | .error failure => .error failure

/-! ## Instructions -/

/-- `InstructionsIterator`, without the bytes. -/
inductive InstructionsIterator where
  | legacyAndV0 (offset : Nat) (numInstructions index : UInt16)
      (frames : List LegacyAndV0InstructionFrame)
  | v1 (index numInstructions : UInt16) (headersOffset payloadsOffset : Nat)

section

variable (bytes : List UInt8)

def forLegacyAndV0 (offset : Nat) (frame : LegacyAndV0InstructionFrame) :
    Parse (Instruction × Nat) := do
  let (programIdIndex, offset) ← uncheckedReadByte bytes offset
  let offset := wrappingAdd offset frame.numAccountsLen.toNat
  let (accounts, offset) ← uncheckedReadSliceData Layout.uint8 bytes offset frame.numAccounts
  let offset := wrappingAdd offset frame.dataLenLen.toNat
  let (data, offset) ← uncheckedReadSliceData Layout.uint8 bytes offset frame.dataLen
  return (⟨programIdIndex, accounts, data⟩, offset)

def forV1 (payloadsOffset : Nat) (programIdIndex : UInt8)
    (numAccounts dataLen : UInt16) : Parse (Instruction × Nat) := do
  let (accounts, payloadsOffset) ← uncheckedReadSliceData Layout.uint8 bytes payloadsOffset
    numAccounts
  let (data, payloadsOffset) ← uncheckedReadSliceData Layout.uint8 bytes payloadsOffset dataLen
  return (⟨programIdIndex, accounts, data⟩, payloadsOffset)

/-- The indexing of a slice. -/
def indexSlice {α : Type} (items : List α) (index : Nat) : Parse α :=
  match items[index]? with
  | none => .error .panicked
  | some item => .ok item

/-- `InstructionsIterator::next`. -/
def InstructionsIterator.next :
    InstructionsIterator → Parse (Option (Instruction × InstructionsIterator))
  | .legacyAndV0 offset numInstructions index frames =>
    if index ≥ numInstructions then .ok none
    else do
      let frame ← indexSlice frames index.toNat
      let (instruction, offset) ← forLegacyAndV0 bytes offset frame
      return some (instruction, .legacyAndV0 offset numInstructions (index + 1) frames)
  | .v1 index numInstructions headersOffset payloadsOffset =>
    if index ≥ numInstructions then .ok none
    else do
      let (header, headersOffset) ← readV1Header bytes headersOffset
      let (instruction, payloadsOffset) ← forV1 bytes payloadsOffset header.programIdIndex
        header.numAccounts.toUInt16 (UInt16.ofNat header.dataLen.val)
      return some (instruction, .v1 (index + 1) numInstructions headersOffset payloadsOffset)

namespace InstructionsFrame

def numInstructions : InstructionsFrame → UInt16
  | .legacyAndV0 numInstructions _ _ => numInstructions
  | .v1 numInstructions _ _ => numInstructions

def iter : InstructionsFrame → InstructionsIterator
  | .legacyAndV0 numInstructions offset frames => .legacyAndV0 offset numInstructions 0 frames
  | .v1 numInstructions headersOffset payloadsOffset =>
    .v1 0 numInstructions headersOffset payloadsOffset

end InstructionsFrame

/-! ## Lookups -/

/-- `AddressTableLookupIterator`, without the bytes. -/
structure AddressTableLookupIterator where
  offset : Nat
  numAddressTableLookups : UInt8
  index : UInt8

/-- The lookup that stands at an offset. -/
def readLookup (offset : Nat) : Parse (AddressTableLookup × Nat) := do
  let (accountKey, offset) ← readType Layouts.pubkey bytes offset
  let (numWriteAccounts, offset) ← optimizedReadCompressedU16 bytes offset
  let (writableIndexes, offset) ← readSliceData Layout.uint8 bytes offset numWriteAccounts
  let (numReadAccounts, offset) ← optimizedReadCompressedU16 bytes offset
  let (readonlyIndexes, offset) ← readSliceData Layout.uint8 bytes offset numReadAccounts
  return (⟨accountKey, writableIndexes, readonlyIndexes⟩, offset)

/-- `AddressTableLookupIterator::next`. -/
def AddressTableLookupIterator.next (iter : AddressTableLookupIterator) :
    Parse (Option (AddressTableLookup × AddressTableLookupIterator)) :=
  if iter.index < iter.numAddressTableLookups then do
    let lookup ← endOnError (readLookup bytes iter.offset)
    return lookup.map fun (lookup, offset) =>
      (lookup, { iter with offset := offset, index := iter.index + 1 })
  else .ok none

end

/-! ## The config -/

namespace TransactionConfigFrame

def isPresent (frame : TransactionConfigFrame) : Bool := decide (frame.maskOffset ≠ 0)

def wordIndexForBit (frame : TransactionConfigFrame) (bit : Nat) : Option Nat :=
  if !frame.isPresent || !hasBit frame.mask bit then none
  else
    let maskBeforeBit := ((1 : UInt32) <<< UInt32.ofNat bit) - 1
    some (countOnes (frame.mask &&& maskBeforeBit))

def wordOffset (frame : TransactionConfigFrame) (bit : Nat) : Option Nat :=
  (frame.wordIndexForBit bit).map fun wordIndex =>
    wrappingAdd frame.valuesOffset (wrappingMul wordIndex Layouts.u32.size)

/-- The value whose first word has a bit in the mask. -/
def valueAt {α : Type} (layout : Layout α) (bytes : List UInt8) : Option Nat → Parse (Option α)
  | none => .ok none
  | some offset => do
    let value ← uncheckedCopyValue layout bytes offset
    return some value

variable (frame : TransactionConfigFrame) (bytes : List UInt8)

def priorityFeeLamports : Parse (Option U64) := valueAt Layouts.u64 bytes (frame.wordOffset 0)

def computeUnitLimit : Parse (Option U32) := valueAt Layouts.u32 bytes (frame.wordOffset 2)

def loadedAccountsDataSizeLimit : Parse (Option U32) :=
  valueAt Layouts.u32 bytes (frame.wordOffset 3)

def requestedHeapSize : Parse (Option U32) := valueAt Layouts.u32 bytes (frame.wordOffset 4)

end TransactionConfigFrame

/-! ## Transactions -/

namespace TransactionFrame

variable (frame : TransactionFrame) (bytes : List UInt8)

def numSignatures : UInt8 := frame.signature.count

def version : TransactionVersion := frame.messageHeader.version

def numRequiredSignatures : UInt8 := frame.messageHeader.numRequiredSignatures

def numReadonlySignedStaticAccounts : UInt8 := frame.messageHeader.numReadonlySignedAccounts

def numReadonlyUnsignedStaticAccounts : UInt8 := frame.messageHeader.numReadonlyUnsignedAccounts

def numStaticAccountKeys : UInt8 := frame.staticAccountKeys.count

def numInstructions : UInt16 := frame.instructions.numInstructions

def numAddressTableLookups : UInt8 := frame.addressTableLookup.numAddressTableLookups

def totalWritableLookupAccounts : Nat := frame.addressTableLookup.totalWritableLookupAccounts

def totalReadonlyLookupAccounts : Nat := frame.addressTableLookup.totalReadonlyLookupAccounts

def messageRange : Nat × Nat :=
  (frame.messageHeader.offset,
    if frame.version = .v1 then frame.signature.offset else frame.dataLen)

def signatures : Parse (List Signature) :=
  fromRawParts Layouts.signature bytes frame.signature.offset frame.signature.count.toNat

/-- `static_account_keys`. -/
def readStaticAccountKeys : Parse (List Pubkey) :=
  fromRawParts Layouts.pubkey bytes frame.staticAccountKeys.offset
    frame.staticAccountKeys.count.toNat

def recentBlockhash : Parse Hash :=
  uncheckedCopyValue Layouts.hash bytes frame.recentBlockhashOffset

def instructionsIter : InstructionsIterator := frame.instructions.iter

def addressTableLookupIter : AddressTableLookupIterator where
  offset := frame.addressTableLookup.offset
  numAddressTableLookups := frame.addressTableLookup.numAddressTableLookups
  index := 0

/-- `message_data` of the view, which slices the bytes with a check. -/
def messageData : Parse (List UInt8) :=
  let (start, stop) := frame.messageRange
  if start ≤ stop ∧ stop ≤ bytes.length then .ok ((bytes.drop start).take (stop - start))
  else .error .panicked

end TransactionFrame

end Agave.TxView
