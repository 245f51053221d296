/-
  Agave.TransactionView.Frame

  The parser: one pass over the bytes, which keeps counts and offsets.

  Offsets are stored as `u16`.  Where the source casts one, the model takes the cast as a parameter
  `asU16`, so that one can compare the parser with one whose casts lose nothing.
-/

import Agave.TransactionView.Format

namespace Agave.TxView

open Lib

/-- `PACKET_DATA_SIZE`. -/
def packetDataSize : Nat := 1232

/-- A cast of a `usize` to a `u16`. -/
def truncateU16 (n : Nat) : Nat := n % 2 ^ 16

/-- `u16::try_from`, with the error of the caller. -/
def tryU16 (e : TransactionViewError) (n : Nat) : Parse Nat :=
  if n < 2 ^ 16 then .ok n else .error (.error e)

def checkedOffset (offset : Nat) : Parse Nat := tryU16 .parseError offset

inductive TransactionVersion where
  | legacy
  | v0
  | v1
deriving DecidableEq

/-! ## Signatures, keys and the header -/

/-- `SignatureFrame` and `StaticAccountKeysFrame`: how many items there are, and where. -/
structure ArrayFrame where
  count : UInt8
  offset : Nat
deriving DecidableEq

/-- The `try_new` of both, which differ in the items and in how many there may be. -/
def ArrayFrame.tryNew {α : Type} (layout : Layout α) (maxCount : UInt8) (asU16 : Nat → Nat)
    (bytes : List UInt8) (offset : Nat) : Parse (ArrayFrame × Nat) := do
  let (count, offset) ← readByte bytes offset
  if count = 0 ∨ count > maxCount then .error (.error .parseError)
  else
    let itemsOffset := asU16 offset
    let offset ← advanceOffsetForArray layout bytes offset count.toUInt16
    return (⟨count, itemsOffset⟩, offset)

abbrev SignatureFrame := ArrayFrame

/-- `MAX_SIGNATURES_PER_PACKET`. -/
def maxSignaturesPerPacket : UInt8 :=
  UInt8.ofNat (packetDataSize / (Layouts.signature.size + Layouts.pubkey.size))

def SignatureFrame.tryNew := ArrayFrame.tryNew Layouts.signature maxSignaturesPerPacket

abbrev StaticAccountKeysFrame := ArrayFrame

/-- `LEGACY_OR_V0_MAX_STATIC_ACCOUNTS_PER_PACKET`. -/
def legacyOrV0MaxStaticAccountsPerPacket : UInt8 :=
  UInt8.ofNat (packetDataSize / Layouts.pubkey.size)

def StaticAccountKeysFrame.tryNew :=
  ArrayFrame.tryNew Layouts.pubkey legacyOrV0MaxStaticAccountsPerPacket

structure MessageHeaderFrame where
  offset : Nat
  version : TransactionVersion
  numRequiredSignatures : UInt8
  numReadonlySignedAccounts : UInt8
  numReadonlyUnsignedAccounts : UInt8
deriving DecidableEq

variable (asU16 : Nat → Nat) (bytes : List UInt8) (offset : Nat)

/-- The version of a message and the number of required signatures, which in a
    legacy message is the byte where another has the version. -/
def readVersion : Parse (TransactionVersion × UInt8 × Nat) := do
  let (messagePrefixByte, offset) ← readByte bytes offset
  if messagePrefixByte &&& messageVersionPrefix ≠ 0 then
    if messagePrefixByte &&& ~~~messageVersionPrefix = 0 then
      let (numRequiredSignatures, offset) ← readByte bytes offset
      return (.v0, numRequiredSignatures, offset)
    else .error (.error .parseError)
  else return (.legacy, messagePrefixByte, offset)

/-- `MessageHeaderFrame::try_new`. -/
def MessageHeaderFrame.tryNew : Parse (MessageHeaderFrame × Nat) := do
  let messageOffset := asU16 offset
  let (version, numRequiredSignatures, offset) ← readVersion bytes offset
  let (numReadonlySignedAccounts, offset) ← readByte bytes offset
  let (numReadonlyUnsignedAccounts, offset) ← readByte bytes offset
  return (⟨messageOffset, version, numRequiredSignatures, numReadonlySignedAccounts,
    numReadonlyUnsignedAccounts⟩, offset)

/-! ## Instructions -/

structure LegacyAndV0InstructionFrame where
  numAccounts : UInt16
  dataLen : UInt16
  numAccountsLen : UInt8
  dataLenLen : UInt8
deriving DecidableEq

structure V1InstructionHeader where
  programIdIndex : UInt8
  numAccounts : UInt8
  dataLen : U16
deriving DecidableEq

def V1InstructionHeader.layout : Layout V1InstructionHeader :=
  (Layout.uint8.pair (Layout.uint8.pair Layouts.u16)).congr
    { toFun := fun p => ⟨p.1, p.2.1, p.2.2⟩
      invFun := fun a => (a.programIdIndex, a.numAccounts, a.dataLen)
      left_inv := fun _ => rfl
      right_inv := fun _ => rfl }

inductive InstructionsFrame where
  | legacyAndV0 (numInstructions : UInt16) (offset : Nat)
      (frames : List LegacyAndV0InstructionFrame)
  | v1 (numInstructions : UInt16) (headersOffset payloadsOffset : Nat)
deriving DecidableEq

/-- A length and the bytes that it counts, which are skipped: the length, how
    many bytes it takes, and the offset after all. -/
def skipCounted : Parse (UInt16 × UInt8 × Nat) := do
  let lenOffset := offset
  let (len, offset) ← optimizedReadCompressedU16 bytes offset
  let lenLen := UInt8.ofNat (wrappingSub offset lenOffset)
  let offset ← advanceOffsetForArray Layout.uint8 bytes offset len
  return (len, lenLen, offset)

/-- The body of the loop over the instructions. -/
def parseInstruction : Parse (LegacyAndV0InstructionFrame × Nat) := do
  let (_programIdIndex, offset) ← readByte bytes offset
  let (numAccounts, numAccountsLen, offset) ← skipCounted bytes offset
  let (dataLen, dataLenLen, offset) ← skipCounted bytes offset
  return (⟨numAccounts, dataLen, numAccountsLen, dataLenLen⟩, offset)

/-- The loop over the instructions. -/
def parseInstructions (bytes : List UInt8) :
    Nat → Nat → Parse (List LegacyAndV0InstructionFrame × Nat)
  | 0, offset => .ok ([], offset)
  | n + 1, offset => do
    let (frame, offset) ← parseInstruction bytes offset
    let (frames, offset) ← parseInstructions bytes n offset
    return (frame :: frames, offset)

def InstructionsFrame.tryNewForLegacyAndV0 : Parse (InstructionsFrame × Nat) := do
  let (numInstructions, offset) ← optimizedReadCompressedU16 bytes offset
  checkRemaining bytes offset (wrappingMul 3 numInstructions.toNat)
  let instructionsOffset := asU16 offset
  let (frames, offset) ← parseInstructions bytes numInstructions.toNat offset
  return (.legacyAndV0 numInstructions instructionsOffset frames, offset)

def readV1Header : Parse (V1InstructionHeader × Nat) := do
  let header ← uncheckedCopyValue V1InstructionHeader.layout bytes offset
  return (header, wrappingAdd offset V1InstructionHeader.layout.size)

/-- `checked_add` of `usize`. -/
def checkedAdd (a b : Nat) : Parse Nat :=
  if a + b < 2 ^ 64 then .ok (a + b) else .error (.error .parseError)

/-- The loop over the headers, which adds up the lengths of the payloads. -/
def totalPayloadLen (bytes : List UInt8) : Nat → Nat → Nat → Parse Nat
  | 0, _, total => .ok total
  | n + 1, headerOffset, total => do
    let (header, headerOffset) ← readV1Header bytes headerOffset
    let payloadLen ← checkedAdd header.numAccounts.toNat header.dataLen.val
    let total ← checkedAdd total payloadLen
    totalPayloadLen bytes n headerOffset total

def InstructionsFrame.tryNewForV1 (numInstructions : UInt8) : Parse (InstructionsFrame × Nat) := do
  let headersOffset := asU16 offset
  let headersLen := wrappingMul V1InstructionHeader.layout.size numInstructions.toNat
  checkRemaining bytes offset headersLen
  let headerOffset := offset
  let offset := wrappingAdd offset headersLen
  let payloadsOffset := asU16 offset
  let total ← totalPayloadLen bytes numInstructions.toNat headerOffset 0
  checkRemaining bytes offset total
  return (.v1 numInstructions.toUInt16 headersOffset payloadsOffset, wrappingAdd offset total)

/-! ## Lookups -/

/-- `MIN_SIZED_ATL`. -/
def minSizedAtl : Nat := Layouts.pubkey.size + 1 + 1 + 1

/-- `MIN_SIZED_PACKET_WITH_ATLS`. -/
def minSizedPacketWithAtls : Nat :=
  1 + Layouts.signature.size + 1 + 3 + 1 + Layouts.pubkey.size + Layouts.hash.size + 1 + 1

/-- `MAX_ATLS_PER_PACKET`. -/
def maxAtlsPerPacket : UInt8 := UInt8.ofNat ((packetDataSize - minSizedPacketWithAtls) / minSizedAtl)

structure AddressTableLookupFrame where
  numAddressTableLookups : UInt8
  offset : Nat
  totalWritableLookupAccounts : Nat
  totalReadonlyLookupAccounts : Nat
deriving DecidableEq

/-- The frame of a transaction that has no lookups. -/
def AddressTableLookupFrame.absent : AddressTableLookupFrame := ⟨0, 0, 0, 0⟩

/-- `wrapping_add` of `u32`. -/
def wrappingAddU32 (a b : Nat) : Nat := (a + b) % 2 ^ 32

/-- The loop over the lookups, which adds up the accounts. -/
def parseLookups (bytes : List UInt8) : Nat → Nat → Nat → Nat → Parse (Nat × Nat × Nat)
  | 0, writable, readonly, offset => .ok (writable, readonly, offset)
  | n + 1, writable, readonly, offset => do
    let offset ← advanceOffsetForType Layouts.pubkey bytes offset
    let (numWriteAccounts, _, offset) ← skipCounted bytes offset
    let (numReadAccounts, _, offset) ← skipCounted bytes offset
    parseLookups bytes n (wrappingAddU32 writable numWriteAccounts.toNat)
      (wrappingAddU32 readonly numReadAccounts.toNat) offset

/-- `AddressTableLookupFrame::try_new`. -/
def AddressTableLookupFrame.tryNew : Parse (AddressTableLookupFrame × Nat) := do
  let (numAddressTableLookups, offset) ← readByte bytes offset
  if numAddressTableLookups > maxAtlsPerPacket then .error (.error .parseError)
  else
    checkRemaining bytes offset (wrappingMul minSizedAtl numAddressTableLookups.toNat)
    let addressTableLookupsOffset := asU16 offset
    let (writable, readonly, offset) ← parseLookups bytes numAddressTableLookups.toNat 0 0 offset
    let totalWritableLookupAccounts ← tryU16 .sanitizeError writable
    let totalReadonlyLookupAccounts ← tryU16 .sanitizeError readonly
    return (⟨numAddressTableLookups, addressTableLookupsOffset, totalWritableLookupAccounts,
      totalReadonlyLookupAccounts⟩, offset)

/-! ## The config -/

structure TransactionConfigFrame where
  maskOffset : Nat
  mask : UInt32
  valuesOffset : Nat
  numValues : UInt8
deriving DecidableEq

namespace TransactionConfigFrame

def notApplicable : TransactionConfigFrame := ⟨0, 0, 0, 0⟩

def hasBit (mask : UInt32) (bit : Nat) : Bool :=
  decide (bit < 32) && decide ((mask >>> UInt32.ofNat bit) &&& 1 ≠ 0)

def countOnes (mask : UInt32) : Nat := ((List.range 32).filter (hasBit mask)).length

def sanitizeMask (mask : UInt32) : Parse Unit :=
  if mask &&& ~~~0b11111 ≠ 0 then .error (.error .sanitizeError)
  else if hasBit mask 0 ^^ hasBit mask 1 then .error (.error .sanitizeError)
  else .ok ()

/-- `TransactionConfigFrame::try_new`. -/
def tryNew (maskOffset : Nat) (mask : UInt32) (offset : Nat) : Parse (TransactionConfigFrame × Nat) :=
  if maskOffset = 0 then .error .panicked
  else do
    sanitizeMask mask
    let numValues := UInt8.ofNat (countOnes mask)
    let maskOffset ← tryU16 .sanitizeError maskOffset
    let valuesOffset ← tryU16 .sanitizeError offset
    let offset ← advanceOffsetForArray Layouts.u32 bytes offset numValues.toUInt16
    return (⟨maskOffset, mask, valuesOffset, numValues⟩, offset)

end TransactionConfigFrame

/-! ## Transactions -/

structure TransactionFrame where
  signature : SignatureFrame
  messageHeader : MessageHeaderFrame
  staticAccountKeys : StaticAccountKeysFrame
  recentBlockhashOffset : Nat
  instructions : InstructionsFrame
  addressTableLookup : AddressTableLookupFrame
  transactionConfigFrame : TransactionConfigFrame
  dataLen : Nat
deriving DecidableEq

namespace TransactionFrame

/-- The lookups of a version that the legacy parser reads. -/
def lookupsForVersion : TransactionVersion → Parse (AddressTableLookupFrame × Nat)
  | .legacy => .ok (.absent, offset)
  | .v0 => AddressTableLookupFrame.tryNew asU16 bytes offset
  | .v1 => .error .panicked

def tryNewAsLegacyOrV0 : Parse TransactionFrame := do
  let (signature, offset) ← SignatureFrame.tryNew asU16 bytes 0
  let (messageHeader, offset) ← MessageHeaderFrame.tryNew asU16 bytes offset
  let (staticAccountKeys, offset) ← StaticAccountKeysFrame.tryNew asU16 bytes offset
  let recentBlockhashOffset ← checkedOffset offset
  let offset ← advanceOffsetForType Layouts.hash bytes offset
  let (instructions, offset) ← InstructionsFrame.tryNewForLegacyAndV0 asU16 bytes offset
  let (addressTableLookup, offset) ← lookupsForVersion asU16 bytes offset messageHeader.version
  if offset ≠ bytes.length then .error (.error .parseError)
  else
    let dataLen ← checkedOffset offset
    .ok
      { signature := signature
        messageHeader := messageHeader
        staticAccountKeys := staticAccountKeys
        recentBlockhashOffset := recentBlockhashOffset
        instructions := instructions
        addressTableLookup := addressTableLookup
        transactionConfigFrame := .notApplicable
        dataLen := dataLen }

/-- `FIXED_V1_PREFIX_LEN`. -/
def fixedV1PrefixLen : Nat := 1 + 3 + 4 + Layouts.hash.size + 1 + 1

def tryNewAsV1 : Parse TransactionFrame := do
  let offset := 0
  checkRemaining bytes offset fixedV1PrefixLen
  let messageOffset := asU16 offset
  let (version, offset) ← uncheckedReadByte bytes offset
  if version &&& ~~~messageVersionPrefix ≠ 1 then .error (.error .parseError)
  else
    let (numRequiredSignatures, offset) ← uncheckedReadByte bytes offset
    let (numReadonlySignedAccounts, offset) ← uncheckedReadByte bytes offset
    let (numReadonlyUnsignedAccounts, offset) ← uncheckedReadByte bytes offset
    let transactionConfigMaskOffset := offset
    let transactionConfigMask ← uncheckedCopyValue layoutMask bytes offset
    let offset := wrappingAdd offset layoutMask.size
    let recentBlockhashOffset ← checkedOffset offset
    let offset := wrappingAdd offset Layouts.hash.size
    let (numInstructions, offset) ← uncheckedReadByte bytes offset
    let (numAddresses, offset) ← uncheckedReadByte bytes offset
    let addressesOffset ← checkedOffset offset
    let offset ← advanceOffsetForArray Layouts.pubkey bytes offset numAddresses.toUInt16
    let (transactionConfigFrame, offset) ← TransactionConfigFrame.tryNew bytes
      transactionConfigMaskOffset transactionConfigMask offset
    let (instructions, offset) ← InstructionsFrame.tryNewForV1 asU16 bytes offset numInstructions
    let signaturesOffset ← checkedOffset offset
    let offset ← advanceOffsetForArray Layouts.signature bytes offset
      numRequiredSignatures.toUInt16
    if offset ≠ bytes.length then .error (.error .parseError)
    else
      let dataLen ← checkedOffset offset
      .ok
        { signature := ⟨numRequiredSignatures, signaturesOffset⟩
          messageHeader := ⟨messageOffset, .v1, numRequiredSignatures, numReadonlySignedAccounts,
            numReadonlyUnsignedAccounts⟩
          staticAccountKeys := ⟨numAddresses, addressesOffset⟩
          recentBlockhashOffset := recentBlockhashOffset
          instructions := instructions
          addressTableLookup := .absent
          transactionConfigFrame := transactionConfigFrame
          dataLen := dataLen }

def isLegacyOrV0 : Parse Bool :=
  match bytes.head? with
  | none => .error (.error .parseError)
  | some firstByte => .ok (decide (firstByte &&& messageVersionPrefix = 0))

/-- `try_new`, with the casts left open. -/
def tryNewWith : Parse TransactionFrame := do
  if (← isLegacyOrV0 bytes) then tryNewAsLegacyOrV0 asU16 bytes else tryNewAsV1 asU16 bytes

/-- `TransactionFrame::try_new`. -/
def tryNew : Parse TransactionFrame := tryNewWith truncateU16 bytes

end TransactionFrame

end Agave.TxView
