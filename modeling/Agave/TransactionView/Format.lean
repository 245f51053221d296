/-
  Agave.TransactionView.Format

  Transactions and their wire format, in the three versions.

  A legacy transaction and one of version 0 begin with the signatures, and their sequences with a
  length of one to three bytes.  A transaction of version 1 ends with the signatures; its lengths
  stand in front, and so do the headers of its instructions.
-/

import Agave.TransactionView.Bytes

namespace Agave.TxView

open Lib

/-- An instruction: the index of the program, and those of the accounts. -/
structure Instruction where
  programIdIndex : UInt8
  accounts : List UInt8
  data : List UInt8
deriving DecidableEq

/-- A lookup of addresses in a table. -/
structure AddressTableLookup where
  accountKey : Pubkey
  writableIndexes : List UInt8
  readonlyIndexes : List UInt8
deriving DecidableEq

structure MessageHeader where
  numRequiredSignatures : UInt8
  numReadonlySignedAccounts : UInt8
  numReadonlyUnsignedAccounts : UInt8
deriving DecidableEq

/-- The values that the config of a transaction of version 1 may have. -/
structure TransactionConfig where
  priorityFeeLamports : Option U64
  computeUnitLimit : Option U32
  loadedAccountsDataSizeLimit : Option U32
  requestedHeapSize : Option U32
deriving DecidableEq

/-- What only some versions have. -/
inductive Versioned where
  | legacy
  | v0 (addressTableLookups : List AddressTableLookup)
  | v1 (config : TransactionConfig)
deriving DecidableEq

/-- A transaction. -/
structure Transaction where
  signatures : List Signature
  header : MessageHeader
  staticAccountKeys : List Pubkey
  recentBlockhash : Hash
  instructions : List Instruction
  versioned : Versioned
deriving DecidableEq

/-! ## Legacy and version 0 -/

def MessageHeader.encode (header : MessageHeader) : List UInt8 :=
  [header.numRequiredSignatures, header.numReadonlySignedAccounts,
    header.numReadonlyUnsignedAccounts]

variable (instruction : Instruction)

def Instruction.encode : List UInt8 :=
  [instruction.programIdIndex] ++ (shortVec instruction.accounts.length ++
    (instruction.accounts ++ (shortVec instruction.data.length ++ instruction.data)))

def AddressTableLookup.encode (lookup : AddressTableLookup) : List UInt8 :=
  Layouts.pubkey.encode lookup.accountKey ++ (shortVec lookup.writableIndexes.length ++
    (lookup.writableIndexes ++ (shortVec lookup.readonlyIndexes.length ++ lookup.readonlyIndexes)))

/-- `MESSAGE_VERSION_PREFIX`. -/
def messageVersionPrefix : UInt8 := 0x80

namespace Transaction

variable (tx : Transaction)

/-- The signatures, in front. -/
def encodeSignatures : List UInt8 :=
  shortVec tx.signatures.length ++ Layouts.signature.encodeAll tx.signatures

/-- The keys. -/
def encodeKeys : List UInt8 :=
  shortVec tx.staticAccountKeys.length ++ Layouts.pubkey.encodeAll tx.staticAccountKeys

/-- The instructions, one after the other. -/
def encodeInstructions : List UInt8 :=
  shortVec tx.instructions.length ++ tx.instructions.flatMap Instruction.encode

/-- The rest of a message, after the version. -/
def encodeMessage : List UInt8 :=
  tx.header.encode ++ (tx.encodeKeys ++ (Layouts.hash.encode tx.recentBlockhash ++
    tx.encodeInstructions))

end Transaction

def encodeLookups (lookups : List AddressTableLookup) : List UInt8 :=
  shortVec lookups.length ++ lookups.flatMap AddressTableLookup.encode

/-! ## Version 1 -/

/-- The bits of a mask, in the form of a `u32`. -/
def layoutMask : Layout UInt32 :=
  .number 4 UInt32.toNat UInt32.ofNat (fun a => a.toNat_lt) (fun _ => UInt32.ofNat_toNat)
    (fun _ h => UInt32.toNat_ofNat_of_lt' h)

/-- A value, if it is there. -/
def encodeSome {α : Type} (layout : Layout α) : Option α → List UInt8
  | none => []
  | some a => layout.encode a

/-- The mask of a config, by which values there are: a bit for each word. -/
def maskOf (priorityFee computeUnitLimit dataSizeLimit heapSize : Bool) : UInt32 :=
  (if priorityFee then 0b00011 else 0) ||| (if computeUnitLimit then 0b00100 else 0) |||
    (if dataSizeLimit then 0b01000 else 0) ||| (if heapSize then 0b10000 else 0)

namespace TransactionConfig

def mask (config : TransactionConfig) : UInt32 :=
  maskOf config.priorityFeeLamports.isSome config.computeUnitLimit.isSome
    config.loadedAccountsDataSizeLimit.isSome config.requestedHeapSize.isSome

/-- The values, in the order of their bits. -/
def encode (config : TransactionConfig) : List UInt8 :=
  encodeSome Layouts.u64 config.priorityFeeLamports ++
    (encodeSome Layouts.u32 config.computeUnitLimit ++
    (encodeSome Layouts.u32 config.loadedAccountsDataSizeLimit ++
    encodeSome Layouts.u32 config.requestedHeapSize))

end TransactionConfig

/-- The header of an instruction: the program, and the lengths. -/
def Instruction.encodeHeader : List UInt8 :=
  [instruction.programIdIndex, UInt8.ofNat instruction.accounts.length] ++
    leBytes 2 instruction.data.length

/-- The rest of an instruction. -/
def Instruction.encodePayload : List UInt8 :=
  instruction.accounts ++ instruction.data

namespace Transaction

variable (tx : Transaction)

/-- A message of version 1, without the version. -/
def encodeMessageV1 (config : TransactionConfig) : List UInt8 :=
  tx.header.encode ++ (layoutMask.encode config.mask ++
    (Layouts.hash.encode tx.recentBlockhash ++
    ([UInt8.ofNat tx.instructions.length] ++
    ([UInt8.ofNat tx.staticAccountKeys.length] ++
    (Layouts.pubkey.encodeAll tx.staticAccountKeys ++
    (config.encode ++
    (tx.instructions.flatMap Instruction.encodeHeader ++
    tx.instructions.flatMap Instruction.encodePayload)))))))

/-- The message of a transaction, which is what is signed. -/
def message : List UInt8 :=
  match tx.versioned with
  | .legacy => tx.encodeMessage
  | .v0 lookups => [messageVersionPrefix] ++ (tx.encodeMessage ++ encodeLookups lookups)
  | .v1 config => [messageVersionPrefix ||| 1] ++ tx.encodeMessageV1 config

/-- The wire format of a transaction. -/
def encode : List UInt8 :=
  match tx.versioned with
  | .legacy => tx.encodeSignatures ++ tx.encodeMessage
  | .v0 lookups =>
    tx.encodeSignatures ++ ([messageVersionPrefix] ++ (tx.encodeMessage ++ encodeLookups lookups))
  | .v1 config =>
    [messageVersionPrefix ||| 1] ++
      (tx.encodeMessageV1 config ++ Layouts.signature.encodeAll tx.signatures)

end Transaction

end Agave.TxView
