/-
  Agave.TransactionView.Parser

  What the parser accepts: exactly the encodings of the transactions that stay within its bounds.
  The frame it returns is the one of the transaction.
-/

import Agave.TransactionView.Sections

namespace Agave.TxView

open Lib List TransactionFrame TxView.Transaction

/-! ## Frames of transactions -/

namespace Versioned

def version : Versioned → TransactionVersion
  | legacy => .legacy
  | v0 _ => .v0
  | v1 _ => .v1

/-- The lookups of a transaction. -/
def lookups : Versioned → List AddressTableLookup
  | legacy => []
  | v0 lookups => lookups
  | v1 _ => []

/-- What stands after the instructions of a message. -/
def encodeTail : Versioned → List UInt8
  | legacy => []
  | v0 lookups => encodeLookups lookups
  | v1 _ => []

/-- The frame of the lookups that begin at an offset. -/
def lookupsFrame (asU16 : Nat → Nat) (offset : Nat) : Versioned → AddressTableLookupFrame
  | legacy => .absent
  | v0 lookups => ⟨UInt8.ofNat lookups.length, asU16 (offset + 1), totalWritable lookups,
      totalReadonly lookups⟩
  | v1 _ => .absent

/-- The bounds of the lookups. -/
structure LookupsAccepted (lookups : List AddressTableLookup) : Prop where
  length_le : lookups.length ≤ maxAtlsPerPacket.toNat
  short : ∀ lookup ∈ lookups, lookup.Short
  writable_lt : totalWritable lookups < 2 ^ 16
  readonly_lt : totalReadonly lookups < 2 ^ 16
  size_le : minSizedAtl * lookups.length ≤ (lookups.flatMap AddressTableLookup.encode).length

end Versioned

variable {tx : Transaction} {config : TransactionConfig} {bytes : List UInt8}
  {asU16 : Nat → Nat}

namespace Transaction

variable (tx config)

def messageOffset : Nat := tx.encodeSignatures.length

def keysOffset : Nat :=
  tx.messageOffset + (tx.versioned.version.bytes ++ tx.header.encode).length

def hashOffset : Nat := tx.keysOffset + tx.encodeKeys.length

def instructionsOffset : Nat :=
  tx.hashOffset + (Layouts.hash.encode tx.recentBlockhash).length

def tailOffset : Nat := tx.instructionsOffset + tx.encodeInstructions.length

/-- The frame of a legacy transaction, or one of version 0. -/
def frameLegacyOrV0 (asU16 : Nat → Nat) (tx : Transaction) : TransactionFrame where
  signature := ⟨UInt8.ofNat tx.signatures.length, asU16 1⟩
  messageHeader := ⟨asU16 tx.messageOffset, tx.versioned.version, tx.header.numRequiredSignatures,
    tx.header.numReadonlySignedAccounts, tx.header.numReadonlyUnsignedAccounts⟩
  staticAccountKeys := ⟨UInt8.ofNat tx.staticAccountKeys.length, asU16 (tx.keysOffset + 1)⟩
  recentBlockhashOffset := tx.hashOffset
  instructions := .legacyAndV0 (UInt16.ofNat tx.instructions.length)
    (asU16 (tx.instructionsOffset + (shortVec tx.instructions.length).length))
    (tx.instructions.map Instruction.frame)
  addressTableLookup := tx.versioned.lookupsFrame asU16 tx.tailOffset
  transactionConfigFrame := .notApplicable
  dataLen := tx.encode.length

/-- What the parser of legacy transactions and version 0 checks. -/
structure AcceptedLegacyOrV0 (tx : Transaction) : Prop where
  version : tx.versioned.version ≠ .v1
  signatures_pos : 0 < tx.signatures.length
  signatures_le : tx.signatures.length ≤ maxSignaturesPerPacket.toNat
  required : tx.versioned.version = .legacy → tx.header.numRequiredSignatures.toNat < 2 ^ 7
  keys_pos : 0 < tx.staticAccountKeys.length
  keys_le : tx.staticAccountKeys.length ≤ legacyOrV0MaxStaticAccountsPerPacket.toNat
  instructions_lt : tx.instructions.length < 2 ^ 14
  short : ∀ instruction ∈ tx.instructions, instruction.Short
  lookups : Versioned.LookupsAccepted tx.versioned.lookups
  length_lt : tx.encode.length < 2 ^ 16

def configOffset : Nat :=
  TransactionFrame.fixedV1PrefixLen + (Layouts.pubkey.encodeAll tx.staticAccountKeys).length

def headersOffset : Nat :=
  tx.configOffset + config.encode.length

def payloadsOffset : Nat :=
  tx.headersOffset config + (tx.instructions.flatMap Instruction.encodeHeader).length

def signaturesOffset : Nat :=
  tx.payloadsOffset config + (tx.instructions.flatMap Instruction.encodePayload).length

/-- The frame of a transaction of version 1. -/
def frameV1 (asU16 : Nat → Nat) (tx : Transaction) (config : TransactionConfig) :
    TransactionFrame where
  signature := ⟨tx.header.numRequiredSignatures, tx.signaturesOffset config⟩
  messageHeader := ⟨asU16 0, .v1, tx.header.numRequiredSignatures,
    tx.header.numReadonlySignedAccounts, tx.header.numReadonlyUnsignedAccounts⟩
  staticAccountKeys := ⟨UInt8.ofNat tx.staticAccountKeys.length,
    TransactionFrame.fixedV1PrefixLen⟩
  recentBlockhashOffset := 8
  instructions := .v1 (UInt8.ofNat tx.instructions.length).toUInt16
    (asU16 (tx.headersOffset config)) (asU16 (tx.payloadsOffset config))
  addressTableLookup := .absent
  transactionConfigFrame := ⟨4, config.mask, tx.configOffset,
    UInt8.ofNat (TransactionConfigFrame.countOnes config.mask)⟩
  dataLen := tx.encode.length

/-- What the parser of version 1 checks. -/
structure AcceptedV1 (tx : Transaction) (config : TransactionConfig) : Prop where
  versioned : tx.versioned = .v1 config
  signatures : tx.signatures.length = tx.header.numRequiredSignatures.toNat
  keys_lt : tx.staticAccountKeys.length < 2 ^ 8
  instructions_lt : tx.instructions.length < 2 ^ 8
  short : ∀ instruction ∈ tx.instructions, instruction.ShortV1
  length_lt : tx.encode.length < 2 ^ 16

variable {tx config}

theorem encode_eq (h : tx.versioned.version ≠ .v1) :
    tx.encode = tx.encodeSignatures ++ tx.message := by
  rw [encode, message]
  cases hversioned : tx.versioned with
  | legacy => rfl
  | v0 lookups => rfl
  | v1 config => exact absurd (by rw [hversioned]; rfl) h

/-- The message, in the sections that the parser goes through. -/
theorem message_eq (h : tx.versioned.version ≠ .v1) :
    tx.message = (tx.versioned.version.bytes ++ tx.header.encode) ++
      (tx.encodeKeys ++ (Layouts.hash.encode tx.recentBlockhash ++
      (tx.encodeInstructions ++ tx.versioned.encodeTail))) := by
  rw [message]
  cases hversioned : tx.versioned with
  | legacy => simp only [encodeMessage, Versioned.version, TransactionVersion.bytes,
      Versioned.encodeTail, nil_append, append_nil]
  | v0 lookups => simp only [encodeMessage, Versioned.version, TransactionVersion.bytes,
      Versioned.encodeTail, append_assoc]
  | v1 config => exact absurd (by rw [hversioned]; rfl) h

/-- The sections of a legacy transaction, or one of version 0, stand in the bytes
    one after the other. -/
structure Sections (tx : Transaction) (bytes : List UInt8) : Prop where
  signatures : Parsed bytes 0 tx.encodeSignatures tx.messageOffset
  header : Parsed bytes tx.messageOffset (tx.versioned.version.bytes ++ tx.header.encode)
    tx.keysOffset
  keys : Parsed bytes tx.keysOffset tx.encodeKeys tx.hashOffset
  hash : Parsed bytes tx.hashOffset (Layouts.hash.encode tx.recentBlockhash) tx.instructionsOffset
  instructions : Parsed bytes tx.instructionsOffset tx.encodeInstructions tx.tailOffset
  tail : Parsed bytes tx.tailOffset tx.versioned.encodeTail bytes.length

theorem sections_iff (h : tx.versioned.version ≠ .v1) :
    tx.Sections bytes ↔ tx.encode = bytes := by
  rw [encode_eq h, message_eq h]
  constructor
  · rintro ⟨hsignatures, hheader, hkeys, hhash, hinstructions, htail⟩
    exact (hsignatures.append (hheader.append (hkeys.append (hhash.append
      (hinstructions.append htail))))).whole
  · intro hencode
    obtain ⟨hsignatures, hrest⟩ := (Parsed.of_eq hencode).split
    rw [Nat.zero_add] at hsignatures hrest
    obtain ⟨hheader, hrest⟩ := hrest.split
    obtain ⟨hkeys, hrest⟩ := hrest.split
    obtain ⟨hhash, hrest⟩ := hrest.split
    obtain ⟨hinstructions, htail⟩ := hrest.split
    exact ⟨hsignatures, hheader, hkeys, hhash, hinstructions, htail⟩

/-- The sections of a transaction of version 1.  The first ones have a fixed length. -/
structure SectionsV1 (tx : Transaction) (config : TransactionConfig) (bytes : List UInt8) :
    Prop where
  version : Parsed bytes 0 [messageVersionPrefix ||| 1] 1
  required : Parsed bytes 1 [tx.header.numRequiredSignatures] 2
  signed : Parsed bytes 2 [tx.header.numReadonlySignedAccounts] 3
  unsigned : Parsed bytes 3 [tx.header.numReadonlyUnsignedAccounts] 4
  mask : Parsed bytes 4 (layoutMask.encode config.mask) 8
  hash : Parsed bytes 8 (Layouts.hash.encode tx.recentBlockhash) 40
  numInstructions : Parsed bytes 40 [UInt8.ofNat tx.instructions.length] 41
  numAddresses : Parsed bytes 41 [UInt8.ofNat tx.staticAccountKeys.length] 42
  keys : Parsed bytes 42 (Layouts.pubkey.encodeAll tx.staticAccountKeys) tx.configOffset
  values : Parsed bytes tx.configOffset config.encode (tx.headersOffset config)
  headers : Parsed bytes (tx.headersOffset config)
    (tx.instructions.flatMap Instruction.encodeHeader) (tx.payloadsOffset config)
  payloads : Parsed bytes (tx.payloadsOffset config)
    (tx.instructions.flatMap Instruction.encodePayload) (tx.signaturesOffset config)
  signatures : Parsed bytes (tx.signaturesOffset config)
    (Layouts.signature.encodeAll tx.signatures) bytes.length

theorem sectionsV1_iff (h : tx.versioned = .v1 config) :
    tx.SectionsV1 config bytes ↔ tx.encode = bytes := by
  have hencode : tx.encode = ([messageVersionPrefix ||| 1] ++ ([tx.header.numRequiredSignatures] ++
      ([tx.header.numReadonlySignedAccounts] ++ ([tx.header.numReadonlyUnsignedAccounts] ++
      (layoutMask.encode config.mask ++ (Layouts.hash.encode tx.recentBlockhash ++
      ([UInt8.ofNat tx.instructions.length] ++ ([UInt8.ofNat tx.staticAccountKeys.length] ++
      (Layouts.pubkey.encodeAll tx.staticAccountKeys ++ (config.encode ++
      (tx.instructions.flatMap Instruction.encodeHeader ++
      (tx.instructions.flatMap Instruction.encodePayload ++
      Layouts.signature.encodeAll tx.signatures)))))))))))) := by
    rw [encode, h]
    simp only [encodeMessageV1, MessageHeader.encode, append_assoc, cons_append, nil_append]
  rw [hencode]
  constructor
  · rintro ⟨h₁, h₂, h₃, h₄, h₅, h₆, h₇, h₈, h₉, h₁₀, h₁₁, h₁₂, h₁₃⟩
    exact (h₁.append (h₂.append (h₃.append (h₄.append (h₅.append (h₆.append (h₇.append (h₈.append
      (h₉.append (h₁₀.append (h₁₁.append (h₁₂.append h₁₃)))))))))))).whole
  · intro hbytes
    obtain ⟨hversion, hrest⟩ := (Parsed.of_eq hbytes).split
    obtain ⟨hrequired, hrest⟩ := hrest.split
    obtain ⟨hsigned, hrest⟩ := hrest.split
    obtain ⟨hunsigned, hrest⟩ := hrest.split
    obtain ⟨hmask, hrest⟩ := hrest.split
    rw [layoutMask.length_encode] at hmask hrest
    obtain ⟨hhash, hrest⟩ := hrest.split
    rw [Layouts.hash.length_encode] at hhash hrest
    obtain ⟨hnumInstructions, hrest⟩ := hrest.split
    obtain ⟨hnumAddresses, hrest⟩ := hrest.split
    obtain ⟨hkeys, hrest⟩ := hrest.split
    obtain ⟨hconfig, hrest⟩ := hrest.split
    obtain ⟨hheaders, hrest⟩ := hrest.split
    obtain ⟨hpayloads, hsignatures⟩ := hrest.split
    exact ⟨hversion, hrequired, hsigned, hunsigned, hmask, hhash, hnumInstructions, hnumAddresses,
      hkeys, hconfig, hheaders, hpayloads, hsignatures⟩

end Transaction

theorem Versioned.LookupsAccepted.nil : LookupsAccepted [] where
  length_le := Nat.zero_le _
  short := fun _ h => absurd h not_mem_nil
  writable_lt := by decide
  readonly_lt := by decide
  size_le := Nat.le_refl _

/-- The first byte that the parser of version 1 takes. -/
theorem version_eq {version : UInt8} (hhigh : version &&& messageVersionPrefix ≠ 0)
    (hlow : version &&& ~~~messageVersionPrefix = 1) : version = messageVersionPrefix ||| 1 := by
  have h : ∀ n : Fin 256, UInt8.ofNat n.val &&& messageVersionPrefix ≠ 0 →
      UInt8.ofNat n.val &&& ~~~messageVersionPrefix = 1 →
      UInt8.ofNat n.val = messageVersionPrefix ||| 1 := by
    decide +kernel
  have hversion := h ⟨version.toNat, version.toNat_lt⟩
  rw [UInt8.ofNat_toNat] at hversion
  exact hversion hhigh hlow

theorem isLegacyOrV0_eq_ok {flag : Bool} :
    isLegacyOrV0 bytes = .ok flag ↔
      ∃ byte, At bytes 0 [byte] ∧ flag = decide (byte &&& messageVersionPrefix = 0) := by
  simp only [isLegacyOrV0, at_singleton]
  cases bytes with
  | nil => exact ⟨fun h => (nomatch h), fun ⟨_, hat, _⟩ => (nomatch hat)⟩
  | cons byte rest =>
    simp only [head?_cons, Except.ok.injEq, getElem?_cons_zero, Option.some.injEq, exists_eq_left']
    exact eq_comm

section

variable {offset offset' : Nat} {frame : TransactionFrame} (hsize : bytes.length < 2 ^ 63)

include hsize

theorem lookupsForVersion_eq_ok {version : TransactionVersion} {frame : AddressTableLookupFrame}
    (hle : offset ≤ bytes.length) (hend : offset' = bytes.length) :
    lookupsForVersion asU16 bytes offset version = .ok (frame, offset') ↔
      ∃ versioned : Versioned, versioned.version = version ∧ version ≠ .v1 ∧
        Versioned.LookupsAccepted versioned.lookups ∧
        frame = versioned.lookupsFrame asU16 offset ∧
        Parsed bytes offset versioned.encodeTail offset' := by
  cases version with
  | legacy =>
    constructor
    · intro h
      cases h
      exact ⟨.legacy, rfl, by decide, .nil, rfl, at_nil.mpr hle, rfl⟩
    · rintro ⟨versioned, hversion, -, -, rfl, hparsed⟩
      cases versioned with
      | legacy =>
        obtain ⟨-, rfl⟩ := hparsed
        rfl
      | v0 lookups => cases hversion
      | v1 config => cases hversion
  | v0 =>
    rw [lookupsForVersion, AddressTableLookupFrame.tryNew_eq_ok hsize]
    constructor
    · rintro ⟨lookups, hle', hshorts, hwritable, hreadonly, hroom, rfl, hparsed⟩
      refine ⟨.v0 lookups, rfl, by decide, ⟨hle', hshorts, hwritable, hreadonly, ?_⟩, rfl, hparsed⟩
      have hlength := hparsed.2
      have hmax : maxAtlsPerPacket.toNat = 31 := by decide
      rw [encodeLookups, shortVec_of_lt (by omega), length_append, length_singleton]
        at hlength
      show minSizedAtl * lookups.length ≤ (lookups.flatMap AddressTableLookup.encode).length
      omega
    · rintro ⟨versioned, hversion, -, haccepted, rfl, hparsed⟩
      cases versioned with
      | legacy => cases hversion
      | v0 lookups =>
        obtain ⟨hle', hshorts, hwritable, hreadonly, hsizes⟩ := haccepted
        refine ⟨lookups, hle', hshorts, hwritable, hreadonly, ?_, rfl, hparsed⟩
        have hlength : offset' = offset + (encodeLookups lookups).length := hparsed.2
        have hpos := length_shortVec_pos lookups.length
        rw [encodeLookups, length_append] at hlength
        have hsizes' : minSizedAtl * lookups.length ≤
          (lookups.flatMap AddressTableLookup.encode).length := hsizes
        omega
      | v1 config => cases hversion
  | v1 =>
    constructor
    · intro h
      cases h
    · rintro ⟨_, _, hne, _⟩
      exact absurd rfl hne

theorem tryNewAsLegacyOrV0_eq_ok :
    tryNewAsLegacyOrV0 asU16 bytes = .ok frame ↔
      ∃ tx : Transaction, tx.AcceptedLegacyOrV0 ∧ tx.encode = bytes ∧
        frame = tx.frameLegacyOrV0 asU16 := by
  have hmaxSignatures : maxSignaturesPerPacket.toNat < 2 ^ 7 := by decide
  have hmaxKeys : legacyOrV0MaxStaticAccountsPerPacket.toNat < 2 ^ 7 := by decide
  unfold tryNewAsLegacyOrV0
  constructor
  · intro h
    obtain ⟨⟨signature, offset₁⟩, hsignature, h⟩ := bind_eq_ok_iff.mp h
    obtain ⟨⟨messageHeader, offset₂⟩, hheader, h⟩ := bind_eq_ok_iff.mp h
    obtain ⟨⟨staticAccountKeys, offset₃⟩, hkeys, h⟩ := bind_eq_ok_iff.mp h
    obtain ⟨-, h⟩ := tryU16_bind.mp h
    obtain ⟨offset₄, hhash, h⟩ := bind_eq_ok_iff.mp h
    obtain ⟨⟨instructionsFrame, offset₅⟩, hinstructions, h⟩ := bind_eq_ok_iff.mp h
    obtain ⟨⟨lookupsFrame, offset₆⟩, hlookups, h⟩ := bind_eq_ok_iff.mp h
    obtain ⟨hend, h⟩ := guard_eq_ok_iff.mp h
    obtain ⟨hdataLt, h⟩ := tryU16_bind.mp h
    cases h
    rw [not_not] at hend
    obtain ⟨signatures, hsignaturesPos, hsignaturesLe, rfl, hsignatures⟩ :=
      (ArrayFrame.tryNew_eq_ok hsize (by decide) hmaxSignatures).mp hsignature
    obtain ⟨version, header, hversion, rfl, hheader'⟩ :=
      (MessageHeaderFrame.tryNew_eq_ok hsize).mp hheader
    obtain ⟨keys, hkeysPos, hkeysLe, rfl, hkeys'⟩ :=
      (ArrayFrame.tryNew_eq_ok hsize (by decide) hmaxKeys).mp hkeys
    obtain ⟨hash, hhash'⟩ := (advanceOffsetForType_eq_ok hsize hkeys'.le).mp hhash
    obtain ⟨instructions, hinstructionsLt, hshorts, rfl, hinstructions'⟩ :=
      (InstructionsFrame.tryNewForLegacyAndV0_eq_ok hsize).mp hinstructions
    obtain ⟨versioned, rfl, hne, haccepted, rfl, hlookups'⟩ :=
      (lookupsForVersion_eq_ok hsize hinstructions'.le hend).mp hlookups
    let tx : Transaction := ⟨signatures, header, keys, hash, instructions, versioned⟩
    obtain rfl : offset₁ = tx.messageOffset := by rw [hsignatures.2, Nat.zero_add]; rfl
    obtain rfl : offset₂ = tx.keysOffset := hheader'.2
    obtain rfl : offset₃ = tx.hashOffset := hkeys'.2
    obtain rfl : offset₄ = tx.instructionsOffset := hhash'.2
    obtain rfl : offset₅ = tx.tailOffset := hinstructions'.2
    subst hend
    have hencode : tx.encode = bytes := (sections_iff hne).mp
      ⟨hsignatures, hheader', hkeys', hhash', hinstructions', hlookups'⟩
    refine ⟨tx, ⟨hne, hsignaturesPos, hsignaturesLe, ?_, hkeysPos, hkeysLe, hinstructionsLt,
      hshorts, haccepted, hencode ▸ hdataLt⟩, hencode, ?_⟩
    · intro hlegacy
      rcases hversion with ⟨-, hrequired⟩ | hv0
      · exact hrequired
      · exact absurd (hlegacy.symm.trans hv0) (by decide)
    · rw [frameLegacyOrV0, hencode]
  · rintro ⟨tx, haccepted, hencode, rfl⟩
    obtain ⟨hne, hsignaturesPos, hsignaturesLe, hrequired, hkeysPos, hkeysLe, hinstructionsLt,
      hshorts, hlookups, hlength⟩ := haccepted
    rw [hencode] at hlength
    obtain ⟨hsignatures, hheader, hkeys, hhash, hinstructions, htail⟩ :=
      (sections_iff hne).mpr hencode
    have hversion : tx.versioned.version = .legacy ∧
        tx.header.numRequiredSignatures.toNat < 2 ^ 7 ∨ tx.versioned.version = .v0 := by
      cases hcase : tx.versioned.version with
      | legacy => exact Or.inl ⟨rfl, hrequired hcase⟩
      | v0 => exact Or.inr rfl
      | v1 => exact absurd hcase hne
    refine bind_ok ((ArrayFrame.tryNew_eq_ok hsize (by decide) hmaxSignatures).mpr
      ⟨tx.signatures, hsignaturesPos, hsignaturesLe, rfl, hsignatures⟩) ?_
    refine bind_ok ((MessageHeaderFrame.tryNew_eq_ok hsize).mpr
      ⟨tx.versioned.version, tx.header, hversion, rfl, hheader⟩) ?_
    refine bind_ok ((ArrayFrame.tryNew_eq_ok hsize (by decide) hmaxKeys).mpr
      ⟨tx.staticAccountKeys, hkeysPos, hkeysLe, rfl, hkeys⟩) ?_
    refine tryU16_bind.mpr ⟨lt_of_le_of_lt hkeys.le hlength, ?_⟩
    refine bind_ok ((advanceOffsetForType_eq_ok hsize hkeys.le).mpr ⟨tx.recentBlockhash, hhash⟩) ?_
    refine bind_ok ((InstructionsFrame.tryNewForLegacyAndV0_eq_ok hsize).mpr
      ⟨tx.instructions, hinstructionsLt, hshorts, rfl, hinstructions⟩) ?_
    refine bind_ok ((lookupsForVersion_eq_ok hsize hinstructions.le rfl).mpr
      ⟨tx.versioned, rfl, hne, hlookups, rfl, htail⟩) ?_
    refine guard_eq_ok_iff.mpr ⟨not_not.mpr rfl, ?_⟩
    rw [frameLegacyOrV0, hencode]
    exact tryU16_bind.mpr ⟨hlength, rfl⟩

theorem tryNewAsV1_eq_ok (hfirst : isLegacyOrV0 bytes = .ok false) :
    tryNewAsV1 asU16 bytes = .ok frame ↔
      ∃ (tx : Transaction) (config : TransactionConfig), tx.AcceptedV1 config ∧
        tx.encode = bytes ∧ frame = tx.frameV1 asU16 config := by
  obtain ⟨first, hfirstAt, hfirst⟩ := isLegacyOrV0_eq_ok.mp hfirst
  unfold tryNewAsV1
  constructor
  · intro h
    obtain ⟨hroom, h⟩ := check_bind_eq_ok_iff.mp h
    obtain ⟨version, pVersion, h⟩ := (bind_parsed (uncheckedReadByte_eq_ok hsize)).mp h
    obtain ⟨hversionLow, h⟩ := guard_eq_ok_iff.mp h
    -- In the part of a fixed length the offsets are numbers.
    obtain ⟨required, pRequired, h⟩ := (bind_parsed (uncheckedReadByte_eq_ok hsize)).mp h
    obtain ⟨signed, pSigned, h⟩ := (bind_parsed (uncheckedReadByte_eq_ok hsize)).mp h
    obtain ⟨unsigned, pUnsigned, h⟩ := (bind_parsed (uncheckedReadByte_eq_ok hsize)).mp h
    obtain ⟨mask, hmask, h⟩ := bind_eq_ok_iff.mp h
    obtain ⟨-, h⟩ := tryU16_bind.mp h
    obtain ⟨numInstructions, pNumInstructions, h⟩ :=
      (bind_parsed (uncheckedReadByte_eq_ok hsize)).mp h
    obtain ⟨numAddresses, pNumAddresses, h⟩ := (bind_parsed (uncheckedReadByte_eq_ok hsize)).mp h
    obtain ⟨-, h⟩ := tryU16_bind.mp h
    obtain ⟨offset₁, haddresses, h⟩ := bind_eq_ok_iff.mp h
    obtain ⟨⟨configFrame, offset₂⟩, hconfig, h⟩ := bind_eq_ok_iff.mp h
    obtain ⟨⟨instructionsFrame, offset₃⟩, hinstructions, h⟩ := bind_eq_ok_iff.mp h
    obtain ⟨-, h⟩ := tryU16_bind.mp h
    obtain ⟨offset₄, hsignatures, h⟩ := bind_eq_ok_iff.mp h
    obtain ⟨hend, h⟩ := guard_eq_ok_iff.mp h
    obtain ⟨hdataLt, h⟩ := tryU16_bind.mp h
    cases h
    rw [not_not] at hend hversionLow
    have hroom₄₂ : 42 ≤ bytes.length := by
      rw [checkRemaining_eq_ok hsize (Nat.zero_le _), Nat.zero_add] at hroom
      exact hroom
    have pMask : Parsed bytes 4 (layoutMask.encode mask) 8 :=
      ⟨uncheckedCopyValue_eq_ok.mp hmask, by rw [layoutMask.length_encode]; rfl⟩
    obtain ⟨hash, hhash⟩ := Layouts.hash.exists_at
      (show 8 + Layouts.hash.size ≤ bytes.length from le_trans (by decide) hroom₄₂)
    have pHash : Parsed bytes 8 (Layouts.hash.encode hash) 40 :=
      ⟨hhash, by rw [Layouts.hash.length_encode]; rfl⟩
    obtain ⟨keys, hkeysLength, pKeys⟩ :=
      (advanceOffsetForArray_eq_ok hsize hroom₄₂ (by decide)).mp haddresses
    obtain ⟨-, config, rfl, rfl, pConfig⟩ :=
      (TransactionConfigFrame.tryNew_eq_ok hsize (show 0 < 4 by decide) (by decide) pKeys.le).mp
        hconfig
    obtain ⟨instructions, hinstructionsLength, hshorts, rfl, pInstructions⟩ :=
      (InstructionsFrame.tryNewForV1_eq_ok hsize pConfig.le).mp hinstructions
    obtain ⟨signatures, hsignaturesLength, pSignatures⟩ :=
      (advanceOffsetForArray_eq_ok hsize pInstructions.le (by decide)).mp hsignatures
    rw [UInt8.toNat_toUInt16] at hkeysLength hsignaturesLength
    have hkeysCount : UInt8.ofNat keys.length = numAddresses := by
      rw [hkeysLength, UInt8.ofNat_toNat]
    have hinstructionsCount : UInt8.ofNat instructions.length = numInstructions := by
      rw [hinstructionsLength, UInt8.ofNat_toNat]
    have hversionHigh : version &&& messageVersionPrefix ≠ 0 := by
      have hsame : first = version := (List.cons.inj (hfirstAt.eq pVersion.1 rfl)).1
      rw [hsame] at hfirst
      exact of_decide_eq_false hfirst.symm
    let tx : Transaction :=
      ⟨signatures, ⟨required, signed, unsigned⟩, keys, hash, instructions, .v1 config⟩
    rw [version_eq hversionHigh hversionLow] at pVersion
    rw [← hkeysCount] at pNumAddresses
    rw [← hinstructionsCount] at pNumInstructions
    obtain ⟨pHeaders, pPayloads⟩ := pInstructions.split
    obtain rfl : offset₁ = tx.configOffset := pKeys.2
    obtain rfl : offset₂ = tx.headersOffset config := pConfig.2
    obtain rfl : offset₃ = tx.signaturesOffset config := pPayloads.2
    subst hend
    have hencode : tx.encode = bytes := (sectionsV1_iff rfl).mp
      ⟨pVersion, pRequired, pSigned, pUnsigned, pMask, pHash, pNumInstructions, pNumAddresses,
        pKeys, pConfig, pHeaders, pPayloads, pSignatures⟩
    refine ⟨tx, config, ⟨rfl, hsignaturesLength, ?_, ?_, hshorts, hencode ▸ hdataLt⟩, hencode, ?_⟩
    · exact hkeysLength ▸ numAddresses.toNat_lt
    · exact hinstructionsLength ▸ numInstructions.toNat_lt
    · rw [frameV1, hencode, ← hkeysCount, ← hinstructionsCount]
      rfl
  · rintro ⟨tx, config, haccepted, hencode, rfl⟩
    obtain ⟨hversioned, hsignatures, hkeysLt, hinstructionsLt, hshorts, hlength⟩ := haccepted
    rw [hencode] at hlength
    have hkeysNat := toNat_ofNat8 hkeysLt
    have hinstructionsNat := toNat_ofNat8 hinstructionsLt
    obtain ⟨pVersion, pRequired, pSigned, pUnsigned, pMask, pHash, pNumInstructions,
      pNumAddresses, pKeys, pConfig, pHeaders, pPayloads, pSignatures⟩ :=
      (sectionsV1_iff hversioned).mpr hencode
    refine check_bind_eq_ok_iff.mpr
      ⟨(checkRemaining_eq_ok hsize (Nat.zero_le _)).mpr pNumAddresses.le, ?_⟩
    refine bind_ok ((uncheckedReadByte_eq_ok hsize).mpr pVersion) ?_
    refine guard_eq_ok_iff.mpr ⟨by decide, ?_⟩
    refine bind_ok ((uncheckedReadByte_eq_ok hsize).mpr pRequired) ?_
    refine bind_ok ((uncheckedReadByte_eq_ok hsize).mpr pSigned) ?_
    refine bind_ok ((uncheckedReadByte_eq_ok hsize).mpr pUnsigned) ?_
    refine bind_ok (uncheckedCopyValue_eq_ok.mpr pMask.1) ?_
    refine tryU16_bind.mpr ⟨by decide, ?_⟩
    refine bind_ok ((uncheckedReadByte_eq_ok hsize).mpr pNumInstructions) ?_
    refine bind_ok ((uncheckedReadByte_eq_ok hsize).mpr pNumAddresses) ?_
    refine tryU16_bind.mpr ⟨by decide, ?_⟩
    refine bind_ok ((advanceOffsetForArray_eq_ok hsize pNumAddresses.le
      (by decide)).mpr ⟨tx.staticAccountKeys, ?_, pKeys⟩) ?_
    · rw [UInt8.toNat_toUInt16, hkeysNat]
    refine bind_ok ((TransactionConfigFrame.tryNew_eq_ok hsize (by decide) (by decide)
      pKeys.le).mpr ⟨lt_of_le_of_lt pKeys.le hlength, config, rfl, rfl, pConfig⟩) ?_
    refine bind_ok ((InstructionsFrame.tryNewForV1_eq_ok hsize pConfig.le).mpr
      ⟨tx.instructions, hinstructionsNat.symm, hshorts, rfl, pHeaders.append pPayloads⟩) ?_
    refine tryU16_bind.mpr ⟨lt_of_le_of_lt pPayloads.le hlength, ?_⟩
    refine bind_ok ((advanceOffsetForArray_eq_ok hsize pPayloads.le
      (by decide)).mpr ⟨tx.signatures, ?_, pSignatures⟩) ?_
    · rw [UInt8.toNat_toUInt16, hsignatures]
    refine guard_eq_ok_iff.mpr ⟨not_not.mpr rfl, ?_⟩
    rw [frameV1, hencode]
    exact tryU16_bind.mpr ⟨hlength, rfl⟩

end

/-! ## All versions -/

namespace Transaction

/-- What the parser checks. -/
def Accepted (tx : Transaction) : Prop :=
  match tx.versioned with
  | .v1 config => tx.AcceptedV1 config
  | _ => tx.AcceptedLegacyOrV0

/-- The frame of a transaction. -/
def frame (asU16 : Nat → Nat) (tx : Transaction) : TransactionFrame :=
  match tx.versioned with
  | .v1 config => tx.frameV1 asU16 config
  | _ => tx.frameLegacyOrV0 asU16

theorem accepted_iff : tx.Accepted ↔ tx.AcceptedLegacyOrV0 ∨ ∃ config, tx.AcceptedV1 config := by
  unfold Accepted
  constructor
  · intro h
    split at h
    · exact .inr ⟨_, h⟩
    · exact .inl h
  · rintro (h | ⟨config, h⟩)
    · split
      · rename_i hversioned
        exact absurd (by rw [hversioned]; rfl) h.version
      · exact h
    · rw [h.versioned]
      exact h

theorem AcceptedLegacyOrV0.frame_eq (h : tx.AcceptedLegacyOrV0) (asU16 : Nat → Nat) :
    tx.frame asU16 = tx.frameLegacyOrV0 asU16 := by
  unfold frame
  split
  · rename_i hversioned
    exact absurd (by rw [hversioned]; rfl) h.version
  · rfl

theorem AcceptedV1.frame_eq (h : tx.AcceptedV1 config) (asU16 : Nat → Nat) :
    tx.frame asU16 = tx.frameV1 asU16 config := by
  rw [frame, h.versioned]

theorem Accepted.length_lt (h : tx.Accepted) : tx.encode.length < 2 ^ 16 := by
  obtain h | ⟨config, h⟩ := accepted_iff.mp h
  · exact h.length_lt
  · exact h.length_lt

/-- The first byte of a legacy transaction, or one of version 0, says how many
    signatures there are. -/
theorem AcceptedLegacyOrV0.isLegacyOrV0 (h : tx.AcceptedLegacyOrV0) :
    isLegacyOrV0 tx.encode = .ok true := by
  have hmax : maxSignaturesPerPacket.toNat = 12 := by decide
  have hcount : tx.signatures.length < 2 ^ 7 := by
    have hle := h.signatures_le
    omega
  have hat := ((sections_iff h.version).mpr rfl).signatures.1
  rw [encodeSignatures, shortVec_of_lt hcount] at hat
  refine isLegacyOrV0_eq_ok.mpr ⟨_, (at_append.mp hat).1, ?_⟩
  refine (decide_eq_true ((and_high_eq_zero _).mpr ?_)).symm
  rw [toNat_ofNat8 (by omega)]
  exact hcount

theorem AcceptedV1.isLegacyOrV0 (h : tx.AcceptedV1 config) :
    isLegacyOrV0 tx.encode = .ok false :=
  isLegacyOrV0_eq_ok.mpr ⟨_, ((sectionsV1_iff h.versioned).mpr rfl).version.1, by decide⟩

end Transaction

namespace TransactionFrame

/-- What the parser accepts, and which frame it returns. -/
theorem tryNewWith_eq_ok {frame : TransactionFrame} (hsize : bytes.length < 2 ^ 63) :
    tryNewWith asU16 bytes = .ok frame ↔
      ∃ tx : Transaction, tx.Accepted ∧ tx.encode = bytes ∧ frame = tx.frame asU16 := by
  rw [tryNewWith, bind_eq_ok_iff]
  constructor
  · rintro ⟨flag, hflag, h⟩
    cases flag with
    | true =>
      obtain ⟨tx, haccepted, hencode, rfl⟩ := (tryNewAsLegacyOrV0_eq_ok hsize).mp h
      exact ⟨tx, accepted_iff.mpr (.inl haccepted), hencode,
        (haccepted.frame_eq asU16).symm⟩
    | false =>
      obtain ⟨tx, config, haccepted, hencode, rfl⟩ := (tryNewAsV1_eq_ok hsize hflag).mp h
      exact ⟨tx, accepted_iff.mpr (.inr ⟨config, haccepted⟩), hencode,
        (haccepted.frame_eq asU16).symm⟩
  · rintro ⟨tx, haccepted, rfl, rfl⟩
    obtain haccepted | ⟨config, haccepted⟩ := accepted_iff.mp haccepted
    · rw [haccepted.frame_eq]
      exact ⟨true, haccepted.isLegacyOrV0,
        (tryNewAsLegacyOrV0_eq_ok hsize).mpr ⟨tx, haccepted, rfl, rfl⟩⟩
    · rw [haccepted.frame_eq]
      exact ⟨false, haccepted.isLegacyOrV0, (tryNewAsV1_eq_ok hsize haccepted.isLegacyOrV0).mpr
        ⟨tx, config, haccepted, rfl, rfl⟩⟩

end TransactionFrame

/-! ## Casts -/

theorem truncateU16_of_lt {n : Nat} (h : n < 2 ^ 16) : truncateU16 n = n := Nat.mod_eq_of_lt h

namespace Transaction

theorem AcceptedLegacyOrV0.frame_truncate (h : tx.AcceptedLegacyOrV0) :
    tx.frameLegacyOrV0 truncateU16 = tx.frameLegacyOrV0 id := by
  have hlength := h.length_lt
  have hsections := (sections_iff h.version).mpr rfl
  have hmessage := hsections.signatures.le
  have hkeys : tx.keysOffset + 1 ≤ tx.encode.length := by
    have hle := hsections.keys.le
    have hpos := length_shortVec_pos tx.staticAccountKeys.length
    rw [hashOffset, encodeKeys, length_append] at hle
    omega
  have hinstructions : tx.instructionsOffset + (shortVec tx.instructions.length).length ≤
      tx.encode.length := by
    have hle := hsections.instructions.le
    rw [tailOffset, encodeInstructions, length_append] at hle
    omega
  have hlookups : tx.versioned.lookupsFrame truncateU16 tx.tailOffset =
      tx.versioned.lookupsFrame id tx.tailOffset := by
    have htail := hsections.tail.2
    cases hversioned : tx.versioned with
    | legacy => rfl
    | v0 lookups =>
      have hpos := length_shortVec_pos lookups.length
      rw [hversioned, Versioned.encodeTail, encodeLookups, length_append] at htail
      rw [Versioned.lookupsFrame, truncateU16_of_lt (by omega)]
      rfl
    | v1 config => rfl
  rw [frameLegacyOrV0, hlookups, truncateU16_of_lt (by decide), truncateU16_of_lt (by omega),
    truncateU16_of_lt (by omega), truncateU16_of_lt (by omega)]
  rfl

theorem AcceptedV1.frame_truncate (h : tx.AcceptedV1 config) :
    tx.frameV1 truncateU16 config = tx.frameV1 id config := by
  have hlength := h.length_lt
  have hsections := (sectionsV1_iff h.versioned).mpr rfl
  have hheaders := hsections.values.le
  have hpayloads := hsections.headers.le
  rw [frameV1, frameV1, truncateU16_of_lt (by decide), truncateU16_of_lt (by omega),
    truncateU16_of_lt (by omega)]
  rfl

/-- No offset of an accepted transaction is cut by a cast. -/
theorem Accepted.frame_truncate (h : tx.Accepted) : tx.frame truncateU16 = tx.frame id := by
  obtain h | ⟨config, h⟩ := accepted_iff.mp h
  · rw [h.frame_eq, h.frame_eq, h.frame_truncate]
  · rw [h.frame_eq, h.frame_eq, h.frame_truncate]

end Transaction

namespace TransactionFrame

variable {frame : TransactionFrame}

theorem length_lt_of_end {offset : Nat} {result : Nat → TransactionFrame}
    (h : (if offset ≠ bytes.length then .error (.error .parseError)
      else do
        let dataLen ← checkedOffset offset
        .ok (result dataLen) : Parse TransactionFrame) = .ok frame) : bytes.length < 2 ^ 16 := by
  obtain ⟨hend, h⟩ := guard_eq_ok_iff.mp h
  rw [← not_not.mp hend]
  exact (tryU16_bind.mp h).1

theorem length_lt_of_tryNewWith (h : tryNewWith asU16 bytes = .ok frame) :
    bytes.length < 2 ^ 16 := by
  rw [tryNewWith, bind_eq_ok_iff] at h
  obtain ⟨flag, -, h⟩ := h
  cases flag with
  | true =>
    repeat obtain ⟨_, -, h⟩ := bind_eq_ok_iff.mp h
    exact length_lt_of_end h
  | false =>
    obtain ⟨-, h⟩ := check_bind_eq_ok_iff.mp h
    obtain ⟨_, -, h⟩ := bind_eq_ok_iff.mp h
    obtain ⟨-, h⟩ := guard_eq_ok_iff.mp h
    repeat obtain ⟨_, -, h⟩ := bind_eq_ok_iff.mp h
    exact length_lt_of_end h

/-- The casts of the parser change nothing. -/
theorem tryNewWith_id (h : tryNew bytes = .ok frame) : tryNewWith id bytes = .ok frame := by
  have hsize : bytes.length < 2 ^ 63 := by
    have hlt := length_lt_of_tryNewWith h
    omega
  obtain ⟨tx, haccepted, hencode, rfl⟩ := (tryNewWith_eq_ok hsize).mp h
  exact (tryNewWith_eq_ok hsize).mpr ⟨tx, haccepted, hencode, haccepted.frame_truncate⟩

end TransactionFrame

end Agave.TxView


