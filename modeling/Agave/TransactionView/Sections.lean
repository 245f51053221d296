/-
  Agave.TransactionView.Sections

  What each part of the parser accepts.

  For each function there is one equivalence: it returns a frame exactly if the section it reads is
  the encoding of something, within the bounds that the function checks, and then the frame is
  determined by it.  Read one way this is soundness, read the other way completeness.
-/

import Agave.TransactionView.Frame

namespace Agave.TxView

open Lib List V1InstructionHeader Instruction Layouts

/-- The bytes before the header of a message. -/
def TransactionVersion.bytes : TransactionVersion → List UInt8
  | legacy => []
  | v0 => [messageVersionPrefix]
  | v1 => [messageVersionPrefix ||| 1]

variable {n : Nat} {α : Type} {mask : UInt32} {instruction : Instruction}

theorem exists_split (piece : List UInt8) (h : n ≤ piece.length) :
    ∃ front rest, piece = front ++ rest ∧ front.length = n :=
  ⟨piece.take n, piece.drop n, (take_append_drop n piece).symm, length_take_of_le h⟩

/-- The lengths that the parser reads from two bytes. -/
def Instruction.Short (instruction : Instruction) : Prop :=
  instruction.accounts.length < 2 ^ 14 ∧ instruction.data.length < 2 ^ 14

/-- The frame of an instruction. -/
def Instruction.frame (instruction : Instruction) : LegacyAndV0InstructionFrame where
  numAccounts := UInt16.ofNat instruction.accounts.length
  dataLen := UInt16.ofNat instruction.data.length
  numAccountsLen := UInt8.ofNat (shortVec instruction.accounts.length).length
  dataLenLen := UInt8.ofNat (shortVec instruction.data.length).length

theorem toNat_ofNat16 (h : n < 2 ^ 16) : (UInt16.ofNat n).toNat = n :=
  UInt16.toNat_ofNat_of_lt' h

theorem toNat_ofNat8 (h : n < 2 ^ 8) : (UInt8.ofNat n).toNat = n :=
  UInt8.toNat_ofNat_of_lt' h

theorem shortVec_of_lt (h : n < 2 ^ 7) : shortVec n = [UInt8.ofNat n] := if_pos h

variable {maxCount count : UInt8} {bytes : List UInt8} {offset' offset : Nat} {asU16 : Nat → Nat}

theorem count_bounds :
    ¬(count = 0 ∨ count > maxCount) ↔ 0 < count.toNat ∧ count.toNat ≤ maxCount.toNat := by
  rw [not_or, gt_iff_lt, UInt8.lt_iff_toNat_lt, not_lt, ← UInt8.toNat_inj, UInt8.toNat_zero,
    Nat.pos_iff_ne_zero]

/-- The lengths that the parser reads from two bytes. -/
def AddressTableLookup.Short (lookup : AddressTableLookup) : Prop :=
  lookup.writableIndexes.length < 2 ^ 14 ∧ lookup.readonlyIndexes.length < 2 ^ 14

/-- The writable accounts of the lookups. -/
def totalWritable (lookups : List AddressTableLookup) : Nat :=
  (lookups.map (fun lookup => lookup.writableIndexes.length)).sum

/-- The readonly accounts of the lookups. -/
def totalReadonly (lookups : List AddressTableLookup) : Nat :=
  (lookups.map (fun lookup => lookup.readonlyIndexes.length)).sum

theorem three_mul_length_le (instructions : List Instruction) :
    3 * instructions.length ≤ (instructions.flatMap encode).length := by
  induction instructions with
  | nil => exact Nat.le_refl _
  | cons instruction instructions ih =>
    have haccounts := length_shortVec_pos instruction.accounts.length
    have hdata := length_shortVec_pos instruction.data.length
    rw [flatMap_cons, length_append, length_cons, encode]
    simp only [length_append, length_singleton]
    omega

section

variable (hsize : bytes.length < 2 ^ 63)

include hsize

/-! ## Signatures, keys and the header -/

theorem ArrayFrame.tryNew_eq_ok {layout : Layout α} (hlayout : layout.size < 2 ^ 16)
    (hmax : maxCount.toNat < 2 ^ 7) {frame : ArrayFrame} :
    tryNew layout maxCount asU16 bytes offset = .ok (frame, offset') ↔
      ∃ items : List α, 0 < items.length ∧ items.length ≤ maxCount.toNat ∧
        frame = ⟨UInt8.ofNat items.length, asU16 (offset + 1)⟩ ∧
        Parsed bytes offset (shortVec items.length ++ layout.encodeAll items) offset' := by
  unfold tryNew
  constructor
  · intro h
    obtain ⟨count, hparsed, h⟩ := (bind_parsed (readByte_eq_ok hsize)).mp h
    obtain ⟨hbounds, h⟩ := guard_eq_ok_iff.mp h
    obtain ⟨last, hitems, h⟩ := bind_eq_ok_iff.mp h
    cases h
    obtain ⟨items, hlength, hrest⟩ :=
      (advanceOffsetForArray_eq_ok hsize hparsed.le hlayout).mp hitems
    rw [UInt8.toNat_toUInt16] at hlength
    rw [count_bounds] at hbounds
    refine ⟨items, by omega, by omega, ?_, ?_⟩
    · rw [hlength, UInt8.ofNat_toNat, length_singleton]
    · rw [hlength, shortVec_byte (by omega)]
      exact hparsed.append hrest
  · rintro ⟨items, hpos, hle, rfl, hparsed⟩
    have hnat := toNat_ofNat8 (show items.length < 2 ^ 8 by omega)
    rw [shortVec_of_lt (by omega)] at hparsed
    obtain ⟨hcount, hitems⟩ := hparsed.split
    refine bind_ok ((readByte_eq_ok hsize).mpr hcount) ?_
    refine guard_eq_ok_iff.mpr ⟨?_, bind_eq_ok_iff.mpr ⟨offset', ?_, rfl⟩⟩
    · rw [count_bounds, hnat]
      exact ⟨hpos, hle⟩
    · refine (advanceOffsetForArray_eq_ok hsize hcount.le hlayout).mpr ⟨items, ?_, hitems⟩
      rw [UInt8.toNat_toUInt16, hnat]

theorem readVersion_eq_ok {version : TransactionVersion} :
    readVersion bytes offset = .ok (version, count, offset') ↔
      (version = .legacy ∧ count.toNat < 2 ^ 7 ∨ version = .v0) ∧
        Parsed bytes offset (version.bytes ++ [count]) offset' := by
  have hversion : ∀ n : Fin 256, UInt8.ofNat n.val &&& messageVersionPrefix ≠ 0 →
      UInt8.ofNat n.val &&& ~~~messageVersionPrefix = 0 →
      UInt8.ofNat n.val = messageVersionPrefix := by
    decide +kernel
  unfold readVersion
  constructor
  · intro h
    obtain ⟨byte, hparsed, h⟩ := (bind_parsed (readByte_eq_ok hsize)).mp h
    dsimp only at h
    by_cases hhigh : byte &&& messageVersionPrefix ≠ 0
    · rw [if_pos hhigh] at h
      by_cases hrest : byte &&& ~~~messageVersionPrefix = 0
      · rw [if_pos hrest] at h
        obtain ⟨count', hcount, h⟩ := (bind_parsed (readByte_eq_ok hsize)).mp h
        cases h
        have heq := hversion ⟨byte.toNat, byte.toNat_lt⟩
        rw [UInt8.ofNat_toNat] at heq
        rw [heq hhigh hrest] at hparsed
        exact ⟨Or.inr rfl, hparsed.append hcount⟩
      · rw [if_neg hrest] at h
        exact (nomatch h)
    · rw [if_neg hhigh] at h
      cases h
      rw [not_not] at hhigh
      exact ⟨Or.inl ⟨rfl, (and_high_eq_zero _).mp hhigh⟩, hparsed⟩
  · rintro ⟨⟨rfl, hcount⟩ | rfl, hparsed⟩
    · refine bind_ok ((readByte_eq_ok hsize).mpr hparsed) ?_
      exact if_neg (not_not.mpr ((and_high_eq_zero _).mpr hcount))
    · obtain ⟨hbyte, hcount⟩ := hparsed.split
      refine bind_ok ((readByte_eq_ok hsize).mpr hbyte) ?_
      dsimp only
      rw [if_pos (by decide), if_pos (by decide)]
      exact bind_ok ((readByte_eq_ok hsize).mpr hcount) rfl

theorem MessageHeaderFrame.tryNew_eq_ok {frame : MessageHeaderFrame} :
    tryNew asU16 bytes offset = .ok (frame, offset') ↔
      ∃ (version : TransactionVersion) (header : MessageHeader),
        (version = .legacy ∧ header.numRequiredSignatures.toNat < 2 ^ 7 ∨ version = .v0) ∧
        frame = ⟨asU16 offset, version, header.numRequiredSignatures,
          header.numReadonlySignedAccounts, header.numReadonlyUnsignedAccounts⟩ ∧
        Parsed bytes offset (version.bytes ++ header.encode) offset' := by
  unfold tryNew
  constructor
  · intro h
    obtain ⟨⟨version, required, next⟩, hversion, h⟩ := bind_eq_ok_iff.mp h
    obtain ⟨signed, hsigned, h⟩ := (bind_parsed (readByte_eq_ok hsize)).mp h
    obtain ⟨unsigned, hunsigned, h⟩ := (bind_parsed (readByte_eq_ok hsize)).mp h
    cases h
    obtain ⟨hcases, hparsed⟩ := (readVersion_eq_ok hsize).mp hversion
    have hall := hparsed.append (hsigned.append hunsigned)
    rw [append_assoc] at hall
    exact ⟨version, ⟨required, signed, unsigned⟩, hcases, rfl, hall⟩
  · rintro ⟨version, header, hcases, rfl, hparsed⟩
    have hsplit : version.bytes ++ header.encode =
        (version.bytes ++ [header.numRequiredSignatures]) ++
          ([header.numReadonlySignedAccounts] ++ [header.numReadonlyUnsignedAccounts]) := by
      rw [append_assoc]
      rfl
    rw [hsplit] at hparsed
    obtain ⟨hversion, hparsed⟩ := hparsed.split
    obtain ⟨hsigned, hunsigned⟩ := hparsed.split
    refine bind_ok ((readVersion_eq_ok hsize).mpr ⟨hcases, hversion⟩) ?_
    refine bind_ok ((readByte_eq_ok hsize).mpr hsigned) ?_
    exact bind_ok ((readByte_eq_ok hsize).mpr hunsigned) rfl

/-! ## Instructions -/

theorem optimizedRead_ofNat (hn : n < 2 ^ 14) (h : Parsed bytes offset (shortVec n) offset') :
    optimizedReadCompressedU16 bytes offset = .ok (UInt16.ofNat n, offset') := by
  refine (optimizedReadCompressedU16_eq_ok hsize).mpr ?_
  rw [toNat_ofNat16 (by omega)]
  exact ⟨hn, h⟩

theorem skipCounted_eq_ok {len : UInt16} {lenLen : UInt8} :
    skipCounted bytes offset = .ok (len, lenLen, offset') ↔
      ∃ items : List UInt8, items.length < 2 ^ 14 ∧ len = UInt16.ofNat items.length ∧
        lenLen = UInt8.ofNat (shortVec items.length).length ∧
        Parsed bytes offset (shortVec items.length ++ items) offset' := by
  have hsub : ∀ n : Nat, n < 2 ^ 63 → wrappingSub (offset + n) offset = n := by
    intro n hn
    rw [wrappingSub]
    omega
  unfold skipCounted
  constructor
  · intro h
    obtain ⟨⟨len', next⟩, hlen, h⟩ := bind_eq_ok_iff.mp h
    obtain ⟨last, hitems, h⟩ := bind_eq_ok_iff.mp h
    cases h
    obtain ⟨hshort, hparsed⟩ := (optimizedReadCompressedU16_eq_ok hsize).mp hlen
    obtain ⟨items, hlength, hrest⟩ :=
      (advanceOffsetForArray_eq_ok hsize hparsed.le (by decide)).mp hitems
    rw [encodeAll_uint8] at hrest
    have hle' := hparsed.1.le
    refine ⟨items, by omega, by rw [hlength, UInt16.ofNat_toNat], ?_, ?_⟩
    · rw [hparsed.2, hsub _ (by omega), hlength]
    · rw [hlength]
      exact hparsed.append hrest
  · rintro ⟨items, hshort, rfl, rfl, hparsed⟩
    have hnat := toNat_ofNat16 (show items.length < 2 ^ 16 by omega)
    obtain ⟨hlen, hitems⟩ := hparsed.split
    have hle' := hlen.1.le
    refine bind_ok (optimizedRead_ofNat hsize hshort hlen) (bind_eq_ok_iff.mpr ⟨offset', ?_, ?_⟩)
    · refine (advanceOffsetForArray_eq_ok hsize hlen.le (by decide)).mpr ⟨items, hnat.symm, ?_⟩
      rw [encodeAll_uint8]
      exact hitems
    · rw [hsub _ (by omega)]
      rfl

theorem parseInstruction_eq_ok {frame : LegacyAndV0InstructionFrame} :
    parseInstruction bytes offset = .ok (frame, offset') ↔
      ∃ instruction : Instruction, instruction.Short ∧ frame = instruction.frame ∧
        Parsed bytes offset instruction.encode offset' := by
  unfold parseInstruction
  constructor
  · intro h
    obtain ⟨programIdIndex, hprogram, h⟩ := (bind_parsed (readByte_eq_ok hsize)).mp h
    obtain ⟨⟨numAccounts, numAccountsLen, next'⟩, haccounts, h⟩ := bind_eq_ok_iff.mp h
    obtain ⟨⟨dataLen, dataLenLen, next''⟩, hdata, h⟩ := bind_eq_ok_iff.mp h
    cases h
    obtain ⟨accounts, hshort, rfl, rfl, haccounts'⟩ :=
      (skipCounted_eq_ok hsize).mp haccounts
    obtain ⟨data, hshort', rfl, rfl, hdata'⟩ :=
      (skipCounted_eq_ok hsize).mp hdata
    have hall := hprogram.append (haccounts'.append hdata')
    rw [append_assoc] at hall
    exact ⟨⟨programIdIndex, accounts, data⟩, ⟨hshort, hshort'⟩, rfl, hall⟩
  · rintro ⟨instruction, hshort, rfl, hparsed⟩
    unfold encode at hparsed
    rw [← append_assoc (shortVec instruction.accounts.length)] at hparsed
    obtain ⟨hprogram, hparsed⟩ := hparsed.split
    obtain ⟨haccounts, hdata⟩ := hparsed.split
    refine bind_ok ((readByte_eq_ok hsize).mpr hprogram) ?_
    refine bind_ok ((skipCounted_eq_ok hsize).mpr
      ⟨instruction.accounts, hshort.1, rfl, rfl, haccounts⟩) ?_
    exact bind_ok ((skipCounted_eq_ok hsize).mpr ⟨instruction.data, hshort.2, rfl, rfl, hdata⟩) rfl

theorem parseInstructions_eq_ok {frames : List LegacyAndV0InstructionFrame}
    (hle : offset ≤ bytes.length) :
    parseInstructions bytes n offset = .ok (frames, offset') ↔
      ∃ instructions : List Instruction, instructions.length = n ∧
        (∀ instruction ∈ instructions, instruction.Short) ∧
        frames = instructions.map Instruction.frame ∧
        Parsed bytes offset (instructions.flatMap encode) offset' := by
  induction n generalizing offset frames with
  | zero =>
    rw [parseInstructions]
    constructor
    · intro h
      cases h
      exact ⟨[], rfl, fun _ h => absurd h not_mem_nil, rfl, at_nil.mpr hle, rfl⟩
    · rintro ⟨instructions, hlength, -, rfl, hparsed⟩
      rw [length_eq_zero_iff.mp hlength] at hparsed ⊢
      obtain ⟨-, rfl⟩ := hparsed
      rfl
  | succ n ih =>
    rw [parseInstructions]
    constructor
    · intro h
      obtain ⟨⟨frame, next⟩, hframe, h⟩ := bind_eq_ok_iff.mp h
      obtain ⟨⟨frames', last⟩, hframes, h⟩ := bind_eq_ok_iff.mp h
      cases h
      obtain ⟨instruction, hshort, rfl, hparsed⟩ := (parseInstruction_eq_ok hsize).mp hframe
      obtain ⟨instructions, hlength, hshorts, rfl, hrest⟩ := (ih hparsed.le).mp hframes
      refine ⟨instruction :: instructions, by rw [length_cons, hlength], ?_, rfl, ?_⟩
      · exact forall_mem_cons.mpr ⟨hshort, hshorts⟩
      · rw [flatMap_cons]
        exact hparsed.append hrest
    · rintro ⟨instructions, hlength, hshorts, rfl, hparsed⟩
      obtain ⟨instruction, rest, rfl⟩ := exists_cons_of_length_eq_add_one hlength
      rw [flatMap_cons] at hparsed
      obtain ⟨hshort, hshorts⟩ := forall_mem_cons.mp hshorts
      obtain ⟨hfirst, hrest⟩ := hparsed.split
      refine bind_ok ((parseInstruction_eq_ok hsize).mpr ⟨instruction, hshort, rfl, hfirst⟩) ?_
      exact bind_ok ((ih hfirst.le).mpr
        ⟨rest, Nat.add_right_cancel hlength, hshorts, rfl, hrest⟩) rfl

theorem InstructionsFrame.tryNewForLegacyAndV0_eq_ok {frame : InstructionsFrame} :
    tryNewForLegacyAndV0 asU16 bytes offset = .ok (frame, offset') ↔
      ∃ instructions : List Instruction, instructions.length < 2 ^ 14 ∧
        (∀ instruction ∈ instructions, instruction.Short) ∧
        frame = .legacyAndV0 (UInt16.ofNat instructions.length)
          (asU16 (offset + (shortVec instructions.length).length))
          (instructions.map Instruction.frame) ∧
        Parsed bytes offset
          (shortVec instructions.length ++ instructions.flatMap encode) offset' := by
  unfold tryNewForLegacyAndV0
  constructor
  · intro h
    obtain ⟨⟨count, next⟩, hcount, h⟩ := bind_eq_ok_iff.mp h
    obtain ⟨-, h⟩ := check_bind_eq_ok_iff.mp h
    obtain ⟨⟨frames, last⟩, hframes, h⟩ := bind_eq_ok_iff.mp h
    cases h
    obtain ⟨hshort, hparsed⟩ := (optimizedReadCompressedU16_eq_ok hsize).mp hcount
    obtain ⟨instructions, hlength, hshorts, rfl, hrest⟩ :=
      (parseInstructions_eq_ok hsize hparsed.le).mp hframes
    have hnext := hparsed.2
    subst hnext
    refine ⟨instructions, by omega, hshorts, ?_, ?_⟩
    · rw [hlength, UInt16.ofNat_toNat]
    · rw [hlength]
      exact hparsed.append hrest
  · rintro ⟨instructions, hshort, hshorts, rfl, hparsed⟩
    have hnat := toNat_ofNat16 (show instructions.length < 2 ^ 16 by omega)
    obtain ⟨hcount, hrest⟩ := hparsed.split
    refine bind_ok (optimizedRead_ofNat hsize hshort hcount) (check_bind_eq_ok_iff.mpr ⟨?_, ?_⟩)
    · refine (checkRemaining_eq_ok hsize hcount.le).mpr ?_
      have hroom := hrest.1.le
      have hmin := three_mul_length_le instructions
      rw [hnat, wrappingMul]
      omega
    · refine bind_ok ((parseInstructions_eq_ok hsize hcount.le).mpr
        ⟨instructions, hnat.symm, hshorts, rfl, hrest⟩) rfl

/-! ## Lookups -/

theorem parseLookups_eq_ok {writable readonly writable' readonly' : Nat}
    (hle : offset ≤ bytes.length) (hwritable : writable + n * 2 ^ 14 < 2 ^ 32)
    (hreadonly : readonly + n * 2 ^ 14 < 2 ^ 32) :
    parseLookups bytes n writable readonly offset = .ok (writable', readonly', offset') ↔
      ∃ lookups : List AddressTableLookup, lookups.length = n ∧
        (∀ lookup ∈ lookups, lookup.Short) ∧
        writable' = writable + totalWritable lookups ∧
        readonly' = readonly + totalReadonly lookups ∧
        Parsed bytes offset (lookups.flatMap AddressTableLookup.encode) offset' := by
  induction n generalizing offset writable readonly with
  | zero =>
    rw [parseLookups]
    constructor
    · intro h
      cases h
      exact ⟨[], rfl, fun _ h => absurd h not_mem_nil, rfl, rfl, at_nil.mpr hle, rfl⟩
    · rintro ⟨lookups, hlength, -, rfl, rfl, hparsed⟩
      rw [length_eq_zero_iff.mp hlength] at hparsed ⊢
      obtain ⟨-, rfl⟩ := hparsed
      rfl
  | succ n ih =>
    rw [Nat.add_mul, Nat.one_mul] at hwritable hreadonly
    rw [parseLookups]
    constructor
    · intro h
      obtain ⟨next, hkey, h⟩ := bind_eq_ok_iff.mp h
      obtain ⟨⟨numWrite, _, next'⟩, hwrite, h⟩ := bind_eq_ok_iff.mp h
      obtain ⟨⟨numRead, _, next''⟩, hread, h⟩ := bind_eq_ok_iff.mp h
      obtain ⟨key, hkey'⟩ := (advanceOffsetForType_eq_ok hsize hle).mp hkey
      obtain ⟨writables, hshort, rfl, -, hwrite'⟩ := (skipCounted_eq_ok hsize).mp hwrite
      obtain ⟨readonlys, hshort', rfl, -, hread'⟩ := (skipCounted_eq_ok hsize).mp hread
      dsimp only at h
      rw [toNat_ofNat16 (by omega), toNat_ofNat16 (by omega), wrappingAddU32, wrappingAddU32,
        Nat.mod_eq_of_lt (by omega), Nat.mod_eq_of_lt (by omega)] at h
      obtain ⟨lookups, hlength, hshorts, rfl, rfl, hrest⟩ :=
        (ih hread'.le (by omega) (by omega)).mp h
      have hall := (hkey'.append (hwrite'.append hread')).append hrest
      rw [append_assoc (shortVec writables.length)] at hall
      refine ⟨⟨key, writables, readonlys⟩ :: lookups, by rw [length_cons, hlength], ?_,
        Nat.add_assoc _ _ _, Nat.add_assoc _ _ _, hall⟩
      exact forall_mem_cons.mpr ⟨⟨hshort, hshort'⟩, hshorts⟩
    · rintro ⟨lookups, hlength, hshorts, rfl, rfl, hparsed⟩
      obtain ⟨lookup, rest, rfl⟩ := exists_cons_of_length_eq_add_one hlength
      obtain ⟨hshort, hshorts⟩ := forall_mem_cons.mp hshorts
      obtain ⟨hwritables, hreadonlys⟩ := hshort
      rw [flatMap_cons, AddressTableLookup.encode,
        ← append_assoc (shortVec lookup.writableIndexes.length)] at hparsed
      obtain ⟨hlookup, hrest⟩ := hparsed.split
      obtain ⟨hkey, hindexes⟩ := hlookup.split
      obtain ⟨hwrite, hread⟩ := hindexes.split
      refine bind_ok ((advanceOffsetForType_eq_ok hsize hle).mpr ⟨_, hkey⟩) ?_
      refine bind_ok ((skipCounted_eq_ok hsize).mpr
        ⟨lookup.writableIndexes, hwritables, rfl, rfl, hwrite⟩) ?_
      refine bind_ok ((skipCounted_eq_ok hsize).mpr
        ⟨lookup.readonlyIndexes, hreadonlys, rfl, rfl, hread⟩) ?_
      dsimp only
      rw [toNat_ofNat16 (by omega), toNat_ofNat16 (by omega), wrappingAddU32, wrappingAddU32,
        Nat.mod_eq_of_lt (by omega), Nat.mod_eq_of_lt (by omega)]
      refine (ih hlookup.le (by omega) (by omega)).mpr ⟨rest, Nat.add_right_cancel hlength,
        hshorts, ?_, ?_, hrest⟩
      · exact (Nat.add_assoc _ _ _).symm
      · exact (Nat.add_assoc _ _ _).symm

end

theorem tryU16_bind {β : Type} {e : TransactionViewError} {f : Nat → Parse β} {b : β} :
    (tryU16 e n >>= f) = .ok b ↔ n < 2 ^ 16 ∧ f n = .ok b := by
  rw [tryU16]
  split_ifs with hn
  · exact (and_iff_right hn).symm
  · exact ⟨fun h => (nomatch h), fun h => absurd h.1 hn⟩

section

variable (hsize : bytes.length < 2 ^ 63)

include hsize

theorem AddressTableLookupFrame.tryNew_eq_ok {frame : AddressTableLookupFrame} :
    tryNew asU16 bytes offset = .ok (frame, offset') ↔
      ∃ lookups : List AddressTableLookup, lookups.length ≤ maxAtlsPerPacket.toNat ∧
        (∀ lookup ∈ lookups, lookup.Short) ∧
        totalWritable lookups < 2 ^ 16 ∧ totalReadonly lookups < 2 ^ 16 ∧
        offset + 1 + minSizedAtl * lookups.length ≤ bytes.length ∧
        frame = ⟨UInt8.ofNat lookups.length, asU16 (offset + 1), totalWritable lookups,
          totalReadonly lookups⟩ ∧
        Parsed bytes offset (encodeLookups lookups) offset' := by
  have hmax : maxAtlsPerPacket.toNat = 31 := by decide
  have hmin : minSizedAtl = 35 := rfl
  rw [hmax, hmin]
  unfold tryNew
  constructor
  · intro h
    obtain ⟨count, hparsed, h⟩ := (bind_parsed (readByte_eq_ok hsize)).mp h
    obtain ⟨hbound, h⟩ := guard_eq_ok_iff.mp h
    obtain ⟨hroom, h⟩ := check_bind_eq_ok_iff.mp h
    obtain ⟨⟨writable, readonly, last⟩, hlookups, h⟩ := bind_eq_ok_iff.mp h
    obtain ⟨hwritableLt, h⟩ := tryU16_bind.mp h
    obtain ⟨hreadonlyLt, h⟩ := tryU16_bind.mp h
    cases h
    rw [gt_iff_lt, UInt8.lt_iff_toNat_lt, not_lt, hmax] at hbound
    obtain ⟨lookups, hlength, hshorts, rfl, rfl, hrest⟩ :=
      (parseLookups_eq_ok hsize hparsed.le (by omega) (by omega)).mp hlookups
    rw [checkRemaining_eq_ok hsize hparsed.le, wrappingMul, hmin, Nat.mod_eq_of_lt (by omega),
      ← hlength] at hroom
    rw [Nat.zero_add] at hwritableLt hreadonlyLt
    refine ⟨lookups, by omega, hshorts, hwritableLt, hreadonlyLt, hroom, ?_, ?_⟩
    · rw [hlength, UInt8.ofNat_toNat, Nat.zero_add, Nat.zero_add, length_singleton]
    · rw [encodeLookups, hlength, shortVec_byte (by omega)]
      exact hparsed.append hrest
  · rintro ⟨lookups, hbound, hshorts, hwritable, hreadonly, hroom, rfl, hparsed⟩
    have hnat := toNat_ofNat8 (show lookups.length < 2 ^ 8 by omega)
    rw [encodeLookups, shortVec_of_lt (by omega)] at hparsed
    obtain ⟨hcount, hrest⟩ := hparsed.split
    refine bind_ok ((readByte_eq_ok hsize).mpr hcount) ?_
    refine guard_eq_ok_iff.mpr ⟨?_, check_bind_eq_ok_iff.mpr ⟨?_, ?_⟩⟩
    · rw [gt_iff_lt, UInt8.lt_iff_toNat_lt, not_lt, hmax, hnat]
      exact hbound
    · refine (checkRemaining_eq_ok hsize hcount.le).mpr ?_
      rw [hnat, wrappingMul, hmin, Nat.mod_eq_of_lt (by omega)]
      exact hroom
    · refine bind_ok ((parseLookups_eq_ok hsize hcount.le ?_ ?_).mpr
        ⟨lookups, hnat.symm, hshorts, rfl, rfl, hrest⟩) ?_
      · rw [hnat]
        omega
      · rw [hnat]
        omega
      · dsimp only
        rw [Nat.zero_add, Nat.zero_add]
        exact tryU16_bind.mpr ⟨hwritable, tryU16_bind.mpr ⟨hreadonly, rfl⟩⟩

end

/-! ## The config -/

variable {piece : List UInt8} {instructions : List Instruction}

section

open TransactionConfigFrame

/-- The known bits are the lowest five. -/
theorem toNat_lt_of_known (h : mask &&& ~~~0b11111 = 0) : mask.toNat < 2 ^ 5 := by
  have hbits : ∀ i : Fin 32, 5 ≤ i.val → Nat.testBit 4294967264 i.val = true := by decide
  have hand : mask.toNat &&& 4294967264 = 0 := by
    have hzero := congrArg UInt32.toNat h
    rw [UInt32.toNat_and] at hzero
    exact hzero
  apply Nat.lt_pow_two_of_testBit
  intro i hi
  by_cases hlt : i < 32
  · have hbit := congrArg (fun n => n.testBit i) hand
    simp only [Nat.testBit_and, hbits ⟨i, hlt⟩ hi, Bool.and_true, Nat.zero_testBit] at hbit
    exact hbit
  · refine Nat.testBit_lt_two_pow (lt_of_lt_of_le mask.toNat_lt ?_)
    exact Nat.pow_le_pow_right (by norm_num) (by omega)

/-- The masks that are sanitized are those of some values. -/
theorem sanitizeMask_eq_ok :
    sanitizeMask mask = .ok () ↔ ∃ fee limit size heap, mask = maskOf fee limit size heap := by
  have hcases : ∀ n : Fin 32, sanitizeMask (UInt32.ofNat n.val) = .ok () →
      ∃ fee limit size heap, UInt32.ofNat n.val = maskOf fee limit size heap := by
    decide +kernel
  constructor
  · intro h
    have hknown : ¬ mask &&& ~~~0b11111 ≠ 0 := (guard_eq_ok_iff.mp h).1
    have hlt := toNat_lt_of_known (not_not.mp hknown)
    have hmask := hcases ⟨mask.toNat, hlt⟩
    rw [UInt32.ofNat_toNat] at hmask
    exact hmask h
  · rintro ⟨fee, limit, size, heap, rfl⟩
    revert fee limit size heap
    decide +kernel

/-- The number of words of some values. -/
def numWords (fee limit size heap : Bool) : Nat :=
  (if fee then 2 else 0) + ((if limit then 1 else 0) + ((if size then 1 else 0) +
    (if heap then 1 else 0)))

theorem countOnes_maskOf (fee limit size heap : Bool) :
    countOnes (maskOf fee limit size heap) = numWords fee limit size heap := by
  revert fee limit size heap
  decide +kernel

/-- Bytes that are as many as an optional value needs are one. -/
theorem exists_encodeSome (layout : Layout α) (flag : Bool)
    (h : piece.length = if flag then layout.size else 0) :
    ∃ value, value.isSome = flag ∧ encodeSome layout value = piece := by
  cases flag with
  | false => exact ⟨none, rfl, (length_eq_zero_iff.mp h).symm⟩
  | true => exact ⟨some (layout.decode piece), rfl, layout.encode_decode piece h⟩

theorem length_encodeSome (layout : Layout α) (value : Option α) :
    (encodeSome layout value).length = if value.isSome then layout.size else 0 := by
  cases value with
  | none => rfl
  | some a => exact layout.length_encode a

/-- Words that are as many as the values of a mask need are the values of a config. -/
theorem exists_config {fee limit size heap : Bool}
    (h : piece.length = numWords fee limit size heap * 4) :
    ∃ config : TransactionConfig, config.mask = maskOf fee limit size heap ∧
      config.encode = piece := by
  rw [numWords] at h
  have hfee : (if fee then u64.size else 0) = (if fee then 2 else 0) * 4 := by
    cases fee <;> rfl
  have hword : ∀ flag : Bool, (if flag then u32.size else 0) = (if flag then 1 else 0) * 4 := by
    intro flag
    cases flag <;> rfl
  obtain ⟨piece₁, rest₁, rfl, h₁⟩ := exists_split piece
    (show (if fee then u64.size else 0) ≤ piece.length by omega)
  rw [length_append] at h
  obtain ⟨piece₂, rest₂, rfl, h₂⟩ := exists_split rest₁
    (show (if limit then u32.size else 0) ≤ rest₁.length by rw [hword]; omega)
  rw [length_append] at h
  rw [hword] at h₂
  obtain ⟨piece₃, piece₄, rfl, h₃⟩ := exists_split rest₂
    (show (if size then u32.size else 0) ≤ rest₂.length by rw [hword]; omega)
  rw [length_append] at h
  rw [hword] at h₃
  obtain ⟨feeValue, hfeeSome, rfl⟩ := exists_encodeSome u64 fee h₁
  obtain ⟨limitValue, hlimitSome, rfl⟩ := exists_encodeSome u32 limit (by rw [hword, h₂])
  obtain ⟨sizeValue, hsizeSome, rfl⟩ := exists_encodeSome u32 size (by rw [hword, h₃])
  obtain ⟨heapValue, hheapSome, rfl⟩ :=
    exists_encodeSome u32 heap (show piece₄.length = _ by rw [hword]; omega)
  refine ⟨⟨feeValue, limitValue, sizeValue, heapValue⟩, ?_, rfl⟩
  rw [TransactionConfig.mask, hfeeSome, hlimitSome, hsizeSome, hheapSome]

theorem TransactionConfig.length_encode (config : TransactionConfig) :
    config.encode.length = countOnes config.mask * 4 := by
  rw [TransactionConfig.mask, countOnes_maskOf, TransactionConfig.encode, length_append,
    length_append, length_append, length_encodeSome, length_encodeSome,
    length_encodeSome, length_encodeSome]
  generalize config.priorityFeeLamports.isSome = fee
  generalize config.computeUnitLimit.isSome = limit
  generalize config.loadedAccountsDataSizeLimit.isSome = size
  generalize config.requestedHeapSize.isSome = heap
  revert fee limit size heap
  decide

variable (hsize : bytes.length < 2 ^ 63)

include hsize

theorem TransactionConfigFrame.tryNew_eq_ok {maskOffset : Nat} (hpos : 0 < maskOffset)
    (hmask : maskOffset < 2 ^ 16) (hle : offset ≤ bytes.length) {frame : TransactionConfigFrame} :
    tryNew bytes maskOffset mask offset = .ok (frame, offset') ↔
      offset < 2 ^ 16 ∧ ∃ config : TransactionConfig, config.mask = mask ∧
        frame = ⟨maskOffset, mask, offset, UInt8.ofNat (countOnes mask)⟩ ∧
        Parsed bytes offset config.encode offset' := by
  have hones : ∀ fee limit size heap, countOnes (maskOf fee limit size heap) < 2 ^ 8 := by
    intro fee limit size heap
    rw [countOnes_maskOf]
    revert fee limit size heap
    decide
  unfold tryNew
  rw [if_neg (Nat.pos_iff_ne_zero.mp hpos)]
  constructor
  · intro h
    obtain ⟨hsanitized, h⟩ := check_bind_eq_ok_iff.mp h
    obtain ⟨-, h⟩ := tryU16_bind.mp h
    obtain ⟨hoffset, h⟩ := tryU16_bind.mp h
    obtain ⟨last, hwords, h⟩ := bind_eq_ok_iff.mp h
    cases h
    obtain ⟨fee, limit, size, heap, rfl⟩ := sanitizeMask_eq_ok.mp hsanitized
    obtain ⟨words, hlength, hparsed⟩ :=
      (advanceOffsetForArray_eq_ok hsize hle (by decide)).mp hwords
    rw [UInt8.toNat_toUInt16, toNat_ofNat8 (hones _ _ _ _), countOnes_maskOf] at hlength
    obtain ⟨config, hconfig, hencode⟩ := exists_config
      (show (u32.encodeAll words).length = numWords fee limit size heap * 4 by
        rw [Layout.length_encodeAll, hlength]; rfl)
    rw [← hencode] at hparsed
    exact ⟨hoffset, config, hconfig, rfl, hparsed⟩
  · rintro ⟨hoffset, config, rfl, rfl, hparsed⟩
    refine check_bind_eq_ok_iff.mpr ⟨sanitizeMask_eq_ok.mpr ⟨_, _, _, _, rfl⟩, ?_⟩
    refine tryU16_bind.mpr ⟨hmask, tryU16_bind.mpr ⟨hoffset, ?_⟩⟩
    refine bind_eq_ok_iff.mpr ⟨offset', ?_, rfl⟩
    have hnat := toNat_ofNat8 (hones config.priorityFeeLamports.isSome
      config.computeUnitLimit.isSome config.loadedAccountsDataSizeLimit.isSome
      config.requestedHeapSize.isSome)
    have hread : ∃ words,
        u32.readArrayAt bytes offset (countOnes config.mask) = some words := by
      refine u32.exists_readArrayAt ?_
      have hroom := hparsed.1.le
      rw [config.length_encode] at hroom
      exact hroom
    obtain ⟨words, hwords⟩ := hread
    obtain ⟨hlength, hat⟩ := u32.readArrayAt_eq_some.mp hwords
    refine (advanceOffsetForArray_eq_ok hsize hle (by decide)).mpr ⟨words, ?_, hat, ?_⟩
    · rw [UInt8.toNat_toUInt16, hlength]
      exact hnat.symm
    · rw [hparsed.2, config.length_encode, Layout.length_encodeAll, hlength]
      rfl

end

/-! ## Instructions of version 1 -/

/-- The lengths that a header can say. -/
def Instruction.ShortV1 (instruction : Instruction) : Prop :=
  instruction.accounts.length < 2 ^ 8 ∧ instruction.data.length < 2 ^ 16

/-- The header of an instruction. -/
def Instruction.header (instruction : Instruction) : V1InstructionHeader where
  programIdIndex := instruction.programIdIndex
  numAccounts := UInt8.ofNat instruction.accounts.length
  dataLen := Fin.ofNat _ instruction.data.length

/-- The length of the payload that a header announces. -/
def V1InstructionHeader.payloadLen (header : V1InstructionHeader) : Nat :=
  header.numAccounts.toNat + header.dataLen.val

theorem V1InstructionHeader.payloadLen_lt (header : V1InstructionHeader) :
    header.payloadLen < 2 ^ 17 := by
  have haccounts : header.numAccounts.toNat < 2 ^ 8 := header.numAccounts.toNat_lt
  have hdata : header.dataLen.val < 2 ^ 16 := header.dataLen.isLt
  rw [payloadLen]
  omega

theorem Instruction.encode_header (h : instruction.ShortV1) :
    layout.encode instruction.header = instruction.encodeHeader := by
  show Layout.uint8.encode instruction.programIdIndex ++
    (Layout.uint8.encode (UInt8.ofNat instruction.accounts.length) ++
      leBytes 2 (instruction.data.length % 2 ^ 16)) = _
  rw [Layout.encode_uint8, Layout.encode_uint8, Nat.mod_eq_of_lt h.2]
  rfl

theorem Instruction.payloadLen_header (h : instruction.ShortV1) :
    instruction.header.payloadLen = instruction.encodePayload.length := by
  show (UInt8.ofNat instruction.accounts.length).toNat + instruction.data.length % 2 ^ 16 = _
  rw [toNat_ofNat8 h.1, Nat.mod_eq_of_lt h.2, encodePayload, length_append]

section

variable (h : ∀ instruction ∈ instructions, instruction.ShortV1)
include h

theorem encodeAll_header :
    layout.encodeAll (instructions.map Instruction.header) =
      instructions.flatMap encodeHeader := by
  induction instructions with
  | nil => rfl
  | cons instruction instructions ih =>
    obtain ⟨hshort, hshorts⟩ := forall_mem_cons.mp h
    rw [map_cons, Layout.encodeAll_cons, instruction.encode_header hshort, ih hshorts, flatMap_cons]

theorem length_headers :
    (instructions.flatMap encodeHeader).length = instructions.length * layout.size := by
  rw [← encodeAll_header h, Layout.length_encodeAll, length_map]

theorem sum_payloadLen :
    ((instructions.map Instruction.header).map payloadLen).sum =
      (instructions.flatMap encodePayload).length := by
  induction instructions with
  | nil => rfl
  | cons instruction instructions ih =>
    obtain ⟨hshort, hshorts⟩ := forall_mem_cons.mp h
    rw [map_cons, map_cons, sum_cons, ih hshorts,
      instruction.payloadLen_header hshort, flatMap_cons, length_append]

end

/-- Headers, and payloads as long as they announce, are instructions. -/
theorem exists_instructions (headers : List V1InstructionHeader) {payloads : List UInt8}
    (h : payloads.length = (headers.map payloadLen).sum) :
    ∃ instructions : List Instruction, (∀ instruction ∈ instructions, instruction.ShortV1) ∧
      instructions.map Instruction.header = headers ∧
      instructions.flatMap encodePayload = payloads := by
  induction headers generalizing payloads with
  | nil =>
    rw [length_eq_zero_iff.mp h]
    exact ⟨[], fun _ h => absurd h not_mem_nil, rfl, rfl⟩
  | cons header headers ih =>
    rw [map_cons, sum_cons] at h
    obtain ⟨payload, rest, rfl, hpayload⟩ := exists_split payloads
      (show header.payloadLen ≤ payloads.length by omega)
    rw [length_append] at h
    rw [payloadLen] at hpayload
    obtain ⟨accounts, data, rfl, haccounts⟩ := exists_split payload
      (show header.numAccounts.toNat ≤ payload.length by omega)
    rw [length_append] at h hpayload
    rw [payloadLen] at h
    obtain ⟨instructions, hshorts, rfl, rfl⟩ := ih (show rest.length = _ by omega)
    have hdata : data.length = header.dataLen.val := by omega
    refine ⟨⟨header.programIdIndex, accounts, data⟩ :: instructions, ?_, ?_, rfl⟩
    · refine forall_mem_cons.mpr ⟨⟨?_, ?_⟩, hshorts⟩
      · rw [haccounts]
        exact header.numAccounts.toNat_lt
      · rw [hdata]
        exact header.dataLen.isLt
    · rw [map_cons, Instruction.header]
      dsimp only
      rw [haccounts, hdata, UInt8.ofNat_toNat, Fin.ofNat_val_eq_self]

section

variable (hsize : bytes.length < 2 ^ 63)

include hsize

theorem readV1Header_eq_ok {header : V1InstructionHeader} :
    readV1Header bytes offset = .ok (header, offset') ↔
      Parsed bytes offset (layout.encode header) offset' := by
  rw [readV1Header, bind_eq_ok_iff, Parsed, layout.length_encode]
  constructor
  · rintro ⟨header', hread, h⟩
    cases h
    have hat := uncheckedCopyValue_eq_ok.mp hread
    have hroom := hat.le
    rw [layout.length_encode] at hroom
    exact ⟨hat, wrappingAdd_of_le hsize (by omega)⟩
  · rintro ⟨hat, rfl⟩
    have hroom := hat.le
    rw [layout.length_encode] at hroom
    refine ⟨header, uncheckedCopyValue_eq_ok.mpr hat, ?_⟩
    rw [wrappingAdd_of_le hsize (by omega)]
    rfl

theorem totalPayloadLen_eq_ok {total total' : Nat} (hle : offset ≤ bytes.length)
    (hfits : total + n * 2 ^ 17 < 2 ^ 64) :
    totalPayloadLen bytes n offset total = .ok total' ↔
      ∃ headers : List V1InstructionHeader, headers.length = n ∧
        At bytes offset (layout.encodeAll headers) ∧
        total' = total + (headers.map payloadLen).sum := by
  induction n generalizing offset total with
  | zero =>
    rw [totalPayloadLen]
    constructor
    · intro h
      cases h
      exact ⟨[], rfl, at_nil.mpr hle, rfl⟩
    · rintro ⟨headers, hlength, -, rfl⟩
      rw [length_eq_zero_iff.mp hlength]
      rfl
  | succ n ih =>
    rw [Nat.add_mul, Nat.one_mul] at hfits
    rw [totalPayloadLen]
    constructor
    · intro h
      obtain ⟨header, hparsed, h⟩ := (bind_parsed (readV1Header_eq_ok hsize)).mp h
      have hlen := header.payloadLen_lt
      rw [payloadLen] at hlen
      dsimp only at h
      rw [checkedAdd, if_pos (by omega), ok_bind, checkedAdd, if_pos (by omega), ok_bind] at h
      obtain ⟨headers, hlength, hat, rfl⟩ := (ih hparsed.le (by omega)).mp h
      refine ⟨header :: headers, by rw [length_cons, hlength], ?_, ?_⟩
      · rw [Layout.encodeAll_cons, at_append, ← hparsed.2]
        exact ⟨hparsed.1, hat⟩
      · rw [map_cons, sum_cons]
        exact Nat.add_assoc _ _ _
    · rintro ⟨headers, hlength, hat, rfl⟩
      obtain ⟨header, rest, rfl⟩ := exists_cons_of_length_eq_add_one hlength
      rw [Layout.encodeAll_cons, at_append] at hat
      have hlen := header.payloadLen_lt
      rw [payloadLen] at hlen
      have hparsed : Parsed bytes offset (layout.encode header) _ :=
        ⟨hat.1, rfl⟩
      refine bind_ok ((readV1Header_eq_ok hsize).mpr hparsed) ?_
      dsimp only
      rw [checkedAdd, if_pos (by omega), ok_bind, checkedAdd, if_pos (by omega), ok_bind]
      refine (ih hparsed.le (by omega)).mpr ⟨rest, Nat.add_right_cancel hlength, hat.2, ?_⟩
      rw [map_cons, sum_cons]
      exact (Nat.add_assoc _ _ _).symm

theorem InstructionsFrame.tryNewForV1_eq_ok {numInstructions : UInt8} {frame : InstructionsFrame}
    (hle : offset ≤ bytes.length) :
    tryNewForV1 asU16 bytes offset numInstructions = .ok (frame, offset') ↔
      ∃ instructions : List Instruction, instructions.length = numInstructions.toNat ∧
        (∀ instruction ∈ instructions, instruction.ShortV1) ∧
        frame = .v1 numInstructions.toUInt16 (asU16 offset)
          (asU16 (offset + (instructions.flatMap encodeHeader).length)) ∧
        Parsed bytes offset (instructions.flatMap encodeHeader ++
          instructions.flatMap encodePayload) offset' := by
  have hcount : numInstructions.toNat < 2 ^ 8 := numInstructions.toNat_lt
  have hmul : wrappingMul layout.size numInstructions.toNat =
      numInstructions.toNat * layout.size := by
    rw [wrappingMul, Nat.mul_comm]
    exact Nat.mod_eq_of_lt (by show numInstructions.toNat * 4 < 2 ^ 64; omega)
  unfold tryNewForV1
  rw [hmul]
  constructor
  · intro h
    obtain ⟨hroom, h⟩ := check_bind_eq_ok_iff.mp h
    obtain ⟨total, htotal, h⟩ := bind_eq_ok_iff.mp h
    obtain ⟨hpayloads, h⟩ := check_bind_eq_ok_iff.mp h
    cases h
    rw [checkRemaining_eq_ok hsize hle] at hroom
    have hwrap : wrappingAdd offset (numInstructions.toNat * layout.size) =
        offset + numInstructions.toNat * layout.size :=
      wrappingAdd_of_le hsize (by omega)
    obtain ⟨headers, hlength, hat, rfl⟩ :=
      (totalPayloadLen_eq_ok hsize hle (by omega)).mp htotal
    rw [hwrap, checkRemaining_eq_ok hsize hroom, Nat.zero_add] at hpayloads
    obtain ⟨payloads, hpayloadsLength, hpayloadsAt⟩ := exists_at hpayloads
    obtain ⟨instructions, hshorts, rfl, rfl⟩ := exists_instructions headers hpayloadsLength
    rw [length_map] at hlength
    have hheaders := encodeAll_header hshorts
    have hheadersLength := hlength ▸ length_headers hshorts
    rw [hheaders] at hat
    refine ⟨instructions, hlength, hshorts, ?_, at_append.mpr ⟨hat, ?_⟩, ?_⟩
    · rw [hheadersLength, hwrap]
    · rw [hheadersLength]
      exact hpayloadsAt
    · rw [hwrap, Nat.zero_add, wrappingAdd_of_le hsize (by omega), length_append,
        hheadersLength, hpayloadsLength, Nat.add_assoc]
  · rintro ⟨instructions, hlength, hshorts, rfl, hparsed⟩
    have hheaders := encodeAll_header hshorts
    have hheadersLength := hlength ▸ length_headers hshorts
    obtain ⟨hfront, hback⟩ := hparsed.split
    rw [hheadersLength] at hfront hback
    have hroom := hfront.le
    have hroom' := hback.1.le
    refine check_bind_eq_ok_iff.mpr ⟨(checkRemaining_eq_ok hsize hle).mpr hroom, ?_⟩
    refine bind_ok ((totalPayloadLen_eq_ok hsize hle (by omega)).mpr
      ⟨instructions.map Instruction.header, by rw [length_map, hlength], ?_, rfl⟩) ?_
    · rw [hheaders]
      exact hfront.1
    · rw [Nat.zero_add, sum_payloadLen hshorts, wrappingAdd_of_le hsize (by omega)]
      refine check_bind_eq_ok_iff.mpr ⟨(checkRemaining_eq_ok hsize hroom).mpr hroom', ?_⟩
      rw [wrappingAdd_of_le hsize (by omega), ← hback.2, hheadersLength]
      rfl

end

end Agave.TxView

