/-
  Agave.TransactionView.Correct

  The frame of an accepted transaction gives back its values, and the bytes are
  the encoding of these values.
-/

import Mathlib.Algebra.Order.BigOperators.Group.List
import Agave.TransactionView.Parser
import Agave.TransactionView.Access

namespace Agave.TxView

open Lib List TransactionFrame Instruction Layouts InstructionsIterator

/-! ## Reading a transaction -/

namespace Versioned

/-- The config of a transaction.  A version that has none has no value in it. -/
def config : Versioned → TransactionConfig
  | legacy => ⟨none, none, none, none⟩
  | v0 _ => ⟨none, none, none, none⟩
  | v1 config => config

theorem ext_of {a b : Versioned} (hversion : a.version = b.version)
    (hlookups : a.lookups = b.lookups) (hconfig : a.config = b.config) : a = b := by
  cases a with
  | legacy =>
    cases b with
    | legacy => rfl
    | v0 lookups => cases hversion
    | v1 config => cases hversion
  | v0 lookups =>
    cases b with
    | legacy => cases hversion
    | v0 lookups' => exact congrArg v0 hlookups
    | v1 config => cases hversion
  | v1 config =>
    cases b with
    | legacy => cases hversion
    | v0 lookups => cases hversion
    | v1 config' => exact congrArg v1 hconfig

end Versioned

/-- The accessors of a frame return the values of a transaction, and all they
    read lies in the bytes. -/
structure TransactionFrame.Reads (frame : TransactionFrame) (bytes : List UInt8)
    (tx : Transaction) : Prop where
  version : frame.version = tx.versioned.version
  message : frame.messageData bytes = .ok tx.message
  numSignatures : frame.numSignatures.toNat = tx.signatures.length
  signatures : frame.signatures bytes = .ok tx.signatures
  header : tx.header = ⟨frame.numRequiredSignatures, frame.numReadonlySignedStaticAccounts,
    frame.numReadonlyUnsignedStaticAccounts⟩
  numStaticAccountKeys : frame.numStaticAccountKeys.toNat = tx.staticAccountKeys.length
  staticAccountKeys : frame.readStaticAccountKeys bytes = .ok tx.staticAccountKeys
  recentBlockhash : frame.recentBlockhash bytes = .ok tx.recentBlockhash
  numInstructions : frame.numInstructions.toNat = tx.instructions.length
  instructions : Yields (InstructionsIterator.next bytes) frame.instructionsIter tx.instructions
  numAddressTableLookups : frame.numAddressTableLookups.toNat = tx.versioned.lookups.length
  lookups : Yields (AddressTableLookupIterator.next bytes) frame.addressTableLookupIter
    tx.versioned.lookups
  writable : frame.totalWritableLookupAccounts = totalWritable tx.versioned.lookups
  readonly : frame.totalReadonlyLookupAccounts = totalReadonly tx.versioned.lookups
  priorityFeeLamports : frame.transactionConfigFrame.priorityFeeLamports bytes =
    .ok tx.versioned.config.priorityFeeLamports
  computeUnitLimit : frame.transactionConfigFrame.computeUnitLimit bytes =
    .ok tx.versioned.config.computeUnitLimit
  loadedAccountsDataSizeLimit : frame.transactionConfigFrame.loadedAccountsDataSizeLimit bytes =
    .ok tx.versioned.config.loadedAccountsDataSizeLimit
  requestedHeapSize : frame.transactionConfigFrame.requestedHeapSize bytes =
    .ok tx.versioned.config.requestedHeapSize

variable {frame : TransactionFrame} {instruction : Instruction} {α : Type} {bytes : List UInt8}

/-- The accessors determine the transaction. -/
theorem TransactionFrame.Reads.unique {tx tx' : Transaction}
    (h : frame.Reads bytes tx) (h' : frame.Reads bytes tx') : tx = tx' := by
  have hconfig : tx.versioned.config = tx'.versioned.config := by
    have hfee := h.priorityFeeLamports.symm.trans h'.priorityFeeLamports
    have hlimit := h.computeUnitLimit.symm.trans h'.computeUnitLimit
    have hloaded := h.loadedAccountsDataSizeLimit.symm.trans h'.loadedAccountsDataSizeLimit
    have hheap := h.requestedHeapSize.symm.trans h'.requestedHeapSize
    cases hc : tx.versioned.config
    cases hc' : tx'.versioned.config
    rw [hc, hc', Except.ok.injEq] at hfee hlimit hloaded hheap
    rw [TransactionConfig.mk.injEq]
    exact ⟨hfee, hlimit, hloaded, hheap⟩
  have hversioned : tx.versioned = tx'.versioned :=
    Versioned.ext_of (h.version.symm.trans h'.version) (h.lookups.unique h'.lookups) hconfig
  have hsignatures := Except.ok.inj (h.signatures.symm.trans h'.signatures)
  have hkeys := Except.ok.inj (h.staticAccountKeys.symm.trans h'.staticAccountKeys)
  have hhash := Except.ok.inj (h.recentBlockhash.symm.trans h'.recentBlockhash)
  have hheader := h.header.trans h'.header.symm
  have hinstructions := h.instructions.unique h'.instructions
  cases tx
  cases tx'
  rw [Transaction.mk.injEq]
  exact ⟨hsignatures, hheader, hkeys, hhash, hinstructions, hversioned⟩

/-! ## Iterators -/

variable {items : List UInt8} {rest : List Instruction}

section

variable {offset offset' total done : Nat} (hsize : bytes.length < 2 ^ 63) {n : UInt16}

include hsize

theorem uncheckedReadSliceData_eq_ok (hn : n.toNat = items.length)
    (hparsed : Parsed bytes offset items offset') :
    uncheckedReadSliceData Layout.uint8 bytes offset n = .ok (items, offset') := by
  have hle := hparsed.le
  obtain ⟨hat, rfl⟩ := hparsed
  have hmul : wrappingMul n.toNat Layout.uint8.size = items.length := by
    show n.toNat * 1 % 2 ^ 64 = _
    rw [hn]
    omega
  refine bind_ok (fromRawParts_eq_ok.mpr ⟨hn.symm, (encodeAll_uint8 items).symm ▸ hat⟩) ?_
  rw [hmul, wrappingAdd_of_le hsize (by omega)]
  rfl

theorem wrappingAdd_shortVec {n : Nat} (hparsed : Parsed bytes offset (shortVec n) offset') :
    wrappingAdd offset (UInt8.ofNat (shortVec n).length).toNat = offset' := by
  have hle := hparsed.le
  have hlength := length_shortVec_le n
  obtain ⟨-, rfl⟩ := hparsed
  rw [toNat_ofNat8 (by omega), wrappingAdd_of_le hsize (by omega)]

theorem forLegacyAndV0_eq_ok (hshort : instruction.Short)
    (hparsed : Parsed bytes offset instruction.encode offset') :
    forLegacyAndV0 bytes offset instruction.frame = .ok (instruction, offset') := by
  obtain ⟨haccountsLt, hdataLt⟩ := hshort
  obtain ⟨hprogram, hrest⟩ := hparsed.split
  obtain ⟨hnumAccounts, hrest⟩ := hrest.split
  obtain ⟨haccounts, hrest⟩ := hrest.split
  obtain ⟨hdataLen, hdata⟩ := hrest.split
  refine bind_ok ((uncheckedReadByte_eq_ok hsize).mpr hprogram) ?_
  dsimp only [Instruction.frame]
  rw [wrappingAdd_shortVec hsize hnumAccounts]
  refine bind_ok (uncheckedReadSliceData_eq_ok hsize (toNat_ofNat16 (by omega)) haccounts) ?_
  dsimp only
  rw [wrappingAdd_shortVec hsize hdataLen]
  exact bind_ok (uncheckedReadSliceData_eq_ok hsize (toNat_ofNat16 (by omega)) hdata) rfl

theorem forV1_eq_ok (hshort : instruction.ShortV1)
    (hparsed : Parsed bytes offset instruction.encodePayload offset') :
    forV1 bytes offset instruction.header.programIdIndex
      instruction.header.numAccounts.toUInt16 (UInt16.ofNat instruction.header.dataLen.val) =
        .ok (instruction, offset') := by
  obtain ⟨haccountsLt, hdataLt⟩ := hshort
  obtain ⟨haccounts, hdata⟩ := hparsed.split
  have hnumAccounts : instruction.header.numAccounts.toUInt16.toNat =
      instruction.accounts.length := by
    rw [UInt8.toNat_toUInt16]
    exact toNat_ofNat8 haccountsLt
  have hdataLen : (UInt16.ofNat instruction.header.dataLen.val).toNat =
      instruction.data.length := by
    rw [toNat_ofNat16 instruction.header.dataLen.isLt]
    exact Nat.mod_eq_of_lt hdataLt
  refine bind_ok (uncheckedReadSliceData_eq_ok hsize hnumAccounts haccounts) ?_
  exact bind_ok (uncheckedReadSliceData_eq_ok hsize hdataLen hdata) rfl

/-- The iterator over the instructions of a legacy transaction, or one of
    version 0, after some of them. -/
theorem yields_legacyAndV0 (done : List Instruction) (hlength : (done ++ rest).length < 2 ^ 14)
    (hshort : ∀ instruction ∈ rest, instruction.Short)
    (hparsed : Parsed bytes offset (rest.flatMap Instruction.encode) offset') :
    Yields (next bytes)
      (.legacyAndV0 offset (UInt16.ofNat (done ++ rest).length) (UInt16.ofNat done.length)
        ((done ++ rest).map Instruction.frame)) rest := by
  induction rest generalizing done offset with
  | nil =>
    rw [Yields, InstructionsIterator.next, append_nil]
    exact if_pos (UInt16.le_refl _)
  | cons instruction rest ih =>
    obtain ⟨hfirst, hshort⟩ := forall_mem_cons.mp hshort
    rw [flatMap_cons] at hparsed
    obtain ⟨hinstruction, hrest⟩ := hparsed.split
    have hassoc : done ++ instruction :: rest = (done ++ [instruction]) ++ rest := by
      rw [append_assoc, singleton_append]
    have hindex : UInt16.ofNat (done ++ [instruction]).length = UInt16.ofNat done.length + 1 := by
      rw [length_append, UInt16.ofNat_add]
      rfl
    rw [hassoc] at hlength ⊢
    have hyields := ih (done ++ [instruction]) hlength hshort hrest
    rw [hindex] at hyields
    refine ⟨_, ?_, hyields⟩
    rw [length_append, length_append, length_singleton] at hlength
    have hdone : (UInt16.ofNat done.length).toNat = done.length := toNat_ofNat16 (by omega)
    have htotal : (UInt16.ofNat (done ++ [instruction] ++ rest).length).toNat =
        done.length + 1 + rest.length := by
      rw [length_append, length_append, length_singleton]
      exact toNat_ofNat16 (by omega)
    rw [InstructionsIterator.next, if_neg ?_]
    · refine bind_eq_ok_iff.mpr ⟨instruction.frame, ?_, ?_⟩
      · rw [indexSlice, hdone, ← hassoc, map_append, getElem?_append_right (by simp),
          length_map, Nat.sub_self, map_cons, getElem?_cons_zero]
      · exact bind_ok (forLegacyAndV0_eq_ok hsize hfirst hinstruction) rfl
    · rw [ge_iff_le, UInt16.le_iff_toNat_le, hdone, htotal]
      omega

/-- The iterator over the instructions of version 1, after some of them. -/
theorem yields_v1 {payloadsOffset signaturesOffset : Nat}
    (htotal : total = done + rest.length) (hlength : total < 2 ^ 8)
    (hshort : ∀ instruction ∈ rest, instruction.ShortV1)
    (hheaders : Parsed bytes offset (rest.flatMap encodeHeader) offset')
    (hpayloads : Parsed bytes payloadsOffset (rest.flatMap encodePayload)
      signaturesOffset) :
    Yields (next bytes) (.v1 (UInt16.ofNat done) (UInt16.ofNat total) offset payloadsOffset)
      rest := by
  induction rest generalizing done offset payloadsOffset with
  | nil =>
    subst htotal
    rw [Yields, InstructionsIterator.next]
    exact if_pos (UInt16.le_refl _)
  | cons instruction rest ih =>
    obtain ⟨hfirst, hshort⟩ := forall_mem_cons.mp hshort
    rw [flatMap_cons] at hheaders hpayloads
    rw [length_cons] at htotal
    obtain ⟨hheader, hheaders⟩ := hheaders.split
    obtain ⟨hpayload, hpayloads⟩ := hpayloads.split
    rw [← encode_header hfirst] at hheader
    have hyields := ih (show total = done + 1 + rest.length by omega) hshort hheaders hpayloads
    rw [UInt16.ofNat_add] at hyields
    refine ⟨_, ?_, hyields⟩
    rw [InstructionsIterator.next, if_neg ?_]
    · refine bind_ok ((readV1Header_eq_ok hsize).mpr hheader) ?_
      rw [encode_header hfirst]
      exact bind_ok (forV1_eq_ok hsize hfirst hpayload) rfl
    · rw [ge_iff_le, UInt16.le_iff_toNat_le, toNat_ofNat16 (by omega), toNat_ofNat16 (by omega)]
      omega

theorem readSliceData_eq_ok (hn : n.toNat = items.length)
    (hparsed : Parsed bytes offset items offset') :
    readSliceData Layout.uint8 bytes offset n = .ok (items, offset') := by
  have hle := hparsed.le
  have hoffset := hparsed.2
  rw [← encodeAll_uint8 items] at hparsed
  refine bind_ok ((advanceOffsetForArray_eq_ok hsize (by omega)
    (by decide)).mpr ⟨items, hn.symm, hparsed⟩) ?_
  exact bind_ok (fromRawParts_eq_ok.mpr ⟨hn.symm, hparsed.1⟩) rfl

theorem readType_eq_ok {layout : Layout α} {a : α}
    (hparsed : Parsed bytes offset (layout.encode a) offset') :
    readType layout bytes offset = .ok (a, offset') := by
  refine bind_ok ((advanceOffsetForType_eq_ok hsize hparsed.1.1).mpr ⟨a, hparsed⟩) ?_
  exact bind_ok (uncheckedCopyValue_eq_ok.mpr hparsed.1) rfl

theorem readLookup_eq_ok {lookup : AddressTableLookup} (hshort : lookup.Short)
    (hparsed : Parsed bytes offset lookup.encode offset') :
    readLookup bytes offset = .ok (lookup, offset') := by
  obtain ⟨hwritableLt, hreadonlyLt⟩ := hshort
  obtain ⟨hkey, hrest⟩ := hparsed.split
  obtain ⟨hnumWritable, hrest⟩ := hrest.split
  obtain ⟨hwritable, hrest⟩ := hrest.split
  obtain ⟨hnumReadonly, hreadonly⟩ := hrest.split
  refine bind_ok (readType_eq_ok hsize hkey) ?_
  refine bind_ok (optimizedRead_ofNat hsize hwritableLt hnumWritable) ?_
  refine bind_ok (readSliceData_eq_ok hsize (toNat_ofNat16 (by omega)) hwritable) ?_
  refine bind_ok (optimizedRead_ofNat hsize hreadonlyLt hnumReadonly) ?_
  exact bind_ok (readSliceData_eq_ok hsize (toNat_ofNat16 (by omega)) hreadonly) rfl

theorem yields_lookups {rest : List AddressTableLookup}
    (htotal : total = done + rest.length) (hlength : total < 2 ^ 8)
    (hshort : ∀ lookup ∈ rest, lookup.Short)
    (hparsed : Parsed bytes offset (rest.flatMap AddressTableLookup.encode) offset') :
    Yields (AddressTableLookupIterator.next bytes)
      ⟨offset, UInt8.ofNat total, UInt8.ofNat done⟩ rest := by
  induction rest generalizing done offset with
  | nil =>
    subst htotal
    rw [Yields, AddressTableLookupIterator.next]
    exact if_neg (UInt8.lt_irrefl _)
  | cons lookup rest ih =>
    obtain ⟨hfirst, hshort⟩ := forall_mem_cons.mp hshort
    rw [flatMap_cons] at hparsed
    rw [length_cons] at htotal
    obtain ⟨hlookup, hrest⟩ := hparsed.split
    have hyields := ih (show total = done + 1 + rest.length by omega) hshort hrest
    rw [UInt8.ofNat_add] at hyields
    refine ⟨_, ?_, hyields⟩
    rw [AddressTableLookupIterator.next, if_pos ?_]
    · refine bind_eq_ok_iff.mpr ⟨some (lookup, _), ?_, rfl⟩
      rw [readLookup_eq_ok hsize hfirst hlookup]
      rfl
    · rw [UInt8.lt_iff_toNat_lt, toNat_ofNat8 (by omega), toNat_ofNat8 (by omega)]
      omega

end

/-! ## The config -/

theorem valueAt_eq_ok {layout : Layout α} {offset offset' : Nat}
    {value : Option α} (hparsed : Parsed bytes offset (encodeSome layout value) offset') :
    TransactionConfigFrame.valueAt layout bytes (if value.isSome then some offset else none) =
      .ok value := by
  cases value with
  | none => rfl
  | some a => exact bind_ok (uncheckedCopyValue_eq_ok.mpr hparsed.1) rfl

namespace TransactionConfigFrame

/-- The frame of a config with the values at an offset. -/
def ofConfig (config : TransactionConfig) (valuesOffset : Nat) : TransactionConfigFrame :=
  ⟨4, config.mask, valuesOffset, UInt8.ofNat (countOnes config.mask)⟩

variable {offset offset' : Nat} {config : TransactionConfig}

/-- The words in front of the value of each bit.  Only the mask matters, and that
    the frame is present. -/
theorem wordIndexForBit_maskOf (fee limit size heap : Bool) :
    wordIndexForBit ⟨4, maskOf fee limit size heap, 0, 0⟩ 0 = (if fee then some 0 else none) ∧
      wordIndexForBit ⟨4, maskOf fee limit size heap, 0, 0⟩ 2 =
        (if limit then some (numWords fee false false false) else none) ∧
      wordIndexForBit ⟨4, maskOf fee limit size heap, 0, 0⟩ 3 =
        (if size then some (numWords fee limit false false) else none) ∧
      wordIndexForBit ⟨4, maskOf fee limit size heap, 0, 0⟩ 4 =
        (if heap then some (numWords fee limit size false) else none) := by
  revert fee limit size heap
  decide +kernel

theorem wordOffset_eq (hsize : bytes.length < 2 ^ 63) (frame : TransactionConfigFrame) {bit n : Nat}
    {flag : Bool} (hindex : frame.wordIndexForBit bit = if flag then some n else none)
    (hle : frame.valuesOffset + n * 4 ≤ bytes.length) :
    frame.wordOffset bit = if flag then some (frame.valuesOffset + n * 4) else none := by
  have hmul : wrappingMul n u32.size = n * 4 := by
    show n * 4 % 2 ^ 64 = _
    omega
  rw [wordOffset, hindex]
  cases flag with
  | false => rfl
  | true =>
    show some (wrappingAdd frame.valuesOffset (wrappingMul n u32.size)) = _
    rw [hmul, wrappingAdd_of_le hsize (by omega)]
    rfl

theorem reads_config (hsize : bytes.length < 2 ^ 63)
    (hparsed : Parsed bytes offset config.encode offset') :
    (ofConfig config offset).priorityFeeLamports bytes = .ok config.priorityFeeLamports ∧
      (ofConfig config offset).computeUnitLimit bytes = .ok config.computeUnitLimit ∧
      (ofConfig config offset).loadedAccountsDataSizeLimit bytes =
        .ok config.loadedAccountsDataSizeLimit ∧
      (ofConfig config offset).requestedHeapSize bytes = .ok config.requestedHeapSize := by
  obtain ⟨hfee, hrest⟩ := hparsed.split
  obtain ⟨hlimit, hrest⟩ := hrest.split
  obtain ⟨hloaded, hheap⟩ := hrest.split
  obtain ⟨hword₀, hword₂, hword₃, hword₄⟩ := wordIndexForBit_maskOf
    config.priorityFeeLamports.isSome config.computeUnitLimit.isSome
    config.loadedAccountsDataSizeLimit.isSome config.requestedHeapSize.isSome
  have hwords : ∀ flag : Bool,
      (if flag then u32.size else 0) = (if flag then 1 else 0) * 4 := by
    decide
  have hfeeWords : (encodeSome u64 config.priorityFeeLamports).length =
      (if config.priorityFeeLamports.isSome then 2 else 0) * 4 := by
    rw [length_encodeSome]
    cases config.priorityFeeLamports.isSome <;> rfl
  have hlimitOffset : offset + (encodeSome u64 config.priorityFeeLamports).length =
      offset + numWords config.priorityFeeLamports.isSome false false false * 4 := by
    rw [hfeeWords]
    rfl
  have hloadedOffset : offset + (encodeSome u64 config.priorityFeeLamports).length +
      (encodeSome u32 config.computeUnitLimit).length =
      offset + numWords config.priorityFeeLamports.isSome config.computeUnitLimit.isSome
        false false * 4 := by
    rw [hfeeWords, length_encodeSome, hwords, numWords, Nat.add_mul, Nat.add_assoc]
    rfl
  have hheapOffset : offset + (encodeSome u64 config.priorityFeeLamports).length +
      (encodeSome u32 config.computeUnitLimit).length +
      (encodeSome u32 config.loadedAccountsDataSizeLimit).length =
      offset + numWords config.priorityFeeLamports.isSome config.computeUnitLimit.isSome
        config.loadedAccountsDataSizeLimit.isSome false * 4 := by
    rw [hfeeWords, length_encodeSome, length_encodeSome, hwords, hwords, numWords, Nat.add_mul,
      Nat.add_mul, Nat.add_assoc, Nat.add_assoc]
    rfl
  rw [hlimitOffset] at hlimit
  rw [hloadedOffset] at hloaded
  rw [hheapOffset] at hheap
  refine ⟨?_, ?_, ?_, ?_⟩
  · rw [priorityFeeLamports, wordOffset_eq hsize (ofConfig config offset) hword₀ hfee.1.1]
    exact valueAt_eq_ok hfee
  · rw [computeUnitLimit, wordOffset_eq hsize (ofConfig config offset) hword₂ hlimit.1.1]
    exact valueAt_eq_ok hlimit
  · rw [loadedAccountsDataSizeLimit, wordOffset_eq hsize (ofConfig config offset) hword₃ hloaded.1.1]
    exact valueAt_eq_ok hloaded
  · rw [requestedHeapSize, wordOffset_eq hsize (ofConfig config offset) hword₄ hheap.1.1]
    exact valueAt_eq_ok hheap

end TransactionConfigFrame

/-! ## Accepted transactions -/

theorem messageData_eq_ok {piece : List UInt8}
    (h : Parsed bytes frame.messageRange.1 piece frame.messageRange.2) :
    frame.messageData bytes = .ok piece := by
  have hle := h.le
  obtain ⟨hat, hstop⟩ := h
  have htake := (at_iff_take.mp hat).2
  show (if frame.messageRange.1 ≤ frame.messageRange.2 ∧ frame.messageRange.2 ≤ bytes.length then
    .ok ((bytes.drop frame.messageRange.1).take (frame.messageRange.2 - frame.messageRange.1))
    else .error .panicked : Parse (List UInt8)) = _
  rw [if_pos ⟨by omega, hle⟩, hstop, Nat.add_sub_cancel_left, htake]

namespace Transaction

variable {tx : Transaction}

section

variable (haccepted : tx.AcceptedLegacyOrV0) (hsize : bytes.length < 2 ^ 63)
  (hencode : tx.encode = bytes)
include haccepted hsize hencode

theorem AcceptedLegacyOrV0.reads_lookups :
    (tx.frameLegacyOrV0 id).numAddressTableLookups.toNat = tx.versioned.lookups.length ∧
      Yields (AddressTableLookupIterator.next bytes)
        (tx.frameLegacyOrV0 id).addressTableLookupIter tx.versioned.lookups ∧
      (tx.frameLegacyOrV0 id).totalWritableLookupAccounts = totalWritable tx.versioned.lookups ∧
      (tx.frameLegacyOrV0 id).totalReadonlyLookupAccounts =
        totalReadonly tx.versioned.lookups := by
  have hmax : maxAtlsPerPacket.toNat = 31 := by decide
  have htail := ((sections_iff haccepted.version).mpr hencode).tail
  have hlookups := haccepted.lookups
  have hversion := haccepted.version
  unfold frameLegacyOrV0 numAddressTableLookups
    addressTableLookupIter totalWritableLookupAccounts
    totalReadonlyLookupAccounts
  cases hversioned : tx.versioned with
  | legacy => exact ⟨rfl, rfl, rfl, rfl⟩
  | v0 lookups =>
    rw [hversioned] at htail hlookups
    have hlength : lookups.length ≤ 31 := hmax ▸ hlookups.length_le
    rw [Versioned.encodeTail, encodeLookups, shortVec_of_lt (by omega)] at htail
    exact ⟨toNat_ofNat8 (by omega), yields_lookups hsize (Nat.zero_add _).symm (by omega)
      hlookups.short htail.split.2, rfl, rfl⟩
  | v1 config => exact absurd (by rw [hversioned]; rfl) hversion

theorem AcceptedLegacyOrV0.reads : (tx.frameLegacyOrV0 id).Reads bytes tx := by
  obtain ⟨hnumLookups, hlookups, hwritable, hreadonly⟩ :=
    haccepted.reads_lookups hsize hencode
  have hsections := (sections_iff haccepted.version).mpr hencode
  have hmaxSignatures : maxSignaturesPerPacket.toNat = 12 := by decide
  have hmaxKeys : legacyOrV0MaxStaticAccountsPerPacket.toNat = 38 := by decide
  have hsignaturesLe := haccepted.signatures_le
  have hkeysLe := haccepted.keys_le
  have hnumSignatures : (UInt8.ofNat tx.signatures.length).toNat = tx.signatures.length :=
    toNat_ofNat8 (by omega)
  have hnumKeys : (UInt8.ofNat tx.staticAccountKeys.length).toNat = tx.staticAccountKeys.length :=
    toNat_ofNat8 (by omega)
  have hsignatures := hsections.signatures
  have hkeys := hsections.keys
  rw [encodeSignatures, shortVec_of_lt (by omega)] at hsignatures
  rw [encodeKeys, shortVec_of_lt (by omega)] at hkeys
  -- A transaction of these versions has no config.
  have hconfig : tx.versioned.config = ⟨none, none, none, none⟩ := by
    cases hversioned : tx.versioned with
    | legacy => rfl
    | v0 lookups => rfl
    | v1 config => exact absurd (by rw [hversioned]; rfl) haccepted.version
  constructor
  case version => rfl
  case message =>
    refine messageData_eq_ok ?_
    have hversion : (tx.frameLegacyOrV0 id).version ≠ .v1 := haccepted.version
    rw [message_eq haccepted.version, messageRange, if_neg hversion]
    show Parsed bytes tx.messageOffset _ tx.encode.length
    rw [hencode]
    exact hsections.header.append (hsections.keys.append (hsections.hash.append
      (hsections.instructions.append hsections.tail)))
  case numSignatures => exact hnumSignatures
  case signatures =>
    exact fromRawParts_eq_ok.mpr ⟨hnumSignatures.symm, hsignatures.split.2.1⟩
  case header => rfl
  case numStaticAccountKeys => exact hnumKeys
  case staticAccountKeys => exact fromRawParts_eq_ok.mpr ⟨hnumKeys.symm, hkeys.split.2.1⟩
  case recentBlockhash => exact uncheckedCopyValue_eq_ok.mpr hsections.hash.1
  case numInstructions => exact toNat_ofNat16 (by have := haccepted.instructions_lt; omega)
  case instructions =>
    exact yields_legacyAndV0 hsize [] haccepted.instructions_lt haccepted.short
      hsections.instructions.split.2
  case numAddressTableLookups => exact hnumLookups
  case lookups => exact hlookups
  case writable => exact hwritable
  case readonly => exact hreadonly
  case priorityFeeLamports => rw [hconfig]; rfl
  case computeUnitLimit => rw [hconfig]; rfl
  case loadedAccountsDataSizeLimit => rw [hconfig]; rfl
  case requestedHeapSize => rw [hconfig]; rfl

end

theorem AcceptedV1.reads {config : TransactionConfig} (haccepted : tx.AcceptedV1 config)
    (hsize : bytes.length < 2 ^ 63) (hencode : tx.encode = bytes) :
    (tx.frameV1 id config).Reads bytes tx := by
  have hversioned := haccepted.versioned
  have hsections := (sectionsV1_iff hversioned).mpr hencode
  have hnumKeys : (UInt8.ofNat tx.staticAccountKeys.length).toNat = tx.staticAccountKeys.length :=
    toNat_ofNat8 haccepted.keys_lt
  have hnumInstructions : (UInt8.ofNat tx.instructions.length).toUInt16 =
      UInt16.ofNat tx.instructions.length := by
    apply UInt16.toNat_inj.mp
    rw [UInt8.toNat_toUInt16, toNat_ofNat8 haccepted.instructions_lt,
      toNat_ofNat16 (by have := haccepted.instructions_lt; omega)]
  obtain ⟨hfee, hlimit, hloaded, hheap⟩ :=
    TransactionConfigFrame.reads_config hsize hsections.values
  constructor
  case version => rw [hversioned]; rfl
  case message =>
    refine messageData_eq_ok ?_
    rw [message, hversioned]
    exact hsections.version.append ((hsections.required.append (hsections.signed.append
      hsections.unsigned)).append (hsections.mask.append (hsections.hash.append
      (hsections.numInstructions.append (hsections.numAddresses.append (hsections.keys.append
      (hsections.values.append (hsections.headers.append hsections.payloads))))))))
  case numSignatures => exact haccepted.signatures.symm
  case signatures =>
    exact fromRawParts_eq_ok.mpr ⟨haccepted.signatures, hsections.signatures.1⟩
  case header => rfl
  case numStaticAccountKeys => exact hnumKeys
  case staticAccountKeys => exact fromRawParts_eq_ok.mpr ⟨hnumKeys.symm, hsections.keys.1⟩
  case recentBlockhash => exact uncheckedCopyValue_eq_ok.mpr hsections.hash.1
  case numInstructions =>
    show (UInt8.ofNat tx.instructions.length).toUInt16.toNat = _
    rw [UInt8.toNat_toUInt16, toNat_ofNat8 haccepted.instructions_lt]
  case instructions =>
    have hyields := yields_v1 hsize (Nat.zero_add _).symm haccepted.instructions_lt
      haccepted.short hsections.headers hsections.payloads
    rw [← hnumInstructions] at hyields
    exact hyields
  case numAddressTableLookups => rw [hversioned]; rfl
  case lookups => rw [hversioned]; rfl
  case writable => rw [hversioned]; rfl
  case readonly => rw [hversioned]; rfl
  case priorityFeeLamports => rw [hversioned]; exact hfee
  case computeUnitLimit => rw [hversioned]; exact hlimit
  case loadedAccountsDataSizeLimit => rw [hversioned]; exact hloaded
  case requestedHeapSize => rw [hversioned]; exact hheap

theorem Accepted.reads (haccepted : tx.Accepted) (hencode : tx.encode = bytes) :
    (tx.frame truncateU16).Reads bytes tx := by
  have hsize : bytes.length < 2 ^ 63 := by
    have hlength := haccepted.length_lt
    rw [hencode] at hlength
    omega
  rw [haccepted.frame_truncate]
  obtain h | ⟨config, h⟩ := accepted_iff.mp haccepted
  · rw [h.frame_eq]
    exact h.reads hsize hencode
  · rw [h.frame_eq]
    exact h.reads hsize hencode

end Transaction

/-! ## What is accepted -/

/-- `MAX_TRANSACTION_SIZE` of messages of version 1. -/
def maxTransactionSize : Nat := 4096

variable {lookups : List AddressTableLookup}

namespace Transaction

/-- A transaction that a packet can carry.  In version 1 the counts have a fixed width. -/
structure Valid (tx : Transaction) : Prop where
  signatures_pos : 1 ≤ tx.signatures.length
  signatures_le : tx.signatures.length ≤ 12
  required : tx.header.numRequiredSignatures.toNat = tx.signatures.length
  keys : if tx.versioned.version = .v1 then tx.staticAccountKeys.length ≤ 255
    else 1 ≤ tx.staticAccountKeys.length ∧ tx.staticAccountKeys.length ≤ 35
  lookups : ∀ lookup ∈ tx.versioned.lookups,
    1 ≤ lookup.writableIndexes.length + lookup.readonlyIndexes.length
  counts : tx.versioned.version = .v1 → tx.instructions.length ≤ 255 ∧
    ∀ instruction ∈ tx.instructions, instruction.accounts.length ≤ 255
  size : tx.encode.length ≤
    if tx.versioned.version = .v1 then maxTransactionSize else packetDataSize

theorem length_le_of_mem {items : List α} {item : α} (encode : α → List UInt8) (h : item ∈ items) :
    (encode item).length ≤ (items.flatMap encode).length := by
  rw [length_flatMap]
  exact single_le_sum (fun _ _ => Nat.zero_le _) _ (mem_map_of_mem h)

/-- The key of a lookup and its lengths take 34 bytes, and each index one. -/
theorem length_lookups (lookups : List AddressTableLookup) :
    34 * lookups.length + (totalWritable lookups + totalReadonly lookups) ≤
      (lookups.flatMap AddressTableLookup.encode).length := by
  induction lookups with
  | nil => exact Nat.le_refl _
  | cons lookup lookups ih =>
    have hwritable := length_shortVec_pos lookup.writableIndexes.length
    have hreadonly := length_shortVec_pos lookup.readonlyIndexes.length
    have hkey : (pubkey.encode lookup.accountKey).length = 32 :=
      pubkey.length_encode _
    rw [totalWritable, totalReadonly] at ih ⊢
    rw [flatMap_cons, length_append, length_cons, AddressTableLookup.encode,
      length_append, length_append, length_append, length_append,
      map_cons, map_cons, sum_cons, sum_cons]
    omega

theorem length_le_indexes
    (h : ∀ lookup ∈ lookups, 1 ≤ lookup.writableIndexes.length + lookup.readonlyIndexes.length) :
    lookups.length ≤ totalWritable lookups + totalReadonly lookups := by
  induction lookups with
  | nil => exact Nat.zero_le _
  | cons lookup lookups ih =>
    obtain ⟨hfirst, hrest⟩ := forall_mem_cons.mp h
    have hle := ih hrest
    rw [totalWritable, totalReadonly] at hle ⊢
    rw [length_cons, map_cons, map_cons, sum_cons, sum_cons]
    omega

variable {tx : Transaction}

theorem length_encode_v0 (hversioned : tx.versioned = .v0 lookups)
    (hsignatures : 1 ≤ tx.signatures.length) (hkeys : 1 ≤ tx.staticAccountKeys.length) :
    minSizedPacketWithAtls + (lookups.flatMap AddressTableLookup.encode).length ≤
      tx.encode.length := by
  have hsignature : signature.size = 64 := rfl
  have hpubkey : pubkey.size = 32 := rfl
  have hhash : hash.size = 32 := rfl
  have hmin : minSizedPacketWithAtls = 136 := rfl
  have h₁ := length_shortVec_pos tx.signatures.length
  have h₂ := length_shortVec_pos tx.staticAccountKeys.length
  have h₃ := length_shortVec_pos tx.instructions.length
  have h₄ := length_shortVec_pos lookups.length
  rw [encode, hversioned]
  simp only [encodeSignatures, encodeMessage, MessageHeader.encode, encodeKeys,
    encodeInstructions, encodeLookups, length_append, length_cons, length_nil,
    Layout.length_encodeAll, Layout.length_encode, hsignature, hpubkey, hhash]
  omega

theorem Valid.lookupsAccepted (h : tx.Valid) (hversion : tx.versioned.version ≠ .v1) :
    Versioned.LookupsAccepted tx.versioned.lookups := by
  have hsize := h.size
  have hkeys := h.keys
  have hindexes := h.lookups
  rw [if_neg hversion] at hsize hkeys
  cases hversioned : tx.versioned with
  | legacy => exact .nil
  | v0 lookups =>
    rw [hversioned] at hindexes
    have hpacket : packetDataSize = 1232 := rfl
    have hmin : minSizedPacketWithAtls = 136 := rfl
    have hatl : minSizedAtl = 35 := rfl
    have hmax : maxAtlsPerPacket.toNat = 31 := by decide
    have hlength := length_encode_v0 hversioned h.signatures_pos hkeys.1
    have hlookups := length_lookups lookups
    have hcount : lookups.length ≤ totalWritable lookups + totalReadonly lookups :=
      length_le_indexes hindexes
    refine ⟨?_, ?_, ?_, ?_, ?_⟩
    · show lookups.length ≤ _
      omega
    · intro lookup hmem
      have hle : lookup.encode.length ≤ (lookups.flatMap AddressTableLookup.encode).length :=
        length_le_of_mem AddressTableLookup.encode hmem
      rw [AddressTableLookup.encode, length_append, length_append, length_append,
        length_append] at hle
      exact ⟨by omega, by omega⟩
    · show totalWritable lookups < _
      omega
    · show totalReadonly lookups < _
      omega
    · show minSizedAtl * lookups.length ≤ (lookups.flatMap AddressTableLookup.encode).length
      rw [hatl]
      omega
  | v1 config => exact absurd (by rw [hversioned]; rfl) hversion

theorem Valid.acceptedLegacyOrV0 (h : tx.Valid) (hversion : tx.versioned.version ≠ .v1) :
    tx.AcceptedLegacyOrV0 := by
  have hsize := h.size
  have hkeys := h.keys
  rw [if_neg hversion] at hsize hkeys
  have hpacket : packetDataSize = 1232 := rfl
  have hmaxSignatures : maxSignaturesPerPacket.toNat = 12 := by decide
  have hmaxKeys : legacyOrV0MaxStaticAccountsPerPacket.toNat = 38 := by decide
  have hinstructions : (tx.instructions.flatMap Instruction.encode).length ≤ 1232 := by
    have hle := ((sections_iff hversion).mpr rfl).instructions.le
    rw [tailOffset, encodeInstructions, length_append] at hle
    omega
  constructor
  case version => exact hversion
  case signatures_pos => exact h.signatures_pos
  case signatures_le => exact hmaxSignatures ▸ h.signatures_le
  case required =>
    intro _
    have hle := h.signatures_le
    have hrequired := h.required
    omega
  case keys_pos => exact hkeys.1
  case keys_le => omega
  case instructions_lt =>
    have hle := three_mul_length_le tx.instructions
    omega
  case short =>
    intro instruction hmem
    have hle := length_le_of_mem Instruction.encode hmem
    rw [Instruction.encode, length_append, length_append, length_append, length_append] at hle
    exact ⟨by omega, by omega⟩
  case lookups => exact h.lookupsAccepted hversion
  case length_lt => omega

theorem Valid.acceptedV1 (h : tx.Valid) {config : TransactionConfig}
    (hversioned : tx.versioned = .v1 config) : tx.AcceptedV1 config := by
  have hversion : tx.versioned.version = .v1 := by rw [hversioned]; rfl
  have hsize := h.size
  have hkeys := h.keys
  obtain ⟨hcount, haccounts⟩ := h.counts hversion
  rw [if_pos hversion] at hsize hkeys
  have hmax : maxTransactionSize = 4096 := rfl
  constructor
  case versioned => exact hversioned
  case signatures => exact h.required.symm
  case keys_lt => omega
  case instructions_lt => omega
  case short =>
    intro instruction hmem
    have hpayloads := ((sectionsV1_iff hversioned).mpr rfl).payloads.le
    rw [signaturesOffset] at hpayloads
    have hle := length_le_of_mem encodePayload hmem
    rw [encodePayload, length_append] at hle
    have haccounts' := haccounts instruction hmem
    exact ⟨by omega, by omega⟩
  case length_lt => omega

theorem Valid.accepted (h : tx.Valid) : tx.Accepted := by
  by_cases hversion : tx.versioned.version = .v1
  · cases hversioned : tx.versioned with
    | legacy => rw [hversioned] at hversion; cases hversion
    | v0 lookups => rw [hversioned] at hversion; cases hversion
    | v1 config => exact accepted_iff.mpr (.inr ⟨config, h.acceptedV1 hversioned⟩)
  · exact accepted_iff.mpr (.inl (h.acceptedLegacyOrV0 hversion))

end Transaction

/-! ## Soundness and completeness -/

/-- The parser is sound.  Accepted bytes are the encoding of what the accessors
    read from them, within the bytes; a parser whose casts lose nothing returns
    the same frame; and other bytes are not accepted as the same transaction. -/
theorem transaction_view_sound {bytes : List UInt8} {frame : TransactionFrame}
    (h : tryNew bytes = .ok frame) :
    (∃ tx, frame.Reads bytes tx) ∧ (∀ tx, frame.Reads bytes tx → tx.encode = bytes) ∧
      tryNewWith id bytes = .ok frame ∧
      ∀ bytes' frame' tx, tryNew bytes' = .ok frame' →
        frame.Reads bytes tx → frame'.Reads bytes' tx → bytes = bytes' := by
  have hencode : ∀ {bytes frame}, tryNew bytes = .ok frame →
      ∃ tx, frame.Reads bytes tx ∧ tx.encode = bytes := by
    intro bytes frame h
    have hlength := length_lt_of_tryNewWith h
    obtain ⟨tx, haccepted, hencode, rfl⟩ :=
      (tryNewWith_eq_ok (by omega)).mp h
    exact ⟨tx, haccepted.reads hencode, hencode⟩
  obtain ⟨tx, hreads, htx⟩ := hencode h
  refine ⟨⟨tx, hreads⟩, ?_, tryNewWith_id h, ?_⟩
  · intro tx' hreads'
    rw [hreads'.unique hreads, htx]
  · intro bytes' frame' tx' h' hreads₁ hreads₂
    obtain ⟨tx₂, hreads₂', htx₂⟩ := hencode h'
    rw [← htx, ← htx₂, hreads.unique hreads₁, hreads₂'.unique hreads₂]

/-- A transaction of version 1, with a priority fee and a limit on the loaded data. -/
def transferV1 : Transaction where
  signatures := [Fin.ofNat _ 77]
  header := ⟨1, 0, 1⟩
  staticAccountKeys := [Fin.ofNat _ 1, Fin.ofNat _ 2]
  recentBlockhash := Fin.ofNat _ 3
  instructions := [⟨1, [0], [2, 0]⟩, ⟨1, [], [9]⟩]
  versioned := .v1 ⟨some (Fin.ofNat _ 5000), none, some (Fin.ofNat _ 64), none⟩

theorem transaction_view_sound_v1 :
    tryNew transferV1.encode = .ok (transferV1.frame truncateU16) ∧
      ∃ tx, (transferV1.frame truncateU16).Reads transferV1.encode tx :=
  have h : tryNew transferV1.encode = .ok (transferV1.frame truncateU16) := by
    decide +kernel
  ⟨h, (transaction_view_sound h).1⟩

/-- The parser is complete.  It accepts the encoding of every transaction that a
    packet can carry, and the accessors return its values. -/
theorem transaction_view_complete {tx : Transaction} (h : tx.Valid) :
    ∃ frame, tryNew tx.encode = .ok frame ∧ frame.Reads tx.encode tx := by
  have haccepted := h.accepted
  have hlength := haccepted.length_lt
  refine ⟨tx.frame truncateU16, ?_, haccepted.reads rfl⟩
  exact (tryNewWith_eq_ok (by omega)).mpr ⟨tx, haccepted, rfl, rfl⟩

/-- A transaction of version 0, with a lookup of two accounts. -/
def transferV0 : Transaction where
  signatures := [Fin.ofNat _ 77]
  header := ⟨1, 0, 1⟩
  staticAccountKeys := [Fin.ofNat _ 1, Fin.ofNat _ 2]
  recentBlockhash := Fin.ofNat _ 3
  instructions := [⟨1, [0, 2, 3], [2, 0]⟩]
  versioned := .v0 [⟨Fin.ofNat _ 4, [7], [8]⟩]

theorem transaction_view_complete_v0 : transferV0.Valid ∧
    ∃ frame, tryNew transferV0.encode = .ok frame ∧
      frame.Reads transferV0.encode transferV0 :=
  have hvalid : transferV0.Valid :=
    { signatures_pos := by decide +kernel
      signatures_le := by decide +kernel
      required := by decide +kernel
      keys := by decide +kernel
      lookups := by decide +kernel
      counts := by decide +kernel
      size := by decide +kernel }
  ⟨hvalid, transaction_view_complete hvalid⟩

end Agave.TxView

