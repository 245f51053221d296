/-
  Agave.TransactionView.Bytes

  Reading from the bytes of a transaction, with and without checks.

  Offsets are `usize`, which wrap.  A checked reader fails with an error of the parser; a read
  without a check that leaves the bytes is `outOfBounds`.  For each reader there is one fact: which
  bytes stand at the offset when it returns, and then it does return.
-/

import Agave.Layouts
import Agave.Lib.Outcome

namespace Agave.TxView

open Lib List

/-- `TransactionViewError`, as far as the parser returns it. -/
inductive TransactionViewError where
  | parseError
  | sanitizeError
  | addressLookupMismatch
deriving DecidableEq

/-- Why a function of the parser, or an accessor, does not return. -/
inductive Failure where
  | error (e : TransactionViewError)
  | panicked
  | outOfBounds
deriving DecidableEq

abbrev Parse (α : Type) := Except Failure α

/-- `wrapping_add` of `usize`. -/
def wrappingAdd (a b : Nat) : Nat := (a + b) % 2 ^ 64

/-- `wrapping_sub` of `usize`. -/
def wrappingSub (a b : Nat) : Nat := (a + (2 ^ 64 - b % 2 ^ 64)) % 2 ^ 64

/-- `wrapping_mul` of `usize`. -/
def wrappingMul (a b : Nat) : Nat := (a * b) % 2 ^ 64

/-! ## Readers -/

def checkRemaining (bytes : List UInt8) (offset numBytes : Nat) : Parse Unit :=
  if numBytes > wrappingSub bytes.length offset then .error (.error .parseError) else .ok ()

variable (bytes : List UInt8) (offset : Nat) (b : UInt8) {α : Type}

def readByte : Parse (UInt8 × Nat) :=
  match bytes[offset]? with
  | none => .error (.error .parseError)
  | some byte => .ok (byte, wrappingAdd offset 1)

def uncheckedReadByte : Parse (UInt8 × Nat) :=
  match bytes[offset]? with
  | none => .error .outOfBounds
  | some byte => .ok (byte, wrappingAdd offset 1)

/-- The loop of `read_compressed_u16`, from byte `i` on. -/
def readCompressedLoop (bytes : List UInt8) (offset : Nat) (result : UInt16) (shift : UInt16) :
    Nat → Nat → Parse (UInt16 × Nat)
  | _, 0 => .ok (result, wrappingAdd offset 3)
  | i, n + 1 =>
    match bytes[wrappingAdd offset i]? with
    | none => .error (.error .parseError)
    | some byte =>
      if (i > 0 ∧ byte = 0) ∨ (i = 2 ∧ byte > 3) then .error (.error .parseError)
      else
        let result := result ||| ((byte &&& 0x7F).toUInt16 <<< shift)
        if byte &&& 0x80 = 0 then .ok (result, wrappingAdd (wrappingAdd offset i) 1)
        else readCompressedLoop bytes offset result (shift + 7) (i + 1) n

def readCompressedU16 : Parse (UInt16 × Nat) :=
  readCompressedLoop bytes offset 0 0 0 3

def optimizedReadCompressedU16 : Parse (UInt16 × Nat) :=
  match bytes[offset]? with
  | none => .error (.error .parseError)
  | some byte1 =>
    let result := (byte1 &&& 0x7F).toUInt16
    if byte1 &&& 0x80 = 0 then .ok (result, wrappingAdd offset 1)
    else
      match bytes[wrappingAdd offset 1]? with
      | none => .error (.error .parseError)
      | some byte2 =>
        if byte2 = 0 ∨ byte2 &&& 0x80 ≠ 0 then .error (.error .parseError)
        else .ok (result ||| ((byte2 &&& 0x7F).toUInt16 <<< 7), wrappingAdd offset 2)

section

variable (layout : Layout α) (bytes : List UInt8) (offset : Nat)

def advanceOffsetForArray (numElements : UInt16) : Parse Nat := do
  let arrayLenBytes := wrappingMul numElements.toNat layout.size
  checkRemaining bytes offset arrayLenBytes
  return wrappingAdd offset arrayLenBytes

def advanceOffsetForType : Parse Nat := do
  checkRemaining bytes offset layout.size
  return wrappingAdd offset layout.size

/-- `core::slice::from_raw_parts`. -/
def fromRawParts (offset n : Nat) : Parse (List α) :=
  match layout.readArrayAt bytes offset n with
  | none => .error .outOfBounds
  | some items => .ok items

/-- `unchecked_copy_value`, and a dereferenced pointer. -/
def uncheckedCopyValue : Parse α :=
  match layout.readAt bytes offset with
  | none => .error .outOfBounds
  | some a => .ok a

def readSliceData (numElements : UInt16) : Parse (List α × Nat) := do
  let offset' ← advanceOffsetForArray layout bytes offset numElements
  let items ← fromRawParts layout bytes offset numElements.toNat
  return (items, offset')

def uncheckedReadSliceData (numElements : UInt16) : Parse (List α × Nat) := do
  let items ← fromRawParts layout bytes offset numElements.toNat
  return (items, wrappingAdd offset (wrappingMul numElements.toNat layout.size))

def readType : Parse (α × Nat) := do
  let offset' ← advanceOffsetForType layout bytes offset
  let a ← uncheckedCopyValue layout bytes offset
  return (a, offset')

end

/-! ## The encoding of lengths -/

/-- A length in the wire format: seven bits a byte, the lowest first, and the
    high bit set in all bytes but the last. -/
def shortVec (n : Nat) : List UInt8 :=
  if n < 2 ^ 7 then [UInt8.ofNat n]
  else if n < 2 ^ 14 then [UInt8.ofNat (n % 2 ^ 7 + 2 ^ 7), UInt8.ofNat (n / 2 ^ 7)]
  else [UInt8.ofNat (n % 2 ^ 7 + 2 ^ 7), UInt8.ofNat (n / 2 ^ 7 % 2 ^ 7 + 2 ^ 7),
    UInt8.ofNat (n / 2 ^ 14)]

theorem length_shortVec_pos (n : Nat) : 0 < (shortVec n).length := by
  unfold shortVec
  split_ifs <;> exact Nat.succ_pos _

theorem length_shortVec_le (n : Nat) : (shortVec n).length ≤ 3 := by
  unfold shortVec
  split_ifs <;> simp

theorem shortVec_byte {b : UInt8} (h : b.toNat < 2 ^ 7) : shortVec b.toNat = [b] := by
  rw [shortVec, if_pos h, UInt8.ofNat_toNat]

theorem and_high_eq_zero : b &&& 0x80 = 0 ↔ b.toNat < 2 ^ 7 := by
  have h : ∀ n : Fin 256, (n.val &&& 128 = 0 ↔ n.val < 2 ^ 7) := by decide +kernel
  rw [← h ⟨b.toNat, b.toNat_lt⟩, ← UInt8.toNat_inj, UInt8.toNat_and]
  rfl

theorem toNat_and_low : (b &&& 0x7F).toNat = b.toNat % 2 ^ 7 := by
  rw [UInt8.toNat_and]
  exact Nat.and_two_pow_sub_one_eq_mod b.toNat 7

theorem shortVec_two {b₁ b₂ : UInt8} (h₁ : 2 ^ 7 ≤ b₁.toNat) (h₂ : b₂ ≠ 0)
    (hhigh : b₂.toNat < 2 ^ 7) : shortVec (b₁.toNat % 2 ^ 7 + 2 ^ 7 * b₂.toNat) = [b₁, b₂] := by
  have hpos : b₂.toNat ≠ 0 := fun h => h₂ (UInt8.toNat_inj.mp h)
  have hlt : b₁.toNat < 2 ^ 8 := b₁.toNat_lt
  have hlow : (b₁.toNat % 2 ^ 7 + 2 ^ 7 * b₂.toNat) % 2 ^ 7 + 2 ^ 7 = b₁.toNat := by omega
  have hdiv : (b₁.toNat % 2 ^ 7 + 2 ^ 7 * b₂.toNat) / 2 ^ 7 = b₂.toNat := by omega
  rw [shortVec, if_neg (by omega), if_pos (by omega), hlow, hdiv, UInt8.ofNat_toNat,
    UInt8.ofNat_toNat]

variable {n k : Nat} {value : UInt16}

/-- The bytes of a length, by how many there are. -/
theorem exists_shortVec (h : n < 2 ^ 16) :
    (∃ b : UInt8, b.toNat < 2 ^ 7 ∧ n = b.toNat) ∨
      (∃ b₁ b₂ : UInt8, 2 ^ 7 ≤ b₁.toNat ∧ b₂ ≠ 0 ∧ b₂.toNat < 2 ^ 7 ∧
        n = b₁.toNat % 2 ^ 7 + 2 ^ 7 * b₂.toNat) ∨
      ∃ b₁ b₂ b₃ : UInt8, 2 ^ 7 ≤ b₁.toNat ∧ 2 ^ 7 ≤ b₂.toNat ∧ b₃ ≠ 0 ∧ b₃.toNat ≤ 3 ∧
        n = b₁.toNat % 2 ^ 7 + 2 ^ 7 * (b₂.toNat % 2 ^ 7) + 2 ^ 14 * b₃.toNat := by
  have hnat : ∀ m, m < 2 ^ 8 → (UInt8.ofNat m).toNat = m := fun m hm => UInt8.toNat_ofNat_of_lt' hm
  have hne : ∀ m, m < 2 ^ 8 → m ≠ 0 → UInt8.ofNat m ≠ 0 := by
    intro m hm hpos hzero
    exact hpos ((hnat m hm).symm.trans (congrArg UInt8.toNat hzero))
  have hlow := hnat (n % 2 ^ 7 + 2 ^ 7) (by omega)
  by_cases h₁ : n < 2 ^ 7
  · have hbyte := hnat n (by omega)
    exact .inl ⟨UInt8.ofNat n, by omega, by omega⟩
  · by_cases h₂ : n < 2 ^ 14
    · have hhigh := hnat (n / 2 ^ 7) (by omega)
      exact .inr (.inl ⟨UInt8.ofNat (n % 2 ^ 7 + 2 ^ 7), UInt8.ofNat (n / 2 ^ 7), by omega,
        hne _ (by omega) (by omega), by omega, by omega⟩)
    · have hmiddle := hnat (n / 2 ^ 7 % 2 ^ 7 + 2 ^ 7) (by omega)
      have hhigh := hnat (n / 2 ^ 14) (by omega)
      exact .inr (.inr ⟨UInt8.ofNat (n % 2 ^ 7 + 2 ^ 7), UInt8.ofNat (n / 2 ^ 7 % 2 ^ 7 + 2 ^ 7),
        UInt8.ofNat (n / 2 ^ 14), by omega, by omega, hne _ (by omega) (by omega), by omega,
        by omega⟩)

theorem toNat_or_shiftLeft {low high : UInt16} (hlow : low.toNat < 2 ^ k)
    (hk : k < 16) (hfits : high.toNat * 2 ^ k < 2 ^ 16) :
    (low ||| (high <<< UInt16.ofNat k)).toNat = low.toNat + 2 ^ k * high.toNat := by
  have hshift : (UInt16.ofNat k).toNat % 16 = k := by
    rw [UInt16.toNat_ofNat']
    omega
  rw [UInt16.toNat_or, UInt16.toNat_shiftLeft, hshift, Nat.shiftLeft_eq, Nat.mod_eq_of_lt hfits,
    Nat.mul_comm high.toNat, Nat.or_comm, ← Nat.two_pow_add_eq_or_of_lt hlow, Nat.add_comm]

theorem toNat_low_toUInt16 : (b &&& 0x7F).toUInt16.toNat = b.toNat % 2 ^ 7 := by
  rw [UInt8.toNat_toUInt16, toNat_and_low]

variable {byte : UInt8}

theorem toNat_result {result : UInt16} (hlow : result.toNat < 2 ^ k) (hk : k < 16)
    (hfits : byte.toNat % 2 ^ 7 * 2 ^ k < 2 ^ 16) :
    (result ||| ((byte &&& 0x7F).toUInt16 <<< UInt16.ofNat k)).toNat =
      result.toNat + 2 ^ k * (byte.toNat % 2 ^ 7) := by
  rw [← toNat_low_toUInt16] at hfits ⊢
  exact toNat_or_shiftLeft hlow hk hfits

theorem toNat_two_bytes {b₁ b₂ : UInt8} (h₂ : b₂.toNat < 2 ^ 7) :
    ((b₁ &&& 0x7F).toUInt16 ||| ((b₂ &&& 0x7F).toUInt16 <<< 7)).toNat =
      b₁.toNat % 2 ^ 7 + 2 ^ 7 * b₂.toNat := by
  have hlow := toNat_low_toUInt16 b₁
  have hresult := toNat_result (k := 7) (show (b₁ &&& 0x7F).toUInt16.toNat < 2 ^ 7 by omega)
    (by omega) (show b₂.toNat % 2 ^ 7 * 2 ^ 7 < 2 ^ 16 by omega)
  rw [hlow, Nat.mod_eq_of_lt h₂] at hresult
  exact hresult

/-! ## What the readers return -/

/-- A piece stands at the offset, and ends at the other one. -/
def Parsed (bytes : List UInt8) (offset : Nat) (piece : List UInt8) (offset' : Nat) : Prop :=
  At bytes offset piece ∧ offset' = offset + piece.length

variable {piece bytes piece' : List UInt8} {offset offset'' offset' : Nat} {layout : Layout α}

theorem Parsed.append
    (h : Parsed bytes offset piece offset') (h' : Parsed bytes offset' piece' offset'') :
    Parsed bytes offset (piece ++ piece') offset'' := by
  obtain ⟨hat, rfl⟩ := h
  obtain ⟨hat', rfl⟩ := h'
  refine ⟨at_append.mpr ⟨hat, hat'⟩, ?_⟩
  rw [length_append, Nat.add_assoc]

theorem Parsed.split (h : Parsed bytes offset (piece ++ piece') offset'') :
    Parsed bytes offset piece (offset + piece.length) ∧
      Parsed bytes (offset + piece.length) piece' offset'' := by
  obtain ⟨hat, rfl⟩ := h
  obtain ⟨hpiece, hpiece'⟩ := at_append.mp hat
  exact ⟨⟨hpiece, rfl⟩, hpiece', by rw [length_append, Nat.add_assoc]⟩

theorem Parsed.le (h : Parsed bytes offset piece offset') :
    offset' ≤ bytes.length :=
  h.2 ▸ h.1.le

theorem Parsed.whole (h : Parsed bytes 0 piece bytes.length) : piece = bytes :=
  h.1.whole (by rw [h.2, Nat.zero_add])

theorem Parsed.of_eq (h : piece = bytes) : Parsed bytes 0 piece bytes.length := by
  subst h
  exact ⟨⟨Nat.zero_le _, prefix_refl _⟩, (Nat.zero_add _).symm⟩

theorem at_singleton : At bytes offset [byte] ↔ bytes[offset]? = some byte := by
  rw [at_iff_take, length_singleton]
  constructor
  · rintro ⟨hle, htake⟩
    rw [List.drop_eq_getElem_cons (by omega), List.take_succ_cons, List.take_zero] at htake
    rw [getElem?_eq_getElem (by omega)]
    exact congrArg some (List.cons.inj htake).1
  · intro h
    obtain ⟨hlt, hbyte⟩ := List.getElem?_eq_some_iff.mp h
    rw [List.drop_eq_getElem_cons hlt, List.take_succ_cons, List.take_zero, hbyte]
    exact ⟨hlt, rfl⟩

theorem encodeAll_uint8 (items : List UInt8) : Layout.uint8.encodeAll items = items := by
  induction items with
  | nil => rfl
  | cons item items ih =>
    rw [Layout.encodeAll_cons, ih]
    show [UInt8.ofNat item.toNat] ++ items = item :: items
    rw [UInt8.ofNat_toNat]
    rfl

/-- A reader whose result says where it ends, before the rest of a parser. -/
theorem bind_parsed {β : Type} {encode : α → List UInt8} {x : Parse (α × Nat)}
    {f : α × Nat → Parse β} {b : β}
    (hx : ∀ {a next}, x = .ok (a, next) ↔ Parsed bytes offset (encode a) next) :
    (x >>= f) = .ok b ↔ ∃ a, Parsed bytes offset (encode a) (offset + (encode a).length) ∧
      f (a, offset + (encode a).length) = .ok b :=
  bind_next_eq_ok_iff (hx.trans ⟨fun h => ⟨⟨h.1, rfl⟩, h.2⟩, fun h => ⟨h.1.1, h.2⟩⟩)

section

variable {layout : Layout α} (hsize : bytes.length < 2 ^ 63)

include hsize

/-- Inside of the bytes nothing wraps. -/
theorem wrappingAdd_of_le (h : offset + n ≤ bytes.length + 2) :
    wrappingAdd offset n = offset + n := by
  rw [wrappingAdd]
  omega

theorem checkRemaining_eq_ok (hle : offset ≤ bytes.length) :
    checkRemaining bytes offset n = .ok () ↔ offset + n ≤ bytes.length := by
  have hsub : wrappingSub bytes.length offset = bytes.length - offset := by
    rw [wrappingSub]
    omega
  rw [checkRemaining, hsub, guard_eq_ok_iff, and_iff_left rfl]
  omega

theorem readByte_eq_ok :
    readByte bytes offset = .ok (byte, offset') ↔ Parsed bytes offset [byte] offset' := by
  rw [Parsed, at_singleton, readByte]
  cases hread : bytes[offset]? with
  | none => exact ⟨fun h => (nomatch h), fun h => (nomatch h.1)⟩
  | some b =>
    have hlt := (List.getElem?_eq_some_iff.mp hread).1
    dsimp only
    rw [wrappingAdd_of_le hsize (by omega), Except.ok.injEq, Prod.mk.injEq, Option.some.injEq]
    exact and_congr_right (fun _ => eq_comm)

theorem uncheckedReadByte_eq_ok :
    uncheckedReadByte bytes offset = .ok (byte, offset') ↔ Parsed bytes offset [byte] offset' := by
  rw [← readByte_eq_ok hsize, uncheckedReadByte, readByte]
  cases bytes[offset]? with
  | none => exact ⟨fun h => (nomatch h), fun h => (nomatch h)⟩
  | some b => exact Iff.rfl

/-- What the reader of two bytes returns stands there in its only form. -/
theorem shortVec_of_optimizedRead
    (h : optimizedReadCompressedU16 bytes offset = .ok (value, offset')) :
    value.toNat < 2 ^ 14 ∧ Parsed bytes offset (shortVec value.toNat) offset' := by
  unfold optimizedReadCompressedU16 at h
  cases hb₁ : bytes[offset]? with
  | none => rw [hb₁] at h; exact (nomatch h)
  | some b₁ =>
    have hlt₁ := (List.getElem?_eq_some_iff.mp hb₁).1
    rw [hb₁] at h
    dsimp only at h
    by_cases hhigh₁ : b₁ &&& 0x80 = 0
    · rw [if_pos hhigh₁] at h
      cases h
      have hsmall := (and_high_eq_zero b₁).mp hhigh₁
      rw [toNat_low_toUInt16, Nat.mod_eq_of_lt hsmall, shortVec_byte hsmall,
        wrappingAdd_of_le hsize (by omega)]
      exact ⟨by omega, at_singleton.mpr hb₁, rfl⟩
    · rw [if_neg hhigh₁, wrappingAdd_of_le hsize (by omega)] at h
      cases hb₂ : bytes[offset + 1]? with
      | none => rw [hb₂] at h; exact (nomatch h)
      | some b₂ =>
        have hlt₂ := (List.getElem?_eq_some_iff.mp hb₂).1
        rw [hb₂] at h
        obtain ⟨hguard, hvalue⟩ := guard_eq_ok_iff.mp h
        cases hvalue
        rw [not_or, not_not, and_high_eq_zero] at hguard
        rw [and_high_eq_zero, not_lt] at hhigh₁
        rw [toNat_two_bytes hguard.2, shortVec_two hhigh₁ hguard.1 hguard.2,
          wrappingAdd_of_le hsize (by omega)]
        refine ⟨by omega, ?_, rfl⟩
        rw [← singleton_append, at_append]
        exact ⟨at_singleton.mpr hb₁, at_singleton.mpr hb₂⟩

/-- The reader of two bytes takes every length that two bytes can say. -/
theorem optimizedRead_of_shortVec (hvalue : value.toNat < 2 ^ 14)
    (hparsed : Parsed bytes offset (shortVec value.toNat) offset') :
    optimizedReadCompressedU16 bytes offset = .ok (value, offset') := by
  unfold optimizedReadCompressedU16
  obtain ⟨b, hlow, hbyte⟩ | ⟨b₁, b₂, hhigh₁, hne, hlow₂, hbytes⟩ |
    ⟨b₁, b₂, b₃, -, -, hne, -, hbytes⟩ := exists_shortVec value.toNat_lt
  · rw [hbyte, shortVec_byte hlow] at hparsed
    obtain ⟨hat, rfl⟩ := hparsed
    have hle : offset + 1 ≤ bytes.length := hat.le
    rw [at_singleton.mp hat]
    dsimp only
    rw [if_pos ((and_high_eq_zero _).mpr hlow), wrappingAdd_of_le hsize (by omega),
      Except.ok.injEq, Prod.mk.injEq]
    refine ⟨UInt16.toNat_inj.mp ?_, rfl⟩
    rw [toNat_low_toUInt16, hbyte, Nat.mod_eq_of_lt hlow]
  · rw [hbytes, shortVec_two hhigh₁ hne hlow₂, ← singleton_append] at hparsed
    obtain ⟨⟨hat₁, -⟩, hat₂, rfl⟩ := hparsed.split
    have hle : offset + 1 + 1 ≤ bytes.length := hat₂.le
    have hsecond : bytes[offset + 1]? = some b₂ := at_singleton.mp hat₂
    rw [at_singleton.mp hat₁]
    dsimp only
    rw [if_neg (by rw [and_high_eq_zero]; omega), wrappingAdd_of_le hsize (by omega), hsecond]
    dsimp only
    rw [if_neg (by rw [not_or, not_not, and_high_eq_zero]; exact ⟨hne, hlow₂⟩),
      wrappingAdd_of_le hsize (by omega), Except.ok.injEq, Prod.mk.injEq]
    refine ⟨UInt16.toNat_inj.mp ?_, rfl⟩
    rw [toNat_two_bytes hlow₂, hbytes]
  · have hpos : b₃.toNat ≠ 0 := fun h => hne (UInt8.toNat_inj.mp h)
    omega

theorem optimizedReadCompressedU16_eq_ok :
    optimizedReadCompressedU16 bytes offset = .ok (value, offset') ↔
      value.toNat < 2 ^ 14 ∧ Parsed bytes offset (shortVec value.toNat) offset' := by
  constructor
  · exact shortVec_of_optimizedRead hsize
  · rintro ⟨hvalue, hparsed⟩
    exact optimizedRead_of_shortVec hsize hvalue hparsed

section

variable (hle : offset ≤ bytes.length)
include hle

theorem advanceOffsetForArray_eq_ok {n : UInt16} (hlayout : layout.size < 2 ^ 16) :
    advanceOffsetForArray layout bytes offset n = .ok offset' ↔
      ∃ items, items.length = n.toNat ∧
        Parsed bytes offset (layout.encodeAll items) offset' := by
  have hn : n.toNat < 2 ^ 16 := n.toNat_lt
  have hmul : wrappingMul n.toNat layout.size = n.toNat * layout.size :=
    Nat.mod_eq_of_lt (by nlinarith)
  rw [advanceOffsetForArray, hmul, check_bind_eq_ok_iff, checkRemaining_eq_ok hsize hle]
  constructor
  · rintro ⟨hroom, hoffset⟩
    obtain ⟨items, hitems⟩ := layout.exists_readArrayAt hroom
    obtain ⟨hlength, hat⟩ := layout.readArrayAt_eq_some.mp hitems
    refine ⟨items, hlength, hat, ?_⟩
    rw [layout.length_encodeAll, hlength, ← wrappingAdd_of_le hsize (by omega)]
    exact (Except.ok.inj hoffset).symm
  · rintro ⟨items, hlength, hparsed⟩
    have hroom := hparsed.le
    obtain ⟨-, rfl⟩ := hparsed
    rw [layout.length_encodeAll, hlength] at hroom ⊢
    refine ⟨hroom, ?_⟩
    rw [wrappingAdd_of_le hsize (by omega)]
    rfl

theorem advanceOffsetForType_eq_ok :
    advanceOffsetForType layout bytes offset = .ok offset' ↔
      ∃ a, Parsed bytes offset (layout.encode a) offset' := by
  rw [advanceOffsetForType, check_bind_eq_ok_iff, checkRemaining_eq_ok hsize hle]
  constructor
  · rintro ⟨hroom, hoffset⟩
    obtain ⟨a, ha⟩ := layout.exists_at hroom
    refine ⟨a, ha, ?_⟩
    rw [layout.length_encode, ← wrappingAdd_of_le hsize (by omega)]
    exact (Except.ok.inj hoffset).symm
  · rintro ⟨a, hparsed⟩
    have hroom := hparsed.le
    obtain ⟨-, rfl⟩ := hparsed
    rw [layout.length_encode] at hroom ⊢
    refine ⟨hroom, ?_⟩
    rw [wrappingAdd_of_le hsize (by omega)]
    rfl

end

end

theorem fromRawParts_eq_ok {items : List α} :
    fromRawParts layout bytes offset n = .ok items ↔
      items.length = n ∧ At bytes offset (layout.encodeAll items) := by
  rw [← layout.readArrayAt_eq_some, fromRawParts]
  cases layout.readArrayAt bytes offset n with
  | none => exact ⟨fun h => (nomatch h), fun h => (nomatch h)⟩
  | some items' => rw [Except.ok.injEq, Option.some.injEq]

theorem uncheckedCopyValue_eq_ok {a : α} :
    uncheckedCopyValue layout bytes offset = .ok a ↔ At bytes offset (layout.encode a) := by
  rw [← layout.readAt_eq_some, uncheckedCopyValue]
  cases layout.readAt bytes offset with
  | none => exact ⟨fun h => (nomatch h), fun h => (nomatch h)⟩
  | some a' => rw [Except.ok.injEq, Option.some.injEq]

/-! ## The two readers of lengths -/

/-- A third byte that passes the checks says a length of three bytes. -/
theorem two_pow_le_or_third {b : UInt8} (x : UInt16) (hne : b ≠ 0) (hmax : ¬ b > 3) :
    2 ^ 14 ≤ (x ||| ((b &&& 0x7F).toUInt16 <<< 14)).toNat := by
  have hpos : b.toNat ≠ 0 := fun h => hne (UInt8.toNat_inj.mp h)
  have hle : b.toNat ≤ 3 := not_lt.mp fun hlt => hmax (UInt8.lt_iff_toNat_lt.mpr hlt)
  have hgroup : ((b &&& 0x7F).toUInt16 <<< 14).toNat = b.toNat * 2 ^ 14 := by
    rw [UInt16.toNat_shiftLeft, toNat_low_toUInt16, Nat.shiftLeft_eq]
    show b.toNat % 2 ^ 7 * 2 ^ 14 % 2 ^ 16 = _
    omega
  have hor := Nat.right_le_or (n := x.toNat) (m := b.toNat * 2 ^ 14)
  rw [UInt16.toNat_or, hgroup]
  omega

/-- The optimized reader is the reader of three bytes, without the lengths that two bytes cannot
    say. -/
theorem optimizedRead_eq_read (hoffset : offset < 2 ^ 64) :
    optimizedReadCompressedU16 bytes offset = (do
      let read ← readCompressedU16 bytes offset
      if read.1.toNat < 2 ^ 14 then return read else .error (.error .parseError)) := by
  have hzero : wrappingAdd offset 0 = offset := Nat.mod_eq_of_lt hoffset
  have hadd : wrappingAdd (wrappingAdd offset 1) 1 = wrappingAdd offset 2 := by
    simp only [wrappingAdd]
    omega
  have hfirst (x : UInt16) : (0 : UInt16) ||| (x <<< 0) = x := by simp
  rw [optimizedReadCompressedU16, readCompressedU16, readCompressedLoop, hzero]
  cases bytes[offset]? with
  | none => rfl
  | some b₁ =>
    dsimp only
    rw [if_neg (show ¬ ((0 > 0 ∧ b₁ = 0) ∨ (0 = 2 ∧ b₁ > 3)) by simp), hfirst]
    by_cases hhigh₁ : b₁ &&& 0x80 = 0
    · have hone := toNat_low_toUInt16 b₁
      rw [if_pos hhigh₁, if_pos hhigh₁]
      exact (if_pos (show (b₁ &&& 0x7F).toUInt16.toNat < 2 ^ 14 by omega)).symm
    rw [if_neg hhigh₁, if_neg hhigh₁, readCompressedLoop]
    cases bytes[wrappingAdd offset 1]? with
    | none => rfl
    | some b₂ =>
      dsimp only
      by_cases hb₂ : b₂ = 0
      · rw [if_pos (.inl hb₂), if_pos (.inl ⟨Nat.one_pos, hb₂⟩)]
        rfl
      rw [if_neg (show ¬ ((0 + 1 > 0 ∧ b₂ = 0) ∨ (0 + 1 = 2 ∧ b₂ > 3)) by simp [hb₂]), hadd]
      by_cases hhigh₂ : b₂ &&& 0x80 = 0
      · have hlow₂ := (and_high_eq_zero b₂).mp hhigh₂
        have htwo := @toNat_two_bytes b₁ b₂ hlow₂
        rw [if_neg (by simp [hb₂, hhigh₂]), if_pos hhigh₂]
        exact (if_pos (htwo.trans_lt (by omega))).symm
      -- the optimized reader stops here, and a third byte says too much
      rw [if_pos (.inr hhigh₂), if_neg hhigh₂, readCompressedLoop]
      cases bytes[wrappingAdd offset 2]? with
      | none => rfl
      | some b₃ =>
        dsimp only
        by_cases hguard : (0 + 1 + 1 > 0 ∧ b₃ = 0) ∨ (0 + 1 + 1 = 2 ∧ b₃ > 3)
        · rw [if_pos hguard]
          rfl
        have hthird := two_pow_le_or_third
          ((b₁ &&& 0x7F).toUInt16 ||| ((b₂ &&& 0x7F).toUInt16 <<< 7))
          (fun h => hguard (.inl ⟨Nat.two_pos, h⟩)) (fun h => hguard (.inr ⟨rfl, h⟩))
        rw [if_neg hguard]
        split_ifs
        · exact (if_neg (not_lt.mpr hthird)).symm
        · exact (if_neg (not_lt.mpr hthird)).symm

/-- Three bytes that the plain reader takes and the optimized one does not. -/
theorem optimizedRead_eq_read_three :
    readCompressedU16 [0xFF, 0xFF, 0x03] 0 = .ok (65535, 3) ∧
      optimizedReadCompressedU16 [0xFF, 0xFF, 0x03] 0 = .error (.error .parseError) :=
  ⟨by decide, (optimizedRead_eq_read (by decide)).trans (by decide)⟩

end Agave.TxView
