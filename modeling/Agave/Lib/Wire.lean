/-
  Agave.Lib.Wire

  Values laid out in bytes.

  `Layout` is an encoding in a fixed number of bytes that every string of that many bytes decodes
  under; numbers are little endian.  `At` says which bytes stand at an offset of a buffer.  It
  splits along an append, so that a parser that walks over a buffer proves one piece after the
  other, and a serialized buffer falls apart into the pieces that a parser looks for.
-/

import Mathlib.Data.List.Basic
import Mathlib.Tactic.Linarith
import Mathlib.Tactic.Ring

namespace Agave.Lib

/-! ## Little endian -/

/-- The lowest `width` bytes of a number, the lowest first. -/
def leBytes : Nat → Nat → List UInt8
  | 0, _ => []
  | width + 1, value => UInt8.ofNat value :: leBytes width (value / 256)

/-- The number that bytes spell, the lowest first. -/
def leValue : List UInt8 → Nat
  | [] => 0
  | byte :: bytes => byte.toNat + 256 * leValue bytes

@[simp] theorem length_leBytes (width value : Nat) : (leBytes width value).length = width := by
  induction width generalizing value with
  | zero => rfl
  | succ width ih => rw [leBytes, List.length_cons, ih]

theorem leValue_lt (bytes : List UInt8) : leValue bytes < 256 ^ bytes.length := by
  induction bytes with
  | nil => exact Nat.one_pos
  | cons byte bytes ih =>
    have hbyte : byte.toNat < 256 := byte.toNat_lt
    rw [leValue, List.length_cons, pow_succ]
    omega

theorem leValue_leBytes {width value : Nat} (h : value < 256 ^ width) :
    leValue (leBytes width value) = value := by
  induction width generalizing value with
  | zero => exact (Nat.lt_one_iff.mp h).symm
  | succ width ih =>
    have hrest : value / 256 < 256 ^ width := by
      rw [Nat.div_lt_iff_lt_mul (by norm_num)]
      exact h
    rw [leBytes, leValue, ih hrest, UInt8.toNat_ofNat']
    omega

theorem leBytes_leValue (bytes : List UInt8) : leBytes bytes.length (leValue bytes) = bytes := by
  induction bytes with
  | nil => rfl
  | cons byte bytes ih =>
    have hbyte : byte.toNat < 256 := byte.toNat_lt
    have hhigh : (byte.toNat + 256 * leValue bytes) / 256 = leValue bytes := by omega
    have hlow : UInt8.ofNat (byte.toNat + 256 * leValue bytes) = byte := by
      apply UInt8.toNat.inj
      rw [UInt8.toNat_ofNat']
      omega
    rw [List.length_cons, leBytes, leValue, hhigh, hlow, ih]

/-! ## Pieces of a buffer -/

/-- `piece` stands at `offset` of the bytes. -/
def At (bytes : List UInt8) (offset : Nat) (piece : List UInt8) : Prop :=
  offset ≤ bytes.length ∧ piece <+: bytes.drop offset

section

open List

variable {bytes piece piece' : List UInt8} {offset n : Nat}

theorem at_nil : At bytes offset [] ↔ offset ≤ bytes.length := by
  rw [At, and_iff_left nil_prefix]

theorem At.le (h : At bytes offset piece) : offset + piece.length ≤ bytes.length := by
  have hlength := h.2.length_le
  rw [length_drop] at hlength
  have hoffset := h.1
  omega

theorem at_iff_take : At bytes offset piece ↔
    offset + piece.length ≤ bytes.length ∧ (bytes.drop offset).take piece.length = piece := by
  constructor
  · intro h
    exact ⟨h.le, (prefix_iff_eq_take.mp h.2).symm⟩
  · rintro ⟨hle, htake⟩
    exact ⟨by omega, prefix_iff_eq_take.mpr htake.symm⟩

theorem At.eq (h : At bytes offset piece) (h' : At bytes offset piece')
    (hlength : piece.length = piece'.length) : piece = piece' := by
  rw [← (at_iff_take.mp h).2, ← (at_iff_take.mp h').2, hlength]

theorem exists_at (h : offset + n ≤ bytes.length) :
    ∃ piece, piece.length = n ∧ At bytes offset piece := by
  have hlength : ((bytes.drop offset).take n).length = n := by
    rw [length_take, length_drop]
    omega
  refine ⟨(bytes.drop offset).take n, hlength, at_iff_take.mpr ?_⟩
  rw [hlength]
  exact ⟨h, rfl⟩

theorem at_append : At bytes offset (piece ++ piece') ↔
    At bytes offset piece ∧ At bytes (offset + piece.length) piece' := by
  constructor
  · intro h
    have hle := h.le
    rw [length_append] at hle
    obtain ⟨rest, hrest⟩ := h.2
    refine ⟨⟨h.1, ?_⟩, by omega, ?_⟩
    · exact ⟨piece' ++ rest, by rw [← hrest, append_assoc]⟩
    · exact ⟨rest, by rw [← drop_drop, ← hrest, append_assoc, drop_left]⟩
  · rintro ⟨⟨hle, rest, hrest⟩, -, hpiece'⟩
    refine ⟨hle, ?_⟩
    rw [← drop_drop, ← hrest, drop_left] at hpiece'
    rw [← hrest]
    exact (prefix_append_right_inj piece).mpr hpiece'

/-- A buffer starts with what it was put together from. -/
theorem at_zero_append (piece rest : List UInt8) : At (piece ++ rest) 0 piece :=
  ⟨Nat.zero_le _, prefix_append piece rest⟩

theorem At.whole (h : At bytes 0 piece) (hlength : piece.length = bytes.length) :
    piece = bytes := by
  have htake := (at_iff_take.mp h).2
  rw [hlength, drop_zero, take_length] at htake
  exact htake.symm

theorem at_drop (hle : offset ≤ bytes.length) :
    At (bytes.drop offset) n piece ↔ At bytes (offset + n) piece := by
  rw [At, At, length_drop, drop_drop]
  refine and_congr ?_ Iff.rfl
  omega

end

/-! ## Layouts -/

/-- An encoding in a fixed number of bytes, under which all of them decode. -/
structure Layout (α : Type) where
  size : Nat
  encode : α → List UInt8
  decode : List UInt8 → α
  length_encode : ∀ a, (encode a).length = size
  decode_encode : ∀ a, decode (encode a) = a
  encode_decode : ∀ bytes, bytes.length = size → encode (decode bytes) = bytes

namespace Layout

/-- A type of numbers below `256 ^ width`. -/
def number {α : Type} (width : Nat) (toNat : α → Nat) (ofNat : Nat → α)
    (toNat_lt : ∀ a, toNat a < 256 ^ width) (ofNat_toNat : ∀ a, ofNat (toNat a) = a)
    (toNat_ofNat : ∀ n, n < 256 ^ width → toNat (ofNat n) = n) : Layout α where
  size := width
  encode a := leBytes width (toNat a)
  decode bytes := ofNat (leValue bytes)
  length_encode a := length_leBytes width (toNat a)
  decode_encode a := by rw [leValue_leBytes (toNat_lt a), ofNat_toNat]
  encode_decode bytes hlength := by
    subst hlength
    rw [toNat_ofNat _ (leValue_lt bytes), leBytes_leValue]

def uint8 : Layout UInt8 :=
  number 1 UInt8.toNat UInt8.ofNat (fun a => a.toNat_lt) (fun _ => UInt8.ofNat_toNat)
    (fun _ h => UInt8.toNat_ofNat_of_lt' h)

theorem encode_uint8 (byte : UInt8) : uint8.encode byte = [byte] := by
  show [UInt8.ofNat byte.toNat] = [byte]
  rw [UInt8.ofNat_toNat]

/-- Numbers of a whole number of bytes. -/
def fin (width bits : Nat) (hbits : bits = 8 * width) : Layout (Fin (2 ^ bits)) :=
  have hbound : 2 ^ bits = 256 ^ width := by rw [hbits, pow_mul]; rfl
  number width Fin.val (Fin.ofNat (2 ^ bits)) (fun a => hbound ▸ a.isLt) Fin.ofNat_val_eq_self
    (fun _ h => Nat.mod_eq_of_lt (hbound ▸ h))

/-- The bytes in the other order. -/
def reverse {α : Type} (layout : Layout α) : Layout α where
  size := layout.size
  encode a := (layout.encode a).reverse
  decode bytes := layout.decode bytes.reverse
  length_encode a := by rw [List.length_reverse, layout.length_encode]
  decode_encode a := by rw [List.reverse_reverse, layout.decode_encode]
  encode_decode bytes hlength := by
    rw [layout.encode_decode _ (by rw [List.length_reverse, hlength]), List.reverse_reverse]

/-- An array of bytes. -/
def byteArray (size : Nat) : Layout (Vector UInt8 size) where
  size := size
  encode := Vector.toList
  decode bytes := Vector.ofFn (fun i => bytes.getD i 0)
  length_encode _ := Vector.length_toList
  decode_encode a := by
    ext i hi
    simp
  encode_decode bytes hlength := by
    subst hlength
    apply List.ext_getElem
    · simp
    · intro i hi hi'
      simp

open List

/-- One after the other. -/
def pair {α β : Type} (first : Layout α) (second : Layout β) : Layout (α × β) where
  size := first.size + second.size
  encode a := first.encode a.1 ++ second.encode a.2
  decode bytes := (first.decode (bytes.take first.size), second.decode (bytes.drop first.size))
  length_encode a := by rw [List.length_append, first.length_encode, second.length_encode]
  decode_encode a := by
    rw [List.take_left' (first.length_encode _), List.drop_left' (first.length_encode _),
      first.decode_encode, second.decode_encode]
  encode_decode bytes hlength := by
    rw [first.encode_decode _ (by rw [List.length_take]; omega),
      second.encode_decode _ (by rw [List.length_drop]; omega), List.take_append_drop]

/-- The same bytes for a type that is the same up to names. -/
def congr {α β : Type} (layout : Layout α) (e : α ≃ β) : Layout β where
  size := layout.size
  encode b := layout.encode (e.symm b)
  decode bytes := e (layout.decode bytes)
  length_encode b := layout.length_encode _
  decode_encode b := by rw [layout.decode_encode, e.apply_symm_apply]
  encode_decode bytes hlength := by rw [e.symm_apply_apply, layout.encode_decode _ hlength]

section

variable {α : Type} (layout : Layout α) {bytes : List UInt8} {offset n : Nat} {items : List α}

/-- What a read at an offset gives; none, if it leaves the buffer. -/
def readAt (bytes : List UInt8) (offset : Nat) : Option α :=
  if offset + layout.size ≤ bytes.length then
    some (layout.decode ((bytes.drop offset).take layout.size))
  else none

theorem readAt_eq_some {a : α} :
    layout.readAt bytes offset = some a ↔ At bytes offset (layout.encode a) := by
  rw [readAt, at_iff_take, layout.length_encode]
  have hlength : offset + layout.size ≤ bytes.length →
      ((bytes.drop offset).take layout.size).length = layout.size := by
    intro hle
    rw [length_take, length_drop]
    omega
  constructor
  · intro h
    obtain ⟨hle, hdecode⟩ := Option.ite_none_right_eq_some.mp h
    rw [← Option.some.inj hdecode, layout.encode_decode _ (hlength hle)]
    exact ⟨hle, rfl⟩
  · rintro ⟨hle, htake⟩
    rw [if_pos hle, htake, layout.decode_encode]

theorem exists_readAt (h : offset + layout.size ≤ bytes.length) :
    ∃ a, layout.readAt bytes offset = some a :=
  ⟨_, if_pos h⟩

theorem exists_at (h : offset + layout.size ≤ bytes.length) :
    ∃ a, At bytes offset (layout.encode a) :=
  (layout.exists_readAt h).imp fun _ => layout.readAt_eq_some.mp

/-- Items after each other. -/
def encodeAll (items : List α) : List UInt8 := items.flatMap layout.encode

@[simp] theorem encodeAll_cons (a : α) (items : List α) :
    layout.encodeAll (a :: items) = layout.encode a ++ layout.encodeAll items := rfl

@[simp] theorem length_encodeAll (items : List α) :
    (layout.encodeAll items).length = items.length * layout.size := by
  induction items with
  | nil => rw [List.length_nil, Nat.zero_mul]; rfl
  | cons a items ih =>
    rw [encodeAll_cons, List.length_append, ih, layout.length_encode, List.length_cons,
      Nat.add_mul, Nat.one_mul, Nat.add_comm]

theorem at_getElem (h : At bytes offset (layout.encodeAll items)) {i : Nat}
    (hi : i < items.length) : At bytes (offset + i * layout.size) (layout.encode items[i]) := by
  induction items generalizing offset i with
  | nil => exact absurd hi (Nat.not_lt_zero _)
  | cons item items ih =>
    rw [encodeAll_cons, at_append, layout.length_encode] at h
    cases i with
    | zero =>
      rw [Nat.zero_mul]
      exact h.1
    | succ i =>
      rw [Nat.add_mul, Nat.one_mul, Nat.add_comm (i * layout.size), ← Nat.add_assoc]
      exact ih h.2 (Nat.lt_of_succ_lt_succ hi)

/-- What a read of some items gives; none, if it leaves the buffer. -/
def readArrayAt (bytes : List UInt8) : Nat → Nat → Option (List α)
  | offset, 0 => if offset ≤ bytes.length then some [] else none
  | offset, n + 1 => do
    let item ← layout.readAt bytes offset
    let items ← readArrayAt bytes (offset + layout.size) n
    return item :: items

theorem readArrayAt_eq_some :
    layout.readArrayAt bytes offset n = some items ↔
      items.length = n ∧ At bytes offset (layout.encodeAll items) := by
  induction n generalizing offset items with
  | zero =>
    rw [readArrayAt, Option.ite_none_right_eq_some, length_eq_zero_iff]
    constructor
    · rintro ⟨hle, hnil⟩
      cases hnil
      exact ⟨rfl, at_nil.mpr hle⟩
    · rintro ⟨rfl, hat⟩
      exact ⟨at_nil.mp hat, rfl⟩
  | succ n ih =>
    rw [readArrayAt]
    simp only [Option.bind_eq_bind, Option.bind_eq_some_iff, Option.pure_def, Option.some.injEq]
    constructor
    · rintro ⟨item, hitem, rest, hrest, rfl⟩
      obtain ⟨hlength, hat⟩ := ih.mp hrest
      refine ⟨by rw [length_cons, hlength], ?_⟩
      rw [encodeAll_cons, at_append, layout.length_encode]
      exact ⟨layout.readAt_eq_some.mp hitem, hat⟩
    · rintro ⟨hlength, hat⟩
      obtain ⟨item, rest, rfl⟩ := exists_cons_of_length_eq_add_one hlength
      rw [encodeAll_cons, at_append, layout.length_encode] at hat
      refine ⟨item, layout.readAt_eq_some.mpr hat.1, rest, ih.mpr ⟨?_, hat.2⟩, rfl⟩
      exact Nat.add_right_cancel hlength

theorem exists_readArrayAt (h : offset + n * layout.size ≤ bytes.length) :
    ∃ items, layout.readArrayAt bytes offset n = some items := by
  induction n generalizing offset with
  | zero => exact ⟨[], if_pos (by omega)⟩
  | succ n ih =>
    rw [Nat.add_mul, Nat.one_mul] at h
    have hread : ∃ item, layout.readAt bytes offset = some item :=
      layout.exists_readAt (by omega)
    have hrest : ∃ items, layout.readArrayAt bytes (offset + layout.size) n = some items :=
      ih (by omega)
    obtain ⟨item, hitem⟩ := hread
    obtain ⟨items, hitems⟩ := hrest
    exact ⟨item :: items, by rw [readArrayAt, hitem, hitems]; rfl⟩

end

end Layout

end Agave.Lib
