/-
  Agave.Layouts

  The types every part of the validator shares, in bytes.

  Where the bytes of a number matter it is a `Fin`, of as many bits as the source gives it.
-/

import Agave.Basic
import Agave.Lib.Wire

namespace Agave

open Lib

abbrev U16 := Fin (2 ^ 16)

abbrev U32 := Fin (2 ^ 32)

abbrev U64 := Fin (2 ^ 64)

/-- A 64-byte signature. -/
abbrev Signature := Fin (2 ^ 512)

namespace Layouts

def u16 : Layout U16 := .fin 2 _ rfl

def u32 : Layout U32 := .fin 4 _ rfl

def u64 : Layout U64 := .fin 8 _ rfl

/-- The two's complement. -/
def i64 : Layout Int64 :=
  .number 8 (fun a => a.toUInt64.toNat) (fun n => ⟨UInt64.ofNat n⟩) (fun a => a.toUInt64.toNat_lt)
    (fun _ => congrArg Int64.ofUInt64 UInt64.ofNat_toNat)
    (fun _ h => UInt64.toNat_ofNat_of_lt' h)

/-- The first byte is the most significant, so that addresses are ordered as their bytes are. -/
def pubkey : Layout Pubkey := (Layout.fin 32 _ rfl).reverse

def hash : Layout Hash := (Layout.fin 32 _ rfl).reverse

def signature : Layout Signature := (Layout.fin 64 512 rfl).reverse

end Layouts

end Agave
