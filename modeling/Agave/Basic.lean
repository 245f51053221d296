/-
  Agave.Basic

  Types every part of the validator shares.

  Slots, epochs and stakes are `u64` in the source; here they are natural
  numbers, and an operation that saturates or wraps says so where it does.
-/

import Mathlib.Algebra.Order.Ring.Nat
import Mathlib.Data.Fintype.Basic

namespace Agave

/-- A 32-byte address. -/
abbrev Pubkey := Fin (2 ^ 256)

/-- A 32-byte hash.  Hashes are compared bytewise, most significant byte first,
    which is the order of the numbers they spell. -/
abbrev Hash := Fin (2 ^ 256)

-- The widths of the fixed-size types, each with a name of its own.

instance neZero_pow_16 : NeZero (2 ^ 16) := inferInstance

instance neZero_pow_32 : NeZero (2 ^ 32) := inferInstance

instance neZero_pow_64 : NeZero (2 ^ 64) := inferInstance

instance neZero_pow_256 : NeZero (2 ^ 256) := inferInstance

instance neZero_pow_512 : NeZero (2 ^ 512) := inferInstance

instance Pubkey.lawfulBEq : LawfulBEq Pubkey := inferInstance

def Pubkey.ofNat (n : Nat) : Pubkey := Fin.ofNat _ n

def Hash.ofNat (n : Nat) : Hash := Fin.ofNat _ n

/-- `u64::MAX`. -/
def u64Max : Nat := 2 ^ 64 - 1

/-- `saturating_add`, of `u64` and of `usize`. -/
def saturatingAdd (a b : Nat) : Nat := min (a + b) u64Max

end Agave
