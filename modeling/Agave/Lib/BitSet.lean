/-
  Agave.Lib.BitSet

  Sets of small numbers as the bits of a word.

  A word of width `w` is the set of the positions of its ones.  `below n` is
  the set of the numbers below `n`, `singleton i` the set of one number, and
  `theOnly?` returns the only member of a set that has exactly one.
-/

import Mathlib.Data.List.Nodup
import Mathlib.Data.Nat.Bitwise

namespace Agave.Lib.BitSet

variable {w : Nat}

/-- The flag of a position: `1 << i`. -/
def singleton (w i : Nat) : BitVec w := 1#w <<< i

/-- The set of the numbers below `n`: all ones for the full width, else
    `(1 << n).wrapping_sub(1)`. -/
def below (w n : Nat) : BitVec w := if n = w then BitVec.allOnes w else singleton w n - 1#w

def insert (s : BitVec w) (i : Nat) : BitVec w := s ||| singleton w i

def remove (s : BitVec w) (i : Nat) : BitVec w := s &&& ~~~ (singleton w i)

/-- `s & (1 << i) != 0`. -/
def contains (s : BitVec w) (i : Nat) : Bool := s &&& singleton w i != 0#w

/-- The members of the set in ascending order. -/
def members (s : BitVec w) : List Nat := (List.range w).filter s.getLsbD

def countOnes (s : BitVec w) : Nat := (members s).length

def trailingZeros (s : BitVec w) : Nat := (members s).headD w

/-- The only member of a set with one member. -/
def theOnly? (s : BitVec w) : Option Nat :=
  if countOnes s = 1 then some (trailingZeros s) else none

@[simp] theorem getLsbD_singleton (i j : Nat) :
    (singleton w i).getLsbD j = decide (j < w ∧ j = i) := by
  rw [show singleton w i = BitVec.twoPow w i from rfl, BitVec.getLsbD_twoPow]
  by_cases heq : j = i
  · simp [heq]
  · simp [heq, Ne.symm heq]

variable {s : BitVec w} {i j : Nat}

theorem contains_iff : contains s i = true ↔ s.getLsbD i = true := by
  rw [contains, bne_iff_ne, show s &&& singleton w i = _ from BitVec.and_twoPow s i]
  split
  · rename_i hbit
    refine iff_of_true (fun hzero => ?_) hbit
    have hflag := BitVec.toNat_twoPow_of_lt (BitVec.lt_of_getLsbD hbit)
    rw [hzero, BitVec.toNat_zero] at hflag
    exact (Nat.two_pow_pos i).ne hflag
  · rename_i hbit
    exact iff_of_false (fun hne => hne rfl) hbit

@[simp] theorem contains_singleton (i j : Nat) :
    contains (singleton w i) j = true ↔ j < w ∧ j = i := by
  rw [contains_iff, getLsbD_singleton, decide_eq_true_eq]

@[simp] theorem contains_zero (i : Nat) : contains (0#w) i = false := by
  rw [Bool.eq_false_iff, ne_eq, contains_iff, BitVec.getLsbD_zero]
  simp

theorem contains_below {n : Nat} (hn : n ≤ w) : contains (below w n) i = true ↔ i < n := by
  rw [contains_iff, below]
  split_ifs with heq
  · simp [heq]
  · have hlt : n < w := by omega
    have hflag : (singleton w n).toNat = 2 ^ n := BitVec.toNat_twoPow_of_lt hlt
    have hone : (1#w).toNat = 1 := by
      rw [BitVec.toNat_ofNat, Nat.one_mod_two_pow_eq_one.mpr (by omega)]
    have htoNat : (singleton w n - 1#w).toNat = 2 ^ n - 1 := by
      rw [BitVec.toNat_sub_of_le, hflag, hone]
      rw [BitVec.le_def, hflag, hone]
      exact Nat.two_pow_pos n
    rw [BitVec.getLsbD, htoNat, Nat.testBit_two_pow_sub_one, decide_eq_true_eq]

@[simp] theorem contains_and (s s' : BitVec w) (i : Nat) :
    contains (s &&& s') i = true ↔ contains s i = true ∧ contains s' i = true := by
  rw [contains_iff, contains_iff, contains_iff, BitVec.getLsbD_and, Bool.and_eq_true]

theorem contains_insert (hi : i < w) :
    contains (insert s i) j = true ↔ contains s j = true ∨ j = i := by
  rw [contains_iff, contains_iff, insert, BitVec.getLsbD_or, Bool.or_eq_true, getLsbD_singleton,
    decide_eq_true_eq]
  apply or_congr_right
  constructor
  · exact And.right
  · rintro rfl
    exact ⟨hi, rfl⟩

theorem contains_remove :
    contains (remove s i) j = true ↔ contains s j = true ∧ j ≠ i := by
  rw [contains_iff, contains_iff, remove, BitVec.getLsbD_and, BitVec.getLsbD_not, getLsbD_singleton]
  constructor
  · intro h
    rw [Bool.and_eq_true, Bool.and_eq_true] at h
    refine ⟨h.1, fun heq => ?_⟩
    simp [heq, heq ▸ (of_decide_eq_true h.2.1)] at h
  · rintro ⟨hbit, hne⟩
    have hlt := BitVec.lt_of_getLsbD hbit
    simp [hbit, hlt, hne]

theorem mem_members : i ∈ members s ↔ contains s i = true := by
  rw [members, List.mem_filter, List.mem_range, contains_iff]
  exact ⟨And.right, fun h => ⟨BitVec.lt_of_getLsbD h, h⟩⟩

theorem eq_zero_iff : s = 0#w ↔ ∀ i, contains s i = false := by
  constructor
  · rintro rfl i
    exact contains_zero i
  · intro h
    apply BitVec.eq_of_getLsbD_eq
    intro i _
    rw [BitVec.getLsbD_zero, Bool.eq_false_iff, ne_eq, ← contains_iff, h i]
    simp

theorem theOnly?_eq_some_iff : theOnly? s = some i ↔ ∀ j, contains s j = true ↔ j = i := by
  have hnodup : (members s).Nodup := List.nodup_range.filter _
  rw [theOnly?, countOnes, trailingZeros]
  constructor
  · intro h
    split_ifs at h with hone
    obtain ⟨a, ha⟩ := List.length_eq_one_iff.mp hone
    rw [ha, List.headD_cons, Option.some.injEq] at h
    intro j
    rw [← mem_members, ha, List.mem_singleton, h]
  · intro h
    have hmembers : members s = [i] := by
      apply List.perm_singleton.mp
      rw [List.perm_ext_iff_of_nodup hnodup (List.nodup_singleton i)]
      intro j
      rw [mem_members, h j, List.mem_singleton]
    rw [hmembers]
    simp

end Agave.Lib.BitSet
