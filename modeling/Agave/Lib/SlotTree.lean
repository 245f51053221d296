/-
  Agave.Lib.SlotTree

  Trees of slots, given by the parent of each slot, which is a smaller slot.

  `Le a b` says that `a` is `b` or one of its ancestors.  It is decided by walking up from `b`.  The
  ancestors of one slot are ordered as their numbers are (`Le.of_le`), which is what lets a
  comparison of numbers stand for a question to the tree.
-/

import Mathlib.Logic.Relation

namespace Agave.Lib

/-- A tree of slots, or several. -/
structure SlotTree where
  parent : Nat → Option Nat
  parent_lt : ∀ {slot p}, parent slot = some p → p < slot

namespace SlotTree

variable (tree : SlotTree)

/-- `a` is `b` or an ancestor of `b`. -/
def Le : Nat → Nat → Prop := Relation.ReflTransGen (fun p slot => tree.parent slot = some p)

/-- The walk up from `b`. -/
def reaches (a : Nat) : Nat → Nat → Bool
  | 0, b => a == b
  | fuel + 1, b =>
    a == b || match tree.parent b with
      | none => false
      | some p => reaches a fuel p

variable {tree} {a b c : Nat}

theorem Le.refl (a : Nat) : tree.Le a a := Relation.ReflTransGen.refl

theorem Le.trans (hab : tree.Le a b) (hbc : tree.Le b c) : tree.Le a c :=
  Relation.ReflTransGen.trans hab hbc

theorem le_iff : tree.Le a b ↔ a = b ∨ ∃ p, tree.parent b = some p ∧ tree.Le a p := by
  refine ⟨fun h => ?_, ?_⟩
  · cases h with
    | refl => exact .inl rfl
    | tail hap hparent => exact .inr ⟨_, hparent, hap⟩
  · rintro (rfl | ⟨p, hparent, hap⟩)
    · exact .refl a
    · exact hap.tail hparent

theorem Le.le (h : tree.Le a b) : a ≤ b := by
  induction h with
  | refl => exact Nat.le_refl a
  | tail _ hparent ih => exact Nat.le_trans ih (Nat.le_of_lt (tree.parent_lt hparent))

theorem reaches_iff {fuel : Nat} (hfuel : b ≤ fuel) : tree.reaches a fuel b = true ↔ tree.Le a b := by
  induction fuel generalizing b with
  | zero =>
    obtain rfl : b = 0 := Nat.le_zero.mp hfuel
    rw [reaches, beq_iff_eq, le_iff]
    refine ⟨.inl, ?_⟩
    rintro (rfl | ⟨p, hparent, -⟩)
    · rfl
    · exact absurd (tree.parent_lt hparent) (Nat.not_lt_zero p)
  | succ fuel ih =>
    rw [reaches, Bool.or_eq_true, beq_iff_eq, le_iff]
    cases hparent : tree.parent b with
    | none => simp
    | some p =>
      have hp : p ≤ fuel := Nat.le_of_lt_succ (Nat.lt_of_lt_of_le (tree.parent_lt hparent) hfuel)
      simp [ih hp]

instance (a b : Nat) : Decidable (tree.Le a b) :=
  decidable_of_iff (tree.reaches a b b = true) (reaches_iff (Nat.le_refl b))

/-- Two ancestors of one slot are ordered by their numbers. -/
theorem Le.of_le (hac : tree.Le a c) (hbc : tree.Le b c) (hab : a ≤ b) : tree.Le a b := by
  induction hbc with
  | refl => exact hac
  | @tail p c hbp hparent ih =>
    rcases le_iff.mp hac with rfl | ⟨p', hparent', hap⟩
    · -- `a` is the slot itself, and `b` is below its parent
      have hlt : b < a := Nat.lt_of_le_of_lt (Le.le hbp) (tree.parent_lt hparent)
      exact absurd hab (Nat.not_le.mpr hlt)
    · rw [hparent] at hparent'
      obtain rfl := Option.some.inj hparent'
      exact ih hap

end SlotTree

end Agave.Lib
