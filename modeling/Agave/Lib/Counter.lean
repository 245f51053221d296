/-
  Agave.Lib.Counter

  Counting with a map: an entry per key that occurs, holding how often.

  `Counts m f` says that the map `m` stores `f`: a key with `f key = 0` has no entry.  `increment`
  is `*entry(k).or_default() += 1` on a counter that wraps at `size`, and `decrement` takes one off
  and drops the entry that reaches zero; it stops on a key without an entry and on an entry that is
  zero already.
-/

import Agave.Lib.BTreeMap

namespace Agave.Lib

variable {κ : Type _} [LinearOrder κ]

/-- Why a counter cannot be decremented. -/
inductive CounterPanic where
  /-- The key has no entry. -/
  | missingKey
  /-- The count is zero. -/
  | underflow
deriving DecidableEq

namespace Counter

/-- `*entry(k).or_default() += 1`, on a counter with `size` values. -/
def increment (size : Nat) (m : BTreeMap κ Nat) (k : κ) : BTreeMap κ Nat :=
  (m.insert k (((m.get? k).getD 0 + 1) % size)).2

/-- Taking one off, and dropping the entry when nothing is left. -/
def decrement (m : BTreeMap κ Nat) (k : κ) : Except CounterPanic (BTreeMap κ Nat) :=
  match m.get? k with
  | none => .error .missingKey
  | some count =>
    if count = 0 then .error .underflow
    else if count - 1 = 0 then .ok (m.remove k).2
    else .ok (m.insert k (count - 1)).2

/-- The map stores the count of every key, without entries for zero. -/
def Counts (m : BTreeMap κ Nat) (f : κ → Nat) : Prop :=
  ∀ k, m.get? k = if f k = 0 then none else some (f k)

variable {m : BTreeMap κ Nat} {f : κ → Nat} {k : κ}

theorem counts_empty : Counts (.empty : BTreeMap κ Nat) (fun _ => 0) := by
  intro k
  rfl

section

variable (h : Counts m f) {g : κ → Nat}
include h

theorem Counts.congr (hfg : ∀ k, f k = g k) : Counts m g := by
  intro k
  rw [← hfg k]
  exact h k

theorem Counts.getD (k : κ) : (m.get? k).getD 0 = f k := by
  rw [h k]
  split_ifs with hk
  · exact hk.symm
  · rfl

/-- The test `get(k).is_some_and(|count| *count > 0)`. -/
theorem Counts.any_eq_false_iff :
    ((m.get? k).map (fun count => decide (0 < count))).getD false = false ↔ f k = 0 := by
  rw [h k]
  split_ifs with hk
  · simp [hk]
  · simp [hk, Nat.pos_of_ne_zero hk]

theorem Counts.increment {size : Nat} (hsize : f k + 1 < size) :
    Counts (increment size m k) (fun k' => f k' + if k' = k then 1 else 0) := by
  intro k'
  rw [Counter.increment, BTreeMap.get?_insert, h.getD k, Nat.mod_eq_of_lt hsize]
  beta_reduce
  by_cases hk : k' = k
  · rw [if_pos hk, if_pos hk, hk, if_neg (Nat.succ_ne_zero _)]
  · rw [if_neg hk, if_neg hk, Nat.add_zero]
    exact h k'

theorem Counts.decrement (hf : ∀ k', f k' = g k' + if k' = k then 1 else 0) :
    Succeeds (fun m' => Counts m' g) (decrement m k) := by
  have hk : f k = g k + 1 := by rw [hf k, if_pos rfl]
  have hget : m.get? k = some (g k + 1) := by
    rw [h k, hk, if_neg (Nat.succ_ne_zero _)]
  have hother : ∀ k', k' ≠ k → m.get? k' = if g k' = 0 then none else some (g k') := by
    intro k' hne
    rw [h k', hf k', if_neg hne, Nat.add_zero]
  rw [Counter.decrement, hget]
  simp only [if_neg (Nat.succ_ne_zero (g k)), Nat.add_sub_cancel]
  by_cases hzero : g k = 0
  · rw [if_pos hzero]
    intro k'
    rw [BTreeMap.get?_remove]
    by_cases hk' : k' = k
    · rw [if_pos hk', hk', if_pos hzero]
    · rw [if_neg hk', hother k' hk']
  · rw [if_neg hzero]
    intro k'
    rw [BTreeMap.get?_insert]
    by_cases hk' : k' = k
    · rw [if_pos hk', hk', if_neg hzero]
    · rw [if_neg hk', hother k' hk']

theorem Counts.isEmpty (hf : ∀ k, f k = 0) : m.isEmpty = true := by
  rw [BTreeMap.isEmpty, List.isEmpty_iff]
  apply List.eq_nil_iff_forall_not_mem.mpr
  rintro ⟨k, count⟩ hmem
  have hget := h k
  rw [hf k, if_pos rfl, BTreeMap.get?_eq_some_iff.mpr hmem] at hget
  cases hget

end

end Counter

end Agave.Lib

