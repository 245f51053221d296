/-
  Agave.Lib.RowIndex

  Secondary indices of a table, and what keeps them exact.

  The rows of a table are a partial function from positions.  An index is exact when it can be read
  off the rows: `KeyIndex` for a map from a row's key to its position, `PositionSet` for the set of
  positions of some rows.  Every write to the table is made of two: a row is erased from its
  position, or put at a free one.
-/

import Agave.Lib.BTreeMap
import Agave.Lib.IndexMap

namespace Agave.Lib

open Function

variable {ρ κ : Type _}

/-- A set of positions, in the order of an index map. -/
abbrev IndexSet (α : Type _) := IndexMap α Unit

/-- No two rows have the same key. -/
def DistinctKeys (key : ρ → κ) (rows : Nat → Option ρ) : Prop :=
  ∀ ⦃i j r r'⦄, rows i = some r → rows j = some r' → key r = key r' → i = j

/-- `m` maps the keys of the rows in `p` to their positions, and nothing else. -/
def KeyIndex [LinearOrder κ] (key : ρ → κ) (p : ρ → Bool) (m : BTreeMap κ Nat)
    (rows : Nat → Option ρ) : Prop :=
  ∀ k i, m.get? k = some i ↔ ∃ r, rows i = some r ∧ p r = true ∧ key r = k

/-- `s` is the set of positions of the rows in `p`. -/
def PositionSet (p : ρ → Bool) (s : IndexSet Nat) (rows : Nat → Option ρ) : Prop :=
  ∀ i, s.get? i = some () ↔ ∃ r, rows i = some r ∧ p r = true

section

variable {key : ρ → κ} {p : ρ → Bool} {s : IndexSet Nat} {rows : Nat → Option ρ} {i j : Nat}
  {r r' : ρ}

/-! ## Rows -/

theorem update_none_eq_some :
    update rows i none j = some r' ↔ j ≠ i ∧ rows j = some r' := by
  rw [update_apply]
  split
  · rename_i hij
    exact iff_of_false (Option.some_ne_none _).symm (fun h => h.1 hij)
  · rename_i hij
    exact ⟨fun h => ⟨hij, h⟩, fun h => h.2⟩

theorem update_some_eq_some :
    update rows i (some r) j = some r' ↔ j = i ∧ r = r' ∨ j ≠ i ∧ rows j = some r' := by
  rw [update_apply]
  split
  · rename_i hij
    rw [Option.some_inj]
    exact ⟨fun h => .inl ⟨hij, h⟩, fun h => h.elim (fun h => h.2) (fun h => absurd hij h.1)⟩
  · rename_i hij
    exact ⟨fun h => .inr ⟨hij, h⟩, fun h => h.elim (fun h => absurd h.1 hij) (fun h => h.2)⟩

/-- A write that changes nothing for `Q` at its own position changes nothing for `Q`. -/
theorem exists_update_iff {Q : ρ → Prop} {o : Option ρ}
    (h : (∃ r, rows i = some r ∧ Q r) ↔ ∃ r, o = some r ∧ Q r) :
    (∃ r, rows j = some r ∧ Q r) ↔ ∃ r, update rows i o j = some r ∧ Q r := by
  by_cases hj : j = i
  · subst hj
    rwa [update_self]
  · rw [update_of_ne hj]

theorem DistinctKeys.erase (h : DistinctKeys key rows) (i : Nat) :
    DistinctKeys key (update rows i none) := by
  intro a b r r' ha hb hkey
  exact h (update_none_eq_some.mp ha).2 (update_none_eq_some.mp hb).2 hkey

theorem DistinctKeys.put (h : DistinctKeys key rows)
    (hnew : ∀ j r', rows j = some r' → key r' ≠ key r) :
    DistinctKeys key (update rows i (some r)) := by
  intro a b ra rb ha hb hkey
  rw [update_some_eq_some] at ha hb
  rcases ha with ⟨ha, rfl⟩ | ⟨-, ha⟩
  · rcases hb with ⟨hb, rfl⟩ | ⟨-, hb⟩
    · rw [ha, hb]
    · exact absurd hkey.symm (hnew b rb hb)
  · rcases hb with ⟨-, rfl⟩ | ⟨-, hb⟩
    · exact absurd hkey (hnew a ra ha)
    · exact h ha hb hkey

/-! ## Maps from keys -/

section

variable [LinearOrder κ] {m : BTreeMap κ Nat}

theorem KeyIndex.empty : KeyIndex key p .empty fun _ => none := by
  intro k i
  refine iff_of_false (Option.some_ne_none _).symm ?_
  rintro ⟨r, hr, -⟩
  cases hr

section

variable (h : KeyIndex key p m rows)
include h

theorem KeyIndex.erase (hd : DistinctKeys key rows) (hi : rows i = some r) :
    KeyIndex key p (if p r then (m.remove (key r)).2 else m) (update rows i none) := by
  intro k a
  split
  · rename_i hp
    rw [BTreeMap.get?_remove]
    split
    · rename_i hk
      -- the only row with this key is the erased one
      refine iff_of_false (Option.some_ne_none _).symm ?_
      rintro ⟨r', hr', -, hkey⟩
      obtain ⟨hne, hr'⟩ := update_none_eq_some.mp hr'
      exact hne (hd hr' hi (hkey.trans hk))
    · rename_i hk
      exact (h k a).trans (exists_update_iff (by simp [hi, Ne.symm hk]))
  · rename_i hp
    exact (h k a).trans (exists_update_iff (by simp [hi, hp]))

theorem KeyIndex.put (hfree : rows i = none) (hnew : ∀ j r', rows j = some r' → key r' ≠ key r) :
    KeyIndex key p (if p r then (m.insert (key r) i).2 else m) (update rows i (some r)) := by
  intro k a
  split
  · rename_i hp
    rw [BTreeMap.get?_insert]
    split
    · rename_i hk
      subst hk
      simp only [update_some_eq_some]
      rw [Option.some_inj]
      constructor
      · rintro rfl
        exact ⟨r, .inl ⟨rfl, rfl⟩, hp, rfl⟩
      · rintro ⟨r', ⟨rfl, -⟩ | ⟨-, hr'⟩, -, hkey⟩
        · rfl
        · exact absurd hkey (hnew a r' hr')
    · rename_i hk
      exact (h k a).trans (exists_update_iff (by simp [hfree, Ne.symm hk]))
  · rename_i hp
    exact (h k a).trans (exists_update_iff (by simp [hfree, hp]))

/-- A row that moves is looked up under the same key: writing its new position is enough. -/
theorem KeyIndex.move (hd : DistinctKeys key rows) (hj : rows j = some r) (hfree : rows i = none) :
    KeyIndex key p (if p r then (m.insert (key r) i).2 else m)
      (update (update rows j none) i (some r)) := by
  have herased := h.erase hd hj
  have hnew : ∀ a r', update rows j none a = some r' → key r' ≠ key r := by
    intro a r' ha hkey
    obtain ⟨hne, ha⟩ := update_none_eq_some.mp ha
    exact hne (hd ha hj hkey)
  have hfree' : update rows j none i = none := by
    rw [update_apply]
    split
    · rfl
    · exact hfree
  have hput := herased.put hfree' hnew
  by_cases hp : p r = true
  · rw [if_pos hp] at hput
    rw [if_pos hp]
    intro k a
    rw [← hput k a, if_pos hp]
    -- removing the key first makes no difference to what is written under it
    simp only [BTreeMap.get?_insert, BTreeMap.get?_remove]
    split <;> rfl
  · rw [if_neg hp] at hput
    rwa [if_neg hp] at hput ⊢

/-- A row takes the place of another one that is indexed in the same way. -/
theorem KeyIndex.replace (hd : DistinctKeys key rows) (hi : rows i = some r) (hsame : p r = p r')
    (hnew : ∀ j r'', rows j = some r'' → key r'' ≠ key r') :
    KeyIndex key p (if p r' then ((m.remove (key r)).2.insert (key r') i).2 else m)
      (update rows i (some r')) := by
  have hnew' : ∀ j r'', update rows i none j = some r'' → key r'' ≠ key r' :=
    fun j r'' hj => hnew j r'' (update_none_eq_some.mp hj).2
  have hput := (h.erase hd hi).put (update_self i none rows) hnew'
  rw [update_idem, hsame] at hput
  by_cases hp : p r' = true
  · simp only [if_pos hp] at hput ⊢
    exact hput
  · simp only [if_neg hp] at hput ⊢
    exact hput

end

end

/-! ## Sets of positions -/

theorem PositionSet.empty : PositionSet p .empty fun _ => none := by
  intro i
  refine iff_of_false (Option.some_ne_none _).symm ?_
  rintro ⟨r, hr, -⟩
  cases hr

theorem PositionSet.erase (h : PositionSet p s rows) (hi : rows i = some r) :
    PositionSet p (if p r then (s.swapRemoveFull i).2 else s) (update rows i none) := by
  intro a
  split
  · rw [IndexMap.get?_swapRemoveFull]
    split
    · rename_i ha
      refine iff_of_false (Option.some_ne_none _).symm ?_
      rintro ⟨r', hrow, -⟩
      exact (update_none_eq_some.mp hrow).1 ha
    · rename_i ha
      rw [h a, update_of_ne ha]
  · rename_i hp
    exact (h a).trans (exists_update_iff (by simp [hi, hp]))

theorem PositionSet.put (h : PositionSet p s rows) (hfree : rows i = none) :
    PositionSet p (if p r then s.insert i () else s) (update rows i (some r)) := by
  intro a
  split
  · rename_i hp
    rw [IndexMap.get?_insert]
    split
    · rename_i ha
      exact iff_of_true rfl ⟨r, update_some_eq_some.mpr (.inl ⟨ha, rfl⟩), hp⟩
    · rename_i ha
      rw [h a, update_of_ne ha]
  · rename_i hp
    exact (h a).trans (exists_update_iff (by simp [hfree, hp]))

theorem PositionSet.replace (h : PositionSet p s rows) (hi : rows i = some r)
    (hsame : p r = p r') : PositionSet p s (update rows i (some r')) := by
  intro a
  exact (h a).trans (exists_update_iff (by simp [hi, hsame]))

end

end Agave.Lib

