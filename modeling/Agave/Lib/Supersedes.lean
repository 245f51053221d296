/-
  Agave.Lib.Supersedes

  Replacing one timeline of commitments by another.

  An entry has a `key` (its position in time), a `weight` (how firmly it is held) and an `expiry`
  (the last key up to which it binds).  A new list of entries supersedes an old one when every old
  entry either stays with at least its weight, or is gone and had expired before every later entry
  of the new list.

  For lists in key order the relation is decided by walking both lists in step: the four equations
  below are the branches of that walk.
-/

import Mathlib.Algebra.Order.Ring.Nat

namespace Agave.Lib

open List

variable {α κ : Type _} [LinearOrder κ] {key : α → κ} {weight : α → Nat} {expiry : α → κ}

/-- `new` takes back no commitment of `old`. -/
@[mk_iff]
structure Supersedes (key : α → κ) (weight : α → Nat) (expiry : α → κ)
    (old new : List α) : Prop where
  weight_le : ∀ o ∈ old, ∀ n ∈ new, key n = key o → weight o ≤ weight n
  expired : ∀ o ∈ old, (∀ n ∈ new, key n ≠ key o) → ∀ n ∈ new, key o < key n → expiry o < key n

namespace Supersedes

variable {o n : α} {os ns old new newer : List α}

theorem nil_left : Supersedes key weight expiry [] new := by
  constructor <;> intro o ho <;> cases ho

theorem nil_right : Supersedes key weight expiry old [] := by
  constructor
  · intro o _ n hn
    cases hn
  · intro o _ _ n hn
    cases hn

/-- A new entry below every old one has no say. -/
theorem cons_low_iff (hlow : ∀ o ∈ old, key n < key o) :
    Supersedes key weight expiry old (n :: ns) ↔ Supersedes key weight expiry old ns := by
  constructor
  · intro h
    constructor
    · intro o ho m hm
      exact h.weight_le o ho m (mem_cons_of_mem n hm)
    · intro o ho hgone m hm
      apply h.expired o ho _ m (mem_cons_of_mem n hm)
      intro m' hm'
      cases hm' with
      | head => exact (hlow o ho).ne
      | tail _ hm' => exact hgone m' hm'
  · intro h
    constructor
    · intro o ho m hm heq
      cases hm with
      | head => exact absurd heq (hlow o ho).ne
      | tail _ hm => exact h.weight_le o ho m hm heq
    · intro o ho hgone m hm hlt
      cases hm with
      | head => exact absurd hlt (hlow o ho).asymm
      | tail _ hm =>
        exact h.expired o ho (fun m' hm' => hgone m' (mem_cons_of_mem n hm')) m hm hlt

theorem cons_left_iff :
    Supersedes key weight expiry (o :: os) new ↔
      Supersedes key weight expiry [o] new ∧ Supersedes key weight expiry os new := by
  simp only [supersedes_iff, forall_mem_cons, not_mem_nil, false_implies, implies_true, and_true]
  exact and_and_and_comm

/-- The oldest entry is gone: it must have expired before the next one. -/
theorem cons_lt_iff (hlt : key o < key n) (hns : ∀ m ∈ ns, key n < key m) :
    Supersedes key weight expiry (o :: os) (n :: ns) ↔
      expiry o < key n ∧ Supersedes key weight expiry os (n :: ns) := by
  have hle : ∀ m ∈ n :: ns, key n ≤ key m := by
    intro m hm
    cases hm with
    | head => exact le_rfl
    | tail _ hm => exact (hns m hm).le
  have hne : ∀ m ∈ n :: ns, key m ≠ key o := fun m hm => (hlt.trans_le (hle m hm)).ne'
  rw [cons_left_iff]
  apply and_congr_left
  intro _
  constructor
  · intro h
    exact h.expired o (mem_singleton_self o) hne n mem_cons_self hlt
  · intro hexp
    constructor
    · intro o' ho' m hm heq
      rw [mem_singleton.mp ho'] at heq
      exact absurd heq (hne m hm)
    · intro o' ho' _ m hm _
      rw [mem_singleton.mp ho']
      exact hexp.trans_le (hle m hm)

/-- The oldest entry stays: it must keep its weight. -/
theorem cons_eq_iff (heq : key o = key n) (hos : ∀ o' ∈ os, key o < key o')
    (hns : ∀ m ∈ ns, key n < key m) :
    Supersedes key weight expiry (o :: os) (n :: ns) ↔
      weight o ≤ weight n ∧ Supersedes key weight expiry os ns := by
  have hlow : ∀ o' ∈ os, key n < key o' := fun o' ho' => heq ▸ hos o' ho'
  rw [cons_left_iff, cons_low_iff hlow]
  apply and_congr_left
  intro _
  constructor
  · intro h
    exact h.weight_le o (mem_singleton_self o) n mem_cons_self heq.symm
  · intro hweight
    constructor
    · intro o' ho' m hm hkey
      rw [mem_singleton.mp ho'] at hkey ⊢
      cases hm with
      | head => exact hweight
      | tail _ hm => exact absurd (hkey.trans heq) (hns m hm).ne'
    · intro o' ho' hgone
      rw [mem_singleton.mp ho'] at hgone
      exact absurd heq.symm (hgone n mem_cons_self)

/-- The new entry is older than what is left of the old list. -/
theorem cons_gt_iff (hgt : key n < key o) (hos : ∀ o' ∈ os, key o < key o') :
    Supersedes key weight expiry (o :: os) (n :: ns) ↔
      Supersedes key weight expiry (o :: os) ns := by
  apply cons_low_iff
  intro o' ho'
  cases ho' with
  | head => exact hgt
  | tail _ ho' => exact hgt.trans (hos o' ho')

/-- Superseding composes as long as the second step only adds entries at the end: a key that was
    dropped never comes back.  Entries that `q` excludes are let go on the way. -/
theorem trans {p q : α → Bool}
    (hexpiry : ∀ o n : α, key o = key n → weight o ≤ weight n → expiry o ≤ expiry n)
    (hpq : ∀ o, q o → p o) (hq : ∀ o n, key o = key n → q o → q n)
    (hlast : ∀ o ∈ old, ∃ n ∈ new, key o ≤ key n)
    (hgrows : ∀ m ∈ newer, (∃ n ∈ new, key n = key m) ∨ ∀ n ∈ new, key n < key m)
    (h₁ : Supersedes key weight expiry (old.filter p) new)
    (h₂ : Supersedes key weight expiry (new.filter q) newer) :
    Supersedes key weight expiry (old.filter q) newer := by
  have hold : ∀ o ∈ old.filter q, o ∈ old.filter p := by
    intro o ho
    rw [mem_filter] at ho ⊢
    exact ⟨ho.1, hpq o ho.2⟩
  -- An entry that stayed in the first step is still watched in the second.
  have hkept : ∀ o ∈ old.filter q, ∀ n ∈ new, key n = key o → n ∈ new.filter q := by
    intro o ho n hn heq
    exact mem_filter.mpr ⟨hn, hq o n heq.symm (mem_filter.mp ho).2⟩
  constructor
  · intro o ho m hm hmo
    rcases hgrows m hm with ⟨n, hn, hnm⟩ | habove
    · have hno : key n = key o := hnm.trans hmo
      calc weight o ≤ weight n := h₁.weight_le o (hold o ho) n hn hno
        _ ≤ weight m := h₂.weight_le n (hkept o ho n hn hno) m hm hnm.symm
    · obtain ⟨n, hn, hon⟩ := hlast o (mem_filter.mp ho).1
      exact absurd (habove n hn) (hmo ▸ hon.not_gt)
  · intro o ho hgone m hm hom
    by_cases hstay : ∃ n ∈ new, key n = key o
    · obtain ⟨n, hn, hno⟩ := hstay
      have hw := h₁.weight_le o (hold o ho) n hn hno
      calc expiry o ≤ expiry n := hexpiry o n hno.symm hw
        _ < key m := h₂.expired n (hkept o ho n hn hno)
            (fun m' hm' => hno ▸ hgone m' hm') m hm (hno ▸ hom)
    · have hdrop : ∀ n ∈ new, key n ≠ key o := fun n hn hno => hstay ⟨n, hn, hno⟩
      rcases hgrows m hm with ⟨n, hn, hnm⟩ | habove
      · exact hnm ▸ h₁.expired o (hold o ho) hdrop n hn (hnm ▸ hom)
      · obtain ⟨n, hn, hon⟩ := hlast o (mem_filter.mp ho).1
        have hlt : key o < key n := lt_of_le_of_ne hon (hdrop n hn).symm
        exact (h₁.expired o (hold o ho) hdrop n hn hlt).trans (habove n hn)

end Supersedes

end Agave.Lib
