/-
  Agave.Lib.Serial

  Orders of execution that agree on conflicting pairs.

  `Precedes l a b` says that `a` stands before `b` in the order `l`.  Two orders
  of the same items are conflict-equivalent when they put every conflicting pair
  the same way round; executing either one then has the same effect, as soon as
  items that do not conflict commute (`ConflictEquiv.foldl_eq`).
-/

import Mathlib.Algebra.Order.Ring.Nat
import Mathlib.Data.List.Perm.Basic

namespace Agave.Lib

open List

variable {α σ : Type _} {exec : σ → α → σ}

/-- `a` stands somewhere before `b` in `l`. -/
def Precedes (l : List α) (a b : α) : Prop := [a, b].Sublist l

namespace Precedes

variable {l l' : List α} {a b : α}

section

variable (h : Precedes l a b)
include h

theorem mem_left : a ∈ l := h.subset mem_cons_self

theorem mem_right : b ∈ l :=
  h.subset (mem_cons_of_mem _ mem_cons_self)

theorem append_right (l' : List α) : Precedes (l ++ l') a b :=
  h.trans (sublist_append_left _ _)

theorem cons (c : α) : Precedes (c :: l) a b :=
  h.trans (sublist_cons_self _ _)

end

theorem of_mem_append (ha : a ∈ l) (hb : b ∈ l') : Precedes (l ++ l') a b :=
  (singleton_sublist.mpr ha).append (singleton_sublist.mpr hb)

/-- In an extended order a pair is an old pair, or ends in the new item. -/
theorem of_append_singleton {c : α} (h : Precedes (l ++ [c]) a b) : Precedes l a b ∨ b = c := by
  obtain ⟨l₁, l₂, heq, h₁, h₂⟩ := sublist_append_iff.mp h
  cases l₂ with
  | nil =>
    rw [append_nil] at heq
    rw [← heq] at h₁
    exact Or.inl h₁
  | cons x xs =>
    right
    have hlast : xs = [] ∧ x = c := by
      rcases sublist_singleton.mp h₂ with hnil | hone
      · cases hnil
      · cases hone
        exact ⟨rfl, rfl⟩
    obtain ⟨rfl, rfl⟩ := hlast
    have hlast := congrArg getLast? heq
    simpa using hlast

theorem map {β : Type _} (f : α → β) (h : Precedes l a b) : Precedes (l.map f) (f a) (f b) :=
  List.Sublist.map f h

/-- In a duplicate-free order precedence is order of positions. -/
theorem idxOf_lt [DecidableEq α] (hnd : l.Nodup) (h : Precedes l a b) : l.idxOf a < l.idxOf b := by
  have hpositions : l.Pairwise fun a b => l.idxOf a < l.idxOf b := by
    rw [pairwise_iff_getElem]
    intro i j hi hj hij
    rwa [hnd.idxOf_getElem, hnd.idxOf_getElem]
  exact pairwise_iff_forall_sublist.mp hpositions h

theorem asymm (hnd : l.Nodup) (h : Precedes l a b) : ¬ Precedes l b a := by
  classical
  intro h'
  exact (h.idxOf_lt hnd).asymm (h'.idxOf_lt hnd)

theorem ne (hnd : l.Nodup) (h : Precedes l a b) : a ≠ b := by
  rintro rfl
  exact asymm hnd h h

end Precedes

/-- Two orders of the same items that agree on every conflicting pair. -/
structure ConflictEquiv (conflict : α → α → Prop) (l l' : List α) : Prop where
  perm : l.Perm l'
  order : ∀ a b, conflict a b → Precedes l a b → Precedes l' a b

/-- Moving an item to the front, past items it commutes with. -/
theorem foldl_middle {a : α} {pre post : List α}
    (hcomm : ∀ b ∈ pre, ∀ s, exec (exec s b) a = exec (exec s a) b) (s : σ) :
    (pre ++ a :: post).foldl exec s = (a :: (pre ++ post)).foldl exec s := by
  induction pre generalizing s with
  | nil => rfl
  | cons b pre ih =>
    have hrest := ih (fun c hc => hcomm c (mem_cons_of_mem _ hc)) (exec s b)
    simp only [cons_append, foldl_cons] at hrest ⊢
    rw [hrest, hcomm b mem_cons_self]

/-- Conflict-equivalent orders have the same effect. -/
theorem ConflictEquiv.foldl_eq {conflict : α → α → Prop}
    (hcomm : ∀ a b, ¬ conflict a b → ∀ s, exec (exec s b) a = exec (exec s a) b)
    {l l' : List α} (hnd : l.Nodup) (h : ConflictEquiv conflict l l') (s : σ) :
    l.foldl exec s = l'.foldl exec s := by
  induction l generalizing l' s with
  | nil => rw [h.perm.symm.eq_nil]
  | cons a l ih =>
    obtain ⟨ha, hl⟩ := nodup_cons.mp hnd
    have hnd' : l'.Nodup := h.perm.nodup_iff.mp hnd
    obtain ⟨pre, post, rfl⟩ := append_of_mem (h.perm.mem_iff.mp mem_cons_self)
    have hperm : l.Perm (pre ++ post) := (h.perm.trans perm_middle).cons_inv
    -- what stands before `a` now stood behind it: no conflict
    have hpre : ∀ b ∈ pre, ¬ conflict a b := by
      intro b hb hconf
      have hbl : b ∈ l := hperm.mem_iff.mpr (mem_append_left _ hb)
      have hfirst : Precedes (a :: l) a b := (singleton_sublist.mpr hbl).cons_cons a
      exact Precedes.asymm hnd' (h.order a b hconf hfirst)
        (Precedes.of_mem_append hb mem_cons_self)
    have hrest : ConflictEquiv conflict l (pre ++ post) := by
      refine ⟨hperm, ?_⟩
      intro b c hconf hbc
      have hba : b ≠ a := fun heq => ha (heq ▸ hbc.mem_left)
      have hca : c ≠ a := fun heq => ha (heq ▸ hbc.mem_right)
      have hlong := h.order b c hconf (hbc.cons a)
      obtain ⟨l₁, l₂, heq, h₁, h₂⟩ := sublist_append_iff.mp hlong
      have h₂' : l₂.Sublist post := by
        rcases sublist_cons_iff.mp h₂ with h₂ | ⟨r, rfl, -⟩
        · exact h₂
        · have hin : a ∈ [b, c] := heq ▸ mem_append_right _ mem_cons_self
          simp [hba.symm, hca.symm] at hin
      rw [Precedes, heq]
      exact h₁.append h₂'
    rw [foldl_middle (fun b hb => hcomm a b (hpre b hb))]
    exact ih hl hrest (exec s a)

end Agave.Lib

