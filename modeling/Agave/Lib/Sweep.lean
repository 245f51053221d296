/-
  Agave.Lib.Sweep

  Working through an agenda: a list of entries, each of which changes a state, done in an order that
  is fixed beforehand.

  An entry that turns one property into another, where the rest of the agenda keeps both, leaves the
  second one at the end (`foldl_once`).  An agenda may also repair a property that is stated node by
  node.  Doing an entry may break the property at some nodes as long as a later entry repairs it
  there; at the end it then holds everywhere (`foldl_good`).
-/

import Mathlib.Data.List.Basic

namespace Agave.Lib.Sweep

open List

variable {σ ω κ : Type _} {step : σ → ω → σ} {before : ω → ω → Prop} {agenda : List ω} {s : σ}

/-- One entry turns `P` into `Q`, and no entry ends either. -/
theorem foldl_once {P Q : σ → Prop} (hkeep : ∀ s, P s → ∀ a ∈ agenda, P (step s a))
    (hstay : ∀ s, Q s → ∀ a ∈ agenda, Q (step s a)) {b : ω} (hturn : ∀ s, P s → Q (step s b))
    (hb : b ∈ agenda) (hs : P s) : Q (agenda.foldl step s) := by
  obtain ⟨pre, post, rfl⟩ := append_of_mem hb
  rw [foldl_append, foldl_cons]
  have hbefore : P (pre.foldl step s) :=
    foldlRecOn pre step hs fun s hs a ha => hkeep s hs a (mem_append_left _ ha)
  exact foldlRecOn post step (hturn _ hbefore) fun s hs a ha =>
    hstay s hs a (mem_append_right _ (mem_cons_of_mem _ ha))

/-- The property holds everywhere at the end when it holds at the start except
    where an entry of the agenda repairs it, and an entry that breaks it
    somewhere is followed by one that repairs it there. -/
theorem foldl_good (hasymm : ∀ {a b}, before a b → ¬ before b a) (inv : σ → Prop)
    (good : σ → κ → Prop) (repairs breaks : ω → κ → Prop) (hinv : ∀ {s a}, inv s → inv (step s a))
    (hgood : ∀ {s a n}, inv s → good s n ∨ repairs a n → good (step s a) n ∨ breaks a n)
    (hord : agenda.Pairwise before)
    (hbreaks : ∀ a ∈ agenda, ∀ n, breaks a n → ∃ b ∈ agenda, before a b ∧ repairs b n)
    (hs : inv s) (hstart : ∀ n, good s n ∨ ∃ a ∈ agenda, repairs a n) (n : κ) :
    good (agenda.foldl step s) n := by
  induction agenda generalizing s with
  | nil => simpa using hstart n
  | cons a rest ih =>
    have hfirst := (pairwise_cons.mp hord).1
    -- what repairs a broken node comes later, so it is not the entry just done
    have hlater : ∀ b ∈ a :: rest, ∀ n, breaks b n → ∃ r ∈ rest, before b r ∧ repairs r n := by
      intro b hb n hbn
      obtain ⟨r, hr, hbr, hrn⟩ := hbreaks b hb n hbn
      rcases mem_cons.mp hr with rfl | hr
      · rcases mem_cons.mp hb with rfl | hb
        · exact absurd hbr (hasymm hbr)
        · exact absurd hbr (hasymm (hfirst b hb))
      · exact ⟨r, hr, hbr, hrn⟩
    rw [foldl_cons]
    apply ih hord.of_cons (fun b hb => hlater b (mem_cons_of_mem _ hb)) (hinv hs)
    intro n
    have hdone : good s n ∨ repairs a n → good (step s a) n ∨ ∃ r ∈ rest, repairs r n := by
      intro h
      rcases hgood hs h with h | h
      · exact Or.inl h
      · obtain ⟨r, hr, -, hrn⟩ := hlater a mem_cons_self n h
        exact Or.inr ⟨r, hr, hrn⟩
    rcases hstart n with h | ⟨r, hr, hrn⟩
    · exact hdone (Or.inl h)
    · rcases mem_cons.mp hr with rfl | hr
      · exact hdone (Or.inr hrn)
      · exact Or.inr ⟨r, hr, hrn⟩

end Agave.Lib.Sweep
