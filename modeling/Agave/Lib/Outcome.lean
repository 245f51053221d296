/-
  Agave.Lib.Outcome

  Post-conditions for computations that may stop early.

  A modelled function whose source can abort returns an `Except ε α`. `Returns allowed post x` says
  of such a computation that it either returns a value satisfying `post`, or stops with an error
  that `allowed` admits.  With `allowed := fun _ => False` it is total correctness; with a
  non-trivial `allowed` it is "the only way to fail is one of these", which is how the absence of
  panics is stated.

  Specifications are composed with `Returns.bind`, so a caller never unfolds its callee.
-/

import Mathlib.Data.List.Forall2
import Mathlib.Tactic.Common

namespace Agave.Lib

open List

variable {ε α β : Type _}

@[simp] theorem ok_bind (a : α) (f : α → Except ε β) : (Except.ok a >>= f) = f a := rfl

variable {x : Except ε α} {f : α → Except ε β} {l : List α} {bs : List β} {σ : Type _} {b : β}
  {a : α} {g : α → β} {e : ε}

theorem bind_eq_ok_iff : (x >>= f) = .ok b ↔ ∃ a, x = .ok a ∧ f a = .ok b := by
  cases x with
  | ok a =>
    rw [ok_bind]
    exact ⟨fun h => ⟨a, rfl, h⟩, fun ⟨_, rfl, h⟩ => h⟩
  | error e => exact ⟨fun h => (nomatch h), fun ⟨_, h, _⟩ => (nomatch h)⟩

theorem exists_ok_of_map (h : x.toOption.map g = some b) :
    ∃ a, x = .ok a ∧ g a = b := by
  cases x with
  | ok a => exact ⟨a, rfl, Option.some.inj h⟩
  | error e => cases h

theorem bind_ok (hx : x = .ok a) (hf : f a = .ok b) : (x >>= f) = .ok b :=
  bind_eq_ok_iff.mpr ⟨a, hx, hf⟩

/-- Sequencing after a check, which returns nothing. -/
theorem check_bind_eq_ok_iff {x : Except ε Unit} {f : Unit → Except ε β} :
    (x >>= f) = .ok b ↔ x = .ok () ∧ f () = .ok b := by
  rw [bind_eq_ok_iff]
  exact ⟨fun ⟨(), hx, hf⟩ => ⟨hx, hf⟩, fun ⟨hx, hf⟩ => ⟨(), hx, hf⟩⟩

theorem exists_ok_bind_pure_iff {f : α → β} :
    (∃ b, (do let a ← x; return f a) = .ok b) ↔ ∃ a, x = .ok a := by
  simp only [bind_eq_ok_iff]
  exact ⟨fun ⟨_, a, ha, _⟩ => ⟨a, ha⟩, fun ⟨a, ha⟩ => ⟨f a, a, ha, rfl⟩⟩

/-- A step whose result says where the next one goes on. -/
theorem bind_next_eq_ok_iff {σ : Type} {x : Except ε (α × σ)} {f : α × σ → Except ε β}
    {next : α → σ} {p : α → Prop} (hx : ∀ {a s}, x = .ok (a, s) ↔ p a ∧ s = next a) :
    (x >>= f) = .ok b ↔ ∃ a, p a ∧ f (a, next a) = .ok b := by
  rw [bind_eq_ok_iff]
  constructor
  · rintro ⟨⟨a, s⟩, hstep, h⟩
    obtain ⟨ha, rfl⟩ := hx.mp hstep
    exact ⟨a, ha, h⟩
  · rintro ⟨a, ha, h⟩
    exact ⟨_, hx.mpr ⟨ha, rfl⟩, h⟩

/-- A guard that stops passes exactly when its condition fails. -/
theorem guard_eq_ok_iff {p : Prop} [Decidable p] :
    (if p then .error e else x) = .ok a ↔ ¬ p ∧ x = .ok a := by
  by_cases hp : p
  · rw [if_pos hp]
    exact ⟨fun h => (nomatch h), fun h => absurd hp h.1⟩
  · rw [if_neg hp]
    exact ⟨fun h => ⟨hp, h⟩, fun h => h.2⟩

/-- A computation for every element of a list, none of which stops. -/
theorem forM_eq_ok_iff {f : α → Except ε Unit} : forM l f = .ok () ↔ ∀ a ∈ l, f a = .ok () := by
  induction l with
  | nil => exact ⟨fun _ => forall_mem_nil _, fun _ => rfl⟩
  | cons a l ih => rw [forM_cons, check_bind_eq_ok_iff, ih, forall_mem_cons]

variable {q : α → β → Prop} {s s' : σ}

theorem mapM_eq_ok (h : ∀ a ∈ l, ∃ b, f a = .ok b ∧ q a b) :
    ∃ bs, l.mapM f = .ok bs ∧ List.Forall₂ q l bs := by
  induction l with
  | nil => exact ⟨[], rfl, .nil⟩
  | cons a l ih =>
    obtain ⟨b, hb, hq⟩ := h a mem_cons_self
    obtain ⟨bs, hbs, hall⟩ := ih (fun a' ha' => h a' (mem_cons_of_mem _ ha'))
    refine ⟨b :: bs, ?_, .cons hq hall⟩
    rw [mapM_cons, hb, ok_bind, hbs, ok_bind]
    rfl

theorem eq_map_of_mapM (hf : ∀ a b, f a = .ok b → b = g a) (h : l.mapM f = .ok bs) :
    bs = l.map g := by
  induction l generalizing bs with
  | nil =>
    cases h
    rfl
  | cons a l ih =>
    rw [mapM_cons] at h
    obtain ⟨b, hb, hrest⟩ := bind_eq_ok_iff.mp h
    obtain ⟨bs', hbs', hreturn⟩ := bind_eq_ok_iff.mp hrest
    cases hreturn
    rw [map_cons, hf a b hb, ih hbs']

/-- A computation for every element of a list stops only where one of them does. -/
theorem mapM_eq_error (h : l.mapM f = .error e) : ∃ a ∈ l, f a = .error e := by
  induction l with
  | nil => cases h
  | cons a l ih =>
    rw [mapM_cons] at h
    cases ha : f a with
    | error e' =>
      rw [ha] at h
      cases h
      exact ⟨a, mem_cons_self, ha⟩
    | ok b =>
      rw [ha, ok_bind] at h
      cases hl : l.mapM f with
      | error e' =>
        rw [hl] at h
        cases h
        obtain ⟨a', hmem, ha'⟩ := ih hl
        exact ⟨a', mem_cons_of_mem a hmem, ha'⟩
      | ok bs =>
        rw [hl] at h
        cases h

theorem exists_left_of_mem (h : List.Forall₂ q l bs) (hb : b ∈ bs) : ∃ a ∈ l, q a b := by
  induction h with
  | nil => cases hb
  | @cons a b' l bs hq _ ih =>
    rcases mem_cons.mp hb with rfl | hb
    · exact ⟨a, mem_cons_self, hq⟩
    · obtain ⟨a', ha', hq'⟩ := ih hb
      exact ⟨a', mem_cons_of_mem a ha', hq'⟩

theorem exists_right_of_mem (h : List.Forall₂ q l bs) (ha : a ∈ l) : ∃ b ∈ bs, q a b :=
  exists_left_of_mem h.flip ha

/-- Computations with different results for different elements. -/
theorem nodup_of_forall₂ (hinj : ∀ a a' b, q a b → q a' b → a = a') (h : List.Forall₂ q l bs)
    (hl : l.Nodup) : bs.Nodup := by
  induction h with
  | nil => exact nodup_nil
  | @cons a b l bs hq hrest ih =>
    obtain ⟨hfresh, hl⟩ := nodup_cons.mp hl
    refine nodup_cons.mpr ⟨fun hb => hfresh ?_, ih hl⟩
    obtain ⟨a', ha', hq'⟩ := exists_left_of_mem hrest hb
    rwa [hinj a a' b hq hq']

/-- Sequencing of computations that also write a state. -/
theorem run_bind_eq_ok_iff {x : EStateM ε σ α} {f : α → EStateM ε σ β} :
    (x >>= f) s = .ok b s' ↔ ∃ a s₁, x s = .ok a s₁ ∧ f a s₁ = .ok b s' := by
  show EStateM.bind x f s = _ ↔ _
  unfold EStateM.bind
  cases x s with
  | ok a s₁ => exact ⟨fun h => ⟨a, s₁, rfl, h⟩, fun ⟨_, _, rfl, h⟩ => h⟩
  | error e s₁ => exact ⟨fun h => (nomatch h), fun ⟨_, _, h, _⟩ => (nomatch h)⟩

theorem run_bind_of_ok {x : EStateM ε σ α} {f : α → EStateM ε σ β} (h : x s = .ok a s') :
    (x >>= f) s = f a s' := by
  show EStateM.bind x f s = _
  rw [EStateM.bind, h]

theorem run_bind_eq_error_iff {x : EStateM ε σ α} {f : α → EStateM ε σ β} :
    (x >>= f) s = .error e s' ↔
      x s = .error e s' ∨ ∃ a s₁, x s = .ok a s₁ ∧ f a s₁ = .error e s' := by
  show EStateM.bind x f s = _ ↔ _
  unfold EStateM.bind
  cases x s with
  | ok a s₁ =>
    refine ⟨fun h => .inr ⟨a, s₁, rfl, h⟩, ?_⟩
    rintro (h | ⟨_, _, hx, h⟩)
    · cases h
    · cases hx
      exact h
  | error e₁ s₁ =>
    refine ⟨fun h => ?_, ?_⟩
    · cases h
      exact .inl rfl
    · rintro (h | ⟨_, _, h, -⟩)
      · cases h
        rfl
      · cases h

/-- `x` returns a value in `post`, or stops with an error in `allowed`. -/
def Returns (allowed : ε → Prop) (post : α → Prop) : Except ε α → Prop
  | .ok a => post a
  | .error e => allowed e

/-- The computation returns, and with such a result. -/
abbrev Succeeds (post : α → Prop) (x : Except ε α) : Prop := Returns (fun _ => False) post x

namespace Returns

variable {allowed : ε → Prop} {post post' : α → Prop} {q : β → Prop}

@[simp] theorem ok_iff : Returns allowed post (.ok a) ↔ post a := Iff.rfl

@[simp] theorem pure_iff : Returns allowed post (pure a : Except ε α) ↔ post a := Iff.rfl

/-- Sequencing: the second computation may use what the first one returned. -/
theorem bind (hx : Returns allowed post x) (hf : ∀ a, post a → Returns allowed q (f a)) :
    Returns allowed q (x >>= f) := by
  cases x with
  | ok a => exact hf a hx
  | error e => exact hx

theorem mono (hx : Returns allowed post x) (h : ∀ a, post a → post' a) :
    Returns allowed post' x := by
  cases x with
  | ok a => exact h a hx
  | error e => exact hx

theorem trivial (x : Except ε α) : Returns (fun _ => True) (fun _ => True) x := by
  cases x <;> exact True.intro

theorem weaken {allowed' : ε → Prop} (hx : Returns allowed post x) (h : ∀ e, allowed e → allowed' e) :
    Returns allowed' post x := by
  cases x with
  | ok a => exact hx
  | error e => exact h e hx

/-- What a computation that did return is known to satisfy. -/
theorem of_ok (hx : Returns allowed post x) (h : x = .ok a) : post a := by
  subst h
  exact hx

/-- A computation that is known to return. -/
theorem exists_ok (hx : Succeeds post x) : ∃ a, x = .ok a ∧ post a := by
  cases x with
  | ok a => exact ⟨a, rfl, hx⟩
  | error e => exact hx.elim

/-- A loop over a list, with an invariant that speaks of the elements already handled. -/
theorem foldlM_seen {f : σ → α → Except ε σ} {inv : List α → σ → Prop}
    (hstep : ∀ seen a rest s, l = seen ++ a :: rest → inv seen s →
      Returns allowed (inv (seen ++ [a])) (f s a)) (h : inv [] s) :
    Returns allowed (inv l) (l.foldlM f s) := by
  have hrun : ∀ todo seen s, l = seen ++ todo → inv seen s →
      Returns allowed (inv l) (todo.foldlM f s) := by
    intro todo
    induction todo with
    | nil =>
      intro seen s hl hs
      rw [hl, append_nil]
      exact hs
    | cons a rest ih =>
      intro seen s hl hs
      rw [foldlM_cons]
      refine (hstep seen a rest s hl hs).bind (fun s' hs' => ih (seen ++ [a]) s' ?_ hs')
      rw [hl, append_assoc, singleton_append]
  exact hrun l [] s rfl h

/-- A loop over the numbers below `n`, with an invariant that counts. -/
theorem foldlM_range {f : σ → Nat → Except ε σ} {inv : Nat → σ → Prop} {n : Nat}
    (hstep : ∀ i s, i < n → inv i s → Returns allowed (inv (i + 1)) (f s i)) (h : inv 0 s) :
    Returns allowed (inv n) ((List.range n).foldlM f s) := by
  induction n with
  | zero => exact h
  | succ n ih =>
    rw [range_succ, foldlM_append]
    refine (ih (fun i s hi => hstep i s (Nat.lt_succ_of_lt hi))).bind (fun s' hs' => ?_)
    rw [foldlM_cons]
    exact (hstep n s' (Nat.lt_succ_self n) hs').bind (fun s'' hs'' => hs'')

/-- Why a computation that did stop was allowed to. -/
theorem of_error (hx : Returns allowed post x) (h : x = .error e) : allowed e := by
  subst h
  exact hx

end Returns

end Agave.Lib
