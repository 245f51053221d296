/-
  Agave.Lib.ViewState

  Computations over a state that is only ever read through a view.

  A cache in front of a store answers every read as the store would, and filling it changes nothing
  a later read can see.  `Reads view allowed f` says so of a computation `f` that may stop: its
  outcome depends on the view alone, the view is the same afterwards, and it stops only as `allowed`
  admits.  The property is closed under sequencing, so it is proved for the one primitive that
  touches the cache and follows for every function written over it.  `Yields` adds what such a
  computation returns, given the view, and `Answers` says both.
-/

import Agave.Lib.Outcome

namespace Agave.Lib

variable {σ ω ε ε' α β : Type _}

/-- The value a stateful computation returns, or what it stopped with. -/
def outcome (f : StateT σ (Except ε) α) (s : σ) : Except ε α :=
  (f.run s).map Prod.fst

variable {f : StateT σ (Except ε) α} {k : α → StateT σ (Except ε) β} {s : σ} {a : α}

theorem outcome_eq_ok_iff : outcome f s = .ok a ↔ ∃ s', f.run s = .ok (a, s') := by
  unfold outcome
  cases hrun : f.run s with
  | error e => simp [Except.map]
  | ok r =>
    obtain ⟨b, s'⟩ := r
    simp [Except.map]

theorem outcome_eq_error_iff {e : ε} : outcome f s = .error e ↔ f.run s = .error e := by
  unfold outcome
  cases hrun : f.run s with
  | error e' => simp [Except.map]
  | ok r => simp [Except.map]

/-- The computation sees the state through `view` only, leaves the view as it was, and stops
    only with what `allowed` admits. -/
structure Reads (view : σ → ω) (allowed : ε → Prop) (f : StateT σ (Except ε) α) : Prop where
  agree : ∀ s t, view s = view t → outcome f s = outcome f t
  keeps : ∀ s a s', f.run s = .ok (a, s') → view s' = view s
  stops : ∀ s e, f.run s = .error e → allowed e

variable {view : σ → ω} {allowed : ε → Prop} {x : Except ε α}

/-! ## Sequencing -/

theorem Reads.pure (a : α) : Reads view allowed (pure a : StateT σ (Except ε) α) := by
  refine ⟨fun _ _ _ => rfl, ?_, ?_⟩
  · intro s b s' hrun
    cases hrun
    rfl
  · intro s e hrun
    cases hrun

/-- A computation that does not touch the state. -/
theorem Reads.liftExcept (hx : ∀ e, x = .error e → allowed e) :
    Reads view allowed (StateT.lift x : StateT σ (Except ε) α) := by
  cases x with
  | ok a => exact Reads.pure a
  | error e =>
    refine ⟨fun _ _ _ => rfl, ?_, ?_⟩
    · intro s b s' hrun
      cases hrun
    · intro s e' hrun
      cases hrun
      exact hx e rfl

variable {post : α → Prop}

theorem outcome_bind_of_ok {s' : σ} (hrun : f.run s = .ok (a, s')) :
    outcome (f >>= k) s = outcome (k a) s' := by
  unfold outcome
  rw [StateT.run_bind, hrun, ok_bind]

theorem outcome_bind_of_error {e : ε} (hrun : f.run s = .error e) :
    outcome (f >>= k) s = .error e := by
  rw [outcome_eq_error_iff, StateT.run_bind, hrun]
  rfl

/-- Two states with one view run a reading computation alike, and end with that view. -/
theorem Reads.run_cases (hf : Reads view allowed f) {t : σ} (hview : view s = view t) :
    (∃ e, allowed e ∧ f.run s = .error e ∧ f.run t = .error e) ∨
      ∃ a s' t', f.run s = .ok (a, s') ∧ f.run t = .ok (a, t') ∧
        view s' = view s ∧ view t' = view t := by
  have hagree := hf.agree s t hview
  cases hs : f.run s with
  | error e =>
    refine .inl ⟨e, hf.stops s e hs, rfl, ?_⟩
    rw [outcome_eq_error_iff.mpr hs] at hagree
    exact outcome_eq_error_iff.mp hagree.symm
  | ok r =>
    obtain ⟨a, s'⟩ := r
    rw [outcome_eq_ok_iff.mpr ⟨s', hs⟩] at hagree
    obtain ⟨t', ht⟩ := outcome_eq_ok_iff.mp hagree.symm
    exact .inr ⟨a, s', t', rfl, ht, hf.keeps s a s' hs, hf.keeps t a t' ht⟩

theorem Reads.bind (hf : Reads view allowed f) (hk : ∀ a, Reads view allowed (k a)) :
    Reads view allowed (f >>= k) := by
  refine ⟨?_, ?_, ?_⟩
  · intro s t hview
    obtain ⟨e, -, hs, ht⟩ | ⟨a, s', t', hs, ht, hs', ht'⟩ := hf.run_cases hview
    · rw [outcome_bind_of_error hs, outcome_bind_of_error ht]
    · rw [outcome_bind_of_ok hs, outcome_bind_of_ok ht]
      exact (hk a).agree s' t' (by rw [hs', ht', hview])
  · intro s b s'' hrun
    rw [StateT.run_bind] at hrun
    obtain ⟨⟨a, s'⟩, hs, hrest⟩ := bind_eq_ok_iff.mp hrun
    rw [(hk a).keeps s' b s'' hrest, hf.keeps s a s' hs]
  · intro s e hrun
    rw [StateT.run_bind] at hrun
    cases hs : f.run s with
    | error e' =>
      rw [hs] at hrun
      cases hrun
      exact hf.stops s e hs
    | ok r =>
      rw [hs, ok_bind] at hrun
      exact (hk r.1).stops r.2 e hrun

/-! ## With errors that leave the state as it is -/

/-- Reading for a computation whose own errors are returned with the state. -/
def ReadsE (view : σ → ω) (allowed : ε → Prop) (f : ExceptT ε' (StateT σ (Except ε)) α) : Prop :=
  Reads view allowed f.run

/-! ## What a computation returns -/

/-- From a state with the view `v` the computation returns only what `post` admits, and it leaves
    the view as it was. -/
def Yields (view : σ → ω) (v : ω) (post : α → Prop) (f : StateT σ (Except ε) α) : Prop :=
  ∀ s, view s = v → ∀ a s', f.run s = .ok (a, s') → view s' = v ∧ post a

variable {v : ω}

theorem Yields.pure (h : post a) : Yields view v post (pure a : StateT σ (Except ε) α) := by
  intro s hs b s' hrun
  cases hrun
  exact ⟨hs, h⟩

theorem Yields.mono {post' : α → Prop} (hf : Yields view v post f) (h : ∀ a, post a → post' a) :
    Yields view v post' f := by
  intro s hs a s' hrun
  obtain ⟨hview, hpost⟩ := hf s hs a s' hrun
  exact ⟨hview, h a hpost⟩

theorem Yields.liftExcept (h : ∀ a, x = .ok a → post a) :
    Yields view v post (StateT.lift x : StateT σ (Except ε) α) := by
  cases x with
  | ok a => exact Yields.pure (h a rfl)
  | error e =>
    intro s hs a s' hrun
    cases hrun

theorem Yields.bind {post' : β → Prop} (hf : Yields view v post f)
    (hk : ∀ a, post a → Yields view v post' (k a)) : Yields view v post' (f >>= k) := by
  intro s hs b s'' hrun
  rw [StateT.run_bind] at hrun
  obtain ⟨⟨a, s'⟩, hs', hrest⟩ := bind_eq_ok_iff.mp hrun
  obtain ⟨hview, hpost⟩ := hf s hs a s' hs'
  exact hk a hpost s' hview b s'' hrest

/-- The same for a computation with errors of its own; of those nothing is said. -/
def YieldsE (view : σ → ω) (v : ω) (post : α → Prop) (f : ExceptT ε' (StateT σ (Except ε)) α) :
    Prop :=
  Yields view v (fun r => ∀ a, r = .ok a → post a) f.run

/-! ## Both at once -/

/-- The computation reads the state as `Reads` says, and returns what `post` admits of the view. -/
structure Answers (view : σ → ω) (allowed : ε → Prop) (post : ω → α → Prop)
    (f : StateT σ (Except ε) α) : Prop where
  reads : Reads view allowed f
  yields : ∀ v, Yields view v (post v) f

variable {post : ω → α → Prop} {post' : ω → β → Prop}

theorem Answers.pure (h : ∀ v, post v a) :
    Answers view allowed post (pure a : StateT σ (Except ε) α) :=
  ⟨Reads.pure a, fun v => Yields.pure (h v)⟩

theorem Answers.liftExcept (hstop : ∀ e, x = .error e → allowed e)
    (h : ∀ v a, x = .ok a → post v a) :
    Answers view allowed post (StateT.lift x : StateT σ (Except ε) α) :=
  ⟨Reads.liftExcept hstop, fun v => Yields.liftExcept (h v)⟩

theorem Answers.mono {post' : ω → α → Prop} (hf : Answers view allowed post f)
    (h : ∀ v a, post v a → post' v a) : Answers view allowed post' f :=
  ⟨hf.reads, fun v => (hf.yields v).mono (h v)⟩

/-- What the first computation returned is known of the second. -/
theorem Answers.bind (hf : Answers view allowed post f)
    (hk : ∀ a, Answers view allowed (fun v b => post v a → post' v b) (k a)) :
    Answers view allowed post' (f >>= k) where
  reads := hf.reads.bind fun a => (hk a).reads
  yields v := (hf.yields v).bind fun a ha => ((hk a).yields v).mono fun _ hb => hb ha

/-- The same for a computation with errors of its own. -/
structure AnswersE (view : σ → ω) (allowed : ε → Prop) (post : ω → α → Prop)
    (f : ExceptT ε' (StateT σ (Except ε)) α) : Prop where
  reads : ReadsE view allowed f
  yields : ∀ v, YieldsE view v (post v) f

namespace AnswersE

variable {f : ExceptT ε' (StateT σ (Except ε)) α} {k : α → ExceptT ε' (StateT σ (Except ε)) β}

theorem iff_run : AnswersE view allowed post f ↔
    Answers view allowed (fun v r => ∀ a, r = .ok a → post v a) f.run :=
  ⟨fun h => ⟨h.reads, h.yields⟩, fun h => ⟨h.reads, h.yields⟩⟩

theorem ofExcept (x : Except ε' α) :
    AnswersE view allowed (fun _ _ => True)
      (ExceptT.mk (Pure.pure x) : ExceptT ε' (StateT σ (Except ε)) α) :=
  iff_run.mpr (Answers.pure fun _ _ _ => trivial)

theorem pure (h : ∀ v, post v a) :
    AnswersE view allowed post (pure a : ExceptT ε' (StateT σ (Except ε)) α) := by
  refine iff_run.mpr (Answers.pure ?_)
  rintro v b ⟨⟩
  exact h v

theorem throw (e : ε') :
    AnswersE view allowed post (throw e : ExceptT ε' (StateT σ (Except ε)) α) := by
  refine iff_run.mpr (Answers.pure ?_)
  rintro v b ⟨⟩

theorem lift {f : StateT σ (Except ε) α} (hf : Answers view allowed post f) :
    AnswersE view allowed post (ExceptT.lift f : ExceptT ε' (StateT σ (Except ε)) α) := by
  rw [iff_run, ExceptT.run_lift]
  refine hf.bind fun a => Answers.pure ?_
  rintro v ha b ⟨⟩
  exact ha

theorem mono {post' : ω → α → Prop} (hf : AnswersE view allowed post f)
    (h : ∀ v a, post v a → post' v a) : AnswersE view allowed post' f where
  reads := hf.reads
  yields v := (hf.yields v).mono fun _ hr a ha => h v a (hr a ha)

theorem bind (hf : AnswersE view allowed post f)
    (hk : ∀ a, AnswersE view allowed (fun v b => post v a → post' v b) (k a)) :
    AnswersE view allowed post' (f >>= k) := by
  rw [iff_run, ExceptT.run_bind]
  refine (iff_run.mp hf).bind fun r => ?_
  cases r with
  | ok a => exact (iff_run.mp (hk a)).mono fun v r hr ha b hb => hr b hb (ha a rfl)
  | error e =>
    refine Answers.pure ?_
    rintro v - b ⟨⟩

/-- A loop, with what holds after each element that was seen. -/
theorem foldlM {γ : Type _} {inv : ω → List γ → β → Prop}
    {step : β → γ → ExceptT ε' (StateT σ (Except ε)) β}
    (hstep : ∀ seen c b,
      AnswersE view allowed (fun v b' => inv v seen b → inv v (seen ++ [c]) b') (step b c))
    (l : List γ) (b : β) :
    AnswersE view allowed (fun v b' => inv v [] b → inv v l b') (l.foldlM step b) := by
  have hloop : ∀ seen b,
      AnswersE view allowed (fun v b' => inv v seen b → inv v (seen ++ l) b')
        (l.foldlM step b) := by
    induction l with
    | nil =>
      intro seen b
      rw [List.append_nil]
      exact pure fun v h => h
    | cons c rest ih =>
      intro seen b
      rw [List.foldlM_cons, List.append_cons]
      exact (hstep seen c b).bind fun b' =>
        (ih (seen ++ [c]) b').mono fun v _ hrest hfirst hinv => hrest (hfirst hinv)
  exact hloop [] b

end AnswersE

end Agave.Lib
