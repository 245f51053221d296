/-
  Agave.Lib.LockQueue

  Read/write lock queues ordered by rank.

  A lock queue has holders and waiters.  Each request is exclusive or shared, and has a rank;
  smaller ranks go first.  Some requests are *pinned*: their owner may already be running, so the
  lock can no longer be taken back from them.

  A new request preempts the conflicting holders that rank below it and are not pinned.  It is
  granted (`WF.granted`) unless it still conflicts with a holder, or with a waiter that ranks above
  it; then it waits (`WF.denied`).  A holder that releases the lock leaves it to the others
  (`WF.release`); the last one hands it to the first waiter, together with the run of shared waiters
  behind it (`promote`).

  `WF` is the invariant all of these keep.  From it follow mutual exclusion of holders and the
  wait-for order: every waiter waits for a request of smaller rank or for a pinned holder
  (`exists_blocker`), which is what rules deadlock out across any number of queues
  (`exists_unblocked`).
-/

import Mathlib.Order.WellFounded
import Mathlib.Data.List.Perm.Basic
import Mathlib.Data.List.Pairwise
import Mathlib.Data.List.TakeWhile

namespace Agave.Lib

open List

/-- The two sides of a lock: who has it and who waits for it, in order. -/
structure LockQueue (ρ : Type _) where
  holders : List ρ
  waiters : List ρ

namespace LockQueue

variable {ρ ι : Type _} [LinearOrder ι]

/-- Two requests exclude each other when one of them is exclusive. -/
def Conflict (excl : ρ → Bool) (a b : ρ) : Prop := excl a = true ∨ excl b = true

variable {a b : ρ}

theorem not_conflict_iff {excl : ρ → Bool} :
    ¬ Conflict excl a b ↔ excl a = false ∧ excl b = false := by
  simp [Conflict, not_or]

/-- The invariant of a lock queue.

    `outranks` is the clause preemption keeps alive: a holder that is not
    pinned ranks above every waiter it conflicts with.  `sharedFront` says that
    nobody waits behind shared holders without an exclusive waiter in front. -/
structure WF (excl : ρ → Bool) (rank : ρ → ι) (pinned : ρ → Prop) (v : LockQueue ρ) : Prop where
  compatible : v.holders.Pairwise (fun a b => excl a = false ∧ excl b = false)
  idle : v.holders = [] → v.waiters = []
  sorted : v.waiters.Pairwise (fun a b => rank a < rank b)
  outranks : ∀ h ∈ v.holders, ∀ w ∈ v.waiters, Conflict excl h w → ¬ pinned h → rank h < rank w
  sharedFront : (∀ h ∈ v.holders, excl h = false) → ∀ w ∈ v.waiters.head?, excl w = true

variable {excl : ρ → Bool} {rank : ρ → ι} {pinned pinned' : ρ → Prop} {v v' : LockQueue ρ} {w h : ρ}
  {ws : List ρ}

/-! ## Consequences of the invariant -/

theorem rank_head_le (hs : ws.Pairwise (fun a b => rank a < rank b)) {m : ρ}
    (hm : m ∈ ws.head?) (hw : w ∈ ws) : m = w ∨ rank m < rank w := by
  cases ws with
  | nil => exact absurd hw not_mem_nil
  | cons x xs =>
    have hx : x = m := by simpa using hm
    subst hx
    rcases mem_cons.mp hw with rfl | hw
    · exact Or.inl rfl
    · exact Or.inr ((pairwise_cons.mp hs).1 w hw)

section

variable (hv : v.WF excl rank pinned)
include hv

theorem WF.holders_shared (ha : a ∈ v.holders)
    (hb : b ∈ v.holders) (hne : a ≠ b) : excl a = false ∧ excl b = false := by
  have hsymm : Std.Symm (fun a b : ρ => excl a = false ∧ excl b = false) :=
    ⟨fun _ _ h => ⟨h.2, h.1⟩⟩
  exact hv.compatible.forall ha hb hne

theorem WF.exists_holder (hw : w ∈ v.waiters) : ∃ h, h ∈ v.holders := by
  apply exists_mem_of_ne_nil
  intro hnil
  rw [hv.idle hnil] at hw
  exact absurd hw not_mem_nil

/-- Behind shared holders, an exclusive waiter is in front of all who wait. -/
theorem WF.exists_front (hw : w ∈ v.waiters) (hshared : ∀ h ∈ v.holders, excl h = false) :
    ∃ m ∈ v.waiters, excl m = true ∧ (m = w ∨ rank m < rank w) := by
  have hne := ne_nil_of_mem hw
  have hm : v.waiters.head hne ∈ v.waiters.head? := head?_eq_some_head hne
  exact ⟨_, head_mem hne, hv.sharedFront hshared _ hm, rank_head_le hv.sorted hm hw⟩

/-- Every waiter waits for a request of smaller rank, or for a pinned holder. -/
theorem WF.exists_blocker (hw : w ∈ v.waiters) :
    (∃ h ∈ v.holders, pinned h) ∨ ∃ b, (b ∈ v.holders ∨ b ∈ v.waiters) ∧ rank b < rank w := by
  by_cases hc : ∃ h ∈ v.holders, Conflict excl h w
  · obtain ⟨h, hh, hconf⟩ := hc
    by_cases hp : pinned h
    · exact Or.inl ⟨h, hh, hp⟩
    · exact Or.inr ⟨h, Or.inl hh, hv.outranks h hh w hw hconf hp⟩
  · -- no conflict with a holder: an exclusive waiter stands in front
    have hshared : ∀ h ∈ v.holders, excl h = false ∧ excl w = false :=
      fun h hh => not_conflict_iff.mp (fun hconf => hc ⟨h, hh, hconf⟩)
    obtain ⟨m, hm, hexcl, rfl | hlt⟩ := hv.exists_front hw (fun h hh => (hshared h hh).1)
    · obtain ⟨h, hh⟩ := hv.exists_holder hw
      rw [(hshared h hh).2] at hexcl
      cases hexcl
    · exact Or.inr ⟨m, Or.inr hm, hlt⟩

theorem WF.mono_pinned (h : ∀ a ∈ v.holders, pinned a → pinned' a) : v.WF excl rank pinned' where
  compatible := hv.compatible
  idle := hv.idle
  sorted := hv.sorted
  outranks := fun a ha w hw hc hp => hv.outranks a ha w hw hc (fun hp' => hp (h a ha hp'))
  sharedFront := hv.sharedFront

/-- The invariant only sees the order of the ranks that occur in the queue. -/
theorem WF.congr_rank {rank' : ρ → ι}
    (h : ∀ a, a ∈ v.holders ∨ a ∈ v.waiters → rank' a = rank a) : v.WF excl rank' pinned where
  compatible := hv.compatible
  idle := hv.idle
  sorted := by
    refine hv.sorted.imp_of_mem ?_
    intro a b ha hb hab
    rw [h a (Or.inr ha), h b (Or.inr hb)]
    exact hab
  outranks := by
    intro a ha w hw hc hp
    rw [h a (Or.inl ha), h w (Or.inr hw)]
    exact hv.outranks a ha w hw hc hp
  sharedFront := hv.sharedFront

end

theorem wf_nil : (⟨[], []⟩ : LockQueue ρ).WF excl rank pinned where
  compatible := List.Pairwise.nil
  idle := fun _ => rfl
  sorted := List.Pairwise.nil
  outranks := fun _ h => absurd h not_mem_nil
  sharedFront := fun _ w h => by simp at h

/-! ## Acquiring -/

open Classical in
/-- The holders a new request takes the lock back from. -/
noncomputable def preempted (excl : ρ → Bool) (rank : ρ → ι) (pinned : ρ → Prop)
    (v : LockQueue ρ) (a : ρ) : List ρ :=
  v.holders.filter (fun h => Conflict excl a h ∧ ¬ pinned h ∧ rank a < rank h)

open Classical in
/-- The holders that stay. -/
noncomputable def kept (excl : ρ → Bool) (rank : ρ → ι) (pinned : ρ → Prop)
    (v : LockQueue ρ) (a : ρ) : List ρ :=
  v.holders.filter (fun h => ¬ (Conflict excl a h ∧ ¬ pinned h ∧ rank a < rank h))

/-- A request gets the lock when no holder that stays and no waiter of smaller
    rank conflicts with it. -/
def Grantable (excl : ρ → Bool) (rank : ρ → ι) (pinned : ρ → Prop)
    (v : LockQueue ρ) (a : ρ) : Prop :=
  (∀ h ∈ kept excl rank pinned v a, ¬ Conflict excl a h) ∧
    ∀ w ∈ v.waiters, Conflict excl a w → rank a < rank w

theorem mem_preempted : h ∈ preempted excl rank pinned v a ↔
    h ∈ v.holders ∧ Conflict excl a h ∧ ¬ pinned h ∧ rank a < rank h := by
  simp [preempted]

theorem mem_kept : h ∈ kept excl rank pinned v a ↔
    h ∈ v.holders ∧ ¬ (Conflict excl a h ∧ ¬ pinned h ∧ rank a < rank h) := by
  simp only [kept, mem_filter, decide_eq_true_eq]

theorem kept_sublist : (kept excl rank pinned v a).Sublist v.holders :=
  filter_sublist

theorem kept_append_preempted_perm (a : ρ) :
    (kept excl rank pinned v a ++ preempted excl rank pinned v a).Perm v.holders := by
  classical
  refine perm_append_comm.trans ?_
  have h := filter_append_perm
    (fun h => decide (Conflict excl a h ∧ ¬ pinned h ∧ rank a < rank h)) v.holders
  simpa only [preempted, kept, decide_not] using h

/-- Reading `preempted` and `kept` off a split of the holders. -/
theorem preempted_perm_of_split {K O : List ρ} (h : v.holders.Perm (K ++ O))
    (hK : ∀ x ∈ K, ¬ (Conflict excl a x ∧ ¬ pinned x ∧ rank a < rank x))
    (hO : ∀ x ∈ O, Conflict excl a x ∧ ¬ pinned x ∧ rank a < rank x) :
    (preempted excl rank pinned v a).Perm O ∧ (kept excl rank pinned v a).Perm K := by
  classical
  constructor
  · refine (h.filter _).trans ?_
    rw [filter_append, filter_eq_nil_iff.mpr (by simpa using hK),
      filter_eq_self.mpr (by simpa using hO)]
    exact List.Perm.refl _
  · refine (h.filter _).trans ?_
    have hnil : O.filter
        (fun x => decide (¬ (Conflict excl a x ∧ ¬ pinned x ∧ rank a < rank x))) = [] := by
      rw [filter_eq_nil_iff]
      intro x hx hdec
      exact of_decide_eq_true hdec (hO x hx)
    rw [filter_append, filter_eq_self.mpr (fun x hx => decide_eq_true (hK x hx)), hnil, append_nil]

section

variable (hno : ∀ x ∈ v.holders, ¬ (Conflict excl a x ∧ ¬ pinned x ∧ rank a < rank x))
include hno

theorem preempted_eq_nil :
    preempted excl rank pinned v a = [] ∧ kept excl rank pinned v a = v.holders := by
  classical
  exact ⟨filter_eq_nil_iff.mpr (by simpa using hno),
    filter_eq_self.mpr (fun x hx => decide_eq_true (hno x hx))⟩

/-- When nobody is preempted, the holders and the waiters in front decide. -/
theorem grantable_iff :
    Grantable excl rank pinned v a ↔ (∀ x ∈ v.holders, ¬ Conflict excl a x) ∧
      ∀ w ∈ v.waiters, Conflict excl a w → rank a < rank w := by
  rw [Grantable, (preempted_eq_nil hno).2]

end

/-- A holder that stays and a holder that leaves do not conflict. -/
theorem WF.not_conflict_kept_preempted (hv : v.WF excl rank pinned) {r : ρ}
    (hh : h ∈ kept excl rank pinned v a) (hr : r ∈ preempted excl rank pinned v a) :
    ¬ Conflict excl h r := by
  have hne : h ≠ r := by
    rintro rfl
    exact (mem_kept.mp hh).2 (mem_preempted.mp hr).2
  exact not_conflict_iff.mpr
    (hv.holders_shared (mem_kept.mp hh).1 (mem_preempted.mp hr).1 hne)

section

variable (hv : v.WF excl rank pinned)
include hv

theorem WF.granted (hg : Grantable excl rank pinned v a)
    (hH : v'.holders.Perm (a :: kept excl rank pinned v a))
    (hW : v'.waiters.Perm (preempted excl rank pinned v a ++ v.waiters))
    (hs : v'.waiters.Pairwise (fun a b => rank a < rank b)) : v'.WF excl rank pinned := by
  have hmemH : ∀ {h}, h ∈ v'.holders → h = a ∨ h ∈ kept excl rank pinned v a :=
    fun hh => mem_cons.mp (hH.mem_iff.mp hh)
  have hmemW : ∀ {w}, w ∈ v'.waiters → w ∈ preempted excl rank pinned v a ∨ w ∈ v.waiters :=
    fun hw => mem_append.mp (hW.mem_iff.mp hw)
  refine ⟨?_, ?_, hs, ?_, ?_⟩
  · refine (hH.pairwise_iff And.symm).mpr (pairwise_cons.mpr ⟨?_, ?_⟩)
    · exact fun h hh => not_conflict_iff.mp (hg.1 h hh)
    · exact hv.compatible.sublist kept_sublist
  · intro hnil
    rw [hnil] at hH
    exact absurd hH.length_eq (by simp)
  · intro h hh w hw hc hp
    rcases hmemH hh with rfl | hk
    · rcases hmemW hw with hr | hw
      · exact (mem_preempted.mp hr).2.2.2
      · exact hg.2 w hw hc
    · rcases hmemW hw with hr | hw
      · exact absurd hc (hv.not_conflict_kept_preempted hk hr)
      · exact hv.outranks h (mem_kept.mp hk).1 w hw hc hp
  · intro hshared m hm
    have ha : excl a = false := hshared a (hH.mem_iff.mpr mem_cons_self)
    have hm' : m ∈ v'.waiters := mem_of_mem_head? hm
    rcases hmemW hm' with hr | hmw
    · -- a preempted holder conflicts with the shared `a`: it is exclusive
      rcases (mem_preempted.mp hr).2.1 with h | h
      · rw [ha] at h; cases h
      · exact h
    · by_cases hall : ∀ h ∈ v.holders, excl h = false
      · -- nothing exclusive was preempted, so the old front is still the front
        obtain ⟨x, hxw, hx, h2⟩ := hv.exists_front hmw hall
        rcases rank_head_le hs hm (hW.mem_iff.mpr (mem_append_right _ hxw)) with rfl | h1
        · exact hx
        · rcases h2 with rfl | h2
          · exact hx
          · exact absurd h1 (lt_asymm h2)
      · -- the single exclusive holder was preempted and now stands in front
        push Not at hall
        obtain ⟨r, hr, hrx⟩ := hall
        have hrx : excl r = true := by simpa using hrx
        have hrp : r ∈ preempted excl rank pinned v a := by
          by_contra hnot
          have hk : r ∈ kept excl rank pinned v a := by
            rw [mem_kept]
            exact ⟨hr, fun h => hnot (mem_preempted.mpr ⟨hr, h⟩)⟩
          exact hg.1 r hk (Or.inr hrx)
        have hrm := hv.outranks r hr m hmw (Or.inl hrx) (mem_preempted.mp hrp).2.2.1
        have h1 := rank_head_le hs hm (hW.mem_iff.mpr (mem_append_left _ hrp))
        rcases h1 with rfl | h1
        · exact hrx
        · exact absurd h1 (lt_asymm hrm)

/-- A refused request still has a holder to wait for. -/
theorem WF.kept_ne_nil (hg : ¬ Grantable excl rank pinned v a) :
    kept excl rank pinned v a ≠ [] := by
  intro hnil
  -- some conflicting waiter ranks above `a`, yet every holder ranks below it
  have hw : ∃ w ∈ v.waiters, Conflict excl a w ∧ ¬ rank a < rank w := by
    by_contra hno
    refine hg ⟨?_, ?_⟩
    · intro h hh
      rw [hnil] at hh
      exact absurd hh not_mem_nil
    · intro w hw hc
      by_contra hlt
      exact hno ⟨w, hw, hc, hlt⟩
  obtain ⟨w, hw, -, hlt⟩ := hw
  obtain ⟨r, hr⟩ := hv.exists_holder hw
  have hall : ∀ h ∈ v.holders, Conflict excl a h ∧ ¬ pinned h ∧ rank a < rank h := by
    intro h hh
    by_contra hno
    have hk : h ∈ kept excl rank pinned v a := mem_kept.mpr ⟨hh, hno⟩
    rw [hnil] at hk
    exact absurd hk not_mem_nil
  obtain ⟨-, hrp, har⟩ := hall r hr
  by_cases hconf : ∃ h ∈ v.holders, Conflict excl h w
  · obtain ⟨h, hh, hc⟩ := hconf
    exact hlt (lt_trans (hall h hh).2.2 (hv.outranks h hh w hw hc (hall h hh).2.1))
  · have hshared : ∀ h ∈ v.holders, excl h = false :=
      fun h hh => (not_conflict_iff.mp (fun hc => hconf ⟨h, hh, hc⟩)).1
    obtain ⟨m, hm, hexcl, hmw⟩ := hv.exists_front hw hshared
    have hrm : rank r < rank m := hv.outranks r hr m hm (Or.inr hexcl) hrp
    rcases hmw with rfl | hmw
    · exact hlt (lt_trans har hrm)
    · exact hlt (lt_trans har (lt_trans hrm hmw))

/-- A request that ranks below everyone waits as soon as someone waits. -/
theorem WF.not_grantable_of_last
    (hlast : ∀ b, b ∈ v.holders ∨ b ∈ v.waiters → rank b < rank a) (hne : v.waiters ≠ []) :
    ¬ Grantable excl rank pinned v a := by
  intro hg
  obtain ⟨w, hw⟩ := exists_mem_of_ne_nil _ hne
  rw [grantable_iff (fun x hx h => absurd h.2.2 (lt_asymm (hlast x (Or.inl hx))))] at hg
  have hshared : ∀ h ∈ v.holders, excl h = false :=
    fun h hh => (not_conflict_iff.mp (hg.1 h hh)).2
  obtain ⟨m, hm, hexcl, -⟩ := hv.exists_front hw hshared
  exact lt_asymm (hlast m (Or.inr hm)) (hg.2 m hm (Or.inr hexcl))

/-- A refused request, queued by rank behind the holders that stay, keeps the invariant. -/
theorem WF.denied (hfresh : ∀ b, b ∈ v.holders ∨ b ∈ v.waiters → rank a ≠ rank b)
    (hg : ¬ Grantable excl rank pinned v a) (hH : v'.holders.Perm (kept excl rank pinned v a))
    (hW : v'.waiters.Perm (a :: (preempted excl rank pinned v a ++ v.waiters)))
    (hs : v'.waiters.Pairwise (fun a b => rank a < rank b)) : v'.WF excl rank pinned := by
  have hmemW : ∀ {w}, w ∈ v'.waiters →
      w = a ∨ w ∈ preempted excl rank pinned v a ∨ w ∈ v.waiters := by
    intro w hw
    rcases mem_cons.mp (hW.mem_iff.mp hw) with h | h
    · exact Or.inl h
    · exact Or.inr (mem_append.mp h)
  refine ⟨?_, ?_, hs, ?_, ?_⟩
  · exact (hH.pairwise_iff And.symm).mpr (hv.compatible.sublist kept_sublist)
  · intro hnil
    rw [hnil] at hH
    exact absurd hH.symm.eq_nil (hv.kept_ne_nil hg)
  · intro h hh w hw hc hp
    have hk := hH.mem_iff.mp hh
    obtain ⟨hhold, hstay⟩ := mem_kept.mp hk
    rcases hmemW hw with rfl | hr | hw
    · have hle : ¬ rank w < rank h := fun hlt => hstay ⟨hc.symm, hp, hlt⟩
      exact lt_of_le_of_ne (not_lt.mp hle) (hfresh h (Or.inl hhold)).symm
    · exact absurd hc (hv.not_conflict_kept_preempted hk hr)
    · exact hv.outranks h hhold w hw hc hp
  · intro hshared m hm
    have hm' : m ∈ v'.waiters := mem_of_mem_head? hm
    have hshared' : ∀ h ∈ kept excl rank pinned v a, excl h = false :=
      fun h hh => hshared h (hH.mem_iff.mpr hh)
    have haw : a ∈ v'.waiters := hW.mem_iff.mpr mem_cons_self
    rcases hmemW hm' with rfl | hr | hmw
    · -- `a` is in front: were it shared, a smaller-ranked waiter would be
      by_contra hax
      have hax : excl m = false := by simpa using hax
      refine hg ⟨fun h hh => not_conflict_iff.mpr ⟨hax, hshared' h hh⟩, ?_⟩
      intro w hw hc
      have hwin : w ∈ v'.waiters :=
        hW.mem_iff.mpr (mem_cons_of_mem _ (mem_append_right _ hw))
      rcases rank_head_le hs hm hwin with rfl | h
      · exact absurd rfl (hfresh m (Or.inr hw))
      · exact h
    · -- a preempted holder ranks below `a`, so it is not in front
      have hlt := (mem_preempted.mp hr).2.2.2
      rcases rank_head_le hs hm haw with rfl | h
      · exact absurd hlt (lt_irrefl _)
      · exact absurd h (lt_asymm hlt)
    · have hall : ∀ h ∈ v.holders, excl h = false := by
        intro h hh
        by_cases hk : h ∈ kept excl rank pinned v a
        · exact hshared' h hk
        · obtain ⟨k, hk'⟩ := exists_mem_of_ne_nil _ (hv.kept_ne_nil hg)
          have hne : h ≠ k := by
            rintro rfl
            exact hk hk'
          exact (hv.holders_shared hh (mem_kept.mp hk').1 hne).1
      obtain ⟨x, hxw, hx, h2⟩ := hv.exists_front hmw hall
      have hxin : x ∈ v'.waiters := hW.mem_iff.mpr (mem_cons_of_mem _ (mem_append_right _ hxw))
      rcases rank_head_le hs hm hxin with rfl | h1
      · exact hx
      · rcases h2 with rfl | h2
        · exact hx
        · exact absurd h1 (lt_asymm h2)

/-! ## Releasing -/

theorem WF.release (hH : v.holders.Perm (a :: v'.holders))
    (hW : v'.waiters = v.waiters) (hne : v'.holders ≠ []) : v'.WF excl rank pinned := by
  have hpair := (hH.pairwise_iff And.symm).mp hv.compatible
  obtain ⟨ha, hrest⟩ := pairwise_cons.mp hpair
  have hmem : ∀ {h}, h ∈ v'.holders → h ∈ v.holders :=
    fun hh => hH.mem_iff.mpr (mem_cons_of_mem _ hh)
  refine ⟨hrest, fun h => absurd h hne, ?_, ?_, ?_⟩
  · rw [hW]; exact hv.sorted
  · intro h hh w hw hc hp
    rw [hW] at hw
    exact hv.outranks h (hmem hh) w hw hc hp
  · intro hshared
    rw [hW]
    refine hv.sharedFront ?_
    intro h hh
    rcases mem_cons.mp (hH.mem_iff.mp hh) with rfl | hh
    · obtain ⟨k, hk⟩ := exists_mem_of_ne_nil _ hne
      exact (ha k hk).1
    · exact hshared h hh

end

/-- Hand a free lock to the first waiter; a shared one brings the shared
    waiters right behind it along. -/
def promote (excl : ρ → Bool) : List ρ → LockQueue ρ
  | [] => ⟨[], []⟩
  | w :: ws =>
    if excl w then ⟨[w], ws⟩
    else ⟨(w :: ws).takeWhile (fun x => !excl x), (w :: ws).dropWhile (fun x => !excl x)⟩

theorem promote_excl (ws : List ρ) (hw : excl w = true) :
    promote excl (w :: ws) = ⟨[w], ws⟩ := by
  simp [promote, hw]

theorem promote_shared (ws : List ρ) (hw : excl w = false) :
    promote excl (w :: ws) =
      ⟨w :: ws.takeWhile (fun x => !excl x), ws.dropWhile (fun x => !excl x)⟩ := by
  simp [promote, hw]

theorem promote_append (excl : ρ → Bool) (ws : List ρ) :
    (promote excl ws).holders ++ (promote excl ws).waiters = ws := by
  cases ws with
  | nil => rfl
  | cons w ws =>
    cases hw : excl w with
    | true => rw [promote_excl ws hw]; rfl
    | false => rw [promote_shared ws hw]; simp

/-- Promotion establishes the invariant, whatever is pinned. -/
theorem wf_promote (hs : ws.Pairwise (fun a b => rank a < rank b)) :
    (promote excl ws).WF excl rank pinned := by
  have happ := hs
  rw [← promote_append excl ws] at happ
  obtain ⟨-, hsW, hlt⟩ := pairwise_append.mp happ
  cases ws with
  | nil => exact wf_nil
  | cons w ws =>
    cases hw : excl w with
    | true =>
      rw [promote_excl ws hw] at hsW hlt ⊢
      refine ⟨pairwise_singleton _ _, fun h => (cons_ne_nil _ _ h).elim, hsW,
        fun h hh x hx _ _ => hlt h hh x hx, ?_⟩
      intro hshared
      have := hshared w mem_cons_self
      rw [hw] at this
      cases this
    | false =>
      rw [promote_shared ws hw] at hsW hlt ⊢
      refine ⟨?_, fun h => (cons_ne_nil _ _ h).elim, hsW,
        fun h hh x hx _ _ => hlt h hh x hx, ?_⟩
      · have hall : ∀ x ∈ w :: ws.takeWhile (fun x => !excl x), excl x = false := by
          intro x hx
          rcases mem_cons.mp hx with rfl | hx
          · exact hw
          · simpa using mem_takeWhile_imp hx
        exact pairwise_of_forall_mem_list (fun x hx y hy => ⟨hall x hx, hall y hy⟩)
      · intro _ m hm
        have hfirst := head?_dropWhile_not (fun x => !excl x) ws
        rw [Option.mem_def.mp hm] at hfirst
        simpa using hfirst

/-! ## Progress over many queues -/

/-- If every task is unblocked or waits for a task that is unblocked or ranks
    below it, then some task is unblocked. -/
theorem exists_unblocked {τ : Type _} [WellFoundedLT ι] {order : τ → ι} {unblocked : τ → Prop}
    {tasks : List τ} (hne : tasks ≠ [])
    (h : ∀ t ∈ tasks, unblocked t ∨ ∃ t' ∈ tasks, unblocked t' ∨ order t' < order t) :
    ∃ t ∈ tasks, unblocked t := by
  obtain ⟨t₀, ht₀⟩ := exists_mem_of_ne_nil _ hne
  -- strong induction on the rank of the task we start from
  have key : ∀ r : ι, ∀ t ∈ tasks, order t = r → ∃ t' ∈ tasks, unblocked t' := by
    intro r
    induction r using WellFoundedLT.induction with
    | ind r ih =>
      intro t ht hr
      rcases h t ht with hu | ⟨t', ht', hu | hlt⟩
      · exact ⟨t, ht, hu⟩
      · exact ⟨t', ht', hu⟩
      · exact ih (order t') (hr ▸ hlt) t' ht' rfl
  exact key (order t₀) t₀ ht₀ rfl

end LockQueue

end Agave.Lib

