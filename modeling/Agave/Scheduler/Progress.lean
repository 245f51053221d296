/-
  Agave.Scheduler.Progress

  Deadlock freedom, and what follows from it: the machine can always be drained.

  The argument is global.  In its queue a blocked task waits for one that ranks
  before it, by arrival or by priority, or for one that can run already; ranks
  are well-founded, so some active task can run.
-/

import Agave.Scheduler.Run

namespace Agave.Scheduler

open Agave.Lib Agave.Lib.LockQueue List SchedulingStateMachine

variable {cap : Capability} {maxRunning maxUnique : Option Nat} {s : System}

/-- The rank of a task, by which its usages are ranked. -/
def taskRank (cap : Capability) (accepted : List Task) (t : Task) : Nat :=
  rankOf cap accepted (.readonly, t)

theorem rankOf_eq_taskRank (cap : Capability) (accepted : List Task) (u : RequestedUsage) (t : Task) :
    rankOf cap accepted (u, t) = taskRank cap accepted t := by
  cases cap <;> rfl

theorem Inv.exists_runnable (h : Inv cap s) (hne : s.active ≠ []) : s.runnable ≠ [] := by
  have hwait : ∀ t ∈ s.active, t ∈ s.runnable ∨ ∃ t' ∈ s.active, t' ∈ s.runnable ∨
      taskRank cap s.accepted t' < taskRank cap s.accepted t := by
    intro t ht
    by_cases hz : s.count t = 0
    · exact Or.inl ((h.mem_runnable t).mpr ⟨ht, hz⟩)
    · obtain ⟨t', ht', hpin | ⟨u, u', hlt⟩⟩ := h.cells.exists_blocker h.active_wf ht hz
      · obtain ⟨u, -, hrun⟩ := hpin
        exact Or.inr ⟨t', ht', Or.inl hrun⟩
      · rw [rankOf_eq_taskRank, rankOf_eq_taskRank] at hlt
        exact Or.inr ⟨t', ht', Or.inr hlt⟩
  obtain ⟨t, -, hrun⟩ := exists_unblocked hne hwait
  exact ne_nil_of_mem hrun

theorem Inv.running_eq_nil (h : Inv cap s) (hnone : s.machine.hasNoRunningTask = true) :
    s.running = [] := by
  have hzero := ShortCounter.isZero_iff.mp hnone
  rw [h.runningCount] at hzero
  exact eq_nil_of_length_eq_zero hzero

/-- No deadlock: with active tasks and none running, some task waits to be handed out. -/
theorem Inv.queue_ne_nil (h : Inv cap s) (hactive : s.active ≠ []) (hrunning : s.running = []) :
    s.machine.unblockedTaskQueue ≠ [] := by
  intro hq
  apply h.exists_runnable hactive
  rw [System.runnable, hrunning, hq]
  rfl

/-! ## Draining -/

/-- How the clearing loop can stop early: one of the two counters it raises is
    too small for the tasks left. -/
def ClearOverflow (s : System) (e : Panic) : Prop :=
  e = .counterOverflow ∧
    (2 ^ 32 ≤ s.machine.handledTaskCount.current + s.active.length ∨
      2 ^ 32 ≤ s.machine.unblockedTaskCount.current + s.active.length)

/-- Handing out a task of an idle machine that has active ones. -/
theorem handOut_returns (h : Inv cap s) (hrunning : s.running = [])
    (hmax : 0 < s.machine.maxRunningTaskCount) (hne : s.active ≠ []) :
    Returns
      (fun e => e = .counterOverflow ∧ 2 ^ 32 ≤ s.machine.unblockedTaskCount.current + 1)
      (fun r => ∃ task s₁, r = (some task, s₁.machine) ∧ Inv cap s₁ ∧ s₁.running = [task] ∧
        s₁.active = s.active ∧ s₁.machine.handledTaskCount = s.machine.handledTaskCount ∧
        s₁.machine.unblockedTaskCount.current ≤ s.machine.unblockedTaskCount.current + 1 ∧
        s₁.machine.maxRunningTaskCount = s.machine.maxRunningTaskCount)
      s.machine.scheduleNextUnblockedTask := by
  refine (scheduleNextUnblockedTask_returns h).mono ?_
  rintro ⟨task?, m⟩ hr
  cases task? with
  | none =>
    rcases hr.idle rfl with hfalse | hq
    · have hrc := h.runningCount
      rw [hrunning, length_nil] at hrc
      simp only [isTaskRunnable, hrc, decide_eq_false_iff_not] at hfalse
      exact absurd hmax hfalse
    · exact absurd hq (h.queue_ne_nil hne hrunning)
  | some task =>
    have hnd : task ∉ s.descheduled := by
      intro hd
      have hret := (nodup_append.mp hr.inv.returned_nodup).2.2
      exact hret task (h.descheduled_sub task hd) task mem_cons_self rfl
    refine ⟨task, _, rfl, hr.inv, ?_, rfl, hr.handled, hr.unblocked, hr.maxRunning⟩
    show System.running { s with machine := m, returned := s.returned ++ [task] } = [task]
    rw [running_returned hnd, hrunning]
    rfl

theorem finish_returns (h : Inv cap s) {task : Task} (hrunning : s.running = [task]) :
    Returns
      (fun e => e = .counterOverflow ∧ 2 ^ 32 ≤ s.machine.handledTaskCount.current + 1)
      (fun m => ∃ s', s'.machine = m ∧ Inv cap s' ∧ s'.running = [] ∧
        s.active.Perm (task :: s'.active) ∧
        m.handledTaskCount.current = s.machine.handledTaskCount.current + 1 ∧
        m.unblockedTaskCount = s.machine.unblockedTaskCount ∧
        m.maxRunningTaskCount = s.machine.maxRunningTaskCount)
      (s.machine.descheduleTask task) := by
  have hmem : task ∈ s.running := by
    rw [hrunning]
    exact mem_singleton_self _
  refine (descheduleTask_returns h hmem).mono ?_
  rintro m ⟨⟨hinv, -⟩, hhandled, hunblocked, hmax⟩
  refine ⟨_, rfl, hinv, ?_, ?_, hhandled, hunblocked, hmax⟩
  · rw [running_descheduled, hrunning]
    simp
  · rw [active_descheduled]
    exact perm_cons_filter_ne_self (nodup_of_wellFormed h.active_wf) (h.running_active hmem)

/-- The loop of `clear_and_reinitialize`: it hands out and deschedules every
    active task exactly once.  By induction on the number of active tasks. -/
theorem clearLoop_returns {n : Nat} :
    ∀ {s : System} {bound : Nat} {count : ShortCounter}, Inv cap s → s.running = [] →
      0 < s.machine.maxRunningTaskCount → s.active.length = n → n < bound →
      count.current + n < 2 ^ 32 →
      Returns (ClearOverflow s)
        (fun r => r.1.current = count.current + n ∧ r.2.1.Perm s.active ∧
          ∃ s', s'.machine = r.2.2 ∧ Inv cap s' ∧ s'.active = [])
        (clearLoop bound count s.machine) := by
  induction n with
  | zero =>
    intro s bound count h hrunning hmax hlen hbound hcount
    have hidle : s.active = [] := eq_nil_of_length_eq_zero hlen
    obtain ⟨bound, rfl⟩ := Nat.exists_eq_succ_of_ne_zero (Nat.ne_of_gt hbound)
    have hq : s.machine.unblockedTaskQueue = [] := by
      have hle := h.runnable_length_le
      exact eq_nil_of_length_eq_zero (by omega)
    have hnext : s.machine.scheduleNextUnblockedTask = .ok (none, s.machine) := by
      unfold scheduleNextUnblockedTask
      rw [hq]
      exact ite_self _
    simp only [clearLoop, hnext, ok_bind, Returns.pure_iff]
    exact ⟨rfl, by rw [hidle], s, rfl, h, hidle⟩
  | succ n ih =>
    intro s bound count h hrunning hmax hlen hbound hcount
    obtain ⟨bound, rfl⟩ := Nat.exists_eq_succ_of_ne_zero (Nat.ne_of_gt (Nat.zero_lt_of_lt hbound))
    have hne : s.active ≠ [] := by
      intro hnil
      rw [hnil] at hlen
      cases hlen
    simp only [clearLoop]
    refine ((handOut_returns h hrunning hmax hne).weaken ?_).bind ?_
    · rintro e ⟨he, hfull⟩
      exact ⟨he, Or.inr (by omega)⟩
    rintro r ⟨task, s₁, rfl, h₁, hrunning₁, hactive₁, hhandled₁, hunblocked₁, hmax₁⟩
    refine ((finish_returns h₁ hrunning₁).weaken ?_).bind ?_
    · rintro e ⟨he, hfull⟩
      rw [hhandled₁] at hfull
      exact ⟨he, Or.inl (by omega)⟩
    rintro m ⟨s₂, rfl, h₂, hrunning₂, hperm, hhandled₂, hunblocked₂, hmax₂⟩
    rw [hactive₁] at hperm
    have hlen₂ : s₂.active.length = n := by
      have := hperm.length_eq
      rw [length_cons] at this
      omega
    refine (count.increment_returns_or_full.weaken (fun e he => absurd he.2 (by omega))).bind ?_
    intro count' hcount'
    have hmax' : 0 < s₂.machine.maxRunningTaskCount := by
      rw [hmax₂, hmax₁]
      exact hmax
    have hrest := @ih s₂ bound count' h₂ hrunning₂ hmax' hlen₂ (by omega) (by omega)
    refine (hrest.weaken ?_).bind ?_
    · rintro e ⟨he, hfull⟩
      refine ⟨he, ?_⟩
      rw [hhandled₂, hunblocked₂, hhandled₁, hlen₂] at hfull
      omega
    · rintro ⟨count'', cleared, m'⟩ ⟨hc, hcleared, hdone⟩
      refine ⟨?_, (hcleared.cons task).trans hperm.symm, hdone⟩
      show count''.current = _
      have hc : count''.current = count'.current + n := hc
      omega

theorem Inv.active_room (h : Inv cap s) :
    ShortCounter.zero.current + s.active.length < 2 ^ 32 := by
  have hlt := s.machine.activeTaskCount.isLt
  rw [h.activeCount] at hlt
  rwa [ShortCounter.current_zero, Nat.zero_add]

/-- `clear_and_reinitialize` on a machine with no running task: it returns, and
    returns the number of active tasks. -/
theorem clearAndReinitialize_returns (h : Inv cap s) (hrunning : s.running = [])
    (hmax : 0 < s.machine.maxRunningTaskCount) {bound : Nat} (hbound : s.active.length < bound) :
    Returns (ClearOverflow s) (fun r => r.1 = s.active.length) <|
      clearAndReinitialize s.machine bound := by
  unfold clearAndReinitialize
  refine (clearLoop_returns h hrunning hmax rfl hbound h.active_room).bind ?_
  rintro ⟨count, cleared, m⟩ ⟨hcount, -, s', rfl, hinv', hidle⟩
  refine (reinitialize_returns hinv' hidle (ClearOverflow s)).bind ?_
  intro m' _
  show count.current = s.active.length
  rwa [ShortCounter.current_zero, Nat.zero_add] at hcount

/-- Deadlock freedom.  In every reachable state of a machine that may run tasks: if there are active
    tasks and none is running, the unblocked queue is not empty; if none is running and none is
    handed out, every accepted task has been descheduled exactly once; from a state without running
    tasks, handing out and descheduling goes through every active task exactly once, and
    `clear_and_reinitialize` returns their number.  Its asserts hold, and it returns whenever the
    counters of handled and of unblocked tasks have room for the active tasks. -/
theorem deadlock_free (h : Reachable cap maxRunning maxUnique s)
    (hmax : 0 < s.machine.maxRunningTaskCount) :
    (s.machine.activeTaskCount.current ≠ 0 → s.machine.hasNoRunningTask = true →
      s.machine.unblockedTaskQueue ≠ []) ∧
    (s.machine.hasNoRunningTask = true → ∀ m, s.machine.scheduleNextUnblockedTask = .ok (none, m) →
        s.accepted.Nodup ∧ s.descheduled.Perm s.accepted) ∧
    (s.machine.hasNoRunningTask = true → ∀ bound > s.active.length,
      Returns (ClearOverflow s) (fun r => r.2.1.Perm s.active)
        (clearLoop bound .zero s.machine) ∧
      (Returns (ClearOverflow s) (fun r => r.1 = s.machine.activeTaskCount.current) <|
        clearAndReinitialize s.machine bound)) := by
  have hinv := h.inv
  refine ⟨?_, ?_, ?_⟩
  · intro hactive hnone
    refine hinv.queue_ne_nil ?_ (hinv.running_eq_nil hnone)
    intro hnil
    rw [hinv.activeCount, hnil] at hactive
    exact hactive rfl
  · intro hnone m hnext
    refine ⟨nodup_of_wellFormed hinv.wf, hinv.descheduled_perm ?_⟩
    by_contra hne
    obtain ⟨task, s₁, heq, -⟩ :=
      (handOut_returns hinv (hinv.running_eq_nil hnone) hmax hne).of_ok hnext
    cases heq
  · intro hnone bound hbound
    have hrunning := hinv.running_eq_nil hnone
    refine ⟨?_, ?_⟩
    · exact (clearLoop_returns hinv hrunning hmax rfl hbound hinv.active_room).mono
        (fun r hr => hr.2.1)
    · rw [hinv.activeCount]
      exact clearAndReinitialize_returns hinv hrunning hmax hbound

/-- Two conflicting tasks that were buffered, none running. -/
def twoBuffered : System :=
  (System.new .priorityQueueing none none).run [
    .scheduleOrBufferTask (Task.ofNats 4 [(7, .writable), (8, .readonly)]) true,
    .scheduleOrBufferTask (Task.ofNats 2 [(8, .writable), (7, .writable)]) true]

theorem deadlock_free_twoBuffered :
    twoBuffered.machine.activeTaskCount.current = 2 ∧
      twoBuffered.machine.hasNoRunningTask = true ∧
      twoBuffered.machine.unblockedTaskQueue ≠ [] := by
  have hreach : Reachable .priorityQueueing none none twoBuffered := Reachable.run _ Reachable.new
  have hnone : twoBuffered.machine.hasNoRunningTask = true := by decide
  exact ⟨by decide, hnone, (deadlock_free hreach (by decide)).1 (by decide) hnone⟩

end Agave.Scheduler

