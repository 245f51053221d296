/-
  Agave.Scheduler.Safety

  What holds in every state of the scheduler: tasks that may run side by side do not conflict, the
  queues and counts record exactly the requests of the active tasks, and no correct call panics.
-/

import Agave.Scheduler.Run

namespace Agave.Scheduler

open Agave.Lib Agave.Lib.LockQueue

variable {cap : Capability} {maxRunning maxUnique : Option Nat} {s : System}

/-! ## Mutual exclusion -/

theorem runnable_pairwise_not_conflict (h : Reachable cap maxRunning maxUnique s) :
    s.runnable.Pairwise (fun t t' => ¬ t.Conflict t') := by
  have hinv := h.inv
  have hcompat : ∀ t ∈ s.runnable, ∀ t' ∈ s.runnable, t ≠ t' → ¬ t.Conflict t' := by
    intro t ht t' ht' hne
    obtain ⟨hactive, hz⟩ := (hinv.mem_runnable t).mp ht
    obtain ⟨hactive', hz'⟩ := (hinv.mem_runnable t').mp ht'
    exact hinv.cells.not_conflict hinv.active_wf hactive hactive' hne hz hz'
  exact hinv.runnable_nodup.imp_of_mem (fun ht ht' hne => hcompat _ ht _ ht' hne)

/-- Two writers of different addresses run beside a blocked reader. -/
def twoWriters (cap : Capability) : System :=
  (System.new cap none none).run [
    .scheduleOrBufferTask (Task.ofNats 0 [(7, .writable)]) false,
    .scheduleOrBufferTask (Task.ofNats 1 [(7, .readonly)]) false,
    .scheduleOrBufferTask (Task.ofNats 2 [(8, .writable)]) true]

theorem reachable_twoWriters (cap : Capability) : Reachable cap none none (twoWriters cap) :=
  Reachable.run _ Reachable.new

theorem runnable_pairwise_not_conflict_twoWriters :
    (twoWriters .priorityQueueing).runnable =
        [Task.ofNats 0 [(7, .writable)], Task.ofNats 2 [(8, .writable)]] ∧
      (twoWriters .priorityQueueing).runnable.Pairwise (fun t t' => ¬ t.Conflict t') :=
  ⟨by decide, runnable_pairwise_not_conflict (reachable_twoWriters _)⟩

/-! ## Bookkeeping -/

/-- The usages of the queue of `x` are the requests the active tasks make of it, each once. -/
theorem Inv.usages_exact (h : Inv cap s) (x : Pubkey) :
    ∃ current, (s.machine.cells.usageQueues x).HeldBy current ∧
      (current ++ (s.machine.cells.usageQueues x).blockedUsages).Perm (requests s.active x) := by
  obtain ⟨v, hq, hperm⟩ := h.cells.queues x
  refine ⟨v.holders, hq.represents.holders, ?_⟩
  rw [hq.represents.waiters]
  exact hperm

theorem Inv.queues_new (h : Inv cap s) (hidle : s.machine.hasNoActiveTask = true) (x : Pubkey) :
    s.machine.cells.usageQueues x = UsageQueueInner.new cap := by
  have hnil : s.active = [] := by
    have hzero := ShortCounter.isZero_iff.mp hidle
    rw [h.activeCount] at hzero
    exact List.eq_nil_of_length_eq_zero hzero
  obtain ⟨v, hq, hperm⟩ := h.cells.queues x
  rw [hnil] at hperm
  exact hq.eq_new hperm.eq_nil

/-- Bookkeeping.  In every reachable state: the queue of each address holds the request of each
    active task that uses it exactly once, and nothing else; an active task that is not runnable has
    as many blocked usages as its count says, and at least one; a correct call panics only if a
    counter overflows; and an idle machine has all its usage queues back in their initial state. -/
theorem bookkeeping (h : Reachable cap maxRunning maxUnique s) :
    (∀ x, ∃ current, (s.machine.cells.usageQueues x).HeldBy current ∧
      (∀ t ∈ s.active, x ∈ t.addresses →
        (taskIds (current ++ (s.machine.cells.usageQueues x).blockedUsages)).count t.taskId = 1) ∧
      (∀ u ∈ current ++ (s.machine.cells.usageQueues x).blockedUsages,
        u.2 ∈ s.active ∧ ⟨x, u.1⟩ ∈ u.2.lockContexts)) ∧
    (∀ t ∈ s.active, t ∉ s.runnable →
      s.count t = blockedCount s.machine.cells.usageQueues t ∧ s.count t ≠ 0) ∧
    (∀ c : Call, c.Correct s → ∀ e, s.apply c = .error e → e = .counterOverflow) ∧
    (s.machine.hasNoActiveTask = true →
      ∀ x, s.machine.cells.usageQueues x = UsageQueueInner.new cap) := by
  have hinv := h.inv
  refine ⟨?_, ?_, ?_, ?_⟩
  · intro x
    obtain ⟨current, hheld, hperm⟩ := hinv.usages_exact x
    refine ⟨current, hheld, ?_, ?_⟩
    · intro t ht hx
      obtain ⟨c, hc, rfl⟩ := List.mem_map.mp hx
      have hreq : ((c.requestedUsage, t) : UsageFromTask) ∈ requests s.active c.usageQueue :=
        mem_requests.mpr ⟨ht, hc⟩
      have hids := hperm.map (fun u : UsageFromTask => u.2.taskId)
      rw [taskIds, hids.count_eq]
      exact List.count_eq_one_of_mem (nodup_requests hinv.active_wf _) (mem_taskIds hreq)
    · intro u hu
      exact mem_requests.mp (hperm.mem_iff.mp hu)
  · intro t ht hnot
    refine ⟨hinv.cells.counts t ht, ?_⟩
    intro hz
    exact hnot ((hinv.mem_runnable t).mpr ⟨ht, hz⟩)
  · intro c hc e he
    exact (inv_call hinv hc).of_error he
  · exact hinv.queues_new

/-- A task that is only to be buffered is never returned. -/
theorem scheduleOrBufferTask_forced (m : SchedulingStateMachine) (t : Task) :
    Returns (fun _ => True) (fun r => r.1 = none) (m.scheduleOrBufferTask t true) := by
  unfold SchedulingStateMachine.scheduleOrBufferTask
  refine (Returns.trivial _).bind ?_
  intro total _
  simp only
  split
  · exact (Returns.trivial _).bind (fun _ _ => rfl)
  · unfold SchedulingStateMachine.scheduleAdmitted
    refine (Returns.trivial _).bind (fun activeCount _ => ?_)
    refine (Returns.trivial _).bind (fun r _ => ?_)
    obtain ⟨locked, cells⟩ := r
    cases locked with
    | none => exact rfl
    | some t =>
      simp only [Bool.or_true, if_true]
      exact (Returns.trivial _).bind (fun _ _ => rfl)

/-- `buffer_task` in any state: its own assert holds as well, and it hands no task out. -/
theorem bufferTask_returns (h : Reachable cap maxRunning maxUnique s) {t : Task}
    (hc : (Call.scheduleOrBufferTask t true).Correct s) :
    Returns (· = .counterOverflow) (fun m => s.machine.scheduleOrBufferTask t true = .ok (none, m))
      (s.machine.bufferTask t) := by
  have hforced := scheduleOrBufferTask_forced s.machine t
  have hsched := scheduleOrBufferTask_returns h.inv hc.1 hc.2 true
  unfold SchedulingStateMachine.bufferTask
  cases hr : s.machine.scheduleOrBufferTask t true with
  | error e => exact hsched.of_error hr
  | ok r =>
    obtain ⟨task?, m⟩ := r
    have hnone : task? = none := hforced.of_ok hr
    subst hnone
    exact rfl

theorem bufferTask_returns_twoWriters :
    ((twoWriters .fifoQueueing).machine.bufferTask (Task.ofNats 3 [(9, .writable)])).toBool = true ∧
      Returns (· = .counterOverflow)
        (fun m => (twoWriters .fifoQueueing).machine.scheduleOrBufferTask
          (Task.ofNats 3 [(9, .writable)]) true = .ok (none, m))
        ((twoWriters .fifoQueueing).machine.bufferTask (Task.ofNats 3 [(9, .writable)])) :=
  ⟨by decide, bufferTask_returns (reachable_twoWriters _) (by decide)⟩

theorem bookkeeping_twoWriters :
    ∃ t ∈ (twoWriters .fifoQueueing).active, t ∉ (twoWriters .fifoQueueing).runnable ∧
      (twoWriters .fifoQueueing).count t =
        blockedCount (twoWriters .fifoQueueing).machine.cells.usageQueues t := by
  have hactive : Task.ofNats 1 [(7, .readonly)] ∈ (twoWriters .fifoQueueing).active := by decide
  have hnot : Task.ofNats 1 [(7, .readonly)] ∉ (twoWriters .fifoQueueing).runnable := by decide
  exact ⟨_, hactive, hnot,
    ((bookkeeping (reachable_twoWriters .fifoQueueing)).2.1 _ hactive hnot).1⟩

end Agave.Scheduler
