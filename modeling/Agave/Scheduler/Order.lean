/-
  Agave.Scheduler.Order

  The order in which conflicting tasks run.

  With fifo queueing it is the order of arrival: whatever the caller does, the
  run is conflict-equivalent to executing the accepted tasks one by one.  With
  priority queueing a task becomes runnable only ahead of every active task of
  lower priority it conflicts with, and then stays runnable.
-/

import Agave.Lib.Serial
import Agave.Scheduler.Run

namespace Agave.Scheduler

open Agave.Lib Agave.Lib.LockQueue List

variable {maxRunning maxUnique : Option Nat} {s s' : System}

/-! ## Fifo: the order of arrival -/

/-- A runnable task arrived before every active task it conflicts with. -/
theorem Inv.runnable_first (h : Inv .fifoQueueing s) {a b : Task} (hb : b ∈ s.runnable)
    (ha : a ∈ s.active) (hconf : a.Conflict b) : ¬ Precedes s.accepted a b := by
  intro hprec
  have hnd : s.accepted.Nodup := nodup_of_wellFormed h.wf
  obtain ⟨hactive, hz⟩ := (h.mem_runnable b).mp hb
  have hne : b ≠ a := (hprec.ne hnd).symm
  obtain ⟨u, u', hlt⟩ := h.cells.outranks h.active_wf hactive ha hne hz
    (fun u hp => by cases hp.1) hconf.symm
  have hidx := (hprec.map Task.taskId).idxOf_lt h.wf.ids
  exact lt_asymm hlt hidx

/-- What a call adds to the history of accepted and descheduled tasks. -/
def AddsHistory (s s' : System) : Call → Prop
  | .scheduleOrBufferTask t _ =>
    (s'.accepted = s.accepted ∨ s'.accepted = s.accepted ++ [t]) ∧
      s'.descheduled = s.descheduled
  | .scheduleNextUnblockedTask => s'.accepted = s.accepted ∧ s'.descheduled = s.descheduled
  | .descheduleTask t => s'.accepted = s.accepted ∧ s'.descheduled = s.descheduled ++ [t]
  | Call.reinitialize => s'.accepted = [] ∧ s'.descheduled = []

theorem apply_addsHistory (s : System) (c : Call) :
    Returns (fun _ => True) (fun s' => AddsHistory s s' c) (s.apply c) := by
  cases c with
  | scheduleOrBufferTask t force =>
    refine (Returns.trivial _).bind (fun r _ => ⟨?_, rfl⟩)
    cases s.machine.accepts t with
    | true => exact Or.inr rfl
    | false => exact Or.inl rfl
  | scheduleNextUnblockedTask => exact (Returns.trivial _).bind (fun r _ => ⟨rfl, rfl⟩)
  | descheduleTask t => exact (Returns.trivial _).bind (fun m _ => ⟨rfl, rfl⟩)
  | reinitialize => exact (Returns.trivial _).bind (fun m _ => ⟨rfl, rfl⟩)

/-- Conflicting tasks are descheduled in the order of their arrival. -/
def DeschedulesInOrder (s : System) : Prop :=
  ∀ a b, a.Conflict b → Precedes s.accepted a b → b ∈ s.descheduled → Precedes s.descheduled a b

/-- One call keeps the order.  Only `deschedule_task` adds a task at the end, and
    that task ran, so the conflicting ones before it are gone. -/
theorem DeschedulesInOrder.call (h : Inv .fifoQueueing s) (hord : DeschedulesInOrder s) {c : Call}
    (hc : c.Correct s) (hstep : s.apply c = .ok s') : DeschedulesInOrder s' := by
  have hadds := (apply_addsHistory s c).of_ok hstep
  intro a b hconf hprec hb
  cases c with
  | scheduleOrBufferTask t force =>
    obtain ⟨haccepted, hdes⟩ := hadds
    rw [hdes] at hb ⊢
    refine hord a b hconf ?_ hb
    rcases haccepted with heq | heq
    · rw [heq] at hprec
      exact hprec
    · rw [heq] at hprec
      rcases hprec.of_append_singleton with hold | rfl
      · exact hold
      · exact absurd hb (h.fresh hc.2).2.2
  | scheduleNextUnblockedTask =>
    obtain ⟨haccepted, hdes⟩ := hadds
    rw [haccepted] at hprec
    rw [hdes] at hb ⊢
    exact hord a b hconf hprec hb
  | descheduleTask t =>
    obtain ⟨haccepted, hdes⟩ := hadds
    rw [haccepted] at hprec
    rw [hdes] at hb ⊢
    rcases mem_append.mp hb with hb | hb
    · exact (hord a b hconf hprec hb).append_right _
    · have hbt : b = t := mem_singleton.mp hb
      subst hbt
      refine Precedes.of_mem_append ?_ (mem_singleton_self b)
      by_contra hnot
      have hactive : a ∈ s.active := mem_active.mpr ⟨hprec.mem_left, hnot⟩
      exact h.runnable_first (mem_append_left _ hc) hactive hconf hprec
  | reinitialize =>
    rw [hadds.1] at hprec
    exact absurd hprec.mem_left not_mem_nil

theorem Reachable.deschedulesInOrder (h : Reachable .fifoQueueing maxRunning maxUnique s) :
    DeschedulesInOrder s := by
  induction h with
  | new => exact fun a b _ hprec _ => absurd hprec.mem_left not_mem_nil
  | call c hs hc hstep ih => exact ih.call hs.inv hc hstep

/-- Fifo serialization.  In every reachable state, a task that has been returned
    had every conflicting task accepted before it already descheduled; so the
    order of descheduling is conflict-equivalent to the order of arrival. -/
theorem fifo_serialization (h : Reachable .fifoQueueing maxRunning maxUnique s) :
    (∀ a b, a.Conflict b → Precedes s.accepted a b → b ∈ s.returned → a ∈ s.descheduled) ∧
    ConflictEquiv Task.Conflict (s.accepted.filter (fun t => t ∈ s.descheduled)) s.descheduled := by
  have hinv := h.inv
  have hord := h.deschedulesInOrder
  refine ⟨?_, ?_, ?_⟩
  · intro a b hconf hprec hb
    by_cases hdone : b ∈ s.descheduled
    · exact (hord a b hconf hprec hdone).mem_left
    · have hrun : b ∈ s.runnable := mem_append_left _ (mem_running.mpr ⟨hb, hdone⟩)
      by_contra hnot
      exact hinv.runnable_first hrun (mem_active.mpr ⟨hprec.mem_left, hnot⟩) hconf hprec
  · have hnd : s.accepted.Nodup := nodup_of_wellFormed hinv.wf
    refine (perm_ext_iff_of_nodup (hnd.filter _) hinv.descheduled_nodup).mpr ?_
    intro t
    simp only [mem_filter, decide_eq_true_eq]
    exact ⟨fun ht => ht.2, fun ht => ⟨hinv.returned_sub t (hinv.descheduled_sub t ht), ht⟩⟩
  · intro a b hconf hprec
    have hb : b ∈ s.descheduled := by simpa using (mem_filter.mp hprec.mem_right).2
    exact hord a b hconf (List.Sublist.trans hprec filter_sublist) hb

/-- Three writers of one address; the first two have run. -/
def threeWriters : System :=
  (System.new .fifoQueueing none none).run [
    .scheduleOrBufferTask (Task.ofNats 0 [(7, .writable)]) false,
    .scheduleOrBufferTask (Task.ofNats 1 [(7, .writable)]) false,
    .scheduleOrBufferTask (Task.ofNats 2 [(7, .writable)]) false,
    .descheduleTask (Task.ofNats 0 [(7, .writable)]), .scheduleNextUnblockedTask]

theorem fifo_serialization_threeWriters :
    Task.ofNats 1 [(7, .writable)] ∈ threeWriters.returned ∧
      Task.ofNats 0 [(7, .writable)] ∈ threeWriters.descheduled := by
  have hreach : Reachable .fifoQueueing none none threeWriters := Reachable.run _ Reachable.new
  have hret : Task.ofNats 1 [(7, .writable)] ∈ threeWriters.returned := by decide
  refine ⟨hret, (fifo_serialization hreach).1 _ _ ?_ ?_ hret⟩
  · exact ⟨_, mem_cons_self, _, mem_cons_self, rfl, Or.inl rfl⟩
  · show List.Sublist _ _
    decide

/-- At any point of a fifo run, executing what was descheduled and then the active tasks, in the
    order of their arrival, has the effect of executing all accepted tasks in that order, if tasks
    that do not conflict commute. -/
theorem fifo_effect (h : Reachable .fifoQueueing maxRunning maxUnique s) {σ : Type _}
    {exec : σ → Task → σ}
    (hcomm : ∀ a b : Task, ¬ a.Conflict b → ∀ x, exec (exec x b) a = exec (exec x a) b) (x : σ) :
    (s.descheduled ++ s.active).foldl exec x = s.accepted.foldl exec x := by
  have hinv := h.inv
  have hord := h.deschedulesInOrder
  have hnd : s.accepted.Nodup := nodup_of_wellFormed hinv.wf
  have hperm : s.accepted.Perm (s.descheduled ++ s.active) := by
    have hdisjoint : s.descheduled.Disjoint s.active := fun t ht hactive =>
      (mem_active.mp hactive).2 ht
    have hnodup := hinv.descheduled_nodup.append (hnd.filter _) hdisjoint
    refine (perm_ext_iff_of_nodup hnd hnodup).mpr ?_
    intro t
    rw [mem_append]
    refine Iff.trans ?_ (or_congr_right mem_active.symm)
    constructor
    · exact fun ht => (Decidable.em (t ∈ s.descheduled)).imp_right fun hnot => ⟨ht, hnot⟩
    · rintro (ht | ht)
      · exact hinv.returned_sub t (hinv.descheduled_sub t ht)
      · exact ht.1
  have hequiv : ConflictEquiv Task.Conflict s.accepted (s.descheduled ++ s.active) := by
    refine ⟨hperm, fun a b hconf hprec => ?_⟩
    by_cases hb : b ∈ s.descheduled
    · exact (hord a b hconf hprec hb).append_right _
    have hactive : b ∈ s.active := mem_active.mpr ⟨hprec.mem_right, hb⟩
    by_cases ha : a ∈ s.descheduled
    · exact Precedes.of_mem_append ha hactive
    · have hkept : [a, b].Sublist s.active := by
        simpa [ha, hb, System.active] using hprec.filter (· ∉ s.descheduled)
      exact hkept.trans (sublist_append_right _ _)
  exact (hequiv.foldl_eq hcomm hnd x).symm

/-- Tasks that log their ids at the addresses they write. -/
theorem fifo_effect_threeWriters :
    (threeWriters.descheduled ++ threeWriters.active).foldl (fun log t address =>
        if ⟨address, .writable⟩ ∈ t.lockContexts then log address ++ [t.taskId] else log address)
      (fun _ => ([] : List Nat)) (Pubkey.ofNat 7) = [0, 1, 2] := by
  have hreach : Reachable .fifoQueueing none none threeWriters := Reachable.run _ Reachable.new
  rw [fifo_effect hreach]
  · decide
  · intro a b hconf log
    funext address
    by_cases ha : ⟨address, .writable⟩ ∈ a.lockContexts
    · have hb : ⟨address, .writable⟩ ∉ b.lockContexts := fun hb =>
        hconf ⟨_, ha, _, hb, rfl, .inl rfl⟩
      simp only [if_pos ha, if_neg hb]
    · simp only [if_neg ha]

/-! ## Priority: the order of task ids -/

/-- Priority order.  When a call makes a task runnable, every other active task
    it conflicts with has a larger task id; and a task that is runnable, its
    blocked count zero, stays so for as long as it is active. -/
theorem priority_order (h : Reachable .priorityQueueing maxRunning maxUnique s) {c : Call}
    (hc : c.Correct s) (hstep : s.apply c = .ok s') :
    (∀ t ∈ s'.runnable, t ∉ s.runnable → ∀ t' ∈ s'.active, t' ≠ t → t.Conflict t' →
      t.taskId < t'.taskId) ∧
    (∀ t ∈ s.active, s.count t = 0 → t ∈ s'.active → s'.count t = 0 ∧ t ∈ s'.runnable) := by
  have hinv := h.inv
  obtain ⟨hinv', hadv⟩ := (inv_call hinv hc).of_ok hstep
  refine ⟨?_, ?_⟩
  · intro t ht hnew t' ht' hne hconf
    obtain ⟨hactive, hz⟩ := (hinv'.mem_runnable t).mp ht
    obtain ⟨u, u', hlt⟩ := hadv.cells.outranks hinv'.active_wf hactive ht' hne.symm hz
      (fun u hp => hnew hp.2) hconf
    exact hlt
  · intro t ht hz ht'
    have hrun : t ∈ s'.runnable := hadv.stays t ((hinv.mem_runnable t).mpr ⟨ht, hz⟩) ht'
    exact ⟨((hinv'.mem_runnable t).mp hrun).2, hrun⟩

/-- Two tasks wait behind a running one, the more urgent one having overtaken. -/
def overtaken : System :=
  (System.new .priorityQueueing none none).run [
    .scheduleOrBufferTask (Task.ofNats 5 [(7, .writable)]) false,
    .scheduleOrBufferTask (Task.ofNats 4 [(7, .writable), (8, .writable)]) false,
    .scheduleOrBufferTask (Task.ofNats 2 [(8, .writable), (7, .writable)]) false]

/-- `overtaken`, after its running task was descheduled. -/
def overtakenNext : System := overtaken.run [.descheduleTask (Task.ofNats 5 [(7, .writable)])]

theorem priority_order_overtaken :
    overtakenNext.runnable = [Task.ofNats 2 [(8, .writable), (7, .writable)]] ∧
      ∀ t ∈ overtakenNext.runnable, t ∉ overtaken.runnable → ∀ t' ∈ overtakenNext.active, t' ≠ t →
        t.Conflict t' → t.taskId < t'.taskId := by
  have hreach : Reachable .priorityQueueing none none overtaken := Reachable.run _ Reachable.new
  have hcorrect : (Call.descheduleTask (Task.ofNats 5 [(7, .writable)])).Correct overtaken := by decide
  have hstep : overtaken.apply (.descheduleTask (Task.ofNats 5 [(7, .writable)])) =
      .ok overtakenNext := rfl
  exact ⟨by decide, (priority_order hreach hcorrect hstep).1⟩

end Agave.Scheduler
