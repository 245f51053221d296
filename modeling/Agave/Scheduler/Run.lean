/-
  Agave.Scheduler.Run

  Whole runs of the scheduling state machine.

  `System` is the machine together with what its caller has seen: the tasks accepted, returned and
  descheduled so far.  `Call.Correct` is correct use as the source documents it.  `Inv` holds in
  every reachable system; one lemma for each call says what the call does and that it keeps `Inv`.
-/

import Agave.Scheduler.CellsSpec

namespace Agave.Scheduler

open Agave.Lib Agave.Lib.LockQueue List SchedulingStateMachine

/-! ## Systems and calls -/

/-- Whether `schedule_or_buffer_task` takes the task in, instead of dropping it
    under the unique-task cap. -/
def SchedulingStateMachine.accepts (m : SchedulingStateMachine) (t : Task) : Bool :=
  (m.admitUnique t).isSome

/-- A machine and the history of its caller, in order, since it was created or
    last reinitialized. -/
structure System where
  machine : SchedulingStateMachine
  accepted : List Task
  returned : List Task
  descheduled : List Task

namespace System

def new (cap : Capability) (maxRunning maxUnique : Option Nat) : System :=
  ⟨SchedulingStateMachine.new cap maxRunning maxUnique, [], [], []⟩

/-- The tasks the machine is responsible for, in the order of their arrival. -/
def active (s : System) : List Task := s.accepted.filter (fun t => t ∉ s.descheduled)

/-- The tasks returned to the caller and not yet descheduled. -/
def running (s : System) : List Task := s.returned.filter (fun t => t ∉ s.descheduled)

/-- The tasks that run or may be handed out next. -/
def runnable (s : System) : List Task := s.running ++ s.machine.unblockedTaskQueue

/-- The blocked count of a task. -/
def count (s : System) (t : Task) : Nat := (s.machine.cells.blockedUsageCounts t.taskId).current

end System

/-- The calls a scheduler thread makes. -/
inductive Call where
  | scheduleOrBufferTask (task : Task) (forceBuffering : Bool)
  | scheduleNextUnblockedTask
  | descheduleTask (task : Task)
  | reinitialize
deriving DecidableEq

/-- Correct use: tasks have distinct addresses and fresh ids, only running tasks
    are descheduled, and only an idle machine is reinitialized. -/
def Call.Correct (s : System) : Call → Prop
  | .scheduleOrBufferTask t _ => t.addresses.Nodup ∧ t.taskId ∉ s.accepted.map Task.taskId
  | .scheduleNextUnblockedTask => True
  | .descheduleTask t => t ∈ s.running
  | Call.reinitialize => s.active = []

instance (s : System) : (c : Call) → Decidable (c.Correct s)
  | .scheduleOrBufferTask _ _ => inferInstanceAs (Decidable (_ ∧ _))
  | .scheduleNextUnblockedTask => inferInstanceAs (Decidable True)
  | .descheduleTask _ => inferInstanceAs (Decidable (_ ∈ _))
  | Call.reinitialize => inferInstanceAs (Decidable (_ = _))

/-- The effect of a call on the machine and on the history. -/
def System.apply (s : System) : Call → Except Panic System
  | .scheduleOrBufferTask t force => do
    let (returned, m) ← s.machine.scheduleOrBufferTask t force
    pure { machine := m
           accepted := if s.machine.accepts t then s.accepted ++ [t] else s.accepted
           returned := s.returned ++ returned.toList
           descheduled := s.descheduled }
  | .scheduleNextUnblockedTask => do
    let (returned, m) ← s.machine.scheduleNextUnblockedTask
    pure { s with machine := m, returned := s.returned ++ returned.toList }
  | .descheduleTask t => do
    let m ← s.machine.descheduleTask t
    pure { s with machine := m, descheduled := s.descheduled ++ [t] }
  | Call.reinitialize => do
    let m ← SchedulingStateMachine.reinitialize s.machine
    pure ⟨m, [], [], []⟩

/-- The systems that correct use leads to. -/
inductive Reachable (cap : Capability) (maxRunning maxUnique : Option Nat) : System → Prop
  | new : Reachable cap maxRunning maxUnique (System.new cap maxRunning maxUnique)
  | call {s s' : System} (c : Call) (hs : Reachable cap maxRunning maxUnique s)
      (hc : c.Correct s) (h : s.apply c = .ok s') : Reachable cap maxRunning maxUnique s'

/-- A task from plain numbers, its hash made from its id. -/
def Task.ofNats (taskId : Nat) (contexts : List (Nat × RequestedUsage)) : Task :=
  ⟨taskId, Hash.ofNat taskId, contexts.map (fun c => ⟨Pubkey.ofNat c.1, c.2⟩)⟩

/-- Make calls as long as they are correct and return. -/
def System.run (s : System) : List Call → System
  | [] => s
  | c :: cs =>
    if c.Correct s then
      match s.apply c with
      | .ok s' => s'.run cs
      | .error _ => s
    else s

variable {cap : Capability} {s : System} {t t' : Task} {m : SchedulingStateMachine}
  {maxRunning maxUnique : Option Nat} {l accepted ts : List Task}

theorem Reachable.run (cs : List Call) :
    ∀ {s : System}, Reachable cap maxRunning maxUnique s →
      Reachable cap maxRunning maxUnique (s.run cs) := by
  induction cs with
  | nil => exact fun h => h
  | cons c cs ih =>
    intro s h
    unfold System.run
    split
    · rename_i hc
      split
      · rename_i s' hs'
        exact ih (h.call c hc hs')
      · exact h
    · exact h

/-! ## The invariant -/

/-- The order in which conflicting tasks go: by arrival, or by task id. -/
def rankOf : Capability → List Task → UsageFromTask → Nat
  | .fifoQueueing, accepted, u => (accepted.map Task.taskId).idxOf u.2.taskId
  | .priorityQueueing, _, u => usageId u

/-- The usages that a priority queue can no longer take back. -/
def pinnedOf (cap : Capability) (runnable : List Task) (u : UsageFromTask) : Prop :=
  cap = .priorityQueueing ∧ u.2 ∈ runnable

/-- `unique_active_task_hashes` under a cap. -/
def HashesOf (ts : List Task) (hashes : Finset Hash) : Option Nat → Prop
  | none => hashes = ∅
  | some _ => (ts.map Task.hash).Nodup ∧ ∀ h, h ∈ hashes ↔ h ∈ ts.map Task.hash

/-- The history is that of distinct tasks, each returned after it was accepted
    and descheduled after it was returned. -/
structure History (s : System) : Prop where
  wf : WellFormedTasks s.accepted
  returned_nodup : s.returned.Nodup
  returned_sub : ∀ t ∈ s.returned, t ∈ s.accepted
  descheduled_nodup : s.descheduled.Nodup
  descheduled_sub : ∀ t ∈ s.descheduled, t ∈ s.returned

/-- The invariant of a system: its history, the cells of its active tasks, and
    that the runnable tasks are exactly the active ones without blocked usage. -/
structure Inv (cap : Capability) (s : System) : Prop extends History s where
  cells : CellsInv cap (rankOf cap s.accepted) (pinnedOf cap s.runnable) s.active
    (requests s.active) s.machine.cells
  runnable_nodup : s.runnable.Nodup
  mem_runnable : ∀ t, t ∈ s.runnable ↔ t ∈ s.active ∧ s.count t = 0
  activeCount : s.machine.activeTaskCount.current = s.active.length
  runningCount : s.machine.runningTaskCount.current = s.running.length
  hashes : HashesOf s.active s.machine.uniqueActiveTaskHashes s.machine.maxUniqueActiveTaskCount

/-- What every call does to the order of tasks: what was runnable stays so while
    it is active, and the new cells are well-formed even if only the tasks that
    were runnable *before* the call count as pinned. -/
structure Advances (cap : Capability) (s s' : System) : Prop where
  stays : ∀ t ∈ s.runnable, t ∈ s'.active → t ∈ s'.runnable
  cells : CellsInv cap (rankOf cap s'.accepted) (pinnedOf cap s.runnable) s'.active
    (requests s'.active) s'.machine.cells

/-- What a call leads to: the invariant again, one step on. -/
abbrev Leads (cap : Capability) (s s' : System) : Prop := Inv cap s' ∧ Advances cap s s'

theorem Advances.inv_cells {s' : System} (h : Advances cap s s') :
    CellsInv cap (rankOf cap s'.accepted) (pinnedOf cap s'.runnable) s'.active
      (requests s'.active) s'.machine.cells :=
  h.cells.congr_order (fun _ _ _ => rfl)
    (fun _ u hu hp => ⟨hp.1, h.stays u.2 hp.2 (mem_requests.mp hu).1⟩)

theorem History.active_sublist (s : System) : s.active.Sublist s.accepted := filter_sublist

theorem mem_active : t ∈ s.active ↔ t ∈ s.accepted ∧ t ∉ s.descheduled := by
  simp [System.active]

theorem mem_running : t ∈ s.running ↔ t ∈ s.returned ∧ t ∉ s.descheduled := by
  simp [System.running]

theorem History.active_wf (h : History s) : WellFormedTasks s.active :=
  h.wf.sublist (History.active_sublist s)

theorem History.running_active (h : History s) (ht : t ∈ s.running) : t ∈ s.active := by
  obtain ⟨hr, hd⟩ := mem_running.mp ht
  exact mem_active.mpr ⟨h.returned_sub t hr, hd⟩

theorem nodup_of_wellFormed (h : WellFormedTasks ts) : ts.Nodup :=
  List.Nodup.of_map _ h.ids

/-- With no active task left, every accepted task was descheduled once. -/
theorem Inv.descheduled_perm (h : Inv cap s) (hidle : s.active = []) :
    s.descheduled.Perm s.accepted := by
  have hacc : s.accepted.Nodup := nodup_of_wellFormed h.wf
  refine (perm_ext_iff_of_nodup h.descheduled_nodup hacc).mpr ?_
  intro t
  constructor
  · exact fun ht => h.returned_sub t (h.descheduled_sub t ht)
  · intro ht
    by_contra hnot
    have hin : t ∈ s.active := mem_active.mpr ⟨ht, hnot⟩
    rw [hidle] at hin
    exact absurd hin not_mem_nil

theorem inv_new (cap : Capability) (maxRunning maxUnique : Option Nat) :
    Inv cap (System.new cap maxRunning maxUnique) where
  wf := ⟨nodup_nil, fun _ h => absurd h not_mem_nil⟩
  returned_nodup := nodup_nil
  returned_sub := fun _ h => absurd h not_mem_nil
  descheduled_nodup := nodup_nil
  descheduled_sub := fun _ h => absurd h not_mem_nil
  cells := by
    refine ⟨fun x => ⟨⟨[], []⟩, queueInv_new cap _ _, List.Perm.refl _⟩, ?_, fun _ _ => rfl⟩
    exact fun t ht => absurd ht not_mem_nil
  runnable_nodup := nodup_nil
  mem_runnable := fun t => by
    simp [System.runnable, System.running, System.active, System.new, new]
  activeCount := rfl
  runningCount := rfl
  hashes := by
    cases maxUnique with
    | none => rfl
    | some n => exact ⟨nodup_nil, fun h => by simp [System.new, System.active, new]⟩

/-! ## schedule_next_unblocked_task -/

theorem nodup_append_singleton {α : Type} {l : List α} {a : α} (hnd : l.Nodup) (ha : a ∉ l) :
    (l ++ [a]).Nodup := by
  rw [← concat_eq_append]
  exact hnd.concat ha

theorem Inv.runnable_length_le (h : Inv cap s) :
    s.running.length + s.machine.unblockedTaskQueue.length ≤ s.active.length := by
  have hsub : s.runnable.Subperm s.active :=
    subperm_of_subset h.runnable_nodup (fun t ht => ((h.mem_runnable t).mp ht).1)
  have hle := hsub.length_le
  rw [System.runnable, length_append] at hle
  exact hle

theorem running_returned (ht : t ∉ s.descheduled) :
    ({ s with machine := m, returned := s.returned ++ [t] } : System).running =
      s.running ++ [t] := by
  simp [System.running, ht]

/-- Handing out the first unblocked task: only its place changes, neither the
    cells nor the runnable tasks do. -/
theorem Inv.handOut (h : Inv cap s) {task : Task} {rest : List Task}
    (hq : s.machine.unblockedTaskQueue = task :: rest) (hm : m.unblockedTaskQueue = rest)
    (hcells : m.cells = s.machine.cells) (hac : m.activeTaskCount = s.machine.activeTaskCount)
    (hrc : m.runningTaskCount.current = s.machine.runningTaskCount.current + 1)
    (hhashes : m.uniqueActiveTaskHashes = s.machine.uniqueActiveTaskHashes)
    (hmax : m.maxUniqueActiveTaskCount = s.machine.maxUniqueActiveTaskCount) :
    Leads cap s { s with machine := m, returned := s.returned ++ [task] } := by
  have hqueued : task ∈ s.machine.unblockedTaskQueue := by
    rw [hq]
    exact mem_cons_self
  obtain ⟨hactive, -⟩ := (h.mem_runnable task).mp (mem_append_right _ hqueued)
  obtain ⟨haccepted, hnd⟩ := mem_active.mp hactive
  have hnew : task ∉ s.returned := by
    intro hret
    have hdisj := (nodup_append.mp h.runnable_nodup).2.2
    exact hdisj task (mem_running.mpr ⟨hret, hnd⟩) task hqueued rfl
  have hrunnable : ({ s with machine := m, returned := s.returned ++ [task] } : System).runnable =
      s.runnable := by
    show System.running { s with machine := m, returned := s.returned ++ [task] } ++
      m.unblockedTaskQueue = _
    rw [running_returned hnd, hm, System.runnable, hq, append_assoc]
    rfl
  have hadv : Advances cap s { s with machine := m, returned := s.returned ++ [task] } := by
    refine ⟨fun t ht _ => by rw [hrunnable]; exact ht, ?_⟩
    show CellsInv cap _ _ s.active (requests s.active) m.cells
    rw [hcells]
    exact h.cells
  refine ⟨⟨⟨h.wf, ?_, ?_, h.descheduled_nodup, ?_⟩, hadv.inv_cells, ?_, ?_, ?_, ?_, ?_⟩, hadv⟩
  · exact nodup_append_singleton h.returned_nodup hnew
  · intro t ht
    rcases mem_append.mp ht with ht | ht
    · exact h.returned_sub t ht
    · rw [mem_singleton.mp ht]
      exact haccepted
  · exact fun t ht => mem_append_left _ (h.descheduled_sub t ht)
  · rw [hrunnable]
    exact h.runnable_nodup
  · intro t
    rw [hrunnable]
    show _ ↔ t ∈ s.active ∧ (m.cells.blockedUsageCounts t.taskId).current = 0
    rw [hcells]
    exact h.mem_runnable t
  · show m.activeTaskCount.current = s.active.length
    rw [hac]
    exact h.activeCount
  · rw [running_returned hnd, length_append]
    show m.runningTaskCount.current = s.running.length + 1
    rw [hrc, h.runningCount]
  · show HashesOf s.active m.uniqueActiveTaskHashes m.maxUniqueActiveTaskCount
    rw [hhashes, hmax]
    exact h.hashes

/-- What `schedule_next_unblocked_task` leaves behind, and when it returns nothing. -/
structure HandedOut (cap : Capability) (s : System) (r : Option Task × SchedulingStateMachine) :
    Prop where
  inv : Inv cap { s with machine := r.2, returned := s.returned ++ r.1.toList }
  advances : Advances cap s { s with machine := r.2, returned := s.returned ++ r.1.toList }
  handled : r.2.handledTaskCount = s.machine.handledTaskCount
  unblocked : r.2.unblockedTaskCount.current ≤ s.machine.unblockedTaskCount.current + 1
  maxRunning : r.2.maxRunningTaskCount = s.machine.maxRunningTaskCount
  idle : r.1 = none → s.machine.isTaskRunnable = false ∨ s.machine.unblockedTaskQueue = []

theorem HandedOut.none (h : Inv cap s)
    (hidle : s.machine.isTaskRunnable = false ∨ s.machine.unblockedTaskQueue = []) :
    HandedOut cap s (none, s.machine) := by
  have hsame : ({ s with returned := s.returned ++ (Option.none : Option Task).toList }
      : System) = s := by simp
  refine ⟨?_, ?_, rfl, Nat.le_succ _, rfl, fun _ => hidle⟩
  · rw [hsame]
    exact h
  · rw [hsame]
    exact ⟨fun t ht _ => ht, h.cells⟩

theorem scheduleNextUnblockedTask_returns (h : Inv cap s) :
    Returns
      (fun e => e = .counterOverflow ∧ 2 ^ 32 ≤ s.machine.unblockedTaskCount.current + 1)
      (HandedOut cap s) s.machine.scheduleNextUnblockedTask := by
  unfold scheduleNextUnblockedTask
  by_cases hrun : s.machine.isTaskRunnable = true
  · have hif : ¬ (!s.machine.isTaskRunnable) = true := by simp [hrun]
    rw [if_neg hif]
    split
    · rename_i hq
      exact HandedOut.none h (Or.inr hq)
    · rename_i task rest hq
      have hroom : s.machine.runningTaskCount.current + 1 < 2 ^ 32 := by
        have h₁ := h.runnable_length_le
        have h₂ := h.activeCount
        have h₃ := h.runningCount
        have h₄ := s.machine.activeTaskCount.isLt
        rw [hq, length_cons] at h₁
        omega
      refine (s.machine.runningTaskCount.increment_returns_or_full.weaken
        (fun e he => absurd hroom (not_lt.mpr he.2))).bind ?_
      intro runningCount hrc
      refine s.machine.unblockedTaskCount.increment_returns_or_full.bind ?_
      intro unblockedCount huc
      obtain ⟨hinv, hadv⟩ := h.handOut hq (m := { s.machine with
        unblockedTaskQueue := rest
        runningTaskCount := runningCount
        unblockedTaskCount := unblockedCount }) rfl rfl rfl hrc rfl rfl
      exact ⟨hinv, hadv, rfl, le_of_eq huc, rfl, fun hnone => by cases hnone⟩
  · have hfalse : s.machine.isTaskRunnable = false := by simpa using hrun
    have hif : (!s.machine.isTaskRunnable) = true := by simp [hfalse]
    rw [if_pos hif]
    exact HandedOut.none h (Or.inl hfalse)

/-! ## deschedule_task -/

theorem filter_append_singleton {d : List Task} :
    l.filter (fun x => x ∉ d ++ [t]) = (l.filter (fun x => x ∉ d)).filter (fun x => x ≠ t) := by
  rw [filter_filter]
  refine filter_congr ?_
  intro x _
  simp [Bool.and_comm]

theorem active_descheduled :
    ({ s with machine := m, descheduled := s.descheduled ++ [t] } : System).active =
      s.active.filter (fun x => x ≠ t) :=
  filter_append_singleton

theorem running_descheduled :
    ({ s with machine := m, descheduled := s.descheduled ++ [t] } : System).running =
      s.running.filter (fun x => x ≠ t) :=
  filter_append_singleton

theorem perm_cons_filter_ne_self (hnd : l.Nodup) (ht : t ∈ l) :
    l.Perm (t :: l.filter (fun x => x ≠ t)) := by
  have h := perm_cons_erase ht
  rw [hnd.erase_eq_filter] at h
  refine h.trans (List.Perm.of_eq (congrArg _ (filter_congr ?_)))
  intro x _
  by_cases hx : x = t <;> simp [hx]

theorem removeHash_returns
    (h : HashesOf ts m.uniqueActiveTaskHashes m.maxUniqueActiveTaskCount) (ht : t ∈ ts)
    (allowed : Panic → Prop) :
    Returns allowed
      (fun hashes => HashesOf (ts.filter (fun x => x ≠ t)) hashes m.maxUniqueActiveTaskCount)
      (m.removeHash t) := by
  unfold removeHash
  cases hmax : m.maxUniqueActiveTaskCount with
  | none =>
    rw [hmax] at h
    exact h
  | some n =>
    rw [hmax] at h
    obtain ⟨hnd, hmem⟩ := h
    have hin : t.hash ∈ m.uniqueActiveTaskHashes := (hmem _).mpr (mem_map_of_mem ht)
    simp only [if_pos hin, Returns.pure_iff]
    refine ⟨hnd.sublist (filter_sublist.map _), ?_⟩
    intro x
    rw [Finset.mem_erase, hmem]
    constructor
    · rintro ⟨hne, hx⟩
      obtain ⟨u, hu, rfl⟩ := mem_map.mp hx
      refine mem_map_of_mem (mem_filter.mpr ⟨hu, ?_⟩)
      simp only [ne_eq, decide_eq_true_eq]
      rintro rfl
      exact hne rfl
    · intro hx
      obtain ⟨u, hu, rfl⟩ := mem_map.mp hx
      obtain ⟨hu, hne⟩ := mem_filter.mp hu
      have hne : u ≠ t := by simpa using hne
      exact ⟨fun heq => hne (inj_on_of_nodup_map hnd hu ht heq), mem_map_of_mem hu⟩

section

variable (h : Inv cap s) (ht : t ∈ s.running) {new : List Task}
include h ht

theorem Inv.unlockContexts_returns (allowed : Panic → Prop) :
    Returns allowed
      (fun r => CellsInv cap (rankOf cap s.accepted) (pinnedOf cap s.runnable)
          (s.active.filter (fun x => x ≠ t)) (requests (s.active.filter (fun x => x ≠ t))) r.1 ∧
        (∀ id, (r.1.blockedUsageCounts id).current ≤
          (s.machine.cells.blockedUsageCounts id).current) ∧
        ∃ new, r.2 = s.machine.unblockedTaskQueue ++ new ∧
          NewlyUnblocked s.active s.machine.cells.blockedUsageCounts r.1.blockedUsageCounts new)
      (unlockContexts t t.lockContexts s.machine.cells s.machine.unblockedTaskQueue) := by
  have hactive : t ∈ s.active := h.running_active ht
  have hzero : (s.machine.cells.blockedUsageCounts t.taskId).current = 0 :=
    ((h.mem_runnable t).mp (mem_append_left _ ht)).2
  have hperm := perm_cons_filter_ne_self (nodup_of_wellFormed h.active_wf) hactive
  have hreq : ∀ x, (requests s.active x).Perm
      (addRequests (requests (s.active.filter (fun x => x ≠ t))) t t.lockContexts x) :=
    fun x => requests_perm hperm x
  have hroom : ∀ x, (addRequests (requests (s.active.filter (fun x => x ≠ t))) t
      t.lockContexts x).length < 2 ^ 32 := by
    intro x
    have h₁ := requests_length_le h.active_wf.addresses x
    have h₂ := h.activeCount
    have h₃ := s.machine.activeTaskCount.isLt
    rw [(hreq x).length_eq] at h₁
    omega
  refine (Agave.Scheduler.unlockContexts_returns h.active_wf allowed (h.cells.congr_requests hreq)
    ((validRequests h.active_wf).subperm (fun x => (hreq x).symm.subperm)) hzero hroom).mono ?_
  rintro ⟨cells', un'⟩ ⟨hcells, hle, hnew⟩
  refine ⟨hcells.sublist (fun u hu => (mem_filter.mp hu).1) ?_, hle, hnew⟩
  intro u hu
  by_cases hut : u = t
  · subst hut
    have := hle u.taskId
    exact Or.inr (by omega)
  · exact Or.inl (mem_filter.mpr ⟨hu, by simpa using hut⟩)

/-- The runnable tasks after `t` left: those that were runnable before, and the
    newly unblocked ones. -/
theorem Inv.mem_runnable_deschedule {counts : BlockedUsageCounts}
    (hle : ∀ id, (counts id).current ≤ (s.machine.cells.blockedUsageCounts id).current)
    (hnew : NewlyUnblocked s.active s.machine.cells.blockedUsageCounts counts new) (u : Task) :
    u ∈ s.running.filter (fun x => x ≠ t) ++ (s.machine.unblockedTaskQueue ++ new) ↔
      u ∈ s.active.filter (fun x => x ≠ t) ∧ (counts u.taskId).current = 0 := by
  have hdisj := (nodup_append.mp h.runnable_nodup).2.2
  rw [← append_assoc, mem_append, mem_append, hnew.mem_iff]
  by_cases hut : u = t
  · subst hut
    have hzero : s.count u = 0 := ((h.mem_runnable u).mp (mem_append_left _ ht)).2
    constructor
    · rintro ((hr | hq) | ⟨-, hne, -⟩)
      · simp [mem_filter] at hr
      · exact absurd rfl (hdisj u ht u hq)
      · exact absurd hzero hne
    · rintro ⟨hf, -⟩
      simp [mem_filter] at hf
  · have hkeep : u ∈ s.running.filter (fun x => x ≠ t) ∨ u ∈ s.machine.unblockedTaskQueue ↔
        u ∈ s.runnable := by
      rw [System.runnable, mem_append]
      simp [mem_filter, hut]
    rw [hkeep, h.mem_runnable u, mem_filter]
    have hu := hle u.taskId
    constructor
    · rintro (⟨ha, hz⟩ | ⟨ha, -, hz⟩)
      · refine ⟨⟨ha, by simpa using hut⟩, ?_⟩
        rw [System.count] at hz
        omega
      · exact ⟨⟨ha, by simpa using hut⟩, hz⟩
    · rintro ⟨⟨ha, -⟩, hz⟩
      by_cases hz₀ : s.count u = 0
      · exact Or.inl ⟨ha, hz₀⟩
      · exact Or.inr ⟨ha, hz₀, hz⟩

/-- The system after the usages of the running task `t` were unlocked. -/
theorem Inv.deschedule (hcells : CellsInv cap (rankOf cap s.accepted) (pinnedOf cap s.runnable)
      (s.active.filter (fun x => x ≠ t)) (requests (s.active.filter (fun x => x ≠ t))) m.cells)
    (hle : ∀ id, (m.cells.blockedUsageCounts id).current ≤
      (s.machine.cells.blockedUsageCounts id).current)
    (hnew : NewlyUnblocked s.active s.machine.cells.blockedUsageCounts
      m.cells.blockedUsageCounts new)
    (hqueue : m.unblockedTaskQueue = s.machine.unblockedTaskQueue ++ new)
    (hac : m.activeTaskCount.current + 1 = s.machine.activeTaskCount.current)
    (hrc : m.runningTaskCount.current + 1 = s.machine.runningTaskCount.current)
    (hhashes : HashesOf (s.active.filter (fun x => x ≠ t)) m.uniqueActiveTaskHashes
      m.maxUniqueActiveTaskCount) :
    Leads cap s { s with machine := m, descheduled := s.descheduled ++ [t] } := by
  have hQ : ({ s with machine := m, descheduled := s.descheduled ++ [t] } : System).runnable =
      s.running.filter (fun x => x ≠ t) ++ (s.machine.unblockedTaskQueue ++ new) := by
    rw [System.runnable, running_descheduled, ← hqueue]
  have hmem := h.mem_runnable_deschedule ht hle hnew
  have hadv : Advances cap s { s with machine := m, descheduled := s.descheduled ++ [t] } := by
    refine ⟨?_, ?_⟩
    · intro u hu hu'
      rw [active_descheduled] at hu'
      rw [hQ]
      refine (hmem u).mpr ⟨hu', ?_⟩
      have h₁ := ((h.mem_runnable u).mp hu).2
      have h₂ := hle u.taskId
      rw [System.count] at h₁
      omega
    · rw [active_descheduled]
      exact hcells
  have hnodupR : s.running.Nodup := (nodup_append.mp h.runnable_nodup).1
  have hlenA := (perm_cons_filter_ne_self (nodup_of_wellFormed h.active_wf)
    (h.running_active ht)).length_eq
  have hlenR := (perm_cons_filter_ne_self hnodupR ht).length_eq
  rw [length_cons] at hlenA hlenR
  refine ⟨⟨⟨h.wf, h.returned_nodup, h.returned_sub, ?_, ?_⟩, hadv.inv_cells, ?_, ?_, ?_, ?_, ?_⟩,
    hadv⟩
  · exact nodup_append_singleton h.descheduled_nodup (mem_running.mp ht).2
  · intro u hu
    rcases mem_append.mp hu with hu | hu
    · exact h.descheduled_sub u hu
    · rw [mem_singleton.mp hu]
      exact (mem_running.mp ht).1
  · rw [hQ, ← append_assoc]
    have hsub : (s.running.filter (fun x => x ≠ t) ++ s.machine.unblockedTaskQueue).Sublist
        s.runnable := filter_sublist.append_right _
    refine nodup_append.mpr ⟨h.runnable_nodup.sublist hsub, hnew.nodup, ?_⟩
    -- a task that was runnable had no blocked usage to lose
    rintro a ha b hb rfl
    exact ((hnew.mem_iff a).mp hb).2.1 ((h.mem_runnable a).mp (hsub.subset ha)).2
  · intro u
    rw [hQ, active_descheduled]
    exact hmem u
  · rw [active_descheduled]
    have := h.activeCount
    show m.activeTaskCount.current = _
    omega
  · rw [running_descheduled]
    have := h.runningCount
    show m.runningTaskCount.current = _
    omega
  · rw [active_descheduled]
    exact hhashes

theorem descheduleTask_returns :
    Returns
      (fun e => e = .counterOverflow ∧ 2 ^ 32 ≤ s.machine.handledTaskCount.current + 1)
      (fun m => Leads cap s { s with machine := m, descheduled := s.descheduled ++ [t] } ∧
        m.handledTaskCount.current = s.machine.handledTaskCount.current + 1 ∧
        m.unblockedTaskCount = s.machine.unblockedTaskCount ∧
        m.maxRunningTaskCount = s.machine.maxRunningTaskCount)
      (s.machine.descheduleTask t) := by
  have hactive : t ∈ s.active := h.running_active ht
  have hac := h.activeCount
  have hrc := h.runningCount
  have hposA := length_pos_of_mem hactive
  have hposR := length_pos_of_mem ht
  unfold descheduleTask
  refine (ShortCounter.decrement_returns (by omega) _).bind ?_
  intro runningCount hrc'
  refine (removeHash_returns h.hashes hactive _).bind ?_
  intro hashes hhashes
  refine (ShortCounter.decrement_returns (by omega) _).bind ?_
  intro activeCount hac'
  refine s.machine.handledTaskCount.increment_returns_or_full.bind ?_
  intro handled hhandled
  refine (h.unlockContexts_returns ht _).bind ?_
  rintro ⟨cells', un'⟩ ⟨hcells, hle, new, hun, hnew⟩
  have hleads := h.deschedule ht (m := { s.machine with
    runningTaskCount := runningCount
    uniqueActiveTaskHashes := hashes
    activeTaskCount := activeCount
    handledTaskCount := handled
    cells := cells'
    unblockedTaskQueue := un' }) hcells hle hnew hun hac' hrc' hhashes
  exact ⟨hleads, hhandled, rfl, rfl⟩

end

/-! ## schedule_or_buffer_task -/

theorem History.fresh (h : History s) (hfresh : t.taskId ∉ s.accepted.map Task.taskId) :
    t ∉ s.accepted ∧ t ∉ s.returned ∧ t ∉ s.descheduled := by
  have hacc : t ∉ s.accepted := fun hin => hfresh (mem_map_of_mem hin)
  have hret : t ∉ s.returned := fun hin => hacc (h.returned_sub t hin)
  exact ⟨hacc, hret, fun hin => hret (h.descheduled_sub t hin)⟩

theorem rankOf_append (ht' : t' ∈ accepted) (u : RequestedUsage) :
    rankOf cap (accepted ++ [t]) (u, t') = rankOf cap accepted (u, t') := by
  cases cap with
  | fifoQueueing =>
    show ((accepted ++ [t]).map Task.taskId).idxOf t'.taskId = _
    rw [map_append, idxOf_append_of_mem (mem_map_of_mem ht')]
    rfl
  | priorityQueueing => rfl

theorem rankOf_newcomer (ht' : t' ∈ accepted)
    (hfresh : t.taskId ∉ accepted.map Task.taskId) (u u' : RequestedUsage) :
    rankOf .fifoQueueing (accepted ++ [t]) (u, t') <
      rankOf .fifoQueueing (accepted ++ [t]) (u', t) := by
  rw [rankOf_append ht']
  show (accepted.map Task.taskId).idxOf t'.taskId <
    ((accepted ++ [t]).map Task.taskId).idxOf t.taskId
  rw [map_append, idxOf_append_of_notMem hfresh]
  have hlt := idxOf_lt_length_of_mem (mem_map_of_mem (f := Task.taskId) ht')
  omega

section

variable (h : Inv cap s) (ht : t.addresses.Nodup) (hfresh : t.taskId ∉ s.accepted.map Task.taskId)
include h ht hfresh

theorem Inv.newcomer :
    Newcomer cap (rankOf cap (s.accepted ++ [t])) (pinnedOf cap s.runnable) s.active
      s.machine.cells.blockedUsageCounts t where
  wf := by
    refine ⟨nodup_cons.mpr ⟨?_, h.active_wf.ids⟩, ?_⟩
    · intro hin
      exact hfresh (((History.active_sublist s).map _).subset hin)
    · intro t' ht'
      rcases mem_cons.mp ht' with rfl | ht'
      · exact ht
      · exact h.active_wf.addresses t' ht'
  fifo := by
    rintro rfl t' ht' u u'
    exact rankOf_newcomer (mem_active.mp ht').1 hfresh u u'
  priority := by
    rintro rfl
    refine ⟨rfl, ?_⟩
    intro t' ht' u
    have hiff := h.mem_runnable t'
    constructor
    · exact fun hp => (hiff.mp hp.2).2
    · exact fun hz => ⟨rfl, hiff.mpr ⟨ht', hz⟩⟩

/-- The system after a task was locked, and then blocked, buffered or returned:
    `l` is the task if it became runnable, `ret` if it was returned. -/
theorem Inv.schedule (ret l : List Task)
    (hcells : CellsInv cap (rankOf cap (s.accepted ++ [t])) (pinnedOf cap s.runnable)
      (t :: s.active) (requests (t :: s.active)) m.cells)
    (hzero : ∀ id, id ≠ t.taskId → ((m.cells.blockedUsageCounts id).current = 0 ↔
      (s.machine.cells.blockedUsageCounts id).current = 0))
    (hl : (l = [t] ∧ (m.cells.blockedUsageCounts t.taskId).current = 0) ∨
      (l = [] ∧ (m.cells.blockedUsageCounts t.taskId).current ≠ 0)) (hret : ret = [] ∨ ret = [t])
    (hrunnable : (s.running ++ ret ++ m.unblockedTaskQueue).Perm (s.runnable ++ l))
    (hac : m.activeTaskCount.current = s.active.length + 1)
    (hrc : m.runningTaskCount.current = s.running.length + ret.length)
    (hhashes : HashesOf (s.active ++ [t]) m.uniqueActiveTaskHashes m.maxUniqueActiveTaskCount) :
    Leads cap s ⟨m, s.accepted ++ [t], s.returned ++ ret, s.descheduled⟩ := by
  obtain ⟨hacc, hnotret, hdes⟩ := h.fresh hfresh
  have hA : System.active ⟨m, s.accepted ++ [t], s.returned ++ ret, s.descheduled⟩ =
      s.active ++ [t] := by
    simp [System.active, hdes]
  have hR : System.running ⟨m, s.accepted ++ [t], s.returned ++ ret, s.descheduled⟩ =
      s.running ++ ret := by
    rcases hret with rfl | rfl <;> simp [System.running, hdes]
  have hQ : (System.runnable ⟨m, s.accepted ++ [t], s.returned ++ ret, s.descheduled⟩).Perm
      (s.runnable ++ l) := by
    rw [System.runnable, hR]
    exact hrunnable
  have htrun : t ∉ s.runnable := fun hin => hacc (mem_active.mp ((h.mem_runnable t).mp hin).1).1
  have hadv : Advances cap s ⟨m, s.accepted ++ [t], s.returned ++ ret, s.descheduled⟩ := by
    refine ⟨fun u hu _ => hQ.mem_iff.mpr (mem_append_left _ hu), ?_⟩
    rw [hA]
    exact hcells.perm_tasks (perm_append_singleton t s.active).symm
  refine ⟨⟨⟨⟨?_, ?_⟩, ?_, ?_, h.descheduled_nodup, ?_⟩, hadv.inv_cells, ?_, ?_, ?_, ?_, ?_⟩, hadv⟩
  · show ((s.accepted ++ [t]).map Task.taskId).Nodup
    rw [map_append]
    exact nodup_append_singleton h.wf.ids hfresh
  · intro u hu
    rcases mem_append.mp hu with hu | hu
    · exact h.wf.addresses u hu
    · rw [mem_singleton.mp hu]
      exact ht
  · rcases hret with rfl | rfl
    · show (s.returned ++ []).Nodup
      rw [append_nil]
      exact h.returned_nodup
    · exact nodup_append_singleton h.returned_nodup hnotret
  · intro u hu
    rcases mem_append.mp hu with hu | hu
    · exact mem_append_left _ (h.returned_sub u hu)
    · rcases hret with rfl | rfl
      · exact absurd hu not_mem_nil
      · exact mem_append_right _ hu
  · exact fun u hu => mem_append_left _ (h.descheduled_sub u hu)
  · refine hQ.nodup_iff.mpr ?_
    rcases hl with ⟨rfl, -⟩ | ⟨rfl, -⟩
    · exact nodup_append_singleton h.runnable_nodup htrun
    · rw [append_nil]
      exact h.runnable_nodup
  · intro u
    rw [hQ.mem_iff, hA, mem_append, mem_append, h.mem_runnable u]
    show _ ↔ _ ∧ (m.cells.blockedUsageCounts u.taskId).current = 0
    by_cases hut : u = t
    · subst hut
      have hnot : u ∉ s.active := fun hin => hacc (mem_active.mp hin).1
      rcases hl with ⟨rfl, hz⟩ | ⟨rfl, hz⟩ <;> simp [hnot, hz]
    · have hnotl : u ∉ l := by
        rcases hl with ⟨rfl, -⟩ | ⟨rfl, -⟩ <;> simp [hut]
      have hnot1 : u ∉ [t] := by simpa using hut
      have hid : u ∈ s.active → u.taskId ≠ t.taskId := fun hua heq =>
        hfresh (heq ▸ mem_map_of_mem (mem_active.mp hua).1)
      constructor
      · rintro (⟨hua, hz⟩ | hin)
        · exact ⟨Or.inl hua, (hzero _ (hid hua)).mpr hz⟩
        · exact absurd hin hnotl
      · rintro ⟨hua | hin, hz⟩
        · exact Or.inl ⟨hua, (hzero _ (hid hua)).mp hz⟩
        · exact absurd hin hnot1
  · rw [hA, length_append]
    exact hac
  · rw [hR, length_append]
    exact hrc
  · rw [hA]
    exact hhashes

/-- `schedule_or_buffer_task` past the unique-task cap.  `m` is the machine of
    `s` up to its total count and its hashes. -/
theorem scheduleAdmitted_returns (hqueue : m.unblockedTaskQueue = s.machine.unblockedTaskQueue)
    (hcells : m.cells = s.machine.cells) (hac : m.activeTaskCount = s.machine.activeTaskCount)
    (hrc : m.runningTaskCount = s.machine.runningTaskCount)
    (hhashes : HashesOf (s.active ++ [t]) m.uniqueActiveTaskHashes m.maxUniqueActiveTaskCount)
    (force : Bool) :
    Returns (· = .counterOverflow)
      (fun r => Leads cap s ⟨r.2, s.accepted ++ [t], s.returned ++ r.1.toList, s.descheduled⟩)
      (m.scheduleAdmitted t force) := by
  have hinv : CellsInv cap (rankOf cap (s.accepted ++ [t])) (pinnedOf cap s.runnable) s.active
      (requests s.active) s.machine.cells := by
    refine h.cells.congr_order ?_ (fun _ _ _ hp => hp)
    intro x u hu
    exact rankOf_append (mem_active.mp (mem_requests.mp hu).1).1 u.1
  unfold scheduleAdmitted
  refine m.activeTaskCount.increment_returns.bind ?_
  intro activeCount hac'
  rw [hac, h.activeCount] at hac'
  simp only [hcells]
  refine (tryLockUsageQueues_returns hinv (h.newcomer ht hfresh)).bind ?_
  rintro ⟨locked, cells'⟩ ⟨hcells', hzero, hlocked⟩
  simp only at hcells' hzero hlocked
  rcases hlocked with ⟨rfl, hz⟩ | ⟨rfl, hz⟩
  · simp only
    split
    · -- buffered
      refine ShortCounter.increment_returns _ |>.bind ?_
      intro unblockedCount _
      refine h.schedule ht hfresh [] [t] hcells' hzero (Or.inl ⟨rfl, hz⟩) (Or.inl rfl) ?_
        hac' ?_ hhashes
      · show (s.running ++ [] ++ (m.unblockedTaskQueue ++ [t])).Perm (s.runnable ++ [t])
        rw [hqueue, append_nil, System.runnable, append_assoc]
      · show m.runningTaskCount.current = _
        rw [hrc, h.runningCount]
        rfl
    · -- returned to the caller
      refine ShortCounter.increment_returns _ |>.bind ?_
      intro runningCount hrc'
      refine h.schedule ht hfresh [t] [t] hcells' hzero (Or.inl ⟨rfl, hz⟩) (Or.inr rfl) ?_
        hac' ?_ hhashes
      · show (s.running ++ [t] ++ m.unblockedTaskQueue).Perm (s.runnable ++ [t])
        rw [hqueue, System.runnable, append_assoc, append_assoc]
        exact (perm_append_singleton t _).symm.append_left _
      · show runningCount.current = _
        rw [hrc', hrc, h.runningCount]
        rfl
  · -- blocked
    refine h.schedule ht hfresh [] [] hcells' hzero (Or.inr ⟨rfl, hz⟩) (Or.inl rfl)
      ?_ hac' ?_ hhashes
    · show (s.running ++ [] ++ m.unblockedTaskQueue).Perm (s.runnable ++ [])
      rw [hqueue, append_nil, append_nil]
      exact List.Perm.refl _
    · show m.runningTaskCount.current = _
      rw [hrc, h.runningCount]
      rfl

end

/-- The unique-task cap: only the hashes change. -/
theorem admitUnique_cases (m : SchedulingStateMachine) (t : Task) :
    m.admitUnique t = none ∨
      ∃ hashes, m.admitUnique t = some { m with uniqueActiveTaskHashes := hashes } ∧
        ∀ ts, HashesOf ts m.uniqueActiveTaskHashes m.maxUniqueActiveTaskCount →
          HashesOf (ts ++ [t]) hashes m.maxUniqueActiveTaskCount := by
  rcases Option.eq_none_or_eq_some m.maxUniqueActiveTaskCount with hmax | ⟨n, hmax⟩
  · have hadmit : m.admitUnique t = some m := by
      simp only [admitUnique, hmax]
    refine Or.inr ⟨m.uniqueActiveTaskHashes, hadmit, ?_⟩
    rw [hmax]
    exact fun ts h => h
  · by_cases hdrop : n ≤ m.uniqueActiveTaskHashes.card ∨ t.hash ∈ m.uniqueActiveTaskHashes
    · refine Or.inl ?_
      simp only [admitUnique, hmax]
      rcases hdrop with hfull | hin
      · rw [if_pos hfull]
      · rw [if_pos hin, ite_self]
    · rw [not_or] at hdrop
      obtain ⟨hfull, hin⟩ := hdrop
      have hadmit : m.admitUnique t = some { m with
          uniqueActiveTaskHashes := insert t.hash m.uniqueActiveTaskHashes } := by
        simp only [admitUnique, hmax, if_neg hfull, if_neg hin]
      refine Or.inr ⟨_, hadmit, ?_⟩
      rw [hmax]
      rintro ts ⟨hnd, hmem⟩
      constructor
      · rw [map_append]
        exact nodup_append_singleton hnd (fun ht => hin ((hmem _).mpr ht))
      · intro x
        rw [Finset.mem_insert, hmem, map_append, mem_append]
        simp only [map_cons, map_nil, mem_singleton]
        exact Or.comm

theorem accepts_total (m : SchedulingStateMachine) (total : ShortCounter) (t : Task) :
    ({ m with totalTaskCount := total } : SchedulingStateMachine).accepts t = m.accepts t := by
  unfold accepts admitUnique
  cases m.maxUniqueActiveTaskCount with
  | none => rfl
  | some n =>
    simp only
    split
    · rfl
    · split <;> rfl

theorem scheduleOrBufferTask_returns (h : Inv cap s) (ht : t.addresses.Nodup)
    (hfresh : t.taskId ∉ s.accepted.map Task.taskId) (force : Bool) :
    Returns (· = .counterOverflow)
      (fun r =>
        Leads cap s ⟨r.2, if s.machine.accepts t then s.accepted ++ [t] else s.accepted,
          s.returned ++ r.1.toList, s.descheduled⟩)
      (s.machine.scheduleOrBufferTask t force) := by
  unfold scheduleOrBufferTask
  refine s.machine.totalTaskCount.increment_returns.bind ?_
  intro total _
  simp only [← accepts_total s.machine total t]
  rcases admitUnique_cases { s.machine with totalTaskCount := total } t
    with hnone | ⟨hashes, hsome, hhashes⟩
  · have hrejected : accepts
        { s.machine with totalTaskCount := total } t = false := by
      rw [accepts, hnone]
      rfl
    rw [hnone, hrejected]
    refine (ShortCounter.increment_returns _).bind ?_
    intro dropped _
    simp only [Bool.false_eq_true, if_false, Option.toList_none, append_nil, Returns.pure_iff]
    have hinv : Inv cap { s with machine := { s.machine with
        totalTaskCount := total
        droppedTaskCount := dropped } } :=
      ⟨⟨h.wf, h.returned_nodup, h.returned_sub, h.descheduled_nodup, h.descheduled_sub⟩, h.cells,
        h.runnable_nodup, h.mem_runnable, h.activeCount, h.runningCount, h.hashes⟩
    exact ⟨hinv, ⟨fun _ hu _ => hu, h.cells⟩⟩
  · have haccepted : accepts
        { s.machine with totalTaskCount := total } t = true := by
      rw [accepts, hsome]
      rfl
    rw [hsome, haccepted]
    simp only [if_true]
    refine scheduleAdmitted_returns h ht hfresh ?_ ?_ ?_ ?_ ?_ force
    · rfl
    · rfl
    · rfl
    · rfl
    · exact hhashes s.active h.hashes

/-! ## Every call keeps the invariant -/

theorem reinitialize_returns (h : Inv cap s) (hidle : s.active = []) (allowed : Panic → Prop) :
    Returns allowed (fun m => Leads cap s ⟨m, [], [], []⟩) ( reinitialize s.machine) := by
  have hlen := h.runnable_length_le
  have hac := h.activeCount
  have hrc := h.runningCount
  rw [hidle, length_nil] at hlen hac
  have hqueue : s.machine.unblockedTaskQueue = [] :=
    eq_nil_of_length_eq_zero (by omega)
  have hrunning : s.running = [] := eq_nil_of_length_eq_zero (by omega)
  have hempty : s.machine.uniqueActiveTaskHashes = ∅ := by
    have hhashes := h.hashes
    rw [hidle] at hhashes
    cases hmax : s.machine.maxUniqueActiveTaskCount with
    | none =>
      rw [hmax] at hhashes
      exact hhashes
    | some n =>
      rw [hmax] at hhashes
      exact Finset.eq_empty_of_forall_notMem (fun x hx => absurd ((hhashes.2 x).mp hx) not_mem_nil)
  unfold reinitialize
  have hcond : s.machine.hasNoActiveTask = true ∧ s.machine.uniqueActiveTaskHashes.card = 0 ∧
      s.machine.runningTaskCount.current = 0 ∧ s.machine.unblockedTaskQueue.length = 0 := by
    refine ⟨ShortCounter.isZero_iff.mpr hac, ?_, ?_, ?_⟩
    · rw [hempty]
      rfl
    · rw [hrc, hrunning]
      rfl
    · rw [hqueue]
      rfl
  rw [if_pos hcond]
  have hcells : CellsInv cap (rankOf cap []) (pinnedOf cap s.runnable) [] (requests [])
      s.machine.cells := by
    have hc := h.cells
    rw [hidle] at hc
    exact hc.congr_order (fun _ _ hu => absurd hu not_mem_nil) (fun _ _ _ hp => hp)
  generalize hm : ({ s.machine with
    activeTaskCount := .zero
    peakActiveTaskCount := .zero
    droppedTaskCount := .zero
    handledTaskCount := .zero
    unblockedTaskCount := .zero
    totalTaskCount := .zero } : SchedulingStateMachine) = m
  have hrunnable : System.runnable ⟨m, [], [], []⟩ = [] := by
    rw [← hm]
    exact hqueue
  have hadv : Advances cap s ⟨m, [], [], []⟩ := by
    refine ⟨fun _ _ hu => absurd hu not_mem_nil, ?_⟩
    rw [← hm]
    exact hcells
  refine ⟨⟨⟨⟨nodup_nil, fun _ hu => absurd hu not_mem_nil⟩, nodup_nil,
    fun _ hu => absurd hu not_mem_nil, nodup_nil, fun _ hu => absurd hu not_mem_nil⟩,
    hadv.inv_cells, ?_, ?_, ?_, ?_, ?_⟩, hadv⟩
  · rw [hrunnable]
    exact nodup_nil
  · intro u
    rw [hrunnable]
    exact ⟨fun hu => absurd hu not_mem_nil, fun hu => absurd hu.1 not_mem_nil⟩
  · rw [← hm]
    rfl
  · rw [← hm]
    exact hcond.2.2.1
  · rw [← hm]
    have hhashes := h.hashes
    rw [hidle] at hhashes
    exact hhashes

/-- A correct call from a system in the invariant can only fail by overflowing a
    counter; otherwise it keeps the invariant. -/
theorem inv_call (h : Inv cap s) {c : Call} (hc : c.Correct s) :
    Returns (· = .counterOverflow) (Leads cap s) (s.apply c) := by
  cases c with
  | scheduleOrBufferTask t force =>
    refine (scheduleOrBufferTask_returns h hc.1 hc.2 force).bind ?_
    exact fun r hr => hr
  | scheduleNextUnblockedTask =>
    refine ((scheduleNextUnblockedTask_returns h).weaken (fun _ he => he.1)).bind ?_
    exact fun r hr => ⟨hr.inv, hr.advances⟩
  | descheduleTask t =>
    refine ((descheduleTask_returns h hc).weaken (fun _ he => he.1)).bind ?_
    exact fun m hm => hm.1
  | reinitialize =>
    refine (reinitialize_returns h hc (· = .counterOverflow)).bind ?_
    exact fun m hm => hm

theorem Reachable.inv (h : Reachable cap maxRunning maxUnique s) : Inv cap s := by
  induction h with
  | new => exact inv_new cap maxRunning maxUnique
  | call c _ hc hstep ih => exact ((inv_call ih hc).of_ok hstep).1

end Agave.Scheduler

