/-
  Agave.Scheduler.QueueSpec

  A usage queue is a lock queue ordered by rank.

  `Represents q v` reads a usage queue as an abstract `LockQueue` of usages. The fifo capability
  stores only how many readonly usages are current, so the holders are not determined by the queue:
  they are the part of `v` that the invariant over whole runs supplies.

  The refinement theorems say that locking is `LockQueue`'s acquire, with reblocking as its
  preemption, and that unlocking is release followed by promotion; each names exactly which blocked
  counts move.
-/

import Agave.Lib.LockQueue
import Agave.Scheduler.StateMachine

namespace Agave.Scheduler

open Agave.Lib Agave.Lib.LockQueue List UsageQueueInner BTreeMap RequestedUsage

/-! ## Usages as lock requests -/

/-- Writable usages are the exclusive requests. -/
def exclusive (u : UsageFromTask) : Bool := u.1 == .writable

@[simp] theorem exclusive_writable (t : Task) : exclusive (.writable, t) = true := rfl

@[simp] theorem exclusive_readonly (t : Task) : exclusive (.readonly, t) = false := rfl

variable {u : UsageFromTask} {α : Type} {cur : Option FifoUsage} {q : UsageQueueInner}
  {blocked : PriorityUsageQueue} {currentTasks : BTreeMap OrderedTaskId Task} {cap : Capability}

theorem exclusive_eq_false : exclusive u = false ↔ u.1 = .readonly := by
  obtain ⟨r, t⟩ := u
  cases r <;> simp

theorem exclusive_eq_true : exclusive u = true ↔ u.1 = .writable := by
  obtain ⟨r, t⟩ := u
  cases r <;> simp

/-- The ids of the tasks behind some usages. -/
def taskIds (us : List UsageFromTask) : List OrderedTaskId := us.map (fun u => u.2.taskId)

@[simp] theorem taskIds_nil : taskIds [] = [] := rfl

@[simp] theorem taskIds_cons (u : UsageFromTask) (us : List UsageFromTask) :
    taskIds (u :: us) = u.2.taskId :: taskIds us := rfl

@[simp] theorem taskIds_append (us ws : List UsageFromTask) :
    taskIds (us ++ ws) = taskIds us ++ taskIds ws := List.map_append

variable {us : List UsageFromTask} {queue : PriorityUsageQueue} {t : Task}

theorem mem_taskIds (h : u ∈ us) : u.2.taskId ∈ taskIds us := mem_map_of_mem h

/-- `c'` is `c` with one blocked usage more for each listed usage. -/
def CountsAdd (c c' : BlockedUsageCounts) (us : List UsageFromTask) : Prop :=
  ∀ id, (c' id).current = (c id).current + (taskIds us).count id

theorem CountsAdd.refl (c : BlockedUsageCounts) : CountsAdd c c [] := fun _ => rfl

variable {ws : List UsageFromTask} {c : BlockedUsageCounts} {id : α → OrderedTaskId}
  {m : BTreeMap OrderedTaskId α} {v : LockQueue UsageFromTask} {a : UsageFromTask}
  {rank : UsageFromTask → Nat} {pinned : UsageFromTask → Prop}

theorem CountsAdd.perm {c' : BlockedUsageCounts} (h : CountsAdd c c' us) (hp : us.Perm ws) :
    CountsAdd c c' ws := by
  intro id
  have hids : (taskIds us).Perm (taskIds ws) := hp.map _
  rw [h id, hids.count_eq id]

/-! ## Reading a usage queue -/

/-- A map that files every value under its own id. -/
def Keyed {α : Type} (id : α → OrderedTaskId) (m : BTreeMap OrderedTaskId α) : Prop :=
  ∀ e ∈ m.entries, e.1 = id e.2

theorem Keyed.keys_eq (h : Keyed id m) : m.keys = m.values.map id := by
  rw [BTreeMap.keys, BTreeMap.values, map_map]
  exact map_congr_left (fun e he => h e he)

theorem Keyed.sorted (h : Keyed id m) : m.values.Pairwise (fun a b => id a < id b) := by
  rw [BTreeMap.values, pairwise_map]
  refine m.sorted.imp_of_mem ?_
  intro a b ha hb hab
  rw [← h a ha, ← h b hb]
  exact hab

theorem Keyed.empty : Keyed id (empty : BTreeMap OrderedTaskId α) :=
  fun _ he => absurd he not_mem_nil

theorem Keyed.insert (h : Keyed id m) (v : α) : Keyed id (m.insert (id v) v).2 := by
  intro e he
  rcases mem_insertEntry he with rfl | he
  · rfl
  · exact h e he

theorem Keyed.mem_entries (h : Keyed id m) {v : α} (hv : v ∈ m.values) : (id v, v) ∈ m.entries := by
  obtain ⟨e, he, rfl⟩ := mem_map.mp hv
  rw [← h e he]
  exact he

theorem isEmpty_eq_true : m.isEmpty = true ↔ m.values = [] := by
  rw [BTreeMap.isEmpty, BTreeMap.values, List.isEmpty_iff, List.map_eq_nil_iff]

/-- The id a blocked usage is filed under. -/
def usageId (u : UsageFromTask) : OrderedTaskId := u.2.taskId

variable {hs : List UsageFromTask}

namespace UsageQueueInner

def capability : UsageQueueInner → Capability
  | .fifo _ _ => .fifoQueueing
  | .priority _ _ => .priorityQueueing

/-- The blocked usages, in the order they are popped. -/
def blockedUsages : UsageQueueInner → List UsageFromTask
  | .fifo _ blocked => blocked
  | .priority _ blocked => blocked.values

/-- The current usage is that of exactly these usages. -/
def HeldBy : UsageQueueInner → List UsageFromTask → Prop
  | .fifo none _, hs => hs = []
  | .fifo (some (.readonly count)) _, hs =>
    hs ≠ [] ∧ count.current = hs.length ∧ ∀ h ∈ hs, h.1 = .readonly
  | .fifo (some (.writable ())) _, hs => ∃ t, hs = [(.writable, t)]
  | .priority none _, hs => hs = []
  | .priority (some (.readonly tasks)) _, hs =>
    Keyed Task.taskId tasks ∧ tasks.values ≠ [] ∧
      hs.Perm (tasks.values.map (fun t => (.readonly, t)))
  | .priority (some (.writable t)) _, hs => hs = [(.writable, t)]

/-- The blocked usages of a priority queue are filed under their task ids. -/
def BlockedKeyed : UsageQueueInner → Prop
  | .fifo _ _ => True
  | .priority _ blocked => Keyed usageId blocked

/-- The usage queue `q`, read as the lock queue `v`. -/
structure Represents (q : UsageQueueInner) (v : LockQueue UsageFromTask) : Prop where
  waiters : q.blockedUsages = v.waiters
  holders : q.HeldBy v.holders
  keyed : q.BlockedKeyed

theorem HeldBy.congr_fifo {b b' : List UsageFromTask} (h : (fifo cur b).HeldBy hs) :
    (fifo cur b').HeldBy hs := by
  cases cur with
  | none => exact h
  | some u => cases u <;> exact h

theorem HeldBy.congr_priority {cur : Option PriorityUsage} {b b' : PriorityUsageQueue}
    (h : (priority cur b).HeldBy hs) : (priority cur b').HeldBy hs := by
  cases cur with
  | none => exact h
  | some u => cases u <;> exact h

theorem blockedLen_eq (q : UsageQueueInner) : q.blockedLen = q.blockedUsages.length := by
  cases q with
  | fifo cur blocked => rfl
  | priority cur blocked => exact (length_map _).symm

theorem HeldBy.currentUsage_isSome (h : q.HeldBy hs) (hne : hs ≠ []) :
    ∃ u, q.currentUsage = some u := by
  cases q with
  | fifo cur blocked =>
    cases cur with
    | none => exact absurd h hne
    | some u => exact ⟨u.requestedUsage, rfl⟩
  | priority cur blocked =>
    cases cur with
    | none => exact absurd h hne
    | some u => exact ⟨u.requestedUsage, rfl⟩

theorem HeldBy.currentUsage_readonly (h : q.HeldBy hs) (ha : a ∈ hs)
    (hro : a.1 = .readonly) : q.currentUsage = some .readonly := by
  cases q with
  | fifo cur blocked =>
    cases cur with
    | none => exact absurd ha (by rw [show hs = [] from h]; exact not_mem_nil)
    | some u =>
      cases u with
      | readonly count => rfl
      | writable _ =>
        obtain ⟨t, rfl⟩ := h
        rw [mem_singleton.mp ha] at hro
        cases hro
  | priority cur blocked =>
    cases cur with
    | none => exact absurd ha (by rw [show hs = [] from h]; exact not_mem_nil)
    | some u =>
      cases u with
      | readonly tasks => rfl
      | writable t =>
        rw [show hs = [(.writable, t)] from h] at ha
        rw [mem_singleton.mp ha] at hro
        cases hro

@[simp] theorem capability_pop (q : UsageQueueInner) : q.pop.2.capability = q.capability := by
  cases q <;> rfl

theorem Represents.pop (h : Represents q v) :
    q.pop.1 = v.waiters.head? ∧ Represents q.pop.2 ⟨v.holders, v.waiters.tail⟩ := by
  cases q with
  | fifo cur blocked =>
    have hw : blocked = v.waiters := h.waiters
    subst hw
    exact ⟨rfl, ⟨rfl, h.holders.congr_fifo, trivial⟩⟩
  | priority cur blocked =>
    have hw : blocked.values = v.waiters := h.waiters
    refine ⟨?_, ⟨?_, ?_, ?_⟩⟩
    · show (blocked.entries.head?).map Prod.snd = _
      rw [← hw, BTreeMap.values, head?_map]
    · show (blocked.entries.tail).map Prod.snd = _
      rw [← hw, BTreeMap.values, map_tail]
    · exact h.holders.congr_priority
    · intro e he
      exact h.keyed e (mem_of_mem_tail he)

theorem Represents.peekBlocked (h : Represents q v) :
    q.peekBlocked = v.waiters.head? := by
  cases q with
  | fifo cur blocked =>
    have hw : blocked = v.waiters := h.waiters
    rw [← hw]
    rfl
  | priority cur blocked =>
    have hw : blocked.values = v.waiters := h.waiters
    rw [← hw, BTreeMap.values, head?_map]
    rfl

end UsageQueueInner

/-! ## Queueing a blocked usage -/

theorem insertUsageFromTask_returns (hk : Keyed usageId queue)
    (hu : u.2.taskId ∉ taskIds queue.values) (allowed : Panic → Prop) :
    Returns allowed (fun queue' => Keyed usageId queue' ∧
      queue'.values.Perm (u :: queue.values)) (queue.insertUsageFromTask u) := by
  have hkey : usageId u ∉ queue.keys := by rw [hk.keys_eq]; exact hu
  have hnone : (queue.insert u.2.taskId u).1 = none := get?_eq_none_iff.mpr hkey
  unfold PriorityUsageQueue.insertUsageFromTask
  split
  · rename_i queue' heq
    have hq : queue' = (queue.insert (usageId u) u).2 := by
      show queue' = (queue.insert u.2.taskId u).2
      rw [heq]
    rw [hq]
    exact ⟨hk.insert u, insert_values_perm u hkey⟩
  · rename_i heq
    rw [heq] at hnone
    cases hnone

theorem insertReblocked_returns {reblocked : List (OrderedTaskId × Task)} (hk : Keyed usageId queue)
    (hnd : (taskIds (reblocked.map (fun e => (.readonly, e.2)) ++ queue.values)).Nodup)
    (allowed : Panic → Prop) :
    Returns allowed (fun queue' => Keyed usageId queue' ∧
      queue'.values.Perm (reblocked.map (fun e => (.readonly, e.2)) ++ queue.values))
      (insertReblocked queue reblocked) := by
  induction reblocked generalizing queue with
  | nil => exact ⟨hk, List.Perm.refl _⟩
  | cons e rest ih =>
    simp only [map_cons, cons_append, taskIds_cons, nodup_cons] at hnd
    have hnot : e.2.taskId ∉ taskIds queue.values := by
      intro hmem
      apply hnd.1
      rw [taskIds_append]
      exact mem_append_right _ hmem
    simp only [insertReblocked]
    refine (insertUsageFromTask_returns (u := (.readonly, e.2)) hk hnot allowed).bind ?_
    rintro queue' ⟨hk', hp⟩
    have hnd' : (taskIds (rest.map (fun e => (readonly, e.2)) ++
        queue'.values)).Nodup := by
      have hperm : (rest.map (fun e => (readonly, e.2)) ++ queue'.values).Perm
          ((.readonly, e.2) :: (rest.map (fun e => (.readonly, e.2)) ++ queue.values)) :=
        (hp.append_left _).trans perm_middle
      refine (hperm.map (fun u => u.2.taskId)).nodup_iff.mpr ?_
      exact nodup_cons.mpr hnd
    refine (ih hk' hnd').mono ?_
    rintro queue'' ⟨hk'', hp'⟩
    exact ⟨hk'', hp'.trans ((hp.append_left _).trans perm_middle)⟩

/-! ## Taking a compatible usage -/

theorem heldBy_from (a : UsageFromTask) (blocked : PriorityUsageQueue) :
    (priority (some (PriorityUsage.from a.2 a.1)) blocked).HeldBy [a] := by
  obtain ⟨u, t⟩ := a
  cases u with
  | readonly =>
    refine ⟨?_, cons_ne_nil _ _, List.Perm.refl _⟩
    intro e he
    rw [mem_singleton.mp he]
  | writable => rfl

theorem heldBy_from_fifo (a : UsageFromTask) (blocked : List UsageFromTask) :
    (fifo (some (FifoUsage.from a.1)) blocked).HeldBy [a] := by
  obtain ⟨u, t⟩ := a
  cases u with
  | readonly =>
    refine ⟨cons_ne_nil _ _, rfl, ?_⟩
    intro h hm
    rw [mem_singleton.mp hm]
  | writable => exact ⟨t, rfl⟩

/-- `try_lock` on a queue that is unused, or shared by readonly usages when the newcomer is one too.
    Only the counter of a fifo queue can be full. -/
theorem tryLock_joins (hrep : q.Represents v)
    (hshared : ∀ h ∈ v.holders, a.1 = .readonly ∧ h.1 = .readonly)
    (hfresh : a.2.taskId ∉ taskIds v.holders) :
    Returns (fun e => e = .counterOverflow ∧ 2 ^ 32 ≤ v.holders.length + 1)
      (fun r => r.1 = .ok ∧ r.2.capability = q.capability ∧
        r.2.Represents ⟨a :: v.holders, v.waiters⟩) (q.tryLock a.2 a.1) := by
  cases q with
  | fifo cur blocked =>
    cases cur with
    | none =>
      have hh : v.holders = [] := hrep.holders
      rw [hh]
      exact ⟨rfl, rfl, ⟨hrep.waiters, heldBy_from_fifo a blocked, trivial⟩⟩
    | some cu =>
      cases cu with
      | readonly count =>
        obtain ⟨hne, hlen, hro⟩ := hrep.holders
        obtain ⟨h, hm⟩ := exists_mem_of_ne_nil _ hne
        have ha := (hshared h hm).1
        rw [ha, ← hlen]
        refine count.increment_returns_or_full.bind ?_
        intro count' hcount
        refine ⟨rfl, rfl, ⟨hrep.waiters, ⟨cons_ne_nil _ _, ?_, ?_⟩, trivial⟩⟩
        · rw [hcount, hlen]
          rfl
        · intro x hx
          rcases mem_cons.mp hx with rfl | hx
          · exact ha
          · exact hro x hx
      | writable _ =>
        obtain ⟨t, hh⟩ := hrep.holders
        have hbad := (hshared (.writable, t) (by rw [hh]; exact mem_singleton_self _)).2
        cases hbad
  | priority cur blocked =>
    cases cur with
    | none =>
      have hh : v.holders = [] := hrep.holders
      rw [hh]
      exact ⟨rfl, rfl, ⟨hrep.waiters, heldBy_from a blocked, hrep.keyed⟩⟩
    | some cu =>
      cases cu with
      | readonly tasks =>
        obtain ⟨hkeyed, hne, hholders⟩ := hrep.holders
        have hids : (taskIds v.holders).Perm tasks.keys := by
          rw [hkeyed.keys_eq]
          have := hholders.map (fun u : UsageFromTask => u.2.taskId)
          rw [map_map] at this
          exact this
        have hnot : a.2.taskId ∉ tasks.keys := fun h => hfresh (hids.mem_iff.mpr h)
        have hnone : (tasks.insert a.2.taskId a.2).1 = none :=
          get?_eq_none_iff.mpr hnot
        have hp : (tasks.insert a.2.taskId a.2).2.values.Perm (a.2 :: tasks.values) :=
          insert_values_perm a.2 hnot
        obtain ⟨t, ht⟩ := exists_mem_of_ne_nil _ hne
        have ha : a.1 = .readonly :=
          (hshared (.readonly, t) (hholders.mem_iff.mpr (mem_map_of_mem ht))).1
        obtain ⟨u, t'⟩ := a
        simp only at ha
        subst ha
        simp only [tryLock]
        split
        · rename_i tasks' heq
          rw [heq] at hp
          refine ⟨rfl, rfl, ⟨hrep.waiters, ⟨?_, ?_, ?_⟩, hrep.keyed⟩⟩
          · have hk := hkeyed.insert t'
            rw [heq] at hk
            exact hk
          · intro hnil
            rw [hnil] at hp
            exact absurd hp.length_eq (by simp)
          · exact (hholders.cons _).trans
              (hp.map (fun t => (readonly, t))).symm
        · rename_i heq
          rw [heq] at hnone
          cases hnone
      | writable t =>
        have hh : v.holders = [(.writable, t)] := hrep.holders
        have hbad := (hshared (.writable, t) (by rw [hh]; exact mem_singleton_self _)).2
        cases hbad

/-! ## Locking is acquiring -/

variable {v' : LockQueue UsageFromTask}

section Lock

/-- The outcome of `prepare_lock(..).and_then(|()| try_lock(..))` for the usage
    `a`: the preempted holders are queued and their counts raised, and the usage
    is current exactly if it was grantable. -/
structure Locked (cap : Capability) (rank : UsageFromTask → Nat) (pinned : UsageFromTask → Prop)
    (c : BlockedUsageCounts) (v : LockQueue UsageFromTask) (a : UsageFromTask)
    (r : LockResult × BlockedUsageCounts × UsageQueueInner) (v' : LockQueue UsageFromTask) :
    Prop where
  counts : CountsAdd c r.2.1 (preempted exclusive rank pinned v a)
  represents : r.2.2.Represents v'
  capability : r.2.2.capability = cap
  waiters : v'.waiters.Perm (preempted exclusive rank pinned v a ++ v.waiters)
  sorted : v'.waiters.Pairwise (fun a b => rank a < rank b)
  result : (r.1 = .ok ∧ Grantable exclusive rank pinned v a ∧
      v'.holders.Perm (a :: kept exclusive rank pinned v a)) ∨
    (r.1 = .err ∧ ¬ Grantable exclusive rank pinned v a ∧
      v'.holders.Perm (kept exclusive rank pinned v a))

/-- Such a lock is what comes of a computation that does not overflow. -/
abbrev Locks (cap : Capability) (rank : UsageFromTask → Nat) (pinned : UsageFromTask → Prop)
    (c : BlockedUsageCounts) (v : LockQueue UsageFromTask) (a : UsageFromTask) :
    Except Panic (LockResult × BlockedUsageCounts × UsageQueueInner) → Prop :=
  Returns (· = .counterOverflow) fun r => ∃ v', Locked cap rank pinned c v a r v'

section

variable (hnone : ∀ x ∈ v.holders, ¬ (Conflict exclusive a x ∧ ¬ pinned x ∧ rank a < rank x))
  (hwf : v.WF exclusive rank pinned)
include hnone hwf

theorem locked_of_joins (hg : Grantable exclusive rank pinned v a)
    (hrep : q.Represents ⟨a :: v.holders, v.waiters⟩) :
    Locked q.capability rank pinned c v a (.ok, c, q) ⟨a :: v.holders, v.waiters⟩ := by
  obtain ⟨hpre, hkept⟩ := preempted_eq_nil hnone
  refine ⟨?_, hrep, rfl, ?_, hwf.sorted, Or.inl ⟨rfl, hg, by rw [hkept]⟩⟩
  · rw [hpre]; exact CountsAdd.refl c
  · rw [hpre]; exact List.Perm.refl _

theorem locked_of_refused (hg : ¬ Grantable exclusive rank pinned v a) (hrep : q.Represents v) :
    Locked q.capability rank pinned c v a (.err, c, q) v := by
  obtain ⟨hpre, hkept⟩ := preempted_eq_nil hnone
  refine ⟨?_, hrep, rfl, ?_, hwf.sorted, Or.inr ⟨rfl, hg, by rw [hkept]⟩⟩
  · rw [hpre]; exact CountsAdd.refl c
  · rw [hpre]; exact List.Perm.refl _

end

/-- A fifo queue refuses a usage that conflicts with a current one. -/
theorem fifo_tryLock_refused {blocked : List UsageFromTask} {h : UsageFromTask}
    (hheld : (fifo cur blocked).HeldBy hs) (hm : h ∈ hs) (hconf : Conflict exclusive a h) :
    (fifo cur blocked).tryLock a.2 a.1 = .ok (.err, .fifo cur blocked) := by
  cases cur with
  | none =>
    have hnil : hs = [] := hheld
    rw [hnil] at hm
    exact absurd hm not_mem_nil
  | some cu =>
    cases cu with
    | readonly count =>
      obtain ⟨-, -, hro⟩ := hheld
      have hw : a.1 = .writable := by
        rcases hconf with ha | hh
        · exact exclusive_eq_true.mp ha
        · rw [exclusive_eq_false.mpr (hro h hm)] at hh
          cases hh
      rw [hw]
      rfl
    | writable _ => rfl

/-- Fifo locking.  The newcomer ranks last, so nothing is preempted. -/
theorem fifo_prepareAndTryLock {blocked : List UsageFromTask}
    (hrep : (fifo cur blocked).Represents v) (hwf : v.WF exclusive rank pinned)
    (hfreshId : a.2.taskId ∉ taskIds v.holders)
    (hlast : ∀ b, b ∈ v.holders ∨ b ∈ v.waiters → rank b < rank a) :
    Locks .fifoQueueing rank pinned c v a ((fifo cur blocked).prepareAndTryLock c a.2 a.1) := by
  have hnone : ∀ x ∈ v.holders, ¬ (Conflict exclusive a x ∧ ¬ pinned x ∧ rank a < rank x) :=
    fun x hx h => absurd h.2.2 (lt_asymm (hlast x (Or.inl hx)))
  have hblocked : blocked = v.waiters := hrep.waiters
  unfold prepareAndTryLock
  simp only [prepareLock, pure_bind]
  by_cases hb : blocked = []
  · have hw : v.waiters = [] := by rw [← hblocked]; exact hb
    have hempty : blocked.isEmpty = true := List.isEmpty_iff.mpr hb
    rw [if_pos hempty]
    by_cases hshared : ∀ h ∈ v.holders, ¬ Conflict exclusive a h
    · -- with nobody waiting, only the holders can stand in the way
      have hg : Grantable exclusive rank pinned v a :=
        (grantable_iff hnone).mpr ⟨hshared, by rw [hw]; exact fun w hm => absurd hm not_mem_nil⟩
      have hlock := tryLock_joins hrep (fun h hm => by
        obtain ⟨ha, hh⟩ := not_conflict_iff.mp (hshared h hm)
        exact ⟨exclusive_eq_false.mp ha, exclusive_eq_false.mp hh⟩) hfreshId
      refine (hlock.weaken (fun _ h => h.1)).bind ?_
      rintro ⟨_, q'⟩ ⟨rfl, hcap, hrep'⟩
      exact ⟨_, hcap ▸ locked_of_joins hnone hwf hg hrep'⟩
    · have hrefused : (fifo cur blocked).tryLock a.2 a.1 =
          .ok (.err, .fifo cur blocked) := by
        push Not at hshared
        obtain ⟨h, hm, hconf⟩ := hshared
        exact fifo_tryLock_refused hrep.holders hm hconf
      rw [hrefused]
      exact ⟨v, locked_of_refused hnone hwf
        (fun hg => hshared ((grantable_iff hnone).mp hg).1) hrep⟩
  · have hempty : ¬ blocked.isEmpty = true := fun h => hb (List.isEmpty_iff.mp h)
    rw [if_neg hempty]
    simp only [Returns.pure_iff]
    exact ⟨v, locked_of_refused hnone hwf
      (hwf.not_grantable_of_last hlast (by rw [← hblocked]; exact hb)) hrep⟩

theorem isHigherPriority_eq {t' : Task} (h : t.taskId ≠ t'.taskId) :
    t.isHigherPriority t' = .ok (decide (t.taskId < t'.taskId)) := by
  unfold Task.isHigherPriority
  rcases lt_trichotomy t.taskId t'.taskId with hlt | heq | hgt
  · rw [compare_lt_iff_lt.mpr hlt, decide_eq_true hlt]
  · exact absurd heq h
  · rw [compare_gt_iff_gt.mpr hgt, decide_eq_false (lt_asymm hgt)]

theorem tryReblock_returns (t : Task) (c : BlockedUsageCounts) (u : RequestedUsage) :
    Returns (· = .counterOverflow) (fun r =>
      (r.1 = true ∧ (c t.taskId).current ≠ 0 ∧ CountsAdd c r.2 [(u, t)]) ∨
      (r.1 = false ∧ (c t.taskId).current = 0 ∧ r.2 = c)) (t.tryReblock c) := by
  unfold Task.tryReblock
  by_cases hz : (c t.taskId).isZero = true
  · rw [if_pos hz]
    exact Or.inr ⟨rfl, ShortCounter.isZero_iff.mp hz, rfl⟩
  · rw [if_neg hz]
    refine (c t.taskId).increment_returns.bind ?_
    intro count hcount
    refine Or.inl ⟨rfl, fun h => hz (ShortCounter.isZero_iff.mpr h), ?_⟩
    intro id
    by_cases hid : id = t.taskId
    · subst hid
      simp [hcount]
    · have hid' : ¬ t.taskId = id := fun h => hid h.symm
      simp [Function.update_of_ne hid, hid']

theorem priority_lock_unused (hwf : v.WF exclusive usageId pinned)
    (hrep : (priority none blocked).Represents v) :
    Locks .priorityQueueing usageId pinned c v a
      ((priority none blocked).prepareAndTryLock c a.2 a.1) := by
  have hh : v.holders = [] := hrep.holders
  have hw : v.waiters = [] := hwf.idle hh
  have hvalues : blocked.values = [] := by rw [← hw]; exact hrep.waiters
  have hnobody : ∀ {x}, x ∉ v.holders := by
    rw [hh]
    exact not_mem_nil
  have hnone : ∀ x ∈ v.holders, ¬ (Conflict exclusive a x ∧ ¬ pinned x ∧ usageId a < usageId x) :=
    fun x hx => absurd hx hnobody
  have hg : Grantable exclusive usageId pinned v a := (grantable_iff hnone).mpr
    ⟨fun x hx => absurd hx hnobody, by rw [hw]; exact fun h hm => absurd hm not_mem_nil⟩
  unfold prepareAndTryLock
  simp only [prepareLock, if_pos (isEmpty_eq_true.mpr hvalues), pure_bind,
    tryLock, Returns.pure_iff]
  exact ⟨_, locked_of_joins hnone hwf hg (q := priority _ blocked)
    ⟨hrep.waiters, by rw [hh]; exact heldBy_from a blocked, hrep.keyed⟩⟩

/-- Priority locking, readonly on readonly: nobody is preempted, and only an
    exclusive usage in front of the queue can outrank the newcomer. -/
theorem priority_lock_readonly_readonly (hwf : v.WF exclusive usageId pinned)
    (hrep : (priority (some (.readonly currentTasks)) blocked).Represents v)
    (hfresh : ∀ b, b ∈ v.holders ∨ b ∈ v.waiters → t.taskId ≠ usageId b) :
    Locks .priorityQueueing usageId pinned c v (.readonly, t)
      ((priority (some (.readonly currentTasks)) blocked).prepareAndTryLock c t .readonly) := by
  obtain ⟨hkeyed, hne, hholders⟩ := hrep.holders
  have hshared : ∀ h ∈ v.holders, exclusive h = false := by
    intro h hm
    obtain ⟨t', -, rfl⟩ := mem_map.mp (hholders.mem_iff.mp hm)
    rfl
  have hcompatible : ∀ x ∈ v.holders, ¬ Conflict exclusive (.readonly, t) x :=
    fun x hx => not_conflict_iff.mpr ⟨rfl, hshared x hx⟩
  have hnone : ∀ x ∈ v.holders,
      ¬ (Conflict exclusive (.readonly, t) x ∧ ¬ pinned x ∧ usageId (.readonly, t) < usageId x) :=
    fun x hx h => hcompatible x hx h.1
  have hjoin : (∀ w ∈ v.waiters, Conflict exclusive (.readonly, t) w → t.taskId < usageId w) →
      Locks .priorityQueueing usageId pinned c v (.readonly, t)
        ((priority (some (.readonly currentTasks)) blocked).tryLock t .readonly >>=
          fun r => pure (r.1, c, r.2)) := by
    intro hfirst
    have hfresh' : t.taskId ∉ taskIds v.holders := by
      intro hmem
      obtain ⟨h, hm, hid⟩ := mem_map.mp hmem
      exact hfresh h (Or.inl hm) hid.symm
    have hlock := tryLock_joins (a := (.readonly, t)) hrep
      (fun h hm => ⟨rfl, exclusive_eq_false.mp (hshared h hm)⟩) hfresh'
    refine (hlock.weaken (fun _ h => h.1)).bind ?_
    rintro ⟨_, q'⟩ ⟨rfl, hcap, hrep'⟩
    exact ⟨_, hcap ▸ locked_of_joins hnone hwf
      ((grantable_iff hnone).mpr ⟨hcompatible, hfirst⟩) hrep'⟩
  unfold prepareAndTryLock
  simp only [prepareLock, hrep.peekBlocked]
  cases hws : v.waiters with
  | nil =>
    simp only [head?_nil, pure_bind]
    apply hjoin
    rw [hws]
    exact fun w hm => absurd hm not_mem_nil
  | cons w ws =>
    have hw : exclusive w = true := hwf.sharedFront hshared w (by rw [hws]; rfl)
    have hwin : w ∈ v.waiters := by rw [hws]; exact mem_cons_self
    obtain ⟨u, peekedTask⟩ := w
    have hu : u = .writable := exclusive_eq_true.mp hw
    subst hu
    have hid : t.taskId ≠ peekedTask.taskId := hfresh _ (Or.inr hwin)
    simp only [head?_cons, isHigherPriority_eq hid, ok_bind]
    by_cases hlt : t.taskId < peekedTask.taskId
    · simp only [decide_eq_true hlt, Bool.not_true, Bool.false_eq_true, if_false, pure_bind]
      apply hjoin
      intro x hx _
      rcases rank_head_le (m := (.writable, peekedTask)) hwf.sorted (by rw [hws]; rfl) hx
        with rfl | h
      · exact hlt
      · exact lt_trans hlt h
    · simp only [decide_eq_false hlt, Bool.not_false, if_true, pure_bind, Returns.pure_iff]
      refine ⟨v, locked_of_refused hnone hwf (fun hg => ?_) hrep⟩
      exact hlt (hg.2 _ hwin (Or.inr rfl))

/-- The sweep over the current readonly tasks reblocks exactly the holders that
    the abstract queue preempts. -/
theorem extractReblocked_returns (hkeyed : Keyed Task.taskId currentTasks)
    (hholders : v.holders.Perm (currentTasks.values.map (fun t => (.readonly, t))))
    (hpin : ∀ h ∈ v.holders, pinned h ↔ (c h.2.taskId).current = 0)
    (hfresh : ∀ h ∈ v.holders, t.taskId ≠ usageId h) :
    Returns (· = .counterOverflow) (fun r =>
        Keyed Task.taskId r.1 ∧
        (kept exclusive usageId pinned v (.writable, t)).Perm
          (r.1.values.map (fun t => (.readonly, t))) ∧
        (preempted exclusive usageId pinned v (.writable, t)).Perm
          (r.2.1.map (fun e => (.readonly, e.2))) ∧
        CountsAdd c r.2.2 (preempted exclusive usageId pinned v (.writable, t)))
      (currentTasks.extractIf t.taskId (fun counts _ task => task.tryReblock counts) c) := by
  -- an entry is taken when its task has blocked usages; the state is `c` plus
  -- one for each entry taken so far
  have hstep : ∀ e ∈ currentTasks.entries, t.taskId ≤ e.1 → ∀ (out : List (OrderedTaskId × Task))
      (s : BlockedUsageCounts),
      ((∀ e ∈ out, (c e.2.taskId).current ≠ 0) ∧
        CountsAdd c s (out.map (fun e => (.readonly, e.2)))) →
      Returns (· = .counterOverflow)
        (fun r => (r.1 = true ∧ (c e.2.taskId).current ≠ 0 ∧
            (∀ e' ∈ out ++ [e], (c e'.2.taskId).current ≠ 0) ∧
            CountsAdd c r.2 ((out ++ [e]).map (fun e => (.readonly, e.2)))) ∨
          (r.1 = false ∧ ¬ (c e.2.taskId).current ≠ 0 ∧ (∀ e ∈ out, (c e.2.taskId).current ≠ 0) ∧
            CountsAdd c r.2 (out.map (fun e => (.readonly, e.2)))))
        (e.2.tryReblock s) := by
    rintro e - - out s ⟨hout, hs⟩
    refine (tryReblock_returns e.2 s .readonly).mono ?_
    rintro ⟨taken, s'⟩ (⟨htaken, hz, hs'⟩ | ⟨htaken, hz, hs'⟩)
    · have hnz : (c e.2.taskId).current ≠ 0 := by
        intro h0
        -- not yet taken, so the sweep has not touched this count
        have hcount : 0 < (taskIds (out.map (fun e => (readonly, e.2)))).count
            e.2.taskId := by
          have := hs e.2.taskId
          omega
        obtain ⟨u, hu, hid⟩ := mem_map.mp (count_pos_iff.mp hcount)
        obtain ⟨e', he', rfl⟩ := mem_map.mp hu
        have := hout e' he'
        rw [hid] at this
        exact this h0
      refine Or.inl ⟨htaken, hnz, ?_, ?_⟩
      · intro e' he'
        rcases mem_append.mp he' with h | h
        · exact hout e' h
        · rw [mem_singleton.mp h]
          exact hnz
      · intro id
        rw [hs' id, hs id, map_append, taskIds_append, count_append, Nat.add_assoc]
        rfl
    · have hzero : (c e.2.taskId).current = 0 := by
        have := hs e.2.taskId
        omega
      refine Or.inr ⟨htaken, fun h => h hzero, hout, ?_⟩
      rw [hs']
      exact hs
  refine (extractIf_returns (T := fun e => (c e.2.taskId).current ≠ 0)
    (J := fun out s => (∀ e ∈ out, (c e.2.taskId).current ≠ 0) ∧
      CountsAdd c s (out.map (fun e => (.readonly, e.2)))) hstep
    ⟨fun e he => absurd he not_mem_nil, CountsAdd.refl c⟩).mono ?_
  rintro ⟨tasks, out, c'⟩ ⟨hperm, hout, hkeep, -, hc'⟩
  have hmemK : ∀ e ∈ tasks.entries, e ∈ currentTasks.entries :=
    fun e he => hperm.mem_iff.mp (mem_append_left _ he)
  have hmemO : ∀ e ∈ out, e ∈ currentTasks.entries :=
    fun e he => hperm.mem_iff.mp (mem_append_right _ he)
  have hheld : ∀ e ∈ currentTasks.entries, ((.readonly, e.2) : UsageFromTask) ∈ v.holders :=
    fun e he => hholders.mem_iff.mpr (mem_map_of_mem (mem_map_of_mem he))
  have hsplit : v.holders.Perm (tasks.values.map (fun t => (.readonly, t)) ++
      out.map (fun e => (.readonly, e.2))) := by
    refine hholders.trans ?_
    have := (hperm.symm.map Prod.snd).map (fun t : Task => (readonly, t))
    rw [map_append, map_append, map_map (l := out)] at this
    exact this
  obtain ⟨hpre, hkept⟩ :
      (preempted exclusive usageId pinned v (.writable, t)).Perm
        (out.map (fun e => (.readonly, e.2))) ∧
      (kept exclusive usageId pinned v (.writable, t)).Perm
        (tasks.values.map (fun t => (.readonly, t))) := by
    refine preempted_perm_of_split hsplit ?_ ?_
    · rintro x hx ⟨-, hnp, hlt⟩
      obtain ⟨t', ht', rfl⟩ := mem_map.mp hx
      obtain ⟨e, he, rfl⟩ := mem_map.mp ht'
      have hid : e.1 = e.2.taskId := hkeyed e (hmemK e he)
      rcases hkeep e he with h | h
      · rw [hid] at h
        exact lt_asymm h hlt
      · exact hnp ((hpin _ (hheld e (hmemK e he))).mpr (not_not.mp h))
    · intro x hx
      obtain ⟨e, he, rfl⟩ := mem_map.mp hx
      have hid : e.1 = e.2.taskId := hkeyed e (hmemO e he)
      obtain ⟨hle, hnz⟩ := hout e he
      rw [hid] at hle
      refine ⟨Or.inl rfl, fun hp => hnz ((hpin _ (hheld e (hmemO e he))).mp hp), ?_⟩
      exact lt_of_le_of_ne hle (hfresh _ (hheld e (hmemO e he)))
  exact ⟨fun e he => hkeyed e (hmemK e he), hkept, hpre, hc'.perm hpre.symm⟩

section

variable (hwf : v.WF exclusive usageId pinned)
  (hpin : ∀ h ∈ v.holders, pinned h ↔ (c h.2.taskId).current = 0)
  (hnd : (taskIds (v.holders ++ v.waiters)).Nodup)
include hwf hpin hnd

/-- Priority locking against a writable usage: a lower-priority task that cannot
    be running yet is reblocked. -/
theorem priority_lock_writable {currentTask : Task}
    (hrep : (priority (some (.writable currentTask)) blocked).Represents v)
    (hfresh : ∀ b, b ∈ v.holders ∨ b ∈ v.waiters → usageId a ≠ usageId b) :
    Locks .priorityQueueing usageId pinned c v a
      ((priority (some (.writable currentTask)) blocked).prepareAndTryLock c a.2 a.1) := by
  have hh : v.holders = [(.writable, currentTask)] := hrep.holders
  have hblocked : blocked.values = v.waiters := hrep.waiters
  have hcur : (.writable, currentTask) ∈ v.holders := by
    rw [hh]; exact mem_singleton_self _
  have hconf : Conflict exclusive a (.writable, currentTask) := Or.inr rfl
  have hne : a.2.taskId ≠ currentTask.taskId := hfresh _ (Or.inl hcur)
  -- the current task stays, and with it the conflict
  have hdenied : ¬ (¬ pinned (.writable, currentTask) ∧ a.2.taskId < currentTask.taskId) →
      ∃ v', Locked .priorityQueueing usageId pinned c v a
        (.err, c, priority (some (.writable currentTask)) blocked) v' := by
    intro hstay
    have hnone : ∀ x ∈ v.holders,
        ¬ (Conflict exclusive a x ∧ ¬ pinned x ∧ usageId a < usageId x) := by
      intro x hx h
      rw [hh, mem_singleton] at hx
      subst hx
      exact hstay h.2
    refine ⟨v, locked_of_refused hnone hwf (fun hg => ?_) hrep⟩
    exact ((grantable_iff hnone).mp hg).1 _ hcur hconf
  unfold prepareAndTryLock
  simp only [prepareLock, isHigherPriority_eq hne, ok_bind]
  by_cases hlt : a.2.taskId < currentTask.taskId
  · simp only [decide_eq_true hlt, Bool.not_true, Bool.false_eq_true, if_false, bind_assoc]
    refine (tryReblock_returns currentTask c .writable).bind ?_
    rintro ⟨reblocked, c'⟩ (⟨hre, hcount, hc'⟩ | ⟨hre, hcount, hc'⟩)
    · -- reblocked: the current task goes to the front of the blocked usages
      simp only at hre hc'
      subst hre
      have hnp : ¬ pinned (.writable, currentTask) := fun h => hcount ((hpin _ hcur).mp h)
      obtain ⟨hpre, hkept⟩ :
          (preempted exclusive usageId pinned v a).Perm [(.writable, currentTask)] ∧
          (kept exclusive usageId pinned v a).Perm [] :=
        preempted_perm_of_split (by rw [hh]; exact List.Perm.refl _)
          (fun x hx => absurd hx not_mem_nil)
          (fun x hx => by rw [mem_singleton.mp hx]; exact ⟨hconf, hnp, hlt⟩)
      have hkept := hkept.eq_nil
      have hnot : currentTask.taskId ∉ taskIds blocked.values := by
        rw [hh] at hnd
        rw [hblocked]
        exact (nodup_cons.mp hnd).1
      have hg : Grantable exclusive usageId pinned v a := by
        refine ⟨by rw [hkept]; exact fun h hm => absurd hm not_mem_nil, ?_⟩
        intro w hw _
        exact lt_trans hlt (hwf.outranks _ hcur w hw (Or.inl rfl) hnp)
      simp only [Bool.not_true, Bool.false_eq_true, if_false, PriorityUsage.takeWritable, ok_bind,
        bind_assoc]
      refine (insertUsageFromTask_returns (u := (.writable, currentTask)) hrep.keyed hnot _).bind ?_
      rintro blocked' ⟨hk', hp⟩
      simp only [pure_bind, tryLock, Returns.pure_iff]
      refine ⟨⟨[a], blocked'.values⟩, hc'.perm hpre.symm, ⟨rfl, heldBy_from a blocked', hk'⟩, rfl,
        ?_, hk'.sorted, Or.inl ⟨rfl, hg, by rw [hkept]⟩⟩
      refine hp.trans ?_
      rw [hblocked]
      exact hpre.symm.append_right _
    · -- its count is zero: it may be running
      simp only at hre hc'
      subst hre hc'
      simp only [Bool.not_false, if_true, pure_bind, Returns.pure_iff]
      exact hdenied (fun h => h.1 ((hpin _ hcur).mpr hcount))
  · simp only [decide_eq_false hlt, Bool.not_false, if_true, pure_bind, Returns.pure_iff]
    exact hdenied (fun h => hlt h.2)

/-- Priority locking, writable on readonly: the readonly holders that rank below
    the newcomer and cannot be running yet are reblocked. -/
theorem priority_lock_readonly_writable
    (hrep : (priority (some (.readonly currentTasks)) blocked).Represents v)
    (hfresh : ∀ b, b ∈ v.holders ∨ b ∈ v.waiters → t.taskId ≠ usageId b) :
    Locks .priorityQueueing usageId pinned c v (.writable, t)
      ((priority (some (.readonly currentTasks)) blocked).prepareAndTryLock c t .writable) := by
  obtain ⟨hkeyed, hne, hholders⟩ := hrep.holders
  have hblocked : blocked.values = v.waiters := hrep.waiters
  unfold prepareAndTryLock
  simp only [prepareLock, bind_assoc]
  refine (extractReblocked_returns hkeyed hholders hpin
    (fun h hm => hfresh h (Or.inl hm))).bind ?_
  rintro ⟨tasks, out, c'⟩ ⟨hkeyed', hkept, hpre, hc'⟩
  simp only at hkeyed' hkept hpre hc'
  have hsub : (taskIds (out.map (fun e => (readonly, e.2)) ++ blocked.values)).Nodup := by
    have hperm : (v.holders ++ v.waiters).Perm
        (kept exclusive usageId pinned v (.writable, t) ++
          (out.map (fun e => (readonly, e.2)) ++ blocked.values)) := by
      rw [hblocked, ← append_assoc]
      have hsplit : (kept exclusive usageId pinned v (.writable, t) ++
          preempted exclusive usageId pinned v (.writable, t)).Perm v.holders :=
        kept_append_preempted_perm _
      exact (hsplit.symm.trans (hpre.append_left _)).append_right _
    have hnd' := (hperm.map (fun u : UsageFromTask => u.2.taskId)).nodup_iff.mp hnd
    rw [map_append] at hnd'
    exact (nodup_append.mp hnd').2.1
  refine (insertReblocked_returns hrep.keyed hsub _).bind ?_
  rintro blocked' ⟨hk', hp⟩
  have hp' : blocked'.values.Perm
      (preempted exclusive usageId pinned v (.writable, t) ++ v.waiters) := by
    rw [← hblocked]
    exact hp.trans (hpre.symm.append_right _)
  by_cases hempty : tasks.isEmpty = true
  · have hnil : tasks.values = [] := isEmpty_eq_true.mp hempty
    have hkept' : kept exclusive usageId pinned v (.writable, t) = [] := by
      rw [hnil] at hkept
      exact hkept.eq_nil
    have hg : Grantable exclusive usageId pinned v (.writable, t) := by
      by_contra hg
      exact hwf.kept_ne_nil hg hkept'
    simp only [if_pos hempty, PriorityUsage.takeReadable, ok_bind, pure_bind,
      tryLock, Returns.pure_iff]
    exact ⟨⟨[(.writable, t)], blocked'.values⟩, hc', ⟨rfl, heldBy_from (.writable, t) blocked', hk'⟩,
      rfl, hp', hk'.sorted, Or.inl ⟨rfl, hg, by rw [hkept']⟩⟩
  · have hvals : tasks.values ≠ [] := fun h => hempty (isEmpty_eq_true.mpr h)
    simp only [if_neg hempty, pure_bind, Returns.pure_iff]
    refine ⟨⟨kept exclusive usageId pinned v (.writable, t), blocked'.values⟩, hc',
      ⟨rfl, ⟨hkeyed', hvals, hkept⟩, hk'⟩, rfl, hp', hk'.sorted,
      Or.inr ⟨rfl, ?_, List.Perm.refl _⟩⟩
    intro hg
    obtain ⟨t', ht'⟩ := exists_mem_of_ne_nil _ hvals
    exact hg.1 (.readonly, t') (hkept.mem_iff.mpr (mem_map_of_mem ht')) (Or.inl rfl)

theorem priority_prepareAndTryLock {cur : Option PriorityUsage}
    (hrep : (priority cur blocked).Represents v)
    (hfresh : ∀ b, b ∈ v.holders ∨ b ∈ v.waiters → usageId a ≠ usageId b) :
    Locks .priorityQueueing usageId pinned c v a
      ((priority cur blocked).prepareAndTryLock c a.2 a.1) := by
  cases cur with
  | none => exact priority_lock_unused hwf hrep
  | some cu =>
    cases cu with
    | writable t => exact priority_lock_writable hwf hpin hnd hrep hfresh
    | readonly tasks =>
      obtain ⟨u, t⟩ := a
      cases u with
      | readonly => exact priority_lock_readonly_readonly hwf hrep hfresh
      | writable => exact priority_lock_readonly_writable hwf hpin hnd hrep hfresh

end

theorem pushBlocked_returns (hcap : q.capability = cap) (hrep : q.Represents v')
    (hne : v'.holders ≠ []) (hsorted : v'.waiters.Pairwise (fun a b => rank a < rank b))
    (hfifo : cap = .fifoQueueing → ∀ b ∈ v'.waiters, rank b < rank a)
    (hpriority : cap = .priorityQueueing → rank = usageId ∧ a.2.taskId ∉ taskIds v'.waiters)
    (allowed : Panic → Prop) :
    Returns allowed (fun q' => ∃ ws, q'.capability = cap ∧ q'.Represents ⟨v'.holders, ws⟩ ∧
      ws.Perm (a :: v'.waiters) ∧ ws.Pairwise (fun a b => rank a < rank b))
      (q.pushBlocked a) := by
  obtain ⟨u, hu⟩ := hrep.holders.currentUsage_isSome hne
  simp only [pushBlocked, hu]
  cases q with
  | fifo cur blocked =>
    have hw : blocked = v'.waiters := hrep.waiters
    subst hw
    refine ⟨v'.waiters ++ [a], hcap, ⟨rfl, hrep.holders.congr_fifo, trivial⟩,
      perm_append_singleton _ _, ?_⟩
    refine pairwise_append.mpr ⟨hsorted, pairwise_singleton _ _, ?_⟩
    intro b hb x hx
    rw [mem_singleton.mp hx]
    exact hfifo hcap.symm b hb
  | priority cur blocked =>
    obtain ⟨hrank, hnot⟩ := hpriority hcap.symm
    have hw : blocked.values = v'.waiters := hrep.waiters
    refine (insertUsageFromTask_returns hrep.keyed (by rw [hw]; exact hnot) allowed).bind ?_
    rintro blocked' ⟨hk, hp⟩
    refine ⟨blocked'.values, hcap, ⟨rfl, hrep.holders.congr_priority, hk⟩, hw ▸ hp, ?_⟩
    rw [hrank]
    exact hk.sorted

end Lock

/-! ## The invariant of one usage queue -/

/-- A usage queue of the given capability, read as the lock queue `v`, which is well-formed. -/
structure QueueInv (cap : Capability) (rank : UsageFromTask → Nat) (pinned : UsageFromTask → Prop)
    (q : UsageQueueInner) (v : LockQueue UsageFromTask) : Prop where
  capability : q.capability = cap
  represents : q.Represents v
  wf : v.WF exclusive rank pinned

/-- The usages of a queue, current or blocked. -/
def usages (v : LockQueue UsageFromTask) : List UsageFromTask := v.holders ++ v.waiters

theorem mem_usages : u ∈ usages v ↔ u ∈ v.holders ∨ u ∈ v.waiters := mem_append

theorem kept_append_blocked_perm (v : LockQueue UsageFromTask) (a : UsageFromTask) :
    (kept exclusive rank pinned v a ++ (preempted exclusive rank pinned v a ++ v.waiters)).Perm
      (usages v) := by
  rw [← append_assoc]
  exact (kept_append_preempted_perm a).append_right _

theorem queueInv_new (cap : Capability) (rank : UsageFromTask → Nat)
    (pinned : UsageFromTask → Prop) : QueueInv cap rank pinned (new cap) ⟨[], []⟩ := by
  cases cap with
  | fifoQueueing => exact ⟨rfl, ⟨rfl, rfl, trivial⟩, wf_nil⟩
  | priorityQueueing => exact ⟨rfl, ⟨rfl, rfl, Keyed.empty⟩, wf_nil⟩

/-- A queue that nobody uses is as its loader created it. -/
theorem QueueInv.eq_new (h : QueueInv cap rank pinned q v) (hnil : usages v = []) :
    q = new cap := by
  obtain ⟨hh, hw⟩ := append_eq_nil_iff.mp hnil
  have hblocked : q.blockedUsages = [] := h.represents.waiters.trans hw
  have hheld : q.HeldBy [] := hh ▸ h.represents.holders
  have hcap := h.capability
  subst hcap
  cases q with
  | fifo cur blocked =>
    cases cur with
    | none => exact congrArg _ hblocked
    | some u =>
      cases u with
      | readonly count => exact absurd rfl hheld.1
      | writable _ => obtain ⟨t, ht⟩ := hheld; cases ht
  | priority cur blocked =>
    obtain ⟨entries, hsorted⟩ := blocked
    have hentries : entries = [] := List.map_eq_nil_iff.mp hblocked
    subst hentries
    cases cur with
    | none => rfl
    | some u =>
      cases u with
      | readonly tasks =>
        obtain ⟨-, hne, hp⟩ := hheld
        exact absurd (List.map_eq_nil_iff.mp hp.symm.eq_nil) hne
      | writable t => cases hheld

/-- What the loop of `try_lock_usage_queues` may assume about the queue it is
    about to lock: a fifo newcomer ranks last; in the priority capability ranks
    are task ids, and the pinned holders are those with no blocked usage. -/
structure LockReady (cap : Capability) (rank : UsageFromTask → Nat) (pinned : UsageFromTask → Prop)
    (c : BlockedUsageCounts) (v : LockQueue UsageFromTask) (a : UsageFromTask) : Prop where
  nodup : (taskIds (usages v)).Nodup
  fresh : a.2.taskId ∉ taskIds (usages v)
  fifo : cap = .fifoQueueing → ∀ b ∈ usages v, rank b < rank a
  priority : cap = .priorityQueueing → rank = usageId ∧
    ∀ h ∈ v.holders, pinned h ↔ (c h.2.taskId).current = 0

/-- Locking or blocking one usage, as the loop of `try_lock_usage_queues` does:
    the usage joins the queue, the preempted holders are blocked and their
    counts raised, and `blocked_usage_count` says whether it was refused. -/
structure Acquired (cap : Capability) (rank : UsageFromTask → Nat) (pinned : UsageFromTask → Prop)
    (c : BlockedUsageCounts) (v : LockQueue UsageFromTask) (a : UsageFromTask)
    (q' : UsageQueueInner) (c' : BlockedUsageCounts) (v' : LockQueue UsageFromTask)
    (refused : Bool) : Prop where
  inv : QueueInv cap rank pinned q' v'
  joined : (usages v').Perm (a :: usages v)
  waiters : v'.waiters.Perm
    ((if refused then [a] else []) ++ (preempted exclusive rank pinned v a ++ v.waiters))
  counts : CountsAdd c c' (preempted exclusive rank pinned v a)

theorem prepareAndTryLock_returns (hq : QueueInv cap rank pinned q v)
    (hready : LockReady cap rank pinned c v a) :
    Locks cap rank pinned c v a (q.prepareAndTryLock c a.2 a.1) := by
  have hcap := hq.capability
  cases q with
  | fifo cur blocked =>
    subst hcap
    refine fifo_prepareAndTryLock hq.represents hq.wf ?_
      (fun b hb => hready.fifo rfl b (mem_usages.mpr hb))
    intro hmem
    apply hready.fresh
    rw [usages, taskIds_append]
    exact mem_append_left _ hmem
  | priority cur blocked =>
    subst hcap
    obtain ⟨rfl, hpin⟩ := hready.priority rfl
    refine priority_prepareAndTryLock hq.wf hpin hready.nodup hq.represents ?_
    intro b hb heq
    have hin : b.2.taskId ∈ taskIds (usages v) := mem_taskIds (mem_usages.mpr hb)
    rw [show b.2.taskId = a.2.taskId from heq.symm] at hin
    exact hready.fresh hin

variable {r : LockResult × BlockedUsageCounts × UsageQueueInner}

section

variable (hwf : v.WF exclusive rank pinned) (h : Locked cap rank pinned c v a r v')
include hwf h

theorem Locked.acquired
    (hok : r.1 = .ok) : Acquired cap rank pinned c v a r.2.2 r.2.1 v' false := by
  rcases h.result with ⟨-, hg, hH⟩ | ⟨herr, -⟩
  · refine ⟨⟨h.capability, h.represents, hwf.granted hg hH h.waiters h.sorted⟩, ?_, h.waiters,
      h.counts⟩
    exact (hH.append h.waiters).trans ((kept_append_blocked_perm v a).cons a)
  · rw [hok] at herr
    cases herr

theorem Acquired.of_pushed {q' : UsageQueueInner} (herr : r.1 = .err)
    (hfresh : ∀ b ∈ usages v, rank a ≠ rank b) (hcap : q'.capability = cap)
    (hrep : q'.Represents ⟨v'.holders, ws⟩) (hws : ws.Perm (a :: v'.waiters))
    (hsorted : ws.Pairwise (fun a b => rank a < rank b)) :
    Acquired cap rank pinned c v a q' r.2.1 ⟨v'.holders, ws⟩ true := by
  rcases h.result with ⟨hok, -⟩ | ⟨-, hg, hH⟩
  · rw [herr] at hok
    cases hok
  · have hW : ws.Perm (a :: (preempted exclusive rank pinned v a ++ v.waiters)) :=
      hws.trans (h.waiters.cons a)
    refine ⟨⟨hcap, hrep, ?_⟩, ?_, hW, h.counts⟩
    · exact hwf.denied (fun b hb => hfresh b (mem_usages.mpr hb)) hg hH hW hsorted
    · exact (hH.append hW).trans (perm_middle.trans ((kept_append_blocked_perm v a).cons a))

end

end Agave.Scheduler

