/-
  Agave.Scheduler.UsageQueue

  The per-address half of the unified scheduler (`unified-scheduler-logic/src/lib.rs`): counters,
  tasks, and the usage queue of one address in its two capabilities.

  Memory is explicit.  A task is shared by `Arc` and owns one mutable cell, its
  `blocked_usage_count`; the cells of all tasks are one map from task ids (`BlockedUsageCounts`),
  threaded through the functions that take the `BlockedUsageCountToken`.  A `UsageQueue` is likewise
  a shared cell and is referred to by the address it was loaded for.

  A function that can panic returns `Except Panic`, with one constructor for each panic site, so
  that reaching one is something a theorem can exclude.
-/

import Agave.Basic
import Agave.Lib.BTreeMap

namespace Agave.Scheduler

open Agave.Lib

/-! ## Panics and counters -/

/-- The panic sites of the crate. -/
inductive Panic where
  /-- `ShortCounter::increment`: `checked_add(1).unwrap()`. -/
  | counterOverflow
  /-- `ShortCounter::decrement`: `checked_sub(1).unwrap()`. -/
  | counterUnderflow
  /-- `TaskInner::is_higher_priority`: comparing a task with itself. -/
  | selfComparison
  /-- `unwrap_none()` of a map insertion in `try_lock` or `insert_usage_from_task`. -/
  | usageAlreadyPresent
  /-- `PriorityUsage::take_readable`. -/
  | takeReadable
  /-- `PriorityUsage::take_writable`. -/
  | takeWritable
  /-- `unlock`: `unreachable!()` on a writable request against a readonly usage. -/
  | unlockWritableFromReadonly
  /-- `unlock`: `assert_matches!(requested_usage, Writable)`. -/
  | unlockReadonlyFromWritable
  /-- `unlock`: `unreachable!()` on an unused queue. -/
  | unlockUnused
  /-- `unlock`: `tasks.remove(..).unwrap()`. -/
  | unlockMissingTask
  /-- `push_blocked`: `assert_matches!(self.current_usage(), Some(_))`. -/
  | pushBlockedUnused
  /-- `pop_lockable_readonly`: `assert_matches!(self.current_usage(), Some(Readonly))`. -/
  | popLockableNotReadonly
  /-- `prepare_lock`: `assert!(blocked_usages_from_tasks.is_empty())`. -/
  | blockedOnUnused
  /-- `prepare_lock`: `assert_matches!(peeked_usage, RequestedUsage::Writable)`. -/
  | peekedNotWritable
  /-- `unlock_usage_queues`: `try_lock(..).unwrap()`. -/
  | relockRefused
  /-- `deschedule_task`: `assert!(self.unique_active_task_hashes.remove(..))`. -/
  | hashNotActive
  /-- `buffer_task`: `unwrap_none()`. -/
  | bufferedTaskReturned
  /-- `reinitialize`: one of its four leading asserts. -/
  | reinitializeWhileActive
  /-- The bound put on a `while` loop of the source was reached. -/
  | loopBound
deriving DecidableEq, Repr

/-- `ShortCounter`: a `u32` whose arithmetic is checked. -/
structure ShortCounter where
  current : Nat
  isLt : current < 2 ^ 32
deriving DecidableEq, Repr

namespace ShortCounter

def zero : ShortCounter := ⟨0, by decide⟩

def one : ShortCounter := ⟨1, by decide⟩

variable (c : ShortCounter)

def isOne : Bool := c.current == 1

def isZero : Bool := c.current == 0

def increment : Except Panic ShortCounter :=
  if h : c.current + 1 < 2 ^ 32 then .ok ⟨c.current + 1, h⟩ else .error .counterOverflow

def decrement : Except Panic ShortCounter :=
  if c.current = 0 then .error .counterUnderflow
  else .ok ⟨c.current - 1, by have := c.isLt; omega⟩

/-- `max_self`. -/
def max (c other : ShortCounter) : ShortCounter :=
  if c.current ≤ other.current then other else c

theorem current_zero : zero.current = 0 := rfl

theorem isZero_iff {c : ShortCounter} : c.isZero = true ↔ c.current = 0 := by
  simp [isZero]

theorem increment_returns_or_full (c : ShortCounter) :
    Returns (fun e => e = Panic.counterOverflow ∧ 2 ^ 32 ≤ c.current + 1)
      (fun c' => c'.current = c.current + 1) c.increment := by
  unfold increment
  split
  · exact rfl
  · rename_i h
    exact ⟨rfl, not_lt.mp h⟩

theorem increment_returns (c : ShortCounter) :
    Returns (· = Panic.counterOverflow) (fun c' => c'.current = c.current + 1) c.increment :=
  c.increment_returns_or_full.weaken (fun _ h => h.1)

theorem decrement_returns {c : ShortCounter} (h : c.current ≠ 0) (allowed : Panic → Prop) :
    Returns allowed (fun c' => c'.current + 1 = c.current) c.decrement := by
  unfold decrement
  rw [if_neg h]
  simp only [Returns.ok_iff]
  omega

end ShortCounter

/-! ## Tasks -/

abbrev OrderedTaskId := Nat

/-- Status about how a task is requesting to use a particular usage queue. -/
inductive RequestedUsage where
  | readonly
  | writable
deriving DecidableEq, Repr

/-- A task's per-address context: the usage queue, by its address, and the kind of request. -/
structure LockContext where
  usageQueue : Pubkey
  requestedUsage : RequestedUsage
deriving DecidableEq, Repr

/-- `TaskInner`, without its mutable cell.  The transaction is present through
    its message hash, the only part of it the scheduler looks at. -/
structure Task where
  taskId : OrderedTaskId
  hash : Hash
  lockContexts : List LockContext
deriving DecidableEq, Repr

/-- The cells `TaskInner::blocked_usage_count`, by task id. -/
abbrev BlockedUsageCounts := OrderedTaskId → ShortCounter

namespace Task

def isHigherPriority (self other : Task) : Except Panic Bool :=
  match compare self.taskId other.taskId with
  | .lt => .ok true
  | .gt => .ok false
  | .eq => .error .selfComparison

variable (self : Task) (counts : BlockedUsageCounts)

def setBlockedUsageCount (count : ShortCounter) : BlockedUsageCounts :=
  Function.update counts self.taskId count

/-- Decrement the blocked count; the task itself is returned when it reaches zero. -/
def tryUnblock : Except Panic (Option Task × BlockedUsageCounts) := do
  let usageCount ← (counts self.taskId).decrement
  let didUnblock := usageCount.isZero
  pure (if didUnblock then some self else none, Function.update counts self.taskId usageCount)

/-- Increment the blocked count, unless it is already zero. -/
def tryReblock : Except Panic (Bool × BlockedUsageCounts) :=
  if (counts self.taskId).isZero then pure (false, counts)
  else do
    let usageCount ← (counts self.taskId).increment
    pure (true, Function.update counts self.taskId usageCount)

end Task

/-! ## Usage queues -/

/-- `Result<(), ()>`. -/
inductive LockResult where
  | ok
  | err
deriving DecidableEq, Repr

/-- Status about how the usage queue is used currently. -/
inductive Usage (R W : Type) where
  | readonly (r : R)
  | writable (w : W)

def Usage.requestedUsage {R W : Type} : Usage R W → RequestedUsage
  | .readonly _ => .readonly
  | .writable _ => .writable

abbrev FifoUsage := Usage ShortCounter Unit

abbrev PriorityUsage := Usage (BTreeMap OrderedTaskId Task) Task

def FifoUsage.from : RequestedUsage → FifoUsage
  | .readonly => .readonly ShortCounter.one
  | .writable => .writable ()

def PriorityUsage.from (task : Task) : RequestedUsage → PriorityUsage
  | .readonly => .readonly (BTreeMap.singleton task.taskId task)
  | .writable => .writable task

/-- `take_readable`: the new value of the place it takes from. -/
def PriorityUsage.takeReadable : Option PriorityUsage → Except Panic (Option PriorityUsage)
  | some (.readonly tasks) => if tasks.isEmpty then .ok none else .error .takeReadable
  | _ => .error .takeReadable

/-- `take_writable`: the task taken, and the new value of the place. -/
def PriorityUsage.takeWritable : Option PriorityUsage → Except Panic (Task × Option PriorityUsage)
  | some (.writable task) => .ok (task, none)
  | _ => .error .takeWritable

abbrev UsageFromTask := RequestedUsage × Task

abbrev PriorityUsageQueue := BTreeMap OrderedTaskId UsageFromTask

namespace PriorityUsageQueue

variable (queue : PriorityUsageQueue)

def insertUsageFromTask (usageFromTask : UsageFromTask) :
    Except Panic PriorityUsageQueue :=
  match queue.insert usageFromTask.2.taskId usageFromTask with
  | (none, queue) => .ok queue
  | (some _, _) => .error .usageAlreadyPresent

def popFirstUsageFromTask :
    Option UsageFromTask × PriorityUsageQueue :=
  let (entry, queue) := queue.popFirst
  (entry.map Prod.snd, queue)

def firstUsageFromTask : Option UsageFromTask :=
  queue.first?.map Prod.snd

end PriorityUsageQueue

inductive Capability where
  | fifoQueueing
  | priorityQueueing
deriving DecidableEq, Repr

/-- Internal scheduling data about a particular address. -/
inductive UsageQueueInner where
  | fifo (currentUsage : Option FifoUsage) (blockedUsagesFromTasks : List UsageFromTask)
  | priority (currentUsage : Option PriorityUsage) (blockedUsagesFromTasks : PriorityUsageQueue)

namespace UsageQueueInner

def new : Capability → UsageQueueInner
  | .fifoQueueing => .fifo none []
  | .priorityQueueing => .priority none BTreeMap.empty

def tryLock (newTask : Task) (requestedUsage : RequestedUsage) :
    UsageQueueInner → Except Panic (LockResult × UsageQueueInner)
  | .fifo currentUsage blocked =>
    match currentUsage with
    | none => pure (.ok, .fifo (some (FifoUsage.from requestedUsage)) blocked)
    | some (.readonly count) =>
      match requestedUsage with
      | .readonly => do
        let count ← count.increment
        pure (.ok, .fifo (some (.readonly count)) blocked)
      | .writable => pure (.err, .fifo currentUsage blocked)
    | some (.writable ()) => pure (.err, .fifo currentUsage blocked)
  | .priority currentUsage blocked =>
    match currentUsage with
    | some (.readonly tasks) =>
      match requestedUsage with
      | .readonly =>
        match tasks.insert newTask.taskId newTask with
        | (none, tasks) => pure (.ok, .priority (some (.readonly tasks)) blocked)
        | (some _, _) => .error .usageAlreadyPresent
      | .writable => pure (.err, .priority currentUsage blocked)
    | some (.writable _) => pure (.err, .priority currentUsage blocked)
    | none => pure (.ok, .priority (some (PriorityUsage.from newTask requestedUsage)) blocked)

def currentUsage : UsageQueueInner → Option RequestedUsage
  | .fifo currentUsage _ => currentUsage.map Usage.requestedUsage
  | .priority currentUsage _ => currentUsage.map Usage.requestedUsage

def pop : UsageQueueInner → Option UsageFromTask × UsageQueueInner
  | .fifo currentUsage blocked => (blocked.head?, .fifo currentUsage blocked.tail)
  | .priority currentUsage blocked =>
    let (usageFromTask, blocked) := blocked.popFirstUsageFromTask
    (usageFromTask, .priority currentUsage blocked)

def push (usageFromTask : UsageFromTask) : UsageQueueInner → Except Panic UsageQueueInner
  | .fifo currentUsage blocked => pure (.fifo currentUsage (blocked ++ [usageFromTask]))
  | .priority currentUsage blocked => do
    let blocked ← blocked.insertUsageFromTask usageFromTask
    pure (.priority currentUsage blocked)

def peekBlocked : UsageQueueInner → Option UsageFromTask
  | .fifo _ blocked => blocked.head?
  | .priority _ blocked => blocked.firstUsageFromTask

/-- `unlock` up to its last line: whether the queue became newly lockable, and
    the queue with its current usage updated. -/
def unlockCurrentUsage (task : Task) (requestedUsage : RequestedUsage) :
    UsageQueueInner → Except Panic (Bool × UsageQueueInner)
  | .fifo currentUsage blocked =>
    match currentUsage with
    | some (.readonly count) =>
      match requestedUsage with
      | .readonly =>
        if count.isOne then pure (true, .fifo none blocked)
        else do
          let count ← count.decrement
          pure (false, .fifo (some (.readonly count)) blocked)
      | .writable => .error .unlockWritableFromReadonly
    | some (.writable ()) =>
      match requestedUsage with
      | .writable => pure (true, .fifo none blocked)
      | .readonly => .error .unlockReadonlyFromWritable
    | none => .error .unlockUnused
  | .priority currentUsage blocked =>
    match currentUsage with
    | some (.readonly tasks) =>
      match requestedUsage with
      | .readonly =>
        match tasks.remove task.taskId with
        | (none, _) => .error .unlockMissingTask
        | (some _, tasks) =>
          if tasks.isEmpty then pure (true, .priority none blocked)
          else pure (false, .priority (some (.readonly tasks)) blocked)
      | .writable => .error .unlockWritableFromReadonly
    | some (.writable _) =>
      match requestedUsage with
      | .writable => pure (true, .priority none blocked)
      | .readonly => .error .unlockReadonlyFromWritable
    | none => .error .unlockUnused

def unlock (task : Task) (requestedUsage : RequestedUsage) (queue : UsageQueueInner) :
    Except Panic (Option UsageFromTask × UsageQueueInner) := do
  let (isNewlyLockable, queue) ← queue.unlockCurrentUsage task requestedUsage
  if isNewlyLockable then pure queue.pop else pure (none, queue)

def pushBlocked (usageFromTask : UsageFromTask) (queue : UsageQueueInner) :
    Except Panic UsageQueueInner :=
  match queue.currentUsage with
  | some _ => queue.push usageFromTask
  | none => .error .pushBlockedUnused

def popLockableReadonly (queue : UsageQueueInner) :
    Except Panic (Option UsageFromTask × UsageQueueInner) :=
  match queue.peekBlocked with
  | some (.readonly, _) =>
    match queue.currentUsage with
    | some .readonly => pure queue.pop
    | _ => .error .popLockableNotReadonly
  | _ => pure (none, queue)

/-- The `for` loop that queues the reblocked readonly tasks. -/
def insertReblocked (blocked : PriorityUsageQueue) :
    List (OrderedTaskId × Task) → Except Panic PriorityUsageQueue
  | [] => pure blocked
  | (_, reblockedTask) :: rest => do
    let blocked ← blocked.insertUsageFromTask (.readonly, reblockedTask)
    insertReblocked blocked rest

/-- Make room for `newTask` right before the actual locking.  In the priority capability this is
    where usages are taken back from lower-priority tasks that cannot be running yet. -/
def prepareLock (counts : BlockedUsageCounts) (newTask : Task) (requestedUsage : RequestedUsage) :
    UsageQueueInner → Except Panic (LockResult × BlockedUsageCounts × UsageQueueInner)
  | .fifo currentUsage blocked =>
    pure (if blocked.isEmpty then .ok else .err, counts, .fifo currentUsage blocked)
  | .priority none blocked =>
    if blocked.isEmpty then pure (.ok, counts, .priority none blocked)
    else .error .blockedOnUnused
  | .priority (some (.writable currentTask)) blocked => do
    let queue := UsageQueueInner.priority (some (.writable currentTask)) blocked
    if !(← newTask.isHigherPriority currentTask) then
      return (.err, counts, queue)
    let (reblocked, counts) ← currentTask.tryReblock counts
    if !reblocked then
      return (.err, counts, queue)
    let (reblockedTask, currentUsage) ← PriorityUsage.takeWritable (some (.writable currentTask))
    let blocked ← blocked.insertUsageFromTask (.writable, reblockedTask)
    pure (.ok, counts, .priority currentUsage blocked)
  | .priority (some (.readonly currentTasks)) blocked =>
    match requestedUsage with
    | .readonly =>
      let queue := UsageQueueInner.priority (some (.readonly currentTasks)) blocked
      match queue.peekBlocked with
      | none => pure (.ok, counts, queue)
      | some (.readonly, _) => .error .peekedNotWritable
      | some (.writable, peekedTask) => do
        if !(← newTask.isHigherPriority peekedTask) then
          return (.err, counts, queue)
        pure (.ok, counts, queue)
    | .writable => do
      let (currentTasks, reblockedTasks, counts) ←
        currentTasks.extractIf newTask.taskId (fun counts _ task => task.tryReblock counts) counts
      let blocked ← insertReblocked blocked reblockedTasks
      if currentTasks.isEmpty then
        let currentUsage ← PriorityUsage.takeReadable (some (.readonly currentTasks))
        pure (.ok, counts, .priority currentUsage blocked)
      else
        pure (.err, counts, .priority (some (.readonly currentTasks)) blocked)

end UsageQueueInner

end Agave.Scheduler
