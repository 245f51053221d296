/-
  Agave.Scheduler.StateMachine

  `SchedulingStateMachine`: scheduling or buffering a task, handing out the next unblocked one,
  descheduling, and clearing.

  The machine's two tokens stand for exclusive access to the cells of tasks and usage queues; here
  the cells themselves (`Cells`) are a part of the machine. `usage_queue_loader` returns the same
  queue for the same address, so the queues are one map from addresses.
-/

import Agave.Scheduler.UsageQueue
import Mathlib.Data.Finset.Card

namespace Agave.Scheduler

open Agave.Lib

/-- The mutable cells the machine's tokens give access to. -/
structure Cells where
  /-- The cells owned by `count_token`. -/
  blockedUsageCounts : BlockedUsageCounts
  /-- The cells owned by `usage_queue_token`. -/
  usageQueues : Pubkey → UsageQueueInner

/-- The machine.  `max_running_task_count` and every counter are `u32`. -/
structure SchedulingStateMachine where
  unblockedTaskQueue : List Task
  activeTaskCount : ShortCounter
  peakActiveTaskCount : ShortCounter
  droppedTaskCount : ShortCounter
  maxUniqueActiveTaskCount : Option Nat
  uniqueActiveTaskHashes : Finset Hash
  runningTaskCount : ShortCounter
  maxRunningTaskCount : Nat
  handledTaskCount : ShortCounter
  unblockedTaskCount : ShortCounter
  totalTaskCount : ShortCounter
  cells : Cells

/-! ## Locking and unlocking the usage queues of a task -/

/-- `prepare_lock(..).and_then(|()| try_lock(..))`. -/
def UsageQueueInner.prepareAndTryLock (counts : BlockedUsageCounts) (task : Task)
    (requestedUsage : RequestedUsage) (queue : UsageQueueInner) :
    Except Panic (LockResult × BlockedUsageCounts × UsageQueueInner) := do
  let (prepared, counts, queue) ← queue.prepareLock counts task requestedUsage
  match prepared with
  | .err => pure (.err, counts, queue)
  | .ok => do
    let (lockResult, queue) ← queue.tryLock task requestedUsage
    pure (lockResult, counts, queue)

/-- The body of the loop of `try_lock_usage_queues`. -/
def lockContext (task : Task) (context : LockContext) (blockedUsageCount : ShortCounter)
    (cells : Cells) : Except Panic (ShortCounter × Cells) := do
  let (lockResult, counts, queue) ← (cells.usageQueues context.usageQueue).prepareAndTryLock
    cells.blockedUsageCounts task context.requestedUsage
  match lockResult with
  | .ok => pure (blockedUsageCount,
      ⟨counts, Function.update cells.usageQueues context.usageQueue queue⟩)
  | .err => do
    let blockedUsageCount ← blockedUsageCount.increment
    let queue ← queue.pushBlocked (context.requestedUsage, task)
    pure (blockedUsageCount,
      ⟨counts, Function.update cells.usageQueues context.usageQueue queue⟩)

def lockContexts (task : Task) :
    List LockContext → ShortCounter → Cells → Except Panic (ShortCounter × Cells)
  | [], blockedUsageCount, cells => pure (blockedUsageCount, cells)
  | context :: rest, blockedUsageCount, cells => do
    let (blockedUsageCount, cells) ← lockContext task context blockedUsageCount cells
    lockContexts task rest blockedUsageCount cells

/-- Whether all usages were acquired, and the cells afterwards. -/
def tryLockUsageQueues (task : Task) (cells : Cells) : Except Panic (Option Task × Cells) := do
  let (blockedUsageCount, cells) ← lockContexts task task.lockContexts ShortCounter.zero cells
  if blockedUsageCount.isZero then
    pure (some task, cells)
  else
    pure (none, { cells with
      blockedUsageCounts := task.setBlockedUsageCount cells.blockedUsageCounts blockedUsageCount })

/-- The `while` loop of `unlock_usage_queues` for one usage queue: `newlyLockable`
    is relocked and unblocked, then readonly usages behind a readonly one follow.
    Each round but the last pops a blocked usage, which bounds the loop. -/
def relockUsages : Nat → Option UsageFromTask → UsageQueueInner → BlockedUsageCounts → List Task →
    Except Panic (UsageQueueInner × BlockedUsageCounts × List Task)
  | _, none, queue, counts, unblocked => pure (queue, counts, unblocked)
  | 0, some _, _, _, _ => .error .loopBound
  | bound + 1, some (lockableUsage, lockableTask), queue, counts, unblocked => do
    let (lockResult, queue) ← queue.tryLock lockableTask lockableUsage
    match lockResult with
    | .err => .error .relockRefused
    | .ok =>
      let (unblockedTask, counts) ← lockableTask.tryUnblock counts
      let unblocked := unblocked ++ unblockedTask.toList
      let (newlyLockable, queue) ←
        match lockableUsage with
        | .readonly => queue.popLockableReadonly
        | .writable => pure (none, queue)
      relockUsages bound newlyLockable queue counts unblocked

/-- How many usages are blocked in a queue. -/
def UsageQueueInner.blockedLen : UsageQueueInner → Nat
  | .fifo _ blocked => blocked.length
  | .priority _ blocked => blocked.entries.length

/-- The body of the loop of `unlock_usage_queues`. -/
def unlockContext (task : Task) (context : LockContext) (cells : Cells) (unblocked : List Task) :
    Except Panic (Cells × List Task) := do
  let queue := cells.usageQueues context.usageQueue
  let bound := queue.blockedLen
  let (newlyLockable, queue) ← queue.unlock task context.requestedUsage
  let (queue, counts, unblocked) ←
    relockUsages bound newlyLockable queue cells.blockedUsageCounts unblocked
  pure (⟨counts, Function.update cells.usageQueues context.usageQueue queue⟩, unblocked)

/-- `unlock_usage_queues`; the list collects what is pushed to `unblocked_task_queue`. -/
def unlockContexts (task : Task) :
    List LockContext → Cells → List Task → Except Panic (Cells × List Task)
  | [], cells, unblocked => pure (cells, unblocked)
  | context :: rest, cells, unblocked => do
    let (cells, unblocked) ← unlockContext task context cells unblocked
    unlockContexts task rest cells unblocked

namespace SchedulingStateMachine

/-! ## The public operations -/

variable (m : SchedulingStateMachine) (task : Task)

def hasNoRunningTask : Bool := m.runningTaskCount.isZero

def hasNoActiveTask : Bool := m.activeTaskCount.isZero

def isTaskRunnable : Bool :=
  m.runningTaskCount.current < m.maxRunningTaskCount

/-- `exclusively_initialize_current_thread_for_scheduling`: `none` as the running
    limit is `u32::MAX`.  The machine starts with every usage queue as its loader
    created it and every task cell at zero. -/
def new (capability : Capability) (maxRunningTaskCount maxUniqueActiveTaskCount : Option Nat) :
    SchedulingStateMachine where
  unblockedTaskQueue := []
  activeTaskCount := .zero
  peakActiveTaskCount := .zero
  droppedTaskCount := .zero
  maxUniqueActiveTaskCount := maxUniqueActiveTaskCount
  uniqueActiveTaskHashes := ∅
  runningTaskCount := .zero
  maxRunningTaskCount := maxRunningTaskCount.getD (2 ^ 32 - 1)
  handledTaskCount := .zero
  unblockedTaskCount := .zero
  totalTaskCount := .zero
  cells := ⟨fun _ => .zero, fun _ => UsageQueueInner.new capability⟩

/-- The unique-task cap at the top of `schedule_or_buffer_task`: the machine with
    the task's hash entered, or `none` when the task is in excess or a duplicate. -/
def admitUnique : Option SchedulingStateMachine :=
  match m.maxUniqueActiveTaskCount with
  | none => some m
  | some maxUniqueActiveTaskCount =>
    if maxUniqueActiveTaskCount ≤ m.uniqueActiveTaskHashes.card then none
    else if task.hash ∈ m.uniqueActiveTaskHashes then none
    else some { m with uniqueActiveTaskHashes := insert task.hash m.uniqueActiveTaskHashes }

/-- Lock an admitted task, then return, buffer or block it. -/
def scheduleAdmitted (forceBuffering : Bool) : Except Panic (Option Task × SchedulingStateMachine) := do
  let activeTaskCount ← m.activeTaskCount.increment
  let m := { m with
    activeTaskCount := activeTaskCount
    peakActiveTaskCount := m.peakActiveTaskCount.max activeTaskCount }
  let (locked, cells) ← tryLockUsageQueues task m.cells
  let m := { m with cells := cells }
  match locked with
  | none => pure (none, m)
  | some task =>
    if !m.isTaskRunnable || forceBuffering then do
      let unblockedTaskCount ← m.unblockedTaskCount.increment
      pure (none, { m with
        unblockedTaskCount := unblockedTaskCount
        unblockedTaskQueue := m.unblockedTaskQueue ++ [task] })
    else do
      let runningTaskCount ← m.runningTaskCount.increment
      pure (some task, { m with runningTaskCount := runningTaskCount })

def scheduleOrBufferTask (forceBuffering : Bool) : Except Panic
    (Option Task × SchedulingStateMachine) := do
  let totalTaskCount ← m.totalTaskCount.increment
  let m := { m with totalTaskCount := totalTaskCount }
  match m.admitUnique task with
  | none => do
    let droppedTaskCount ← m.droppedTaskCount.increment
    pure (none, { m with droppedTaskCount := droppedTaskCount })
  | some m => m.scheduleAdmitted task forceBuffering

def bufferTask : Except Panic SchedulingStateMachine := do
  match ← m.scheduleOrBufferTask task true with
  | (none, m) => pure m
  | (some _, _) => .error .bufferedTaskReturned

def scheduleNextUnblockedTask : Except Panic (Option Task × SchedulingStateMachine) :=
  if !m.isTaskRunnable then pure (none, m)
  else
    match m.unblockedTaskQueue with
    | [] => pure (none, m)
    | task :: rest => do
      let runningTaskCount ← m.runningTaskCount.increment
      let unblockedTaskCount ← m.unblockedTaskCount.increment
      pure (some task, { m with
        unblockedTaskQueue := rest
        runningTaskCount := runningTaskCount
        unblockedTaskCount := unblockedTaskCount })

/-- `assert!(self.unique_active_task_hashes.remove(..))`, when the cap is set. -/
def removeHash : Except Panic (Finset Hash) :=
  match m.maxUniqueActiveTaskCount with
  | none => pure m.uniqueActiveTaskHashes
  | some _ =>
    if task.hash ∈ m.uniqueActiveTaskHashes then
      pure (m.uniqueActiveTaskHashes.erase task.hash)
    else .error .hashNotActive

def descheduleTask : Except Panic SchedulingStateMachine := do
  let runningTaskCount ← m.runningTaskCount.decrement
  let hashes ← m.removeHash task
  let activeTaskCount ← m.activeTaskCount.decrement
  let handledTaskCount ← m.handledTaskCount.increment
  let (cells, unblockedTaskQueue) ←
    unlockContexts task task.lockContexts m.cells m.unblockedTaskQueue
  pure { m with
    runningTaskCount := runningTaskCount
    uniqueActiveTaskHashes := hashes
    activeTaskCount := activeTaskCount
    handledTaskCount := handledTaskCount
    cells := cells
    unblockedTaskQueue := unblockedTaskQueue }

def reinitialize : Except Panic SchedulingStateMachine :=
  if m.hasNoActiveTask ∧ m.uniqueActiveTaskHashes.card = 0 ∧
      m.runningTaskCount.current = 0 ∧ m.unblockedTaskQueue.length = 0 then
    pure { m with
      activeTaskCount := .zero
      peakActiveTaskCount := .zero
      droppedTaskCount := .zero
      handledTaskCount := .zero
      unblockedTaskCount := .zero
      totalTaskCount := .zero }
  else .error .reinitializeWhileActive

/-- The `while let` loop of `clear_and_reinitialize`, with the tasks it cleared in order. -/
def clearLoop : Nat → ShortCounter → SchedulingStateMachine →
    Except Panic (ShortCounter × List Task × SchedulingStateMachine)
  | 0, _, _ => .error .loopBound
  | bound + 1, count, m => do
    match ← m.scheduleNextUnblockedTask with
    | (none, m) => pure (count, [], m)
    | (some task, m) => do
      let m ← m.descheduleTask task
      let count ← count.increment
      let (count, cleared, m) ← clearLoop bound count m
      pure (count, task :: cleared, m)

/-- `clear_and_reinitialize`, with a bound on its loop: the number of tasks
    cleared, and the machine. -/
def clearAndReinitialize (bound : Nat) : Except Panic (Nat × SchedulingStateMachine) := do
  let (count, _, m) ← clearLoop bound .zero m
  let m ← SchedulingStateMachine.reinitialize m
  pure (count.current, m)

end SchedulingStateMachine

end Agave.Scheduler
