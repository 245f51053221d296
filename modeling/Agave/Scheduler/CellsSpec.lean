/-
  Agave.Scheduler.CellsSpec

  The usage queues of all addresses and the blocked counts of all tasks, taken together.

  `CellsInv` ties them: every queue is a well-formed lock queue whose usages are exactly the
  requests made of that address, and every task's count is the number of its queues in which it is
  blocked.  The loops of `try_lock_usage_queues` and `unlock_usage_queues` go over the contexts of
  one task; each round adds or removes one request and keeps `CellsInv`.
-/

import Agave.Scheduler.QueueUnlock

namespace Agave.Scheduler

open Agave.Lib Agave.Lib.LockQueue Function List

/-! ## Requests -/

/-- The addresses a task uses. -/
def Task.addresses (t : Task) : List Pubkey := t.lockContexts.map LockContext.usageQueue

/-- Two tasks conflict when they share an address that one of them writes. -/
def Task.Conflict (t t' : Task) : Prop :=
  ∃ c ∈ t.lockContexts, ∃ c' ∈ t'.lockContexts, c.usageQueue = c'.usageQueue ∧
    (c.requestedUsage = .writable ∨ c'.requestedUsage = .writable)

variable {t t' : Task} {ts : List Task}

theorem Task.Conflict.symm (h : t.Conflict t') : t'.Conflict t := by
  obtain ⟨c, hc, c', hc', haddr, hw⟩ := h
  exact ⟨c', hc', c, hc, haddr.symm, hw.symm⟩

/-- The usages that the contexts `cs` of task `t` request of the address `x`. -/
def contextUsages (t : Task) (cs : List LockContext) (x : Pubkey) : List UsageFromTask :=
  (cs.filter (fun c => c.usageQueue = x)).map (fun c => (c.requestedUsage, t))

/-- What the tasks `ts` request of the address `x`. -/
def requests (ts : List Task) (x : Pubkey) : List UsageFromTask :=
  ts.flatMap (fun t => contextUsages t t.lockContexts x)

/-- Requests `req`, and those of the contexts `cs` of `t` on top. -/
def addRequests (req : Pubkey → List UsageFromTask) (t : Task) (cs : List LockContext)
    (x : Pubkey) : List UsageFromTask :=
  contextUsages t cs x ++ req x

variable {cs : List LockContext} {x : Pubkey} {u : UsageFromTask} {q : UsageQueueInner}
  {ctx : LockContext} {c : BlockedUsageCounts}

theorem mem_contextUsages : u ∈ contextUsages t cs x ↔ u.2 = t ∧ ⟨x, u.1⟩ ∈ cs := by
  unfold contextUsages
  constructor
  · intro h
    obtain ⟨c, hc, rfl⟩ := mem_map.mp h
    obtain ⟨hmem, hx⟩ := mem_filter.mp hc
    have hx : c.usageQueue = x := by simpa using hx
    subst hx
    exact ⟨rfl, hmem⟩
  · rintro ⟨rfl, hmem⟩
    exact mem_map.mpr ⟨⟨x, u.1⟩, mem_filter.mpr ⟨hmem, by simp⟩, rfl⟩

theorem mem_requests : u ∈ requests ts x ↔ u.2 ∈ ts ∧ ⟨x, u.1⟩ ∈ u.2.lockContexts := by
  unfold requests
  rw [mem_flatMap]
  constructor
  · rintro ⟨t, ht, hu⟩
    obtain ⟨rfl, hmem⟩ := mem_contextUsages.mp hu
    exact ⟨ht, hmem⟩
  · rintro ⟨ht, hmem⟩
    exact ⟨u.2, ht, mem_contextUsages.mpr ⟨rfl, hmem⟩⟩

theorem contextUsages_self (t : Task) (c : LockContext) :
    contextUsages t [c] c.usageQueue = [(c.requestedUsage, t)] := by
  simp [contextUsages]

theorem contextUsages_of_ne (t : Task) {c : LockContext} (h : c.usageQueue ≠ x) :
    contextUsages t [c] x = [] := by
  simp [contextUsages, h]

theorem contextUsages_cons (t : Task) (c : LockContext) (cs : List LockContext) (x : Pubkey) :
    contextUsages t (c :: cs) x = contextUsages t [c] x ++ contextUsages t cs x := by
  by_cases h : c.usageQueue = x <;> simp [contextUsages, h]

/-- Among distinct addresses a task makes at most one request of each. -/
theorem contextUsages_length_le (h : (cs.map LockContext.usageQueue).Nodup) (x : Pubkey) :
    (contextUsages t cs x).length ≤ 1 := by
  induction cs with
  | nil => simp [contextUsages]
  | cons c cs ih =>
    obtain ⟨hnot, hrest⟩ := nodup_cons.mp h
    rw [contextUsages_cons, length_append]
    by_cases hx : c.usageQueue = x
    · subst hx
      have hnil : contextUsages t cs c.usageQueue = [] := by
        refine eq_nil_iff_forall_not_mem.mpr ?_
        intro u hu
        exact hnot (mem_map.mpr ⟨_, (mem_contextUsages.mp hu).2, rfl⟩)
      rw [hnil, contextUsages_self]
      simp
    · rw [contextUsages_of_ne t hx]
      simpa using ih hrest

/-- Tasks with distinct ids and, each, distinct addresses. -/
structure WellFormedTasks (ts : List Task) : Prop where
  ids : (ts.map Task.taskId).Nodup
  addresses : ∀ t ∈ ts, t.addresses.Nodup

theorem WellFormedTasks.eq_of_taskId (h : WellFormedTasks ts) (ht : t ∈ ts)
    (ht' : t' ∈ ts) (hid : t.taskId = t'.taskId) : t = t' :=
  inj_on_of_nodup_map h.ids ht ht' hid

variable {ts' : List Task}

theorem WellFormedTasks.sublist (h : WellFormedTasks ts) (hs : ts'.Sublist ts) :
    WellFormedTasks ts' where
  ids := h.ids.sublist (hs.map _)
  addresses := fun t ht => h.addresses t (hs.subset ht)

theorem nodup_requests (h : WellFormedTasks ts) (x : Pubkey) : (taskIds (requests ts x)).Nodup := by
  induction ts with
  | nil => exact nodup_nil
  | cons t ts ih =>
    have hts : WellFormedTasks ts := h.sublist (sublist_cons_self _ _)
    show (taskIds (contextUsages t t.lockContexts x ++ requests ts x)).Nodup
    rw [taskIds_append, nodup_append]
    refine ⟨?_, ih hts, ?_⟩
    · have hlen := contextUsages_length_le (t := t) (h.addresses t mem_cons_self) x
      match hu : contextUsages t t.lockContexts x with
      | [] => exact nodup_nil
      | [u] => exact nodup_singleton _
      | u :: u' :: us => rw [hu] at hlen; simp at hlen
    · intro id hid id' hid' heq
      obtain ⟨u, hu, hu'⟩ := mem_taskIds_iff.mp hid
      obtain ⟨w, hw, hw'⟩ := mem_taskIds_iff.mp hid'
      have hut : u.2 = t := (mem_contextUsages.mp hu).1
      have hwt : w.2 ∈ ts := (mem_requests.mp hw).1
      have hnot := (nodup_cons.mp h.ids).1
      apply hnot
      rw [← hut, hu', heq, ← hw']
      exact mem_map_of_mem hwt

theorem requests_length_le (h : ∀ t ∈ ts, t.addresses.Nodup) (x : Pubkey) :
    (requests ts x).length ≤ ts.length := by
  induction ts with
  | nil => exact le_refl _
  | cons t ts ih =>
    have hhead := contextUsages_length_le (t := t) (h t mem_cons_self) x
    have htail := ih (fun t' ht' => h t' (mem_cons_of_mem _ ht'))
    show (contextUsages t t.lockContexts x ++ requests ts x).length ≤ _
    rw [length_append, length_cons]
    omega

theorem requests_perm (h : ts.Perm ts') (x : Pubkey) :
    (requests ts x).Perm (requests ts' x) := h.flatMap_right _

/-- Requests made by the tasks `ts`, at most one of each task and address. -/
structure ValidRequests (ts : List Task) (req : Pubkey → List UsageFromTask) : Prop where
  nodup : ∀ x, (taskIds (req x)).Nodup
  made : ∀ x, ∀ u ∈ req x, u.2 ∈ ts ∧ ⟨x, u.1⟩ ∈ u.2.lockContexts

theorem validRequests (h : WellFormedTasks ts) : ValidRequests ts (requests ts) where
  nodup := nodup_requests h
  made := fun _ _ hu => mem_requests.mp hu

theorem ValidRequests.subperm {req req' : Pubkey → List UsageFromTask} (h : ValidRequests ts req)
    (hsub : ∀ x, (req' x).Subperm (req x)) : ValidRequests ts req' where
  nodup := fun x => by
    obtain ⟨l, hl, hs⟩ := hsub x
    exact (hl.map (fun u : UsageFromTask => u.2.taskId)).nodup_iff.mp ((h.nodup x).sublist (hs.map _))
  made := fun x u hu => h.made x u ((hsub x).subset hu)

/-! ## Blocked counts -/

/-- The number of queues of `t` in which it is blocked. -/
def blockedCount (queues : Pubkey → UsageQueueInner) (t : Task) : Nat :=
  t.lockContexts.countP (fun c => t.taskId ∈ taskIds (queues c.usageQueue).blockedUsages)

theorem countP_update {p : UsageQueueInner → Bool} (hnd : (cs.map LockContext.usageQueue).Nodup)
    (queues : Pubkey → UsageQueueInner) :
    cs.countP (fun c => p (update queues x q c.usageQueue)) +
        (if x ∈ cs.map LockContext.usageQueue ∧ p (queues x) then 1 else 0) =
      cs.countP (fun c => p (queues c.usageQueue)) +
        (if x ∈ cs.map LockContext.usageQueue ∧ p q then 1 else 0) := by
  induction cs with
  | nil => simp
  | cons c cs ih =>
    obtain ⟨hnot, hrest⟩ := nodup_cons.mp hnd
    have ih := ih hrest
    rw [countP_cons, countP_cons, map_cons]
    by_cases hx : c.usageQueue = x
    · subst hx
      simp only [hnot, false_and, if_false, Nat.add_zero] at ih
      simp only [update_self, mem_cons, true_or, true_and]
      omega
    · have hx' : x ≠ c.usageQueue := fun h => hx h.symm
      simp only [update_of_ne hx, mem_cons, hx', false_or]
      omega

variable {queues : Pubkey → UsageQueueInner} {ctxs : List LockContext}
  {pinned : UsageFromTask → Prop} {rank : UsageFromTask → Nat} {req : Pubkey → List UsageFromTask}
  {cap : Capability} {cells : Cells}

/-- Blocking the usages with the ids `ids` in one queue raises the blocked count
    of exactly their tasks. -/
theorem blockedCount_add {ids : List OrderedTaskId}
    (hperm : (taskIds q.blockedUsages).Perm (ids ++ taskIds (queues x).blockedUsages))
    (hnd : (taskIds q.blockedUsages).Nodup) (ht : t.addresses.Nodup)
    (hx : t.taskId ∈ ids → x ∈ t.addresses) :
    blockedCount (update queues x q) t = blockedCount queues t + ids.count t.taskId := by
  have hupd := countP_update (p := fun q => decide (t.taskId ∈ taskIds q.blockedUsages))
    (x := x) (q := q) ht queues
  have hnd' := hperm.nodup_iff.mp hnd
  obtain ⟨hids, -, hdisj⟩ := nodup_append.mp hnd'
  simp only [decide_eq_true_eq] at hupd
  have hmem : t.taskId ∈ taskIds q.blockedUsages ↔
      t.taskId ∈ ids ∨ t.taskId ∈ taskIds (queues x).blockedUsages := by
    rw [hperm.mem_iff, mem_append]
  unfold blockedCount
  by_cases hin : t.taskId ∈ ids
  · have hout : t.taskId ∉ taskIds (queues x).blockedUsages :=
      fun h => hdisj _ hin _ h rfl
    have hx' : x ∈ t.lockContexts.map LockContext.usageQueue := hx hin
    rw [count_eq_one_of_mem hids hin]
    simp only [hx', hmem, hin, hout, true_or, and_self, and_false, if_true, if_false] at hupd
    omega
  · rw [count_eq_zero_of_not_mem hin]
    simp only [hmem, hin, false_or] at hupd
    omega

theorem blockedCount_ne_zero {u : RequestedUsage} (hc : ⟨x, u⟩ ∈ t.lockContexts)
    (hm : t.taskId ∈ taskIds (queues x).blockedUsages) : blockedCount queues t ≠ 0 := by
  have hpos : 0 < blockedCount queues t := by
    unfold blockedCount
    rw [countP_pos_iff]
    exact ⟨⟨x, u⟩, hc, by simpa using hm⟩
  omega

/-! ## The invariant of the cells -/

/-- The cells of a machine whose tasks are `ts` and whose usages are `req`. -/
structure CellsInv (cap : Capability) (rank : UsageFromTask → Nat) (pinned : UsageFromTask → Prop)
    (ts : List Task) (req : Pubkey → List UsageFromTask) (cells : Cells) : Prop where
  queues : ∀ x, ∃ v, QueueInv cap rank pinned (cells.usageQueues x) v ∧ (usages v).Perm (req x)
  counts : ∀ t ∈ ts,
    (cells.blockedUsageCounts t.taskId).current = blockedCount cells.usageQueues t
  others : ∀ id, id ∉ ts.map Task.taskId → (cells.blockedUsageCounts id).current = 0

section CellsInv

variable {req' : Pubkey → List UsageFromTask}

theorem CellsInv.congr_requests (h : CellsInv cap rank pinned ts req cells)
    (hreq : ∀ x, (req x).Perm (req' x)) : CellsInv cap rank pinned ts req' cells where
  queues := fun x => by
    obtain ⟨v, hv, hp⟩ := h.queues x
    exact ⟨v, hv, hp.trans (hreq x)⟩
  counts := h.counts
  others := h.others

theorem CellsInv.perm_tasks (h : CellsInv cap rank pinned ts (requests ts) cells) (hp : ts.Perm ts') :
    CellsInv cap rank pinned ts' (requests ts') cells where
  queues := (h.congr_requests (requests_perm hp)).queues
  counts := fun t ht => h.counts t (hp.mem_iff.mpr ht)
  others := fun id hid => h.others id (fun hin => hid ((hp.map _).mem_iff.mp hin))

section

variable (h : CellsInv cap rank pinned ts req cells)
include h

/-- Changing ranks and pins where no queue can see it. -/
theorem CellsInv.congr_order {rank' : UsageFromTask → Nat} {pinned' : UsageFromTask → Prop}
    (hrank : ∀ x, ∀ u ∈ req x, rank' u = rank u)
    (hpin : ∀ x, ∀ u ∈ req x, pinned u → pinned' u) : CellsInv cap rank' pinned' ts req cells where
  queues := fun x => by
    obtain ⟨v, hv, hp⟩ := h.queues x
    have hmem : ∀ u, u ∈ v.holders ∨ u ∈ v.waiters → u ∈ req x :=
      fun u hu => hp.mem_iff.mp (mem_usages.mpr hu)
    refine ⟨v, ⟨hv.capability, hv.represents, ?_⟩, hp⟩
    refine (hv.wf.congr_rank (fun u hu => hrank x u (hmem u hu))).mono_pinned ?_
    exact fun u hu => hpin x u (hmem u (Or.inl hu))
  counts := h.counts
  others := h.others

theorem CellsInv.sublist (hsub : ∀ t ∈ ts', t ∈ ts)
    (hdrop : ∀ t ∈ ts, t ∈ ts' ∨ (cells.blockedUsageCounts t.taskId).current = 0) :
    CellsInv cap rank pinned ts' req cells where
  queues := h.queues
  counts := fun t ht => h.counts t (hsub t ht)
  others := fun id hid => by
    by_cases hin : id ∈ ts.map Task.taskId
    · obtain ⟨t, ht, rfl⟩ := mem_map.mp hin
      rcases hdrop t ht with ht' | hz
      · exact absurd (mem_map_of_mem ht') hid
      · exact hz
    · exact h.others id hin

theorem CellsInv.count_ne_zero (hvalid : ValidRequests ts req) (hu : u ∈ req x)
    (hb : u ∈ (cells.usageQueues x).blockedUsages) :
    (cells.blockedUsageCounts u.2.taskId).current ≠ 0 := by
  obtain ⟨ht, hc⟩ := hvalid.made x u hu
  rw [h.counts u.2 ht]
  exact blockedCount_ne_zero hc (mem_taskIds hb)

/-- What a task without blocked usages requests, it holds. -/
theorem CellsInv.mem_holders {v : LockQueue UsageFromTask}
    (hq : QueueInv cap rank pinned (cells.usageQueues x) v) (hperm : (usages v).Perm (req x))
    (hvalid : ValidRequests ts req) (hu : u ∈ req x)
    (hz : (cells.blockedUsageCounts u.2.taskId).current = 0) : u ∈ v.holders := by
  rcases mem_usages.mp (hperm.mem_iff.mpr hu) with hh | hw
  · exact hh
  · refine absurd hz (h.count_ne_zero hvalid hu ?_)
    rw [hq.represents.waiters]
    exact hw

end

end CellsInv

/-! ## try_lock_usage_queues -/

/-- `t` is about to lock its usages beside the tasks `ts`.  In the fifo
    capability it ranks behind all of them; in the priority capability ranks are
    task ids and the pinned tasks are those without blocked usages. -/
structure Newcomer (cap : Capability) (rank : UsageFromTask → Nat) (pinned : UsageFromTask → Prop)
    (ts : List Task) (counts : BlockedUsageCounts) (t : Task) : Prop where
  wf : WellFormedTasks (t :: ts)
  fifo : cap = .fifoQueueing → ∀ t' ∈ ts, ∀ u u', rank (u, t') < rank (u', t)
  priority : cap = .priorityQueueing → rank = usageId ∧
    ∀ t' ∈ ts, ∀ u, pinned (u, t') ↔ (counts t'.taskId).current = 0

variable {v : LockQueue UsageFromTask}

section Lock

variable {a : UsageFromTask} {b : ShortCounter}

theorem Newcomer.congr_counts {counts counts' : BlockedUsageCounts}
    (h : Newcomer cap rank pinned ts counts t)
    (hz : ∀ id, (counts' id).current = 0 ↔ (counts id).current = 0) :
    Newcomer cap rank pinned ts counts' t where
  wf := h.wf
  fifo := h.fifo
  priority := fun hcap => ⟨(h.priority hcap).1,
    fun t' ht' u => ((h.priority hcap).2 t' ht' u).trans (hz _).symm⟩

/-- The requests at the address to be locked come from the other tasks. -/
theorem request_other (hvalid : ValidRequests (t :: ts) (addRequests req t [ctx]))
    (hu : u ∈ req ctx.usageQueue) : u.2 ∈ ts ∧ u.2.taskId ≠ t.taskId := by
  have hnd := hvalid.nodup ctx.usageQueue
  rw [addRequests, contextUsages_self] at hnd
  have hne : u.2.taskId ≠ t.taskId := by
    intro heq
    have hin := mem_taskIds hu
    rw [heq] at hin
    exact (nodup_cons.mp hnd).1 hin
  refine ⟨?_, hne⟩
  rcases mem_cons.mp (hvalid.made ctx.usageQueue u (mem_append_right _ hu)).1 with h | h
  · exact absurd (congrArg Task.taskId h) hne
  · exact h

theorem Newcomer.lockReady (hnew : Newcomer cap rank pinned ts cells.blockedUsageCounts t)
    (hvalid : ValidRequests (t :: ts) (addRequests req t [ctx]))
    (hperm : (usages v).Perm (req ctx.usageQueue)) :
    LockReady cap rank pinned cells.blockedUsageCounts v (ctx.requestedUsage, t) := by
  have hother : ∀ u ∈ usages v, u.2 ∈ ts ∧ u.2.taskId ≠ t.taskId :=
    fun u hu => request_other hvalid (hperm.mem_iff.mp hu)
  refine ⟨?_, ?_, ?_, ?_⟩
  · have hnd := hvalid.nodup ctx.usageQueue
    rw [addRequests, taskIds_append] at hnd
    exact (hperm.map (fun u : UsageFromTask => u.2.taskId)).nodup_iff.mpr
      (nodup_append.mp hnd).2.1
  · intro hmem
    obtain ⟨u, hu, hid⟩ := mem_taskIds_iff.mp hmem
    exact (hother u hu).2 hid
  · intro hcap u hu
    exact hnew.fifo hcap u.2 (hother u hu).1 u.1 ctx.requestedUsage
  · intro hcap
    refine ⟨(hnew.priority hcap).1, ?_⟩
    intro h hh
    exact (hnew.priority hcap).2 h.2 (hother h (mem_usages.mpr (Or.inl hh))).1 h.1

/-- Preempted usages belong to tasks that are blocked elsewhere. -/
theorem LockReady.preempted_blocked (h : LockReady cap rank pinned c v a)
    (hu : u ∈ preempted exclusive rank pinned v a) : (c u.2.taskId).current ≠ 0 := by
  obtain ⟨hh, -, hnp, hlt⟩ := mem_preempted.mp hu
  cases cap with
  | fifoQueueing => exact absurd hlt (lt_asymm (h.fifo rfl u (mem_usages.mpr (Or.inl hh))))
  | priorityQueueing => exact fun hz => hnp (((h.priority rfl).2 u hh).mpr hz)

/-- The loop body of `try_lock_usage_queues` on the queue alone. -/
theorem lockQueue_returns (hq : QueueInv cap rank pinned q v)
    (hready : LockReady cap rank pinned c v a) :
    Returns (· = .counterOverflow) (fun (r : ShortCounter × BlockedUsageCounts × UsageQueueInner) =>
        ∃ v' refused, Acquired cap rank pinned c v a r.2.2 r.2.1 v' refused ∧
          r.1.current = b.current + (if refused then 1 else 0)) (do
      let (lockResult, counts, queue) ← q.prepareAndTryLock c a.2 a.1
      match lockResult with
      | .ok => pure (b, counts, queue)
      | .err => do
        let b ← b.increment
        let queue ← queue.pushBlocked a
        pure (b, counts, queue)) := by
  refine (prepareAndTryLock_returns hq hready).bind ?_
  rintro ⟨result, c', q'⟩ ⟨v', hlocked⟩
  cases result with
  | ok => exact ⟨v', false, hlocked.acquired hq.wf rfl, rfl⟩
  | err =>
    have hsub : ∀ u ∈ v'.waiters, u ∈ usages v := by
      intro u hu
      rcases mem_append.mp (hlocked.waiters.mem_iff.mp hu) with h | h
      · exact mem_usages.mpr (Or.inl (mem_preempted.mp h).1)
      · exact mem_usages.mpr (Or.inr h)
    have hne : v'.holders ≠ [] := by
      rcases hlocked.result with ⟨hok, -⟩ | ⟨-, hg, hH⟩
      · cases hok
      · intro hnil
        rw [hnil] at hH
        exact hq.wf.kept_ne_nil hg hH.symm.eq_nil
    have hfresh : ∀ u ∈ usages v, rank a ≠ rank u := by
      intro u hu heq
      cases cap with
      | fifoQueueing => exact absurd (hready.fifo rfl u hu) (by rw [heq]; exact lt_irrefl _)
      | priorityQueueing =>
        obtain ⟨rfl, -⟩ := hready.priority rfl
        exact hready.fresh ((show a.2.taskId = u.2.taskId from heq) ▸ mem_taskIds hu)
    refine b.increment_returns.bind ?_
    intro b' hb'
    refine (pushBlocked_returns hlocked.capability hlocked.represents hne hlocked.sorted ?_ ?_
      (· = .counterOverflow)).bind ?_
    · exact fun hcap u hu => hready.fifo hcap u (hsub u hu)
    · intro hcap
      refine ⟨(hready.priority hcap).1, ?_⟩
      intro hmem
      obtain ⟨u, hu, hid⟩ := mem_taskIds_iff.mp hmem
      exact hready.fresh (hid ▸ mem_taskIds (hsub u hu))
    · rintro q'' ⟨ws, hcap, hrep, hws, hsorted⟩
      exact ⟨_, true, Acquired.of_pushed hq.wf hlocked rfl hfresh hcap hrep hws hsorted, hb'⟩

/-- One round of the loop: the request joins, and `blocked_usage_count` keeps counting the queues in
    which `t` is blocked.  Which tasks have a zero count does not change. -/
theorem lockContext_returns (hinv : CellsInv cap rank pinned ts req cells)
    (hnew : Newcomer cap rank pinned ts cells.blockedUsageCounts t)
    (hvalid : ValidRequests (t :: ts) (addRequests req t [ctx])) (hctx : ctx ∈ t.lockContexts)
    (hb : b.current = blockedCount cells.usageQueues t) :
    Returns (· = .counterOverflow)
      (fun r => CellsInv cap rank pinned ts (addRequests req t [ctx]) r.2 ∧
        r.1.current = blockedCount r.2.usageQueues t ∧
        ∀ id, (r.2.blockedUsageCounts id).current = 0 ↔
          (cells.blockedUsageCounts id).current = 0) (lockContext t ctx b cells) := by
  obtain ⟨v, hq, hperm⟩ := hinv.queues ctx.usageQueue
  have hready := hnew.lockReady hvalid hperm
  have heq : lockContext t ctx b cells = (do
      let r ← (do
        let (lockResult, counts, queue) ← (cells.usageQueues ctx.usageQueue).prepareAndTryLock
          cells.blockedUsageCounts t ctx.requestedUsage
        match lockResult with
        | .ok => pure (b, counts, queue)
        | .err => do
          let b ← b.increment
          let queue ← queue.pushBlocked (ctx.requestedUsage, t)
          pure (b, counts, queue))
      pure (r.1, (⟨r.2.1, update cells.usageQueues ctx.usageQueue r.2.2⟩ : Cells))) := by
    unfold lockContext
    rw [bind_assoc]
    refine bind_congr ?_
    rintro ⟨result, c', q'⟩
    cases result with
    | ok => rfl
    | err => simp only [bind_assoc, pure_bind]
  rw [heq]
  refine (lockQueue_returns (b := b) hq hready).bind ?_
  rintro ⟨b', c', q'⟩ ⟨v', refused, hacq, hb'⟩
  simp only at hacq hb'
  have hcounts := hacq.counts
  have hmem : ∀ u ∈ usages v, u.2 ∈ ts ∧ u.2.taskId ≠ t.taskId :=
    fun u hu => request_other hvalid (hperm.mem_iff.mp hu)
  have hpre : ∀ u ∈ preempted exclusive rank pinned v (ctx.requestedUsage, t), u ∈ usages v :=
    fun u hu => mem_usages.mpr (Or.inl (mem_preempted.mp hu).1)
  -- the ids that are newly blocked in this queue
  have hblocked : (taskIds q'.blockedUsages).Perm
      ((taskIds (if refused then [(ctx.requestedUsage, t)] else []) ++
        taskIds (preempted exclusive rank pinned v (ctx.requestedUsage, t))) ++
        taskIds (cells.usageQueues ctx.usageQueue).blockedUsages) := by
    rw [hacq.inv.represents.waiters, hq.represents.waiters, append_assoc, ← taskIds_append,
      ← taskIds_append]
    exact hacq.waiters.map _
  have hreq' : ∀ x, x = ctx.usageQueue →
      (usages v').Perm (addRequests req t [ctx] x) := by
    rintro x rfl
    rw [addRequests, contextUsages_self]
    exact hacq.joined.trans (hperm.cons _)
  have hnd : (taskIds q'.blockedUsages).Nodup := by
    have h := ((hreq' _ rfl).map (fun u : UsageFromTask => u.2.taskId)).nodup_iff.mpr
      (hvalid.nodup ctx.usageQueue)
    rw [usages, map_append] at h
    rw [hacq.inv.represents.waiters]
    exact (nodup_append.mp h).2.1
  refine ⟨⟨?_, ?_, ?_⟩, ?_, ?_⟩
  · intro x
    by_cases hx : x = ctx.usageQueue
    · refine ⟨v', ?_, hreq' x hx⟩
      rw [hx]
      simpa using hacq.inv
    · obtain ⟨w, hw, hp⟩ := hinv.queues x
      refine ⟨w, ?_, ?_⟩
      · simpa [update_of_ne hx] using hw
      · rw [addRequests, contextUsages_of_ne t (fun h => hx h.symm)]
        exact hp
  · intro t' ht'
    have hne : t'.taskId ≠ t.taskId := by
      intro heq
      have hnot := (nodup_cons.mp hnew.wf.ids).1
      exact hnot (heq ▸ mem_map_of_mem ht')
    rw [blockedCount_add hblocked hnd (hnew.wf.addresses t' (mem_cons_of_mem _ ht')),
      hcounts, hinv.counts t' ht', count_append]
    · cases refused <;> simp [hne.symm]
    · intro hin
      rcases mem_append.mp hin with hin | hin
      · cases refused with
        | false => exact absurd hin not_mem_nil
        | true => exact absurd (mem_singleton.mp hin) hne
      · obtain ⟨u, hu, hid⟩ := mem_taskIds_iff.mp hin
        have hu' := hpre u hu
        have hut : u.2 = t' := by
          refine hnew.wf.eq_of_taskId ?_ (mem_cons_of_mem _ ht') hid
          exact mem_cons_of_mem _ (hmem u hu').1
        have hmade := (hvalid.made ctx.usageQueue u (mem_append_right _ (hperm.mem_iff.mp hu'))).2
        rw [hut] at hmade
        exact mem_map.mpr ⟨_, hmade, rfl⟩
  · intro id hid
    have hnot : id ∉ taskIds (preempted exclusive rank pinned v (ctx.requestedUsage, t)) := by
      intro hin
      obtain ⟨u, hu, rfl⟩ := mem_taskIds_iff.mp hin
      exact hid (mem_map_of_mem (hmem u (hpre u hu)).1)
    rw [hcounts.eq_of_not_mem hnot]
    exact hinv.others id hid
  · rw [hb', hb, blockedCount_add hblocked hnd (hnew.wf.addresses t mem_cons_self)
      (fun _ => mem_map_of_mem hctx), count_append]
    have hnot : t.taskId ∉ taskIds (preempted exclusive rank pinned v (ctx.requestedUsage, t)) := by
      intro hin
      obtain ⟨u, hu, hid⟩ := mem_taskIds_iff.mp hin
      exact (hmem u (hpre u hu)).2 hid
    rw [count_eq_zero_of_not_mem hnot]
    cases refused <;> simp
  · intro id
    by_cases hin : id ∈ taskIds (preempted exclusive rank pinned v (ctx.requestedUsage, t))
    · obtain ⟨u, hu, rfl⟩ := mem_taskIds_iff.mp hin
      have h := hready.preempted_blocked hu
      rw [hcounts]
      omega
    · rw [hcounts.eq_of_not_mem hin]

theorem addRequests_cons_perm (req : Pubkey → List UsageFromTask) (t : Task) (c : LockContext)
    (cs : List LockContext) (x : Pubkey) :
    (addRequests (addRequests req t [c]) t cs x).Perm (addRequests req t (c :: cs) x) := by
  unfold addRequests
  rw [contextUsages_cons t c cs, ← append_assoc]
  exact perm_append_comm.append_right _

/-- The loop of `try_lock_usage_queues`, by induction on the contexts left. -/
theorem lockContexts_returns (hctxs : ∀ c ∈ ctxs, c ∈ t.lockContexts) :
    ∀ {req : Pubkey → List UsageFromTask} {cells : Cells} {b : ShortCounter},
      CellsInv cap rank pinned ts req cells →
      Newcomer cap rank pinned ts cells.blockedUsageCounts t →
      ValidRequests (t :: ts) (addRequests req t ctxs) →
      b.current = blockedCount cells.usageQueues t →
      Returns (· = .counterOverflow)
        (fun r => CellsInv cap rank pinned ts (addRequests req t ctxs) r.2 ∧
          r.1.current = blockedCount r.2.usageQueues t ∧
          ∀ id, (r.2.blockedUsageCounts id).current = 0 ↔
            (cells.blockedUsageCounts id).current = 0)
        (lockContexts t ctxs b cells) := by
  induction ctxs with
  | nil =>
    intro req cells b hinv _ _ hb
    exact ⟨hinv, hb, fun _ => Iff.rfl⟩
  | cons ctx ctxs ih =>
    intro req cells b hinv hnew hvalid hb
    have hvalid₁ : ValidRequests (t :: ts) (addRequests req t [ctx]) := by
      refine hvalid.subperm (fun x => ?_)
      refine List.Subperm.trans ?_ (addRequests_cons_perm req t ctx ctxs x).subperm
      exact (sublist_append_right _ _).subperm
    simp only [lockContexts]
    refine (lockContext_returns hinv hnew hvalid₁ (hctxs ctx mem_cons_self) hb).bind ?_
    rintro ⟨b₁, cells₁⟩ ⟨hinv₁, hb₁, hz₁⟩
    refine (ih (fun c hc => hctxs c (mem_cons_of_mem _ hc)) hinv₁ (hnew.congr_counts hz₁)
      (hvalid.subperm (fun x => (addRequests_cons_perm req t ctx ctxs x).subperm)) hb₁).mono ?_
    rintro ⟨b₂, cells₂⟩ ⟨hinv₂, hb₂, hz₂⟩
    exact ⟨hinv₂.congr_requests (addRequests_cons_perm req t ctx ctxs), hb₂,
      fun id => (hz₂ id).trans (hz₁ id)⟩

theorem CellsInv.blockedCount_eq_zero (hinv : CellsInv cap rank pinned ts req cells)
    (hreq : ∀ x, t.taskId ∉ taskIds (req x)) : blockedCount cells.usageQueues t = 0 := by
  unfold blockedCount
  rw [countP_eq_zero]
  intro c _ hin
  obtain ⟨v, hq, hperm⟩ := hinv.queues c.usageQueue
  apply hreq c.usageQueue
  have hin : t.taskId ∈ taskIds (cells.usageQueues c.usageQueue).blockedUsages := by simpa using hin
  rw [hq.represents.waiters] at hin
  obtain ⟨u, hu, hid⟩ := mem_taskIds_iff.mp hin
  exact mem_taskIds_iff.mpr ⟨u, hperm.mem_iff.mp (mem_usages.mpr (Or.inr hu)), hid⟩

/-- `try_lock_usage_queues`: `t` joins all its queues.  It is returned exactly if it is blocked
    nowhere, and no other task's count becomes or stops being zero. -/
theorem tryLockUsageQueues_returns (hinv : CellsInv cap rank pinned ts (requests ts) cells)
    (hnew : Newcomer cap rank pinned ts cells.blockedUsageCounts t) :
    Returns (· = .counterOverflow)
      (fun r => CellsInv cap rank pinned (t :: ts) (requests (t :: ts)) r.2 ∧
        (∀ id, id ≠ t.taskId → ((r.2.blockedUsageCounts id).current = 0 ↔
          (cells.blockedUsageCounts id).current = 0)) ∧
        ((r.1 = some t ∧ (r.2.blockedUsageCounts t.taskId).current = 0) ∨
          (r.1 = none ∧ (r.2.blockedUsageCounts t.taskId).current ≠ 0)))
      (tryLockUsageQueues t cells) := by
  have hnot : t.taskId ∉ ts.map Task.taskId := (nodup_cons.mp hnew.wf.ids).1
  have hnoreq : ∀ x, t.taskId ∉ taskIds (requests ts x) := by
    intro x hin
    obtain ⟨u, hu, hid⟩ := mem_taskIds_iff.mp hin
    exact hnot (hid ▸ mem_map_of_mem (mem_requests.mp hu).1)
  have hb : ShortCounter.zero.current = blockedCount cells.usageQueues t := by
    rw [hinv.blockedCount_eq_zero hnoreq]
    rfl
  have hvalid : ValidRequests (t :: ts) (addRequests (requests ts) t t.lockContexts) :=
    validRequests hnew.wf
  unfold tryLockUsageQueues
  refine (lockContexts_returns (fun c hc => hc) hinv hnew hvalid hb).bind ?_
  rintro ⟨b, cells'⟩ ⟨hinv', hb', hz⟩
  simp only at hinv' hb' hz
  by_cases hzero : b.isZero = true
  · simp only [if_pos hzero]
    have hcount : (cells'.blockedUsageCounts t.taskId).current = 0 := hinv'.others _ hnot
    refine ⟨⟨hinv'.queues, ?_, ?_⟩, fun id _ => hz id, Or.inl ⟨rfl, hcount⟩⟩
    · intro t' ht'
      rcases mem_cons.mp ht' with rfl | ht'
      · rw [hcount, ← hb', ShortCounter.isZero_iff.mp hzero]
      · exact hinv'.counts t' ht'
    · intro id hid
      exact hinv'.others id (fun h => hid (mem_cons_of_mem _ h))
  · simp only [if_neg hzero]
    have hne : b.current ≠ 0 := fun h => hzero (ShortCounter.isZero_iff.mpr h)
    have hself : (t.setBlockedUsageCount cells'.blockedUsageCounts b) t.taskId = b :=
      update_self _ _ _
    have hother : ∀ id, id ≠ t.taskId →
        (t.setBlockedUsageCount cells'.blockedUsageCounts b) id = cells'.blockedUsageCounts id :=
      fun id hid => update_of_ne hid _ _
    refine ⟨⟨hinv'.queues, ?_, ?_⟩, ?_, Or.inr ⟨rfl, ?_⟩⟩
    · intro t' ht'
      rcases mem_cons.mp ht' with rfl | ht'
      · show ((t'.setBlockedUsageCount cells'.blockedUsageCounts b) t'.taskId).current = _
        rw [hself, hb']
      · have hid : t'.taskId ≠ t.taskId := fun h => hnot (h ▸ mem_map_of_mem ht')
        show ((t.setBlockedUsageCount cells'.blockedUsageCounts b) t'.taskId).current = _
        rw [hother _ hid, hinv'.counts t' ht']
    · intro id hid
      rw [map_cons, mem_cons, not_or] at hid
      show ((t.setBlockedUsageCount cells'.blockedUsageCounts b) id).current = _
      rw [hother _ hid.1, hinv'.others id hid.2]
    · intro id hid
      show ((t.setBlockedUsageCount cells'.blockedUsageCounts b) id).current = 0 ↔ _
      rw [hother _ hid]
      exact hz id
    · show ((t.setBlockedUsageCount cells'.blockedUsageCounts b) t.taskId).current ≠ 0
      rw [hself]
      exact hne

end Lock

/-! ## unlock_usage_queues -/

/-- `new` lists, once each, the tasks of `ts` whose count went to zero between `c` and `c'`. -/
structure NewlyUnblocked (ts : List Task) (c c' : BlockedUsageCounts) (new : List Task) : Prop where
  nodup : new.Nodup
  mem_iff : ∀ t, t ∈ new ↔ t ∈ ts ∧ (c t.taskId).current ≠ 0 ∧ (c' t.taskId).current = 0

section Unlock

theorem NewlyUnblocked.refl (ts : List Task) (c : BlockedUsageCounts) :
    NewlyUnblocked ts c c [] where
  nodup := nodup_nil
  mem_iff := fun t => by simp

theorem NewlyUnblocked.append {c₁ c₂ : BlockedUsageCounts} {new₁ new₂ : List Task}
    (h₁ : NewlyUnblocked ts c c₁ new₁) (h₂ : NewlyUnblocked ts c₁ c₂ new₂)
    (hle₁ : ∀ id, (c₁ id).current ≤ (c id).current) (hle₂ : ∀ id, (c₂ id).current ≤ (c₁ id).current) :
    NewlyUnblocked ts c c₂ (new₁ ++ new₂) where
  nodup := by
    refine nodup_append.mpr ⟨h₁.nodup, h₂.nodup, ?_⟩
    rintro t ht t' ht' rfl
    exact ((h₂.mem_iff t).mp ht').2.1 ((h₁.mem_iff t).mp ht).2.2
  mem_iff := by
    intro t
    have hl₁ := hle₁ t.taskId
    have hl₂ := hle₂ t.taskId
    rw [mem_append, h₁.mem_iff, h₂.mem_iff]
    constructor
    · rintro (⟨ht, hne, hz⟩ | ⟨ht, hne, hz⟩)
      · exact ⟨ht, hne, by omega⟩
      · exact ⟨ht, by omega, hz⟩
    · rintro ⟨ht, hne, hz⟩
      by_cases h : (c₁ t.taskId).current = 0
      · exact Or.inl ⟨ht, hne, h⟩
      · exact Or.inr ⟨ht, h, hz⟩

/-- The tasks behind relocked usages of `ts` that reached zero. -/
theorem Unblocks.newlyUnblocked {c' : BlockedUsageCounts} {un un' : List Task}
    {us : List UsageFromTask} (h : Unblocks c un us c' un') (hwf : WellFormedTasks ts)
    (hus : ∀ u ∈ us, u.2 ∈ ts) (hnd : (taskIds us).Nodup) :
    NewlyUnblocked ts c c' (unblockedTasks c' us) where
  nodup := by
    refine List.Nodup.filter _ (List.Nodup.of_map Task.taskId ?_)
    rw [map_map]
    exact hnd
  mem_iff := by
    intro t
    have hadd := h.counts t.taskId
    rw [mem_unblockedTasks]
    constructor
    · rintro ⟨⟨u, hu, rfl⟩, hz⟩
      have hpos := count_pos_iff.mpr (mem_taskIds hu)
      exact ⟨hus u hu, by omega, hz⟩
    · rintro ⟨ht, hne, hz⟩
      have hpos : 0 < (taskIds us).count t.taskId := by omega
      obtain ⟨u, hu, hid⟩ := mem_taskIds_iff.mp (count_pos_iff.mp hpos)
      exact ⟨⟨u, hu, hwf.eq_of_taskId (hus u hu) ht hid⟩, hz⟩

/-- One round of the loop of `unlock_usage_queues`, for a task `t` that holds all its usages: its
    request leaves the queue, and the tasks that lose their last blocked usage are pushed. -/
theorem unlockContext_returns (hinv : CellsInv cap rank pinned ts (addRequests req t [ctx]) cells)
    (hwf : WellFormedTasks ts) (hvalid : ValidRequests ts (addRequests req t [ctx]))
    (hzero : (cells.blockedUsageCounts t.taskId).current = 0)
    (hroom : ∀ x, (addRequests req t [ctx] x).length < 2 ^ 32) (unblocked : List Task)
    (allowed : Panic → Prop) :
    Returns allowed
      (fun r => CellsInv cap rank pinned ts req r.1 ∧
        (∀ id, (r.1.blockedUsageCounts id).current ≤ (cells.blockedUsageCounts id).current) ∧
        ∃ new, r.2 = unblocked ++ new ∧
          NewlyUnblocked ts cells.blockedUsageCounts r.1.blockedUsageCounts new)
      (unlockContext t ctx cells unblocked) := by
  obtain ⟨v, hq, hperm⟩ := hinv.queues ctx.usageQueue
  have hwaits : ∀ u ∈ v.waiters, (cells.blockedUsageCounts u.2.taskId).current ≠ 0 := by
    intro u hu
    refine hinv.count_ne_zero hvalid (hperm.mem_iff.mp (mem_usages.mpr (Or.inr hu))) ?_
    rw [hq.represents.waiters]
    exact hu
  have ha : ((ctx.requestedUsage, t) : UsageFromTask) ∈ v.holders := by
    refine hinv.mem_holders hq hperm hvalid ?_ hzero
    rw [addRequests, contextUsages_self]
    exact mem_cons_self
  have hnd : (taskIds (usages v)).Nodup :=
    (hperm.map (fun u : UsageFromTask => u.2.taskId)).nodup_iff.mpr (hvalid.nodup _)
  have hroom' : (usages v).length < 2 ^ 32 := by
    rw [hperm.length_eq]
    exact hroom _
  have hqueue := unlockQueue_returns hq ha hnd hwaits hroom' unblocked allowed
  have heq : unlockContext t ctx cells unblocked = (do
      let r ← (do
        let r ← (cells.usageQueues ctx.usageQueue).unlock t ctx.requestedUsage
        relockUsages (cells.usageQueues ctx.usageQueue).blockedLen r.1 r.2
          cells.blockedUsageCounts unblocked)
      pure ((⟨r.2.1, update cells.usageQueues ctx.usageQueue r.1⟩ : Cells), r.2.2)) := by
    unfold unlockContext
    rw [bind_assoc]
  rw [heq]
  refine hqueue.bind ?_
  rintro ⟨q', c', un'⟩ ⟨v', us, hrel⟩
  simp only at hrel
  have hcounts := hrel.unblocks.counts
  have hleft : (usages v').Perm (req ctx.usageQueue) := by
    have h := hrel.left.symm.trans hperm
    rw [addRequests, contextUsages_self] at h
    exact h.cons_inv
  have hus : ∀ u ∈ us, u ∈ usages v := by
    intro u hu
    refine mem_usages.mpr (Or.inr ?_)
    rw [hrel.waiters]
    exact mem_append_left _ hu
  have hmade : ∀ u ∈ us, u.2 ∈ ts ∧ ⟨ctx.usageQueue, u.1⟩ ∈ u.2.lockContexts :=
    fun u hu => hvalid.made _ u (hperm.mem_iff.mp (hus u hu))
  have hndw : (taskIds v.waiters).Nodup := by
    rw [usages, taskIds_append] at hnd
    exact (nodup_append.mp hnd).2.1
  have hblocked : (taskIds (cells.usageQueues ctx.usageQueue).blockedUsages).Perm
      (taskIds us ++ taskIds (update cells.usageQueues ctx.usageQueue q'
        ctx.usageQueue).blockedUsages) := by
    rw [update_self, hq.represents.waiters, hrel.inv.represents.waiters, hrel.waiters,
      taskIds_append]
  -- putting the popped usages back gives the old count
  have hback : ∀ t' ∈ ts, blockedCount cells.usageQueues t' =
      blockedCount (update cells.usageQueues ctx.usageQueue q') t' +
        (taskIds us).count t'.taskId := by
    intro t' ht'
    rw [← blockedCount_add hblocked ?_ (hwf.addresses t' ht') ?_, update_idem, update_eq_self]
    · rw [hq.represents.waiters]
      exact hndw
    · intro hin
      obtain ⟨u, hu, hid⟩ := mem_taskIds_iff.mp hin
      have hut : u.2 = t' := hwf.eq_of_taskId (hmade u hu).1 ht' hid
      have hc := (hmade u hu).2
      rw [hut] at hc
      exact mem_map.mpr ⟨_, hc, rfl⟩
  refine ⟨⟨?_, ?_, ?_⟩, ?_, unblockedTasks c' us, hrel.unblocks.tasks, ?_⟩
  · intro x
    by_cases hx : x = ctx.usageQueue
    · refine ⟨v', ?_, hx ▸ hleft⟩
      rw [hx]
      simpa using hrel.inv
    · obtain ⟨w, hw, hp⟩ := hinv.queues x
      refine ⟨w, ?_, ?_⟩
      · simpa [update_of_ne hx] using hw
      · rw [addRequests, contextUsages_of_ne t (fun h => hx h.symm)] at hp
        exact hp
  · intro t' ht'
    have h₁ := hcounts t'.taskId
    have h₂ := hinv.counts t' ht'
    have h₃ := hback t' ht'
    show (c' t'.taskId).current =
      blockedCount (update cells.usageQueues ctx.usageQueue q') t'
    omega
  · intro id hid
    have h₁ := hcounts id
    have h₂ := hinv.others id hid
    show (c' id).current = 0
    omega
  · intro id
    have h₁ := hcounts id
    show (c' id).current ≤ _
    omega
  · refine hrel.unblocks.newlyUnblocked hwf (fun u hu => (hmade u hu).1) ?_
    rw [hrel.waiters, taskIds_append] at hndw
    exact (nodup_append.mp hndw).1

/-- `unlock_usage_queues`, by induction on the contexts left to unlock. -/
theorem unlockContexts_returns (hwf : WellFormedTasks ts) (allowed : Panic → Prop) :
    ∀ {cells : Cells} {unblocked : List Task},
      CellsInv cap rank pinned ts (addRequests req t ctxs) cells →
      ValidRequests ts (addRequests req t ctxs) →
      (cells.blockedUsageCounts t.taskId).current = 0 →
      (∀ x, (addRequests req t ctxs x).length < 2 ^ 32) →
      Returns allowed
        (fun r => CellsInv cap rank pinned ts req r.1 ∧
          (∀ id, (r.1.blockedUsageCounts id).current ≤ (cells.blockedUsageCounts id).current) ∧
          ∃ new, r.2 = unblocked ++ new ∧
            NewlyUnblocked ts cells.blockedUsageCounts r.1.blockedUsageCounts new)
        (unlockContexts t ctxs cells unblocked) := by
  induction ctxs with
  | nil =>
    intro cells unblocked hinv _ _ _
    exact ⟨hinv, fun _ => le_refl _, [], (append_nil _).symm, NewlyUnblocked.refl _ _⟩
  | cons ctx ctxs ih =>
    intro cells unblocked hinv hvalid hzero hroom
    have hperm : ∀ x, (addRequests req t (ctx :: ctxs) x).Perm
        (addRequests (addRequests req t ctxs) t [ctx] x) := by
      intro x
      unfold addRequests
      rw [contextUsages_cons t ctx ctxs, append_assoc]
    have hsub : ∀ x, (addRequests req t ctxs x).Subperm (addRequests req t (ctx :: ctxs) x) := by
      intro x
      refine List.Subperm.trans ?_ (hperm x).symm.subperm
      exact (sublist_append_right _ _).subperm
    have hroom₁ : ∀ x, (addRequests (addRequests req t ctxs) t [ctx] x).length < 2 ^ 32 := by
      intro x
      rw [← (hperm x).length_eq]
      exact hroom x
    simp only [unlockContexts]
    refine (unlockContext_returns (hinv.congr_requests hperm) hwf
      (hvalid.subperm (fun x => (hperm x).symm.subperm)) hzero hroom₁ unblocked allowed).bind ?_
    rintro ⟨cells₁, un₁⟩ ⟨hinv₁, hle₁, new₁, hun₁, hnew₁⟩
    simp only at hinv₁ hle₁ hun₁ hnew₁
    have hzero₁ : (cells₁.blockedUsageCounts t.taskId).current = 0 := by
      have := hle₁ t.taskId
      omega
    refine (ih hinv₁ (hvalid.subperm hsub) hzero₁
      (fun x => lt_of_le_of_lt (hsub x).length_le (hroom x))).mono ?_
    rintro ⟨cells₂, un₂⟩ ⟨hinv₂, hle₂, new₂, hun₂, hnew₂⟩
    refine ⟨hinv₂, fun id => le_trans (hle₂ id) (hle₁ id), new₁ ++ new₂, ?_,
      hnew₁.append hnew₂ hle₁ hle₂⟩
    rw [hun₂, hun₁, append_assoc]

end Unlock

/-! ## What the invariant says about tasks -/

section Consequences

section

variable (h : CellsInv cap rank pinned ts (requests ts) cells)
include h

section

variable (hwf : WellFormedTasks ts)
include hwf

/-- Every request of every task is in its queue: current if the task is not blocked at all. -/
theorem CellsInv.exists_queue (ht : t ∈ ts)
    (hz : (cells.blockedUsageCounts t.taskId).current = 0) {c : LockContext} (hc : c ∈ t.lockContexts) :
    ∃ v, QueueInv cap rank pinned (cells.usageQueues c.usageQueue) v ∧
      (usages v).Perm (requests ts c.usageQueue) ∧ (c.requestedUsage, t) ∈ v.holders := by
  obtain ⟨v, hq, hperm⟩ := h.queues c.usageQueue
  have hreq : ((c.requestedUsage, t) : UsageFromTask) ∈ requests ts c.usageQueue :=
    mem_requests.mpr ⟨ht, hc⟩
  exact ⟨v, hq, hperm, h.mem_holders hq hperm (validRequests hwf) hreq hz⟩

section

variable (ht : t ∈ ts) (ht' : t' ∈ ts) (hne : t ≠ t')
  (hz : (cells.blockedUsageCounts t.taskId).current = 0)
include ht ht' hne hz

theorem CellsInv.not_conflict
    (hz' : (cells.blockedUsageCounts t'.taskId).current = 0) : ¬ t.Conflict t' := by
  rintro ⟨c, hc, c', hc', haddr, hw⟩
  obtain ⟨v, hq, hperm, hh⟩ := h.exists_queue hwf ht hz hc
  have hh' : ((c'.requestedUsage, t') : UsageFromTask) ∈ v.holders := by
    refine h.mem_holders hq hperm (validRequests hwf) ?_ hz'
    rw [haddr]
    exact mem_requests.mpr ⟨ht', hc'⟩
  obtain ⟨hro, hro'⟩ := hq.wf.holders_shared hh hh' (fun heq => hne (congrArg Prod.snd heq))
  exact not_conflict_iff.mpr ⟨hro, hro'⟩
    (hw.imp (fun h => exclusive_eq_true.mpr h) (fun h => exclusive_eq_true.mpr h))

/-- A task without blocked usages that is not pinned ranks before every task it conflicts with. -/
theorem CellsInv.outranks (hpin : ∀ u, ¬ pinned (u, t))
    (hconf : t.Conflict t') : ∃ u u', rank (u, t) < rank (u', t') := by
  obtain ⟨c, hc, c', hc', haddr, hw⟩ := hconf
  obtain ⟨v, hq, hperm, hh⟩ := h.exists_queue hwf ht hz hc
  have hexcl : LockQueue.Conflict exclusive (c.requestedUsage, t) (c'.requestedUsage, t') :=
    hw.imp (fun h => exclusive_eq_true.mpr h) (fun h => exclusive_eq_true.mpr h)
  have hreq' : ((c'.requestedUsage, t') : UsageFromTask) ∈ usages v := by
    rw [hperm.mem_iff, haddr]
    exact mem_requests.mpr ⟨ht', hc'⟩
  refine ⟨c.requestedUsage, c'.requestedUsage, ?_⟩
  rcases mem_usages.mp hreq' with hh' | hw'
  · obtain ⟨hro, hro'⟩ := hq.wf.holders_shared hh hh' (fun heq => hne (congrArg Prod.snd heq))
    exact absurd hexcl (not_conflict_iff.mpr ⟨hro, hro'⟩)
  · exact hq.wf.outranks _ hh _ hw' hexcl (hpin _)

end

/-- A blocked task waits for a pinned task, or for one that ranks before it. -/
theorem CellsInv.exists_blocker (ht : t ∈ ts)
    (hne : (cells.blockedUsageCounts t.taskId).current ≠ 0) :
    ∃ t' ∈ ts, (∃ u, pinned (u, t')) ∨ ∃ u u', rank (u', t') < rank (u, t) := by
  rw [h.counts t ht] at hne
  obtain ⟨c, hc, hin⟩ := countP_pos_iff.mp (Nat.pos_of_ne_zero hne)
  have hin : t.taskId ∈ taskIds (cells.usageQueues c.usageQueue).blockedUsages := by simpa using hin
  obtain ⟨v, hq, hperm⟩ := h.queues c.usageQueue
  have htask : ∀ u ∈ usages v, u.2 ∈ ts := fun u hu => (mem_requests.mp (hperm.mem_iff.mp hu)).1
  rw [hq.represents.waiters] at hin
  obtain ⟨w, hw, hid⟩ := mem_taskIds_iff.mp hin
  have hwt : w.2 = t := hwf.eq_of_taskId (htask w (mem_usages.mpr (Or.inr hw))) ht hid
  rcases hq.wf.exists_blocker hw with ⟨b, hb, hp⟩ | ⟨b, hb, hlt⟩
  · exact ⟨b.2, htask b (mem_usages.mpr (Or.inl hb)), Or.inl ⟨b.1, hp⟩⟩
  · refine ⟨b.2, htask b (mem_usages.mpr hb), Or.inr ⟨w.1, b.1, ?_⟩⟩
    rw [← hwt]
    exact hlt

end

end

end Consequences

end Agave.Scheduler

