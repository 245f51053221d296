/-
  Agave.Scheduler.QueueUnlock

  Unlocking a usage queue is releasing a lock.

  `unlock` takes the descheduled task's usage away; when it was the last one, the `while` loop of
  `unlock_usage_queues` hands the queue to the first blocked usage and to the readonly usages right
  behind it.  That is `LockQueue.promote` of the blocked usages.  No panic site of this path can be
  reached, counter overflow included.
-/

import Agave.Scheduler.QueueSpec

namespace Agave.Scheduler

open Agave.Lib Agave.Lib.LockQueue List UsageQueueInner

/-! ## Taking one current usage away -/

variable {us ws : List UsageFromTask} {q : UsageQueueInner} {a : UsageFromTask}
  {c c₁ : BlockedUsageCounts} {unblocked : List Task} {id : OrderedTaskId}

theorem mem_taskIds_iff :
    id ∈ taskIds us ↔ ∃ u ∈ us, u.2.taskId = id := mem_map

variable {v : LockQueue UsageFromTask} {c₂ : BlockedUsageCounts} {hs : List UsageFromTask}
  {bound : Nat}

/-- `unlock` up to its last line, on a usage that is current. -/
theorem unlockCurrentUsage_returns (hrep : q.Represents v) (ha : a ∈ v.holders)
    (allowed : Panic → Prop) :
    Returns allowed (fun r => ∃ hs, v.holders.Perm (a :: hs) ∧ (r.1 = true ↔ hs = []) ∧
      r.2.capability = q.capability ∧ r.2.Represents ⟨hs, v.waiters⟩)
      (q.unlockCurrentUsage a.2 a.1) := by
  cases q with
  | fifo cur blocked =>
    cases cur with
    | none =>
      have hh : v.holders = [] := hrep.holders
      rw [hh] at ha
      exact absurd ha not_mem_nil
    | some cu =>
      cases cu with
      | readonly count =>
        obtain ⟨-, hlen, hro⟩ := hrep.holders
        have hperm := perm_cons_erase ha
        have hlen' : count.current = (v.holders.erase a).length + 1 := by
          rw [hlen, hperm.length_eq]
          rfl
        rw [hro a ha]
        simp only [unlockCurrentUsage]
        by_cases hone : count.isOne = true
        · have hnil : v.holders.erase a = [] := by
            have : count.current = 1 := by simpa [ShortCounter.isOne] using hone
            exact eq_nil_of_length_eq_zero (by omega)
          rw [if_pos hone]
          refine ⟨v.holders.erase a, hperm, by simp [hnil], rfl, ?_⟩
          rw [hnil]
          exact ⟨hrep.waiters, rfl, trivial⟩
        · have hne : v.holders.erase a ≠ [] := by
            intro hnil
            apply hone
            simp [ShortCounter.isOne, hlen', hnil]
          rw [if_neg hone]
          refine (count.decrement_returns (by omega) allowed).bind ?_
          intro count' hcount
          have hleft : count'.current = (v.holders.erase a).length := by omega
          refine ⟨v.holders.erase a, hperm, by simp [hne], rfl,
            ⟨hrep.waiters, ⟨hne, hleft, ?_⟩, trivial⟩⟩
          intro h hm
          exact hro h (mem_of_mem_erase hm)
      | writable _ =>
        obtain ⟨t, hh⟩ := hrep.holders
        rw [hh, mem_singleton] at ha
        subst ha
        refine ⟨[], by rw [hh], by simp, rfl, ⟨hrep.waiters, rfl, trivial⟩⟩
  | priority cur blocked =>
    cases cur with
    | none =>
      have hh : v.holders = [] := hrep.holders
      rw [hh] at ha
      exact absurd ha not_mem_nil
    | some cu =>
      cases cu with
      | readonly tasks =>
        obtain ⟨hkeyed, -, hholders⟩ := hrep.holders
        obtain ⟨t, ht, rfl⟩ := mem_map.mp (hholders.mem_iff.mp ha)
        have hentry : (t.taskId, t) ∈ tasks.entries := hkeyed.mem_entries ht
        have hfound : (tasks.remove t.taskId).1 = some t :=
          BTreeMap.get?_eq_some_iff.mpr hentry
        have hp := BTreeMap.perm_values_remove hentry
        have hperm : v.holders.Perm ((.readonly, t) ::
            (tasks.remove t.taskId).2.values.map (fun t => (.readonly, t))) :=
          hholders.trans (hp.map (fun t => (RequestedUsage.readonly, t)))
        have hkeyed' : Keyed Task.taskId (tasks.remove t.taskId).2 :=
          fun e he => hkeyed e (mem_of_mem_filter he)
        simp only [unlockCurrentUsage]
        split
        · rename_i heq
          rw [heq] at hfound
          cases hfound
        · rename_i removed tasks' heq
          rw [heq] at hperm hkeyed'
          simp only at hperm hkeyed'
          by_cases hempty : tasks'.isEmpty = true
          · have hnil : tasks'.values = [] := isEmpty_eq_true.mp hempty
            rw [if_pos hempty]
            rw [hnil] at hperm
            exact ⟨[], hperm, by simp, rfl, ⟨hrep.waiters, rfl, hrep.keyed⟩⟩
          · have hne : tasks'.values ≠ [] := fun h => hempty (isEmpty_eq_true.mpr h)
            rw [if_neg hempty]
            exact ⟨_, hperm, by simp [hne], rfl,
              ⟨hrep.waiters, ⟨hkeyed', hne, List.Perm.refl _⟩, hrep.keyed⟩⟩
      | writable t =>
        have hh : v.holders = [(.writable, t)] := hrep.holders
        rw [hh, mem_singleton] at ha
        subst ha
        exact ⟨[], by rw [hh], by simp, rfl, ⟨hrep.waiters, rfl, hrep.keyed⟩⟩

/-! ## Unblocking -/

/-- The tasks behind `us` that have no blocked usage left. -/
def unblockedTasks (c : BlockedUsageCounts) (us : List UsageFromTask) : List Task :=
  (us.map Prod.snd).filter (fun t => (c t.taskId).isZero)

theorem mem_unblockedTasks {t : Task} :
    t ∈ unblockedTasks c us ↔ (∃ u ∈ us, u.2 = t) ∧ (c t.taskId).current = 0 := by
  rw [unblockedTasks, mem_filter, mem_map, ShortCounter.isZero_iff]

theorem tryUnblock_returns (h : (c a.2.taskId).current ≠ 0) (allowed : Panic → Prop) :
    Returns allowed (fun r => CountsAdd r.2 c [a] ∧ r.1.toList = unblockedTasks r.2 [a])
      (a.2.tryUnblock c) := by
  unfold Task.tryUnblock
  refine (ShortCounter.decrement_returns h allowed).bind ?_
  intro count hcount
  constructor
  · intro id
    by_cases hid : id = a.2.taskId
    · subst hid
      simp only [Function.update_self, taskIds_cons, taskIds_nil, count_singleton_self]
      omega
    · have hid' : ¬ a.2.taskId = id := fun h => hid h.symm
      simp [Function.update_of_ne hid, hid']
  · show (if count.isZero then some a.2 else none).toList = _
    simp only [unblockedTasks, map_cons, map_nil, filter_cons, filter_nil, Function.update_self]
    cases count.isZero <;> rfl

theorem CountsAdd.cons (h₁ : CountsAdd c₁ c [a]) (h₂ : CountsAdd c₂ c₁ us) :
    CountsAdd c₂ c (a :: us) := by
  intro id
  rw [h₁ id, h₂ id, taskIds_cons, count_cons, taskIds_cons, count_cons]
  simp only [taskIds_nil, count_nil]
  omega

theorem CountsAdd.eq_of_not_mem {c' : BlockedUsageCounts} (h : CountsAdd c c' us)
    (hid : id ∉ taskIds us) : (c' id).current = (c id).current := by
  rw [h id, count_eq_zero_of_not_mem hid, Nat.add_zero]

theorem unblockedTasks_cons (h : CountsAdd c c₁ us) (ha : a.2.taskId ∉ taskIds us) :
    unblockedTasks c (a :: us) = unblockedTasks c₁ [a] ++ unblockedTasks c us := by
  have heq : (c a.2.taskId).isZero = (c₁ a.2.taskId).isZero := by
    simp [ShortCounter.isZero, h.eq_of_not_mem ha]
  simp only [unblockedTasks, map_cons, map_nil, filter_cons, filter_nil, heq]
  cases (c₁ a.2.taskId).isZero <;> rfl

/-! ## The relock loop -/

/-- What relocking the usages `us` does to the counts and to the list of unblocked tasks. -/
structure Unblocks (c : BlockedUsageCounts) (unblocked : List Task) (us : List UsageFromTask)
    (c' : BlockedUsageCounts) (unblocked' : List Task) : Prop where
  counts : CountsAdd c' c us
  tasks : unblocked' = unblocked ++ unblockedTasks c' us

theorem Unblocks.nil (c : BlockedUsageCounts) (unblocked : List Task) :
    Unblocks c unblocked [] c unblocked where
  counts := CountsAdd.refl c
  tasks := (append_nil _).symm

theorem Unblocks.cons {un un₁ un₂ : List Task} (h₁ : Unblocks c un [a] c₁ un₁)
    (h₂ : Unblocks c₁ un₁ us c₂ un₂) (ha : a.2.taskId ∉ taskIds us) :
    Unblocks c un (a :: us) c₂ un₂ where
  counts := h₁.counts.cons h₂.counts
  tasks := by
    rw [h₂.tasks, h₁.tasks, unblockedTasks_cons h₂.counts ha, append_assoc]

/-- One round of the loop up to the pop: the usage becomes current and its task
    may become unblocked. -/
theorem relockRound {allowed : Panic → Prop}
    {post : UsageQueueInner × BlockedUsageCounts × List Task → Prop} (hrep : q.Represents ⟨hs, ws⟩)
    (hshared : ∀ h ∈ hs, a.1 = .readonly ∧ h.1 = .readonly) (hfresh : a.2.taskId ∉ taskIds hs)
    (hcount : (c a.2.taskId).current ≠ 0) (hroom : hs.length + 1 < 2 ^ 32)
    (hrest : ∀ q' c' un', q'.capability = q.capability → q'.Represents ⟨a :: hs, ws⟩ →
      Unblocks c unblocked [a] c' un' →
      Returns allowed post (do
        let (newlyLockable, q') ←
          match a.1 with
          | .readonly => q'.popLockableReadonly
          | .writable => pure (none, q')
        relockUsages bound newlyLockable q' c' un')) :
    Returns allowed post (relockUsages (bound + 1) (some a) q c unblocked) := by
  have hlock := (tryLock_joins hrep hshared hfresh).weaken
    (fun e h => absurd hroom (not_lt.mpr h.2) : ∀ e, _ → allowed e)
  simp only [relockUsages]
  refine hlock.bind ?_
  rintro ⟨result, q'⟩ ⟨hok, hcap, hrep'⟩
  simp only at hok hcap hrep'
  subst hok
  refine (tryUnblock_returns hcount allowed).bind ?_
  rintro ⟨task, c'⟩ ⟨hcounts, htask⟩
  exact hrest q' c' _ hcap hrep' ⟨hcounts, by rw [← htask]⟩

/-- Relocking a writable usage takes the queue for itself. -/
theorem relockUsages_writable (hrep : q.Represents ⟨[], ws⟩) (ha : a.1 = .writable)
    (hcount : (c a.2.taskId).current ≠ 0) (hbound : 0 < bound) (allowed : Panic → Prop) :
    Returns allowed (fun r => r.1.capability = q.capability ∧ r.1.Represents ⟨[a], ws⟩ ∧
      Unblocks c unblocked [a] r.2.1 r.2.2) (relockUsages bound (some a) q c unblocked) := by
  obtain ⟨bound, rfl⟩ := Nat.exists_eq_succ_of_ne_zero (Nat.ne_of_gt hbound)
  refine relockRound hrep (fun h hm => absurd hm not_mem_nil) not_mem_nil hcount
    (by simp) ?_
  intro q' c' un' hcap hrep' hun
  rw [ha]
  cases bound <;> exact ⟨hcap, hrep', hun⟩

/-- Relocking a readonly usage brings along the readonly usages right behind it. By induction on the
    usages still blocked, with the ones relocked so far among the holders. -/
theorem relockUsages_readonly (allowed : Panic → Prop) :
    ∀ {q : UsageQueueInner} {hs : List UsageFromTask} {a : UsageFromTask}
      {c : BlockedUsageCounts} {unblocked : List Task} {bound : Nat},
      q.Represents ⟨hs, ws⟩ → (∀ h ∈ hs, h.1 = .readonly) → a.1 = .readonly →
      (taskIds (a :: (hs ++ ws))).Nodup → (∀ w ∈ a :: ws, (c w.2.taskId).current ≠ 0) →
      ws.length < bound → hs.length + ws.length + 1 < 2 ^ 32 →
      Returns allowed (fun r => r.1.capability = q.capability ∧
        (∃ hs', hs'.Perm (hs ++ a :: ws.takeWhile (fun x => !exclusive x)) ∧
          r.1.Represents ⟨hs', ws.dropWhile (fun x => !exclusive x)⟩) ∧
        Unblocks c unblocked (a :: ws.takeWhile (fun x => !exclusive x)) r.2.1 r.2.2)
        (relockUsages bound (some a) q c unblocked) := by
  induction ws with
  | nil =>
    intro q hs a c unblocked bound hrep hro ha hnd hcount hbound hroom
    obtain ⟨bound, rfl⟩ := Nat.exists_eq_succ_of_ne_zero (Nat.ne_of_gt hbound)
    have hfresh : a.2.taskId ∉ taskIds hs := by
      rw [append_nil] at hnd
      exact (nodup_cons.mp hnd).1
    refine relockRound hrep (fun h hm => ⟨ha, hro h hm⟩) hfresh
      (hcount a mem_cons_self) (by simpa using hroom) ?_
    intro q' c' un' hcap hrep' hun
    have hpop : q'.popLockableReadonly = .ok (none, q') := by
      unfold popLockableReadonly
      rw [hrep'.peekBlocked]
      rfl
    rw [ha, hpop]
    cases bound <;>
      exact ⟨hcap, ⟨a :: hs, (perm_append_singleton a hs).symm, hrep'⟩, hun⟩
  | cons w ws ih =>
    intro q hs a c unblocked bound hrep hro ha hnd hcount hbound hroom
    obtain ⟨bound, rfl⟩ := Nat.exists_eq_succ_of_ne_zero (Nat.ne_of_gt (Nat.zero_lt_of_lt hbound))
    rw [length_cons] at hbound hroom
    obtain ⟨hnot, hnd'⟩ := nodup_cons.mp hnd
    change a.2.taskId ∉ taskIds (hs ++ w :: ws) at hnot
    change (taskIds (hs ++ w :: ws)).Nodup at hnd'
    rw [taskIds_append, mem_append, not_or] at hnot
    refine relockRound hrep (fun h hm => ⟨ha, hro h hm⟩) hnot.1
      (hcount a mem_cons_self) (by omega) ?_
    intro q' c' un' hcap hrep' hun
    rw [ha]
    obtain ⟨u, t⟩ := w
    cases u with
    | writable =>
      -- a writable usage stops the loop
      have hpop : q'.popLockableReadonly = .ok (none, q') := by
        unfold popLockableReadonly
        rw [hrep'.peekBlocked]
        rfl
      rw [hpop]
      simp only [takeWhile_cons, dropWhile_cons, exclusive_writable, Bool.not_true,
        Bool.false_eq_true, if_false]
      cases bound <;>
        exact ⟨hcap, ⟨a :: hs, (perm_append_singleton a hs).symm, hrep'⟩, hun⟩
    | readonly =>
      have hcur : q'.currentUsage = some .readonly := by
        exact hrep'.holders.currentUsage_readonly mem_cons_self ha
      have hpop : q'.popLockableReadonly = .ok q'.pop := by
        unfold popLockableReadonly
        rw [hrep'.peekBlocked, hcur]
        rfl
      obtain ⟨hhead, htail⟩ := hrep'.pop
      have hpopped : q'.pop.1 = some (.readonly, t) := hhead
      have hperm : (taskIds ((.readonly, t) :: ((a :: hs) ++ ws))).Perm
          (taskIds (a :: (hs ++ (.readonly, t) :: ws))) := by
        refine List.Perm.map _ ?_
        exact (List.Perm.swap _ _ _).trans (perm_middle.symm.cons a)
      have hcount' : ∀ x ∈ (.readonly, t) :: ws, (c' x.2.taskId).current ≠ 0 := by
        intro x hx
        have hne : x.2.taskId ∉ taskIds [a] := by
          intro hmem
          rw [taskIds_cons, taskIds_nil, mem_singleton] at hmem
          exact hnot.2 (hmem ▸ mem_taskIds hx)
        rw [← hun.counts.eq_of_not_mem hne]
        exact hcount x (mem_cons_of_mem _ hx)
      rw [hpop]
      show Returns allowed _ (relockUsages bound q'.pop.1 q'.pop.2 c' un')
      rw [hpopped]
      refine (ih htail ?_ rfl (hperm.nodup_iff.mpr hnd) hcount' (by omega) ?_).mono ?_
      · intro h hm
        rcases mem_cons.mp hm with rfl | hm
        · exact ha
        · exact hro h hm
      · rw [length_cons]
        omega
      · rintro r ⟨hcap', ⟨hs', hperm', hrep''⟩, hun'⟩
        simp only [takeWhile_cons, dropWhile_cons, exclusive_readonly, Bool.not_false, if_true]
        refine ⟨hcap'.trans (q'.capability_pop.trans hcap), ⟨hs', ?_, hrep''⟩, hun.cons hun' ?_⟩
        · exact hperm'.trans perm_middle.symm
        · intro hmem
          obtain ⟨x, hx, hid⟩ := mem_taskIds_iff.mp hmem
          have hx' : x ∈ (RequestedUsage.readonly, t) :: ws := by
            rcases mem_cons.mp hx with rfl | hx
            · exact mem_cons_self
            · exact mem_cons_of_mem _ (takeWhile_sublist _ |>.subset hx)
          exact hnot.2 (hid ▸ mem_taskIds hx')

/-! ## Unlocking one usage queue -/

/-- The result of the loop body of `unlock_usage_queues` for the usage `a`: it left the queue, and
    the usages `us` at the front of the blocked ones became current. -/
structure Released (cap : Capability) (rank : UsageFromTask → Nat) (pinned : UsageFromTask → Prop)
    (c : BlockedUsageCounts) (unblocked : List Task) (v : LockQueue UsageFromTask)
    (a : UsageFromTask) (q' : UsageQueueInner) (c' : BlockedUsageCounts) (unblocked' : List Task)
    (v' : LockQueue UsageFromTask) (us : List UsageFromTask) : Prop where
  inv : QueueInv cap rank pinned q' v'
  left : (usages v).Perm (a :: usages v')
  waiters : v.waiters = us ++ v'.waiters
  unblocks : Unblocks c unblocked us c' unblocked'

theorem UsageQueueInner.Represents.perm {hs' : List UsageFromTask} (h : q.Represents ⟨hs, ws⟩)
    (hp : hs.Perm hs') : q.Represents ⟨hs', ws⟩ := by
  refine ⟨h.waiters, ?_, h.keyed⟩
  have hheld := h.holders
  cases q with
  | fifo cur blocked =>
    cases cur with
    | none =>
      rw [show hs = [] from hheld] at hp
      exact hp.symm.eq_nil
    | some u =>
      cases u with
      | readonly count =>
        obtain ⟨hne, hlen, hro⟩ := hheld
        refine ⟨fun hnil => hne (hp.trans (List.Perm.of_eq hnil)).eq_nil,
          hlen.trans hp.length_eq, fun x hx => hro x (hp.mem_iff.mpr hx)⟩
      | writable _ =>
        obtain ⟨t, ht⟩ := hheld
        exact ⟨t, (perm_singleton.mp ((List.Perm.of_eq ht).symm.trans hp).symm)⟩
  | priority cur blocked =>
    cases cur with
    | none =>
      rw [show hs = [] from hheld] at hp
      exact hp.symm.eq_nil
    | some u =>
      cases u with
      | readonly tasks => exact ⟨hheld.1, hheld.2.1, hp.symm.trans hheld.2.2⟩
      | writable t =>
        exact perm_singleton.mp
          ((List.Perm.of_eq (show hs = [(.writable, t)] from hheld)).symm.trans hp).symm

theorem relockUsages_promote {w : UsageFromTask} (hrep : q.Represents ⟨[], ws⟩)
    (hnd : (taskIds (w :: ws)).Nodup) (hcount : ∀ x ∈ w :: ws, (c x.2.taskId).current ≠ 0)
    (hbound : ws.length < bound) (hroom : ws.length + 1 < 2 ^ 32) (allowed : Panic → Prop) :
    Returns allowed (fun r => r.1.capability = q.capability ∧
      r.1.Represents (promote exclusive (w :: ws)) ∧
      Unblocks c unblocked (promote exclusive (w :: ws)).holders r.2.1 r.2.2)
      (relockUsages bound (some w) q c unblocked) := by
  obtain ⟨u, t⟩ := w
  cases u with
  | writable =>
    rw [promote_excl ws (exclusive_writable t)]
    exact relockUsages_writable hrep rfl (hcount _ mem_cons_self)
      (Nat.zero_lt_of_lt hbound) allowed
  | readonly =>
    rw [promote_shared ws (exclusive_readonly t)]
    refine (relockUsages_readonly allowed hrep (fun h hm => absurd hm not_mem_nil) rfl hnd
      hcount hbound (by simpa using hroom)).mono ?_
    rintro r ⟨hcap, ⟨hs, hperm, hrep'⟩, hun⟩
    exact ⟨hcap, hrep'.perm hperm, hun⟩

/-- The loop body of `unlock_usage_queues`, for a usage that is current. -/
theorem unlockQueue_returns {cap : Capability} {rank : UsageFromTask → Nat}
    {pinned : UsageFromTask → Prop} (hq : QueueInv cap rank pinned q v) (ha : a ∈ v.holders)
    (hnd : (taskIds (usages v)).Nodup) (hcount : ∀ w ∈ v.waiters, (c w.2.taskId).current ≠ 0)
    (hroom : (usages v).length < 2 ^ 32) (unblocked : List Task) (allowed : Panic → Prop) :
    Returns allowed
      (fun r => ∃ v' us, Released cap rank pinned c unblocked v a r.1 r.2.1 r.2.2 v' us)
      (do
        let r ← q.unlock a.2 a.1
        relockUsages q.blockedLen r.1 r.2 c unblocked) := by
  unfold unlock
  rw [bind_assoc]
  refine (unlockCurrentUsage_returns hq.represents ha allowed).bind ?_
  rintro ⟨newly, q₁⟩ ⟨hs, hperm, hnewly, hcap₁, hrep₁⟩
  simp only at hnewly hcap₁ hrep₁
  have hleft : (usages v).Perm (a :: (hs ++ v.waiters)) := hperm.append_right _
  by_cases hnil : hs = []
  · -- the last current usage is gone: the queue goes to the front waiters
    have htrue : newly = true := hnewly.mpr hnil
    subst htrue hnil
    obtain ⟨hhead, htail⟩ := hrep₁.pop
    have hcap₂ : q₁.pop.2.capability = cap :=
      q₁.capability_pop.trans (hcap₁.trans hq.capability)
    show Returns allowed _ (relockUsages q.blockedLen q₁.pop.1 q₁.pop.2 c unblocked)
    rw [hhead, q.blockedLen_eq, hq.represents.waiters]
    cases hws : v.waiters with
    | nil =>
      rw [hws] at htail hleft
      refine ⟨⟨[], []⟩, [], ⟨hcap₂, htail, wf_nil⟩, hleft, hws, ?_⟩
      exact Unblocks.nil c unblocked
    | cons w ws =>
      rw [hws] at htail hleft hcount
      have hsorted := hq.wf.sorted
      rw [hws] at hsorted
      have hnd' : (taskIds (w :: ws)).Nodup := by
        have h := (hleft.map (fun u : UsageFromTask => u.2.taskId)).nodup_iff.mp hnd
        exact (nodup_cons.mp h).2
      have hroom' : ws.length + 1 < 2 ^ 32 := by
        have h := hleft.length_eq
        simp only [nil_append, length_cons] at h
        omega
      refine (relockUsages_promote htail hnd' hcount (Nat.lt_succ_self _) hroom' allowed).mono ?_
      rintro r ⟨hcap, hrep, hun⟩
      refine ⟨promote exclusive (w :: ws), (promote exclusive (w :: ws)).holders,
        ⟨hcap.trans hcap₂, hrep, wf_promote hsorted⟩, ?_, ?_, hun⟩
      · have happ : usages (promote exclusive (w :: ws)) = w :: ws := promote_append _ _
        rw [happ]
        exact hleft
      · rw [promote_append]
        exact hws
  · have hfalse : newly = false := by
      cases newly with
      | false => rfl
      | true => exact absurd (hnewly.mp rfl) hnil
    subst hfalse
    have hwf : (⟨hs, v.waiters⟩ : LockQueue UsageFromTask).WF exclusive rank pinned :=
      hq.wf.release hperm rfl hnil
    show Returns allowed _ (relockUsages q.blockedLen none q₁ c unblocked)
    have hnone : relockUsages q.blockedLen none q₁ c unblocked = .ok (q₁, c, unblocked) := by
      cases q.blockedLen <;> rfl
    rw [hnone]
    exact ⟨⟨hs, v.waiters⟩, [], ⟨hcap₁.trans hq.capability, hrep₁, hwf⟩, hleft, rfl,
      Unblocks.nil c unblocked⟩

end Agave.Scheduler

