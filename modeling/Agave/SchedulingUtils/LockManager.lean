/-
  Agave.SchedulingUtils.LockManager

  `ThreadAwareAccountLocks` over whole runs.

  The code stores counters per account; who holds what is kept here beside them, as the list of the
  outstanding locks.  `Represents` says that every entry describes the locks of that list.  Locking
  an account for a thread that is free there, and unlocking it again, keep it, account by account;
  from this follow the runs of `try_lock_accounts` and `unlock_accounts`.
-/

import Agave.SchedulingUtils.ThreadAwareLocks
import Mathlib.Algebra.Order.BigOperators.Group.List

namespace Agave.SchedulingUtils

open Agave.Lib Function List

structure ThreadAwareAccountLocks where
  numThreads : Nat
  locks : BTreeMap Pubkey AccountLocks

/-- What `new` asserts about the number of threads. -/
inductive NewPanic where
  | noThreads
  | tooManyThreads

/-- The entry of an account, or its removal. -/
def setEntry (locks : BTreeMap Pubkey AccountLocks) (account : Pubkey) :
    Option AccountLocks → BTreeMap Pubkey AccountLocks
  | .none => (locks.remove account).2
  | .some entry => (locks.insert account entry).2

@[simp] theorem get?_setEntry (locks : BTreeMap Pubkey AccountLocks) (account : Pubkey)
    (entry : Option AccountLocks) (k : Pubkey) :
    (setEntry locks account entry).get? k = if k = account then entry else locks.get? k := by
  cases entry with
  | none => exact BTreeMap.get?_remove _ _ _
  | some entry => exact BTreeMap.get?_insert _ _ _ _

namespace ThreadAwareAccountLocks

def new (numThreads : Nat) : Except NewPanic ThreadAwareAccountLocks :=
  if numThreads = 0 then .error .noThreads
  else if maxThreads < numThreads then .error .tooManyThreads
  else .ok ⟨numThreads, .empty⟩

variable (s : ThreadAwareAccountLocks) (account : Pubkey) (writes reads : List Pubkey)
  (threadId : ThreadId)

def writeLockAccount : Except LockPanic ThreadAwareAccountLocks := do
  let entry ← writeLockEntry ((s.locks.get? account).getD .default) threadId
  return { s with locks := setEntry s.locks account entry }

def readLockAccount : Except LockPanic ThreadAwareAccountLocks := do
  let entry ← readLockEntry ((s.locks.get? account).getD .default) threadId
  return { s with locks := setEntry s.locks account entry }

def writeUnlockAccount : Except LockPanic ThreadAwareAccountLocks := do
  let entry ← writeUnlockEntry (s.locks.get? account) threadId
  return { s with locks := setEntry s.locks account entry }

def readUnlockAccount : Except LockPanic ThreadAwareAccountLocks := do
  let entry ← readUnlockEntry (s.locks.get? account) threadId
  return { s with locks := setEntry s.locks account entry }

def lockAccounts : Except LockPanic ThreadAwareAccountLocks :=
  if ¬ threadId < s.numThreads then .error .threadOutOfRange
  else do
    let s ← writes.foldlM (fun s account => s.writeLockAccount account threadId) s
    reads.foldlM (fun s account => s.readLockAccount account threadId) s

def unlockAccounts : Except LockPanic ThreadAwareAccountLocks := do
  let s ← writes.foldlM (fun s account => s.writeUnlockAccount account threadId) s
  reads.foldlM (fun s account => s.readUnlockAccount account threadId) s

/-- One of the two loops of `accounts_schedulable_threads`. -/
def narrow (s : ThreadAwareAccountLocks) (write : Bool) :
    List Pubkey → ThreadSet → Except LockPanic (Option ThreadSet)
  | [], threads => .ok (.some threads)
  | account :: accounts, threads => do
    let schedulable ← schedulableThreads s.numThreads write (s.locks.get? account)
    if (threads &&& schedulable).isEmpty then return .none
    else narrow s write accounts (threads &&& schedulable)

def accountsSchedulableThreads : Except LockPanic (Option ThreadSet) := do
  match ← s.narrow true writes (.any s.numThreads) with
  | .none => return .none
  | .some threads => s.narrow false reads threads

def tryLockAccounts (allowedThreads : ThreadSet) (threadSelector : ThreadSet → ThreadId) : Except
    LockPanic (Except TryLockError ThreadId × ThreadAwareAccountLocks) := do
  match ← s.accountsSchedulableThreads writes reads with
  | .none => return (.error .multipleConflicts, s)
  | .some threads =>
    if (threads &&& allowedThreads).isEmpty then return (.error .threadNotAllowed, s)
    else do
      let threadId := threadSelector (threads &&& allowedThreads)
      let s ← s.lockAccounts writes reads threadId
      return (.ok threadId, s)

end ThreadAwareAccountLocks

/-! ## Outstanding locks -/

/-- What a successful `try_lock_accounts` acquired. -/
structure Lock where
  writes : List Pubkey
  reads : List Pubkey
  threadId : ThreadId

/-- How often thread `t` holds the account, counting the accounts a lock lists under `accounts`. -/
def countOn (accounts : Lock → List Pubkey) (outstanding : List Lock) (account : Pubkey)
    (t : ThreadId) : Nat :=
  (outstanding.map (fun l => if l.threadId = t then (accounts l).count account else 0)).sum

/-- How many locks on the account are outstanding. -/
def lockCount (outstanding : List Lock) (account : Pubkey) : Nat :=
  (outstanding.map (fun l => l.writes.count account + l.reads.count account)).sum

variable {outstanding' : List Lock} {l l' : Lock} {threads : ThreadSet}

section

variable {accounts : Lock → List Pubkey} {outstanding rest : List Lock} {account : Pubkey}
  {t : ThreadId} {writes reads : List Pubkey}

theorem countOn_cons (l : Lock) :
    countOn accounts (l :: outstanding) account t =
      (if l.threadId = t then (accounts l).count account else 0) +
        countOn accounts outstanding account t := by
  simp [countOn]

theorem lockCount_cons (l : Lock) :
    lockCount (l :: outstanding) account =
      l.writes.count account + l.reads.count account + lockCount outstanding account := by
  simp [lockCount]

theorem count_le_lockCount :
    countOn Lock.writes outstanding account t + countOn Lock.reads outstanding account t ≤
      lockCount outstanding account := by
  induction outstanding with
  | nil => simp [countOn, lockCount]
  | cons l outstanding ih =>
    rw [countOn_cons, countOn_cons, lockCount_cons]
    split_ifs <;> omega

theorem countOn_pos_iff :
    0 < countOn accounts outstanding account t ↔
      ∃ l ∈ outstanding, l.threadId = t ∧ account ∈ accounts l := by
  induction outstanding with
  | nil => simp [countOn]
  | cons l outstanding ih =>
    rw [countOn_cons]
    simp only [mem_cons, exists_eq_or_imp]
    rw [← ih, ← count_pos_iff]
    split_ifs with hl
    · simp only [hl, true_and]
      omega
    · simp [hl]

/-- All locks on the account are on thread `t`. -/
theorem onlyOn_countOn_iff :
    OnlyOn t (countOn accounts outstanding account) ↔
      ∀ l ∈ outstanding, account ∈ accounts l → l.threadId = t := by
  constructor
  · intro h l hl hmem
    by_contra hne
    have hpos := countOn_pos_iff.mpr ⟨l, hl, rfl, hmem⟩
    rw [h l.threadId hne] at hpos
    omega
  · intro h t' hne
    by_contra hpos
    obtain ⟨l, hl, hthread, hmem⟩ := countOn_pos_iff.mp (Nat.pos_of_ne_zero hpos)
    exact hne (hthread.symm.trans (h l hl hmem))

theorem countOn_perm (h : outstanding.Perm outstanding') :
    countOn accounts outstanding account t = countOn accounts outstanding' account t :=
  (h.map _).sum_eq

/-- The thread's own locks are not in its way. -/
theorem OnlyOn.cons (h : OnlyOn t (countOn accounts outstanding account)) (hl : l.threadId = t) :
    OnlyOn t (countOn accounts (l :: outstanding) account) := by
  intro t' hne
  rw [countOn_cons, h t' hne, if_neg (fun heq => hne (heq.symm.trans hl))]

theorem countOn_cons_account (hthread : l'.threadId = l.threadId)
    (haccounts : accounts l' = account :: accounts l) :
    countOn accounts (l' :: outstanding) account =
      update (countOn accounts (l :: outstanding) account) l.threadId
        (countOn accounts (l :: outstanding) account l.threadId + 1) := by
  funext t
  rw [countOn_cons, hthread, haccounts, count_cons_self]
  by_cases ht : t = l.threadId
  · rw [ht, update_self, if_pos rfl, countOn_cons, if_pos rfl]
    omega
  · rw [update_of_ne ht, if_neg (Ne.symm ht), countOn_cons, if_neg (Ne.symm ht)]

/-- The counts of an account depend on how often the lock on top lists it. -/
theorem countOn_cons_congr (hthread : l'.threadId = l.threadId)
    (haccounts : (accounts l').count account = (accounts l).count account) :
    countOn accounts (l' :: outstanding) account = countOn accounts (l :: outstanding) account := by
  funext t
  rw [countOn_cons, countOn_cons, hthread, haccounts]

end

/-- Every entry describes the locks outstanding on its account, which are held
    by the first `n` threads. -/
structure Represents (n : Nat) (s : ThreadAwareAccountLocks) (outstanding : List Lock) :
    Prop where
  describes : ∀ account, Describes (s.locks.get? account)
    (countOn Lock.writes outstanding account) (countOn Lock.reads outstanding account)
  threads : ∀ l ∈ outstanding, l.threadId < n
  numThreads_eq : s.numThreads = n
  le_maxThreads : n ≤ maxThreads

/-- On top of the outstanding locks is one that thread `t` is taking or releasing. -/
abbrev Holding (n : Nat) (outstanding : List Lock) (t : ThreadId) (writes reads : List Pubkey)
    (s : ThreadAwareAccountLocks) : Prop :=
  Represents n s (⟨writes, reads, t⟩ :: outstanding)

/-! ## Locking and unlocking account by account -/

section

variable {n : Nat} {s : ThreadAwareAccountLocks} {outstanding : List Lock} {account : Pubkey}
  {t : ThreadId} {writes reads : List Pubkey}

/-- Writing one entry when only the lock on top has changed, at that account. -/
theorem Represents.setEntry (h : Represents n s (l :: outstanding)) {entry : Option AccountLocks}
    (hthread : l'.threadId = l.threadId)
    (hentry : Describes entry (countOn Lock.writes (l' :: outstanding) account)
      (countOn Lock.reads (l' :: outstanding) account))
    (hother : ∀ k, k ≠ account → l'.writes.count k = l.writes.count k ∧
      l'.reads.count k = l.reads.count k) :
    Represents n { s with locks := setEntry s.locks account entry } (l' :: outstanding) where
  describes := by
    intro k
    show Describes ((SchedulingUtils.setEntry s.locks account entry).get? k) _ _
    rw [get?_setEntry]
    by_cases hk : k = account
    · rw [if_pos hk, hk]
      exact hentry
    · obtain ⟨hwrites, hreads⟩ := hother k hk
      rw [if_neg hk]
      have hold := h.describes k
      rwa [← countOn_cons_congr hthread hwrites, ← countOn_cons_congr hthread hreads] at hold
  threads := by
    intro k hk
    rcases mem_cons.mp hk with rfl | hk
    · rw [hthread]
      exact h.threads l mem_cons_self
    · exact h.threads k (mem_cons_of_mem _ hk)
  numThreads_eq := h.numThreads_eq
  le_maxThreads := h.le_maxThreads

theorem count_cons_other {k : Pubkey} (hk : k ≠ account) (accounts : List Pubkey) :
    (account :: accounts).count k = accounts.count k :=
  count_cons_of_ne (Ne.symm hk)

theorem countOn_writes_cons :
    countOn Lock.writes (⟨account :: writes, reads, t⟩ :: outstanding) account =
      update (countOn Lock.writes (⟨writes, reads, t⟩ :: outstanding) account) t
        (countOn Lock.writes (⟨writes, reads, t⟩ :: outstanding) account t + 1) :=
  countOn_cons_account rfl rfl

theorem countOn_reads_cons :
    countOn Lock.reads (⟨writes, account :: reads, t⟩ :: outstanding) account =
      update (countOn Lock.reads (⟨writes, reads, t⟩ :: outstanding) account) t
        (countOn Lock.reads (⟨writes, reads, t⟩ :: outstanding) account t + 1) :=
  countOn_cons_account rfl rfl

section

variable (h : Holding n outstanding t writes reads s)
  (hw : OnlyOn t (countOn Lock.writes outstanding account))
include h hw

theorem writeLockAccount_returns (hr : OnlyOn t (countOn Lock.reads outstanding account))
    (hbound : lockCount (⟨account :: writes, reads, t⟩ :: outstanding) account < lockCountSize) :
    Succeeds (Holding n outstanding t (account :: writes) reads)
      (s.writeLockAccount account t) := by
  have hle := lt_of_le_of_lt (count_le_lockCount (t := t)) hbound
  rw [countOn_writes_cons, update_self] at hle
  apply (writeLockEntry_returns (h.describes account) (hw.cons rfl) (hr.cons rfl)
    (by omega)).bind
  intro entry hentry
  rw [← countOn_writes_cons] at hentry
  exact h.setEntry rfl hentry (fun k hk => ⟨count_cons_other hk _, rfl⟩)

theorem readLockAccount_returns
    (hbound : lockCount (⟨writes, account :: reads, t⟩ :: outstanding) account < lockCountSize) :
    Succeeds (Holding n outstanding t writes (account :: reads))
      (s.readLockAccount account t) := by
  have hle := lt_of_le_of_lt (count_le_lockCount (t := t)) hbound
  rw [countOn_reads_cons, update_self] at hle
  have ht : t < maxThreads := lt_of_lt_of_le (h.threads _ mem_cons_self) h.le_maxThreads
  apply (readLockEntry_returns (h.describes account) (hw.cons rfl) ht (by omega)).bind
  intro entry hentry
  rw [← countOn_reads_cons] at hentry
  exact h.setEntry rfl hentry (fun k hk => ⟨rfl, count_cons_other hk _⟩)

end

theorem writeUnlockAccount_returns (h : Holding n outstanding t (account :: writes) reads s)
    (hbound : lockCount (⟨account :: writes, reads, t⟩ :: outstanding) account < lockCountSize) :
    Succeeds (Holding n outstanding t writes reads)
      (s.writeUnlockAccount account t) := by
  have hle := lt_of_le_of_lt (count_le_lockCount (t := t)) hbound
  have hdescribes := h.describes account
  rw [countOn_writes_cons] at hle hdescribes
  rw [update_self] at hle
  apply (writeUnlockEntry_returns (t := t) hdescribes (by rw [update_self]; omega)
    (by rw [update_self]; omega)).bind
  intro entry hentry
  rw [update_idem, update_self, Nat.add_sub_cancel, update_eq_self]
    at hentry
  exact h.setEntry rfl hentry (fun k hk => ⟨(count_cons_other hk _).symm, rfl⟩)

theorem readUnlockAccount_returns (h : Holding n outstanding t writes (account :: reads) s)
    (hbound : lockCount (⟨writes, account :: reads, t⟩ :: outstanding) account < lockCountSize) :
    Succeeds (Holding n outstanding t writes reads)
      (s.readUnlockAccount account t) := by
  have hle := lt_of_le_of_lt (count_le_lockCount (t := t)) hbound
  have hdescribes := h.describes account
  rw [countOn_reads_cons] at hle hdescribes
  rw [update_self] at hle
  apply (readUnlockEntry_returns (t := t) hdescribes (by rw [update_self]; omega)
    (by rw [update_self]; omega)).bind
  intro entry hentry
  rw [update_idem, update_self, Nat.add_sub_cancel, update_eq_self]
    at hentry
  exact h.setEntry rfl hentry (fun k hk => ⟨rfl, (count_cons_other hk _).symm⟩)

/-- Only the counts and the threads of the outstanding locks matter. -/
theorem Represents.of_counts (h : Represents n s outstanding)
    (hw : ∀ k, countOn Lock.writes outstanding' k = countOn Lock.writes outstanding k)
    (hr : ∀ k, countOn Lock.reads outstanding' k = countOn Lock.reads outstanding k)
    (hthreads : ∀ l ∈ outstanding', l.threadId < n) : Represents n s outstanding' where
  describes := by
    intro k
    rw [hw, hr]
    exact h.describes k
  threads := hthreads
  numThreads_eq := h.numThreads_eq
  le_maxThreads := h.le_maxThreads

/-- The order in which a lock lists its accounts does not matter. -/
theorem Represents.congr {writes' reads' : List Pubkey}
    (h : Holding n outstanding t writes reads s) (hwrites : writes.Perm writes')
    (hreads : reads.Perm reads') : Holding n outstanding t writes' reads' s :=
  h.of_counts (fun k => countOn_cons_congr rfl (hwrites.count_eq k).symm)
    (fun k => countOn_cons_congr rfl (hreads.count_eq k).symm)
    (forall_mem_cons.mpr (forall_mem_cons.mp h.threads))

theorem Represents.perm (h : Represents n s outstanding) (hperm : outstanding.Perm outstanding') :
    Represents n s outstanding' :=
  h.of_counts (fun _ => funext fun _ => countOn_perm hperm.symm)
    (fun _ => funext fun _ => countOn_perm hperm.symm)
    (fun l hl => h.threads l (hperm.mem_iff.mpr hl))

theorem countOn_nil_cons {accounts : Lock → List Pubkey} (h : accounts l = []) (k : Pubkey) :
    countOn accounts (l :: outstanding) k = countOn accounts outstanding k := by
  funext t
  rw [countOn_cons, h, count_nil, ite_self, Nat.zero_add]

theorem represents_nil_cons (ht : t < n) :
    Holding n outstanding t [] [] s ↔ Represents n s outstanding := by
  have hw : ∀ k, countOn Lock.writes (⟨[], [], t⟩ :: outstanding) k =
      countOn Lock.writes outstanding k := countOn_nil_cons rfl
  have hr : ∀ k, countOn Lock.reads (⟨[], [], t⟩ :: outstanding) k =
      countOn Lock.reads outstanding k := countOn_nil_cons rfl
  constructor
  · intro h
    exact h.of_counts (fun k => (hw k).symm) (fun k => (hr k).symm) (forall_mem_cons.mp h.threads).2
  · intro h
    exact h.of_counts hw hr (forall_mem_cons.mpr ⟨ht, h.threads⟩)

/-! ## The loops -/

/-- Fewer than `2^32` locks are outstanding on every account. -/
def Bounded (outstanding : List Lock) : Prop :=
  ∀ account, lockCount outstanding account < lockCountSize

theorem Bounded.of_count_le (h : Bounded (l :: outstanding))
    (hle : ∀ k, l'.writes.count k + l'.reads.count k ≤ l.writes.count k + l.reads.count k) :
    Bounded (l' :: outstanding) := by
  intro k
  have hk := h k
  have hlek := hle k
  rw [lockCount_cons] at hk ⊢
  omega

theorem foldlM_writeLock_returns (h : Holding n outstanding t [] reads s)
    (hfree : ∀ a ∈ writes, OnlyOn t (countOn Lock.writes outstanding a) ∧
      OnlyOn t (countOn Lock.reads outstanding a))
    (hbound : Bounded (⟨writes, reads, t⟩ :: outstanding)) :
    Succeeds (Holding n outstanding t writes reads)
      (writes.foldlM (fun s account => s.writeLockAccount account t) s) := by
  apply Returns.foldlM_seen _ h
  intro done a rest s' hwrites h'
  obtain ⟨hw, hr⟩ := hfree a (by simp [hwrites])
  refine (writeLockAccount_returns h' hw hr ?_).mono
    (fun s'' h'' => h''.congr (perm_append_singleton a done).symm (.refl _))
  apply (hbound.of_count_le _) a
  intro k
  simp only [hwrites, count_cons, count_append]
  omega

theorem foldlM_readLock_returns (h : Holding n outstanding t writes [] s)
    (hfree : ∀ a ∈ reads, OnlyOn t (countOn Lock.writes outstanding a))
    (hbound : Bounded (⟨writes, reads, t⟩ :: outstanding)) :
    Succeeds (Holding n outstanding t writes reads)
      (reads.foldlM (fun s account => s.readLockAccount account t) s) := by
  apply Returns.foldlM_seen _ h
  intro done a rest s' hreads h'
  refine (readLockAccount_returns h' (hfree a (by simp [hreads])) ?_).mono
    (fun s'' h'' => h''.congr (.refl _) (perm_append_singleton a done).symm)
  apply (hbound.of_count_le _) a
  intro k
  simp only [hreads, count_cons, count_append]
  omega

theorem foldlM_writeUnlock_returns (h : Holding n outstanding t writes reads s)
    (hbound : Bounded (⟨writes, reads, t⟩ :: outstanding)) :
    Succeeds (Holding n outstanding t [] reads)
      (writes.foldlM (fun s account => s.writeUnlockAccount account t) s) := by
  induction writes generalizing s with
  | nil => exact h
  | cons a writes ih =>
    rw [foldlM_cons]
    apply (writeUnlockAccount_returns h (hbound a)).bind
    intro s' h'
    apply ih h' (hbound.of_count_le _)
    intro k
    simp only [count_cons]
    omega

theorem foldlM_readUnlock_returns (h : Holding n outstanding t [] reads s)
    (hbound : Bounded (⟨[], reads, t⟩ :: outstanding)) :
    Succeeds (Holding n outstanding t [] [])
      (reads.foldlM (fun s account => s.readUnlockAccount account t) s) := by
  induction reads generalizing s with
  | nil => exact h
  | cons a reads ih =>
    rw [foldlM_cons]
    apply (readUnlockAccount_returns h (hbound a)).bind
    intro s' h'
    apply ih h' (hbound.of_count_le _)
    intro k
    simp only [count_cons]
    omega

/-- `unlock_accounts` of an outstanding lock does not panic, and releases it. -/
theorem unlockAccounts_returns (h : Holding n outstanding t writes reads s)
    (hbound : Bounded (⟨writes, reads, t⟩ :: outstanding)) :
    Succeeds (fun s' => Represents n s' outstanding) (s.unlockAccounts writes reads t) := by
  have ht := h.threads _ mem_cons_self
  unfold ThreadAwareAccountLocks.unlockAccounts
  apply (foldlM_writeUnlock_returns h hbound).bind
  intro s' h'
  have hrest := foldlM_readUnlock_returns h' (hbound.of_count_le (fun k => by simp))
  exact hrest.mono (fun s'' h'' => (represents_nil_cons ht).mp h'')

/-! ## Choosing a thread -/

/-- Thread `t` may take the accounts: no outstanding lock of another thread is in the way. -/
def Free (n : Nat) (outstanding : List Lock) (writes reads : List Pubkey) (t : ThreadId) : Prop :=
  t < n ∧
    (∀ account ∈ writes, ∀ l ∈ outstanding,
      account ∈ l.writes ∨ account ∈ l.reads → l.threadId = t) ∧
    (∀ account ∈ reads, ∀ l ∈ outstanding, account ∈ l.writes → l.threadId = t)

/-- What the locks on one account allow. -/
def FreeOn (outstanding : List Lock) (write : Bool) (t : ThreadId) (account : Pubkey) : Prop :=
  OnlyOn t (countOn Lock.writes outstanding account) ∧
    (write = true → OnlyOn t (countOn Lock.reads outstanding account))

theorem free_iff :
    Free n outstanding writes reads t ↔ t < n ∧ (∀ a ∈ writes, FreeOn outstanding true t a) ∧
      (∀ a ∈ reads, FreeOn outstanding false t a) := by
  simp only [Free, FreeOn, onlyOn_countOn_iff, forall_const, Bool.false_eq_true,
    false_implies, and_true]
  refine and_congr_right (fun _ => and_congr_left (fun _ => forall₂_congr (fun a _ => ?_)))
  exact ⟨fun h => ⟨fun l hl hm => h l hl (Or.inl hm), fun l hl hm => h l hl (Or.inr hm)⟩,
    fun h l hl hm => hm.elim (h.1 l hl) (h.2 l hl)⟩

theorem contains_and {threads' : ThreadSet} {t : ThreadId} :
    (threads &&& threads').contains t = true ↔
      threads.contains t = true ∧ threads'.contains t = true :=
  BitSet.contains_and threads threads' t

section

variable (h : Represents n s outstanding)
include h

/-- A loop over accounts keeps the threads that are free on all of them, and
    gives up when there is none. -/
theorem narrow_returns (write : Bool) {accounts : List Pubkey}
    (hthreads : ∀ t, threads.contains t = true → t < n) :
    Succeeds (fun result =>
        (∀ threads', result = .some threads' → (∀ t, threads'.contains t = true ↔
            threads.contains t = true ∧ ∀ a ∈ accounts, FreeOn outstanding write t a) ∧
          (threads.isEmpty = false → threads'.isEmpty = false)) ∧
        (result = .none → ∀ t, threads.contains t = true →
          ¬ ∀ a ∈ accounts, FreeOn outstanding write t a))
      (s.narrow write accounts threads) := by
  induction accounts generalizing threads with
  | nil =>
    refine ⟨?_, fun hnone => (nomatch hnone)⟩
    rintro _ ⟨⟩
    exact ⟨fun t => by simp, id⟩
  | cons a accounts ih =>
    have hheld : ∀ accounts t, 0 < countOn accounts outstanding a t → t < s.numThreads := by
      intro accounts t ht
      obtain ⟨l, hl, rfl, -⟩ := countOn_pos_iff.mp ht
      rw [h.numThreads_eq]
      exact h.threads l hl
    have hnum : s.numThreads ≤ maxThreads := by
      rw [h.numThreads_eq]
      exact h.le_maxThreads
    rw [ThreadAwareAccountLocks.narrow]
    apply (schedulableThreads_returns (h.describes a) (hheld _) (hheld _) hnum write).bind
    intro schedulable hschedulable
    have hboth : ∀ t, (threads &&& schedulable).contains t = true ↔
        threads.contains t = true ∧ FreeOn outstanding write t a := by
      intro t
      rw [contains_and, hschedulable t, h.numThreads_eq]
      exact ⟨fun ⟨ht, _, hfree⟩ => ⟨ht, hfree⟩, fun ⟨ht, hfree⟩ => ⟨ht, hthreads t ht, hfree⟩⟩
    by_cases hempty : (threads &&& schedulable).isEmpty = true
    · rw [if_pos hempty]
      refine ⟨fun _ hsome => (nomatch hsome), fun _ t ht hall => ?_⟩
      have hno := isEmpty_iff.mp hempty t
      rw [(hboth t).mpr ⟨ht, hall a mem_cons_self⟩] at hno
      cases hno
    · rw [if_neg hempty]
      apply (ih (fun t ht => hthreads t ((hboth t).mp ht).1)).mono
      rintro result ⟨hsome, hnone⟩
      refine ⟨?_, ?_⟩
      · intro threads' hresult
        obtain ⟨hmem, hne⟩ := hsome threads' hresult
        refine ⟨fun t => ?_, fun _ => hne (by simpa using hempty)⟩
        rw [hmem t, hboth t, forall_mem_cons, and_assoc]
      · intro hresult t ht hall
        rw [forall_mem_cons] at hall
        exact hnone hresult t ((hboth t).mpr ⟨ht, hall.1⟩) hall.2

theorem accountsSchedulableThreads_returns (hn : 0 < n) (writes reads : List Pubkey) :
    Succeeds (fun result =>
        (∀ threads, result = .some threads →
          (∀ t, threads.contains t = true ↔ Free n outstanding writes reads t) ∧
          threads.isEmpty = false) ∧
        (result = .none → ∀ t, ¬ Free n outstanding writes reads t))
      (s.accountsSchedulableThreads writes reads) := by
  have hany : ∀ t, (ThreadSet.any s.numThreads).contains t = true ↔ t < n := by
    intro t
    rw [h.numThreads_eq]
    exact BitSet.contains_below h.le_maxThreads
  have hne : (ThreadSet.any s.numThreads).isEmpty = false :=
    isEmpty_eq_false_iff.mpr ⟨0, (hany 0).mpr hn⟩
  unfold ThreadAwareAccountLocks.accountsSchedulableThreads
  apply (narrow_returns h true (fun t ht => (hany t).mp ht)).bind
  rintro result ⟨hsome, hnone⟩
  cases result with
  | none =>
    refine ⟨fun _ hresult => (nomatch hresult), fun _ t hfree => ?_⟩
    rw [free_iff] at hfree
    exact hnone rfl t ((hany t).mpr hfree.1) hfree.2.1
  | some threads =>
    obtain ⟨hmem, hkeep⟩ := hsome threads rfl
    have hlt : ∀ t, threads.contains t = true → t < n := fun t ht =>
      (hany t).mp ((hmem t).mp ht).1
    apply (narrow_returns h false hlt).mono
    rintro result ⟨hsome', hnone'⟩
    refine ⟨?_, ?_⟩
    · intro threads' hresult
      obtain ⟨hmem', hkeep'⟩ := hsome' threads' hresult
      refine ⟨fun t => ?_, hkeep' (hkeep hne)⟩
      rw [hmem' t, hmem t, hany t, free_iff, and_assoc]
    · intro hresult t hfree
      rw [free_iff] at hfree
      exact hnone' hresult t ((hmem t).mpr ⟨(hany t).mpr hfree.1, hfree.2.1⟩) hfree.2.2

/-- `lock_accounts` for a thread that is free does not panic. -/
theorem lockAccounts_returns (hfree : Free n outstanding writes reads t)
    (hbound : Bounded (⟨writes, reads, t⟩ :: outstanding)) :
    Succeeds (Holding n outstanding t writes reads)
      (s.lockAccounts writes reads t) := by
  obtain ⟨ht, hw, hr⟩ := free_iff.mp hfree
  have hstart := (represents_nil_cons ht).mpr h
  have hin : t < s.numThreads := by
    rw [h.numThreads_eq]
    exact ht
  rw [ThreadAwareAccountLocks.lockAccounts, if_neg (not_not_intro hin)]
  apply (foldlM_writeLock_returns hstart
    (fun a ha => ⟨(hw a ha).1, (hw a ha).2 rfl⟩) (hbound.of_count_le (fun k => by simp))).bind
  intro s' h'
  exact foldlM_readLock_returns h' (fun a ha => (hr a ha).1) hbound

end

/-- A selector returns a member of the set it is given. -/
def Selects (threadSelector : ThreadSet → ThreadId) : Prop :=
  ∀ threads : ThreadSet, threads.isEmpty = false →
    threads.contains (threadSelector threads) = true

/-- The three outcomes of `try_lock_accounts`. -/
structure Outcomes (n : Nat) (outstanding : List Lock) (writes reads : List Pubkey)
    (allowedThreads : ThreadSet) (threadSelector : ThreadSet → ThreadId)
    (s : ThreadAwareAccountLocks)
    (result : Except TryLockError ThreadId × ThreadAwareAccountLocks) : Prop where
  /-- The selector is given exactly the free threads that are allowed. -/
  locked : ∀ t, Free n outstanding writes reads t → allowedThreads.contains t = true →
    ∃ threads : ThreadSet, (∀ t', threads.contains t' = true ↔
        Free n outstanding writes reads t' ∧ allowedThreads.contains t' = true) ∧
      result.1 = .ok (threadSelector threads)
  threadNotAllowed : (∃ t, Free n outstanding writes reads t) →
    (∀ t, Free n outstanding writes reads t → allowedThreads.contains t = false) →
    result = (.error .threadNotAllowed, s)
  multipleConflicts : (∀ t, ¬ Free n outstanding writes reads t) →
    result = (.error .multipleConflicts, s)

theorem tryLockAccounts_returns (h : Represents n s outstanding) (hn : 0 < n)
    {allowedThreads : ThreadSet} {threadSelector : ThreadSet → ThreadId}
    (hselects : Selects threadSelector)
    (hbound : ∀ t, Bounded (⟨writes, reads, t⟩ :: outstanding)) :
    Succeeds (fun result =>
        Outcomes n outstanding writes reads allowedThreads threadSelector s result ∧
        (∀ t, result.1 = .ok t → Free n outstanding writes reads t ∧
          allowedThreads.contains t = true ∧
          Represents n result.2 (⟨writes, reads, t⟩ :: outstanding)) ∧
        (∀ e, result.1 = .error e → result.2 = s))
      (s.tryLockAccounts writes reads allowedThreads threadSelector) := by
  unfold ThreadAwareAccountLocks.tryLockAccounts
  apply (accountsSchedulableThreads_returns h hn writes reads).bind
  rintro result ⟨hsome, hnone⟩
  cases result with
  | none =>
    have hno := hnone rfl
    refine ⟨⟨fun t ht => absurd ht (hno t), fun ⟨t, ht⟩ => absurd ht (hno t), fun _ => rfl⟩,
      fun t ht => (nomatch ht), fun _ _ => rfl⟩
  | some threads =>
    obtain ⟨hmem, hne⟩ := hsome threads rfl
    have hboth : ∀ t, (threads &&& allowedThreads).contains t = true ↔
        Free n outstanding writes reads t ∧ allowedThreads.contains t = true := by
      intro t
      rw [contains_and, hmem t]
    have hsomeFree : ∃ t, Free n outstanding writes reads t := by
      obtain ⟨t, ht⟩ := isEmpty_eq_false_iff.mp hne
      exact ⟨t, (hmem t).mp ht⟩
    simp only
    by_cases hempty : (threads &&& allowedThreads).isEmpty = true
    · rw [if_pos hempty]
      have hno : ∀ t, Free n outstanding writes reads t → allowedThreads.contains t = false := by
        intro t ht
        rw [Bool.eq_false_iff]
        intro hallowed
        have hfalse := isEmpty_iff.mp hempty t
        rw [(hboth t).mpr ⟨ht, hallowed⟩] at hfalse
        cases hfalse
      refine ⟨⟨?_, fun _ _ => rfl, fun hall => absurd hsomeFree (by simpa using hall)⟩,
        fun t ht => (nomatch ht), fun _ _ => rfl⟩
      intro t ht hallowed
      rw [hno t ht] at hallowed
      cases hallowed
    · rw [if_neg hempty]
      obtain ⟨hfree, hallowed⟩ := (hboth _).mp (hselects _ (by simpa using hempty))
      apply (lockAccounts_returns h hfree (hbound _)).bind
      intro s' h'
      refine ⟨⟨fun _ _ _ => ⟨_, hboth, rfl⟩, ?_, ?_⟩, ?_, fun _ he => (nomatch he)⟩
      · intro _ hno
        rw [hno _ hfree] at hallowed
        cases hallowed
      · exact fun hno => absurd hfree (hno _)
      · rintro _ ⟨⟩
        exact ⟨hfree, hallowed, h'⟩

/-! ## Runs -/

/-- The states of the runs on `n` threads, with the locks that are outstanding.
    A lock is released with the accounts it acquired, in any order. -/
inductive Reachable (n : Nat) : ThreadAwareAccountLocks → List Lock → Prop where
  | new {s : ThreadAwareAccountLocks} (h : ThreadAwareAccountLocks.new n = .ok s) : Reachable n s []
  | lock {s s' : ThreadAwareAccountLocks} {outstanding : List Lock} {writes reads : List Pubkey}
      {allowedThreads : ThreadSet} {threadSelector : ThreadSet → ThreadId} {t : ThreadId}
      (h : Reachable n s outstanding) (hselects : Selects threadSelector)
      (hbound : ∀ t, Bounded (⟨writes, reads, t⟩ :: outstanding))
      (hlock : s.tryLockAccounts writes reads allowedThreads threadSelector = .ok (.ok t, s')) :
      Reachable n s' (⟨writes, reads, t⟩ :: outstanding)
  | fail {s s' : ThreadAwareAccountLocks} {outstanding : List Lock} {writes reads : List Pubkey}
      {allowedThreads : ThreadSet} {threadSelector : ThreadSet → ThreadId} {e : TryLockError}
      (h : Reachable n s outstanding) (hselects : Selects threadSelector)
      (hbound : ∀ t, Bounded (⟨writes, reads, t⟩ :: outstanding))
      (hfail : s.tryLockAccounts writes reads allowedThreads threadSelector =
        .ok (.error e, s')) : Reachable n s' outstanding
  | unlock {s s' : ThreadAwareAccountLocks} {outstanding rest : List Lock} {l : Lock}
      {writes reads : List Pubkey} (h : Reachable n s outstanding)
      (hout : outstanding.Perm (l :: rest)) (hwrites : l.writes.Perm writes)
      (hreads : l.reads.Perm reads)
      (hunlock : s.unlockAccounts writes reads l.threadId = .ok s') : Reachable n s' rest

theorem represents_new (h : ThreadAwareAccountLocks.new n = .ok s) : 0 < n ∧ Represents n s [] := by
  rw [ThreadAwareAccountLocks.new, guard_eq_ok_iff, guard_eq_ok_iff] at h
  obtain ⟨hpos, hmax, hs⟩ := h
  cases hs
  exact ⟨Nat.pos_of_ne_zero hpos, fun _ => describes_none, fun _ hl => absurd hl not_mem_nil,
    rfl, not_lt.mp hmax⟩

theorem bounded_of_perm (hperm : outstanding.Perm outstanding') (h : Bounded outstanding) :
    Bounded outstanding' := by
  intro k
  have hk := h k
  rwa [lockCount, (hperm.map _).sum_eq] at hk

/-- A lock on top of the outstanding ones, with its accounts in another order. -/
theorem Represents.top (h : Represents n s outstanding) {rest : List Lock}
    (hout : outstanding.Perm (l :: rest)) (hwrites : l.writes.Perm writes)
    (hreads : l.reads.Perm reads) : Represents n s (⟨writes, reads, l.threadId⟩ :: rest) :=
  (h.perm hout).congr hwrites hreads

theorem Bounded.top (h : Bounded outstanding) {rest : List Lock}
    (hout : outstanding.Perm (l :: rest)) (hwrites : l.writes.Perm writes)
    (hreads : l.reads.Perm reads) : Bounded (⟨writes, reads, l.threadId⟩ :: rest) :=
  (bounded_of_perm hout h).of_count_le (fun k => by
    rw [hwrites.count_eq k, hreads.count_eq k])

theorem Reachable.invariant (h : Reachable n s outstanding) :
    0 < n ∧ Represents n s outstanding ∧ Bounded outstanding := by
  induction h with
  | new h =>
    obtain ⟨hn, hrep⟩ := represents_new h
    exact ⟨hn, hrep, fun _ => Nat.two_pow_pos 32⟩
  | lock _ hselects hbound hlock ih =>
    obtain ⟨hn, hrep, -⟩ := ih
    have hresult := (tryLockAccounts_returns hrep hn hselects hbound).of_ok hlock
    exact ⟨hn, (hresult.2.1 _ rfl).2.2, hbound _⟩
  | fail _ hselects hbound hfail ih =>
    obtain ⟨hn, hrep, hb⟩ := ih
    have hsame := ((tryLockAccounts_returns hrep hn hselects hbound).of_ok hfail).2.2 _ rfl
    dsimp only at hsame
    rw [hsame]
    exact ⟨hn, hrep, hb⟩
  | unlock _ hout hwrites hreads hunlock ih =>
    obtain ⟨hn, hrep, hb⟩ := ih
    have hdone := unlockAccounts_returns (hrep.top hout hwrites hreads)
      (hb.top hout hwrites hreads)
    refine ⟨hn, hdone.of_ok hunlock, fun k => ?_⟩
    have hk := bounded_of_perm hout hb k
    rw [lockCount_cons] at hk
    omega

/-- `ThreadAwareAccountLocks` is a correct lock manager.  A written account is locked on one thread
    only; `try_lock_accounts` does not panic, succeeds when a free thread is allowed, offers exactly
    the free and allowed threads to the selector, reports conflicts exactly when no thread is free,
    and changes nothing when it fails; `unlock_accounts` of an outstanding lock does not panic; and
    when nothing is outstanding the map is empty. -/
theorem lock_manager_correct (h : Reachable n s outstanding) :
    (∀ l ∈ outstanding, ∀ account ∈ l.writes, ∀ l' ∈ outstanding,
      account ∈ l'.writes ∨ account ∈ l'.reads → l'.threadId = l.threadId) ∧
    (∀ (writes reads : List Pubkey) (allowedThreads : ThreadSet)
      (threadSelector : ThreadSet → ThreadId), Selects threadSelector →
      (∀ t, Bounded (⟨writes, reads, t⟩ :: outstanding)) →
      ∃ result, s.tryLockAccounts writes reads allowedThreads threadSelector = .ok result ∧
        Outcomes n outstanding writes reads allowedThreads threadSelector s result ∧
        ∀ e, result.1 = .error e → result.2 = s) ∧
    (∀ l rest, outstanding.Perm (l :: rest) → ∀ writes reads, l.writes.Perm writes →
      l.reads.Perm reads → ∃ s', s.unlockAccounts writes reads l.threadId = .ok s') ∧
    (outstanding = [] → s.locks.isEmpty = true) := by
  obtain ⟨hn, hrep, hb⟩ := h.invariant
  refine ⟨?_, ?_, ?_, ?_⟩
  · intro l hl account hmem l' hl' hmem'
    have hdescribes := hrep.describes account
    have hpos := countOn_pos_iff.mpr ⟨l, hl, rfl, hmem⟩
    rcases hmem' with hmem' | hmem'
    · -- two writers: the entry knows one write thread
      have hpos' := countOn_pos_iff.mpr ⟨l', hl', rfl, hmem'⟩
      cases hentry : (s.locks.get? account).bind AccountLocks.writeLocks with
      | none =>
        have := hdescribes.write_none hentry l.threadId
        omega
      | some writeLocks =>
        obtain ⟨hw, -⟩ := hdescribes.write_some writeLocks hentry
        have hon : OnlyOn writeLocks.threadId (countOn Lock.writes outstanding account) :=
          hw ▸ onlyOn_update _ _
        rw [eq_of_pos hon hpos, eq_of_pos hon hpos']
    · have hpos' := countOn_pos_iff.mpr ⟨l', hl', rfl, hmem'⟩
      exact hdescribes.mixed _ _ hpos hpos'
  · intro writes reads allowedThreads threadSelector hselects hbound
    obtain ⟨result, htry, houtcomes, -, hsame⟩ :=
      (tryLockAccounts_returns hrep hn hselects hbound).exists_ok
    exact ⟨result, htry, houtcomes, hsame⟩
  · intro l rest hout writes reads hwrites hreads
    obtain ⟨s', hunlock, -⟩ := (unlockAccounts_returns (hrep.top hout hwrites hreads)
      (hb.top hout hwrites hreads)).exists_ok
    exact ⟨s', hunlock⟩
  · intro hnone
    rw [BTreeMap.isEmpty, List.isEmpty_iff]
    apply List.eq_nil_iff_forall_not_mem.mpr
    rintro ⟨account, entry⟩ hmem
    have hget := BTreeMap.get?_eq_some_iff.mpr hmem
    have hdescribes := hrep.describes account
    rw [hget, hnone] at hdescribes
    rcases hdescribes.occupied entry rfl with hw | hr
    · obtain ⟨writeLocks, hw⟩ := Option.ne_none_iff_exists'.mp hw
      obtain ⟨hzero, hpos⟩ := hdescribes.write_some writeLocks hw
      have := congrFun hzero writeLocks.threadId
      rw [update_self] at this
      simp [countOn] at this
      omega
    · obtain ⟨readLocks, hr⟩ := Option.ne_none_iff_exists'.mp hr
      obtain ⟨-, ⟨t, ht⟩, -⟩ := hdescribes.read_some readLocks hr
      simp [countOn] at ht

/-- Taking the first thread of the set selects a member. -/
theorem selects_trailingZeros : Selects BitSet.trailingZeros := by
  intro threads hne
  have hmembers : BitSet.members threads ≠ [] := by
    obtain ⟨t, ht⟩ := isEmpty_eq_false_iff.mp hne
    rw [ThreadSet.contains, ← BitSet.mem_members] at ht
    exact ne_nil_of_mem ht
  obtain ⟨t, rest, hcons⟩ := exists_cons_of_ne_nil hmembers
  rw [ThreadSet.contains, ← BitSet.mem_members, BitSet.trailingZeros, hcons]
  exact mem_cons_self

/-- With few accounts in all, a lock more is within the bound on each. -/
theorem bounded_of_length (h : (outstanding.map (fun l => l.writes.length + l.reads.length)).sum +
      (writes.length + reads.length) < lockCountSize) (t : ThreadId) :
    Bounded (⟨writes, reads, t⟩ :: outstanding) := by
  have hle : ∀ account, lockCount outstanding account ≤
      (outstanding.map (fun l => l.writes.length + l.reads.length)).sum := fun account =>
    List.sum_le_sum (fun _ _ => Nat.add_le_add count_le_length count_le_length)
  intro account
  have hwrites : writes.count account ≤ writes.length := count_le_length
  have hreads : reads.count account ≤ reads.length := count_le_length
  have := hle account
  rw [lockCount_cons]
  dsimp only
  omega

/-- A call that allows one thread only locks on that thread, if it is free. -/
theorem Outcomes.locked_only {result : Except TryLockError ThreadId × ThreadAwareAccountLocks}
    (h : Outcomes n outstanding writes reads (.only t) BitSet.trailingZeros s result)
    (hfree : Free n outstanding writes reads t) (ht : t < maxThreads) : result.1 = .ok t := by
  have hmem : (ThreadSet.only t).contains t = true := (BitSet.contains_singleton t t).mpr ⟨ht, rfl⟩
  obtain ⟨threads, hthreads, hlocked⟩ := h.locked t hfree hmem
  have hne := isEmpty_eq_false_iff.mpr ⟨t, (hthreads t).mpr ⟨hfree, hmem⟩⟩
  have hselected := ((hthreads _).mp (selects_trailingZeros threads hne)).2
  rw [hlocked, ((BitSet.contains_singleton t _).mp hselected).2]

/-- Thread 1 writes the first account and thread 0 reads the second: the first cannot be locked on
    thread 0, both together on no thread, and the first can be unlocked. -/
theorem lock_manager_correct_two_threads :
    ∃ s, Reachable 2 s [⟨[], [Pubkey.ofNat 2], 0⟩, ⟨[Pubkey.ofNat 1], [], 1⟩] ∧
      s.tryLockAccounts [Pubkey.ofNat 1] [] (.only 0) BitSet.trailingZeros =
        .ok (.error .threadNotAllowed, s) ∧
      s.tryLockAccounts [Pubkey.ofNat 1, Pubkey.ofNat 2] [] (.any 2) BitSet.trailingZeros =
        .ok (.error .multipleConflicts, s) ∧
      ∃ s', s.unlockAccounts [Pubkey.ofNat 1] [] 1 = .ok s' := by
  have hne : Pubkey.ofNat 1 ≠ Pubkey.ofNat 2 := by decide
  have hnew : Reachable 2 ⟨2, .empty⟩ [] := .new rfl
  obtain ⟨⟨_, s₁⟩, hlock₁, houtcomes₁, -⟩ := (lock_manager_correct hnew).2.1 [Pubkey.ofNat 1] []
    (.only 1) BitSet.trailingZeros selects_trailingZeros (bounded_of_length (by decide))
  cases houtcomes₁.locked_only (by simp [Free]) (by decide)
  have hone := hnew.lock selects_trailingZeros (bounded_of_length (by decide)) hlock₁
  obtain ⟨⟨_, s₂⟩, hlock₂, houtcomes₂, -⟩ := (lock_manager_correct hone).2.1 [] [Pubkey.ofNat 2]
    (.only 0) BitSet.trailingZeros selects_trailingZeros (bounded_of_length (by decide))
  cases houtcomes₂.locked_only (by simp [Free, hne.symm]) (by decide)
  have htwo := hone.lock selects_trailingZeros (bounded_of_length (by decide)) hlock₂
  obtain ⟨-, htry, hunlock, -⟩ := lock_manager_correct htwo
  -- the first account is free on thread 1 only, the second on thread 0 only
  obtain ⟨result₃, hresult₃, houtcomes₃, -⟩ := htry [Pubkey.ofNat 1] [] (.only 0)
    BitSet.trailingZeros selects_trailingZeros (bounded_of_length (by decide))
  have hthird := houtcomes₃.threadNotAllowed ⟨1, by simp [Free, hne]⟩ (fun t hfree => by
    have ht : 1 = t := hfree.2.1 _ mem_cons_self ⟨[Pubkey.ofNat 1], [], 1⟩ (by simp) (by simp)
    subst ht
    decide)
  obtain ⟨result₄, hresult₄, houtcomes₄, -⟩ := htry [Pubkey.ofNat 1, Pubkey.ofNat 2] [] (.any 2)
    BitSet.trailingZeros selects_trailingZeros (bounded_of_length (by decide))
  have hfourth := houtcomes₄.multipleConflicts (fun t hfree => by
    have ht : 1 = t := hfree.2.1 _ mem_cons_self ⟨[Pubkey.ofNat 1], [], 1⟩ (by simp) (by simp)
    have ht' : 0 = t := hfree.2.1 (Pubkey.ofNat 2) (by simp) ⟨[], [Pubkey.ofNat 2], 0⟩ (by simp)
      (by simp)
    exact absurd (ht.trans ht'.symm) (by decide))
  exact ⟨s₂, htwo, hthird ▸ hresult₃, hfourth ▸ hresult₄,
    hunlock _ _ (Perm.swap _ _ _) _ _ (Perm.refl _) (Perm.refl _)⟩

end

end Agave.SchedulingUtils

