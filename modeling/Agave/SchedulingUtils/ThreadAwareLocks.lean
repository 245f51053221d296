/-
  Agave.SchedulingUtils.ThreadAwareLocks

  Account locks that remember the thread they are held for.

  An account may be locked again on the thread that holds it, so that work can be queued behind the
  work that runs.  An entry counts the write locks of the one thread that may hold them, and the
  read locks of every thread, with the set of reading threads beside the counts.

  `Describes` relates an entry to the numbers of write and read locks that every thread holds.  Each
  of the four operations on one account keeps it, and `schedulableThreads_returns` says which
  threads the entry leaves free.
-/

import Agave.Basic
import Agave.Lib.BitSet
import Agave.Lib.BTreeMap

namespace Agave.SchedulingUtils

open Agave.Lib Function

/-- `MAX_THREADS`. -/
def maxThreads : Nat := 64

abbrev ThreadId := Nat

/-- The number of values of `LockCount`, a `u32`. -/
def lockCountSize : Nat := 2 ^ 32

/-- `wrapping_add(1)`. -/
def wrappingSucc (count : Nat) : Nat := (count + 1) % lockCountSize

/-- `wrapping_sub(1)`. -/
def wrappingPred (count : Nat) : Nat := (count + lockCountSize - 1) % lockCountSize

abbrev ThreadSet := BitVec maxThreads

namespace ThreadSet

def none : ThreadSet := BitVec.ofNat maxThreads 0

def any (numThreads : Nat) : ThreadSet := BitSet.below maxThreads numThreads

def only (threadId : ThreadId) : ThreadSet := BitSet.singleton maxThreads threadId

variable (threads : ThreadSet) (threadId : ThreadId)

def onlyOneContained : Option ThreadId := BitSet.theOnly? threads

def isEmpty : Bool := threads == none

def contains : Bool := BitSet.contains threads threadId

def insert : ThreadSet := BitSet.insert threads threadId

def remove : ThreadSet := BitSet.remove threads threadId

end ThreadSet

structure AccountWriteLocks where
  threadId : ThreadId
  lockCount : Nat

/-- `AccountReadLocks`, with the array of counts as a function of the thread. -/
structure AccountReadLocks where
  threadSet : ThreadSet
  lockCounts : ThreadId → Nat

structure AccountLocks where
  writeLocks : Option AccountWriteLocks
  readLocks : Option AccountReadLocks

/-- `AccountLocks::default()`. -/
def AccountLocks.default : AccountLocks := ⟨.none, .none⟩

inductive TryLockError where
  | multipleConflicts
  | threadNotAllowed
deriving DecidableEq

/-- What stops the program. -/
inductive LockPanic where
  /-- "outstanding read lock must be on same thread". -/
  | readLockOnOtherThread
  /-- "outstanding write lock must be on same thread". -/
  | writeLockOnOtherThread
  /-- "write lock must exist for account". -/
  | noWriteLock
  /-- "read lock must exist for account". -/
  | noReadLock
  /-- The assertion of `schedulable_threads` about mixed locks. -/
  | mixedLocks
  /-- An entry without locks: `unreachable!()`. -/
  | emptyEntry
  /-- "thread_id must be < num_threads". -/
  | threadOutOfRange
deriving DecidableEq

/-! ## One account -/

/-- `schedulable_threads::<WRITE>` for the entry of an account. -/
def schedulableThreads (numThreads : Nat) (write : Bool) :
    Option AccountLocks → Except LockPanic ThreadSet
  | .none => .ok (.any numThreads)
  | .some ⟨.none, .some readLocks⟩ =>
    if write then
      .ok ((readLocks.threadSet.onlyOneContained.map ThreadSet.only).getD .none)
    else .ok (.any numThreads)
  | .some ⟨.some writeLocks, .none⟩ => .ok (.only writeLocks.threadId)
  | .some ⟨.some writeLocks, .some readLocks⟩ =>
    if readLocks.threadSet.onlyOneContained ≠ .some writeLocks.threadId then
      .error .mixedLocks
    else .ok readLocks.threadSet
  | .some ⟨.none, .none⟩ => .error .emptyEntry

/-- `write_lock_account`, on the entry. -/
def writeLockEntry (entry : AccountLocks) (threadId : ThreadId) :
    Except LockPanic AccountLocks :=
  if (entry.readLocks.map (fun readLocks =>
      decide (readLocks.threadSet.onlyOneContained ≠ .some threadId))).getD false then
    .error .readLockOnOtherThread
  else
    match entry.writeLocks with
    | .some writeLocks =>
      if writeLocks.threadId ≠ threadId then .error .writeLockOnOtherThread
      else .ok { entry with
        writeLocks := .some { writeLocks with lockCount := wrappingSucc writeLocks.lockCount } }
    | .none => .ok { entry with writeLocks := .some ⟨threadId, 1⟩ }

/-- `read_lock_account`, on the entry. -/
def readLockEntry (entry : AccountLocks) (threadId : ThreadId) : Except LockPanic AccountLocks :=
  if (entry.writeLocks.map (fun writeLocks =>
      decide (writeLocks.threadId ≠ threadId))).getD false then
    .error .writeLockOnOtherThread
  else
    match entry.readLocks with
    | .some readLocks =>
      .ok { entry with
        readLocks := .some
          { threadSet := readLocks.threadSet.insert threadId
            lockCounts := Function.update readLocks.lockCounts threadId
              (wrappingSucc (readLocks.lockCounts threadId)) } }
    | .none =>
      .ok { entry with
        readLocks := .some
          { threadSet := .only threadId
            lockCounts := Function.update (fun _ => 0) threadId 1 } }

/-- `write_unlock_account`, on the entry; no entry is left when no lock is. -/
def writeUnlockEntry (entry : Option AccountLocks) (threadId : ThreadId) :
    Except LockPanic (Option AccountLocks) :=
  match entry with
  | .none => .error .noWriteLock
  | .some ⟨.none, _⟩ => .error .noWriteLock
  | .some ⟨.some writeLocks, readLocks⟩ =>
    if writeLocks.threadId ≠ threadId then .error .writeLockOnOtherThread
    else if wrappingPred writeLocks.lockCount = 0 then
      if readLocks.isNone then .ok .none else .ok (.some ⟨.none, readLocks⟩)
    else .ok (.some ⟨.some { writeLocks with
      lockCount := wrappingPred writeLocks.lockCount }, readLocks⟩)

/-- `read_unlock_account`, on the entry; no entry is left when no lock is. -/
def readUnlockEntry (entry : Option AccountLocks) (threadId : ThreadId) :
    Except LockPanic (Option AccountLocks) :=
  match entry with
  | .none => .error .noReadLock
  | .some ⟨_, .none⟩ => .error .noReadLock
  | .some ⟨writeLocks, .some readLocks⟩ =>
    if ¬ readLocks.threadSet.contains threadId then .error .readLockOnOtherThread
    else
      let lockCounts := Function.update readLocks.lockCounts threadId
        (wrappingPred (readLocks.lockCounts threadId))
      if lockCounts threadId = 0 then
        let threadSet := readLocks.threadSet.remove threadId
        if threadSet.isEmpty then
          if writeLocks.isNone then .ok .none else .ok (.some ⟨writeLocks, .none⟩)
        else .ok (.some ⟨writeLocks, .some ⟨threadSet, lockCounts⟩⟩)
      else .ok (.some ⟨writeLocks, .some { readLocks with lockCounts }⟩)

/-! ## What an entry stands for -/

/-- The entry of an account on which thread `t` holds `writes t` write locks and
    `reads t` read locks. -/
structure Describes (entry : Option AccountLocks) (writes reads : ThreadId → Nat) : Prop where
  write_none : entry.bind AccountLocks.writeLocks = .none → ∀ t, writes t = 0
  write_some : ∀ writeLocks, entry.bind AccountLocks.writeLocks = .some writeLocks →
    writes = Function.update (fun _ => 0) writeLocks.threadId writeLocks.lockCount ∧
      0 < writeLocks.lockCount
  read_none : entry.bind AccountLocks.readLocks = .none → ∀ t, reads t = 0
  read_some : ∀ readLocks, entry.bind AccountLocks.readLocks = .some readLocks →
    readLocks.lockCounts = reads ∧ (∃ t, 0 < reads t) ∧
      ∀ t, readLocks.threadSet.contains t = true ↔ 0 < reads t
  occupied : ∀ e, entry = .some e → e.writeLocks ≠ .none ∨ e.readLocks ≠ .none
  /-- Whoever reads beside a writer is the writer. -/
  mixed : ∀ t t', 0 < writes t → 0 < reads t' → t' = t

/-- No thread other than `t` holds a lock that is counted. -/
def OnlyOn (t : ThreadId) (counts : ThreadId → Nat) : Prop := ∀ t', t' ≠ t → counts t' = 0

variable {entry : Option AccountLocks} {writes reads : ThreadId → Nat} {t : ThreadId}
  {numThreads : Nat}

theorem describes_none : Describes .none (fun _ => 0) (fun _ => 0) where
  write_none := fun _ _ => rfl
  write_some := fun _ h => nomatch h
  read_none := fun _ _ => rfl
  read_some := fun _ h => nomatch h
  occupied := fun _ h => nomatch h
  mixed := fun _ _ h => absurd h (lt_irrefl _)

variable {counts : ThreadId → Nat} {threads : ThreadSet} {t' : ThreadId} {count : Nat}

theorem eq_of_pos (hon : OnlyOn t counts) (h : 0 < counts t') : t' = t := by
  by_contra hne
  have := hon t' hne
  omega

/-- A thread that reads an account and is the only one to do so. -/
theorem onlyOneContained_eq_some_iff (h : Describes entry writes reads)
    {readLocks : AccountReadLocks} (hread : entry.bind AccountLocks.readLocks = .some readLocks) :
    readLocks.threadSet.onlyOneContained = .some t ↔ OnlyOn t reads := by
  obtain ⟨-, ⟨t₀, ht₀⟩, hset⟩ := h.read_some readLocks hread
  rw [ThreadSet.onlyOneContained, BitSet.theOnly?_eq_some_iff]
  constructor
  · intro honly t' hne
    by_contra hpos
    exact hne ((honly t').mp ((hset t').mpr (Nat.pos_of_ne_zero hpos)))
  · intro honly t'
    rw [← ThreadSet.contains, hset t']
    constructor
    · exact eq_of_pos honly
    · rintro rfl
      rwa [← eq_of_pos honly ht₀]

/-- A thread other than the one that holds all locks is not free, and that one is. -/
theorem onlyOn_iff_eq {t₀ : ThreadId} (h : OnlyOn t₀ counts) (hpos : 0 < counts t₀) :
    OnlyOn t counts ↔ t = t₀ := by
  constructor
  · intro ht
    exact (eq_of_pos ht hpos).symm
  · rintro rfl
    exact h

theorem onlyOn_update (t₀ : ThreadId) (count : Nat) : OnlyOn t₀ (update (fun _ => 0) t₀ count) :=
  fun _ hne => update_of_ne hne _ _

theorem OnlyOn.update_eq (h : OnlyOn t counts) (count : Nat) :
    update counts t count = update (fun _ => 0) t count := by
  funext t'
  by_cases hne : t' = t
  · rw [hne, update_self, update_self]
  · rw [update_of_ne hne, update_of_ne hne, h t' hne]

theorem onlyOn_zero (h : ∀ t, counts t = 0) (t : ThreadId) : OnlyOn t counts := fun t' _ => h t'

/-- The threads an account can be scheduled on: those that hold all the locks
    that are in the way. -/
theorem schedulableThreads_returns (h : Describes entry writes reads)
    (hwrites : ∀ t, 0 < writes t → t < numThreads) (hreads : ∀ t, 0 < reads t → t < numThreads)
    (hnum : numThreads ≤ maxThreads) (write : Bool) :
    Succeeds (fun threads => ∀ t, threads.contains t = true ↔
        t < numThreads ∧ OnlyOn t writes ∧ (write = true → OnlyOn t reads))
      (schedulableThreads numThreads write entry) := by
  have hany : ∀ t, (ThreadSet.any numThreads).contains t = true ↔ t < numThreads :=
    fun t => BitSet.contains_below hnum
  have honly : ∀ {t₀}, t₀ < numThreads → ∀ t, (ThreadSet.only t₀).contains t = true ↔ t = t₀ := by
    intro t₀ ht₀ t
    rw [ThreadSet.contains, ThreadSet.only, BitSet.contains_singleton]
    constructor
    · exact And.right
    · rintro rfl
      exact ⟨lt_of_lt_of_le ht₀ hnum, rfl⟩
  match entry with
  | .none =>
    intro t
    have hw := h.write_none rfl
    have hr := h.read_none rfl
    rw [hany t]
    exact ⟨fun ht => ⟨ht, onlyOn_zero hw t, fun _ => onlyOn_zero hr t⟩, And.left⟩
  | .some ⟨.none, .none⟩ =>
    exact absurd (h.occupied _ rfl) (by simp)
  | .some ⟨.none, .some readLocks⟩ =>
    have hw := h.write_none rfl
    obtain ⟨-, ⟨t₀, ht₀⟩, -⟩ := h.read_some readLocks rfl
    rw [schedulableThreads]
    cases write with
    | false =>
      intro t
      rw [hany t]
      exact ⟨fun ht => ⟨ht, onlyOn_zero hw t, fun hfalse => nomatch hfalse⟩, And.left⟩
    | true =>
      rw [if_pos rfl]
      intro t
      cases hone : readLocks.threadSet.onlyOneContained with
      | none =>
        have hno : ∀ t, ¬ OnlyOn t reads := by
          intro t ht
          rw [(onlyOneContained_eq_some_iff h rfl).mpr ht] at hone
          cases hone
        simp [ThreadSet.contains, ThreadSet.none, hno t]
      | some t₁ =>
        have ht₁ := (onlyOneContained_eq_some_iff h rfl).mp hone
        have heq := eq_of_pos ht₁ ht₀
        rw [← heq] at ht₁ ⊢
        rw [Option.map_some, Option.getD_some, honly (hreads t₀ ht₀) t, ← onlyOn_iff_eq ht₁ ht₀]
        refine ⟨fun ht => ⟨?_, onlyOn_zero hw t, fun _ => ht⟩, fun ht => ht.2.2 rfl⟩
        rw [(onlyOn_iff_eq ht₁ ht₀).mp ht]
        exact hreads t₀ ht₀
  | .some ⟨.some writeLocks, .none⟩ =>
    obtain ⟨hw, hpos⟩ := h.write_some writeLocks rfl
    have hr := h.read_none rfl
    have hwt : 0 < writes writeLocks.threadId := by rwa [hw, update_self]
    have hon : OnlyOn writeLocks.threadId writes := hw ▸ onlyOn_update _ _
    intro t
    rw [honly (hwrites _ hwt) t, ← onlyOn_iff_eq hon hwt]
    refine ⟨fun ht => ⟨?_, ht, fun _ => onlyOn_zero hr t⟩, fun ht => ht.2.1⟩
    rw [(onlyOn_iff_eq hon hwt).mp ht]
    exact hwrites _ hwt
  | .some ⟨.some writeLocks, .some readLocks⟩ =>
    obtain ⟨hw, hpos⟩ := h.write_some writeLocks rfl
    obtain ⟨-, ⟨t₀, ht₀⟩, hset⟩ := h.read_some readLocks rfl
    have hwt : 0 < writes writeLocks.threadId := by rwa [hw, update_self]
    have hon : OnlyOn writeLocks.threadId writes := hw ▸ onlyOn_update _ _
    have heq := h.mixed _ t₀ hwt ht₀
    have honr : OnlyOn writeLocks.threadId reads := by
      intro t' hne
      by_contra hpos'
      exact hne (h.mixed _ t' hwt (Nat.pos_of_ne_zero hpos'))
    have hone := (onlyOneContained_eq_some_iff h rfl).mpr honr
    rw [schedulableThreads, if_neg (not_not_intro hone)]
    intro t
    rw [hset t]
    constructor
    · intro ht
      rw [h.mixed _ t hwt ht]
      exact ⟨hwrites _ hwt, hon, fun _ => honr⟩
    · rintro ⟨-, ht, -⟩
      rw [(onlyOn_iff_eq hon hwt).mp ht, ← heq]
      exact ht₀

/-! ## Locking and unlocking one account -/

theorem wrappingSucc_of_lt (h : count + 1 < lockCountSize) :
    wrappingSucc count = count + 1 := Nat.mod_eq_of_lt h

theorem wrappingPred_of_lt (hpos : 0 < count) (h : count < lockCountSize) :
    wrappingPred count = count - 1 := by
  have hshift : count + lockCountSize - 1 = (count - 1) + lockCountSize := by omega
  rw [wrappingPred, hshift, Nat.add_mod_right]
  exact Nat.mod_eq_of_lt (by omega)

theorem writeLocks_getD (entry : Option AccountLocks) :
    (entry.getD .default).writeLocks = entry.bind AccountLocks.writeLocks := by
  cases entry <;> rfl

theorem readLocks_getD (entry : Option AccountLocks) :
    (entry.getD .default).readLocks = entry.bind AccountLocks.readLocks := by
  cases entry <;> rfl

/-- The thread of the write locks is the only one that can hold some. -/
theorem Describes.threadId_eq (h : Describes entry writes reads) (hon : OnlyOn t writes)
    {writeLocks : AccountWriteLocks}
    (hwrite : entry.bind AccountLocks.writeLocks = .some writeLocks) : writeLocks.threadId = t := by
  obtain ⟨hw, hpos⟩ := h.write_some writeLocks hwrite
  exact eq_of_pos hon (by rwa [hw, update_self])

theorem pos_of_update_of_onlyOn (hon : OnlyOn t counts) {n : Nat}
    (h : 0 < update counts t n t') : t' = t := by
  by_contra hne
  rw [update_of_ne hne, hon t' hne] at h
  omega

theorem isEmpty_iff : threads.isEmpty = true ↔ ∀ t, threads.contains t = false := by
  rw [ThreadSet.isEmpty, beq_iff_eq]
  exact BitSet.eq_zero_iff

theorem isEmpty_eq_false_iff :
    threads.isEmpty = false ↔ ∃ t, threads.contains t = true := by
  rw [Bool.eq_false_iff, ne_eq, isEmpty_iff, not_forall]
  simp only [Bool.not_eq_false]

section

variable (h : Describes entry writes reads)
include h

theorem Describes.setWriteLocks {w : AccountWriteLocks} (hw : OnlyOn w.threadId writes)
    (hpos : 0 < w.lockCount)
    (hmixed : ∀ t₁ t₂, 0 < update writes w.threadId w.lockCount t₁ → 0 < reads t₂ → t₂ = t₁) :
    Describes (.some ⟨.some w, entry.bind AccountLocks.readLocks⟩)
      (update writes w.threadId w.lockCount) reads where
  write_none := fun hnone => nomatch hnone
  write_some := by
    rintro _ ⟨⟩
    exact ⟨hw.update_eq _, hpos⟩
  read_none := h.read_none
  read_some := h.read_some
  occupied := by
    rintro _ ⟨⟩
    exact Or.inl (by simp)
  mixed := hmixed

theorem Describes.setReadLocks {r : AccountReadLocks} (hpos : ∃ t, 0 < r.lockCounts t)
    (hset : ∀ t, r.threadSet.contains t = true ↔ 0 < r.lockCounts t)
    (hmixed : ∀ t₁ t₂, 0 < writes t₁ → 0 < r.lockCounts t₂ → t₂ = t₁) :
    Describes (.some ⟨entry.bind AccountLocks.writeLocks, .some r⟩) writes r.lockCounts where
  write_none := h.write_none
  write_some := h.write_some
  read_none := fun hnone => nomatch hnone
  read_some := by
    rintro _ ⟨⟩
    exact ⟨rfl, hpos, hset⟩
  occupied := by
    rintro _ ⟨⟩
    exact Or.inr (by simp)
  mixed := hmixed

theorem writeLockEntry_returns (hw : OnlyOn t writes)
    (hr : OnlyOn t reads) (hbound : writes t + 1 < lockCountSize) :
    Succeeds (fun e => Describes (.some e) (update writes t (writes t + 1)) reads)
      (writeLockEntry (entry.getD .default) t) := by
  have hguard : ¬ ((entry.bind AccountLocks.readLocks).map (fun readLocks =>
      decide (readLocks.threadSet.onlyOneContained ≠ .some t))).getD false = true := by
    cases hread : entry.bind AccountLocks.readLocks with
    | none => simp
    | some readLocks => simp [(onlyOneContained_eq_some_iff h hread).mpr hr]
  have hmixed : ∀ t₁ t₂, 0 < update writes t (writes t + 1) t₁ → 0 < reads t₂ →
      t₂ = t₁ := by
    intro t₁ t₂ h₁ h₂
    rw [pos_of_update_of_onlyOn hw h₁, eq_of_pos hr h₂]
  rw [writeLockEntry, readLocks_getD, writeLocks_getD, if_neg hguard]
  cases hwrite : entry.bind AccountLocks.writeLocks with
  | none =>
    rw [h.write_none hwrite t] at hmixed ⊢
    exact h.setWriteLocks (w := ⟨t, 1⟩) hw Nat.one_pos hmixed
  | some writeLocks =>
    obtain ⟨hcount, hpos⟩ := h.write_some writeLocks hwrite
    have hthread := h.threadId_eq hw hwrite
    have hlock : writeLocks.lockCount = writes t := by
      rw [hcount, hthread, update_self]
    simp only [hthread, ne_eq, not_true_eq_false, if_false, hlock, wrappingSucc_of_lt hbound]
    exact h.setWriteLocks (w := ⟨t, writes t + 1⟩) hw (Nat.succ_pos _) hmixed

theorem readLockEntry_returns (hw : OnlyOn t writes)
    (ht : t < maxThreads) (hbound : reads t + 1 < lockCountSize) :
    Succeeds (fun e => Describes (.some e) writes (update reads t (reads t + 1)))
      (readLockEntry (entry.getD .default) t) := by
  have hguard : ¬ ((entry.bind AccountLocks.writeLocks).map (fun writeLocks =>
      decide (writeLocks.threadId ≠ t))).getD false = true := by
    cases hwrite : entry.bind AccountLocks.writeLocks with
    | none => simp
    | some writeLocks => simp [h.threadId_eq hw hwrite]
  have hmixed : ∀ t₁ t₂, 0 < writes t₁ → 0 < update reads t (reads t + 1) t₂ →
      t₂ = t₁ := by
    intro t₁ t₂ h₁ h₂
    have ht₁ := eq_of_pos hw h₁
    by_cases hne : t₂ = t
    · rw [hne, ht₁]
    · rw [update_of_ne hne] at h₂
      exact h.mixed t₁ t₂ h₁ h₂
  rw [readLockEntry, readLocks_getD, writeLocks_getD, if_neg hguard]
  cases hread : entry.bind AccountLocks.readLocks with
  | none =>
    have hcounts := (onlyOn_zero (h.read_none hread) t).update_eq (reads t + 1)
    rw [hcounts, h.read_none hread t] at hmixed ⊢
    refine h.setReadLocks (r := ⟨.only t, update (fun _ => 0) t 1⟩)
      ⟨t, by simp only [update_self]; omega⟩ (fun t' => ?_) hmixed
    rw [ThreadSet.contains, ThreadSet.only, BitSet.contains_singleton]
    by_cases hne : t' = t
    · simp [hne, ht]
    · simp [hne]
  | some readLocks =>
    obtain ⟨hcounts, -, hset⟩ := h.read_some readLocks hread
    simp only [hcounts, wrappingSucc_of_lt hbound]
    refine h.setReadLocks (r := ⟨_, update reads t (reads t + 1)⟩)
      ⟨t, by simp only [update_self]; omega⟩ (fun t' => ?_) hmixed
    rw [ThreadSet.contains, ThreadSet.insert, BitSet.contains_insert ht, ← ThreadSet.contains, hset]
    by_cases hne : t' = t
    · simp [hne]
    · simp [hne]

theorem writeUnlockEntry_returns (hpos : 0 < writes t) (hbound : writes t < lockCountSize) :
    Succeeds (fun e => Describes e (update writes t (writes t - 1)) reads)
      (writeUnlockEntry entry t) := by
  have hmixed : ∀ t₁ t₂, 0 < update writes t (writes t - 1) t₁ → 0 < reads t₂ →
      t₂ = t₁ := by
    intro t₁ t₂ h₁ h₂
    apply h.mixed t₁ t₂ _ h₂
    by_cases hne : t₁ = t
    · rw [hne]
      exact hpos
    · rwa [update_of_ne hne] at h₁
  match entry with
  | .none => exact absurd (h.write_none rfl t) (by omega)
  | .some ⟨.none, _⟩ => exact absurd (h.write_none rfl t) (by omega)
  | .some ⟨.some writeLocks, readLocks⟩ =>
    obtain ⟨hcount, hcpos⟩ := h.write_some writeLocks rfl
    have hthread : t = writeLocks.threadId := eq_of_pos (hcount ▸ onlyOn_update _ _) hpos
    have hw : OnlyOn t writes := hcount ▸ hthread ▸ onlyOn_update _ _
    have hlock : writeLocks.lockCount = writes t := by
      rw [hcount, hthread, update_self]
    simp only [writeUnlockEntry, ← hthread, ne_eq, not_true_eq_false, if_false]
    rw [hlock, wrappingPred_of_lt hpos hbound]
    by_cases hlast : writes t - 1 = 0
    · rw [if_pos hlast]
      have hzero : ∀ t', update writes t (writes t - 1) t' = 0 := by
        intro t'
        rw [hw.update_eq, hlast, update_apply, ite_self]
      cases readLocks with
      | none =>
        refine ⟨fun _ => hzero, fun _ hsome => (nomatch hsome), fun _ => h.read_none rfl,
          fun _ hsome => (nomatch hsome), fun _ hsome => (nomatch hsome), hmixed⟩
      | some readLocks =>
        refine ⟨fun _ => hzero, fun _ hsome => (nomatch hsome), fun hnone => (nomatch hnone),
          fun r hr => h.read_some r hr, ?_, hmixed⟩
        rintro _ ⟨⟩
        exact Or.inr (by simp)
    · rw [if_neg hlast]
      exact h.setWriteLocks (w := ⟨t, writes t - 1⟩) hw (Nat.pos_of_ne_zero hlast) hmixed

theorem readUnlockEntry_returns (hpos : 0 < reads t) (hbound : reads t < lockCountSize) :
    Succeeds (fun e => Describes e writes (update reads t (reads t - 1)))
      (readUnlockEntry entry t) := by
  have hmixed : ∀ t₁ t₂, 0 < writes t₁ → 0 < update reads t (reads t - 1) t₂ →
      t₂ = t₁ := by
    intro t₁ t₂ h₁ h₂
    apply h.mixed t₁ t₂ h₁
    by_cases hne : t₂ = t
    · rw [hne]
      exact hpos
    · rwa [update_of_ne hne] at h₂
  match entry with
  | .none => exact absurd (h.read_none rfl t) (by omega)
  | .some ⟨_, .none⟩ => exact absurd (h.read_none rfl t) (by omega)
  | .some ⟨writeLocks, .some readLocks⟩ =>
    obtain ⟨hcounts, -, hset⟩ := h.read_some readLocks rfl
    simp only [readUnlockEntry, (hset t).mpr hpos, not_true_eq_false, if_false, hcounts,
      update_self]
    rw [wrappingPred_of_lt hpos hbound]
    have hremaining : ∀ t', 0 < update reads t (reads t - 1) t' ↔
        if t' = t then 0 < reads t - 1 else 0 < reads t' := by
      intro t'
      by_cases hne : t' = t
      · rw [hne, update_self, if_pos rfl]
      · rw [update_of_ne hne, if_neg hne]
    by_cases hlast : reads t - 1 = 0
    · rw [if_pos hlast]
      have hset' : ∀ t', (readLocks.threadSet.remove t).contains t' = true ↔
          0 < update reads t (reads t - 1) t' := by
        intro t'
        rw [hremaining t', ThreadSet.contains, ThreadSet.remove, BitSet.contains_remove,
          ← ThreadSet.contains, hset t']
        by_cases hne : t' = t
        · simp [hne, hlast]
        · simp [hne]
      by_cases hempty : (readLocks.threadSet.remove t).isEmpty = true
      · rw [if_pos hempty]
        have hzero : ∀ t', update reads t (reads t - 1) t' = 0 := by
          intro t'
          by_contra hne
          have hcontains := (hset' t').mpr (Nat.pos_of_ne_zero hne)
          rw [isEmpty_iff.mp hempty t'] at hcontains
          cases hcontains
        cases writeLocks with
        | none =>
          exact ⟨fun _ => h.write_none rfl, fun _ hsome => (nomatch hsome), fun _ => hzero,
            fun _ hsome => (nomatch hsome), fun _ hsome => (nomatch hsome), hmixed⟩
        | some writeLocks =>
          refine ⟨fun hnone => (nomatch hnone), fun w hw => h.write_some w hw, fun _ => hzero,
            fun _ hsome => (nomatch hsome), ?_, hmixed⟩
          rintro _ ⟨⟩
          exact Or.inl (by simp)
      · rw [if_neg hempty]
        obtain ⟨t', ht'⟩ := isEmpty_eq_false_iff.mp (Bool.eq_false_iff.mpr hempty)
        exact h.setReadLocks (r := ⟨_, _⟩) ⟨t', (hset' t').mp ht'⟩ hset' hmixed
    · rw [if_neg hlast]
      refine h.setReadLocks (r := ⟨_, _⟩) ⟨t, ?_⟩ (fun t' => ?_) hmixed
      · simp only [update_self]
        omega
      · rw [hremaining t', hset t']
        by_cases hne : t' = t
        · rw [if_pos hne, hne]
          omega
        · rw [if_neg hne]

end

end Agave.SchedulingUtils

