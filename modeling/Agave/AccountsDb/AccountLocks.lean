/-
  Agave.AccountsDb.AccountLocks

  The account locks of the accounts database.

  A transaction of a batch is locked when none of its accounts conflicts with a lock that was held
  before the batch; the transactions of one batch are not checked against each other.  The locks
  themselves are two maps that count, per account, how many transactions hold it for reading and for
  writing.

  `Represents` ties the two maps to the transactions that are outstanding. Locking and unlocking
  keep it (`lockAccounts_represents`, `unlockAccounts_returns`), and with it a run keeps batches
  apart: `System.Invariant` is preserved by every step.
-/

import Agave.Basic
import Agave.Lib.Counter

namespace Agave.AccountsDb

open Agave.Lib List

/-! ## The locks -/

/-- The errors of `TransactionError` that locking knows, and those a transaction
    may have before it is locked. -/
inductive TransactionError where
  | accountInUse
  | tooManyAccountLocks
  | accountLoadedTwice
  | other (code : Nat)
deriving DecidableEq

/-- An account of a transaction, and whether it is writable. -/
abbrev LockKey := Pubkey × Bool

/-- The number of values of a lock counter, a `u64`. -/
def lockCountSize : Nat := 2 ^ 64

structure AccountLocks where
  writeLocks : BTreeMap Pubkey Nat
  readonlyLocks : BTreeMap Pubkey Nat

namespace AccountLocks

/-- `AccountLocks::default()`. -/
def empty : AccountLocks := ⟨.empty, .empty⟩

variable (locks : AccountLocks) (key : Pubkey)

def isLockedReadonly : Bool :=
  ((locks.readonlyLocks.get? key).map (fun count => decide (0 < count))).getD false

def isLockedWrite : Bool :=
  ((locks.writeLocks.get? key).map (fun count => decide (0 < count))).getD false

def canReadLock : Bool := !locks.isLockedWrite key

def canWriteLock : Bool :=
  !locks.isLockedReadonly key && !locks.isLockedWrite key

def lockReadonly : AccountLocks :=
  { locks with readonlyLocks := Counter.increment lockCountSize locks.readonlyLocks key }

def lockWrite : AccountLocks :=
  { locks with writeLocks := Counter.increment lockCountSize locks.writeLocks key }

def unlockReadonly : Except CounterPanic AccountLocks := do
  let readonlyLocks ← Counter.decrement locks.readonlyLocks key
  return { locks with readonlyLocks }

def unlockWrite : Except CounterPanic AccountLocks := do
  let writeLocks ← Counter.decrement locks.writeLocks key
  return { locks with writeLocks }

def canLockAccounts (locks : AccountLocks) : List LockKey → Except TransactionError Unit
  | [] => .ok ()
  | (key, writable) :: keys =>
    if writable then
      if !locks.canWriteLock key then .error .accountInUse else canLockAccounts locks keys
    else if !locks.canReadLock key then .error .accountInUse
    else canLockAccounts locks keys

/-- One iteration of `lock_accounts`. -/
def lockKey (key : LockKey) : AccountLocks :=
  if key.2 then locks.lockWrite key.1 else locks.lockReadonly key.1

def lockAccounts (keys : List LockKey) : AccountLocks :=
  keys.foldl lockKey locks

/-- One iteration of `unlock_accounts`. -/
def unlockKey (key : LockKey) : Except CounterPanic AccountLocks :=
  if key.2 then locks.unlockWrite key.1 else locks.unlockReadonly key.1

def unlockAccounts (keys : List LockKey) : Except CounterPanic AccountLocks :=
  keys.foldlM unlockKey locks

/-- The first pass over a batch: what is in use is replaced by an error. -/
def checkKeys (validatedKeys : Except TransactionError (List LockKey)) : Except TransactionError
    (List LockKey) :=
  match validatedKeys with
  | .error e => .error e
  | .ok keys =>
    match locks.canLockAccounts keys with
    | .error e => .error e
    | .ok () => .ok keys

/-- The second pass over a batch: what is left is locked. -/
def lockAll : AccountLocks → List (Except TransactionError (List LockKey)) →
    List (Except TransactionError Unit) × AccountLocks
  | locks, [] => ([], locks)
  | locks, .error e :: rest =>
    let locked := lockAll locks rest
    (.error e :: locked.1, locked.2)
  | locks, .ok keys :: rest =>
    let locked := lockAll (locks.lockAccounts keys) rest
    (.ok () :: locked.1, locked.2)

def tryLockTransactionBatch (validatedBatchKeys : List (Except TransactionError (List LockKey))) :
    List (Except TransactionError Unit) × AccountLocks :=
  lockAll locks (validatedBatchKeys.map locks.checkKeys)

end AccountLocks

/-! ## Validation -/

/-- The keys from the second occurrence of a key on, seen with a set. -/
def anyRepeated : List Pubkey → List Pubkey → Bool
  | _, [] => false
  | seen, key :: keys => if key ∈ seen then true else anyRepeated (key :: seen) keys

/-- The nested loops over the keys. -/
def anyPairEqual : List Pubkey → Bool
  | [] => false
  | key :: keys => keys.any (fun other => key = other) || anyPairEqual keys

/-- `has_duplicates`, with a set from 32 keys on. -/
def hasDuplicates (accountKeys : List Pubkey) : Bool :=
  if 32 ≤ accountKeys.length then anyRepeated [] accountKeys else anyPairEqual accountKeys

def validateAccountLocks (accountKeys : List Pubkey) (txAccountLockLimit : Nat) :
    Except TransactionError Unit :=
  if txAccountLockLimit < accountKeys.length then .error .tooManyAccountLocks
  else if hasDuplicates accountKeys then .error .accountLoadedTwice
  else .ok ()

theorem anyRepeated_eq_false_iff (seen keys : List Pubkey) :
    anyRepeated seen keys = false ↔ keys.Nodup ∧ ∀ key ∈ keys, key ∉ seen := by
  induction keys generalizing seen with
  | nil => simp [anyRepeated]
  | cons key keys ih =>
    rw [anyRepeated]
    by_cases hkey : key ∈ seen
    · simp [hkey]
    · rw [if_neg hkey, ih, nodup_cons, forall_mem_cons]
      constructor
      · rintro ⟨hnodup, hseen⟩
        refine ⟨⟨fun hmem => hseen key hmem mem_cons_self, hnodup⟩, hkey, ?_⟩
        exact fun k hk hmem => hseen k hk (mem_cons_of_mem _ hmem)
      · rintro ⟨⟨hnew, hnodup⟩, -, hseen⟩
        refine ⟨hnodup, fun k hk hmem => ?_⟩
        rcases mem_cons.mp hmem with rfl | hmem
        · exact hnew hk
        · exact hseen k hk hmem

theorem anyPairEqual_eq_false_iff (keys : List Pubkey) :
    anyPairEqual keys = false ↔ keys.Nodup := by
  induction keys with
  | nil => simp [anyPairEqual]
  | cons key keys ih =>
    rw [anyPairEqual, Bool.or_eq_false_iff, ih, nodup_cons]
    apply and_congr_left
    intro _
    simp only [any_eq_false, decide_eq_true_eq]
    exact ⟨fun h hmem => h key hmem rfl, fun h other hother heq => h (heq ▸ hother)⟩

/-- Both ways to look for duplicates find the same. -/
theorem hasDuplicates_eq_false_iff (keys : List Pubkey) :
    hasDuplicates keys = false ↔ keys.Nodup := by
  unfold hasDuplicates
  split
  · rw [anyRepeated_eq_false_iff]
    simp
  · exact anyPairEqual_eq_false_iff keys

/-- A transaction is valid if its keys are within the limit and distinct, with both ways to look
    for duplicates. -/
theorem validateAccountLocks_eq_ok_iff (keys : List Pubkey) (limit : Nat) :
    validateAccountLocks keys limit = .ok () ↔ keys.length ≤ limit ∧ keys.Nodup := by
  rw [validateAccountLocks, guard_eq_ok_iff, guard_eq_ok_iff, not_lt, Bool.not_eq_true,
    hasDuplicates_eq_false_iff, and_iff_left rfl]

/-! ## The maps count the holders -/

/-- How many transactions hold the account in the given mode. -/
def holders (held : List (List LockKey)) (writable : Bool) (key : Pubkey) : Nat :=
  held.countP (fun keys => decide ((key, writable) ∈ keys))

/-- The maps count the holders of every account. -/
structure Represents (locks : AccountLocks) (held : List (List LockKey)) : Prop where
  write : Counter.Counts locks.writeLocks (holders held true)
  readonly : Counter.Counts locks.readonlyLocks (holders held false)

variable {key : LockKey} {keys' : List LockKey} {granted : List (List LockKey)}

section

variable {locks : AccountLocks} {held held' : List (List LockKey)} {keys : List LockKey}

theorem represents_empty : Represents .empty [] :=
  ⟨Counter.counts_empty, Counter.counts_empty⟩

theorem holders_cons (keys : List LockKey) (held : List (List LockKey)) (writable : Bool)
    (key : Pubkey) :
    holders (keys :: held) writable key =
      holders held writable key + if (key, writable) ∈ keys then 1 else 0 := by
  rw [holders, holders, countP_cons]
  simp

theorem holders_eq_zero_iff {writable : Bool} {key : Pubkey} :
    holders held writable key = 0 ↔ ∀ keys ∈ held, (key, writable) ∉ keys := by
  rw [holders, countP_eq_zero]
  simp

theorem holders_le_length (held : List (List LockKey)) (writable : Bool) (key : Pubkey) :
    holders held writable key ≤ held.length :=
  countP_le_length

/-- Only the numbers of holders matter. -/
theorem Represents.of_holders (h : Represents locks held)
    (hholders : ∀ writable key, holders held writable key = holders held' writable key) :
    Represents locks held' :=
  ⟨h.write.congr (hholders true), h.readonly.congr (hholders false)⟩

theorem Represents.perm (h : Represents locks held) (hperm : held.Perm held') :
    Represents locks held' :=
  h.of_holders (fun _ _ => hperm.countP_eq _)

theorem holders_cons_cons (hnew : key ∉ keys) (writable : Bool) (k : Pubkey) :
    holders ((key :: keys) :: held) writable k =
      holders (keys :: held) writable k +
        if writable = key.2 ∧ k = key.1 then 1 else 0 := by
  rw [holders_cons, holders_cons, Nat.add_assoc]
  congr 1
  obtain ⟨key, w⟩ := key
  by_cases hsame : writable = w ∧ k = key
  · obtain ⟨rfl, rfl⟩ := hsame
    simp [hnew]
  · have hne : ¬ (k = key ∧ writable = w) := fun h => hsame ⟨h.2, h.1⟩
    simp [hsame, hne]

theorem lockKey_represents (hnew : key ∉ keys) (hbound : held.length + 1 < lockCountSize)
    (h : Represents locks (keys :: held)) :
    Represents (locks.lockKey key) ((key :: keys) :: held) := by
  obtain ⟨k, w⟩ := key
  have hcount : holders (keys :: held) w k + 1 < lockCountSize := by
    have hle := holders_le_length held w k
    rw [holders_cons, if_neg hnew]
    omega
  cases w with
  | true =>
    refine ⟨(h.write.increment hcount).congr ?_, h.readonly.congr ?_⟩
    · intro k'
      simp [holders_cons_cons hnew]
    · intro k'
      simp [holders_cons_cons hnew]
  | false =>
    refine ⟨h.write.congr ?_, (h.readonly.increment hcount).congr ?_⟩
    · intro k'
      simp [holders_cons_cons hnew]
    · intro k'
      simp [holders_cons_cons hnew]

theorem unlockKey_returns (hnew : key ∉ keys) (h : Represents locks ((key :: keys) :: held)) :
    Succeeds (fun locks' => Represents locks' (keys :: held)) (locks.unlockKey key) := by
  obtain ⟨k, w⟩ := key
  cases w with
  | true =>
    apply (h.write.decrement (g := holders (keys :: held) true) ?_).bind
    · intro writeLocks hwrite
      refine ⟨hwrite, h.readonly.congr ?_⟩
      intro k'
      simp [holders_cons_cons hnew]
    · intro k'
      simp [holders_cons_cons hnew]
  | false =>
    apply (h.readonly.decrement (g := holders (keys :: held) false) ?_).bind
    · intro readonlyLocks hreadonly
      refine ⟨h.write.congr ?_, hreadonly⟩
      intro k'
      simp [holders_cons_cons hnew]
    · intro k'
      simp [holders_cons_cons hnew]

theorem Represents.congr (h : Represents locks (keys :: held))
    (hkeys : ∀ key, key ∈ keys ↔ key ∈ keys') : Represents locks (keys' :: held) := by
  apply h.of_holders
  intro writable key
  simp only [holders_cons, hkeys]

theorem represents_nil_cons : Represents locks ([] :: held) ↔ Represents locks held := by
  have hholders : ∀ writable key,
      holders ([] :: held) writable key = holders held writable key := by
    intro writable key
    rw [holders_cons, if_neg not_mem_nil, Nat.add_zero]
  constructor
  · exact fun h => h.of_holders hholders
  · exact fun h => h.of_holders (fun writable key => (hholders writable key).symm)

theorem foldl_lockKey_represents {done : List LockKey} (hnodup : (keys ++ done).Nodup)
    (hbound : held.length + 1 < lockCountSize) (h : Represents locks (done :: held)) :
    Represents (keys.foldl AccountLocks.lockKey locks) ((keys ++ done) :: held) := by
  induction keys generalizing locks done with
  | nil => exact h
  | cons key keys ih =>
    rw [cons_append, nodup_cons] at hnodup
    have hkey : key ∉ done := fun hmem => hnodup.1 (mem_append_right _ hmem)
    have hrest : (keys ++ key :: done).Nodup :=
      nodup_middle.mpr (nodup_cons.mpr hnodup)
    apply (ih hrest (lockKey_represents hkey hbound h)).congr
    intro k
    simp only [mem_append, mem_cons]
    tauto

theorem lockAccounts_represents (hnodup : keys.Nodup) (hbound : held.length + 1 < lockCountSize)
    (h : Represents locks held) :
    Represents (locks.lockAccounts keys) (keys :: held) := by
  have hkeys : (keys ++ []).Nodup := by simpa
  have hlocked := foldl_lockKey_represents hkeys hbound (represents_nil_cons.mpr h)
  rwa [append_nil] at hlocked

/-- `unlock_accounts` of a holder does not panic, and takes it off the holders. -/
theorem unlockAccounts_returns (hnodup : keys.Nodup) (h : Represents locks (keys :: held)) :
    Succeeds (fun locks' => Represents locks' held) (locks.unlockAccounts keys) := by
  unfold AccountLocks.unlockAccounts
  induction keys generalizing locks with
  | nil => exact represents_nil_cons.mp h
  | cons key keys ih =>
    rw [nodup_cons] at hnodup
    rw [foldlM_cons]
    apply (unlockKey_returns hnodup.1 h).bind
    intro locks' h'
    exact ih hnodup.2 h'

/-! ## A batch -/

/-- The transactions of a batch that were locked, by the results returned. -/
def lockedOf (batch : List (Except TransactionError (List LockKey)))
    (results : List (Except TransactionError Unit)) : List (List LockKey) :=
  (batch.zip results).filterMap (fun transaction =>
    match transaction with
    | (.ok keys, .ok ()) => some keys
    | _ => none)

variable {batch : List (Except TransactionError (List LockKey))}

section

variable (locks : AccountLocks) (batch : List (Except TransactionError (List LockKey)))

theorem lockAll_fst :
    (locks.lockAll batch).1 = batch.map (fun keys => keys.map (fun _ => ())) := by
  induction batch generalizing locks with
  | nil => rfl
  | cons keys batch ih =>
    cases keys with
    | error e =>
      rw [AccountLocks.lockAll, map_cons, ih]
      rfl
    | ok keys =>
      rw [AccountLocks.lockAll, map_cons, ih]
      rfl

/-- What passes the first pass is what is reported as locked. -/
theorem lockedOf_eq :
    lockedOf batch (locks.tryLockTransactionBatch batch).1 =
      (batch.map locks.checkKeys).filterMap Except.toOption := by
  rw [AccountLocks.tryLockTransactionBatch, lockAll_fst]
  unfold lockedOf
  induction batch with
  | nil => rfl
  | cons keys batch ih =>
    simp only [map_cons, zip_cons_cons, filterMap_cons, ih]
    cases keys with
    | error e => rfl
    | ok keys =>
      simp only [AccountLocks.checkKeys]
      cases locks.canLockAccounts keys <;> rfl

/-- The second pass locks what is left, one after the other. -/
theorem lockAll_snd :
    (locks.lockAll batch).2 =
      (batch.filterMap Except.toOption).foldl AccountLocks.lockAccounts locks := by
  induction batch generalizing locks with
  | nil => rfl
  | cons keys batch ih =>
    cases keys with
    | error e =>
      rw [AccountLocks.lockAll, ih]
      rfl
    | ok keys =>
      rw [AccountLocks.lockAll, ih]
      rfl

theorem tryLockTransactionBatch_snd :
    (locks.tryLockTransactionBatch batch).2 =
      (lockedOf batch (locks.tryLockTransactionBatch batch).1).foldl
        AccountLocks.lockAccounts locks := by
  rw [lockedOf_eq, AccountLocks.tryLockTransactionBatch, lockAll_snd]

end

theorem foldl_lockAccounts_represents (hnodup : ∀ keys ∈ granted, keys.Nodup)
    (hbound : granted.length + held.length < lockCountSize) (h : Represents locks held) :
    Represents (granted.foldl AccountLocks.lockAccounts locks) (granted ++ held) := by
  induction granted generalizing locks held with
  | nil => exact h
  | cons keys granted ih =>
    rw [length_cons] at hbound
    have hlocked := lockAccounts_represents (hnodup keys mem_cons_self) (by omega) h
    have hrest := ih (fun k hk => hnodup k (mem_cons_of_mem _ hk))
      (by rw [length_cons]; omega) hlocked
    exact hrest.perm perm_middle

theorem canLockAccounts_eq_ok_iff :
    locks.canLockAccounts keys = .ok () ↔
      ∀ key ∈ keys, locks.isLockedWrite key.1 = false ∧
        (key.2 = true → locks.isLockedReadonly key.1 = false) := by
  induction keys with
  | nil => simp [AccountLocks.canLockAccounts]
  | cons key keys ih =>
    obtain ⟨k, w⟩ := key
    rw [AccountLocks.canLockAccounts, forall_mem_cons, ← ih]
    cases w with
    | true =>
      simp only [if_true, guard_eq_ok_iff]
      simp [AccountLocks.canWriteLock, and_comm]
    | false =>
      simp only [Bool.false_eq_true, if_false, guard_eq_ok_iff]
      simp [AccountLocks.canReadLock]

/-- A transaction that can be locked does not conflict with a holder. -/
theorem not_mem_of_canLockAccounts (h : Represents locks held)
    (hcan : locks.canLockAccounts keys = .ok ()) {other : List LockKey} (hother : other ∈ held)
    {key : Pubkey} {w w' : Bool} (hkey : (key, w) ∈ keys) (hconflict : w = true ∨ w' = true) :
    (key, w') ∉ other := by
  obtain ⟨hwrite, hreadonly⟩ := canLockAccounts_eq_ok_iff.mp hcan (key, w) hkey
  have hnoWriter : holders held true key = 0 := h.write.any_eq_false_iff.mp hwrite
  cases w' with
  | true => exact holders_eq_zero_iff.mp hnoWriter other hother
  | false =>
    have hw : w = true := by simpa using hconflict
    have hnoReader : holders held false key = 0 := h.readonly.any_eq_false_iff.mp (hreadonly hw)
    exact holders_eq_zero_iff.mp hnoReader other hother

/-- What the first pass lets through was in the batch, and can be locked. -/
theorem mem_checked_iff :
    keys ∈ (batch.map locks.checkKeys).filterMap Except.toOption ↔
      .ok keys ∈ batch ∧ locks.canLockAccounts keys = .ok () := by
  simp only [mem_filterMap, mem_map]
  constructor
  · rintro ⟨_, ⟨validated, hmem, rfl⟩, hkeys⟩
    cases validated with
    | error e => cases hkeys
    | ok keys' =>
      rw [AccountLocks.checkKeys] at hkeys
      cases hcan : locks.canLockAccounts keys' with
      | error e =>
        rw [hcan] at hkeys
        cases hkeys
      | ok u =>
        rw [hcan] at hkeys
        cases hkeys
        exact ⟨hmem, hcan⟩
  · rintro ⟨hmem, hcan⟩
    refine ⟨_, ⟨.ok keys, hmem, rfl⟩, ?_⟩
    rw [AccountLocks.checkKeys, hcan]
    rfl

/-- A batch of transactions that can all be locked is locked whole. -/
theorem lockedOf_map_ok (h : ∀ keys ∈ granted, locks.canLockAccounts keys = .ok ()) :
    lockedOf (granted.map .ok) (locks.tryLockTransactionBatch (granted.map .ok)).1 = granted := by
  rw [lockedOf_eq]
  induction granted with
  | nil => rfl
  | cons keys granted ih =>
    rw [map_cons, map_cons, AccountLocks.checkKeys, h keys mem_cons_self]
    simp only [filterMap_cons, Except.toOption]
    rw [ih (fun k hk => h k (mem_cons_of_mem _ hk))]

end

/-! ## Runs -/

/-- A transaction that was locked and not yet unlocked, and the batch it came with. -/
structure LockedTransaction where
  batch : Nat
  keys : List LockKey

/-- The locks, and who holds them.  The code stores the former only. -/
structure System where
  locks : AccountLocks
  outstanding : List LockedTransaction
  batches : Nat

variable {transaction : LockedTransaction} {rest : List LockedTransaction}

namespace System

def init : System := ⟨.empty, [], 0⟩

def held (s : System) : List (List LockKey) := s.outstanding.map LockedTransaction.keys

/-- Locking a batch. -/
def lockBatch (s : System) (batch : List (Except TransactionError (List LockKey))) : System :=
  let tried := s.locks.tryLockTransactionBatch batch
  { locks := tried.2
    outstanding :=
      (lockedOf batch tried.1).map (fun keys => ⟨s.batches, keys⟩) ++ s.outstanding
    batches := s.batches + 1 }

/-- The calls a run is made of: locking a batch of transactions with distinct
    keys, and unlocking a transaction that is locked.  Fewer than `2^64` are locked at a time. -/
inductive Step : System → System → Prop where
  | lock (s : System) (batch : List (Except TransactionError (List LockKey)))
      (hdistinct : ∀ keys, .ok keys ∈ batch → (keys.map Prod.fst).Nodup)
      (hbound : (s.lockBatch batch).outstanding.length < lockCountSize) : Step s (s.lockBatch batch)
  | unlock {s : System} {transaction : LockedTransaction} {rest : List LockedTransaction}
      {locks : AccountLocks} (hout : s.outstanding.Perm (transaction :: rest))
      (hunlock : s.locks.unlockAccounts transaction.keys = .ok locks) :
      Step s ⟨locks, rest, s.batches⟩

/-- The states of the runs from empty locks. -/
def Reachable (s : System) : Prop := Relation.ReflTransGen Step init s

/-- What a run keeps: the maps count the holders, and batches do not conflict. -/
structure Invariant (s : System) : Prop where
  represents : Represents s.locks s.held
  distinct : ∀ a ∈ s.outstanding, (a.keys.map Prod.fst).Nodup
  fresh : ∀ a ∈ s.outstanding, a.batch < s.batches
  isolated : ∀ a ∈ s.outstanding, ∀ b ∈ s.outstanding, a.batch ≠ b.batch →
    ∀ key, (key, true) ∈ a.keys → ∀ writable, (key, writable) ∉ b.keys

theorem invariant_init : Invariant init where
  represents := represents_empty
  distinct := fun _ ha => absurd ha not_mem_nil
  fresh := fun _ ha => absurd ha not_mem_nil
  isolated := fun _ ha => absurd ha not_mem_nil

variable {s s' : System}

theorem Invariant.lockBatch (h : s.Invariant)
    {batch : List (Except TransactionError (List LockKey))}
    (hdistinct : ∀ keys, .ok keys ∈ batch → (keys.map Prod.fst).Nodup)
    (hbound : (s.lockBatch batch).outstanding.length < lockCountSize) :
    (s.lockBatch batch).Invariant := by
  have hgranted : ∀ {keys}, keys ∈ lockedOf batch (s.locks.tryLockTransactionBatch batch).1 →
      (keys.map Prod.fst).Nodup ∧ s.locks.canLockAccounts keys = .ok () := by
    intro keys hkeys
    rw [lockedOf_eq, mem_checked_iff] at hkeys
    exact ⟨hdistinct keys hkeys.1, hkeys.2⟩
  have hmem : ∀ {a}, a ∈ (s.lockBatch batch).outstanding →
      (a.batch = s.batches ∧ (a.keys.map Prod.fst).Nodup ∧
        s.locks.canLockAccounts a.keys = .ok ()) ∨ a ∈ s.outstanding := by
    intro a ha
    rcases mem_append.mp ha with ha | ha
    · obtain ⟨keys, hkeys, rfl⟩ := mem_map.mp ha
      exact Or.inl ⟨rfl, hgranted hkeys⟩
    · exact Or.inr ha
  refine ⟨?_, ?_, ?_, ?_⟩
  · have hnodup : ∀ keys ∈ (batch.map s.locks.checkKeys).filterMap Except.toOption,
        keys.Nodup := by
      intro keys hkeys
      rw [← lockedOf_eq] at hkeys
      exact (hgranted hkeys).1.of_map
    have hcount : ((batch.map s.locks.checkKeys).filterMap Except.toOption).length +
        s.held.length < lockCountSize := by
      rw [← lockedOf_eq, held, length_map]
      simpa [System.lockBatch] using hbound
    have hlocked := foldl_lockAccounts_represents hnodup hcount h.represents
    rw [← lockedOf_eq, ← tryLockTransactionBatch_snd] at hlocked
    have hheld : (s.lockBatch batch).held =
        lockedOf batch (s.locks.tryLockTransactionBatch batch).1 ++ s.held := by
      simp [held, System.lockBatch, Function.comp_def]
    rw [hheld]
    exact hlocked
  · intro a ha
    rcases hmem ha with ⟨-, hnodup, -⟩ | ha
    · exact hnodup
    · exact h.distinct a ha
  · intro a ha
    show a.batch < s.batches + 1
    rcases hmem ha with ⟨hbatch, -, -⟩ | ha
    · omega
    · have := h.fresh a ha
      omega
  · -- a transaction of this batch was checked against all that were outstanding
    intro a ha b hb hne key hkey writable hb'
    rcases hmem ha with ⟨hbatch, -, hcan⟩ | ha <;> rcases hmem hb with ⟨hbatch', -, hcan'⟩ | hb
    · exact hne (hbatch.trans hbatch'.symm)
    · exact not_mem_of_canLockAccounts h.represents hcan (mem_map_of_mem hb) hkey
        (Or.inl rfl) hb'
    · exact not_mem_of_canLockAccounts h.represents hcan' (mem_map_of_mem ha) hb'
        (Or.inr rfl) hkey
    · exact h.isolated a ha b hb hne key hkey writable hb'

section

variable (h : s.Invariant) (hout : s.outstanding.Perm (transaction :: rest))
include h hout

theorem Invariant.represents_cons :
    Represents s.locks (transaction.keys :: rest.map LockedTransaction.keys) :=
  h.represents.perm (hout.map _)

theorem Invariant.unlock {locks : AccountLocks}
    (hunlock : s.locks.unlockAccounts transaction.keys = .ok locks) :
    Invariant ⟨locks, rest, s.batches⟩ := by
  have hmem : ∀ {a}, a ∈ rest → a ∈ s.outstanding := fun ha =>
    hout.mem_iff.mpr (mem_cons_of_mem _ ha)
  have hnodup := (h.distinct transaction (hout.mem_iff.mpr mem_cons_self)).of_map
  refine ⟨?_, fun a ha => h.distinct a (hmem ha), fun a ha => h.fresh a (hmem ha),
    fun a ha b hb => h.isolated a (hmem ha) b (hmem hb)⟩
  exact (unlockAccounts_returns hnodup (h.represents_cons hout)).of_ok hunlock

end

theorem Invariant.step (h : s.Invariant) (hstep : Step s s') : s'.Invariant := by
  cases hstep with
  | lock batch hdistinct hbound => exact h.lockBatch hdistinct hbound
  | unlock hout hunlock => exact h.unlock hout hunlock

theorem Reachable.invariant (h : Reachable s) : s.Invariant := by
  induction h with
  | refl => exact invariant_init
  | tail _ hstep ih => exact ih.step hstep

/-- Batches are isolated.  The counters equal the numbers of holders; what one batch holds for
    writing no other batch holds; no unlock of a locked transaction panics; a transaction that is
    not locked leaves no trace; and when nothing is held the maps are empty. -/
theorem batches_isolated (h : Reachable s) :
    (∀ key, (s.locks.writeLocks.get? key).getD 0 = holders s.held true key ∧
      (s.locks.readonlyLocks.get? key).getD 0 = holders s.held false key) ∧
    (∀ a ∈ s.outstanding, ∀ b ∈ s.outstanding, a.batch ≠ b.batch →
      ∀ key, (key, true) ∈ a.keys → ∀ writable, (key, writable) ∉ b.keys) ∧
    (∀ a ∈ s.outstanding, ∃ locks, s.locks.unlockAccounts a.keys = .ok locks) ∧
    (∀ batch, (s.locks.tryLockTransactionBatch batch).2 = (s.locks.tryLockTransactionBatch
        ((lockedOf batch (s.locks.tryLockTransactionBatch batch).1).map .ok)).2) ∧
    (s.outstanding = [] → s.locks.writeLocks.isEmpty = true ∧
      s.locks.readonlyLocks.isEmpty = true) := by
  have hinv := h.invariant
  refine ⟨fun key => ⟨hinv.represents.write.getD key, hinv.represents.readonly.getD key⟩,
    hinv.isolated, ?_, ?_, ?_⟩
  · intro a ha
    obtain ⟨before, after, hsplit⟩ := append_of_mem ha
    have hout : s.outstanding.Perm (a :: (before ++ after)) := by
      rw [hsplit]
      exact perm_middle
    obtain ⟨locks, hunlock, -⟩ := (unlockAccounts_returns (hinv.distinct a ha).of_map
      (hinv.represents_cons hout)).exists_ok
    exact ⟨locks, hunlock⟩
  · -- trying the locked transactions alone lets all of them through
    intro batch
    rw [tryLockTransactionBatch_snd, tryLockTransactionBatch_snd, lockedOf_map_ok]
    intro keys hkeys
    rw [lockedOf_eq, mem_checked_iff] at hkeys
    exact hkeys.2
  · intro hnone
    have hzero : ∀ writable key, holders s.held writable key = 0 := by
      intro writable key
      rw [held, hnone]
      rfl
    exact ⟨hinv.represents.write.isEmpty (hzero true),
      hinv.represents.readonly.isEmpty (hzero false)⟩

/-- Two batches: the second transaction of the second batch is not locked, since the first batch
    writes its account, and the account the two batches read has two readers. -/
theorem batches_isolated_two_batches :
    let first := init.lockBatch [.ok [(Pubkey.ofNat 1, true), (Pubkey.ofNat 2, false)]]
    let second := first.lockBatch
      [.ok [(Pubkey.ofNat 2, false)], .ok [(Pubkey.ofNat 3, true), (Pubkey.ofNat 1, false)]]
    second.outstanding.map LockedTransaction.batch = [1, 0] ∧
      (second.locks.writeLocks.get? (Pubkey.ofNat 1)).getD 0 = 1 ∧
      (second.locks.writeLocks.get? (Pubkey.ofNat 3)).getD 0 = 0 ∧
      (second.locks.readonlyLocks.get? (Pubkey.ofNat 2)).getD 0 = 2 ∧
      ∀ a ∈ second.outstanding, ∃ locks, second.locks.unlockAccounts a.keys = .ok locks := by
  intro first second
  have hfirst : Step init first := by
    refine .lock init _ (fun keys hkeys => ?_) (by decide +kernel)
    cases mem_singleton.mp hkeys
    decide
  have hsecond : Step first second := by
    refine .lock first _ (fun keys hkeys => ?_) (by decide +kernel)
    simp only [mem_cons, not_mem_nil, or_false, Except.ok.injEq] at hkeys
    rcases hkeys with rfl | rfl <;> decide
  obtain ⟨hcount, -, hunlock, -⟩ :=
    batches_isolated ((Relation.ReflTransGen.single hfirst).tail hsecond)
  refine ⟨by decide +kernel, ?_, ?_, ?_, hunlock⟩
  · rw [(hcount _).1]
    decide +kernel
  · rw [(hcount _).1]
    decide +kernel
  · rw [(hcount _).2]
    decide +kernel

end System

end Agave.AccountsDb

