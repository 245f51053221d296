/-
  Agave.Runtime.AccountsLtHash

  The accounts lattice hash of a bank, kept up to date store by store.

  A store call scans its accounts from the last to the first and enqueues, for the
  newest version of each, what was visible before and what will be.  Only then are
  the accounts written, again from the last to the first.  The hasher threads mix
  the updates into accumulators of their own, and `finish` adds these up.

  While calls are in flight the hash is ahead of the store: it counts an account
  that a call has scanned as the call will leave it.  `Settles` names that view of
  the accounts, and every step keeps the hash equal to its sum.
-/

import Agave.Svm.AccountLoader
import Mathlib.Algebra.BigOperators.Fin
import Mathlib.Tactic.Abel

namespace Agave.Runtime.AccountsLtHash

open Svm Function List

/-! ## The hasher threads -/

/-- `NUM_ACCOUNTS_HASHER_THREADS`. -/
def numAccountsHasherThreads : Nat := 4

/-- `AccountsLtHashUpdate`. -/
structure Update where
  address : Pubkey
  prevAccount : Option Account
  currAccount : Option Account

/-- `AccountsLtHashAsyncProgress`, with the jobs no thread has run and the number of
    those that ran and are still counted as pending. -/
structure AsyncProgress (G : Type _) where
  accumulators : Fin numAccountsHasherThreads → G
  numJobsPending : Nat
  numJobsTotal : Nat
  queue : List Update
  unreported : Nat

-- `hash` is `lt_hash_account`.
variable {G : Type _} [AddCommGroup G] (hash : Account → Pubkey → G) (progress : AsyncProgress G)

namespace AsyncProgress

def new : AsyncProgress G :=
  ⟨fun _ => 0, 0, 0, [], 0⟩

variable (progress : AsyncProgress G)

def spawn (update : Update) : AsyncProgress G :=
  { progress with
    numJobsPending := progress.numJobsPending + 1
    numJobsTotal := progress.numJobsTotal + 1
    queue := progress.queue ++ [update] }

/-- `process`: `mix_out` and `mix_in` are subtraction and addition. -/
def process (accumLtHash : G) (update : Update) : G :=
  let accumLtHash := match update.prevAccount with
    | some prevAccount => accumLtHash - hash prevAccount update.address
    | none => accumLtHash
  match update.currAccount with
  | some currAccount => accumLtHash + hash currAccount update.address
  | none => accumLtHash

/-- `finish`: the hash and the number of jobs, or `none` while it spins. -/
def finish (ltHash : G) : Option (G × Nat) :=
  if progress.numJobsPending > 0 then none
  else some ((List.finRange numAccountsHasherThreads).foldl
    (fun ltHash worker => ltHash + progress.accumulators worker) ltHash, progress.numJobsTotal)

/-- What the threads do: run a job, any of them on any thread, or report one that ran. -/
inductive Works : AsyncProgress G → AsyncProgress G → Prop where
  | process (progress : AsyncProgress G) (worker : Fin numAccountsHasherThreads)
      (before after : List Update) (update : Update)
      (hqueue : progress.queue = before ++ update :: after) :
      Works progress { progress with
        accumulators := Function.update progress.accumulators worker
          (process hash (progress.accumulators worker) update)
        queue := before ++ after
        unreported := progress.unreported + 1 }
  | report (progress : AsyncProgress G) (hran : 0 < progress.unreported) :
      Works progress { progress with
        numJobsPending := progress.numJobsPending - 1
        unreported := progress.unreported - 1 }

/-- The thread steps the spawned jobs still need. -/
def workLeft : Nat :=
  2 * progress.queue.length + progress.unreported

end AsyncProgress

/-! ## Store calls -/

/-- A store call in flight: its accounts, and what each of its two backward loops has left
    and has met. -/
structure StoreCall where
  accounts : List KeyedAccount
  unhashed : List KeyedAccount
  seenAccounts : List Pubkey
  unstored : List KeyedAccount
  pubkeySet : List Pubkey

def StoreCall.begin (accounts : List KeyedAccount) : StoreCall :=
  { accounts, unhashed := accounts.reverse, seenAccounts := []
    unstored := accounts.reverse, pubkeySet := [] }

def StoreCall.addresses (call : StoreCall) : List Pubkey := call.accounts.map Prod.fst

/-- The body of the loop of `enqueue_accounts_lt_hash_updates`. -/
def enqueueUpdate (store : Store) (seenAccounts : List Pubkey)
    (progress : AsyncProgress G) (entry : KeyedAccount) :
    List Pubkey × AsyncProgress G :=
  if entry.1 ∈ seenAccounts then (seenAccounts, progress)
  else
    let prevAccount := store.getAccountSharedData entry.1
    let currAccount := entry.2.alive
    (entry.1 :: seenAccounts,
      -- the account was ephemeral
      if prevAccount.isNone && currAccount.isNone then progress
      else progress.spawn { address := entry.1, prevAccount, currAccount })

def isAncestorZeroLamport (store : Store) (pubkey : Pubkey) : Option Bool :=
  (store pubkey).map fun account => account.lamports == 0

/-- What `write_accounts_to_cache` stores for an account met for the first time. -/
def storeAccount (store : Store) (entry : KeyedAccount) : Store :=
  -- `account_default_if_zero_lamport`
  let account := if entry.2.lamports = 0 then Account.default else entry.2
  if account.lamports = 0 then
    match isAncestorZeroLamport store entry.1 with
    | none => store
    | some true => store
    | some false => Function.update store entry.1 (some account)
  else Function.update store entry.1 (some account)

/-- The body of the loop of `write_accounts_to_cache`. -/
def writeAccountToCache (store : Store) (pubkeySet : List Pubkey) (entry : KeyedAccount) :
    List Pubkey × Store :=
  if entry.1 ∈ pubkeySet then (pubkeySet, store)
  else (entry.1 :: pubkeySet, storeAccount store entry)

/-- A bank, with the store calls in flight. -/
structure Bank (G : Type _) where
  store : Store
  accountsLtHash : G
  progress : AsyncProgress G
  calls : List StoreCall

def Bank.new (store : Store) (accountsLtHash : G) : Bank G :=
  { store, accountsLtHash, progress := .new, calls := [] }

/-- The next round of the first loop of `call`, the other calls being `others`. -/
def Bank.enqueue (bank : Bank G) (call : StoreCall) (others : List StoreCall)
    (entry : KeyedAccount) (rest : List KeyedAccount) : Bank G :=
  let next := enqueueUpdate bank.store call.seenAccounts bank.progress entry
  { bank with
    progress := next.2
    calls := { call with unhashed := rest, seenAccounts := next.1 } :: others }

/-- The next round of the second loop. -/
def Bank.write (bank : Bank G) (call : StoreCall) (others : List StoreCall)
    (entry : KeyedAccount) (rest : List KeyedAccount) : Bank G :=
  let next := writeAccountToCache bank.store call.pubkeySet entry
  { bank with
    store := next.2
    calls := { call with unstored := rest, pubkeySet := next.1 } :: others }

/-- One step of a bank.  A call enqueues all its updates before its first write, and no two
    calls in flight have an account in common. -/
inductive Bank.Step : Bank G → Bank G → Prop where
  | begin (bank : Bank G) (accounts : List KeyedAccount)
      (hdisjoint : ∀ call ∈ bank.calls, (accounts.map Prod.fst).Disjoint call.addresses) :
      Bank.Step bank { bank with calls := .begin accounts :: bank.calls }
  | enqueue (bank : Bank G) (call : StoreCall) (others : List StoreCall) (entry : KeyedAccount)
      (rest : List KeyedAccount) (hcalls : bank.calls.Perm (call :: others))
      (hrest : call.unhashed = entry :: rest) :
      Bank.Step bank (bank.enqueue call others entry rest)
  | write (bank : Bank G) (call : StoreCall) (others : List StoreCall) (entry : KeyedAccount)
      (rest : List KeyedAccount) (hcalls : bank.calls.Perm (call :: others))
      (hhashed : call.unhashed = []) (hrest : call.unstored = entry :: rest) :
      Bank.Step bank (bank.write call others entry rest)
  | done (bank : Bank G) (call : StoreCall) (others : List StoreCall)
      (hcalls : bank.calls.Perm (call :: others)) (hhashed : call.unhashed = [])
      (hstored : call.unstored = []) :
      Bank.Step bank { bank with calls := others }
  | work (bank : Bank G) (progress : AsyncProgress G)
      (hworks : bank.progress.Works hash progress) :
      Bank.Step bank { bank with progress }

abbrev Bank.Run : Bank G → Bank G → Prop := Relation.ReflTransGen (Bank.Step hash)

/-! ## The hash from scratch -/

/-- What an address adds to the hash. -/
def hashOf (address : Pubkey) (account : Option Account) : G :=
  (account.map (hash · address)).getD 0

/-- The hash of the accounts with lamports in a store. -/
def accountsSum (store : Store) : G :=
  ∑ address, hashOf hash address (store.getAccountSharedData address)

/-- What an update adds to the hash. -/
def Update.delta (update : Update) : G :=
  hashOf hash update.address update.currAccount - hashOf hash update.address update.prevAccount

theorem process_eq (accum : G) (update : Update) :
    AsyncProgress.process hash accum update = accum + update.delta hash := by
  obtain ⟨address, prevAccount, currAccount⟩ := update
  cases prevAccount <;> cases currAccount <;>
    simp only [AsyncProgress.process, Update.delta, hashOf, Option.map_none, Option.map_some,
      Option.getD_none, Option.getD_some] <;> abel

/-- What the accumulators and the jobs no thread has run hold together. -/
def AsyncProgress.total : G :=
  ∑ worker, progress.accumulators worker + (progress.queue.map (Update.delta hash)).sum

theorem total_spawn (update : Update) :
    (progress.spawn update).total hash = progress.total hash + update.delta hash := by
  simp [AsyncProgress.total, AsyncProgress.spawn, add_assoc]

theorem foldl_mixIn {ι : Type _} (f : ι → G) (workers : List ι) (ltHash : G) :
    workers.foldl (fun ltHash worker => ltHash + f worker) ltHash =
      ltHash + (workers.map f).sum := by
  induction workers generalizing ltHash with
  | nil => simp
  | cons worker workers ih => rw [foldl_cons, ih, map_cons, sum_cons, add_assoc]

variable {ltHash : G} {store : Store} {address : Pubkey} {accounts rest : List KeyedAccount}
  {entry : KeyedAccount}

section Threads

variable {hash} {progress progress' : AsyncProgress G}

theorem finish_eq_some {result : G × Nat} (h : progress.finish ltHash = some result) :
    progress.numJobsPending = 0 ∧ result.1 = ltHash + ∑ worker, progress.accumulators worker := by
  unfold AsyncProgress.finish at h
  split at h
  · cases h
  · cases h
    exact ⟨by omega, (foldl_mixIn _ _ _).trans (by rw [← Fin.sum_univ_def])⟩

namespace AsyncProgress

theorem Works.total_eq (h : progress.Works hash progress') :
    progress'.total hash = progress.total hash := by
  cases h with
  | process worker before after update hqueue =>
    simp only [total, hqueue, process_eq, map_append, map_cons, sum_append, sum_cons]
    rw [Finset.sum_update_of_mem (Finset.mem_univ worker),
      ← Finset.add_sum_erase Finset.univ progress.accumulators (Finset.mem_univ worker),
      Finset.sdiff_singleton_eq_erase]
    abel
  | report => rfl

/-- The jobs counted as pending are those that have not run and those not reported. -/
def Counted : Prop :=
  progress.numJobsPending = progress.queue.length + progress.unreported

theorem Works.counted (h : progress.Works hash progress') (hcounted : progress.Counted) :
    progress'.Counted := by
  unfold Counted at hcounted ⊢
  cases h with
  | process worker before after update hqueue =>
    simp only [hqueue, length_append, length_cons] at hcounted ⊢
    omega
  | report hran =>
    simp only
    omega

theorem Works.workLeft_lt (h : progress.Works hash progress') :
    progress'.workLeft < progress.workLeft := by
  unfold workLeft
  cases h with
  | process worker before after update hqueue =>
    simp only [hqueue, length_append, length_cons]
    omega
  | report hran =>
    simp only
    omega

/-- While `finish` spins some thread has something to do. -/
theorem Counted.exists_works (hcounted : progress.Counted) (h : progress.finish ltHash = none) :
    ∃ progress', progress.Works hash progress' := by
  have hpos : 0 < progress.numJobsPending := by
    by_contra hzero
    rw [finish, if_neg hzero] at h
    cases h
  cases hqueue : progress.queue with
  | nil =>
    rw [Counted, hqueue, length_nil] at hcounted
    exact ⟨_, .report progress (by omega)⟩
  | cons update after => exact ⟨_, .process progress ⟨0, by decide⟩ [] after update hqueue⟩

end AsyncProgress

end Threads

/-! ## The two backward loops -/

/-- The last version of an account in a list. -/
def newest (accounts : List KeyedAccount) (address : Pubkey) : Option Account :=
  accounts.reverse.lookup address

/-- A loop over the accounts, last first, has `rest` left and has met `seen`. -/
structure Scanned (accounts rest : List KeyedAccount) (seen : List Pubkey) : Prop where
  met : ∀ address ∈ seen, address ∈ accounts.map Prod.fst
  unmet : ∀ address ∉ seen, newest accounts address = rest.lookup address

theorem newest_eq_none_iff :
    newest accounts address = none ↔ address ∉ accounts.map Prod.fst := by
  rw [newest, lookup_eq_none_iff, mem_map]
  simp only [mem_reverse, bne_iff_ne, ne_eq, not_exists, not_and]
  exact forall₂_congr fun _ _ => not_congr eq_comm

section Loops

variable {seen seen' : List Pubkey}

theorem Scanned.start : Scanned accounts accounts.reverse [] :=
  ⟨fun _ hseen => absurd hseen not_mem_nil, fun _ _ => rfl⟩

/-- An account met for the first time is the last version of it. -/
theorem Scanned.newest_head (h : Scanned accounts (entry :: rest) seen) (hnew : entry.1 ∉ seen) :
    newest accounts entry.1 = some entry.2 := by
  rw [h.unmet _ hnew]
  exact lookup_cons_self

theorem Scanned.mem_head (h : Scanned accounts (entry :: rest) seen) :
    entry.1 ∈ accounts.map Prod.fst := by
  by_cases hseen : entry.1 ∈ seen
  · exact h.met _ hseen
  · by_contra hmem
    have hnone := newest_eq_none_iff.mpr hmem
    rw [h.newest_head hseen] at hnone
    cases hnone

theorem Scanned.mem_seen (h : Scanned accounts [] seen) (hmem : address ∈ accounts.map Prod.fst) :
    address ∈ seen := by
  by_contra hseen
  exact newest_eq_none_iff.mp (h.unmet address hseen) hmem

section

variable (h : Scanned accounts (entry :: rest) seen)
include h

theorem Scanned.next (hseen' : ∀ address, address ∈ seen' ↔ address = entry.1 ∨ address ∈ seen) :
    Scanned accounts rest seen' := by
  constructor
  · intro address hseen
    rcases (hseen' address).mp hseen with rfl | hseen
    · exact h.mem_head
    · exact h.met address hseen
  · intro address hunseen
    rw [hseen', not_or] at hunseen
    rw [h.unmet address hunseen.2, lookup_cons, beq_false_of_ne hunseen.1]

theorem Scanned.skip (hseen : entry.1 ∈ seen) :
    Scanned accounts rest seen :=
  h.next fun _ => ⟨.inr, fun h => h.elim (· ▸ hseen) id⟩

theorem Scanned.meet :
    Scanned accounts rest (entry.1 :: seen) :=
  h.next fun _ => mem_cons

end

end Loops

/-- A write makes its account visible, also where nothing is stored for it. -/
theorem view_storeAccount (store : Store) (entry : KeyedAccount) :
    (storeAccount store entry).getAccountSharedData entry.1 = entry.2.alive := by
  unfold storeAccount
  by_cases hzero : entry.2.lamports = 0
  · have hdead : entry.2.alive = none := if_pos hzero
    simp only [if_pos hzero, Account.default, if_true, isAncestorZeroLamport, hdead]
    cases hstored : store entry.1 with
    | none => simp [Store.getAccountSharedData, hstored]
    | some account =>
      by_cases hgone : account.lamports = 0
      · simp [Store.getAccountSharedData, hstored, hgone, Account.alive]
      · have hfalse : (account.lamports == 0) = false := by simp [hgone]
        simp [hfalse, Store.getAccountSharedData, Account.alive]
  · simp [if_neg hzero, Store.getAccountSharedData]

theorem storeAccount_of_ne (hne : address ≠ entry.1) :
    storeAccount store entry address = store address := by
  have hupdate (account : Account) :
      update store entry.1 (some account) address = store address :=
    update_of_ne hne _ _
  simp only [storeAccount]
  generalize (if entry.2.lamports = 0 then Account.default else entry.2) = account
  split
  · cases isAncestorZeroLamport store entry.1 with
    | none => rfl
    | some gone =>
      cases gone with
      | true => rfl
      | false => exact hupdate _
  · exact hupdate _

/-! ## The accounts the hash stands for -/

/-- `target` is what the hash counts: an account the call has enqueued and not written yet is
    the call's last version of it, one it has written is in the store. -/
structure StoreCall.Sound (call : StoreCall) (store : Store) (target : Pubkey → Option Account) :
    Prop where
  hashed : Scanned call.accounts call.unhashed call.seenAccounts
  stored : Scanned call.accounts call.unstored call.pubkeySet
  early : call.unhashed ≠ [] → call.pubkeySet = []
  ahead : ∀ address ∈ call.seenAccounts, target address =
    if address ∈ call.pubkeySet then store.getAccountSharedData address
    else (newest call.accounts address).bind Account.alive

/-- The hash, the accumulators and the queue add up to the hash of `target`, which is the
    store wherever no call in flight is ahead of it. -/
structure Bank.Settles (bank : Bank G) (target : Pubkey → Option Account) : Prop where
  balanced : bank.accountsLtHash + bank.progress.total hash =
    ∑ address, hashOf hash address (target address)
  pending : bank.progress.Counted
  sound : ∀ call ∈ bank.calls, call.Sound bank.store target
  disjoint : bank.calls.Pairwise fun call other => call.addresses.Disjoint other.addresses
  rest : ∀ address, (∀ call ∈ bank.calls, address ∉ call.seenAccounts) →
    target address = bank.store.getAccountSharedData address

theorem sum_hashOf_update (target : Pubkey → Option Account) (address : Pubkey)
    (account : Option Account) :
    ∑ key, hashOf hash key (update target address account key) =
      ∑ key, hashOf hash key (target key) +
        (hashOf hash address account - hashOf hash address (target address)) := by
  simp only [← Finset.add_sum_erase Finset.univ _ (Finset.mem_univ address), update_self]
  rw [Finset.sum_congr rfl fun key hkey => by
    rw [update_of_ne (Finset.ne_of_mem_erase hkey)]]
  abel

section Steps

variable {hash} {bank bank' : Bank G} {target target' : Pubkey → Option Account} {call : StoreCall}
  {others : List StoreCall}

/-- What `enqueueUpdate` adds for an account met for the first time. -/
theorem enqueueUpdate_new (store : Store) {seenAccounts : List Pubkey} {progress : AsyncProgress G}
    (hnew : entry.1 ∉ seenAccounts) (hpending : progress.Counted) :
    (enqueueUpdate store seenAccounts progress entry).2.total hash =
        progress.total hash + (hashOf hash entry.1 entry.2.alive -
          hashOf hash entry.1 (store.getAccountSharedData entry.1)) ∧
      (enqueueUpdate store seenAccounts progress entry).2.Counted := by
  rw [enqueueUpdate, if_neg hnew]
  simp only
  split
  · rename_i hnone
    simp only [Bool.and_eq_true, Option.isNone_iff_eq_none] at hnone
    rw [hnone.1, hnone.2, sub_self, add_zero]
    exact ⟨rfl, hpending⟩
  · refine ⟨total_spawn _ _ _, ?_⟩
    unfold AsyncProgress.Counted at hpending ⊢
    simp only [AsyncProgress.spawn, length_append, length_singleton]
    omega

theorem Bank.Settles.perm (h : bank.Settles hash target) {calls : List StoreCall}
    (hcalls : bank.calls.Perm calls) : Bank.Settles hash { bank with calls } target where
  balanced := h.balanced
  pending := h.pending
  sound call hcall := h.sound call (hcalls.mem_iff.mpr hcall)
  disjoint := (hcalls.pairwise_iff fun h => h.symm).mp h.disjoint
  rest address hunseen :=
    h.rest address fun call hcall => hunseen call (hcalls.mem_iff.mp hcall)

/-- A call does not depend on what changes at other addresses than its own. -/
theorem StoreCall.Sound.frame {store' : Store} (h : call.Sound store target)
    (hsame : ∀ address ∈ call.addresses, target' address = target address ∧
      store' address = store address) : call.Sound store' target' := by
  refine ⟨h.hashed, h.stored, h.early, fun address hseen => ?_⟩
  obtain ⟨htarget, hstore⟩ := hsame address (h.hashed.met _ hseen)
  rw [htarget, h.ahead address hseen, Store.getAccountSharedData, Store.getAccountSharedData,
    hstore]

section

variable (h : bank.Settles hash target)
include h

section

variable (hcalls : bank.calls = call :: others)
include hcalls

/-- An address that another call has, none of the other calls has enqueued. -/
theorem Bank.Settles.unseen_others (hmem : address ∈ call.addresses) :
    ∀ other ∈ others, address ∉ other.seenAccounts := by
  intro other hother hseen
  have hdisjoint := h.disjoint
  rw [hcalls, pairwise_cons] at hdisjoint
  have hsound := h.sound other (hcalls ▸ mem_cons_of_mem _ hother)
  exact hdisjoint.1 other hother hmem (hsound.hashed.met _ hseen)

theorem Bank.Settles.unseen
    (hmem : address ∈ call.addresses) (hunseen : address ∉ call.seenAccounts) :
    target address = bank.store.getAccountSharedData address := by
  refine h.rest address ?_
  rw [hcalls, forall_mem_cons]
  exact ⟨hunseen, h.unseen_others hcalls hmem⟩

/-- One call moved on, and changed nothing at addresses that are not its own. -/
theorem Bank.Settles.move {next : Bank G} {call' : StoreCall}
    (hnext : next.calls = call' :: others) (haccounts : call'.accounts = call.accounts)
    (hbalanced : next.accountsLtHash + next.progress.total hash =
      ∑ address, hashOf hash address (target' address)) (hpending : next.progress.Counted)
    (hsound : call'.Sound next.store target') (hframe : ∀ address, address ∉ call.addresses →
      target' address = target address ∧ next.store address = bank.store address)
    (hrest : ∀ address ∈ call.addresses, address ∉ call'.seenAccounts →
      target' address = next.store.getAccountSharedData address) : next.Settles hash target' := by
  have hdisjoint := h.disjoint
  have hall := h.sound
  rw [hcalls] at hdisjoint hall
  rw [pairwise_cons] at hdisjoint
  rw [forall_mem_cons] at hall
  refine ⟨hbalanced, hpending, ?_, ?_, fun address hunseen => ?_⟩
  · rw [hnext, forall_mem_cons]
    exact ⟨hsound, fun other hother => (hall.2 other hother).frame fun address hmem =>
      hframe address fun hmine => hdisjoint.1 other hother hmine hmem⟩
  · rw [hnext, pairwise_cons, StoreCall.addresses, haccounts]
    exact hdisjoint
  · rw [hnext, forall_mem_cons] at hunseen
    by_cases hmem : address ∈ call.addresses
    · exact hrest address hmem hunseen.1
    · obtain ⟨htarget, hstore⟩ := hframe address hmem
      rw [htarget, Store.getAccountSharedData, hstore]
      refine h.rest address ?_
      rw [hcalls, forall_mem_cons]
      exact ⟨fun hseen => hmem (hall.1.hashed.met _ hseen), hunseen.2⟩

theorem Bank.Settles.enqueue (hrest : call.unhashed = entry :: rest) :
    ∃ target', (bank.enqueue call others entry rest).Settles hash target' := by
  have hsound := h.sound call (hcalls ▸ mem_cons_self)
  have hhashed := hsound.hashed
  rw [hrest] at hhashed
  have hnotStored : call.pubkeySet = [] := hsound.early (by simp [hrest])
  by_cases hseen : entry.1 ∈ call.seenAccounts
  · refine ⟨target, ?_⟩
    rw [Bank.enqueue, enqueueUpdate, if_pos hseen]
    exact h.move hcalls rfl rfl h.balanced h.pending
      ⟨hhashed.skip hseen, hsound.stored, fun _ => hnotStored, hsound.ahead⟩
      (fun _ _ => ⟨rfl, rfl⟩) (fun _ hmem hunseen => h.unseen hcalls hmem hunseen)
  · -- The update pairs what the store shows now with the newest version in the list.
    obtain ⟨htotal, hpending⟩ := enqueueUpdate_new bank.store hseen h.pending
    have hmem : entry.1 ∈ call.addresses := hhashed.mem_head
    have hset : (enqueueUpdate bank.store call.seenAccounts bank.progress entry).1 =
        entry.1 :: call.seenAccounts := by rw [enqueueUpdate, if_neg hseen]
    have hown {address} (hother : address ∉ call.addresses) : address ≠ entry.1 :=
      fun heq => hother (heq ▸ hmem)
    refine ⟨update target entry.1 entry.2.alive, ?_⟩
    simp only [Bank.enqueue, hset]
    refine h.move hcalls rfl rfl ?_ hpending
      ⟨hhashed.meet, hsound.stored, fun _ => hnotStored, fun address haddress => ?_⟩
      (fun address hother => ⟨update_of_ne (hown hother) _ _, rfl⟩)
      (fun address hmine hunseen => ?_)
    · rw [htotal, ← add_assoc, h.balanced, sum_hashOf_update, h.unseen hcalls hmem hseen]
    · rw [hnotStored, if_neg not_mem_nil]
      by_cases heq : address = entry.1
      · subst heq
        rw [update_self, hhashed.newest_head hseen]
        rfl
      · have hbefore := hsound.ahead address ((mem_cons.mp haddress).resolve_left heq)
        rw [hnotStored, if_neg not_mem_nil] at hbefore
        rw [update_of_ne heq, hbefore]
    · rw [mem_cons, not_or] at hunseen
      rw [update_of_ne hunseen.1, h.unseen hcalls hmine hunseen.2]

theorem Bank.Settles.write (hhashed : call.unhashed = []) (hrest : call.unstored = entry :: rest) :
    (bank.write call others entry rest).Settles hash target := by
  have hsound := h.sound call (hcalls ▸ mem_cons_self)
  have hall := hsound.hashed
  have hstored := hsound.stored
  rw [hhashed] at hall
  rw [hrest] at hstored
  have hmem : entry.1 ∈ call.addresses := hstored.mem_head
  by_cases hset : entry.1 ∈ call.pubkeySet
  · rw [Bank.write, writeAccountToCache, if_pos hset]
    exact h.move hcalls rfl rfl h.balanced h.pending
      ⟨hsound.hashed, hstored.skip hset, hsound.early, hsound.ahead⟩
      (fun _ _ => ⟨rfl, rfl⟩) (fun _ hmem hunseen => h.unseen hcalls hmem hunseen)
  · rw [Bank.write, writeAccountToCache, if_neg hset]
    refine h.move hcalls rfl rfl h.balanced h.pending
      ⟨hsound.hashed, hstored.meet, fun hne => absurd hhashed hne, fun address hseen => ?_⟩
      (fun address hother => ⟨rfl, storeAccount_of_ne fun heq => hother (heq ▸ hmem)⟩)
      (fun address hmine hunseen => absurd (hall.mem_seen hmine) hunseen)
    have hahead := hsound.ahead address hseen
    by_cases heq : address = entry.1
    · subst heq
      rw [if_neg hset, hstored.newest_head hset] at hahead
      rw [if_pos mem_cons_self, view_storeAccount, hahead]
      rfl
    · have hview : (storeAccount bank.store entry).getAccountSharedData address =
          bank.store.getAccountSharedData address := by
        rw [Store.getAccountSharedData, storeAccount_of_ne heq, Store.getAccountSharedData]
      simp only [hahead, hview, mem_cons, heq, false_or]

theorem Bank.Settles.done
    (hstored : call.unstored = []) : Bank.Settles hash { bank with calls := others } target := by
  have hall := h.sound
  have hdisjoint := h.disjoint
  rw [hcalls] at hall hdisjoint
  obtain ⟨hsound, hothers⟩ := forall_mem_cons.mp hall
  refine ⟨h.balanced, h.pending, hothers, (pairwise_cons.mp hdisjoint).2,
    fun address hunseen => ?_⟩
  by_cases hseen : address ∈ call.seenAccounts
  · have hwritten := hsound.stored
    rw [hstored] at hwritten
    have hahead := hsound.ahead address hseen
    rwa [if_pos (hwritten.mem_seen (hsound.hashed.met _ hseen))] at hahead
  · refine h.rest address ?_
    rw [hcalls, forall_mem_cons]
    exact ⟨hseen, hunseen⟩

end

theorem Bank.Settles.begin
    (hdisjoint : ∀ call ∈ bank.calls, (accounts.map Prod.fst).Disjoint call.addresses) :
    Bank.Settles hash { bank with calls := .begin accounts :: bank.calls } target := by
  refine ⟨h.balanced, h.pending, forall_mem_cons.mpr ⟨?_, h.sound⟩,
    pairwise_cons.mpr ⟨hdisjoint, h.disjoint⟩, fun address hunseen => ?_⟩
  · exact ⟨.start, .start, fun _ => rfl, fun _ hseen => absurd hseen not_mem_nil⟩
  · exact h.rest address (forall_mem_cons.mp hunseen).2

theorem Bank.Settles.step
    (hstep : bank.Step hash bank') : ∃ target', bank'.Settles hash target' := by
  cases hstep with
  | begin accounts hdisjoint => exact ⟨target, h.begin hdisjoint⟩
  | enqueue call others entry rest hcalls hrest => exact (h.perm hcalls).enqueue rfl hrest
  | write call others entry rest hcalls hhashed hrest =>
    exact ⟨target, (h.perm hcalls).write rfl hhashed hrest⟩
  | done call others hcalls hhashed hstored => exact ⟨target, (h.perm hcalls).done rfl hstored⟩
  | work progress hworks =>
    exact ⟨target, by rw [hworks.total_eq]; exact h.balanced, hworks.counted h.pending,
      h.sound, h.disjoint, h.rest⟩

end

/-- The parent's hash is the hash of what a new bank starts from. -/
theorem Bank.Settles.new (h : ltHash = accountsSum hash store) :
    (Bank.new store ltHash).Settles hash store.getAccountSharedData := by
  refine ⟨?_, rfl, forall_mem_nil _, List.Pairwise.nil, fun _ _ => rfl⟩
  simp [Bank.new, AsyncProgress.total, AsyncProgress.new, h, accountsSum]

theorem Bank.Run.settles (h : bank.Settles hash target) (hrun : bank.Run hash bank') :
    bank'.accountsLtHash = bank.accountsLtHash ∧ ∃ target', bank'.Settles hash target' := by
  induction hrun with
  | refl => exact ⟨rfl, target, h⟩
  | tail _ hstep ih =>
    obtain ⟨hsame, target', hsettles⟩ := ih
    refine ⟨?_, hsettles.step hstep⟩
    rw [← hsame]
    cases hstep <;> rfl

end Steps

/-- After any run of store calls and thread steps from a bank whose hash is that of its accounts,
    once no call is in flight: what `finish` returns is the hash of the accounts then in the store,
    and while it spins some thread can take one of the finitely many steps left. -/
theorem finish_eq_accountsSum {bank : Bank G} (hparent : ltHash = accountsSum hash store)
    (hrun : (Bank.new store ltHash).Run hash bank) (hidle : bank.calls = []) :
    (∀ result, bank.progress.finish bank.accountsLtHash = some result →
      result.1 = accountsSum hash bank.store) ∧
    (bank.progress.finish bank.accountsLtHash = none →
      ∃ progress, bank.progress.Works hash progress) ∧
    ∀ progress progress' : AsyncProgress G,
      progress.Works hash progress' → progress'.workLeft < progress.workLeft := by
  obtain ⟨-, target, hsettles⟩ := Bank.Run.settles (.new hparent) hrun
  refine ⟨fun result hresult => ?_, hsettles.pending.exists_works,
    fun _ _ hworks => hworks.workLeft_lt⟩
  obtain ⟨hdone, hresult⟩ := finish_eq_some hresult
  have hqueue : bank.progress.queue = [] := by
    have hcounted : bank.progress.numJobsPending = _ := hsettles.pending
    rw [← length_eq_zero_iff]
    omega
  have hbalanced := hsettles.balanced
  rw [AsyncProgress.total, hqueue, map_nil, sum_nil, add_zero]
    at hbalanced
  rw [hresult, hbalanced, accountsSum]
  refine Finset.sum_congr rfl fun address _ => ?_
  rw [hsettles.rest address (by simp [hidle])]

/-- Two versions of a new account in one call: only the last is hashed and stored. -/
theorem finish_eq_accountsSum_twice : ∃ bank : Bank Int,
    bank.progress.finish bank.accountsLtHash = some (7, 1) ∧
      7 = accountsSum (fun account _ => (account.lamports : Int)) bank.store := by
  have hparent : 0 = accountsSum (fun account _ => (account.lamports : Int)) fun _ => none := by
    simp [accountsSum, hashOf, Store.getAccountSharedData]
  have hrun := ((((((((Relation.ReflTransGen.refl
    (r := Bank.Step (fun account _ => (account.lamports : Int)))).tail
    (.begin (.new (fun _ => none) 0)
      [(1, { Account.default with lamports := 5 }), (1, { Account.default with lamports := 7 })]
      (forall_mem_nil _))).tail
    (.enqueue _ _ [] _ _ (.refl _) rfl)).tail
    (.work _ _ (.process _ ⟨2, by decide⟩ [] [] _ rfl))).tail
    (.enqueue _ _ [] _ _ (.refl _) rfl)).tail
    (.write _ _ [] _ _ (.refl _) rfl rfl)).tail
    (.work _ _ (.report _ Nat.one_pos))).tail
    (.write _ _ [] _ _ (.refl _) rfl rfl)).tail
    (.done _ _ [] (.refl _) rfl rfl)
  exact ⟨_, rfl, (finish_eq_accountsSum _ hparent hrun rfl).1 _ rfl⟩

end Agave.Runtime.AccountsLtHash

