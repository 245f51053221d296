/-
  Agave.Svm.Batch

  `load_and_execute_sanitized_transactions` over a batch, the list of accounts
  `collect_accounts_to_store` then commits, and why together they do what running the transactions
  one by one does.

  Inside a batch a transaction sees the writes of the ones before it through the loader's cache;
  across batches it sees them through the store.  The two agree because the cache is updated with
  exactly the list that is collected for the commit (`settle_run`), and because every read goes
  through the loader's view (`Answers`), which the update of the cache and the write to the store
  change alike (`view_insertAll`).

  The program cache is part of the execution function, so the branch for a full program cache, which
  fails the whole batch, does not appear.
-/

import Agave.Svm.Loading

namespace Agave.Svm

open Agave.Lib List AccountLoader

/-! ## Processing one transaction -/

/-- `ExecutedTransaction`, as far as it is read. -/
structure ExecutedTransaction where
  loadedTransaction : LoadedTransaction
  status : Except TransactionError Unit

inductive ProcessedTransaction where
  | executed (transaction : ExecutedTransaction)
  | feesOnly (transaction : FeesOnlyTransaction)

/-- `TransactionProcessingResult`. -/
abbrev ProcessingResult := Except TransactionError ProcessedTransaction

/-- The fee payer was debited while loading, so its flag is set after the execution. -/
def markFeePayerTouched : List Bool → List Bool
  | [] => []
  | _ :: flags => true :: flags

variable (p : Processor) (tx : SVMMessage) (message : SVMMessage) (rollback : RollbackAccounts)

def Processor.executeLoadedTransaction (loaded : LoadedTransaction) : ExecutedTransaction :=
  let record := p.execute tx loaded
  { loadedTransaction := { loaded with
      accounts := record.accounts
      touchedFlags := markFeePayerTouched record.touchedFlags }
    status := record.status }

def updateAccountsForFailedTx : LoaderM Unit :=
  forM rollback.iter fun entry => modify fun loader => loader.insert entry.1 entry.2

/-- One turn of the loop of `update_accounts_for_successful_tx`. -/
def updateAccount (touchedFlags : List Bool) (entry : Nat × KeyedAccount) : LoaderM Unit :=
  if !message.isWritable entry.1 then pure ()
  else
    match touchedFlags[entry.1]? with
    | none => StateT.lift (.error (.touchedFlagIndex entry.1))
    | some touched =>
      if !touched then pure ()
      else if message.isInvoked entry.1 && !message.isInstructionAccount entry.1 then pure ()
      else modify fun loader => loader.insert entry.2.1 entry.2.2

def updateAccountsForSuccessfulTx (accounts : List KeyedAccount) (touchedFlags : List Bool) :
    LoaderM Unit :=
  forM ((List.range message.accountKeys.length).zip accounts) (updateAccount message touchedFlags)

/-- What the loop does with a loaded transaction: execute it and update the cache. -/
def Processor.settle : TransactionLoadResult → LoaderM ProcessingResult
  | .notLoaded e => return .error e
  | .feesOnly feesOnly =>
    if p.config.dropOnFailure then return .error feesOnly.loadError
    else do
      updateAccountsForFailedTx feesOnly.rollbackAccounts
      return .ok (.feesOnly feesOnly)
  | .loaded loaded =>
    let executed := p.executeLoadedTransaction tx loaded
    match executed.status with
    | .ok () => do
      updateAccountsForSuccessfulTx tx executed.loadedTransaction.accounts
        executed.loadedTransaction.touchedFlags
      return .ok (.executed executed)
    | .error e =>
      if p.config.dropOnFailure then return .error e
      else do
        updateAccountsForFailedTx executed.loadedTransaction.rollbackAccounts
        return .ok (.executed executed)

/-- One turn of the loop of `load_and_execute_sanitized_transactions`. -/
def Processor.processTransaction (check : CheckResult) : LoaderM ProcessingResult := do
  let loadResult ← p.load tx check
  p.settle tx loadResult

/-! ## The batch and the commit -/

/-- Whether a result was processed, `was_processed`. -/
def wasProcessed (result : ProcessingResult) : Bool := result.toBool

/-- The loop of `load_and_execute_sanitized_transactions`, with the results so far. -/
def Processor.processAll (p : Processor) (numTxs : Nat) :
    List (SVMMessage × CheckResult) → List ProcessingResult → LoaderM (List ProcessingResult)
  | [], results => return results
  | (tx, check) :: rest, results => do
    let result ← p.processTransaction tx check
    if p.config.allOrNothing && !wasProcessed result then
      -- abort the prior and the remaining ones, and keep this failure
      let aborted := results.map (fun _ => .error .commitCancelled) ++ [result]
      return aborted ++ List.replicate (numTxs - aborted.length) (.error .commitCancelled)
    else
      p.processAll numTxs rest (results ++ [result])

def Processor.loadAndExecuteSanitizedTransactions (store : Store) (sanitizedTxs : List SVMMessage)
    (checkResults : List CheckResult) : Except Panic (List ProcessingResult) :=
  outcome (p.processAll sanitizedTxs.length (sanitizedTxs.zip checkResults) [])
    (AccountLoader.new store)

/-- One turn of the loop of `collect_accounts_for_successful_tx`. -/
def collectAccount (touchedFlags : List Bool) (entry : Nat × KeyedAccount) : Except Panic
    (List KeyedAccount) :=
  if !message.isWritable entry.1 then .ok []
  else
    match touchedFlags[entry.1]? with
    | none => .error (.touchedFlagIndex entry.1)
    | some touched =>
      if !touched then .ok []
      else if message.isInvoked entry.1 && !message.isInstructionAccount entry.1 then .ok []
      else .ok [entry.2]

def collectAccountsForSuccessfulTx (accounts : List KeyedAccount) (touchedFlags : List Bool) :
    Except Panic (List KeyedAccount) := do
  let collected ← ((List.range message.accountKeys.length).zip accounts).mapM
    (collectAccount message touchedFlags)
  .ok collected.flatten

def collectAccountsForFailedTx : List KeyedAccount :=
  rollback.iter

/-- One turn of the loop of `collect_accounts_to_store`. -/
def collectAccounts : ProcessingResult → Except Panic (List KeyedAccount)
  | .error _ => .ok []
  | .ok (.executed executed) =>
    match executed.status with
    | .ok () => collectAccountsForSuccessfulTx message executed.loadedTransaction.accounts
        executed.loadedTransaction.touchedFlags
    | .error _ => .ok (collectAccountsForFailedTx executed.loadedTransaction.rollbackAccounts)
  | .ok (.feesOnly feesOnly) => .ok (collectAccountsForFailedTx feesOnly.rollbackAccounts)

/-- `collect_accounts_to_store`, without the references kept for geyser. -/
def collectAccountsToStore (txs : List SVMMessage) (results : List ProcessingResult) :
    Except Panic (List KeyedAccount) := do
  let collected ← (results.zip txs).mapM fun entry => collectAccounts entry.2 entry.1
  .ok collected.flatten

/-- Process a batch and commit it. -/
def Processor.runBatch (store : Store) (batch : List (SVMMessage × CheckResult)) : Except Panic
    (List ProcessingResult × Store) := do
  let txs := batch.map Prod.fst
  let results ← p.loadAndExecuteSanitizedTransactions store txs (batch.map Prod.snd)
  let accounts ← collectAccountsToStore txs results
  .ok (results, store.writeAll accounts)

/-- The reference: each transaction is a batch of its own, committed before the next. -/
def Processor.runOneAtATime (p : Processor) :
    Store → List (SVMMessage × CheckResult) → Except Panic (List ProcessingResult × Store)
  | store, [] => .ok ([], store)
  | store, entry :: rest => do
    let first ← p.runBatch store [entry]
    let others ← p.runOneAtATime first.2 rest
    .ok (first.1 ++ others.1, others.2)

/-! ## The cache is updated with what is collected -/

/-- Insert a list in order. -/
def AccountLoader.insertAll (loader : AccountLoader) (accounts : List KeyedAccount) :
    AccountLoader :=
  accounts.foldl (fun loader entry => loader.insert entry.1 entry.2) loader

theorem AccountLoader.insertAll_append (loader : AccountLoader) (l₁ l₂ : List KeyedAccount) :
    loader.insertAll (l₁ ++ l₂) = (loader.insertAll l₁).insertAll l₂ :=
  foldl_append

theorem Store.writeAll_append (store : Store) (l₁ l₂ : List KeyedAccount) :
    store.writeAll (l₁ ++ l₂) = (store.writeAll l₁).writeAll l₂ :=
  foldl_append

variable {loader loader' : AccountLoader} {store : Store} {p : Processor} {numTxs : Nat}
  {batch : List (SVMMessage × CheckResult)} {tx message : SVMMessage} {txs : List SVMMessage}
  {check : CheckResult} {result : ProcessingResult} {results final : List ProcessingResult}
  {accounts : List KeyedAccount} {flags : List Bool} {entry : Nat × KeyedAccount} {e : Panic}

/-- A loader that answers as the store keeps doing so when both take the same list. -/
theorem view_insertAll (hview : loader.view = store.getAccountSharedData)
    (accounts : List KeyedAccount) :
    (loader.insertAll accounts).view = (store.writeAll accounts).getAccountSharedData := by
  induction accounts generalizing loader store with
  | nil => exact hview
  | cons entry accounts ih =>
    apply ih
    rw [view_insert, Store.getAccountSharedData_write, hview]

theorem updateAccountsForFailedTx_run : (updateAccountsForFailedTx rollback).run loader =
      .ok ((), loader.insertAll (collectAccountsForFailedTx rollback)) := by
  cases rollback with
  | feePayerOnly feePayer => rfl
  | sameNonceAndFeePayer nonce => rfl
  | separateNonceAndFeePayer nonce feePayer => rfl

theorem updateAccount_run :
    (updateAccount message flags entry).run loader = (do
      let accounts ← collectAccount message flags entry
      .ok ((), loader.insertAll accounts)) := by
  unfold updateAccount collectAccount
  split
  · rfl
  · split
    · rfl
    · split
      · rfl
      · split
        · rfl
        · rfl

theorem forM_updateAccount_run (entries : List (Nat × KeyedAccount)) :
    (forM entries (updateAccount message flags)).run loader = (do
      let collected ← entries.mapM (collectAccount message flags)
      .ok ((), loader.insertAll collected.flatten)) := by
  induction entries generalizing loader with
  | nil => rfl
  | cons entry entries ih =>
    rw [forM_cons, StateT.run_bind, updateAccount_run, mapM_cons]
    cases collectAccount message flags entry with
    | error e => rfl
    | ok accounts =>
      simp only [ok_bind]
      rw [ih]
      cases entries.mapM (collectAccount message flags) with
      | error e => rfl
      | ok collected =>
        simp only [ok_bind, pure_bind, flatten_cons, insertAll_append]

theorem updateAccountsForSuccessfulTx_run :
    (updateAccountsForSuccessfulTx message accounts flags).run loader = (do
      let collected ← collectAccountsForSuccessfulTx message accounts flags
      .ok ((), loader.insertAll collected)) := by
  unfold updateAccountsForSuccessfulTx collectAccountsForSuccessfulTx
  rw [forM_updateAccount_run]
  cases ((List.range message.accountKeys.length).zip accounts).mapM
      (collectAccount message flags) with
  | error e => rfl
  | ok collected => rfl

/-- The result a load leads to; it does not depend on the loader. -/
def Processor.resultOf (p : Processor) (tx : SVMMessage) : TransactionLoadResult → ProcessingResult
  | .notLoaded e => .error e
  | .feesOnly feesOnly =>
    if p.config.dropOnFailure then .error feesOnly.loadError else .ok (.feesOnly feesOnly)
  | .loaded loaded =>
    let executed := p.executeLoadedTransaction tx loaded
    match executed.status with
    | .ok () => .ok (.executed executed)
    | .error e => if p.config.dropOnFailure then .error e else .ok (.executed executed)

/-- Whatever became of a transaction, the cache takes what the commit will write for it. -/
theorem settle_run (loadResult : TransactionLoadResult) :
    (p.settle tx loadResult).run loader = (do
      let accounts ← collectAccounts tx (p.resultOf tx loadResult)
      .ok (p.resultOf tx loadResult, loader.insertAll accounts)) := by
  cases loadResult with
  | notLoaded e => rfl
  | feesOnly feesOnly =>
    simp only [Processor.settle, Processor.resultOf]
    by_cases hdrop : p.config.dropOnFailure = true
    · rw [if_pos hdrop, if_pos hdrop]
      rfl
    · rw [if_neg hdrop, if_neg hdrop, StateT.run_bind, updateAccountsForFailedTx_run]
      rfl
  | loaded loaded =>
    simp only [Processor.settle, Processor.resultOf]
    cases hstatus : (p.executeLoadedTransaction tx loaded).status with
    | ok u =>
      simp only [StateT.run_bind, updateAccountsForSuccessfulTx_run, collectAccounts, hstatus,
        bind_assoc, ok_bind]
      rfl
    | error e =>
      by_cases hdrop : p.config.dropOnFailure = true
      · simp only [if_pos hdrop]
        rfl
      · simp only [if_neg hdrop, StateT.run_bind, updateAccountsForFailedTx_run,
          collectAccounts, hstatus, ok_bind]
        rfl

/-! ## One transaction, from the loader and from the store -/

section

variable (p : Processor) (tx : SVMMessage) (check : CheckResult)

/-- A processed transaction panics while loading, or where its flags do not cover its accounts. -/
theorem processTransaction_run_eq :
    (p.processTransaction tx check).run loader = (do
      let loaded ← (p.load tx check).run loader
      let accounts ← collectAccounts tx (p.resultOf tx loaded.1)
      .ok (p.resultOf tx loaded.1, loaded.2.insertAll accounts)) := by
  unfold Processor.processTransaction
  rw [StateT.run_bind]
  congr 1
  funext loaded
  exact settle_run loaded.1

/-- From a loader that answers as the store, a transaction ends as it does from a new loader, and
    the loader answers as the store with the transaction's accounts written. -/
theorem processTransaction_cases (hview : loader.view = store.getAccountSharedData) :
    (∃ e, (p.processTransaction tx check).run loader = .error e ∧
      (p.processTransaction tx check).run (new store) = .error e) ∨
    ∃ result loader' fresh accounts,
      (p.processTransaction tx check).run loader = .ok (result, loader') ∧
      (p.processTransaction tx check).run (new store) = .ok (result, fresh) ∧
      collectAccounts tx result = .ok accounts ∧
      loader'.view = (store.writeAll accounts).getAccountSharedData := by
  have hnew : loader.view = (new store).view := by
    rw [hview, view_new]
  rw [processTransaction_run_eq, processTransaction_run_eq]
  obtain ⟨e, -, hs, ht⟩ | ⟨loaded, s', t', hs, ht, hs', -⟩ :=
    (answers_load p tx check).reads.run_cases hnew
  · rw [hs, ht]
    exact .inl ⟨e, rfl, rfl⟩
  · rw [hs, ht, ok_bind, ok_bind]
    cases hcollect : collectAccounts tx (p.resultOf tx loaded) with
    | error e => exact .inl ⟨e, rfl, rfl⟩
    | ok accounts =>
      refine .inr ⟨p.resultOf tx loaded, s'.insertAll accounts, t'.insertAll accounts, accounts,
        rfl, rfl, hcollect, ?_⟩
      exact view_insertAll (hs'.trans hview) accounts

end

/-! ## Whole batches -/

theorem collectAccountsToStore_cons :
    collectAccountsToStore (tx :: txs) (result :: results) = (do
      let first ← collectAccounts tx result
      let others ← collectAccountsToStore txs results
      .ok (first ++ others)) := by
  unfold collectAccountsToStore
  rw [zip_cons_cons, mapM_cons]
  cases collectAccounts tx result with
  | error e => rfl
  | ok first =>
    cases (results.zip txs).mapM (fun entry => collectAccounts entry.2 entry.1) with
    | error e => rfl
    | ok others => rfl

/-- With `all_or_nothing` off the results so far are only carried along. -/
theorem outcome_processAll_carry (hoff : p.config.allOrNothing = false) :
    outcome (p.processAll numTxs batch results) loader = (do
      let others ← outcome (p.processAll numTxs batch []) loader
      .ok (results ++ others)) := by
  induction batch generalizing results loader with
  | nil =>
    have hnil : results ++ [] = results := append_nil results
    change Except.ok results = Except.ok (results ++ [])
    rw [hnil]
  | cons entry batch ih =>
    obtain ⟨tx, check⟩ := entry
    simp only [Processor.processAll, hoff, Bool.false_and, Bool.false_eq_true, if_false, nil_append]
    cases hrun : (p.processTransaction tx check).run loader with
    | error e =>
      rw [outcome_bind_of_error hrun, outcome_bind_of_error hrun]
      rfl
    | ok r =>
      obtain ⟨result, loader'⟩ := r
      rw [outcome_bind_of_ok hrun, outcome_bind_of_ok hrun, @ih _ (results ++ [result]), @ih _ [result]]
      cases outcome (p.processAll numTxs batch []) loader' with
      | error e => rfl
      | ok others =>
        simp only [ok_bind, append_assoc]

theorem outcome_processAll_cons_of_ok (hoff : p.config.allOrNothing = false)
    (hrun : (p.processTransaction tx check).run loader = .ok (result, loader')) :
    outcome (p.processAll numTxs ((tx, check) :: batch) []) loader = (do
      let others ← outcome (p.processAll numTxs batch []) loader'
      .ok (result :: others)) := by
  simp only [Processor.processAll, hoff, Bool.false_and, Bool.false_eq_true, if_false]
  rw [outcome_bind_of_ok hrun, outcome_processAll_carry hoff]
  rfl

theorem outcome_processAll_cons_of_error
    (hrun : (p.processTransaction tx check).run loader = .error e) :
    outcome (p.processAll numTxs ((tx, check) :: batch) results) loader = .error e := by
  rw [Processor.processAll]
  exact outcome_bind_of_error hrun

/-- Processing from a loader that answers as the store, and committing. -/
def Processor.finish (p : Processor) (numTxs : Nat) (loader : AccountLoader) (store : Store)
    (batch : List (SVMMessage × CheckResult)) : Except Panic (List ProcessingResult × Store) := do
  let results ← outcome (p.processAll numTxs batch []) loader
  let accounts ← collectAccountsToStore (batch.map Prod.fst) results
  .ok (results, store.writeAll accounts)

theorem runBatch_eq_finish :
    p.runBatch store batch = p.finish batch.length (new store) store batch := by
  have hzip : (batch.map Prod.fst).zip (batch.map Prod.snd) = batch := by
    rw [zip_map', map_id'']
    intro entry
    rfl
  unfold Processor.runBatch Processor.finish Processor.loadAndExecuteSanitizedTransactions
  dsimp only
  rw [hzip, length_map]

/-- Processing one more transaction in front commits its accounts before the others. -/
theorem finish_cons_of_ok (hoff : p.config.allOrNothing = false)
    (hrun : (p.processTransaction tx check).run loader = .ok (result, loader'))
    (hcollect : collectAccounts tx result = .ok accounts) :
    p.finish numTxs loader store ((tx, check) :: batch) = (do
      let others ← p.finish numTxs loader' (store.writeAll accounts) batch
      .ok (result :: others.1, others.2)) := by
  unfold Processor.finish
  rw [outcome_processAll_cons_of_ok hoff hrun]
  cases outcome (p.processAll numTxs batch []) loader' with
  | error e => rfl
  | ok results =>
    simp only [ok_bind, map_cons]
    rw [collectAccountsToStore_cons, hcollect]
    cases collectAccountsToStore (batch.map Prod.fst) results with
    | error e => rfl
    | ok others =>
      simp only [ok_bind, Store.writeAll_append]

theorem finish_cons_of_error (hrun : (p.processTransaction tx check).run loader = .error e) :
    p.finish numTxs loader store ((tx, check) :: batch) = .error e := by
  unfold Processor.finish
  rw [outcome_processAll_cons_of_error hrun]
  rfl

theorem finish_eq_runOneAtATime (hoff : p.config.allOrNothing = false)
    (hview : loader.view = store.getAccountSharedData) :
    p.finish numTxs loader store batch = p.runOneAtATime store batch := by
  induction batch generalizing loader store with
  | nil => rfl
  | cons entry batch ih =>
    obtain ⟨tx, check⟩ := entry
    rw [Processor.runOneAtATime, runBatch_eq_finish]
    obtain ⟨e, hrun, hnew⟩ | ⟨result, loader', fresh, accounts, hrun, hnew, hcollect, hview'⟩ :=
      processTransaction_cases p tx check hview
    · rw [finish_cons_of_error hrun, finish_cons_of_error hnew]
      rfl
    · rw [finish_cons_of_ok hoff hrun hcollect, finish_cons_of_ok hoff hnew hcollect, ih hview']
      rfl

/-! ## All or nothing -/

/-- The results of an `all_or_nothing` batch: each one processed, or none. -/
def AllOrNone (results : List ProcessingResult) : Prop :=
  (∀ result ∈ results, wasProcessed result = true) ∨
    ∀ result ∈ results, wasProcessed result = false

theorem aborted_failed {n : Nat} (hfailed : wasProcessed result = false) :
    ∀ r ∈ results.map (fun _ => .error .commitCancelled) ++ [result] ++
      List.replicate n (.error .commitCancelled), wasProcessed r = false := by
  simp only [mem_append, mem_map, mem_replicate, mem_singleton]
  rintro r ((⟨_, -, rfl⟩ | rfl) | ⟨-, rfl⟩)
  · rfl
  · exact hfailed
  · rfl

/-- A batch that returns was aborted by its first transaction, or goes on with the others. -/
theorem processAll_cons_eq_ok
    (hrun : outcome (p.processAll numTxs ((tx, check) :: batch) results) loader = .ok final) :
    (final.length = results.length + 1 + (numTxs - (results.length + 1)) ∧
      ∀ r ∈ final, wasProcessed r = false) ∨
    ∃ result loader', (p.processTransaction tx check).run loader = .ok (result, loader') ∧
      (p.config.allOrNothing = true → wasProcessed result = true) ∧
      outcome (p.processAll numTxs batch (results ++ [result])) loader' = .ok final := by
  cases hstep : (p.processTransaction tx check).run loader with
  | error e =>
    rw [outcome_processAll_cons_of_error hstep] at hrun
    cases hrun
  | ok r =>
    obtain ⟨result, loader'⟩ := r
    rw [Processor.processAll, outcome_bind_of_ok hstep] at hrun
    split at hrun
    · rename_i habort
      have hfailed : wasProcessed result = false := by
        simpa using (Bool.and_eq_true_iff.mp habort).2
      cases hrun
      refine .inl ⟨?_, aborted_failed hfailed⟩
      simp only [length_append, length_map, length_singleton, length_replicate]
    · rename_i hgoes
      exact .inr ⟨result, loader', rfl, fun hon => by simpa [hon] using hgoes, hrun⟩

/-- While the loop goes on, every result so far was processed. -/
theorem allOrNone_processAll (hon : p.config.allOrNothing = true)
    (hdone : ∀ result ∈ results, wasProcessed result = true)
    (hrun : outcome (p.processAll numTxs batch results) loader = .ok final) : AllOrNone final := by
  induction batch generalizing results loader with
  | nil =>
    cases hrun
    exact .inl hdone
  | cons entry batch ih =>
    rcases processAll_cons_eq_ok hrun with ⟨-, hfailed⟩ | ⟨result, loader', -, hprocessed, hrest⟩
    · exact .inr hfailed
    · refine ih ?_ hrest
      exact forall_mem_append.mpr ⟨hdone, forall_mem_singleton.mpr (hprocessed hon)⟩

/-! ## A batch returns -/

/-- A transaction that gives the processor no reason to panic: it loads without one, and its
    execution returns a flag for every account. -/
structure Orderly (p : Processor) (tx : SVMMessage) : Prop where
  loads : ∀ e, ¬ LoadPanic p.ext tx e
  flagged : ∀ loaded,
    (p.execute tx loaded).accounts.length ≤ (p.execute tx loaded).touchedFlags.length

/-- The commit of a result does not panic. -/
def Collectable (tx : SVMMessage) (result : ProcessingResult) : Prop :=
  ∃ accounts, collectAccounts tx result = .ok accounts

theorem collectable_of_failed (hfailed : wasProcessed result = false) : Collectable tx result := by
  cases result with
  | error e => exact ⟨[], rfl⟩
  | ok processed => cases hfailed

theorem collectAccount_returns (hflag : entry.1 < flags.length) :
    ∃ accounts, collectAccount message flags entry = .ok accounts := by
  unfold collectAccount
  rw [getElem?_eq_getElem hflag]
  split
  · exact ⟨[], rfl⟩
  · dsimp only
    split
    · exact ⟨[], rfl⟩
    · split
      · exact ⟨[], rfl⟩
      · exact ⟨[entry.2], rfl⟩

theorem collectAccountsForSuccessfulTx_returns (hflags : accounts.length ≤ flags.length) :
    ∃ collected, collectAccountsForSuccessfulTx message accounts flags = .ok collected := by
  have hentries : ∀ entry ∈ (List.range message.accountKeys.length).zip accounts,
      ∃ collected, collectAccount message flags entry = .ok collected ∧ True := by
    intro entry hentry
    -- the position of an entry is below the number of accounts
    obtain ⟨i, hi, rfl⟩ := mem_iff_getElem.mp hentry
    have hlt : i < accounts.length := by
      rw [length_zip] at hi
      omega
    have hflag : ((List.range message.accountKeys.length).zip accounts)[i].1 < flags.length := by
      rw [getElem_zip, getElem_range]
      omega
    obtain ⟨collected, hcollected⟩ := collectAccount_returns hflag
    exact ⟨collected, hcollected, trivial⟩
  obtain ⟨collected, hrun, -⟩ := mapM_eq_ok hentries
  refine ⟨collected.flatten, ?_⟩
  rw [collectAccountsForSuccessfulTx, hrun]
  rfl

theorem length_markFeePayerTouched (flags : List Bool) :
    (markFeePayerTouched flags).length = flags.length := by
  cases flags <;> rfl

theorem collectable_resultOf (h : Orderly p tx) (loadResult : TransactionLoadResult) :
    Collectable tx (p.resultOf tx loadResult) := by
  cases loadResult with
  | notLoaded e => exact ⟨[], rfl⟩
  | feesOnly feesOnly =>
    rw [Processor.resultOf]
    split
    · exact ⟨[], rfl⟩
    · exact ⟨_, rfl⟩
  | loaded loaded =>
    simp only [Processor.resultOf]
    have hflags : (p.executeLoadedTransaction tx loaded).loadedTransaction.accounts.length ≤
        (p.executeLoadedTransaction tx loaded).loadedTransaction.touchedFlags.length := by
      simp only [Processor.executeLoadedTransaction, length_markFeePayerTouched]
      exact h.flagged loaded
    cases hstatus : (p.executeLoadedTransaction tx loaded).status with
    | ok u =>
      unfold Collectable
      simp only [collectAccounts, hstatus]
      exact collectAccountsForSuccessfulTx_returns hflags
    | error e =>
      dsimp only
      split
      · exact ⟨[], rfl⟩
      · unfold Collectable
        simp only [collectAccounts, hstatus]
        exact ⟨_, rfl⟩

theorem processTransaction_returns (h : Orderly p tx) :
    ∃ result loader', (p.processTransaction tx check).run loader = .ok (result, loader') ∧
      Collectable tx result := by
  rw [processTransaction_run_eq]
  cases hload : (p.load tx check).run loader with
  | error e => exact absurd ((answers_load p tx check).reads.stops loader e hload) (h.loads e)
  | ok r =>
    obtain ⟨accounts, hcollect⟩ := collectable_resultOf h r.1
    refine ⟨p.resultOf tx r.1, r.2.insertAll accounts, ?_, ⟨accounts, hcollect⟩⟩
    rw [ok_bind, hcollect, ok_bind]

theorem collectable_of_none_processed (h : ∀ r ∈ results, wasProcessed r = false)
    (hlength : txs.length = results.length) : List.Forall₂ Collectable txs results :=
  forall₂_iff_zip.mpr ⟨hlength, fun hr => collectable_of_failed (h _ (of_mem_zip hr).2)⟩

/-- The loop ends with one result for each transaction, all of which can be committed. -/
theorem processAll_returns {done : List SVMMessage} (loader : AccountLoader)
    (horderly : ∀ entry ∈ batch, Orderly p entry.1) (hdone : List.Forall₂ Collectable done results)
    (hnum : numTxs = done.length + batch.length) :
    ∃ final, outcome (p.processAll numTxs batch results) loader = .ok final ∧
      List.Forall₂ Collectable (done ++ batch.map Prod.fst) final := by
  induction batch generalizing done results loader with
  | nil => exact ⟨results, rfl, by simpa using hdone⟩
  | cons entry batch ih =>
    obtain ⟨tx, check⟩ := entry
    obtain ⟨result, loader', hrun, hcollectable⟩ :=
      processTransaction_returns (horderly (tx, check) mem_cons_self)
    rw [Processor.processAll, outcome_bind_of_ok hrun]
    split
    · rename_i habort
      have hfailed : wasProcessed result = false := by
        simpa using (Bool.and_eq_true_iff.mp habort).2
      refine ⟨_, rfl, collectable_of_none_processed (aborted_failed hfailed) ?_⟩
      have hlength := hdone.length_eq
      simp only [length_append, length_map, length_cons, length_nil, length_replicate] at *
      omega
    · have hnext : List.Forall₂ Collectable (done ++ [tx]) (results ++ [result]) :=
        rel_append hdone (.cons hcollectable .nil)
      obtain ⟨final, hfinal, hall⟩ := ih loader'
        (fun entry hmem => horderly entry (mem_cons_of_mem _ hmem)) hnext
        (by simp only [length_append, length_cons, length_nil] at *; omega)
      refine ⟨final, hfinal, ?_⟩
      rw [append_assoc] at hall
      exact hall

theorem collectAccountsToStore_returns (h : List.Forall₂ Collectable txs results) :
    ∃ accounts, collectAccountsToStore txs results = .ok accounts := by
  induction h with
  | nil => exact ⟨[], rfl⟩
  | cons hfirst _ ih =>
    obtain ⟨first, hfirst⟩ := hfirst
    obtain ⟨others, hothers⟩ := ih
    refine ⟨first ++ others, ?_⟩
    rw [collectAccountsToStore_cons, hfirst, ok_bind, hothers, ok_bind]

theorem runBatch_returns (store : Store) (horderly : ∀ entry ∈ batch, Orderly p entry.1) :
    ∃ results final, p.runBatch store batch = .ok (results, final) ∧
      results.length = batch.length := by
  obtain ⟨results, hrun, hall⟩ := processAll_returns (new store) horderly
    List.Forall₂.nil (by rw [length_nil, Nat.zero_add])
  obtain ⟨accounts, hcollect⟩ := collectAccountsToStore_returns hall
  refine ⟨results, store.writeAll accounts, ?_, ?_⟩
  · rw [runBatch_eq_finish, Processor.finish, hrun, ok_bind]
    rw [nil_append] at hcollect
    rw [hcollect, ok_bind]
  · have hlength := hall.length_eq
    rw [nil_append, length_map] at hlength
    exact hlength.symm

/-! ## Batch execution refines execution one at a time -/

/-- One batch gives the results and the store that its transactions give one by one; with
    `all_or_nothing` either every result is processed or none; and a batch of orderly transactions
    does return, with a result for each. -/
theorem batch_refines_one_at_a_time (p : Processor) (store : Store)
    (batch : List (SVMMessage × CheckResult)) :
    (p.config.allOrNothing = false → p.runBatch store batch = p.runOneAtATime store batch) ∧
    (p.config.allOrNothing = true → ∀ results,
      p.loadAndExecuteSanitizedTransactions store (batch.map Prod.fst) (batch.map Prod.snd) =
        .ok results → AllOrNone results) ∧
    ((∀ entry ∈ batch, Orderly p entry.1) → ∃ results final,
      p.runBatch store batch = .ok (results, final) ∧ results.length = batch.length) := by
  refine ⟨?_, ?_, runBatch_returns store⟩
  · intro hoff
    rw [runBatch_eq_finish]
    exact finish_eq_runOneAtATime hoff (view_new store)
  · intro hon results hrun
    exact allOrNone_processAll hon (fun _ hmem => absurd hmem not_mem_nil) hrun

/-- A processor for two transactions, the first of which pays its whole balance to account 2. -/
def drainingProcessor (allOrNothing : Bool) : Processor where
  ext := {
    minimumBalance := fun _ => 0
    isExempt := fun _ _ => true
    nonceStateSize := 80
    getSystemAccountKind := fun _ => some .system
    verifyNonceAccount := fun _ _ => none
    setNonceState := fun account _ _ _ => some account
    durableNonceFromBlockhash := fun hash => hash
    programdataAddress := fun _ => none
    constructInstructionsData := fun _ => []
    bpfLoaderUpgradeable := 101
    bpfLoader := 102
    bpfLoaderDeprecated := 103
    loaderV4 := 104
    nativeLoader := 105
    instructionsSysvar := 106
    sysvarOwner := 107 }
  env := {
    blockhash := 0
    blockhashLamportsPerSignature := 5
    relaxPostExecMinBalanceCheck := false
    defineLtdsFeeOnlySemantics := false }
  config := {
    dropOnFailure := false
    allOrNothing := allOrNothing
    strictNonceSizeCheck := false }
  execute := fun _ loaded => {
    status := .ok ()
    accounts :=
      match loaded.accounts with
      | (k₁, a₁) :: (k₂, a₂) :: rest =>
        (k₁, { a₁ with lamports := 0 }) ::
          (k₂, { a₂ with lamports := a₂.lamports + a₁.lamports }) :: rest
      | accounts => accounts
    touchedFlags := loaded.accounts.map fun _ => true }

/-- A transfer from account 1 to account 2. -/
def drain : SVMMessage where
  accountKeys := [1, 2]
  feePayer := 1
  isSigner := fun i => i == 0
  isWritable := fun _ => true
  isInvoked := fun _ => false
  isInstructionAccount := fun _ => true
  numLookupTables := 0
  recentBlockhash := 0
  programInstructions := []
  nonceIxSigners := []

/-- The transfer twice, with a fee of 5. -/
def drainTwice : List (SVMMessage × CheckResult) :=
  List.replicate 2 (drain, .ok {
    nonceAddress := none
    loadedAccountsDataSizeLimit := 1000
    fee := 5
    computeBudget := 0 })

/-- Account 1 holds 100 lamports. -/
def fundedStore : Store :=
  Function.update (fun _ => none) 1 (some { Account.default with lamports := 100 })

/-- The second transfer finds its payer gone, in one batch as one by one, and with
    `all_or_nothing` it takes the first with it. -/
theorem batch_refines_drained :
    (drainingProcessor false).runBatch fundedStore drainTwice =
      (drainingProcessor false).runOneAtATime fundedStore drainTwice ∧
    ((drainingProcessor false).runBatch fundedStore drainTwice).toOption.map
        (fun r => (r.1.map wasProcessed, ((r.2 2).map Account.lamports))) =
      some ([true, false], some 95) ∧
    ((drainingProcessor true).runBatch fundedStore drainTwice).toOption.map
        (fun r => (r.1.map wasProcessed, ((r.2 2).map Account.lamports))) =
      some ([false, false], none) :=
  ⟨(batch_refines_one_at_a_time (drainingProcessor false) fundedStore drainTwice).1 rfl,
    by decide +kernel, by decide +kernel⟩

end Agave.Svm

