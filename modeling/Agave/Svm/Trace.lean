/-
  Agave.Svm.Trace

  What a batch writes, transaction by transaction.

  `Processed` says once what one turn of the loop of `load_and_execute_sanitized_transactions` can
  do, in terms of the accounts the store shows: drop the transaction and write nothing, roll it back
  and write the charged fee payer and the advanced nonce, or commit what its execution left. `Trace`
  strings these steps together, and every batch that returns is a trace (`runBatch_trace`), whatever
  its configuration.
-/

import Agave.Svm.Batch

namespace Agave.Svm

open Agave.Lib List

/-! ## What a successful transaction writes -/

/-- The position is writable, touched, and not only invoked. -/
def isWritten (message : SVMMessage) (touchedFlags : List Bool) (i : Nat) : Bool :=
  message.isWritable i && decide (touchedFlags[i]? = some true) &&
    !(message.isInvoked i && !message.isInstructionAccount i)

variable {store : Store} {accounts : List KeyedAccount} {flags : List Bool} {i n : Nat}
  {results : List ProcessingResult} {entry : KeyedAccount} {loader : AccountLoader}
  {message : SVMMessage} {w : Nat → Bool}

theorem isWritable_of_isWritten (h : isWritten message flags i = true) :
    message.isWritable i = true := by
  simp only [isWritten, Bool.and_eq_true] at h
  exact h.1.1

theorem markFeePayerTouched_of_touched (h : flags[i]? = some true) :
    (markFeePayerTouched flags)[i]? = some true := by
  cases flags with
  | nil => cases h
  | cons flag flags =>
    cases i with
    | zero => rfl
    | succ i => exact h

/-- The accounts at the positions that are written. -/
def writtenOf (w : Nat → Bool) (indices : List Nat) (accounts : List KeyedAccount) :
    List KeyedAccount :=
  ((indices.zip accounts).filter fun entry => w entry.1).map Prod.snd

theorem getElem?_of_mem_range_zip {α : Type} {l : List α} {a : α}
    (h : (i, a) ∈ (List.range n).zip l) : i < n ∧ l[i]? = some a := by
  obtain ⟨j, hj⟩ := mem_iff_getElem?.mp h
  obtain ⟨hrange, ha⟩ := getElem?_zip_eq_some.mp hj
  obtain ⟨hlt, hi⟩ := List.getElem?_eq_some_iff.mp hrange
  rw [List.length_range] at hlt
  obtain rfl : j = i := by simpa using hi
  exact ⟨hlt, ha⟩

theorem mem_writtenOf_range (h : entry ∈ writtenOf w (List.range n) accounts) :
    ∃ i, i < n ∧ w i = true ∧ accounts[i]? = some entry := by
  obtain ⟨⟨i, entry⟩, hmem, rfl⟩ := mem_map.mp h
  obtain ⟨hmem, hwritten⟩ := mem_filter.mp hmem
  obtain ⟨hlt, haccount⟩ := getElem?_of_mem_range_zip hmem
  exact ⟨i, hlt, hwritten, haccount⟩

theorem mem_writtenOf (hi : i < n) (hw : w i = true)
    (hentry : accounts[i]? = some entry) : entry ∈ writtenOf w (List.range n) accounts := by
  refine mem_map.mpr ⟨(i, entry), mem_filter.mpr ⟨?_, hw⟩, rfl⟩
  refine mem_of_getElem? (getElem?_zip_eq_some.mpr ⟨?_, hentry⟩)
  exact getElem?_range hi

theorem collectAccountsForSuccessfulTx_eq {collected : List KeyedAccount}
    (h : collectAccountsForSuccessfulTx message accounts flags = .ok collected) :
    collected =
      writtenOf (isWritten message flags) (List.range message.accountKeys.length) accounts := by
  have hone : ∀ entry written, collectAccount message flags entry = .ok written →
      written = if isWritten message flags entry.1 then [entry.2] else [] := by
    intro entry written hwritten
    unfold collectAccount at hwritten
    unfold isWritten
    split at hwritten
    · cases hwritten
      simp_all
    · split at hwritten
      · cases hwritten
      · split at hwritten
        · cases hwritten
          simp_all
        · split at hwritten
          · cases hwritten
            simp_all
          · cases hwritten
            simp_all
  obtain ⟨lists, hlists, hreturn⟩ := bind_eq_ok_iff.mp h
  cases hreturn
  rw [eq_map_of_mapM hone hlists]
  unfold writtenOf
  induction (List.range message.accountKeys.length).zip accounts with
  | nil => rfl
  | cons entry entries ih =>
    rw [map_cons, flatten_cons, ih, filter_cons]
    split
    · rfl
    · rfl

theorem exists_pre_of_post {pre post : List KeyedAccount}
    (hkeys : post.map Prod.fst = pre.map Prod.fst) (h : post[i]? = some entry) :
    ∃ before, pre[i]? = some before ∧ before.1 = entry.1 := by
  have hkey : (pre.map Prod.fst)[i]? = some entry.1 := by
    rw [← hkeys, getElem?_map, h]
    rfl
  rw [getElem?_map] at hkey
  exact Option.map_eq_some_iff.mp hkey

/-- What the writes leave under a key: the last of them, or what was there. -/
theorem Store.writeAll_cases (store : Store) (accounts : List KeyedAccount) (key : Pubkey) :
    (∃ entry ∈ accounts, entry.1 = key ∧ store.writeAll accounts key = some entry.2) ∨
      (∀ entry ∈ accounts, entry.1 ≠ key) ∧ store.writeAll accounts key = store key := by
  induction accounts generalizing store with
  | nil => exact .inr ⟨forall_mem_nil _, rfl⟩
  | cons entry accounts ih =>
    rcases ih (Function.update store entry.1 (some entry.2)) with
      ⟨later, hlater, hkey, hwritten⟩ | ⟨hothers, hkept⟩
    · exact .inl ⟨later, mem_cons_of_mem _ hlater, hkey, hwritten⟩
    · by_cases hkey : entry.1 = key
      · subst hkey
        exact .inl ⟨entry, mem_cons_self, rfl, hkept.trans (Function.update_self ..)⟩
      · exact .inr ⟨forall_mem_cons.mpr ⟨hkey, hothers⟩,
          hkept.trans (Function.update_of_ne (Ne.symm hkey) _ _)⟩

/-! ## What a failed transaction writes -/

/-- The charged fee payer, and the advanced nonce in it or after it. -/
inductive RolledBack (p : Processor) (view : View) (tx : SVMMessage) (payer charged : Account) :
    Option Pubkey → List KeyedAccount → Prop where
  | feePayerOnly : RolledBack p view tx payer charged none
      [(tx.feePayer, { charged with rentEpoch := payer.rentEpoch })]
  | same (advanced : Account) (nonceData : NonceData)
      (hnonce : NonceValidated p view tx ⟨tx.feePayer, advanced⟩ payer nonceData) :
      RolledBack p view tx payer charged (some tx.feePayer)
        [(tx.feePayer, { charged with data := advanced.data })]
  | separate (nonce : NonceInfo) (stored : Account) (nonceData : NonceData)
      (hnonce : NonceValidated p view tx nonce stored nonceData)
      (hother : tx.feePayer ≠ nonce.address) :
      RolledBack p view tx payer charged (some nonce.address)
        [(tx.feePayer, charged), (nonce.address, nonce.account)]

theorem Validated.rolledBack {p : Processor} {view : View} {tx : SVMMessage}
    {checked : CheckedTransactionDetails} {payer charged : Account} {nonce : Option NonceInfo}
    (h : Validated p view tx checked payer charged nonce) :
    RolledBack p view tx payer charged checked.nonceAddress
      (RollbackAccounts.new nonce tx.feePayer charged payer.rentEpoch).iter := by
  have hchecked := h.nonce
  generalize checked.nonceAddress = address at hchecked ⊢
  cases hchecked with
  | none => exact .feePayerOnly
  | some nonce stored nonceData hnonce =>
    rw [RollbackAccounts.new]
    by_cases hsame : tx.feePayer = nonce.address
    · -- the nonce is the fee payer as it was found
      obtain ⟨address, advanced⟩ := nonce
      obtain rfl : tx.feePayer = address := hsame
      obtain rfl : payer = stored := Option.some.inj (h.found.symm.trans hnonce.found)
      rw [if_pos rfl]
      exact .same advanced nonceData hnonce
    · rw [if_neg hsame]
      exact .separate nonce stored nonceData hnonce hsame

/-! ## One transaction -/

/-- `fee_details.total_fee()` of a processed transaction. -/
def ProcessedTransaction.fee : ProcessedTransaction → Nat
  | .executed transaction => transaction.loadedTransaction.fee
  | .feesOnly transaction => transaction.fee

/-- `was_successful`: it was executed, and without an error. -/
def ProcessedTransaction.wasSuccessful : ProcessedTransaction → Bool
  | .executed transaction => transaction.status.toBool
  | .feesOnly _ => false

/-- What a transaction does, by the accounts the store shows: its result and its writes. -/
inductive Processed (p : Processor) (view : View) (tx : SVMMessage) (check : CheckResult) :
    ProcessingResult → List KeyedAccount → Prop where
  | dropped (e : TransactionError) : Processed p view tx check (.error e) []
  | rolledBack (checked : CheckedTransactionDetails) (payer charged : Account)
      (nonce : Option NonceInfo) (processed : ProcessedTransaction) (hcheck : check = .ok checked)
      (hvalidated : Validated p view tx checked payer charged nonce)
      (hfailed : processed.wasSuccessful = false) (hfee : processed.fee = checked.fee) :
      Processed p view tx check (.ok processed)
        (RollbackAccounts.new nonce tx.feePayer charged payer.rentEpoch).iter
  | committed (checked : CheckedTransactionDetails) (payer charged : Account)
      (nonce : Option NonceInfo) (loaded : LoadedTransaction) (accounts : List KeyedAccount)
      (hcheck : check = .ok checked)
      (hvalidated : Validated p view tx checked payer charged nonce)
      (hloaded : AccountsLoaded p.ext view tx charged loaded.accounts)
      (hfee : loaded.fee = checked.fee) (hstatus : (p.execute tx loaded).status = .ok ())
      (hcollected : collectAccountsForSuccessfulTx tx (p.execute tx loaded).accounts
        (markFeePayerTouched (p.execute tx loaded).touchedFlags) = .ok accounts) :
      Processed p view tx check (.ok (.executed (p.executeLoadedTransaction tx loaded))) accounts

variable {p : Processor} {view : View} {tx : SVMMessage} {check : CheckResult}

theorem processed_resultOf {loadResult : TransactionLoadResult}
    (hload : LoadEnds p view tx check loadResult)
    (hcollect : collectAccounts tx (p.resultOf tx loadResult) = .ok accounts) :
    Processed p view tx check (p.resultOf tx loadResult) accounts := by
  cases hload with
  | notLoaded e =>
    cases hcollect
    exact .dropped e
  | feesOnly checked details feesOnly hcheck hdetails hfee hrollback =>
    obtain ⟨payer, charged, nonce, hvalidated, hfee', -, hrollback'⟩ := hdetails
    rw [Processor.resultOf] at hcollect ⊢
    by_cases hdrop : p.config.dropOnFailure = true
    · rw [if_pos hdrop] at hcollect ⊢
      cases hcollect
      exact .dropped _
    · rw [if_neg hdrop] at hcollect ⊢
      cases hcollect
      rw [collectAccountsForFailedTx, hrollback, hrollback']
      exact .rolledBack checked payer charged nonce _ hcheck hvalidated rfl (hfee.trans hfee')
  | loaded checked details loaded hcheck hdetails hfee hrollback haccounts =>
    obtain ⟨payer, charged, nonce, hvalidated, hfee', hpayer, hrollback'⟩ := hdetails
    rw [hpayer] at haccounts
    simp only [Processor.resultOf] at hcollect ⊢
    cases hstatus : (p.executeLoadedTransaction tx loaded).status with
    | ok u =>
      simp only [hstatus, collectAccounts] at hcollect ⊢
      exact .committed checked payer charged nonce loaded accounts hcheck hvalidated haccounts
        (hfee.trans hfee') hstatus hcollect
    | error e =>
      simp only [hstatus] at hcollect ⊢
      by_cases hdrop : p.config.dropOnFailure = true
      · rw [if_pos hdrop] at hcollect ⊢
        cases hcollect
        exact .dropped e
      · rw [if_neg hdrop] at hcollect ⊢
        simp only [collectAccounts, hstatus] at hcollect
        cases hcollect
        have hkept : (p.executeLoadedTransaction tx loaded).loadedTransaction.rollbackAccounts =
            RollbackAccounts.new nonce tx.feePayer charged payer.rentEpoch :=
          hrollback.trans hrollback'
        rw [collectAccountsForFailedTx, hkept]
        refine .rolledBack checked payer charged nonce _ hcheck hvalidated ?_
          (hfee.trans hfee')
        simp only [ProcessedTransaction.wasSuccessful, hstatus]
        rfl

/-- One turn of the loop, from a loader that answers as the store. -/
theorem processTransaction_processed {loader' : AccountLoader} {result : ProcessingResult}
    (hview : loader.view = store.getAccountSharedData)
    (hrun : (p.processTransaction tx check).run loader = .ok (result, loader')) :
    ∃ accounts, collectAccounts tx result = .ok accounts ∧
      Processed p store.getAccountSharedData tx check result accounts ∧
      loader'.view = (store.writeAll accounts).getAccountSharedData := by
  rw [processTransaction_run_eq] at hrun
  obtain ⟨⟨loadResult, loaded⟩, hload, hrest⟩ := bind_eq_ok_iff.mp hrun
  obtain ⟨accounts, hcollect, hok⟩ := bind_eq_ok_iff.mp hrest
  cases hok
  obtain ⟨hloaded, hends⟩ :=
    (answers_load p tx check).yields _ loader hview loadResult loaded hload
  exact ⟨accounts, hcollect, processed_resultOf hends hcollect, view_insertAll hloaded accounts⟩

/-! ## A batch -/

/-- The stores between the transactions of a batch. -/
inductive Trace (p : Processor) :
    Store → List (SVMMessage × CheckResult) → List ProcessingResult → Store → Prop where
  | nil (store : Store) : Trace p store [] [] store
  | cons {store final : Store} {tx : SVMMessage} {check : CheckResult} {result : ProcessingResult}
      {accounts : List KeyedAccount} {batch : List (SVMMessage × CheckResult)}
      {results : List ProcessingResult}
      (hfirst : Processed p store.getAccountSharedData tx check result accounts)
      (hrest : Trace p (store.writeAll accounts) batch results final) :
      Trace p store ((tx, check) :: batch) (result :: results) final

variable {batch : List (SVMMessage × CheckResult)}

theorem Trace.of_dropped (p : Processor) (store : Store) (hlength : results.length = batch.length)
    (h : ∀ result ∈ results, wasProcessed result = false) :
    collectAccountsToStore (batch.map Prod.fst) results = .ok [] ∧
      Trace p store batch results store := by
  induction batch generalizing results with
  | nil =>
    obtain rfl := length_eq_zero_iff.mp hlength
    exact ⟨rfl, .nil store⟩
  | cons entry batch ih =>
    cases results with
    | nil => cases hlength
    | cons result results =>
      obtain ⟨tx, check⟩ := entry
      obtain ⟨hcollect, htrace⟩ := ih (Nat.succ.inj hlength)
        (fun r hr => h r (mem_cons_of_mem result hr))
      cases result with
      | ok processed => cases h (.ok processed) mem_cons_self
      | error e =>
        refine ⟨?_, .cons (.dropped e) htrace⟩
        rw [map_cons, collectAccountsToStore_cons, hcollect]
        rfl

/-- The loop: it was aborted and processed nothing, or the rest of the batch is a trace. -/
theorem processAll_trace {numTxs : Nat} {final : List ProcessingResult}
    (hview : loader.view = store.getAccountSharedData)
    (hnum : numTxs = results.length + batch.length)
    (hrun : outcome (p.processAll numTxs batch results) loader = .ok final) :
    (final.length = numTxs ∧ ∀ result ∈ final, wasProcessed result = false) ∨
      ∃ others accounts, final = results ++ others ∧
        collectAccountsToStore (batch.map Prod.fst) others = .ok accounts ∧
        Trace p store batch others (store.writeAll accounts) := by
  induction batch generalizing results store loader with
  | nil =>
    cases hrun
    exact .inr ⟨[], [], (append_nil results).symm, rfl, .nil store⟩
  | cons entry batch ih =>
    rcases processAll_cons_eq_ok hrun with ⟨hlength, hfailed⟩ | ⟨result, loader', hstep, -, hrest⟩
    · refine .inl ⟨?_, hfailed⟩
      rw [length_cons] at hnum
      omega
    · obtain ⟨accounts, hcollect, hprocessed, hview'⟩ :=
        processTransaction_processed hview hstep
      have hnum' : numTxs = (results ++ [result]).length + batch.length := by
        simp only [length_append, length_cons, length_nil] at hnum ⊢
        omega
      rcases ih hview' hnum' hrest with haborted | ⟨others, written, hfinal, hothers, htrace⟩
      · exact .inl haborted
      · refine .inr ⟨result :: others, accounts ++ written, ?_, ?_, ?_⟩
        · rw [hfinal, append_assoc, singleton_append]
        · rw [map_cons, collectAccountsToStore_cons, hcollect, ok_bind, hothers, ok_bind]
        · rw [Store.writeAll_append]
          exact .cons hprocessed htrace

theorem runBatch_trace {final : Store} (hrun : p.runBatch store batch = .ok (results, final)) :
    Trace p store batch results final := by
  rw [runBatch_eq_finish, Processor.finish] at hrun
  obtain ⟨all, hall, hrest⟩ := bind_eq_ok_iff.mp hrun
  obtain ⟨accounts, hcollect, hok⟩ := bind_eq_ok_iff.mp hrest
  cases hok
  rcases processAll_trace (AccountLoader.view_new store) (Nat.zero_add _).symm hall with
    ⟨hlength, hdropped⟩ | ⟨others, written, hothers, hwritten, htrace⟩
  · obtain ⟨hnothing, htrace⟩ := Trace.of_dropped p store hlength hdropped
    rw [hnothing] at hcollect
    cases hcollect
    exact htrace
  · obtain rfl : results = others := hothers
    rw [hwritten] at hcollect
    cases hcollect
    exact htrace

end Agave.Svm

