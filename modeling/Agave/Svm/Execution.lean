/-
  Agave.Svm.Execution

  `execute_loaded_transaction` around an arbitrary `process_message`: the rent states before and
  after, their comparison, and the sum of the lamports.

  The three checks of rent exemption cover every path by which an account reaches the store: the
  check of the fee deduction for a fee payer that is rolled back, the comparison of rent states for
  what a successful transaction writes, and no check at all for an advanced nonce, which keeps its
  balance and its size.  The relaxed rule accepts a balance below the minimum that did not shrink;
  since the account was exempt before and its data did not grow, the balance is not below the
  minimum after all (`rent_exemption_preserved`).
-/

import Agave.Svm.Trace

namespace Agave.Svm

open Agave.Lib List

/-! ## The checks after the execution -/

/-- `u128::MAX`. -/
def u128Max : Nat := 2 ^ 128 - 1

def transactionAccountsLamportsSum (accounts : List KeyedAccount) : Option Nat :=
  accounts.foldlM
    (fun sum entry =>
      if sum + entry.2.lamports ≤ u128Max then some (sum + entry.2.lamports) else none) 0

structure WritableTransactionAccountStateInfo where
  rentState : RentState
  balance : Nat
  dataSize : Nat
  owner : Pubkey
deriving DecidableEq

def iterWritableAccounts (message : SVMMessage) (accounts : List KeyedAccount) :
    List (Option Account) :=
  (List.range message.accountKeys.length).map fun i =>
    if message.isWritable i then accounts[i]?.map Prod.snd else none

section StateInfo

variable (ext : Externals) (relax : Bool)

/-- One account of `new_pre_exec`. -/
def preExecInfo (account : Account) : WritableTransactionAccountStateInfo where
  rentState := getPreExecAccountRentState account.lamports account.data.length
    (ext.minimumBalance account.data.length) relax
  balance := account.lamports
  dataSize := account.data.length
  owner := account.owner

/-- `TransactionAccountStateInfo::new_pre_exec`. -/
def newPreExec (message : SVMMessage) (accounts : List KeyedAccount) :
    List (Option WritableTransactionAccountStateInfo) :=
  (iterWritableAccounts message accounts).map (Option.map (preExecInfo ext relax))

/-- One account of `new_post_exec`. -/
def postExecInfo (pre : WritableTransactionAccountStateInfo) (account : Account) :
    WritableTransactionAccountStateInfo :=
  let relaxRentExemptCriteria := relax && decide (account.data.length ≤ pre.dataSize) &&
    decide (pre.rentState = .rentExempt) && decide (pre.owner = account.owner)
  { rentState := getPostExecAccountRentState account.lamports account.data.length
      (ext.minimumBalance account.data.length) pre.rentState pre.balance relaxRentExemptCriteria
    balance := account.lamports
    dataSize := account.data.length
    owner := account.owner }

/-- `TransactionAccountStateInfo::new_post_exec`. -/
def newPostExec (message : SVMMessage) (pre : List (Option WritableTransactionAccountStateInfo))
    (accounts : List KeyedAccount) : List (Option WritableTransactionAccountStateInfo) :=
  ((iterWritableAccounts message accounts).zip pre).map fun entry => do
    let account ← entry.1
    let pre ← entry.2
    some (postExecInfo ext relax pre account)

end StateInfo

def checkRentState (incinerator : Pubkey) (preState postState : RentState) (address : Pubkey)
    (index : Nat) : Except TransactionError Unit :=
  if address ≠ incinerator ∧ !transitionAllowed preState postState then
    .error (.insufficientFundsForRent (index % 2 ^ 8))
  else
    .ok ()

/-- One turn of the loop of `verify_changes`. -/
def verifyChange (incinerator address : Pubkey) (index : Nat) :
    Option WritableTransactionAccountStateInfo → Option WritableTransactionAccountStateInfo →
      Except TransactionError Unit
  | some pre, some post => checkRentState incinerator pre.rentState post.rentState address index
  | _, _ => .ok ()

/-- `verify_changes`.  An account that has a state has a key, so the lookup of the key does not
    fail. -/
def verifyChanges (incinerator : Pubkey) (keys : List Pubkey)
    (pre post : List (Option WritableTransactionAccountStateInfo)) : Except TransactionError Unit :=
  forM (keys.zip (pre.zip post)).zipIdx fun entry =>
    verifyChange incinerator entry.1.1 entry.2 entry.1.2.1 entry.1.2.2

/-- What `process_message` returns, and leaves in the transaction context. -/
structure MessageOutcome where
  result : Except TransactionError Unit
  accounts : List KeyedAccount
  touchedFlags : List Bool

/-- `process_message`, and the address whose rent state is not checked.  The keys of a transaction
    context do not change. -/
structure MessageProcessor where
  incinerator : Pubkey
  processMessage : SVMMessage → LoadedTransaction → MessageOutcome
  keys_eq : ∀ tx loaded,
    (processMessage tx loaded).accounts.map Prod.fst = loaded.accounts.map Prod.fst

namespace MessageProcessor

variable (m : MessageProcessor) (ext : Externals) (env : Environment)

/-- `execute_loaded_transaction`, up to the flag of the fee payer. -/
def execute (tx : SVMMessage) (loaded : LoadedTransaction) : Execution :=
  let relax := env.relaxPostExecMinBalanceCheck
  let lamportsBeforeTx := (transactionAccountsLamportsSum loaded.accounts).getD 0
  let pre := newPreExec ext relax tx loaded.accounts
  let outcome := m.processMessage tx loaded
  let verified := do
    outcome.result
    verifyChanges m.incinerator (outcome.accounts.map Prod.fst) pre
      (newPostExec ext relax tx pre outcome.accounts)
  { status := do
      verified
      if transactionAccountsLamportsSum outcome.accounts = some lamportsBeforeTx then .ok ()
      else .error .unbalancedTransaction
    accounts := outcome.accounts
    touchedFlags := outcome.touchedFlags }

/-- The processor of a batch. -/
def processor (config : Config) : Processor where
  ext
  env
  config
  execute := m.execute ext env

end MessageProcessor

/-! ## Rent states -/

/-- No lamports, or enough of them for the data. -/
def RentOk (ext : Externals) (account : Account) : Prop :=
  account.lamports = 0 ∨ ext.minimumBalance account.data.length ≤ account.lamports

variable {ext : Externals} {incinerator : Pubkey}

theorem RentOk.alike {a b : Account} (h : RentOk ext a) (halike : a.Alike b) : RentOk ext b := by
  unfold RentOk
  rw [halike.lamports, halike.data]
  exact h

variable {lamports size minBalance : Nat} {accounts : List KeyedAccount}
  {loaded : LoadedTransaction} {store : Store} {relax : Bool}

theorem preExecState_of_rentOk (relax : Bool) (h : lamports = 0 ∨ minBalance ≤ lamports) :
    getPreExecAccountRentState lamports size minBalance relax =
      if lamports = 0 then .uninitialized else .rentExempt := by
  unfold getPreExecAccountRentState getAccountRentState
  by_cases hzero : lamports = 0
  · rw [if_pos hzero, if_pos hzero]
  · rw [if_neg hzero, if_pos (h.resolve_left hzero), if_neg hzero]

/-- From a state that is not rent paying, only such states are reached. -/
theorem eq_of_transitionAllowed {pre post : RentState} (h : transitionAllowed pre post = true)
    (hpre : pre = .uninitialized ∨ pre = .rentExempt) :
    post = .uninitialized ∨ post = .rentExempt := by
  cases post with
  | uninitialized => exact .inl rfl
  | rentExempt => exact .inr rfl
  | rentPaying lamports size => rcases hpre with rfl | rfl <;> cases h

/-- An account whose state after the execution is not rent paying has no lamports, or the minimum,
    or by the relaxed rule at least what it had when it was exempt. -/
theorem lamports_of_postExecState {preBalance : Nat} {preState : RentState}
    (h : getPostExecAccountRentState lamports size minBalance preState preBalance relax =
        .uninitialized ∨
      getPostExecAccountRentState lamports size minBalance preState preBalance relax =
        .rentExempt) :
    lamports = 0 ∨ minBalance ≤ lamports ∨
      (relax = true ∧ preState = .rentExempt ∧ preBalance ≤ lamports) := by
  unfold getPostExecAccountRentState getAccountRentState at h
  by_cases hzero : lamports = 0
  · exact .inl hzero
  by_cases hmin : minBalance ≤ lamports
  · exact .inr (.inl hmin)
  cases relax with
  | false => simp [hzero, hmin] at h
  | true =>
    by_cases hkept : preState = .rentExempt ∧ preBalance ≤ lamports
    · exact .inr (.inr ⟨rfl, hkept⟩)
    · simp [hzero, hmin, hkept] at h

/-- The comparison of the rent states of an account keeps it in order. -/
theorem RentOk.of_transition (hmono : Monotone ext.minimumBalance) {relaxed : Bool}
    {pre : Account} (hpre : RentOk ext pre) (hsize : relaxed = true → size ≤ pre.data.length)
    (h : transitionAllowed (getPreExecAccountRentState pre.lamports pre.data.length
        (ext.minimumBalance pre.data.length) relax)
      (getPostExecAccountRentState lamports size (ext.minimumBalance size)
        (getPreExecAccountRentState pre.lamports pre.data.length
          (ext.minimumBalance pre.data.length) relax) pre.lamports relaxed) = true) :
    lamports = 0 ∨ ext.minimumBalance size ≤ lamports := by
  rw [preExecState_of_rentOk relax hpre] at h
  have hstate : (if pre.lamports = 0 then RentState.uninitialized else .rentExempt) =
        .uninitialized ∨
      (if pre.lamports = 0 then RentState.uninitialized else .rentExempt) = .rentExempt := by
    split
    · exact .inl rfl
    · exact .inr rfl
  rcases lamports_of_postExecState (eq_of_transitionAllowed h hstate) with
    hzero | hmin | ⟨hrelaxed, hexempt, hkept⟩
  · exact .inl hzero
  · exact .inr hmin
  · -- the account was exempt, has not grown and holds at least as much
    have hne : pre.lamports ≠ 0 := by
      intro hzero
      rw [if_pos hzero] at hexempt
      cases hexempt
    right
    calc ext.minimumBalance size
        ≤ ext.minimumBalance pre.data.length := hmono (hsize hrelaxed)
      _ ≤ pre.lamports := hpre.resolve_left hne
      _ ≤ lamports := hkept

/-! ## What is written is in order -/

theorem RentOk.charged (hmono : Monotone ext.minimumBalance) {payer charged : Account}
    {index fee : Nat} (hpayer : RentOk ext payer)
    (h : validateFeePayer ext payer index fee relax = .ok charged) : RentOk ext charged := by
  obtain ⟨-, -, hcheck, rfl⟩ := validateFeePayer_eq_ok h
  unfold checkStaticAccountRentStateTransition at hcheck
  dsimp only at hcheck
  split at hcheck
  · cases hcheck
  · rename_i hallowed
    exact RentOk.of_transition hmono hpayer (fun _ => Nat.le_refl _) (by simpa using hallowed)

/-- Setting the state of a nonce account leaves its balance and the size of its data. -/
def Externals.SetStateKeepsSize (ext : Externals) : Prop :=
  ∀ account authority nonce lamportsPerSignature after,
    ext.setNonceState account authority nonce lamportsPerSignature = some after →
      after.lamports = account.lamports ∧ after.data.length = account.data.length

/-- The accounts a load finds are in order, but for one address. -/
def ViewRentOk (ext : Externals) (incinerator : Pubkey) (view : View) : Prop :=
  ∀ key account, key ≠ incinerator → view key = some account → RentOk ext account

section Written

variable {p : Processor} {view : View} {tx : SVMMessage} {checked : CheckedTransactionDetails}
  {payer charged : Account} {nonce : Option NonceInfo} (hmono : Monotone p.ext.minimumBalance)
  (hview : ViewRentOk p.ext incinerator view)
  (hvalidated : Validated p view tx checked payer charged nonce)
include hmono hview hvalidated

theorem rentOk_charged (hpayer : tx.feePayer ≠ incinerator) : RentOk p.ext charged := by
  have hpayer := hview tx.feePayer payer hpayer hvalidated.found
  exact (hpayer.alike (alike_updateRentExemptStatus p.ext payer)).charged hmono hvalidated.charge

theorem rentOk_rollback (hnonce : p.ext.SetStateKeepsSize) {address : Option Pubkey}
    (h : RolledBack p view tx payer charged address accounts) :
    ∀ entry ∈ accounts, entry.1 ≠ incinerator → RentOk p.ext entry.2 := by
  have hcharged := rentOk_charged hmono hview hvalidated
  cases h with
  | feePayerOnly =>
    intro entry hentry hkey
    obtain rfl := mem_singleton.mp hentry
    exact (hcharged hkey).alike ⟨rfl, rfl, rfl, rfl⟩
  | same advanced nonceData hfound =>
    intro entry hentry hkey
    obtain rfl := mem_singleton.mp hentry
    have hdata : advanced.data.length = charged.data.length := by
      rw [(hnonce _ _ _ _ _ hfound.advanced).2, hvalidated.charged_alike.2.data]
    have hcharged := hcharged hkey
    unfold RentOk at hcharged ⊢
    rw [hdata]
    exact hcharged
  | separate nonce stored nonceData hfound hother =>
    obtain ⟨hlamports, hlength⟩ := hnonce _ _ _ _ _ hfound.advanced
    intro entry hentry hkey
    rcases mem_cons.mp hentry with rfl | hentry
    · exact hcharged hkey
    · obtain rfl := mem_singleton.mp hentry
      have hstored := hview nonce.address stored hkey hfound.found
      unfold RentOk at hstored ⊢
      rw [hlamports, hlength]
      exact hstored

theorem rentOk_loaded (hloaded : AccountsLoaded p.ext view tx charged accounts) :
    ∀ entry ∈ accounts, entry.1 ≠ incinerator → RentOk p.ext entry.2 := by
  obtain ⟨others, rfl, hothers⟩ := hloaded
  refine forall_mem_cons.mpr ⟨rentOk_charged hmono hview hvalidated, ?_⟩
  intro entry hentry hkey
  obtain ⟨key, -, hentryKey, hfrom⟩ := exists_left_of_mem hothers hentry
  cases hfrom with
  | sysvar _ hlamports => exact .inl hlamports
  | absent _ hlamports _ => exact .inl hlamports
  | stored stored hstored halike =>
    rw [hentryKey] at hkey
    exact (hview key stored hkey hstored).alike halike

end Written

/-! ## A successful transaction -/

variable {message tx : SVMMessage} {m : MessageProcessor} {env : Environment}

theorem status_eq_ok (h : (m.execute ext env tx loaded).status = .ok ()) :
    verifyChanges m.incinerator ((m.processMessage tx loaded).accounts.map Prod.fst)
        (newPreExec ext env.relaxPostExecMinBalanceCheck tx loaded.accounts)
        (newPostExec ext env.relaxPostExecMinBalanceCheck tx
          (newPreExec ext env.relaxPostExecMinBalanceCheck tx loaded.accounts)
          (m.processMessage tx loaded).accounts) = .ok () ∧
      transactionAccountsLamportsSum (m.processMessage tx loaded).accounts =
        some ((transactionAccountsLamportsSum loaded.accounts).getD 0) := by
  simp only [MessageProcessor.execute] at h
  obtain ⟨_, hverified, hsum⟩ := bind_eq_ok_iff.mp h
  obtain ⟨_, -, hverified⟩ := bind_eq_ok_iff.mp hverified
  refine ⟨hverified, ?_⟩
  split at hsum
  · assumption
  · cases hsum

theorem getElem?_iterWritableAccounts {i : Nat} {entry : KeyedAccount}
    (hi : i < message.accountKeys.length) (hwritable : message.isWritable i = true)
    (hentry : accounts[i]? = some entry) :
    (iterWritableAccounts message accounts)[i]? = some (some entry.2) := by
  rw [iterWritableAccounts, getElem?_map, getElem?_range hi, Option.map_some,
    if_pos hwritable, hentry, Option.map_some]

/-- A writable account passed the comparison of its rent states. -/
theorem transition_of_verifyChanges {before after : List KeyedAccount}
    (h : verifyChanges incinerator (after.map Prod.fst) (newPreExec ext relax message before)
      (newPostExec ext relax message (newPreExec ext relax message before) after) = .ok ())
    {i : Nat} {pre post : KeyedAccount} (hi : i < message.accountKeys.length)
    (hwritable : message.isWritable i = true) (hpre : before[i]? = some pre)
    (hpost : after[i]? = some post) (hkey : post.1 ≠ incinerator) :
    transitionAllowed (preExecInfo ext relax pre.2).rentState
      (postExecInfo ext relax (preExecInfo ext relax pre.2) post.2).rentState = true := by
  have hpreInfo : (newPreExec ext relax message before)[i]? =
      some (some (preExecInfo ext relax pre.2)) := by
    rw [newPreExec, getElem?_map, getElem?_iterWritableAccounts hi hwritable hpre]
    rfl
  have hpostInfo : (newPostExec ext relax message (newPreExec ext relax message before) after)[i]? =
      some (some (postExecInfo ext relax (preExecInfo ext relax pre.2) post.2)) := by
    have hzip : ((iterWritableAccounts message after).zip (newPreExec ext relax message before))[i]? =
        some (some post.2, some (preExecInfo ext relax pre.2)) :=
      getElem?_zip_eq_some.mpr
        ⟨getElem?_iterWritableAccounts hi hwritable hpost, hpreInfo⟩
    rw [newPostExec, getElem?_map, hzip]
    rfl
  have hentry : (((post.1, some (preExecInfo ext relax pre.2),
      some (postExecInfo ext relax (preExecInfo ext relax pre.2) post.2)), i)) ∈
      ((after.map Prod.fst).zip ((newPreExec ext relax message before).zip
        (newPostExec ext relax message (newPreExec ext relax message before) after))).zipIdx := by
    rw [mem_zipIdx_iff_getElem?]
    refine getElem?_zip_eq_some.mpr ⟨?_, getElem?_zip_eq_some.mpr ⟨hpreInfo, hpostInfo⟩⟩
    rw [getElem?_map, hpost]
    rfl
  have hcheck := forM_eq_ok_iff.mp h _ hentry
  simp only [verifyChange, checkRentState] at hcheck
  split at hcheck
  · cases hcheck
  · rename_i hallowed
    simpa [hkey] using hallowed

theorem rentOk_collected
    {collected : List KeyedAccount} {flags : List Bool} (hmono : Monotone ext.minimumBalance)
    (hloaded : ∀ entry ∈ loaded.accounts, entry.1 ≠ m.incinerator → RentOk ext entry.2)
    (hstatus : (m.execute ext env tx loaded).status = .ok ())
    (hcollected : collectAccountsForSuccessfulTx tx (m.execute ext env tx loaded).accounts flags =
      .ok collected) : ∀ entry ∈ collected, entry.1 ≠ m.incinerator → RentOk ext entry.2 := by
  intro post hentry hkey
  rw [collectAccountsForSuccessfulTx_eq hcollected] at hentry
  obtain ⟨i, hi, hwritten, hexecuted⟩ := mem_writtenOf_range hentry
  have hwritable := isWritable_of_isWritten hwritten
  have hpost : (m.processMessage tx loaded).accounts[i]? = some post := hexecuted
  obtain ⟨pre, hpre, hkeys⟩ := exists_pre_of_post (m.keys_eq tx loaded) hpost
  have hpreOk : RentOk ext pre.2 :=
    hloaded pre (mem_of_getElem? hpre) (hkeys ▸ hkey)
  refine RentOk.of_transition hmono hpreOk ?_
    (transition_of_verifyChanges (status_eq_ok hstatus).1 hi hwritable hpre hpost hkey)
  intro hrelaxed
  simp only [Bool.and_eq_true, decide_eq_true_eq] at hrelaxed
  exact hrelaxed.1.1.2

/-! ## A batch keeps the accounts rent exempt -/

/-- Every account of a store other than the incinerator has no lamports, or the minimum balance of
    its data size. -/
def Store.RentExempt (store : Store) (ext : Externals) (incinerator : Pubkey) : Prop :=
  ∀ key account, key ≠ incinerator → store key = some account → RentOk ext account

theorem Store.RentExempt.viewRentOk (h : store.RentExempt ext incinerator) :
    ViewRentOk ext incinerator store.getAccountSharedData := by
  intro key account hkey hview
  exact h key account hkey (Store.eq_of_view hview)

theorem Store.RentExempt.writeAll (h : store.RentExempt ext incinerator)
    (haccounts : ∀ entry ∈ accounts, entry.1 ≠ incinerator → RentOk ext entry.2) :
    (store.writeAll accounts).RentExempt ext incinerator := by
  intro key account hkey hstored
  rcases store.writeAll_cases accounts key with ⟨entry, hentry, rfl, hwritten⟩ | ⟨-, hkept⟩
  · rw [hwritten] at hstored
    cases hstored
    exact haccounts entry hentry hkey
  · rw [hkept] at hstored
    exact h key account hkey hstored

section Batch

variable {config : Config} (hmono : Monotone ext.minimumBalance) (hnonce : ext.SetStateKeepsSize)

include hmono hnonce

theorem rentOk_processed {view : View} {check : CheckResult}
    {result : ProcessingResult} (hview : ViewRentOk ext m.incinerator view)
    (h : Processed (m.processor ext env config) view tx check result accounts) :
    ∀ entry ∈ accounts, entry.1 ≠ m.incinerator → RentOk ext entry.2 := by
  cases h with
  | dropped e => exact forall_mem_nil _
  | rolledBack checked payer charged nonce processed _ hvalidated _ _ =>
    exact rentOk_rollback hmono hview hvalidated hnonce hvalidated.rolledBack
  | committed checked payer charged nonce loaded accounts _ hvalidated hloaded _ hstatus
      hcollected =>
    exact rentOk_collected hmono (rentOk_loaded hmono hview hvalidated hloaded) hstatus hcollected

theorem Trace.rentExempt {final : Store} {batch : List (SVMMessage × CheckResult)}
    {results : List ProcessingResult}
    (h : Trace (m.processor ext env config) store batch results final)
    (hstore : store.RentExempt ext m.incinerator) : final.RentExempt ext m.incinerator := by
  induction h with
  | nil store => exact hstore
  | cons hfirst _ ih =>
    exact ih (hstore.writeAll (rentOk_processed hmono hnonce hstore.viewRentOk hfirst))

end Batch

/-- A batch leaves every account with no lamports or the minimum balance, if it found them so:
    whatever its transactions execute, whether they succeed, fail or only pay their fee, and with
    the relaxed check or without it. -/
theorem rent_exemption_preserved (m : MessageProcessor) (ext : Externals) (env : Environment)
    (config : Config) (hmono : Monotone ext.minimumBalance) (hnonce : ext.SetStateKeepsSize)
    {store final : Store} {batch : List (SVMMessage × CheckResult)}
    {results : List ProcessingResult} (hstore : store.RentExempt ext m.incinerator)
    (hrun : (m.processor ext env config).runBatch store batch = .ok (results, final)) :
    final.RentExempt ext m.incinerator :=
  (runBatch_trace hrun).rentExempt hmono hnonce hstore

/-- An instruction by which account 1 pays 60 lamports, and the other account gets them. -/
def transferred (tx : SVMMessage) (i : Nat) (entry : KeyedAccount) : KeyedAccount :=
  if tx.isWritable i && tx.isInstructionAccount i then
    if entry.1 = 1 then (entry.1, { entry.2 with lamports := entry.2.lamports - 60 })
    else (entry.1, { entry.2 with lamports := min (entry.2.lamports + 60) u64Max })
  else entry

theorem transferred_key (tx : SVMMessage) (i : Nat) (entry : KeyedAccount) :
    (transferred tx i entry).1 = entry.1 := by
  unfold transferred
  split
  · split <;> rfl
  · rfl

/-- The execution of this instruction. -/
def transferring : MessageProcessor where
  incinerator := 9
  processMessage := fun tx loaded =>
    { result := .ok ()
      accounts := loaded.accounts.mapIdx (transferred tx)
      touchedFlags := loaded.accounts.map fun _ => true }
  keys_eq := by
    intro tx loaded
    apply List.ext_getElem?
    intro i
    rw [List.getElem?_map, List.getElem?_mapIdx, List.getElem?_map]
    cases loaded.accounts[i]? with
    | none => rfl
    | some entry => exact congrArg some (transferred_key tx i entry)

/-- An account needs ten lamports, and one for each byte. -/
def rentExternals : Externals :=
  { (drainingProcessor false).ext with minimumBalance := fun size => 10 + size }

/-- The first transfer succeeds, the second one fails and is rolled back. -/
theorem rent_exemption_preserved_transferring : ∃ results final,
    (transferring.processor rentExternals (drainingProcessor false).env
      (drainingProcessor false).config).runBatch fundedStore drainTwice = .ok (results, final) ∧
    ((final 1).map Account.lamports, (final 2).map Account.lamports) = (some 30, some 60) ∧
    final.RentExempt rentExternals 9 := by
  have hsome : ((transferring.processor rentExternals (drainingProcessor false).env
      (drainingProcessor false).config).runBatch fundedStore drainTwice).toOption.map
        (fun r => ((r.2 1).map Account.lamports, (r.2 2).map Account.lamports)) =
      some (some 30, some 60) := by
    decide +kernel
  have hstore : fundedStore.RentExempt rentExternals 9 := by
    intro key account _ hstored
    unfold fundedStore at hstored
    by_cases hkey : key = 1
    · subst hkey
      cases hstored
      exact .inr (by decide)
    · rw [Function.update_of_ne hkey] at hstored
      cases hstored
  obtain ⟨r, hrun, hlamports⟩ := exists_ok_of_map hsome
  refine ⟨r.1, r.2, hrun, hlamports, ?_⟩
  exact rent_exemption_preserved transferring rentExternals _ _
    (fun _ _ h => Nat.add_le_add_left h 10)
    (by rintro account _ _ _ after h; cases h; exact ⟨rfl, rfl⟩) hstore hrun

end Agave.Svm
