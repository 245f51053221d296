/-
  Agave.Svm.AccountLoader

  The account loader of the transaction processor, and everything that loads through it before a
  transaction executes: the nonce and fee payer checks and the loading of a transaction's accounts.

  The loader keeps every account a batch has seen in `loaded_accounts`, in front of the account
  store.  It never drops an entry: an account that a transaction emptied stays there with no
  lamports and reads as absent, and so does the placeholder of an account that was looked up and not
  found.

  What lies in other crates is a parameter (`Externals`): the rent schedule, the parsers of nonce,
  program and system accounts, the serializer of the instructions sysvar and the well-known
  addresses.  Left out are the counters of `TransactionErrorMetrics`, the timings, the inspection
  callback and the slot an entry was last modified in, none of which a modelled function reads.
-/

import Agave.Basic
import Agave.Lib.ViewState

namespace Agave.Svm

open Agave.Lib Function

/-! ## Accounts, messages and what other crates provide -/

/-- `AccountSharedData`. -/
structure Account where
  lamports : Nat
  data : List UInt8
  owner : Pubkey
  executable : Bool
  rentEpoch : Nat
deriving DecidableEq

/-- `AccountSharedData::default`. -/
def Account.default : Account :=
  { lamports := 0, data := [], owner := 0, executable := false, rentEpoch := 0 }

/-- `KeyedAccountSharedData`. -/
abbrev KeyedAccount := Pubkey × Account

/-- `RENT_EXEMPT_RENT_EPOCH`. -/
def rentExemptRentEpoch : Nat := u64Max

/-- `TRANSACTION_ACCOUNT_BASE_SIZE`. -/
def transactionAccountBaseSize : Nat := 64

/-- `ADDRESS_LOOKUP_TABLE_BASE_SIZE`. -/
def addressLookupTableBaseSize : Nat := 8248

/-- `u32::MAX`. -/
def u32Max : Nat := 2 ^ 32 - 1

/-- The errors a modelled function returns; `executionError` stands for those of the execution. -/
inductive TransactionError where
  | accountNotFound
  | programAccountNotFound
  | invalidProgramForExecution
  | invalidAccountForFee
  | insufficientFundsForFee
  | insufficientFundsForRent (accountIndex : Nat)
  | blockhashNotFound
  | maxLoadedAccountsDataSizeExceeded
  | commitCancelled
  | unbalancedTransaction
  | executionError (code : Nat)
deriving DecidableEq

/-- Where a modelled function can panic. -/
inductive Panic where
  /-- `account_keys.get(account_index).unwrap()` of `construct_instructions_account` -/
  | instructionAccountIndex (index : Nat)
  /-- "Serializing into a validated nonce account cannot fail" -/
  | nonceSerialization
  /-- `touched_flags[i]` out of bounds -/
  | touchedFlagIndex (index : Nat)
deriving DecidableEq

/-- One instruction, as `program_instructions_iter` gives it. -/
structure Instruction where
  programId : Pubkey
  accounts : List Nat
  data : List UInt8
deriving DecidableEq

/-- What is read of an `SVMMessage`; the predicates take the index of an account. -/
structure SVMMessage where
  accountKeys : List Pubkey
  feePayer : Pubkey
  isSigner : Nat → Bool
  isWritable : Nat → Bool
  isInvoked : Nat → Bool
  isInstructionAccount : Nat → Bool
  numLookupTables : Nat
  recentBlockhash : Hash
  programInstructions : List Instruction
  /-- `get_ix_signers(NONCED_TX_MARKER_IX_INDEX)` -/
  nonceIxSigners : List Pubkey

inductive SystemAccountKind where
  | system
  | nonce
deriving DecidableEq

/-- The fields read of a parsed nonce. -/
structure NonceData where
  authority : Pubkey
  durableNonce : Hash
deriving DecidableEq

/-- `BorrowedAccountMeta`. -/
structure AccountMeta where
  isSigner : Bool
  isWritable : Bool
  pubkey : Pubkey
deriving DecidableEq

structure BorrowedInstruction where
  accounts : List AccountMeta
  data : List UInt8
  programId : Pubkey
deriving DecidableEq

/-- What the loader takes from other crates. -/
structure Externals where
  /-- `Rent::minimum_balance` -/
  minimumBalance : Nat → Nat
  /-- `Rent::is_exempt` -/
  isExempt : Nat → Nat → Bool
  /-- `NonceState::size` -/
  nonceStateSize : Nat
  getSystemAccountKind : Account → Option SystemAccountKind
  verifyNonceAccount : Account → Hash → Option NonceData
  /-- the account after `set_state` of an initialized nonce: authority, nonce, fee -/
  setNonceState : Account → Pubkey → Hash → Nat → Option Account
  /-- `DurableNonce::from_blockhash` -/
  durableNonceFromBlockhash : Hash → Hash
  /-- the `programdata_address` of an account whose state is `UpgradeableLoaderState::Program` -/
  programdataAddress : Account → Option Pubkey
  constructInstructionsData : List BorrowedInstruction → List UInt8
  bpfLoaderUpgradeable : Pubkey
  bpfLoader : Pubkey
  bpfLoaderDeprecated : Pubkey
  loaderV4 : Pubkey
  nativeLoader : Pubkey
  instructionsSysvar : Pubkey
  sysvarOwner : Pubkey

/-- `PROGRAM_OWNERS`. -/
def Externals.programOwners (ext : Externals) : List Pubkey :=
  [ext.bpfLoaderUpgradeable, ext.bpfLoader, ext.bpfLoaderDeprecated, ext.loaderV4]

/-- What is read of the environment and the feature set. -/
structure Environment where
  blockhash : Hash
  blockhashLamportsPerSignature : Nat
  relaxPostExecMinBalanceCheck : Bool
  defineLtdsFeeOnlySemantics : Bool

/-! ## The store and the loader in front of it -/

/-- The account store, as the writes so far left it. -/
abbrev Store := Pubkey → Option Account

/-- An account without lamports reads as absent. -/
def Account.alive (account : Account) : Option Account :=
  if account.lamports = 0 then none else some account

/-- `get_account_shared_data` of the store. -/
def Store.getAccountSharedData (store : Store) (pubkey : Pubkey) : Option Account :=
  (store pubkey).bind Account.alive

/-- Write a list in order: later writes win. -/
def Store.writeAll (store : Store) (accounts : List KeyedAccount) : Store :=
  accounts.foldl (fun store entry => Function.update store entry.1 (some entry.2)) store

structure AccountLoader where
  loadedAccounts : Pubkey → Option Account
  callbacks : Store

/-- `new_with_loaded_accounts_capacity` without overrides. -/
def AccountLoader.new (store : Store) : AccountLoader :=
  { loadedAccounts := fun _ => none, callbacks := store }

/-- `loaded_accounts.insert`. -/
def AccountLoader.insert (loader : AccountLoader) (pubkey : Pubkey) (account : Account) :
    AccountLoader :=
  { loader with loadedAccounts := Function.update loader.loadedAccounts pubkey (some account) }

/-- `do_load`: the account, and whether the store was asked. -/
def AccountLoader.doLoad (loader : AccountLoader) (pubkey : Pubkey) : Option Account × Bool :=
  match loader.loadedAccounts pubkey with
  | some account => (if account.lamports = 0 then none else some account, false)
  | none =>
    match loader.callbacks.getAccountSharedData pubkey with
    | some account => (some account, true)
    | none => (none, true)

/-- Code that runs over the loader and may panic. -/
abbrev LoaderM := StateT AccountLoader (Except Panic)

def loadAccount (pubkey : Pubkey) : LoaderM (Option Account) := fun loader =>
  match loader.doLoad pubkey with
  | (some account, false) => .ok (some account, loader)
  | (none, false) => .ok (none, loader)
  | (some account, true) => .ok (some account, loader.insert pubkey account)
  | (none, true) => .ok (none, loader.insert pubkey Account.default)

structure LoadedTransactionAccount where
  account : Account
  loadedSize : Nat
deriving DecidableEq

/-- `AccountLoader::load_transaction_account`. -/
def AccountLoader.loadTransactionAccount (pubkey : Pubkey) :
    LoaderM (Option LoadedTransactionAccount) := do
  let account ← loadAccount pubkey
  return account.map fun account =>
    { account := account
      loadedSize := saturatingAdd transactionAccountBaseSize account.data.length }

/-! ## Nonce and fee payer -/

variable (ext : Externals) (message : SVMMessage) (env : Environment)

def updateRentExemptStatusForAccount (account : Account) : Account :=
  if account.rentEpoch ≠ rentExemptRentEpoch ∧
      ext.isExempt account.lamports account.data.length = true then
    { account with rentEpoch := rentExemptRentEpoch }
  else
    account

inductive RentState where
  | uninitialized
  | rentPaying (lamports dataSize : Nat)
  | rentExempt
deriving DecidableEq

def getAccountRentState (lamports size minBalance : Nat) : RentState :=
  if lamports = 0 then .uninitialized
  else if minBalance ≤ lamports then .rentExempt
  else .rentPaying lamports size

def getPreExecAccountRentState (lamports size minBalance : Nat) (disallowRentPaying : Bool) :
    RentState :=
  match getAccountRentState lamports size minBalance with
  | .rentPaying l s => if disallowRentPaying then .rentExempt else .rentPaying l s
  | state => state

def getPostExecAccountRentState (lamports size minBalance : Nat) (preState : RentState)
    (preBalance : Nat) (relaxRentExemptCriteria : Bool) : RentState :=
  if !relaxRentExemptCriteria then getAccountRentState lamports size minBalance
  else if lamports = 0 then .uninitialized
  else if minBalance ≤ lamports then .rentExempt
  else if preState = .rentExempt ∧ preBalance ≤ lamports then .rentExempt
  else .rentPaying lamports size

def transitionAllowed (preState postState : RentState) : Bool :=
  match postState with
  | .uninitialized => true
  | .rentExempt => true
  | .rentPaying postLamports postDataSize =>
    match preState with
    | .uninitialized => false
    | .rentExempt => false
    | .rentPaying preLamports preDataSize =>
      postDataSize = preDataSize && postLamports ≤ preLamports

def checkStaticAccountRentStateTransition (preBalance postBalance dataSize : Nat)
    (accountIndex : Nat) (relax : Bool) : Except TransactionError Unit :=
  let minBalance := ext.minimumBalance dataSize
  let preState := getPreExecAccountRentState preBalance dataSize minBalance relax
  let postState :=
    getPostExecAccountRentState postBalance dataSize minBalance preState preBalance relax
  if !transitionAllowed preState postState then
    .error (.insufficientFundsForRent (accountIndex % 2 ^ 8))
  else
    .ok ()

/-- `validate_fee_payer`: the payer with the fee taken. -/
def validateFeePayer (payer : Account) (payerIndex fee : Nat) (relax : Bool) : Except
    TransactionError Account := do
  if payer.lamports = 0 then
    throw .accountNotFound
  let minBalance ←
    match ext.getSystemAccountKind payer with
    | none => throw .invalidAccountForFee
    | some .system => pure 0
    | some .nonce => pure (ext.minimumBalance ext.nonceStateSize)
  -- the two `checked_sub`s of the balance, first the minimum and then the fee
  if payer.lamports < minBalance ∨ payer.lamports - minBalance < fee then
    throw .insufficientFundsForFee
  if payer.lamports < fee then
    throw .insufficientFundsForFee
  checkStaticAccountRentStateTransition ext payer.lamports (payer.lamports - fee)
    payer.data.length payerIndex relax
  return { payer with lamports := payer.lamports - fee }

structure NonceInfo where
  address : Pubkey
  account : Account
deriving DecidableEq

inductive RollbackAccounts where
  | feePayerOnly (feePayer : KeyedAccount)
  | sameNonceAndFeePayer (nonce : KeyedAccount)
  | separateNonceAndFeePayer (nonce feePayer : KeyedAccount)
deriving DecidableEq

/-- `RollbackAccounts::new`. -/
def RollbackAccounts.new (nonce : Option NonceInfo) (feePayerAddress : Pubkey)
    (feePayerAccount : Account) (feePayerLoadedRentEpoch : Nat) : RollbackAccounts :=
  match nonce with
  | some nonce =>
    if feePayerAddress = nonce.address then
      .sameNonceAndFeePayer
        (feePayerAddress, { feePayerAccount with data := nonce.account.data })
    else
      .separateNonceAndFeePayer (nonce.address, nonce.account) (feePayerAddress, feePayerAccount)
  | none =>
    .feePayerOnly (feePayerAddress, { feePayerAccount with rentEpoch := feePayerLoadedRentEpoch })

/-- `RollbackAccounts::iter`: the fee payer comes first. -/
def RollbackAccounts.iter : RollbackAccounts → List KeyedAccount
  | .feePayerOnly feePayer => [feePayer]
  | .sameNonceAndFeePayer nonce => [nonce]
  | .separateNonceAndFeePayer nonce feePayer => [feePayer, nonce]

/-- `RollbackAccounts::data_size`. -/
def RollbackAccounts.dataSize (rollback : RollbackAccounts) : Nat :=
  rollback.iter.foldl (fun total entry => saturatingAdd total entry.2.data.length) 0

/-- `CheckedTransactionDetails`; `fee` is `fee_details.total_fee()`, and `computeBudget` stands for
    the execution budget, which only the execution reads. -/
structure CheckedTransactionDetails where
  nonceAddress : Option Pubkey
  loadedAccountsDataSizeLimit : Nat
  fee : Nat
  computeBudget : Nat
deriving DecidableEq

structure ValidatedTransactionDetails where
  rollbackAccounts : RollbackAccounts
  computeBudget : Nat
  loadedAccountsBytesLimit : Nat
  fee : Nat
  loadedFeePayerAccount : LoadedTransactionAccount
deriving DecidableEq

/-- Loading code that returns a `TransactionResult`. -/
abbrev LoadM (ε : Type) := ExceptT ε LoaderM

def validateTransactionNonce (nonceAddress : Pubkey) (nextDurableNonce : Hash)
    (nextLamportsPerSignature : Nat) (strictNonceSizeCheck : Bool) : LoadM TransactionError
    NonceInfo := do
  match ← ExceptT.lift (AccountLoader.loadTransactionAccount nonceAddress) with
  | none => throw .accountNotFound
  | some loaded =>
    if strictNonceSizeCheck ∧ ext.getSystemAccountKind loaded.account ≠ some .nonce then
      throw .blockhashNotFound
    else
      match ext.verifyNonceAccount loaded.account message.recentBlockhash with
      | none => throw .blockhashNotFound
      | some nonceData =>
        if nonceData.durableNonce ≠ nextDurableNonce ∧
            message.nonceIxSigners.contains nonceData.authority then
          match ext.setNonceState loaded.account nonceData.authority nextDurableNonce
              nextLamportsPerSignature with
          | none => ExceptT.lift (StateT.lift (.error .nonceSerialization))
          | some account => return { address := nonceAddress, account := account }
        else
          throw .blockhashNotFound

def validateTransactionFeePayer (nonceInfo : Option NonceInfo) (checked : CheckedTransactionDetails)
    (relax : Bool) : LoadM TransactionError ValidatedTransactionDetails := do
  match ← ExceptT.lift (AccountLoader.loadTransactionAccount message.feePayer) with
  | none => throw .accountNotFound
  | some loaded =>
    let updated := updateRentExemptStatusForAccount ext loaded.account
    match validateFeePayer ext updated 0 checked.fee relax with
    | .error e => throw e
    | .ok payer =>
      return {
        fee := checked.fee
        rollbackAccounts :=
          RollbackAccounts.new nonceInfo message.feePayer payer loaded.account.rentEpoch
        loadedAccountsBytesLimit := checked.loadedAccountsDataSizeLimit
        computeBudget := checked.computeBudget
        loadedFeePayerAccount := { loaded with account := payer } }

/-- The `nonce_info` of `validate_transaction_nonce_and_fee_payer`. -/
def validateNonceInfo (strictNonceSizeCheck : Bool) (message : SVMMessage) :
    Option Pubkey → LoadM TransactionError (Option NonceInfo)
  | some nonceAddress => do
    let nonce ← validateTransactionNonce ext message nonceAddress
      (ext.durableNonceFromBlockhash env.blockhash) env.blockhashLamportsPerSignature
      strictNonceSizeCheck
    return some nonce
  | none => return none

def validateTransactionNonceAndFeePayer (strictNonceSizeCheck : Bool)
    (message : SVMMessage) (checked : CheckedTransactionDetails) : LoadM TransactionError
    ValidatedTransactionDetails := do
  let nonceInfo ← validateNonceInfo ext env strictNonceSizeCheck message checked.nonceAddress
  validateTransactionFeePayer ext message nonceInfo checked env.relaxPostExecMinBalanceCheck

/-! ## A transaction's accounts -/

structure LoadedTransactionDataSize where
  loadedAccountsDataSize : Nat
  requestedLimit : Nat
deriving DecidableEq

/-- `LoadedTransactionDataSize::with_max_size`. -/
def LoadedTransactionDataSize.withMaxSize (limit : Nat) : LoadedTransactionDataSize :=
  { loadedAccountsDataSize := 0, requestedLimit := limit }

/-- The conversion into `u32`. -/
def LoadedTransactionDataSize.toU32 (size : LoadedTransactionDataSize) : Nat :=
  min size.loadedAccountsDataSize size.requestedLimit

/-- A load error, with the size counted until then, which a fees-only result reports. -/
abbrev LoadError := TransactionError × LoadedTransactionDataSize

/-- `increase_calculated_data_size`. -/
def LoadedTransactionDataSize.increase (size : LoadedTransactionDataSize) (delta : Nat) :
    Except LoadError LoadedTransactionDataSize :=
  if u32Max < delta then
    .error (.maxLoadedAccountsDataSizeExceeded, { size with loadedAccountsDataSize := u32Max })
  else
    let size :=
      { size with loadedAccountsDataSize := min (size.loadedAccountsDataSize + delta) u32Max }
    if size.requestedLimit < size.loadedAccountsDataSize then
      .error (.maxLoadedAccountsDataSizeExceeded, size)
    else
      .ok size

/-- One account of a decompiled instruction. -/
def borrowAccountMeta (accountIndex : Nat) : Except Panic AccountMeta :=
  match message.accountKeys[accountIndex]? with
  | none => .error (.instructionAccountIndex accountIndex)
  | some pubkey => .ok {
      isSigner := message.isSigner accountIndex
      isWritable := message.isWritable accountIndex
      pubkey := pubkey }

/-- One turn of the loop of `construct_instructions_account`. -/
def borrowInstruction (instruction : Instruction) : Except Panic BorrowedInstruction := do
  let accounts ← instruction.accounts.mapM (borrowAccountMeta message)
  .ok { accounts := accounts, data := instruction.data, programId := instruction.programId }

def constructInstructionsAccount : Except Panic Account := do
  let instructions ← message.programInstructions.mapM (borrowInstruction message)
  .ok { Account.default with
    data := ext.constructInstructionsData instructions
    owner := ext.sysvarOwner }

/-- The free function `load_transaction_account`. -/
def loadTransactionAccount (accountKey : Pubkey) (accountIndex : Nat) : LoaderM
    LoadedTransactionAccount := do
  if accountKey = ext.instructionsSysvar then
    let account ← StateT.lift (constructInstructionsAccount ext message)
    return { loadedSize := 0, account := account }
  else
    match ← AccountLoader.loadTransactionAccount accountKey with
    | some loaded =>
      if message.isWritable accountIndex then
        return { loaded with account := updateRentExemptStatusForAccount ext loaded.account }
      else
        return loaded
    | none =>
      let account := { Account.default with rentEpoch := rentExemptRentEpoch }
      return { loadedSize := account.data.length, account := account }

/-- The variables `collect_loaded_account` closes over. -/
structure Collected where
  dataSize : LoadedTransactionDataSize
  accounts : List KeyedAccount
  additionalLoadedAccounts : List Pubkey

variable (collected : Collected)

/-- The `programdata_address` of a valid LoaderV3 program. -/
def loaderV3Programdata (account : Account) : Option Pubkey :=
  if account.owner = ext.bpfLoaderUpgradeable then ext.programdataAddress account else none

/-- The part of `collect_loaded_account` that counts a programdata account, once only. -/
def countProgramdata : Option Pubkey → LoadM LoadError Collected
  | none => return collected
  | some address =>
    if message.accountKeys.contains address ||
        collected.additionalLoadedAccounts.contains address then
      return collected
    else do
      match ← ExceptT.lift (loadAccount address) with
      -- a missing programdata account is not a load failure
      | none => return collected
      | some programdataAccount =>
        let dataSize ← ExceptT.mk (pure (collected.dataSize.increase
          (saturatingAdd transactionAccountBaseSize programdataAccount.data.length)))
        return { collected with
          dataSize := dataSize
          additionalLoadedAccounts := address :: collected.additionalLoadedAccounts }

def collectLoadedAccount (key : Pubkey) (loaded : LoadedTransactionAccount)
    : LoadM LoadError Collected := do
  let dataSize ← ExceptT.mk (pure (collected.dataSize.increase loaded.loadedSize))
  let collected ← countProgramdata message { collected with dataSize := dataSize }
    (loaderV3Programdata ext loaded.account)
  return { collected with accounts := collected.accounts ++ [(key, loaded.account)] }

/-- One turn of the loop over the accounts after the fee payer. -/
def loadAndCollect (entry : Pubkey × Nat) : LoadM LoadError Collected := do
  let loaded ← ExceptT.lift (loadTransactionAccount ext message entry.1 entry.2)
  collectLoadedAccount ext message collected entry.1 loaded

/-- One turn of the loop over the programs. -/
def checkProgram (instruction : Instruction) : LoadM LoadError Collected := do
  match ← ExceptT.lift (loadAccount instruction.programId) with
  | none => throw (.programAccountNotFound, collected.dataSize)
  | some program =>
    if program.owner ≠ ext.nativeLoader ∧ ¬ ext.programOwners.contains program.owner then
      throw (.invalidProgramForExecution, collected.dataSize)
    else
      return collected

/-- `load_transaction_accounts`: the accounts, with the size counted. -/
def loadTransactionAccounts (loadedFeePayerAccount : LoadedTransactionAccount)
    (dataSize : LoadedTransactionDataSize) : LoadM LoadError Collected := do
  let dataSize ← ExceptT.mk (pure
    (dataSize.increase (min (message.numLookupTables * addressLookupTableBaseSize) u64Max)))
  let feePayer ← collectLoadedAccount ext message
    { dataSize := dataSize, accounts := [], additionalLoadedAccounts := [] }
    message.feePayer loadedFeePayerAccount
  let collected ← (message.accountKeys.zipIdx.drop 1).foldlM (loadAndCollect ext message) feePayer
  message.programInstructions.foldlM (checkProgram ext) collected

structure LoadedTransaction where
  accounts : List KeyedAccount
  touchedFlags : List Bool
  fee : Nat
  rollbackAccounts : RollbackAccounts
  computeBudget : Nat
  loadedAccountsDataSize : Nat
deriving DecidableEq

structure FeesOnlyTransaction where
  loadError : TransactionError
  rollbackAccounts : RollbackAccounts
  fee : Nat
  loadedAccountsDataSize : Nat
deriving DecidableEq

inductive TransactionLoadResult where
  | loaded (transaction : LoadedTransaction)
  | feesOnly (transaction : FeesOnlyTransaction)
  | notLoaded (error : TransactionError)
deriving DecidableEq

def loadTransaction (message : SVMMessage)
    (validation : Except TransactionError ValidatedTransactionDetails) : LoaderM
    TransactionLoadResult := do
  match validation with
  | .error e => return .notLoaded e
  | .ok details =>
    match ← (loadTransactionAccounts ext message details.loadedFeePayerAccount
        (LoadedTransactionDataSize.withMaxSize details.loadedAccountsBytesLimit)).run with
    | .ok collected => return .loaded {
        accounts := collected.accounts
        touchedFlags := []
        fee := details.fee
        rollbackAccounts := details.rollbackAccounts
        computeBudget := details.computeBudget
        loadedAccountsDataSize := collected.dataSize.toU32 }
    | .error (e, dataSize) => return .feesOnly {
        loadError := e
        fee := details.fee
        loadedAccountsDataSize :=
          if env.defineLtdsFeeOnlySemantics then dataSize.toU32
          else details.rollbackAccounts.dataSize % 2 ^ 32
        rollbackAccounts := details.rollbackAccounts }

/-! ## Every load is answered from one view -/

/-- What a load of each key answers. -/
def AccountLoader.view (loader : AccountLoader) (pubkey : Pubkey) : Option Account :=
  (loader.doLoad pubkey).1

variable {loader : AccountLoader} {pubkey : Pubkey} {account : Account} {store : Store}

theorem AccountLoader.view_of_some (h : loader.loadedAccounts pubkey = some account) :
    loader.view pubkey = account.alive := by
  simp only [AccountLoader.view, AccountLoader.doLoad, h, Account.alive]

theorem AccountLoader.view_of_none (h : loader.loadedAccounts pubkey = none) :
    loader.view pubkey = loader.callbacks.getAccountSharedData pubkey := by
  simp only [AccountLoader.view, AccountLoader.doLoad, h]
  cases loader.callbacks.getAccountSharedData pubkey <;> rfl

theorem AccountLoader.view_new (store : Store) :
    (AccountLoader.new store).view = store.getAccountSharedData := by
  funext pubkey
  exact AccountLoader.view_of_none rfl

/-- An insertion shows as the account, or as nothing if it has no lamports. -/
theorem AccountLoader.view_insert (loader : AccountLoader) (pubkey : Pubkey) (account : Account) :
    (loader.insert pubkey account).view = update loader.view pubkey account.alive := by
  funext key
  by_cases hkey : key = pubkey
  · subst hkey
    rw [update_self]
    have hself : (loader.insert key account).loadedAccounts key = some account :=
      update_self ..
    exact AccountLoader.view_of_some hself
  · have hother : (loader.insert pubkey account).loadedAccounts key = loader.loadedAccounts key :=
      update_of_ne hkey _ _
    rw [update_of_ne hkey]
    cases hcached : loader.loadedAccounts key with
    | some cached =>
      rw [AccountLoader.view_of_some hcached]
      exact AccountLoader.view_of_some (hother.trans hcached)
    | none =>
      rw [AccountLoader.view_of_none hcached]
      exact AccountLoader.view_of_none (hother.trans hcached)

theorem Store.getAccountSharedData_write (store : Store) (pubkey : Pubkey) (account : Account) :
    Store.getAccountSharedData (update store pubkey (some account)) =
      update store.getAccountSharedData pubkey account.alive := by
  funext key
  by_cases hkey : key = pubkey
  · subst hkey
    rw [Store.getAccountSharedData, update_self, update_self]
    rfl
  · rw [Store.getAccountSharedData, update_of_ne hkey, update_of_ne hkey,
      Store.getAccountSharedData]

theorem Store.getAccountSharedData_eq_some_iff :
    store.getAccountSharedData pubkey = some account ↔
      store pubkey = some account ∧ account.lamports ≠ 0 := by
  rw [Store.getAccountSharedData, Option.bind_eq_some_iff]
  constructor
  · rintro ⟨stored, hstored, halive⟩
    obtain ⟨hne, ⟨⟩⟩ := Option.ite_none_left_eq_some.mp halive
    exact ⟨hstored, hne⟩
  · rintro ⟨hstored, hne⟩
    exact ⟨account, hstored, if_neg hne⟩

theorem Store.alive_of_getAccountSharedData
    (h : store.getAccountSharedData pubkey = some account) : account.alive = some account :=
  if_neg (Store.getAccountSharedData_eq_some_iff.mp h).2

/-- A load answers the view, and what it caches is what the view already showed. -/
theorem loadAccount_run (pubkey : Pubkey) (loader : AccountLoader) :
    ∃ loader', (loadAccount pubkey).run loader = .ok (loader.view pubkey, loader') ∧
      loader'.view = loader.view := by
  cases hcached : loader.loadedAccounts pubkey with
  | some account =>
    refine ⟨loader, ?_, rfl⟩
    rw [AccountLoader.view_of_some hcached, Account.alive]
    by_cases hzero : account.lamports = 0
    · simp [loadAccount, StateT.run, AccountLoader.doLoad, hcached, hzero]
    · simp [loadAccount, StateT.run, AccountLoader.doLoad, hcached, hzero]
  | none =>
    have hview := AccountLoader.view_of_none hcached
    cases hstored : loader.callbacks.getAccountSharedData pubkey with
    | some account =>
      refine ⟨loader.insert pubkey account, ?_, ?_⟩
      · rw [hview]
        simp [loadAccount, StateT.run, AccountLoader.doLoad, hcached, hstored]
      · rw [AccountLoader.view_insert, Store.alive_of_getAccountSharedData hstored,
          ← hstored, ← hview]
        exact update_eq_self pubkey loader.view
    | none =>
      refine ⟨loader.insert pubkey Account.default, ?_, ?_⟩
      · rw [hview]
        simp [loadAccount, StateT.run, AccountLoader.doLoad, hcached, hstored]
      · have hplaceholder : Account.default.alive = none := rfl
        rw [AccountLoader.view_insert, hplaceholder, ← hstored, ← hview]
        exact update_eq_self pubkey loader.view

/-- The panics that loading a message can end in: an instruction of it names an account index it
    does not have, or a nonce account that passed its check has no room for the next nonce. -/
inductive LoadPanic (ext : Externals) (message : SVMMessage) : Panic → Prop where
  | instructionAccountIndex (instruction : Instruction) (index : Nat)
      (hmem : instruction ∈ message.programInstructions) (hindex : index ∈ instruction.accounts)
      (hmissing : message.accountKeys.length ≤ index) :
      LoadPanic ext message (.instructionAccountIndex index)
  | nonceSerialization (account : Account) (nonceData : NonceData) (next : Hash) (lamports : Nat)
      (hverified : ext.verifyNonceAccount account message.recentBlockhash = some nonceData)
      (hfull : ext.setNonceState account nonceData.authority next lamports = none) :
      LoadPanic ext message .nonceSerialization

section

variable (ext : Externals) (message : SVMMessage)

theorem borrowInstruction_stops {instruction : Instruction} {e : Panic}
    (hmem : instruction ∈ message.programInstructions)
    (h : borrowInstruction message instruction = .error e) : LoadPanic ext message e := by
  unfold borrowInstruction at h
  cases haccounts : instruction.accounts.mapM (borrowAccountMeta message) with
  | ok accounts =>
    rw [haccounts] at h
    cases h
  | error e' =>
    rw [haccounts] at h
    cases h
    obtain ⟨index, hindex, hmeta⟩ := mapM_eq_error haccounts
    unfold borrowAccountMeta at hmeta
    split at hmeta
    · rename_i hmissing
      cases hmeta
      exact .instructionAccountIndex instruction index hmem hindex
        (List.getElem?_eq_none_iff.mp hmissing)
    · cases hmeta

/-- The instructions sysvar panics only on an account index the message does not have. -/
theorem constructInstructionsAccount_stops (e : Panic)
    (h : constructInstructionsAccount ext message = .error e) : LoadPanic ext message e := by
  unfold constructInstructionsAccount at h
  cases hinstructions : message.programInstructions.mapM (borrowInstruction message) with
  | ok instructions =>
    rw [hinstructions] at h
    cases h
  | error e' =>
    rw [hinstructions] at h
    cases h
    obtain ⟨instruction, hmem, hstop⟩ := mapM_eq_error hinstructions
    exact borrowInstruction_stops ext message hmem hstop

end

end Agave.Svm

