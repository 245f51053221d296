/-
  Agave.Svm.Loading

  What the validation and the loading of a transaction can end in.

  Everything up to the execution reads the accounts through the loader.  So it ends alike from every
  loader with one view, it panics only as `LoadPanic` says, and what it hands on is described by the
  view alone (`LoadEnds`).  One lemma for each function says all three.
-/

import Agave.Svm.AccountLoader

namespace Agave.Svm

open Agave.Lib List AnswersE

/-! ## What transactions are processed with -/

/-- `TransactionProcessingConfig`, as far as it is read. -/
structure Config where
  dropOnFailure : Bool
  allOrNothing : Bool
  strictNonceSizeCheck : Bool

/-- What an execution gives back: `accounts` and `touched_flags` of the record. -/
structure Execution where
  status : Except TransactionError Unit
  accounts : List KeyedAccount
  touchedFlags : List Bool

/-- What a batch is processed with. -/
structure Processor where
  ext : Externals
  env : Environment
  config : Config
  execute : SVMMessage → LoadedTransaction → Execution

/-- `TransactionCheckResult`. -/
abbrev CheckResult := Except TransactionError CheckedTransactionDetails

/-- The check result, and if it passed the validation of nonce and fee payer. -/
def Processor.validate (p : Processor) (tx : SVMMessage) :
    CheckResult → LoaderM (Except TransactionError ValidatedTransactionDetails)
  | .error e => return .error e
  | .ok checked =>
    (validateTransactionNonceAndFeePayer p.ext p.env p.config.strictNonceSizeCheck tx checked).run

/-- Validate and load a transaction. -/
def Processor.load (p : Processor) (tx : SVMMessage) (check : CheckResult) :
    LoaderM TransactionLoadResult := do
  let validation ← p.validate tx check
  loadTransaction p.ext p.env tx validation

/-! ## What was validated and loaded -/

/-- Two accounts that differ in the rent epoch only. -/
structure Account.Alike (a b : Account) : Prop where
  lamports : b.lamports = a.lamports
  data : b.data = a.data
  owner : b.owner = a.owner
  executable : b.executable = a.executable

theorem Account.Alike.refl (a : Account) : a.Alike a := ⟨rfl, rfl, rfl, rfl⟩

theorem alike_updateRentExemptStatus (ext : Externals) (account : Account) :
    account.Alike (updateRentExemptStatusForAccount ext account) := by
  unfold updateRentExemptStatusForAccount
  split
  · exact ⟨rfl, rfl, rfl, rfl⟩
  · exact .refl account

variable {store : Store} {charged : Account} {accounts : List KeyedAccount}

theorem Store.eq_of_view {key : Pubkey} {account : Account}
    (h : store.getAccountSharedData key = some account) : store key = some account :=
  (getAccountSharedData_eq_some_iff.mp h).1

/-- What the accounts of a store look like to a load. -/
abbrev View := Pubkey → Option Account

/-- The account that is loaded for a key after the fee payer. -/
inductive LoadedFrom (ext : Externals) (view : View) (key : Pubkey) (account : Account) : Prop where
  | sysvar (hkey : key = ext.instructionsSysvar) (hlamports : account.lamports = 0)
  | stored (stored : Account) (hview : view key = some stored) (halike : stored.Alike account)
  | absent (hview : view key = none) (hlamports : account.lamports = 0) (hdata : account.data = [])

/-- The accounts of a loaded transaction: the charged fee payer, then the others. -/
def AccountsLoaded (ext : Externals) (view : View) (tx : SVMMessage) (charged : Account)
    (accounts : List KeyedAccount) : Prop :=
  ∃ others, accounts = (tx.feePayer, charged) :: others ∧
    List.Forall₂ (fun key entry => entry.1 = key ∧ LoadedFrom ext view key entry.2)
      (tx.accountKeys.drop 1) others

/-- What a sanitized transaction satisfies: different keys, no more than an index can name, a
    writable fee payer in front that is not called as a program, and a reserved sysvar. -/
structure Sanitized (ext : Externals) (tx : SVMMessage) : Prop where
  payer : tx.accountKeys.head? = some tx.feePayer
  nodup : tx.accountKeys.Nodup
  length_le : tx.accountKeys.length ≤ 256
  payerWritable : tx.isWritable 0 = true
  payerNotInvoked : tx.isInvoked 0 = false
  sysvarReadonly : ∀ i, tx.accountKeys[i]? = some ext.instructionsSysvar → tx.isWritable i = false

variable {ext : Externals} {tx : SVMMessage} {payer : Account} {view : View}

theorem AccountsLoaded.keys
    (hloaded : AccountsLoaded ext view tx charged accounts) (hsanitized : Sanitized ext tx) :
    accounts.map Prod.fst = tx.accountKeys := by
  obtain ⟨others, rfl, hothers⟩ := hloaded
  have hkeys : others.map Prod.fst = tx.accountKeys.drop 1 := by
    generalize tx.accountKeys.drop 1 = keys at hothers
    induction hothers with
    | nil => rfl
    | cons hentry _ ih => rw [map_cons, ih, hentry.1]
  cases hall : tx.accountKeys with
  | nil =>
    have hpayer := hsanitized.payer
    rw [hall] at hpayer
    cases hpayer
  | cons key keys =>
    have hpayer := hsanitized.payer
    rw [hall] at hpayer hkeys
    cases hpayer
    rw [map_cons, hkeys]
    rfl

/-- A nonce that passed its checks, and the account with the next nonce in it. -/
structure NonceValidated (p : Processor) (view : View) (tx : SVMMessage) (nonce : NonceInfo)
    (stored : Account) (nonceData : NonceData) : Prop where
  found : view nonce.address = some stored
  verified : p.ext.verifyNonceAccount stored tx.recentBlockhash = some nonceData
  unused : nonceData.durableNonce ≠ p.ext.durableNonceFromBlockhash p.env.blockhash
  advanced : p.ext.setNonceState stored nonceData.authority
    (p.ext.durableNonceFromBlockhash p.env.blockhash) p.env.blockhashLamportsPerSignature =
      some nonce.account

/-- The nonce of a transaction, if it has one. -/
inductive NonceChecked (p : Processor) (view : View) (tx : SVMMessage) :
    Option Pubkey → Option NonceInfo → Prop where
  | none : NonceChecked p view tx none none
  | some (nonce : NonceInfo) (stored : Account) (nonceData : NonceData)
      (hvalidated : NonceValidated p view tx nonce stored nonceData) :
      NonceChecked p view tx (some nonce.address) (some nonce)

/-- A transaction that passed the checks of its nonce and its fee payer. -/
structure Validated (p : Processor) (view : View) (tx : SVMMessage)
    (checked : CheckedTransactionDetails) (payer charged : Account) (nonce : Option NonceInfo) :
    Prop where
  found : view tx.feePayer = some payer
  charge : validateFeePayer p.ext (updateRentExemptStatusForAccount p.ext payer) 0 checked.fee
    p.env.relaxPostExecMinBalanceCheck = .ok charged
  nonce : NonceChecked p view tx checked.nonceAddress nonce

/-- A fee payer that passed its check, and what the check leaves of it. -/
theorem validateFeePayer_eq_ok {index fee : Nat} {relax : Bool}
    (h : validateFeePayer ext payer index fee relax = .ok charged) :
    fee ≤ payer.lamports ∧
      (ext.getSystemAccountKind payer = some .system ∨
        ext.getSystemAccountKind payer = some .nonce ∧
          ext.minimumBalance ext.nonceStateSize + fee ≤ payer.lamports) ∧
      checkStaticAccountRentStateTransition ext payer.lamports (payer.lamports - fee)
        payer.data.length index relax = .ok () ∧
      charged = { payer with lamports := payer.lamports - fee } := by
  unfold validateFeePayer at h
  by_cases hzero : payer.lamports = 0
  · rw [if_pos hzero] at h
    cases h
  rw [if_neg hzero] at h
  have hrest : ∀ minBalance : Nat,
      (do
        if payer.lamports < minBalance ∨ payer.lamports - minBalance < fee then
          throw .insufficientFundsForFee
        if payer.lamports < fee then
          throw .insufficientFundsForFee
        checkStaticAccountRentStateTransition ext payer.lamports (payer.lamports - fee)
          payer.data.length index relax
        return { payer with lamports := payer.lamports - fee }) = Except.ok charged →
      minBalance + fee ≤ payer.lamports ∧
        checkStaticAccountRentStateTransition ext payer.lamports (payer.lamports - fee)
          payer.data.length index relax = .ok () ∧
        charged = { payer with lamports := payer.lamports - fee } := by
    intro minBalance h
    by_cases hfunds : payer.lamports < minBalance ∨ payer.lamports - minBalance < fee
    · rw [if_pos hfunds] at h
      cases h
    · by_cases hfee : payer.lamports < fee
      · omega
      · rw [if_neg hfunds, if_neg hfee] at h
        obtain ⟨_, hcheck, hreturn⟩ := bind_eq_ok_iff.mp h
        cases hreturn
        exact ⟨by omega, hcheck, rfl⟩
  cases hkind : ext.getSystemAccountKind payer with
  | none =>
    rw [hkind] at h
    cases h
  | some kind =>
    rw [hkind] at h
    cases kind with
    | system =>
      obtain ⟨hfee, hcheck, hcharged⟩ := hrest 0 h
      exact ⟨by omega, .inl rfl, hcheck, hcharged⟩
    | nonce =>
      obtain ⟨hfee, hcheck, hcharged⟩ := hrest (ext.minimumBalance ext.nonceStateSize) h
      exact ⟨by omega, .inr ⟨rfl, hfee⟩, hcheck, hcharged⟩

/-- The charged fee payer is the account of the store with the fee taken. -/
theorem Validated.charged_alike {p : Processor}
    {checked : CheckedTransactionDetails} {nonce : Option NonceInfo}
    (h : Validated p view tx checked payer charged nonce) :
    checked.fee ≤ payer.lamports ∧
      ({ payer with lamports := payer.lamports - checked.fee }).Alike charged := by
  have halike := alike_updateRentExemptStatus p.ext payer
  obtain ⟨hfee, -, -, rfl⟩ := validateFeePayer_eq_ok h.charge
  rw [halike.lamports] at hfee
  refine ⟨hfee, ?_, halike.data, halike.owner, halike.executable⟩
  exact congrArg (fun lamports => lamports - checked.fee) halike.lamports

/-! ## Validation -/

section Answers

variable (p : Processor) (ext : Externals) (tx : SVMMessage) (collected : Collected) (key : Pubkey)

theorem answers_loadAccount :
    Answers AccountLoader.view (LoadPanic ext tx) (fun view r => r = view key)
      (loadAccount key) := by
  refine ⟨⟨?_, ?_, ?_⟩, ?_⟩
  · intro s t hview
    obtain ⟨s', hs, -⟩ := loadAccount_run key s
    obtain ⟨t', ht, -⟩ := loadAccount_run key t
    rw [outcome_eq_ok_iff.mpr ⟨s', hs⟩, outcome_eq_ok_iff.mpr ⟨t', ht⟩, hview]
  · intro s a s' hrun
    obtain ⟨s'', hs, hview⟩ := loadAccount_run key s
    rw [hs] at hrun
    cases hrun
    exact hview
  · intro s e hrun
    obtain ⟨s', hs, -⟩ := loadAccount_run key s
    rw [hs] at hrun
    cases hrun
  · intro view loader hview account loader' hrun
    obtain ⟨loader'', hrun', hview'⟩ := loadAccount_run key loader
    rw [hrun'] at hrun
    cases hrun
    exact ⟨hview'.trans hview, congrFun hview key⟩

theorem answers_loaderLoadTransactionAccount :
    Answers AccountLoader.view (LoadPanic ext tx)
      (fun view r => r.map LoadedTransactionAccount.account = view key)
      (AccountLoader.loadTransactionAccount key) := by
  refine (answers_loadAccount ext tx key).bind fun account => Answers.pure ?_
  rintro view rfl
  cases view key with
  | none => rfl
  | some account => rfl

theorem answers_validateTransactionNonce (address : Pubkey) :
    AnswersE AccountLoader.view (LoadPanic p.ext tx)
      (fun view nonce => nonce.address = address ∧
        ∃ stored nonceData, NonceValidated p view tx nonce stored nonceData)
      (validateTransactionNonce p.ext tx address (p.ext.durableNonceFromBlockhash p.env.blockhash)
        p.env.blockhashLamportsPerSignature p.config.strictNonceSizeCheck) := by
  refine (lift (answers_loaderLoadTransactionAccount p.ext tx address)).bind fun loaded => ?_
  cases loaded with
  | none => exact throw _
  | some loaded =>
    dsimp only
    split
    · exact throw _
    · split
      · exact throw _
      · rename_i nonceData hverified
        split
        · rename_i hunused
          split
          · rename_i hfull
            refine lift (Answers.liftExcept ?_ ?_)
            · rintro e ⟨⟩
              exact .nonceSerialization loaded.account nonceData _ _ hverified hfull
            · rintro view a ⟨⟩
          · rename_i account hadvanced
            exact pure fun view hloaded => ⟨rfl, loaded.account, nonceData,
              ⟨hloaded.symm, hverified, hunused.1, hadvanced⟩⟩
        · exact throw _

theorem answers_validateNonceInfo (address : Option Pubkey) :
    AnswersE AccountLoader.view (LoadPanic p.ext tx)
      (fun view nonce => NonceChecked p view tx address nonce)
      (validateNonceInfo p.ext p.env p.config.strictNonceSizeCheck tx address) := by
  cases address with
  | none => exact pure fun _ => .none
  | some address =>
    refine (answers_validateTransactionNonce p tx address).bind fun nonce => pure ?_
    rintro view ⟨rfl, stored, nonceData, hvalidated⟩
    exact .some nonce stored nonceData hvalidated

/-- What the validation hands on. -/
def DetailsOf (view : View) (tx : SVMMessage) (checked : CheckedTransactionDetails)
    (details : ValidatedTransactionDetails) : Prop :=
  ∃ payer charged nonce, Validated p view tx checked payer charged nonce ∧
    details.fee = checked.fee ∧ details.loadedFeePayerAccount.account = charged ∧
    details.rollbackAccounts =
      RollbackAccounts.new nonce tx.feePayer charged payer.rentEpoch

theorem answers_validate (checked : CheckedTransactionDetails) :
    AnswersE AccountLoader.view (LoadPanic p.ext tx)
      (fun view details => DetailsOf p view tx checked details)
      (validateTransactionNonceAndFeePayer p.ext p.env p.config.strictNonceSizeCheck tx
        checked) := by
  refine (answers_validateNonceInfo p tx checked.nonceAddress).bind fun nonce => ?_
  refine (lift (answers_loaderLoadTransactionAccount p.ext tx tx.feePayer)).bind fun loaded => ?_
  cases loaded with
  | none => exact throw _
  | some loaded =>
    dsimp only
    split
    · exact throw _
    · rename_i charged hcharged
      exact pure fun view hloaded hnonce => ⟨loaded.account, charged, nonce,
        ⟨hloaded.symm, hcharged, hnonce⟩, rfl, rfl, rfl⟩

/-! ## Loading -/

theorem answers_loadTransactionAccount (index : Nat) :
    Answers AccountLoader.view (LoadPanic ext tx)
      (fun view loaded => LoadedFrom ext view key loaded.account)
      (loadTransactionAccount ext tx key index) := by
  unfold loadTransactionAccount
  split
  · rename_i hkey
    have hzero : ∀ account, constructInstructionsAccount ext tx = .ok account →
        account.lamports = 0 := by
      intro account haccount
      unfold constructInstructionsAccount at haccount
      obtain ⟨instructions, -, hok⟩ := bind_eq_ok_iff.mp haccount
      cases hok
      rfl
    exact (Answers.liftExcept (constructInstructionsAccount_stops ext tx) fun _ => hzero).bind
      fun account => Answers.pure fun view hlamports => .sysvar hkey hlamports
  · refine (answers_loaderLoadTransactionAccount ext tx key).bind fun loaded => ?_
    cases loaded with
    | none => exact Answers.pure fun view hloaded => .absent hloaded.symm rfl rfl
    | some loaded =>
      dsimp only
      split
      · exact Answers.pure fun view hloaded => .stored loaded.account hloaded.symm
          (alike_updateRentExemptStatus ext loaded.account)
      · exact Answers.pure fun view hloaded =>
          .stored loaded.account hloaded.symm (.refl loaded.account)

theorem answers_countProgramdata (programdata : Option Pubkey) :
    AnswersE AccountLoader.view (LoadPanic ext tx)
      (fun _ after => after.accounts = collected.accounts)
      (countProgramdata tx collected programdata) := by
  cases programdata with
  | none => exact pure fun _ => rfl
  | some address =>
    rw [countProgramdata]
    split
    · exact pure fun _ => rfl
    · refine (lift (answers_loadAccount ext tx address)).bind fun account => ?_
      cases account with
      | none => exact pure fun _ _ => rfl
      | some account => exact (ofExcept _).bind fun _ => pure fun _ _ _ => rfl

theorem answers_collectLoadedAccount (loaded : LoadedTransactionAccount) :
    AnswersE AccountLoader.view (LoadPanic ext tx)
      (fun _ after => after.accounts = collected.accounts ++ [(key, loaded.account)])
      (collectLoadedAccount ext tx collected key loaded) := by
  refine (ofExcept _).bind fun dataSize => ?_
  refine (answers_countProgramdata ext tx _ _).bind fun after => pure fun _ hafter _ => ?_
  dsimp only
  rw [hafter]

/-- After the accounts at the positions `seen`, their loaded accounts follow the fee payer. -/
def Loading (view : View) (tx : SVMMessage) (ext : Externals) (charged : Account)
    (seen : List (Pubkey × Nat)) (collected : Collected) : Prop :=
  ∃ others, collected.accounts = (tx.feePayer, charged) :: others ∧
    List.Forall₂ (fun key entry => entry.1 = key ∧ LoadedFrom ext view key entry.2)
      (seen.map Prod.fst) others

theorem answers_loadAndCollect (charged : Account) (seen : List (Pubkey × Nat))
    (entry : Pubkey × Nat) (collected : Collected) :
    AnswersE AccountLoader.view (LoadPanic ext tx)
      (fun view after => Loading view tx ext charged seen collected →
        Loading view tx ext charged (seen ++ [entry]) after)
      (loadAndCollect ext tx collected entry) := by
  refine (lift (answers_loadTransactionAccount ext tx entry.1 entry.2)).bind fun loaded => ?_
  refine (answers_collectLoadedAccount ext tx collected entry.1 loaded).mono ?_
  rintro view after hafter hloaded ⟨others, haccounts, hothers⟩
  refine ⟨others ++ [(entry.1, loaded.account)], ?_, ?_⟩
  · rw [hafter, haccounts, cons_append]
  · rw [map_append]
    exact rel_append hothers (.cons ⟨rfl, hloaded⟩ .nil)

theorem answers_checkProgram (instruction : Instruction) :
    AnswersE AccountLoader.view (LoadPanic ext tx) (fun _ after => after = collected)
      (checkProgram ext collected instruction) := by
  refine (lift (answers_loadAccount ext tx instruction.programId)).bind fun program => ?_
  cases program with
  | none => exact throw _
  | some program =>
    dsimp only
    split
    · exact throw _
    · exact pure fun _ _ => rfl

theorem answers_loadTransactionAccounts (payer : LoadedTransactionAccount)
    (dataSize : LoadedTransactionDataSize) :
    AnswersE AccountLoader.view (LoadPanic ext tx)
      (fun view collected => AccountsLoaded ext view tx payer.account collected.accounts)
      (loadTransactionAccounts ext tx payer dataSize) := by
  refine (ofExcept _).bind fun dataSize => ?_
  refine (answers_collectLoadedAccount ext tx _ _ _).bind fun first => ?_
  refine (foldlM (answers_loadAndCollect ext tx payer.account) _ first).bind fun collected => ?_
  let inv : View → List Instruction → Collected → Prop := fun _ _ after => after = collected
  have hprograms : AnswersE AccountLoader.view (LoadPanic ext tx)
      (fun view after => inv view [] collected → inv view tx.programInstructions after)
      (tx.programInstructions.foldlM (checkProgram ext) collected) := by
    refine foldlM (fun _ instruction collected' => ?_) _ collected
    exact (answers_checkProgram ext tx collected' instruction).mono
      fun _ _ hafter hinv => hafter.trans hinv
  refine hprograms.mono ?_
  rintro view after hafter hcollected hfirst -
  obtain rfl : after = collected := hafter rfl
  obtain ⟨others, haccounts, hothers⟩ := hcollected ⟨[], hfirst, .nil⟩
  refine ⟨others, haccounts, ?_⟩
  rw [map_drop, zipIdx_map_fst] at hothers
  exact hothers

/-- What a load ends in. -/
inductive LoadEnds (view : View) (tx : SVMMessage) (check : CheckResult) :
    TransactionLoadResult → Prop where
  | notLoaded (e : TransactionError) : LoadEnds view tx check (.notLoaded e)
  | feesOnly (checked : CheckedTransactionDetails) (details : ValidatedTransactionDetails)
      (feesOnly : FeesOnlyTransaction) (hcheck : check = .ok checked)
      (hdetails : DetailsOf p view tx checked details) (hfee : feesOnly.fee = details.fee)
      (hrollback : feesOnly.rollbackAccounts = details.rollbackAccounts) :
      LoadEnds view tx check (.feesOnly feesOnly)
  | loaded (checked : CheckedTransactionDetails) (details : ValidatedTransactionDetails)
      (loaded : LoadedTransaction) (hcheck : check = .ok checked)
      (hdetails : DetailsOf p view tx checked details) (hfee : loaded.fee = details.fee)
      (hrollback : loaded.rollbackAccounts = details.rollbackAccounts)
      (haccounts : AccountsLoaded p.ext view tx details.loadedFeePayerAccount.account
        loaded.accounts) :
      LoadEnds view tx check (.loaded loaded)

theorem answers_load (check : CheckResult) :
    Answers AccountLoader.view (LoadPanic p.ext tx)
      (fun view loadResult => LoadEnds p view tx check loadResult) (p.load tx check) := by
  unfold Processor.load
  cases check with
  | error e =>
    exact Answers.pure fun _ => .notLoaded e
  | ok checked =>
    refine (iff_run.mp (answers_validate p tx checked)).bind fun validation => ?_
    unfold loadTransaction
    cases validation with
    | error e => exact Answers.pure fun _ _ => .notLoaded e
    | ok details =>
      refine (iff_run.mp (answers_loadTransactionAccounts p.ext tx details.loadedFeePayerAccount
        (.withMaxSize details.loadedAccountsBytesLimit))).bind fun r => ?_
      cases r with
      | ok collected =>
        exact Answers.pure fun view hloaded hdetails =>
          .loaded checked details _ rfl (hdetails details rfl) rfl rfl (hloaded collected rfl)
      | error e =>
        exact Answers.pure fun view _ hdetails =>
          .feesOnly checked details _ rfl (hdetails details rfl) rfl rfl

end Answers

end Agave.Svm
