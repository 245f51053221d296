/-
  Agave.Svm.NonceReplay

  Why a durable nonce is spent at most once in a slot.

  Once a nonce transaction was processed, its nonce account holds the durable nonce of the slot: the
  rollback copy does if it failed, and if it succeeded the advance put it there.  From then on no
  instruction of the system program gives it another one (`holdsNonce_apply`): it cannot be advanced
  again, a withdrawal of everything is refused, so it cannot be closed and created anew, and a fee
  leaves it above the minimum balance.  A nonce transaction on it fails its validation.

  The format of nonce accounts belongs to another crate; what is used of it is `NonceCodec`.  The
  checks that the account may be changed at all, which the setters of an instruction account make,
  are left out: they can only make an instruction fail.
-/

import Agave.Layouts
import Agave.Svm.Trace

namespace Agave.Svm

open Agave.Lib List

/-! ## Nonce accounts -/

/-- `nonce::state::Data`. -/
structure NonceFields where
  authority : Pubkey
  durableNonce : Hash
  lamportsPerSignature : Nat
deriving DecidableEq

/-- `nonce::state::State`. -/
inductive NonceState where
  | uninitialized
  | initialized (data : NonceFields)
deriving DecidableEq

/-- `nonce::versions::Versions`. -/
inductive NonceVersions where
  | legacy (state : NonceState)
  | current (state : NonceState)
deriving DecidableEq

/-- `Versions::state`. -/
def NonceVersions.state : NonceVersions → NonceState
  | legacy state => state
  | current state => state

/-- `Versions::new`. -/
def NonceVersions.new (state : NonceState) : NonceVersions := .current state

/-- The version with another state, as `Versions::authorize` makes it. -/
def NonceVersions.withState (versions : NonceVersions) (state : NonceState) : NonceVersions :=
  match versions with
  | legacy _ => .legacy state
  | current _ => .current state

/-- How the state of a nonce account is read from its data and written to it. -/
structure NonceCodec where
  systemProgram : Pubkey
  getState : List UInt8 → Option NonceVersions
  setState : List UInt8 → NonceVersions → Option (List UInt8)
  getState_nil : getState [] = none
  getState_setState : ∀ {data versions after},
    setState data versions = some after → getState after = some versions

/-- The functions of the loader that read and write nonce accounts do it by the codec, and a nonce
    account needs lamports. -/
structure NonceCodec.Agrees (codec : NonceCodec) (ext : Externals) : Prop where
  verify : ∀ account hash, ext.verifyNonceAccount account hash =
    if account.owner = codec.systemProgram then
      match codec.getState account.data with
      | some (.current (.initialized data)) =>
        if hash = data.durableNonce then some ⟨data.authority, data.durableNonce⟩ else none
      | _ => none
    else none
  set : ∀ account authority nonce lamportsPerSignature,
    ext.setNonceState account authority nonce lamportsPerSignature =
      (codec.setState account.data
        (.new (.initialized ⟨authority, nonce, lamportsPerSignature⟩))).map
          fun data => { account with data := data }
  kind : ∀ account, ext.getSystemAccountKind account =
    if account.owner = codec.systemProgram then
      if account.data = [] then some .system
      else if account.data.length = ext.nonceStateSize then
        match (codec.getState account.data).map NonceVersions.state with
        | some (.initialized _) => some .nonce
        | _ => none
      else none
    else none
  rent : 0 < ext.minimumBalance ext.nonceStateSize

/-! ## The instructions of the system program -/

/-- The errors of these instructions; `nonceBlockhashNotExpired` is a `SystemError`. -/
inductive InstructionError where
  | invalidArgument
  | missingRequiredSignature
  | invalidAccountData
  | accountDataTooSmall
  | insufficientFunds
  | arithmeticOverflow
  | nonceBlockhashNotExpired
deriving DecidableEq

section Instructions

variable (codec : NonceCodec) (ext : Externals) (env : Environment)

/-- The durable nonce of the slot. -/
def nextDurableNonce : Hash := ext.durableNonceFromBlockhash env.blockhash

/-- `set_state` of an instruction account. -/
def setVersions (account : Account) (versions : NonceVersions) : Except InstructionError Account :=
  match codec.setState account.data versions with
  | none => .error .accountDataTooSmall
  | some data => .ok { account with data := data }

def checkedSubLamports (account : Account) (lamports : Nat) : Except InstructionError Account :=
  if account.lamports < lamports then .error .arithmeticOverflow
  else .ok { account with lamports := account.lamports - lamports }

def advanceNonceAccount (isWritable : Bool) (signers : List Pubkey) (account : Account) :
    Except InstructionError Account :=
  if !isWritable then .error .invalidArgument
  else
    match (codec.getState account.data).map NonceVersions.state with
    | none => .error .invalidAccountData
    | some (.initialized data) =>
      if !signers.contains data.authority then .error .missingRequiredSignature
      else if data.durableNonce = nextDurableNonce ext env then .error .nonceBlockhashNotExpired
      else
        setVersions codec account (.new (.initialized
          ⟨data.authority, nextDurableNonce ext env, env.blockhashLamportsPerSignature⟩))
    | some .uninitialized => .error .invalidAccountData

/-- `withdraw_nonce_account`, on the account that is withdrawn from. -/
def withdrawNonceAccount (key : Pubkey) (isWritable : Bool) (lamports : Nat)
    (signers : List Pubkey) (account : Account) : Except InstructionError Account :=
  if !isWritable then .error .invalidArgument
  else
    match (codec.getState account.data).map NonceVersions.state with
    | none => .error .invalidAccountData
    | some .uninitialized =>
      if account.lamports < lamports then .error .insufficientFunds
      else if !signers.contains key then .error .missingRequiredSignature
      else checkedSubLamports account lamports
    | some (.initialized data) =>
      if lamports = account.lamports then
        if data.durableNonce = nextDurableNonce ext env then .error .nonceBlockhashNotExpired
        else if !signers.contains data.authority then .error .missingRequiredSignature
        else do
          let account ← setVersions codec account (.new .uninitialized)
          checkedSubLamports account lamports
      else
        -- `checked_add` of the minimum balance
        let amount := lamports + ext.minimumBalance account.data.length
        if u64Max < amount then .error .insufficientFunds
        else if account.lamports < amount then .error .insufficientFunds
        else if !signers.contains data.authority then .error .missingRequiredSignature
        else checkedSubLamports account lamports

def initializeNonceAccount (isWritable : Bool) (nonceAuthority : Pubkey) (account : Account) :
    Except InstructionError Account :=
  if !isWritable then .error .invalidArgument
  else
    match (codec.getState account.data).map NonceVersions.state with
    | none => .error .invalidAccountData
    | some .uninitialized =>
      if account.lamports < ext.minimumBalance account.data.length then .error .insufficientFunds
      else
        setVersions codec account (.new (.initialized
          ⟨nonceAuthority, nextDurableNonce ext env, env.blockhashLamportsPerSignature⟩))
    | some (.initialized _) => .error .invalidAccountData

def authorizeNonceAccount (isWritable : Bool) (nonceAuthority : Pubkey) (signers : List Pubkey)
    (account : Account) : Except InstructionError Account :=
  if !isWritable then .error .invalidArgument
  else
    match codec.getState account.data with
    | none => .error .invalidAccountData
    | some versions =>
      match versions.state with
      | .uninitialized => .error .invalidAccountData
      | .initialized data =>
        if !signers.contains data.authority then .error .missingRequiredSignature
        else
          setVersions codec account
            (versions.withState (.initialized { data with authority := nonceAuthority }))

/-- What may happen to a system account with data; anyone may add lamports to it. -/
inductive NonceOp where
  | advance (isWritable : Bool) (signers : List Pubkey)
  | withdraw (key : Pubkey) (isWritable : Bool) (lamports : Nat) (signers : List Pubkey)
  | initializeNonce (isWritable : Bool) (nonceAuthority : Pubkey)
  | authorize (isWritable : Bool) (nonceAuthority : Pubkey) (signers : List Pubkey)
  | credit (lamports : Nat)
deriving DecidableEq

/-- One of these on an account. -/
def NonceOp.apply (account : Account) : NonceOp → Except InstructionError Account
  | advance isWritable signers => advanceNonceAccount codec ext env isWritable signers account
  | withdraw key isWritable lamports signers =>
    withdrawNonceAccount codec ext env key isWritable lamports signers account
  | initializeNonce isWritable nonceAuthority =>
    initializeNonceAccount codec ext env isWritable nonceAuthority account
  | authorize isWritable nonceAuthority signers =>
    authorizeNonceAccount codec isWritable nonceAuthority signers account
  | credit lamports => .ok { account with lamports := account.lamports + lamports }

/-- Several of them in order. -/
def NonceOp.run (account : Account) (ops : List NonceOp) : Except InstructionError Account :=
  ops.foldlM (NonceOp.apply codec ext env) account

theorem NonceOp.run_singleton (account : Account) (op : NonceOp) :
    NonceOp.run codec ext env account [op] = op.apply codec ext env account := by
  rw [NonceOp.run, foldlM_cons]
  exact bind_pure _

end Instructions

/-! ## The durable nonce of the slot stays -/

/-- An initialized nonce account of the system program that holds the nonce. -/
structure HoldsNonce (codec : NonceCodec) (nonce : Hash) (account : Account) : Prop where
  owner : account.owner = codec.systemProgram
  lamports : account.lamports ≠ 0
  state : ∃ data, codec.getState account.data = some (.current (.initialized data)) ∧
    data.durableNonce = nonce

variable {codec : NonceCodec} {nonce : Hash} {store : Store} {account : Account}

theorem HoldsNonce.data_ne_nil (h : HoldsNonce codec nonce account) :
    account.data ≠ [] := by
  obtain ⟨data, hdata, -⟩ := h.state
  intro hnil
  rw [hnil, codec.getState_nil] at hdata
  cases hdata

theorem HoldsNonce.of_alike {a b : Account} (h : HoldsNonce codec nonce a) (halike : a.Alike b) :
    HoldsNonce codec nonce b := by
  obtain ⟨howner, hlamports, hstate⟩ := h
  rw [← halike.owner] at howner
  rw [← halike.lamports] at hlamports
  rw [← halike.data] at hstate
  exact ⟨howner, hlamports, hstate⟩

variable {isWritable : Bool} {signers : List Pubkey} {nonceData : NonceData} {entry : KeyedAccount}
  {address : Pubkey} {accounts : List KeyedAccount} {loaded : LoadedTransaction}

section Stays

variable {ext : Externals} {env : Environment} {after : Account}

theorem setVersions_eq_ok {versions : NonceVersions}
    (h : setVersions codec account versions = .ok after) :
    codec.getState after.data = some versions ∧ after.lamports = account.lamports ∧
      after.owner = account.owner := by
  unfold setVersions at h
  split at h
  · cases h
  · rename_i data hdata
    cases h
    exact ⟨codec.getState_setState hdata, rfl, rfl⟩

/-- An advance that succeeds leaves the nonce of the slot. -/
theorem holdsNonce_advance (howner : account.owner = codec.systemProgram)
    (hlamports : account.lamports ≠ 0)
    (h : advanceNonceAccount codec ext env isWritable signers account = .ok after) :
    HoldsNonce codec (nextDurableNonce ext env) after := by
  obtain ⟨-, h⟩ := guard_eq_ok_iff.mp h
  split at h
  · cases h
  · obtain ⟨-, h⟩ := guard_eq_ok_iff.mp h
    obtain ⟨-, h⟩ := guard_eq_ok_iff.mp h
    obtain ⟨hstate, hlamports', howner'⟩ := setVersions_eq_ok h
    exact ⟨howner'.trans howner, hlamports' ▸ hlamports, _, hstate, rfl⟩
  · cases h

section

variable (hholds : HoldsNonce codec (nextDurableNonce ext env) account)
include hholds

/-- A withdrawal from an account that holds the nonce of the slot leaves something. -/
theorem holdsNonce_withdraw {key : Pubkey} {lamports : Nat}
    (h : withdrawNonceAccount codec ext env key isWritable lamports signers account = .ok after) :
    HoldsNonce codec (nextDurableNonce ext env) after := by
  obtain ⟨howner, hlamports, data, hstate, hnonce⟩ := hholds
  obtain ⟨-, h⟩ := guard_eq_ok_iff.mp h
  rw [hstate] at h
  dsimp only [Option.map_some, NonceVersions.state] at h
  by_cases hall : lamports = account.lamports
  · -- a withdrawal of everything is refused in this slot
    rw [if_pos hall, if_pos hnonce] at h
    cases h
  · rw [if_neg hall] at h
    obtain ⟨-, h⟩ := guard_eq_ok_iff.mp h
    obtain ⟨henough, h⟩ := guard_eq_ok_iff.mp h
    obtain ⟨-, h⟩ := guard_eq_ok_iff.mp h
    obtain ⟨-, h⟩ := guard_eq_ok_iff.mp h
    cases h
    have hleft : account.lamports - lamports ≠ 0 := by omega
    exact ⟨howner, hleft, data, hstate, hnonce⟩

theorem holdsNonce_apply {op : NonceOp} (h : op.apply codec ext env account = .ok after) :
    HoldsNonce codec (nextDurableNonce ext env) after := by
  obtain ⟨data, hstate, hnonce⟩ := hholds.state
  cases op with
  | advance isWritable signers => exact holdsNonce_advance hholds.owner hholds.lamports h
  | withdraw key isWritable lamports signers => exact holdsNonce_withdraw hholds h
  | initializeNonce isWritable nonceAuthority =>
    -- the account is initialized
    simp only [NonceOp.apply, initializeNonceAccount, hstate, Option.map_some,
      NonceVersions.state] at h
    cases (guard_eq_ok_iff.mp h).2
  | authorize isWritable nonceAuthority signers =>
    simp only [NonceOp.apply, authorizeNonceAccount, hstate, NonceVersions.state] at h
    obtain ⟨-, h⟩ := guard_eq_ok_iff.mp h
    obtain ⟨-, h⟩ := guard_eq_ok_iff.mp h
    obtain ⟨hstate', hlamports', howner'⟩ := setVersions_eq_ok h
    exact ⟨howner'.trans hholds.owner, hlamports' ▸ hholds.lamports, _, hstate', hnonce⟩
  | credit lamports =>
    cases h
    have hmore : account.lamports + lamports ≠ 0 := by
      have := hholds.lamports
      omega
    exact ⟨hholds.owner, hmore, data, hstate, hnonce⟩

theorem holdsNonce_run {ops : List NonceOp}
    (h : NonceOp.run codec ext env account ops = .ok after) :
    HoldsNonce codec (nextDurableNonce ext env) after := by
  induction ops generalizing account with
  | nil =>
    cases h
    exact hholds
  | cons op ops ih =>
    rw [NonceOp.run, foldlM_cons] at h
    obtain ⟨next, hnext, hrest⟩ := bind_eq_ok_iff.mp h
    exact ih (holdsNonce_apply hholds hnext) hrest

end

end Stays

/-! ## Validation of a nonce and of a fee payer -/

variable {stored : Account} {checked : CheckedTransactionDetails} {p : Processor} {tx : SVMMessage}

section Validation

variable (hcodec : codec.Agrees p.ext) {view : View} {nonce : Option NonceInfo} {hash : Hash}

include hcodec

theorem state_of_verified (h : p.ext.verifyNonceAccount account hash = some nonceData) :
    account.owner = codec.systemProgram ∧
      ∃ data, codec.getState account.data = some (.current (.initialized data)) ∧
        data.durableNonce = nonceData.durableNonce := by
  rw [hcodec.verify] at h
  split at h
  · rename_i howner
    split at h
    · rename_i data hdata
      split at h
      · cases h
        exact ⟨howner, data, hdata, rfl⟩
      · cases h
    · cases h
  · cases h

/-- A nonce transaction on an account that holds the nonce of the slot is not validated. -/
theorem NonceValidated.not_holds {nonce : NonceInfo}
    (h : NonceValidated p view tx nonce stored nonceData) :
    ¬ HoldsNonce codec (nextDurableNonce p.ext p.env) stored := by
  rintro ⟨-, -, data, hdata, hnonce⟩
  obtain ⟨-, data', hdata', hnonce'⟩ := state_of_verified hcodec h.verified
  rw [hdata] at hdata'
  cases hdata'
  exact h.unused (hnonce'.symm.trans hnonce)

/-- The rollback copy of a nonce holds the nonce of the slot. -/
theorem NonceValidated.advanced_state {nonce : NonceInfo}
    (h : NonceValidated p view tx nonce stored nonceData) :
    nonce.account.owner = codec.systemProgram ∧ nonce.account.lamports = stored.lamports ∧
      ∃ data, codec.getState nonce.account.data = some (.current (.initialized data)) ∧
        data.durableNonce = nextDurableNonce p.ext p.env := by
  obtain ⟨howner, -⟩ := state_of_verified hcodec h.verified
  have hset := h.advanced
  rw [hcodec.set] at hset
  obtain ⟨data, hdata, hadvanced⟩ := Option.map_eq_some_iff.mp hset
  rw [← hadvanced]
  exact ⟨howner, rfl, _, codec.getState_setState hdata, rfl⟩

/-- A fee does not use up a nonce account. -/
theorem Validated.charged_ne_zero {payer charged : Account}
    (h : Validated p view tx checked payer charged nonce) {versions : NonceVersions}
    (hstate : codec.getState payer.data = some versions) : charged.lamports ≠ 0 := by
  have halike := alike_updateRentExemptStatus p.ext payer
  obtain ⟨-, hkind, -, rfl⟩ := validateFeePayer_eq_ok h.charge
  rcases hkind with hsystem | ⟨-, hfunds⟩
  · -- an account of this kind has no data
    rw [hcodec.kind, halike.data] at hsystem
    split at hsystem
    · split at hsystem
      · rename_i hnil
        rw [hnil, codec.getState_nil] at hstate
        cases hstate
      · split at hsystem
        · split at hsystem
          · cases hsystem
          · cases hsystem
        · cases hsystem
    · cases hsystem
  · have hrent := hcodec.rent
    dsimp only
    omega

theorem Validated.holds_charged {payer charged : Account}
    (h : Validated p view tx checked payer charged nonce)
    (hholds : HoldsNonce codec hash payer) : HoldsNonce codec hash charged := by
  obtain ⟨-, halike⟩ := h.charged_alike
  obtain ⟨data, hdata, hnonce⟩ := hholds.state
  refine ⟨halike.owner.trans hholds.owner, h.charged_ne_zero hcodec hdata, data, ?_, hnonce⟩
  rw [show charged.data = payer.data from halike.data]
  exact hdata

end Validation

/-! ## A transaction keeps the nonce of the slot -/

/-- The store holds the nonce under an address. -/
def Store.Holds (store : Store) (codec : NonceCodec) (nonce : Hash) (address : Pubkey) : Prop :=
  ∃ account, store address = some account ∧ HoldsNonce codec nonce account

theorem Store.Holds.view (h : store.Holds codec nonce address) :
    ∃ account, store.getAccountSharedData address = some account ∧
      HoldsNonce codec nonce account := by
  obtain ⟨account, hstored, hholds⟩ := h
  exact ⟨account, getAccountSharedData_eq_some_iff.mpr ⟨hstored, hholds.lamports⟩, hholds⟩

/-- The nonce was held or is written, and nothing else is written over it. -/
theorem Store.holds_writeAll
    (h : store.Holds codec nonce address ∨ ∃ entry ∈ accounts, entry.1 = address)
    (haccounts : ∀ entry ∈ accounts, entry.1 = address → HoldsNonce codec nonce entry.2) :
    (store.writeAll accounts).Holds codec nonce address := by
  rcases store.writeAll_cases accounts address with
    ⟨entry, hentry, haddress, hwritten⟩ | ⟨hnone, hkept⟩
  · exact ⟨entry.2, hwritten, haccounts entry hentry haddress⟩
  · rcases h with ⟨account, hstored, hholds⟩ | ⟨entry, hentry, haddress⟩
    · exact ⟨account, hkept.trans hstored, hholds⟩
    · exact absurd haddress (hnone entry hentry)

/-- A successful execution changes system accounts with data by the instructions above only. -/
structure NonceDiscipline (p : Processor) (codec : NonceCodec) : Prop where
  keys : ∀ tx loaded, (p.execute tx loaded).accounts.map Prod.fst = loaded.accounts.map Prod.fst
  changes : ∀ tx loaded, (p.execute tx loaded).status = .ok () →
    ∀ (i : Nat) (pre post : KeyedAccount), loaded.accounts[i]? = some pre →
      (p.execute tx loaded).accounts[i]? = some post → pre.2.owner = codec.systemProgram →
      pre.2.data ≠ [] →
        ∃ ops, NonceOp.run codec p.ext p.env pre.2 ops = .ok post.2

/-- A nonce transaction: its nonce account is writable and passed to an instruction, and if it
    succeeds, the first thing that happened to the account is an advance. -/
structure AdvancesFirst (p : Processor) (codec : NonceCodec) (tx : SVMMessage) (i : Nat) :
    Prop where
  writable : tx.isWritable i = true
  instruction : tx.isInstructionAccount i = true
  touched : ∀ loaded, (p.execute tx loaded).status = .ok () →
    (p.execute tx loaded).touchedFlags[i]? = some true
  advances : ∀ loaded, (p.execute tx loaded).status = .ok () → ∀ pre post,
    loaded.accounts[i]? = some pre → (p.execute tx loaded).accounts[i]? = some post →
      ∃ isWritable signers ops,
        NonceOp.run codec p.ext p.env pre.2 (.advance isWritable signers :: ops) = .ok post.2

section Transaction

variable (hcodec : codec.Agrees p.ext) {payer charged : Account} {nonce : Option NonceInfo}
  (hvalidated : Validated p store.getAccountSharedData tx checked payer charged nonce)

include hvalidated

/-- A writable account of a loaded transaction: as it is stored, or the charged fee payer. -/
theorem loaded_of_stored {i : Nat} (hsanitized : Sanitized p.ext tx)
    (hloaded : AccountsLoaded p.ext store.getAccountSharedData tx charged accounts)
    (hentry : accounts[i]? = some entry) (hwritable : tx.isWritable i = true)
    (hstored : store.getAccountSharedData entry.1 = some stored) :
    stored.Alike entry.2 ∨ stored = payer ∧ entry.2 = charged := by
  have hkey : tx.accountKeys[i]? = some entry.1 := by
    rw [← hloaded.keys hsanitized, getElem?_map, hentry]
    rfl
  obtain ⟨others, rfl, hothers⟩ := hloaded
  cases i with
  | zero =>
    cases hentry
    rw [hvalidated.found] at hstored
    exact .inr ⟨(Option.some.inj hstored).symm, rfl⟩
  | succ i =>
    obtain ⟨key, -, rfl, hfrom⟩ := exists_left_of_mem hothers (mem_of_getElem? hentry)
    cases hfrom with
    | sysvar hsysvar _ =>
      rw [hsysvar] at hkey
      rw [hsanitized.sysvarReadonly _ hkey] at hwritable
      cases hwritable
    | absent hview _ _ =>
      rw [hview] at hstored
      cases hstored
    | stored stored' hview halike =>
      rw [hview] at hstored
      cases hstored
      exact .inl halike

include hcodec

section

variable (hholds : store.Holds codec (nextDurableNonce p.ext p.env) address)
include hholds

/-- The nonce of a validated transaction is not one that holds the nonce of the slot. -/
theorem nonce_ne_of_holds : checked.nonceAddress ≠ some address := by
  have hchecked := hvalidated.nonce
  intro hnonce
  rw [hnonce] at hchecked
  obtain ⟨account, hview, haccount⟩ := hholds.view
  cases hchecked with
  | some nonce stored nonceData hfound =>
    have heq := hfound.found
    rw [hview] at heq
    cases heq
    exact hfound.not_holds hcodec haccount

theorem holds_rollback
    (h : RolledBack p store.getAccountSharedData tx payer charged checked.nonceAddress accounts) :
    ∀ entry ∈ accounts, entry.1 = address →
      HoldsNonce codec (nextDurableNonce p.ext p.env) entry.2 := by
  have hne := nonce_ne_of_holds hcodec hvalidated hholds
  have hcharged : tx.feePayer = address →
      HoldsNonce codec (nextDurableNonce p.ext p.env) charged := by
    rintro rfl
    obtain ⟨account, hview, hholds⟩ := hholds.view
    rw [hvalidated.found] at hview
    cases hview
    exact hvalidated.holds_charged hcodec hholds
  generalize checked.nonceAddress = nonceAddress at h hne
  cases h with
  | feePayerOnly =>
    intro entry hentry haddress
    obtain rfl := mem_singleton.mp hentry
    obtain ⟨howner, hlamports, hstate⟩ := hcharged haddress
    exact ⟨howner, hlamports, hstate⟩
  | same advanced nonceData hfound =>
    intro entry hentry haddress
    obtain rfl := mem_singleton.mp hentry
    exact absurd (congrArg some haddress) hne
  | separate nonce stored nonceData hfound hother =>
    intro entry hentry haddress
    rcases mem_cons.mp hentry with rfl | hentry
    · exact hcharged haddress
    · obtain rfl := mem_singleton.mp hentry
      exact absurd (congrArg some haddress) hne

end

/-- The rollback copies of a nonce transaction give its account the nonce of the slot. -/
theorem holds_of_rolledBack
    (h : RolledBack p store.getAccountSharedData tx payer charged (some address) accounts) :
    (store.writeAll accounts).Holds codec (nextDurableNonce p.ext p.env) address := by
  cases h with
  | same advanced nonceData hfound =>
    -- the fee is taken from the nonce account itself
    obtain ⟨howner, data, hdata, -⟩ := state_of_verified hcodec hfound.verified
    obtain ⟨-, -, hstate⟩ := hfound.advanced_state hcodec
    refine Store.holds_writeAll (.inr ⟨_, mem_singleton_self _, rfl⟩) ?_
    intro entry hentry _
    obtain rfl := mem_singleton.mp hentry
    exact ⟨hvalidated.charged_alike.2.owner.trans howner,
      hvalidated.charged_ne_zero hcodec hdata, hstate⟩
  | separate nonce stored nonceData hfound hother =>
    obtain ⟨howner, hlamports, hstate⟩ := hfound.advanced_state hcodec
    have halive := (Store.getAccountSharedData_eq_some_iff.mp hfound.found).2
    refine Store.holds_writeAll (.inr ⟨_, mem_cons_of_mem _ (mem_singleton_self _), rfl⟩) ?_
    intro entry hentry haddress
    rcases mem_cons.mp hentry with rfl | hentry
    · exact absurd haddress hother
    · obtain rfl := mem_singleton.mp hentry
      exact ⟨howner, hlamports ▸ halive, hstate⟩

section

variable (hdiscipline : NonceDiscipline p codec) (hsanitized : Sanitized p.ext tx)
  (hloaded : AccountsLoaded p.ext store.getAccountSharedData tx charged loaded.accounts)
  (hstatus : (p.execute tx loaded).status = .ok ())
  (hcollected : collectAccountsForSuccessfulTx tx (p.execute tx loaded).accounts
    (markFeePayerTouched (p.execute tx loaded).touchedFlags) = .ok accounts)
include hdiscipline hsanitized hloaded hstatus hcollected

theorem holds_committed (hholds : store.Holds codec (nextDurableNonce p.ext p.env) address) :
    ∀ entry ∈ accounts, entry.1 = address →
      HoldsNonce codec (nextDurableNonce p.ext p.env) entry.2 := by
  rintro entry hentry rfl
  rw [collectAccountsForSuccessfulTx_eq hcollected] at hentry
  obtain ⟨i, -, hwritten, hpost⟩ := mem_writtenOf_range hentry
  obtain ⟨pre, hpre, hkey⟩ := exists_pre_of_post (hdiscipline.keys tx loaded) hpost
  obtain ⟨stored, hview, hstored⟩ := hholds.view
  rw [← hkey] at hview
  have hbefore : HoldsNonce codec (nextDurableNonce p.ext p.env) pre.2 := by
    rcases loaded_of_stored hvalidated hsanitized hloaded hpre
      (isWritable_of_isWritten hwritten) hview with halike | ⟨rfl, hcharged⟩
    · exact hstored.of_alike halike
    · rw [hcharged]
      exact hvalidated.holds_charged hcodec hstored
  obtain ⟨ops, hops⟩ := hdiscipline.changes tx loaded hstatus i pre entry hpre hpost
    hbefore.owner hbefore.data_ne_nil
  exact holdsNonce_run hbefore hops

/-- A successful nonce transaction gives its account the nonce of the slot. -/
theorem holds_of_committed {i : Nat}
    (hnonce : checked.nonceAddress = some address) (hi : tx.accountKeys[i]? = some address)
    (hadvances : AdvancesFirst p codec tx i) :
    (store.writeAll accounts).Holds codec (nextDurableNonce p.ext p.env) address := by
  have hkeys := hloaded.keys hsanitized
  have hkeys' := (hdiscipline.keys tx loaded).trans hkeys
  -- the nonce account as it was loaded
  obtain ⟨pre, hpre, rfl⟩ : ∃ pre, loaded.accounts[i]? = some pre ∧ pre.1 = address := by
    rw [← hkeys, getElem?_map] at hi
    exact Option.map_eq_some_iff.mp hi
  have hbefore : pre.2.owner = codec.systemProgram ∧ pre.2.lamports ≠ 0 := by
    have hchecked := hvalidated.nonce
    rw [hnonce] at hchecked
    generalize haddress : pre.1 = address at hchecked
    cases hchecked with
    | some nonce stored nonceData hfound =>
      have hview := hfound.found
      rw [← haddress] at hview
      obtain ⟨howner, data, hdata, -⟩ := state_of_verified hcodec hfound.verified
      rcases loaded_of_stored hvalidated hsanitized hloaded hpre hadvances.writable
        hview with halike | ⟨rfl, hcharged⟩
      · refine ⟨halike.owner.trans howner, ?_⟩
        rw [halike.lamports]
        exact (Store.getAccountSharedData_eq_some_iff.mp hview).2
      · rw [hcharged]
        exact ⟨hvalidated.charged_alike.2.owner.trans howner,
          hvalidated.charged_ne_zero hcodec hdata⟩
  -- what the execution left of it
  obtain ⟨post, hpost, hkey⟩ : ∃ post, (p.execute tx loaded).accounts[i]? = some post ∧
      post.1 = pre.1 := by
    rw [← hkeys', getElem?_map] at hi
    exact Option.map_eq_some_iff.mp hi
  have hafter : HoldsNonce codec (nextDurableNonce p.ext p.env) post.2 := by
    obtain ⟨isWritable, signers, ops, hops⟩ := hadvances.advances loaded hstatus pre post hpre hpost
    rw [NonceOp.run, foldlM_cons] at hops
    obtain ⟨advanced, hadvanced, hrest⟩ := bind_eq_ok_iff.mp hops
    exact holdsNonce_run (holdsNonce_advance hbefore.1 hbefore.2 hadvanced) hrest
  have hwritten :
      isWritten tx (markFeePayerTouched (p.execute tx loaded).touchedFlags) i = true := by
    have htouched := markFeePayerTouched_of_touched (hadvances.touched loaded hstatus)
    simp only [isWritten, hadvances.writable, hadvances.instruction, htouched, decide_true,
      Bool.not_true, Bool.and_false, Bool.not_false, Bool.and_true]
  rw [collectAccountsForSuccessfulTx_eq hcollected]
  refine Store.holds_writeAll (.inr
    ⟨post, mem_writtenOf (List.getElem?_eq_some_iff.mp hi).1 hwritten hpost, hkey⟩) ?_
  -- no other position has the same key
  intro entry hentry hsame
  obtain ⟨j, hj, -, hpost'⟩ := mem_writtenOf_range hentry
  have hj' : tx.accountKeys[j]? = tx.accountKeys[i]? := by
    rw [hi, ← hkeys', getElem?_map, hpost', Option.map_some, hsame]
  obtain rfl := (getElem?_inj hj hsanitized.nodup).mp hj'
  rw [hpost] at hpost'
  cases hpost'
  exact hafter

end

end Transaction

/-! ## A slot -/

/-- A transaction with its check result, and what came of it. -/
abbrev SlotEntry := (SVMMessage × CheckResult) × ProcessingResult

/-- A processed transaction that used the nonce of the address. -/
def Spends (entry : SlotEntry) (address : Pubkey) : Prop :=
  wasProcessed entry.2 = true ∧
    ∃ checked, entry.1.2 = .ok checked ∧ checked.nonceAddress = some address

/-- A sanitized transaction that advances its nonce first, if it has one. -/
structure NonceUser (p : Processor) (codec : NonceCodec) (tx : SVMMessage) (check : CheckResult) :
    Prop where
  sanitized : Sanitized p.ext tx
  advances : ∀ checked address, check = .ok checked → checked.nonceAddress = some address →
    ∃ i, tx.accountKeys[i]? = some address ∧ AdvancesFirst p codec tx i

/-- The batches of a slot, one after the other, each under its own configuration. -/
inductive SlotRun (p : Processor) : Store → List SlotEntry → Store → Prop where
  | nil (store : Store) : SlotRun p store [] store
  | cons {store next final : Store} {config : Config} {batch : List (SVMMessage × CheckResult)}
      {results : List ProcessingResult} {entries : List SlotEntry}
      (hbatch : ({ p with config := config }).runBatch store batch = .ok (results, next))
      (hrest : SlotRun p next entries final) :
      SlotRun p store (batch.zip results ++ entries) final

/-- Between two stores of a slot: accounts that hold the nonce keep it and are not used by a nonce
    transaction, those that are used hold it afterwards, and none is used twice. -/
structure NoncesSpentOnce (codec : NonceCodec) (nonce : Hash) (store : Store)
    (entries : List SlotEntry) (final : Store) : Prop where
  kept : ∀ address, store.Holds codec nonce address → final.Holds codec nonce address
  unspent : ∀ address, store.Holds codec nonce address → ∀ entry ∈ entries, ¬ Spends entry address
  held : ∀ address, ∀ entry ∈ entries, Spends entry address → final.Holds codec nonce address
  once : entries.Pairwise fun first second => ∀ address, Spends first address →
    ¬ Spends second address

theorem NoncesSpentOnce.nil (codec : NonceCodec) (nonce : Hash) (store : Store) :
    NoncesSpentOnce codec nonce store [] store where
  kept := fun _ h => h
  unspent := fun _ _ => forall_mem_nil _
  held := fun _ => forall_mem_nil _
  once := .nil

theorem NoncesSpentOnce.append {next final : Store} {first second : List SlotEntry}
    (h₁ : NoncesSpentOnce codec nonce store first next)
    (h₂ : NoncesSpentOnce codec nonce next second final) :
    NoncesSpentOnce codec nonce store (first ++ second) final where
  kept := fun address h => h₂.kept address (h₁.kept address h)
  unspent := by
    intro address h entry hentry
    rcases mem_append.mp hentry with hentry | hentry
    · exact h₁.unspent address h entry hentry
    · exact h₂.unspent address (h₁.kept address h) entry hentry
  held := by
    intro address entry hentry hspends
    rcases mem_append.mp hentry with hentry | hentry
    · exact h₂.kept address (h₁.held address entry hentry hspends)
    · exact h₂.held address entry hentry hspends
  once := by
    refine pairwise_append.mpr ⟨h₁.once, h₂.once, ?_⟩
    intro x hx y hy address hspends
    exact h₂.unspent address (h₁.held address x hx hspends) y hy

section Slot

variable (hcodec : codec.Agrees p.ext) (hdiscipline : NonceDiscipline p codec)

include hcodec hdiscipline

theorem noncesSpentOnce_of_processed {check : CheckResult}
    {result : ProcessingResult} (huser : NonceUser p codec tx check)
    (h : Processed p store.getAccountSharedData tx check result accounts) :
    NoncesSpentOnce codec (nextDurableNonce p.ext p.env) store [((tx, check), result)]
      (store.writeAll accounts) := by
  -- what is to be shown of a transaction that was processed
  have hprocessed : ∀ checked, check = .ok checked →
      (∀ address, store.Holds codec (nextDurableNonce p.ext p.env) address →
        checked.nonceAddress ≠ some address ∧
          (store.writeAll accounts).Holds codec (nextDurableNonce p.ext p.env) address) →
      (∀ address, checked.nonceAddress = some address →
        (store.writeAll accounts).Holds codec (nextDurableNonce p.ext p.env) address) →
      NoncesSpentOnce codec (nextDurableNonce p.ext p.env) store [((tx, check), result)]
        (store.writeAll accounts) := by
    rintro checked rfl hkept hheld
    refine ⟨fun address haddress => (hkept address haddress).2, ?_, ?_, pairwise_singleton ..⟩
    · intro address haddress entry hentry hspends
      obtain rfl := mem_singleton.mp hentry
      obtain ⟨-, checked', hchecked, hnonce⟩ := hspends
      cases hchecked
      exact (hkept address haddress).1 hnonce
    · intro address entry hentry hspends
      obtain rfl := mem_singleton.mp hentry
      obtain ⟨-, checked', hchecked, hnonce⟩ := hspends
      cases hchecked
      exact hheld address hnonce
  cases h with
  | dropped e =>
    have hunspent : ∀ address, ∀ entry ∈ [((tx, check), .error e)], ¬ Spends entry address := by
      intro address entry hentry hspends
      obtain rfl := mem_singleton.mp hentry
      cases hspends.1
    exact ⟨fun _ h => h, fun address _ => hunspent address,
      fun address entry hentry h => absurd h (hunspent address entry hentry),
      pairwise_singleton ..⟩
  | rolledBack checked payer charged nonce processed hcheck hvalidated hfailed hfee =>
    have hrolledBack := hvalidated.rolledBack
    refine hprocessed checked hcheck ?_ ?_
    · intro address haddress
      exact ⟨nonce_ne_of_holds hcodec hvalidated haddress, Store.holds_writeAll (.inl haddress)
        (holds_rollback hcodec hvalidated haddress hrolledBack)⟩
    · intro address hnonce
      rw [hnonce] at hrolledBack
      exact holds_of_rolledBack hcodec hvalidated hrolledBack
  | committed checked payer charged nonce loaded accounts hcheck hvalidated hloaded hfee hstatus
      hcollected =>
    refine hprocessed checked hcheck ?_ ?_
    · intro address haddress
      exact ⟨nonce_ne_of_holds hcodec hvalidated haddress,
        Store.holds_writeAll (.inl haddress) (holds_committed hcodec hvalidated hdiscipline
          huser.sanitized hloaded hstatus hcollected haddress)⟩
    · intro address hnonce
      obtain ⟨i, hi, hadvances⟩ := huser.advances checked address hcheck hnonce
      exact holds_of_committed hcodec hvalidated hdiscipline huser.sanitized hloaded hstatus
        hcollected hnonce hi hadvances

theorem Trace.noncesSpentOnce {final : Store} {batch : List (SVMMessage × CheckResult)}
    {results : List ProcessingResult} (h : Trace p store batch results final)
    (husers : ∀ entry ∈ batch.zip results, NonceUser p codec entry.1.1 entry.1.2) :
    NoncesSpentOnce codec (nextDurableNonce p.ext p.env) store (batch.zip results) final := by
  induction h with
  | nil store => exact .nil codec _ store
  | cons hfirst _ ih =>
    rw [zip_cons_cons] at husers ⊢
    obtain ⟨huser, husers⟩ := forall_mem_cons.mp husers
    exact (noncesSpentOnce_of_processed hcodec hdiscipline huser hfirst).append (ih husers)

end Slot

/-- Over the batches of a slot a durable nonce is spent at most once, and the account of a nonce
    that was spent holds the durable nonce of the slot from then on. -/
theorem durable_nonce_spent_at_most_once (p : Processor) (codec : NonceCodec)
    (hcodec : codec.Agrees p.ext) (hdiscipline : NonceDiscipline p codec) {store final : Store}
    {entries : List SlotEntry} (husers : ∀ entry ∈ entries, NonceUser p codec entry.1.1 entry.1.2)
    (hrun : SlotRun p store entries final) :
    NoncesSpentOnce codec (nextDurableNonce p.ext p.env) store entries final := by
  induction hrun with
  | nil store => exact .nil codec _ store
  | @cons store next final config batch results entries hbatch _ ih =>
    obtain ⟨hfirst, hothers⟩ := forall_mem_append.mp husers
    refine NoncesSpentOnce.append ?_ (ih hothers)
    -- the configuration plays no part in what is assumed
    refine Trace.noncesSpentOnce (p := { p with config := config }) hcodec
      ⟨hdiscipline.keys, hdiscipline.changes⟩ (runBatch_trace hbatch) ?_
    intro entry hentry
    obtain ⟨hsanitized, hadvances⟩ := hfirst entry hentry
    refine ⟨hsanitized, ?_⟩
    intro checked address hcheck hnonce
    obtain ⟨i, hi, hwritable, hinstruction, htouched, hadvance⟩ :=
      hadvances checked address hcheck hnonce
    exact ⟨i, hi, hwritable, hinstruction, htouched, hadvance⟩

/-! ## A slot with two equal nonce transactions -/

/-- The tags of the version and of the state. -/
def nonceTags : Layout (U32 × U32) := .pair Layouts.u32 Layouts.u32

def nonceFields : Layout (Pubkey × Hash × U64) :=
  .pair Layouts.pubkey (.pair Layouts.hash Layouts.u64)

namespace NonceVersions

/-- The bytes that `bincode` writes. -/
def encode (versions : NonceVersions) : Option (List UInt8) :=
  let version : U32 := match versions with | legacy _ => 0 | current _ => 1
  match versions.state with
  | .uninitialized => some (nonceTags.encode (version, 0))
  | .initialized data =>
    if h : data.lamportsPerSignature < 2 ^ 64 then
      some (nonceTags.encode (version, 1) ++
        nonceFields.encode (data.authority, data.durableNonce, ⟨data.lamportsPerSignature, h⟩))
    else none

/-- What `bincode` reads, whatever follows. -/
def decode (bytes : List UInt8) : Option NonceVersions := do
  let (version, tag) ← nonceTags.readAt bytes 0
  let state ←
    if tag = 0 then some .uninitialized
    else if tag = 1 then
      (nonceFields.readAt bytes nonceTags.size).map fun fields =>
        .initialized ⟨fields.1, fields.2.1, fields.2.2.val⟩
    else none
  if version = 0 then some (legacy state) else if version = 1 then some (current state) else none

theorem decode_encode_append {versions : NonceVersions} {bytes : List UInt8}
    (h : versions.encode = some bytes) (rest : List UInt8) :
    decode (bytes ++ rest) = some versions := by
  unfold encode at h
  cases hstate : versions.state with
  | uninitialized =>
    rw [hstate] at h
    cases h
    unfold decode
    rw [nonceTags.readAt_eq_some.mpr (at_zero_append _ rest)]
    cases versions <;> cases hstate <;> rfl
  | initialized data =>
    rw [hstate] at h
    dsimp only at h
    split at h
    · have hat := at_zero_append bytes rest
      cases h
      rw [at_append, Nat.zero_add, nonceTags.length_encode] at hat
      unfold decode
      rw [nonceTags.readAt_eq_some.mpr hat.1, nonceFields.readAt_eq_some.mpr hat.2]
      cases versions <;> cases hstate <;> rfl
    · cases h

end NonceVersions

/-- Accounts of 80 bytes, of which a state that is written may take less. -/
def bincodeCodec : NonceCodec where
  systemProgram := 0
  getState := NonceVersions.decode
  setState data versions := do
    let bytes ← versions.encode
    if data.length < bytes.length then none else some (bytes ++ data.drop bytes.length)
  getState_nil := rfl
  getState_setState := by
    intro data versions after h
    obtain ⟨bytes, hbytes, h⟩ := Option.bind_eq_some_iff.mp h
    split at h
    · cases h
    · cases h
      exact NonceVersions.decode_encode_append hbytes _

/-- The externals of the codec. -/
def bincodeExternals : Externals :=
  { (drainingProcessor false).ext with
    minimumBalance := fun _ => 10
    nonceStateSize := 80
    verifyNonceAccount := fun account hash =>
      if account.owner = bincodeCodec.systemProgram then
        match bincodeCodec.getState account.data with
        | some (.current (.initialized data)) =>
          if hash = data.durableNonce then some ⟨data.authority, data.durableNonce⟩ else none
        | _ => none
      else none
    setNonceState := fun account authority nonce lamportsPerSignature =>
      (bincodeCodec.setState account.data
        (.new (.initialized ⟨authority, nonce, lamportsPerSignature⟩))).map
          fun data => { account with data := data }
    getSystemAccountKind := fun account =>
      if account.owner = bincodeCodec.systemProgram then
        if account.data = [] then some .system
        else if account.data.length = 80 then
          match (bincodeCodec.getState account.data).map NonceVersions.state with
          | some (.initialized _) => some .nonce
          | _ => none
        else none
      else none }

/-- A slot whose durable nonce is 2. -/
def slotEnvironment : Environment := { (drainingProcessor false).env with blockhash := 2 }

/-- Every transaction advances its second account. -/
def advancingProcessor : Processor where
  ext := bincodeExternals
  env := slotEnvironment
  config := (drainingProcessor false).config
  execute := fun _ loaded =>
    match loaded.accounts with
    | payer :: (key, account) :: rest =>
      match advanceNonceAccount bincodeCodec bincodeExternals slotEnvironment true [1] account with
      | .ok after => ⟨.ok (), payer :: (key, after) :: rest, loaded.accounts.map fun _ => true⟩
      | .error _ => ⟨.error .accountNotFound, loaded.accounts, []⟩
    | accounts => ⟨.error .accountNotFound, accounts, []⟩

/-- A nonce transaction with the nonce 1 of account 2. -/
def advanceTwo : SVMMessage := { drain with recentBlockhash := 1, nonceIxSigners := [1] }

def advanceTwice : List (SVMMessage × CheckResult) :=
  List.replicate 2 (advanceTwo, .ok {
    nonceAddress := some 2
    loadedAccountsDataSizeLimit := 1000
    fee := 5
    computeBudget := 0 })

/-- Account 2 is a nonce account with the nonce 1. -/
def nonceStore : Store :=
  Function.update fundedStore 2 (some { Account.default with
    lamports := 50
    data := (NonceVersions.encode (.current (.initialized ⟨1, 1, 5⟩))).getD [] })

theorem agrees_bincodeCodec : bincodeCodec.Agrees advancingProcessor.ext where
  verify := fun _ _ => rfl
  set := fun _ _ _ _ => rfl
  kind := fun _ => rfl
  rent := by decide

/-- What a transaction of `advancingProcessor` does if it succeeds. -/
theorem execute_advancing (h : (advancingProcessor.execute tx loaded).status = .ok ()) :
    ∃ payer key account after rest, loaded.accounts = payer :: (key, account) :: rest ∧
      advanceNonceAccount bincodeCodec bincodeExternals slotEnvironment true [1] account =
        .ok after ∧
      advancingProcessor.execute tx loaded =
        ⟨.ok (), payer :: (key, after) :: rest, loaded.accounts.map fun _ => true⟩ := by
  unfold advancingProcessor at h ⊢
  dsimp only at h ⊢
  split at h
  · rename_i payer key account rest haccounts
    split at h
    · rename_i after hafter
      rw [haccounts]
      exact ⟨payer, key, account, after, rest, rfl, hafter, rfl⟩
    · cases h
  · cases h

theorem discipline_advancing : NonceDiscipline advancingProcessor bincodeCodec where
  keys := by
    intro tx loaded
    unfold advancingProcessor
    dsimp only
    split
    · rename_i haccounts
      split
      · rw [haccounts]
        rfl
      · rfl
    · rfl
  changes := by
    intro tx loaded hstatus i pre post hpre hpost _ _
    obtain ⟨payer, key, account, after, rest, haccounts, hafter, hexecute⟩ :=
      execute_advancing hstatus
    rw [haccounts] at hpre
    rw [hexecute] at hpost
    match i with
    | 0 =>
      cases hpre
      cases hpost
      exact ⟨[], rfl⟩
    | 1 =>
      cases hpre
      cases hpost
      exact ⟨[.advance true [1]], (NonceOp.run_singleton ..).trans hafter⟩
    | i + 2 =>
      have hsame : some pre = some post := hpre.symm.trans hpost
      cases hsame
      exact ⟨[], rfl⟩

theorem nonceUser_advanceTwo (check : CheckResult)
    (hcheck : ∀ checked address, check = .ok checked → checked.nonceAddress = some address →
      address = 2) : NonceUser advancingProcessor bincodeCodec advanceTwo check where
  sanitized := {
    payer := rfl
    nodup := by decide
    length_le := by decide
    payerWritable := rfl
    payerNotInvoked := rfl
    sysvarReadonly := by
      intro i hi
      have hmem : bincodeExternals.instructionsSysvar ∈ advanceTwo.accountKeys :=
        mem_of_getElem? hi
      exact absurd hmem (by decide) }
  advances := by
    intro checked address hchecked hnonce
    obtain rfl := hcheck checked address hchecked hnonce
    refine ⟨1, rfl, rfl, rfl, ?_, ?_⟩
    · intro loaded hstatus
      obtain ⟨payer, key, account, after, rest, haccounts, -, hexecute⟩ :=
        execute_advancing hstatus
      rw [hexecute, haccounts]
      rfl
    · intro loaded hstatus pre post hpre hpost
      obtain ⟨payer, key, account, after, rest, haccounts, hafter, hexecute⟩ :=
        execute_advancing hstatus
      rw [haccounts] at hpre
      rw [hexecute] at hpost
      cases hpre
      cases hpost
      exact ⟨true, [1], [], (NonceOp.run_singleton ..).trans hafter⟩

/-- The first of two equal nonce transactions is processed and the second one is not. -/
theorem nonce_spent_once_advancing : ∃ results final,
    advancingProcessor.runBatch nonceStore advanceTwice = .ok (results, final) ∧
    results.map wasProcessed = [true, false] ∧ final.Holds bincodeCodec 2 2 := by
  have hsome : (advancingProcessor.runBatch nonceStore advanceTwice).toOption.map
      (fun r => r.1.map wasProcessed) = some [true, false] := by
    decide +kernel
  obtain ⟨r, hrun, hprocessed⟩ := exists_ok_of_map hsome
  have hslot : SlotRun advancingProcessor nonceStore (advanceTwice.zip r.1 ++ []) r.2 :=
    .cons hrun (.nil r.2)
  have husers : ∀ entry ∈ advanceTwice.zip r.1 ++ [],
      NonceUser advancingProcessor bincodeCodec entry.1.1 entry.1.2 := by
    intro entry hentry
    rw [append_nil] at hentry
    rw [eq_of_mem_replicate (of_mem_zip hentry).1]
    refine nonceUser_advanceTwo _ ?_
    rintro checked address hchecked hnonce
    cases hchecked
    exact (Option.some.inj hnonce).symm
  have hspent := durable_nonce_spent_at_most_once advancingProcessor bincodeCodec
    agrees_bincodeCodec discipline_advancing husers hslot
  refine ⟨r.1, r.2, hrun, hprocessed, ?_⟩
  obtain ⟨first, second, hresults⟩ := length_eq_two.mp
    (show r.1.length = 2 by simpa using congrArg List.length hprocessed)
  rw [hresults] at hprocessed hspent
  have hfirst : wasProcessed first = true := (List.cons.inj hprocessed).1
  exact hspent.held 2 _ mem_cons_self ⟨hfirst, _, rfl, rfl⟩

end Agave.Svm

