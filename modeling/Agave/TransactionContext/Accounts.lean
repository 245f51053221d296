/-
  Agave.TransactionContext.Accounts

  The accounts of a transaction and the calls that change them.

  A program changes an account through a `BorrowedInstructionAccount`: an index into the accounts of
  the transaction, whether the instruction may write to it, and the program that runs.  Every call
  checks its permissions, marks the account as touched, keeps two running sums (of lamports and of
  data lengths) up to date and then writes.  A call that fails returns the state it has reached; the
  calls are written in the order of the source, with `?` as the continuation of a check.

  `Effect` lists what a call can do, and `apply_effect` says that there is nothing else.
-/

import Agave.Basic
import Mathlib.Algebra.BigOperators.Group.List.Basic

namespace Agave.Transaction

/-- `MAX_ACCOUNT_DATA_LEN`. -/
def maxAccountDataLen : Nat := 10 * 1024 * 1024

/-- `MAX_ACCOUNT_DATA_GROWTH_PER_TRANSACTION`. -/
def maxAccountDataGrowthPerTransaction : Int := maxAccountDataLen * 2

/-- The errors of `InstructionError` that the context returns. -/
inductive InstructionError where
  | modifiedProgramId
  | externalAccountLamportSpend
  | readonlyLamportChange
  | arithmeticOverflow
  | readonlyDataModified
  | externalAccountDataModified
  | invalidRealloc
  | maxAccountsDataAllocationsExceeded
  | executableAccountNotRentExempt
  | executableModified
  | missingAccount
  | accountDataTooSmall
  | genericError
  | unbalancedInstruction
  | callDepth
  | maxInstructionTraceLengthExceeded
  | accountBorrowFailed
  | accountBorrowOutstanding
  | invalidAccountOwner
deriving DecidableEq

/-- An account, without its rent epoch, which no call changes. -/
structure Account where
  lamports : Nat
  owner : Pubkey
  executable : Bool
  data : List UInt8
deriving DecidableEq

/-- `TransactionAccounts`: every account has a flag. -/
structure TransactionAccounts where
  keys : List Pubkey
  accounts : List Account
  touchedFlags : List Bool
  resizeDelta : Int
  lamportsDelta : Int
  length_flags : touchedFlags.length = accounts.length

/-- `TransactionAccounts::new`. -/
def TransactionAccounts.new (accounts : List (Pubkey × Account)) : TransactionAccounts where
  keys := accounts.map Prod.fst
  accounts := accounts.map Prod.snd
  touchedFlags := List.replicate accounts.length false
  resizeDelta := 0
  lamportsDelta := 0
  length_flags := by rw [List.length_replicate, List.length_map]

/-- The nearest number that fits an `i64`. -/
def saturateI64 (n : Int) : Int := max (-2 ^ 63) (min n (2 ^ 63 - 1))

/-- The number fits an `i128`. -/
abbrev FitsI128 (n : Int) : Prop := -2 ^ 127 ≤ n ∧ n < 2 ^ 127

/-- `is_zeroed`: chunk by chunk, and then what is left. -/
def isZeroed (buf : List UInt8) : Bool :=
  (List.range (buf.length / 1024)).all (fun i =>
    (buf.drop (i * 1024)).take 1024 == List.replicate 1024 0) &&
    buf.drop (buf.length / 1024 * 1024) == List.replicate (buf.length % 1024) 0

variable (s : TransactionAccounts)

/-- The flag of an account is set. -/
def TransactionAccounts.touched (index : Nat) : TransactionAccounts :=
  { s with
    touchedFlags := s.touchedFlags.set index true
    length_flags := by rw [List.length_set, s.length_flags] }

/-! ## Calls -/

/-- What a call returns, and the state it leaves. -/
abbrev Call := TransactionAccounts → Except InstructionError Unit × TransactionAccounts

namespace Call

/-- `Ok(())`. -/
def done : Call := fun s => (.ok (), s)

/-- `if p { return Err(e) }`. -/
def guard (p : Prop) [Decidable p] (e : InstructionError) (next : Call) : Call := fun s =>
  if p then (.error e, s) else next s

/-- `self.touch()?`. -/
def touch (index : Nat) (next : Call) : Call := fun s =>
  if index < s.touchedFlags.length then
    next (s.touched index)
  else (.error .missingAccount, s)

/-- `add_lamports_delta(balance)?`. -/
def addLamportsDelta (balance : Int) (next : Call) : Call := fun s =>
  if FitsI128 (s.lamportsDelta + balance) then
    next { s with lamportsDelta := s.lamportsDelta + balance }
  else (.error .arithmeticOverflow, s)

/-- `update_accounts_resize_delta(old_len, new_len)?`. -/
def updateAccountsResizeDelta (oldLen newLen : Nat) (next : Call) : Call := fun s =>
  next { s with
    resizeDelta := saturateI64 (s.resizeDelta + saturateI64 ((newLen : Int) - oldLen)) }

/-- `can_data_be_resized(old_len, new_len)?` of `TransactionAccounts`. -/
def canDataBeResized (oldLen newLen : Nat) (next : Call) : Call := fun s =>
  if maxAccountDataLen < newLen then (.error .invalidRealloc, s)
  else if maxAccountDataGrowthPerTransaction <
      saturateI64 (s.resizeDelta + saturateI64 ((newLen : Int) - oldLen)) then
    (.error .maxAccountsDataAllocationsExceeded, s)
  else next s

/-- Writing the account back. -/
def write (index : Nat) (account : Account) : Call := fun s =>
  (.ok (), { s with
    accounts := s.accounts.set index account
    length_flags := by rw [List.length_set, s.length_flags] })

end Call

open Call List TransactionAccounts

/-- `BorrowedInstructionAccount`, without the signer flag, which no call reads. -/
structure BorrowedInstructionAccount where
  indexInTransaction : Nat
  isWritable : Bool
  programIndex : Nat

/-- The rent of the context: whether a balance is exempt at a data length. -/
abbrev Rent := Nat → Nat → Bool

/-- `is_owned_by_current_program`. -/
def TransactionAccounts.isOwnedByProgram (programIndex : Nat) (account : Account) : Bool :=
  (s.keys[programIndex]?.map (fun programKey => decide (programKey = account.owner))).getD false

namespace BorrowedInstructionAccount

variable (b : BorrowedInstructionAccount)

/-- The borrowed account, and whether the program owns it. -/
def borrow (next : Account → Bool → Call) : Call := fun s =>
  match s.accounts[b.indexInTransaction]? with
  | none => (.error .missingAccount, s)
  | some account => next account (s.isOwnedByProgram b.programIndex account) s

/-- `can_data_be_changed()?`. -/
def canDataBeChanged (owned : Bool) (next : Call) : Call :=
  guard (b.isWritable = false) .readonlyDataModified <|
  guard (owned = false) .externalAccountDataModified next

def setOwner (pubkey : Pubkey) : Call :=
  b.borrow fun account owned =>
    guard (owned = false) .modifiedProgramId <|
    guard (b.isWritable = false) .modifiedProgramId <|
    guard (isZeroed account.data = false) .modifiedProgramId <|
    if account.owner = pubkey then done
    else touch b.indexInTransaction <| write b.indexInTransaction { account with owner := pubkey }

def setLamports (lamports : Nat) : Call :=
  b.borrow fun account owned =>
    guard (owned = false ∧ lamports < account.lamports) .externalAccountLamportSpend <|
    guard (b.isWritable = false) .readonlyLamportChange <|
    if account.lamports = lamports then done
    else addLamportsDelta ((lamports : Int) - account.lamports) <|
      touch b.indexInTransaction <| write b.indexInTransaction { account with lamports := lamports }

def checkedAddLamports (lamports : Nat) : Call :=
  b.borrow fun account _ =>
    guard (u64Max < account.lamports + lamports) .arithmeticOverflow <|
    b.setLamports (account.lamports + lamports)

def checkedSubLamports (lamports : Nat) : Call :=
  b.borrow fun account _ =>
    guard (account.lamports < lamports) .arithmeticOverflow <|
    b.setLamports (account.lamports - lamports)

/-- `get_data_mut`, with what the caller writes to the slice: other bytes, as many. -/
def getDataMut (overwrite : List UInt8 → List UInt8) : Call :=
  b.borrow fun account owned =>
    b.canDataBeChanged owned <|
    touch b.indexInTransaction <|
    if (overwrite account.data).length = account.data.length then
      write b.indexInTransaction { account with data := overwrite account.data }
    else done

/-- `set_state` of a state with the given serialization, if it has one. -/
def setState (serialized : Option (List UInt8)) : Call :=
  b.borrow fun account owned =>
    b.canDataBeChanged owned <|
    touch b.indexInTransaction <|
    match serialized with
    | none => fun s => (.error .genericError, s)
    | some bytes =>
      guard (account.data.length < bytes.length) .accountDataTooSmall <|
      write b.indexInTransaction
        { account with data := bytes ++ account.data.drop bytes.length }

def setDataFromSlice (data : List UInt8) : Call :=
  b.borrow fun account owned =>
    canDataBeResized account.data.length data.length <|
    b.canDataBeChanged owned <|
    touch b.indexInTransaction <|
    updateAccountsResizeDelta account.data.length data.length <|
    write b.indexInTransaction { account with data := data }

/-- Cutting the data off at a length, or filling it up with zeros. -/
def resized (data : List UInt8) (newLength : Nat) : List UInt8 :=
  data.take newLength ++ List.replicate (newLength - data.length) 0

def setDataLength (newLength : Nat) : Call :=
  b.borrow fun account owned =>
    canDataBeResized account.data.length newLength <|
    b.canDataBeChanged owned <|
    if account.data.length = newLength then done
    else touch b.indexInTransaction <|
      updateAccountsResizeDelta account.data.length newLength <|
      write b.indexInTransaction { account with data := resized account.data newLength }

def extendFromSlice (data : List UInt8) : Call :=
  b.borrow fun account owned =>
    canDataBeResized account.data.length (account.data.length + data.length) <|
    b.canDataBeChanged owned <|
    if data = [] then done
    else touch b.indexInTransaction <|
      updateAccountsResizeDelta account.data.length (account.data.length + data.length) <|
      write b.indexInTransaction { account with data := account.data ++ data }

def setExecutable (rent : Rent) (isExecutable : Bool) : Call :=
  b.borrow fun account owned =>
    guard (rent account.lamports account.data.length = false) .executableAccountNotRentExempt <|
    guard (owned = false) .executableModified <|
    guard (b.isWritable = false) .executableModified <|
    if account.executable = isExecutable then done
    else touch b.indexInTransaction <|
      write b.indexInTransaction { account with executable := isExecutable }

end BorrowedInstructionAccount

/-- The calls of `BorrowedInstructionAccount` that can change an account. -/
inductive Mutation where
  | setOwner (pubkey : Pubkey)
  | setLamports (lamports : Nat)
  | checkedAddLamports (lamports : Nat)
  | checkedSubLamports (lamports : Nat)
  | getDataMut (overwrite : List UInt8 → List UInt8)
  | setState (serialized : Option (List UInt8))
  | setDataFromSlice (data : List UInt8)
  | setDataLength (newLength : Nat)
  | extendFromSlice (data : List UInt8)
  | setExecutable (isExecutable : Bool)

/-- Making a call. -/
def Mutation.apply (rent : Rent) (b : BorrowedInstructionAccount) : Mutation → Call
  | setOwner pubkey => b.setOwner pubkey
  | setLamports lamports => b.setLamports lamports
  | checkedAddLamports lamports => b.checkedAddLamports lamports
  | checkedSubLamports lamports => b.checkedSubLamports lamports
  | getDataMut overwrite => b.getDataMut overwrite
  | setState serialized => b.setState serialized
  | setDataFromSlice data => b.setDataFromSlice data
  | setDataLength newLength => b.setDataLength newLength
  | extendFromSlice data => b.extendFromSlice data
  | setExecutable isExecutable => b.setExecutable rent isExecutable

/-! ## Zeroed data -/

theorem eq_replicate_zero_iff {l : List UInt8} {n : Nat} (hlen : l.length = n) :
    l = List.replicate n 0 ↔ ∀ x ∈ l, x = 0 := by
  rw [eq_replicate_iff]
  exact ⟨fun h => h.2, fun h => ⟨hlen, h⟩⟩

/-- The chunked check finds every byte. -/
theorem isZeroed_iff (buf : List UInt8) : isZeroed buf = true ↔ ∀ x ∈ buf, x = 0 := by
  have hsplit : buf.length / 1024 * 1024 + buf.length % 1024 = buf.length := by omega
  have hlast : (buf.drop (buf.length / 1024 * 1024)).length = buf.length % 1024 := by
    rw [length_drop]
    omega
  rw [isZeroed, Bool.and_eq_true, all_eq_true, beq_iff_eq, eq_replicate_zero_iff hlast]
  constructor
  · rintro ⟨hchunks, hrest⟩ x hx
    obtain ⟨k, hk, rfl⟩ := mem_iff_getElem.mp hx
    by_cases hfull : k < buf.length / 1024 * 1024
    · -- the byte is in chunk `k / 1024`
      have hchunk := hchunks (k / 1024) (mem_range.mpr (by omega))
      rw [beq_iff_eq] at hchunk
      have hmem : buf[k] ∈ (buf.drop (k / 1024 * 1024)).take 1024 := by
        rw [mem_take_iff_getElem]
        refine ⟨k % 1024, by rw [length_drop]; omega, ?_⟩
        rw [getElem_drop]
        exact getElem_congr_idx (Nat.div_add_mod' k 1024)
      rw [hchunk] at hmem
      exact eq_of_mem_replicate hmem
    · apply hrest
      rw [mem_drop_iff_getElem]
      exact ⟨k - buf.length / 1024 * 1024, by omega, by congr 1; omega⟩
  · intro hall
    refine ⟨fun i hi => ?_, fun x hx => hall x (mem_of_mem_drop hx)⟩
    rw [mem_range] at hi
    have hlen : ((buf.drop (i * 1024)).take 1024).length = 1024 := by
      rw [length_take, length_drop]
      omega
    rw [beq_iff_eq, eq_replicate_zero_iff hlen]
    exact fun x hx => hall x (mem_of_mem_drop (mem_of_mem_take hx))

/-! ## What a call can do -/

/-- An account is touched and written, and the running sums are set. -/
def TransactionAccounts.written (index : Nat) (account : Account)
    (lamportsDelta resizeDelta : Int) : TransactionAccounts :=
  { s with
    accounts := s.accounts.set index account
    touchedFlags := s.touchedFlags.set index true
    lamportsDelta
    resizeDelta
    length_flags := by rw [List.length_set, List.length_set, s.length_flags] }

/-- The running sum of data lengths after a resize that was allowed. -/
def ResizedTo (oldLen newLen : Nat) (resizeDelta : Int) : Prop :=
  resizeDelta = saturateI64 (s.resizeDelta + saturateI64 ((newLen : Int) - oldLen)) ∧
    newLen ≤ maxAccountDataLen ∧ resizeDelta ≤ maxAccountDataGrowthPerTransaction

/-- Everything a call through `b` can do. -/
inductive Effect (b : BorrowedInstructionAccount) (s : TransactionAccounts) :
    TransactionAccounts → Prop where
  | unchanged : Effect b s s
  | lamports {account : Account} {lamports : Nat}
      (haccount : s.accounts[b.indexInTransaction]? = some account)
      (hwritable : b.isWritable = true)
      (howned : s.isOwnedByProgram b.programIndex account = true ∨ account.lamports ≤ lamports) :
      Effect b s (s.written b.indexInTransaction { account with lamports := lamports }
        (s.lamportsDelta + ((lamports : Int) - account.lamports)) s.resizeDelta)
  | owner {account : Account} {pubkey : Pubkey}
      (haccount : s.accounts[b.indexInTransaction]? = some account)
      (hwritable : b.isWritable = true)
      (howned : s.isOwnedByProgram b.programIndex account = true)
      (hzero : ∀ x ∈ account.data, x = 0) :
      Effect b s (s.written b.indexInTransaction { account with owner := pubkey }
        s.lamportsDelta s.resizeDelta)
  | data {account : Account} {data : List UInt8} {resizeDelta : Int}
      (haccount : s.accounts[b.indexInTransaction]? = some account)
      (hwritable : b.isWritable = true)
      (howned : s.isOwnedByProgram b.programIndex account = true)
      (hlen : (data.length = account.data.length ∧ resizeDelta = s.resizeDelta) ∨
        ResizedTo s account.data.length data.length resizeDelta) :
      Effect b s (s.written b.indexInTransaction { account with data := data }
        s.lamportsDelta resizeDelta)
  | executable {account : Account} {isExecutable : Bool}
      (haccount : s.accounts[b.indexInTransaction]? = some account)
      (hwritable : b.isWritable = true)
      (howned : s.isOwnedByProgram b.programIndex account = true) :
      Effect b s (s.written b.indexInTransaction { account with executable := isExecutable }
        s.lamportsDelta s.resizeDelta)

section

variable {b : BorrowedInstructionAccount} {s s' : TransactionAccounts} {next : Call}
  {account : Account} (data : List UInt8) (newLength : Nat)

theorem guard_effect {p : Prop} [Decidable p] {e : InstructionError}
    (h : ¬ p → Effect b s (next s).2) : Effect b s (guard p e next s).2 := by
  unfold Call.guard
  by_cases hp : p
  · rw [if_pos hp]
    exact .unchanged
  · rw [if_neg hp]
    exact h hp

theorem borrow_effect {next : Account → Bool → Call}
    (h : ∀ account, s.accounts[b.indexInTransaction]? = some account →
      Effect b s (next account (s.isOwnedByProgram b.programIndex account) s).2) :
    Effect b s (b.borrow next s).2 := by
  unfold BorrowedInstructionAccount.borrow
  cases haccount : s.accounts[b.indexInTransaction]? with
  | none => exact .unchanged
  | some account => exact h account haccount

theorem canDataBeChanged_effect {owned : Bool}
    (h : b.isWritable = true → owned = true → Effect b s (next s).2) :
    Effect b s (b.canDataBeChanged owned next s).2 := by
  apply guard_effect
  intro hwritable
  apply guard_effect
  intro howned
  exact h (by simpa using hwritable) (by simpa using howned)

theorem canDataBeResized_effect {oldLen newLen : Nat} (h : newLen ≤ maxAccountDataLen →
      saturateI64 (s.resizeDelta + saturateI64 ((newLen : Int) - oldLen)) ≤
        maxAccountDataGrowthPerTransaction → Effect b s (next s).2) :
    Effect b s (canDataBeResized oldLen newLen next s).2 := by
  unfold Call.canDataBeResized
  split_ifs with hlen hgrowth
  · exact .unchanged
  · exact .unchanged
  · exact h (not_lt.mp hlen) (not_lt.mp hgrowth)

/-- The account that is borrowed can be touched. -/
theorem touch_eq (haccount : s.accounts[b.indexInTransaction]? = some account) :
    touch b.indexInTransaction next s = next (s.touched b.indexInTransaction) := by
  have hlt := (List.getElem?_eq_some_iff.mp haccount).1
  rw [Call.touch, if_pos (by rw [s.length_flags]; exact hlt)]

theorem effect_of_touch (haccount : s.accounts[b.indexInTransaction]? = some account)
    (hwritable : b.isWritable = true) (howned : s.isOwnedByProgram b.programIndex account = true) :
    Effect b s (s.touched b.indexInTransaction) := by
  have heffect : Effect b s (s.written b.indexInTransaction account _ _) :=
    .data haccount hwritable howned (Or.inl ⟨rfl, rfl⟩)
  have hsame : s.accounts.set b.indexInTransaction account = s.accounts := by
    obtain ⟨hlt, hget⟩ := List.getElem?_eq_some_iff.mp haccount
    rw [← hget, List.set_getElem_self]
  simpa only [written, touched, hsame] using heffect

theorem setLamports_effect (lamports : Nat) : Effect b s (b.setLamports lamports s).2 := by
  apply borrow_effect
  intro account haccount
  apply guard_effect
  intro hspend
  apply guard_effect
  intro hwritable
  have hspend' : s.isOwnedByProgram b.programIndex account = true ∨
      account.lamports ≤ lamports := by
    rw [not_and_or, not_lt, Bool.not_eq_false] at hspend
    exact hspend
  split_ifs with hsame
  · exact .unchanged
  · unfold Call.addLamportsDelta
    split_ifs
    · rw [touch_eq (s := { s with lamportsDelta :=
        s.lamportsDelta + ((lamports : Int) - account.lamports) }) haccount]
      exact .lamports haccount (by simpa using hwritable) hspend'
    · exact .unchanged

theorem setOwner_effect (pubkey : Pubkey) : Effect b s (b.setOwner pubkey s).2 := by
  apply borrow_effect
  intro account haccount
  apply guard_effect
  intro howned
  apply guard_effect
  intro hwritable
  apply guard_effect
  intro hzero
  split_ifs with hsame
  · exact .unchanged
  · rw [touch_eq haccount]
    exact .owner haccount (by simpa using hwritable) (by simpa using howned)
      ((isZeroed_iff _).mp (by simpa using hzero))

theorem getDataMut_effect (overwrite : List UInt8 → List UInt8) :
    Effect b s (b.getDataMut overwrite s).2 := by
  apply borrow_effect
  intro account haccount
  apply canDataBeChanged_effect
  intro hwritable howned
  rw [touch_eq haccount]
  split_ifs with hlen
  · exact .data haccount hwritable howned (Or.inl ⟨hlen, rfl⟩)
  · exact effect_of_touch haccount hwritable howned

theorem setState_effect (serialized : Option (List UInt8)) :
    Effect b s (b.setState serialized s).2 := by
  apply borrow_effect
  intro account haccount
  apply canDataBeChanged_effect
  intro hwritable howned
  rw [touch_eq haccount]
  cases serialized with
  | none => exact effect_of_touch haccount hwritable howned
  | some bytes =>
    simp only [Call.guard]
    split_ifs with hsmall
    · exact effect_of_touch haccount hwritable howned
    · refine .data haccount hwritable howned (Or.inl ⟨?_, rfl⟩)
      rw [length_append, length_drop]
      omega

theorem setDataFromSlice_effect : Effect b s (b.setDataFromSlice data s).2 := by
  apply borrow_effect
  intro account haccount
  apply canDataBeResized_effect
  intro hlen hgrowth
  apply canDataBeChanged_effect
  intro hwritable howned
  rw [touch_eq haccount]
  exact .data haccount hwritable howned (Or.inr ⟨rfl, hlen, hgrowth⟩)

theorem length_resized :
    (BorrowedInstructionAccount.resized data newLength).length = newLength := by
  rw [BorrowedInstructionAccount.resized, length_append, length_take, length_replicate]
  omega

theorem setDataLength_effect : Effect b s (b.setDataLength newLength s).2 := by
  apply borrow_effect
  intro account haccount
  apply canDataBeResized_effect
  intro hlen hgrowth
  apply canDataBeChanged_effect
  intro hwritable howned
  split_ifs with hsame
  · exact .unchanged
  · rw [touch_eq haccount]
    refine .data haccount hwritable howned (Or.inr ?_)
    rw [length_resized]
    exact ⟨rfl, hlen, hgrowth⟩

theorem extendFromSlice_effect : Effect b s (b.extendFromSlice data s).2 := by
  apply borrow_effect
  intro account haccount
  apply canDataBeResized_effect
  intro hlen hgrowth
  apply canDataBeChanged_effect
  intro hwritable howned
  split_ifs with hempty
  · exact .unchanged
  · rw [touch_eq haccount]
    refine .data haccount hwritable howned (Or.inr ?_)
    rw [length_append]
    exact ⟨rfl, hlen, hgrowth⟩

theorem setExecutable_effect (rent : Rent) (isExecutable : Bool) :
    Effect b s (b.setExecutable rent isExecutable s).2 := by
  apply borrow_effect
  intro account haccount
  apply guard_effect
  intro _
  apply guard_effect
  intro howned
  apply guard_effect
  intro hwritable
  split_ifs with hsame
  · exact .unchanged
  · rw [touch_eq haccount]
    exact .executable haccount (by simpa using hwritable) (by simpa using howned)

/-- A call, successful or not, does nothing that `Effect` does not list. -/
theorem apply_effect (rent : Rent) (mutation : Mutation) :
    Effect b s (mutation.apply rent b s).2 := by
  cases mutation with
  | setOwner pubkey => exact setOwner_effect pubkey
  | setLamports lamports => exact setLamports_effect lamports
  | checkedAddLamports lamports =>
    apply borrow_effect
    intro account _
    apply guard_effect
    intro _
    exact setLamports_effect _
  | checkedSubLamports lamports =>
    apply borrow_effect
    intro account _
    apply guard_effect
    intro _
    exact setLamports_effect _
  | getDataMut overwrite => exact getDataMut_effect overwrite
  | setState serialized => exact setState_effect serialized
  | setDataFromSlice data => exact setDataFromSlice_effect data
  | setDataLength newLength => exact setDataLength_effect newLength
  | extendFromSlice data => exact extendFromSlice_effect data
  | setExecutable isExecutable => exact setExecutable_effect rent isExecutable

end

end Agave.Transaction

