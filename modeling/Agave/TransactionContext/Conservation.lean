/-
  Agave.TransactionContext.Conservation

  Conservation of lamports over the events of a transaction.

  The runtime never adds balances up: it trusts a running sum that every call keeps.  `Change` is
  the general form of what an event does to the accounts; `Balanced` and `Measured` say what the
  running sums are worth, and a change keeps both.
-/

import Agave.TransactionContext.Context
import Mathlib.Algebra.Order.BigOperators.Group.List
import Mathlib.Tactic.Linarith
import Mathlib.Tactic.Ring

namespace Agave.Transaction

open List TransactionAccounts

/-! ## Sums over the accounts -/

/-- The sum of a measure over a list of accounts. -/
def total (measure : Account → Nat) (accounts : List Account) : Int :=
  (accounts.map (fun account => (measure account : Int))).sum

variable {index : Nat} {old account : Account} {accounts : List Account}
  {initial : TransactionAccounts} {sysvarIndex : Option Nat}

theorem total_set (hold : accounts[index]? = some old)
    (measure : Account → Nat) (account : Account) :
    total measure (accounts.set index account) =
      total measure accounts + ((measure account : Int) - measure old) := by
  obtain ⟨hlt, hget⟩ := List.getElem?_eq_some_iff.mp hold
  rw [total, List.map_set, List.sum_set', dif_pos (by rw [List.length_map]; exact hlt),
    getElem_map, hget, total]
  ring

theorem le_total (h : account ∈ accounts) (measure : Account → Nat) :
    (measure account : Int) ≤ total measure accounts := by
  apply single_le_sum _ _ (mem_map_of_mem h)
  intro x hx
  obtain ⟨other, -, rfl⟩ := mem_map.mp hx
  exact Int.natCast_nonneg _

/-- The sum of the balances. -/
def TransactionAccounts.totalLamports (s : TransactionAccounts) : Int :=
  total Account.lamports s.accounts

/-- The sum of the data lengths. -/
def TransactionAccounts.totalDataLen (s : TransactionAccounts) : Int :=
  total (fun account => account.data.length) s.accounts

/-! ## Changes -/

/-- What a call or a return does to the accounts: `sysvarIndex` is the place of
    the instructions sysvar, the one account that is written without a touch. -/
inductive Stored (sysvarIndex : Option Nat) (s : TransactionAccounts) :
    TransactionAccounts → Prop where
  | unchanged : Stored sysvarIndex s s
  | stored {index : Nat} {old : Account} {data : List UInt8}
      (hindex : sysvarIndex = some index)
      (hold : s.accounts[index]? = some old)
      (hlen : data.length = old.data.length) :
      Stored sysvarIndex s (s.stored index { old with data := data })

/-- What an event does to the accounts. -/
inductive Change (sysvarIndex : Option Nat) (s : TransactionAccounts) :
    TransactionAccounts → Prop where
  | stored {s' : TransactionAccounts} (h : Stored sysvarIndex s s') : Change sysvarIndex s s'
  | written {index : Nat} {old account : Account} {lamportsDelta resizeDelta : Int}
      (hold : s.accounts[index]? = some old)
      (hlamports : lamportsDelta = s.lamportsDelta + ((account.lamports : Int) - old.lamports))
      (hlen : (account.data.length = old.data.length ∧ resizeDelta = s.resizeDelta) ∨
        ResizedTo s old.data.length account.data.length resizeDelta) :
      Change sysvarIndex s (s.written index account lamportsDelta resizeDelta)

section

variable {s s' : TransactionAccounts}

theorem Change.refl : Change sysvarIndex s s := .stored .unchanged

/-- The running sum is left to the calls of the programs. -/
theorem Stored.lamportsDelta_eq (h : Stored sysvarIndex s s') :
    s'.lamportsDelta = s.lamportsDelta := by
  cases h <;> rfl

theorem Effect.change {b : BorrowedInstructionAccount} (h : Effect b s s') :
    Change sysvarIndex s s' := by
  cases h with
  | unchanged => exact .refl
  | lamports hold _ _ => exact .written hold rfl (Or.inl ⟨rfl, rfl⟩)
  | owner hold _ _ _ => exact .written hold (by ring) (Or.inl ⟨rfl, rfl⟩)
  | data hold _ _ hlen => exact .written hold (by ring) hlen
  | executable hold _ _ => exact .written hold (by ring) (Or.inl ⟨rfl, rfl⟩)

theorem change_touched (haccount : s.accounts[index]? = some account) :
    Change sysvarIndex s (s.touched index) := by
  have hchange : Change sysvarIndex s (s.written index account _ _) :=
    .written haccount rfl (Or.inl ⟨rfl, rfl⟩)
  have hsame : s.accounts.set index account = s.accounts := by
    obtain ⟨hlt, hget⟩ := List.getElem?_eq_some_iff.mp haccount
    rw [← hget, List.set_getElem_self]
  simpa only [written, touched, hsame, sub_self,
    add_zero] using hchange

theorem tryBorrowMut_eq_ok {borrowed : Borrowed} (h : s.tryBorrowMut borrowed index = .ok account) :
    s.accounts[index]? = some account := by
  unfold tryBorrowMut at h
  cases haccount : s.accounts[index]? with
  | none => simp [haccount] at h
  | some account' =>
    rw [haccount] at h
    dsimp only at h
    split_ifs at h
    cases h
    rfl

/-- The handler stays within what the transaction may grow by. -/
theorem newLen_resizedTo (v : AccessViolation) (oldLen : Nat)
    (hgrowth : s.resizeDelta ≤ maxAccountDataGrowthPerTransaction) :
    ResizedTo s oldLen (v.newLen s oldLen)
      (saturateI64 (s.resizeDelta + saturateI64 ((v.newLen s oldLen : Int) - oldLen))) := by
  refine ⟨rfl, (min_le_left _ _).trans (min_le_right _ _), ?_⟩
  have hle : v.newLen s oldLen ≤ oldLen + s.remainingAllowedGrowth := min_le_right _ _
  have hrest : (s.remainingAllowedGrowth : Int) ≤
      maxAccountDataGrowthPerTransaction - s.resizeDelta := by
    unfold remainingAllowedGrowth
    unfold saturateI64
    unfold maxAccountDataGrowthPerTransaction maxAccountDataLen at *
    omega
  unfold maxAccountDataGrowthPerTransaction maxAccountDataLen saturateI64 at *
  omega

theorem accessViolationHandler_change (borrowed : Borrowed) (v : AccessViolation)
    (hgrowth : s.resizeDelta ≤ maxAccountDataGrowthPerTransaction) :
    Change sysvarIndex s (accessViolationHandler borrowed v s) := by
  unfold accessViolationHandler
  cases v.accessType with
  | load => exact .refl
  | store =>
    cases v.region.accessViolationHandlerPayload with
    | none => exact .refl
    | some index =>
      dsimp only
      by_cases hfar : v.addressSpaceReservedForAccount < v.requestedLength
      · rw [if_pos hfar]
        exact .refl
      rw [if_neg hfar]
      cases hborrow : s.tryBorrowMut borrowed index with
      | error e => exact .refl
      | ok account =>
        have haccount := tryBorrowMut_eq_ok hborrow
        dsimp only
        split_ifs with hflag hfits
        · exact .refl
        · exact change_touched haccount
        · refine Change.written
            haccount (by rw [sub_self, add_zero]; rfl) (Or.inr ?_)
          rw [length_resized]
          exact newLen_resizedTo v account.data.length hgrowth

end

/-! ## What the running sums are worth -/

/-- The running sum of the lamports is the change of the total, what the transaction grows by is
    bounded, and an account without its flag is as it was. -/
structure Balanced (sysvarIndex : Option Nat) (initial s : TransactionAccounts) : Prop where
  keys : s.keys = initial.keys
  lamports : s.lamportsDelta = s.totalLamports - initial.totalLamports
  growth : s.resizeDelta ≤ maxAccountDataGrowthPerTransaction
  touched : ∀ index, sysvarIndex ≠ some index →
    s.accounts[index]? ≠ initial.accounts[index]? → s.touchedFlags[index]? = some true

/-- The running sum of the data lengths is the change of the total.  The
    second field is what keeps it from saturating. -/
structure Measured (initial s : TransactionAccounts) : Prop where
  resize : s.resizeDelta = s.totalDataLen - initial.totalDataLen
  lengths : ∀ account ∈ s.accounts, (account.data.length : Int) < 2 ^ 63

section

variable {s s' : TransactionAccounts}

section

variable (h : Balanced sysvarIndex initial s)
include h

/-- A flag stays set, and the flag of the written account is set. -/
theorem Balanced.written {lamportsDelta resizeDelta : Int} (hold : s.accounts[index]? = some old)
    (hlamports : lamportsDelta = s.lamportsDelta + ((account.lamports : Int) - old.lamports))
    (hgrowth : resizeDelta ≤ maxAccountDataGrowthPerTransaction) :
    Balanced sysvarIndex initial (s.written index account lamportsDelta resizeDelta) where
  keys := h.keys
  lamports := by
    show lamportsDelta = total _ (s.accounts.set index account) - _
    rw [total_set hold, hlamports, h.lamports, TransactionAccounts.totalLamports]
    ring
  growth := hgrowth
  touched i hi hchanged := by
    show (s.touchedFlags.set index true)[i]? = some true
    have hlt : index < s.touchedFlags.length := by
      rw [s.length_flags]
      exact (List.getElem?_eq_some_iff.mp hold).1
    by_cases hindex : index = i
    · subst hindex
      exact getElem?_set_self hlt
    · rw [getElem?_set_ne hindex]
      apply h.touched i hi
      rwa [show (s.written index account lamportsDelta resizeDelta).accounts[i]? =
        s.accounts[i]? from getElem?_set_ne hindex] at hchanged

/-- The sysvar is the one account that may change without its flag. -/
theorem Balanced.stored (hstored : Stored sysvarIndex s s') :
    Balanced sysvarIndex initial s' := by
  cases hstored with
  | unchanged => exact h
  | @stored index old data hindex hold hlen =>
    refine ⟨h.keys, ?_, h.growth, fun i hi hchanged => h.touched i hi ?_⟩
    · show s.lamportsDelta = total _ (s.accounts.set index _) - _
      rw [total_set hold, h.lamports, TransactionAccounts.totalLamports]
      ring
    · have hne : index ≠ i := fun heq => hi (heq ▸ hindex)
      rwa [show (s.stored index { old with data := data }).accounts[i]? = s.accounts[i]? from
        getElem?_set_ne hne] at hchanged

theorem Balanced.change (hchange : Change sysvarIndex s s') :
    Balanced sysvarIndex initial s' := by
  cases hchange with
  | stored hstored => exact h.stored hstored
  | written hold hlamports hlen =>
    refine h.written hold hlamports ?_
    rcases hlen with ⟨-, hsame⟩ | hresized
    · rw [hsame]
      exact h.growth
    · exact hresized.2.2

end

section

variable (h : Measured initial s)
include h

/-- A resize that is allowed does not saturate. -/
theorem ResizedTo.exact (hinitial : initial.totalDataLen < 2 ^ 63)
    {newLen : Nat} {resizeDelta : Int} (hold : s.accounts[index]? = some old)
    (hresized : ResizedTo s old.data.length newLen resizeDelta) :
    resizeDelta = s.resizeDelta + ((newLen : Int) - old.data.length) := by
  have hmem := mem_of_getElem? hold
  have hlen := h.lengths old hmem
  have hle : (old.data.length : Int) ≤ s.totalDataLen :=
    le_total hmem (fun account => account.data.length)
  have hresize := h.resize
  obtain ⟨heq, hmax, hgrowth⟩ := hresized
  unfold maxAccountDataGrowthPerTransaction maxAccountDataLen at *
  unfold saturateI64 at heq
  omega

theorem Measured.set (hold : s.accounts[index]? = some old)
    (hlen : (account.data.length : Int) < 2 ^ 63) (hs : s'.accounts = s.accounts.set index account)
    (hresize : s'.resizeDelta = s.resizeDelta + ((account.data.length : Int) - old.data.length)) :
    Measured initial s' where
  resize := by
    rw [hresize, TransactionAccounts.totalDataLen, hs, total_set hold, h.resize,
      TransactionAccounts.totalDataLen]
    ring
  lengths other hother := by
    rw [hs] at hother
    rcases mem_or_eq_of_mem_set hother with hmem | heq
    · exact h.lengths other hmem
    · rw [heq]
      exact hlen

theorem Measured.stored (hstored : Stored sysvarIndex s s') :
    Measured initial s' := by
  cases hstored with
  | unchanged => exact h
  | stored hindex hold hlen =>
    refine h.set hold ?_ rfl ?_
    · rw [hlen]
      exact h.lengths _ (mem_of_getElem? hold)
    · show s.resizeDelta = s.resizeDelta + _
      rw [hlen]
      ring

theorem Measured.change (hinitial : initial.totalDataLen < 2 ^ 63)
    (hchange : Change sysvarIndex s s') : Measured initial s' := by
  cases hchange with
  | stored hstored => exact h.stored hstored
  | @written index old account lamportsDelta resizeDelta hold hlamports hlen =>
    rcases hlen with ⟨hsame, hkept⟩ | hresized
    · refine h.set hold ?_ rfl ?_
      · rw [hsame]
        exact h.lengths old (mem_of_getElem? hold)
      · show resizeDelta = _
        rw [hkept, hsame]
        ring
    · refine h.set hold ?_ rfl (hresized.exact h hinitial hold)
      have hmax := hresized.2.1
      unfold maxAccountDataLen at hmax
      omega

end

end

/-! ## Events -/

namespace TransactionContext

variable {sysvars : Sysvars} {rent : Rent} {ctx : TransactionContext} {borrowed : Borrowed}

theorem storeCurrentIndex_stored (ctx : TransactionContext) (sysvars : Sysvars)
    (borrowed : Borrowed) (current : Nat) :
    Stored (ctx.accounts.findIndexOfAccount sysvars.instructions) ctx.accounts
      (ctx.storeCurrentIndex sysvars borrowed current).2.accounts := by
  unfold storeCurrentIndex
  cases hindex : ctx.accounts.findIndexOfAccount sysvars.instructions with
  | none => exact .unchanged
  | some index =>
    dsimp only
    cases hborrow : ctx.accounts.tryBorrowMut borrowed index with
    | error e => exact .unchanged
    | ok account =>
      dsimp only
      by_cases howner : account.owner ≠ sysvars.sysvar
      · rw [if_pos howner]
        exact .unchanged
      rw [if_neg howner]
      cases hdata : sysvars.storeCurrentIndexChecked account.data (current % 2 ^ 16) with
      | error e => exact .unchanged
      | ok data =>
        exact .stored rfl (tryBorrowMut_eq_ok hborrow) (sysvars.length_stored hdata)

theorem countCall_accounts : ctx.countCall.2.2.accounts = ctx.accounts := by
  unfold countCall
  split_ifs <;> rfl

/-- A call writes to the instructions sysvar only. -/
theorem push_stored :
    Stored (ctx.accounts.findIndexOfAccount sysvars.instructions) ctx.accounts
      (ctx.push sysvars borrowed).2.accounts := by
  unfold push
  dsimp only
  set counted := (ctx.setNestingLevel ctx.instructionStack.length).countCall with hcounted
  have haccounts : counted.2.2.accounts = ctx.accounts := countCall_accounts
  split_ifs
  · exact .unchanged
  · exact .unchanged
  · exact .unchanged
  · rw [haccounts]
    exact .unchanged
  · have hstored :=
      (counted.2.2.enter counted.1).storeCurrentIndex_stored sysvars borrowed counted.2.1
    rwa [show (counted.2.2.enter counted.1).accounts = ctx.accounts from haccounts] at hstored

/-- A nested call is refused while the lamports do not add up. -/
theorem push_ok (hnested : ctx.instructionStack ≠ [])
    (hok : (ctx.push sysvars borrowed).1 = .ok ()) : ctx.accounts.lamportsDelta = 0 := by
  by_contra hdelta
  rw [push, if_pos ⟨hnested, hdelta⟩] at hok
  cases hok

theorem pop_accounts : (ctx.pop borrowed).2.accounts = ctx.accounts := by
  unfold pop
  dsimp only
  split_ifs
  · rfl
  · cases ctx.detectUnbalancedInstruction borrowed with
    | error e => rfl
    | ok detected => cases detected <;> rfl

/-- The check of `pop` reads the running sum. -/
theorem detectUnbalancedInstruction_eq_ok {detected : Bool}
    (h : ctx.detectUnbalancedInstruction borrowed = .ok detected) :
    detected = decide (ctx.accounts.lamportsDelta ≠ 0) := by
  unfold detectUnbalancedInstruction at h
  cases hlast : ctx.instructionStack.getLast? with
  | none => simp [hlast] at h
  | some indexInTrace =>
    rw [hlast] at h
    dsimp only at h
    cases hframe : ctx.instructionTrace[indexInTrace]? with
    | none => simp [hframe] at h
    | some instruction =>
      rw [hframe] at h
      dsimp only at h
      split_ifs at h
      cases hborrow : ctx.accounts.tryBorrowMut borrowed
          instruction.programAccountIndexInTx with
      | error e =>
        rw [hborrow] at h
        cases e <;> cases h
      | ok account =>
        rw [hborrow] at h
        cases h
        rfl

/-- An instruction ends only with the lamports it began with. -/
theorem pop_ok (hok : (ctx.pop borrowed).1 = .ok ()) : ctx.accounts.lamportsDelta = 0 := by
  unfold pop at hok
  dsimp only at hok
  split_ifs at hok
  cases hdetected : ctx.detectUnbalancedInstruction borrowed with
  | error e => simp [hdetected] at hok
  | ok detected =>
    have hvalue := detectUnbalancedInstruction_eq_ok hdetected
    cases detected with
    | true => simp [hdetected] at hok
    | false => simpa using hvalue.symm

theorem configureInstructionAtIndex_accounts (instructionIndex programIndex : Nat) :
    (ctx.configureInstructionAtIndex instructionIndex programIndex).2.accounts = ctx.accounts := by
  unfold configureInstructionAtIndex
  cases ctx.instructionTrace[instructionIndex]? <;> rfl

theorem step_change (sysvars : Sysvars) (rent : Rent)
    (hgrowth : ctx.accounts.resizeDelta ≤ maxAccountDataGrowthPerTransaction) (event : Event) :
    Change (ctx.accounts.findIndexOfAccount sysvars.instructions) ctx.accounts
      (ctx.step sysvars rent event).2.accounts := by
  cases event with
  | configure instructionIndex programIndex =>
    rw [step, configureInstructionAtIndex_accounts]
    exact .refl
  | push borrowed => exact .stored push_stored
  | pop borrowed =>
    rw [step, pop_accounts]
    exact .refl
  | mutate account mutation => exact (apply_effect rent mutation).change
  | accessViolation borrowed violation =>
    exact accessViolationHandler_change borrowed violation hgrowth

/-! ## Runs -/

theorem findIndexOfAccount_congr {s s' : TransactionAccounts} (h : s'.keys = s.keys)
    (pubkey : Pubkey) : s'.findIndexOfAccount pubkey = s.findIndexOfAccount pubkey := by
  rw [TransactionAccounts.findIndexOfAccount, TransactionAccounts.findIndexOfAccount, h]

section

variable (rent : Rent)
  (h : Balanced (initial.findIndexOfAccount sysvars.instructions) initial ctx.accounts)
include h

theorem step_balanced (event : Event) :
    Change (initial.findIndexOfAccount sysvars.instructions) ctx.accounts
        (ctx.step sysvars rent event).2.accounts ∧
      Balanced (initial.findIndexOfAccount sysvars.instructions) initial
        (ctx.step sysvars rent event).2.accounts := by
  have hchange := step_change sysvars rent h.growth event
  rw [findIndexOfAccount_congr h.keys] at hchange
  exact ⟨hchange, h.change hchange⟩

theorem run_balanced (events : List Event) :
    Balanced (initial.findIndexOfAccount sysvars.instructions) initial
        (ctx.run sysvars rent events).accounts ∧
      (initial.totalDataLen < 2 ^ 63 → Measured initial ctx.accounts →
        Measured initial (ctx.run sysvars rent events).accounts) := by
  induction events generalizing ctx with
  | nil => exact ⟨h, fun _ hmeasured => hmeasured⟩
  | cons event events ih =>
    obtain ⟨hchange, hstep⟩ := step_balanced rent h event
    obtain ⟨hbalanced, hmeasured⟩ := ih hstep
    exact ⟨hbalanced, fun hinitial hctx => hmeasured hinitial (hctx.change hinitial hchange)⟩

end

theorem balanced_new (sysvarIndex : Option Nat) (accounts : List (Pubkey × Account)) :
    Balanced sysvarIndex (.new accounts) (.new accounts) where
  keys := rfl
  lamports := (sub_self _).symm
  growth := by
    show (0 : Int) ≤ _
    unfold maxAccountDataGrowthPerTransaction
    omega
  touched _ _ h := absurd rfl h

theorem measured_new {accounts : List (Pubkey × Account)}
    (h : (TransactionAccounts.new accounts).totalDataLen < 2 ^ 63) :
    Measured (.new accounts) (.new accounts) where
  resize := (sub_self _).symm
  lengths _ haccount :=
    (le_total haccount (fun account => account.data.length)).trans_lt h

/-- Conservation over any events, failed calls included: the running sums are what the totals have
    changed by, so that an instruction that calls or returns has neither made nor lost a lamport,
    and an account that has changed has its flag.  The lengths are measured in an `i64`, which holds
    the length of all data in memory. -/
theorem lamports_conserved (sysvars : Sysvars) (rent : Rent) (accounts : List (Pubkey × Account))
    (instructionStackCapacity instructionTraceCapacity numberOfTopLevelInstructions : Nat)
    (events : List Event) :
    let ctx := (TransactionContext.new accounts instructionStackCapacity
      instructionTraceCapacity numberOfTopLevelInstructions).run sysvars rent events
    let initial := TransactionAccounts.new accounts
    ctx.accounts.lamportsDelta = ctx.accounts.totalLamports - initial.totalLamports ∧
    (initial.totalDataLen < 2 ^ 63 →
      ctx.accounts.resizeDelta = ctx.accounts.totalDataLen - initial.totalDataLen) ∧
    ctx.accounts.resizeDelta ≤ maxAccountDataGrowthPerTransaction ∧
    (∀ borrowed, ctx.instructionStack ≠ [] → (ctx.push sysvars borrowed).1 = .ok () →
      (ctx.push sysvars borrowed).2.accounts.totalLamports = initial.totalLamports) ∧
    (∀ borrowed, (ctx.pop borrowed).1 = .ok () →
      (ctx.pop borrowed).2.accounts.totalLamports = initial.totalLamports) ∧
    ∀ index, initial.findIndexOfAccount sysvars.instructions ≠ some index →
      ctx.accounts.accounts[index]? ≠ initial.accounts[index]? →
      ctx.accounts.touchedFlags[index]? = some true := by
  intro ctx initial
  have hnew : Balanced (initial.findIndexOfAccount sysvars.instructions) initial
      (TransactionContext.new accounts instructionStackCapacity instructionTraceCapacity
        numberOfTopLevelInstructions).accounts := balanced_new _ accounts
  obtain ⟨hbalanced, hmeasured⟩ := run_balanced rent hnew events
  -- push and pop do not move lamports, so the totals are those before the call
  have htotal : ∀ event, (ctx.step sysvars rent event).2.accounts.lamportsDelta = 0 →
      (ctx.step sysvars rent event).2.accounts.totalLamports = initial.totalLamports := by
    intro event hdelta
    have hafter := (step_balanced rent hbalanced event).2.lamports
    rw [hdelta] at hafter
    linarith
  refine ⟨hbalanced.lamports, fun hinitial => (hmeasured hinitial (measured_new hinitial)).resize,
    hbalanced.growth, fun borrowed hnested hok => ?_, fun borrowed hok => ?_, hbalanced.touched⟩
  · apply htotal (.push borrowed)
    show (ctx.push sysvars borrowed).2.accounts.lamportsDelta = 0
    rw [push_stored.lamportsDelta_eq]
    exact push_ok hnested hok
  · apply htotal (.pop borrowed)
    show (ctx.pop borrowed).2.accounts.lamportsDelta = 0
    rw [pop_accounts]
    exact pop_ok hok

/-- The index of the instruction is kept in the last two bytes. -/
def lastTwoBytes : Sysvars where
  instructions := Pubkey.ofNat 6
  sysvar := Pubkey.ofNat 7
  storeCurrentIndexChecked data instructionIndex :=
    if data.length < 2 then .error .accountDataTooSmall
    else .ok (data.take (data.length - 2) ++
      [UInt8.ofNat (instructionIndex % 256), UInt8.ofNat (instructionIndex / 256 % 256)])
  length_stored := by
    intro data data' instructionIndex h
    split_ifs at h with hshort
    cases h
    rw [length_append, length_take]
    simp only [length_cons, length_nil]
    omega

/-- A program moves two lamports from one of its accounts to another, and returns. -/
theorem lamports_conserved_transfer :
    let accounts := [(Pubkey.ofNat 1, ⟨5, Pubkey.ofNat 9, false, []⟩),
      (Pubkey.ofNat 2, ⟨3, Pubkey.ofNat 9, false, []⟩),
      (Pubkey.ofNat 9, ⟨1, Pubkey.ofNat 4, true, []⟩)]
    let ctx := (TransactionContext.new accounts 5 64 1).run lastTwoBytes (fun _ _ => true)
      [.configure 0 2, .push (fun _ => false), .mutate ⟨0, true, 2⟩ (.checkedSubLamports 2),
        .mutate ⟨1, true, 2⟩ (.checkedAddLamports 2)]
    (ctx.pop (fun _ => false)).1 = .ok () ∧
      (ctx.pop (fun _ => false)).2.accounts.totalLamports =
        (TransactionAccounts.new accounts).totalLamports := by
  intro accounts ctx
  have hok : (ctx.pop (fun _ => false)).1 = .ok () := by decide
  obtain ⟨-, -, -, -, hpop, -⟩ := lamports_conserved lastTwoBytes (fun _ _ => true) accounts 5 64 1
    [.configure 0 2, .push (fun _ => false), .mutate ⟨0, true, 2⟩ (.checkedSubLamports 2),
      .mutate ⟨1, true, 2⟩ (.checkedAddLamports 2)]
  dsimp only [ctx] at hok ⊢
  exact ⟨hok, hpop _ hok⟩

end TransactionContext

end Agave.Transaction

