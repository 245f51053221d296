/-
  Agave.TransactionContext.Ownership

  What a program can do to the accounts of its instruction.

  Whether a call is allowed is decided by the owner the account has at that call.  `Respects`
  compares two moments of one account: it holds across every call, and it composes, also when the
  program gives the account away between the two, since it cannot take it back.
-/

import Agave.TransactionContext.Accounts

namespace Agave.Transaction

open Pubkey

/-- `InstructionAccount`: an account of the transaction, as an instruction refers to it. -/
structure InstructionAccount where
  indexInTransaction : Nat
  isWritable : Bool

/-- The frame of an instruction: the program that runs, and its accounts. -/
structure InstructionFrame where
  programIndex : Nat
  accounts : List InstructionAccount

namespace InstructionFrame

/-- Borrowing an account of the instruction. -/
def borrowed (frame : InstructionFrame) (account : InstructionAccount) :
    BorrowedInstructionAccount where
  indexInTransaction := account.indexInTransaction
  isWritable := account.isWritable
  programIndex := frame.programIndex

/-- A call on the account at an index of the instruction. -/
def call (rent : Rent) (frame : InstructionFrame) (indexInInstruction : Nat)
    (mutation : Mutation) : Call := fun s =>
  match frame.accounts[indexInInstruction]? with
  | none => (.error .missingAccount, s)
  | some account => mutation.apply rent (frame.borrowed account) s

/-- The calls of a program, one after the other, whatever they return. -/
def run (rent : Rent) (frame : InstructionFrame) (calls : List (Nat × Mutation))
    (s : TransactionAccounts) : TransactionAccounts :=
  calls.foldl (fun s c => (frame.call rent c.1 c.2 s).2) s

/-- The instruction may write to the account. -/
def IsWritable (frame : InstructionFrame) (indexInTransaction : Nat) : Prop :=
  ∃ account ∈ frame.accounts,
    account.indexInTransaction = indexInTransaction ∧ account.isWritable = true

end InstructionFrame

/-! ## Two moments of an account -/

/-- What a program, given by its key, may do to an account over time. -/
structure Respects (program : Option Pubkey) (before after : Account) : Prop where
  external : program ≠ some before.owner →
    after.owner = before.owner ∧ after.data = before.data ∧
      after.executable = before.executable ∧ before.lamports ≤ after.lamports
  given : program = some before.owner → after.owner ≠ before.owner → ∀ x ∈ after.data, x = 0

theorem Respects.refl (program : Option Pubkey) (account : Account) :
    Respects program account account where
  external _ := ⟨rfl, rfl, rfl, le_rfl⟩
  given _ h := absurd rfl h

/-- An account that was given away is out of reach. -/
theorem Respects.trans {program : Option Pubkey} {a b c : Account}
    (hab : Respects program a b) (hbc : Respects program b c) : Respects program a c where
  external hprogram := by
    obtain ⟨howner, hdata, hexecutable, hlamports⟩ := hab.external hprogram
    obtain ⟨howner', hdata', hexecutable', hlamports'⟩ := hbc.external (howner ▸ hprogram)
    exact ⟨howner'.trans howner, hdata'.trans hdata, hexecutable'.trans hexecutable,
      hlamports.trans hlamports'⟩
  given hprogram hchanged := by
    by_cases hmid : b.owner = a.owner
    · exact hbc.given (hmid ▸ hprogram) (hmid ▸ hchanged)
    · have hlost : program ≠ some b.owner := by
        rw [hprogram]
        exact fun h => hmid (Option.some.inj h).symm
      rw [(hbc.external hlost).2.1]
      exact hab.given hprogram hmid

@[simp]
theorem isOwnedByProgram_iff {s : TransactionAccounts} {programIndex : Nat} {account : Account} :
    s.isOwnedByProgram programIndex account = true ↔
      s.keys[programIndex]? = some account.owner := by
  unfold TransactionAccounts.isOwnedByProgram
  cases s.keys[programIndex]? with
  | none => simp
  | some programKey => simp

/-! ## One call -/

variable {written account : Account} {lamportsDelta resizeDelta : Int} {index : Nat}

section

variable {b : BorrowedInstructionAccount} {s s' : TransactionAccounts}

theorem Effect.keys_eq (h : Effect b s s') : s'.keys = s.keys := by
  cases h <;> rfl

theorem getElem?_written (haccount : s.accounts[index]? = some account) (writtenIndex : Nat) :
    (s.written writtenIndex written lamportsDelta resizeDelta).accounts[index]? =
      some (if writtenIndex = index then written else account) := by
  have hlt := (List.getElem?_eq_some_iff.mp haccount).1
  by_cases h : writtenIndex = index
  · subst h
    rw [if_pos rfl]
    exact List.getElem?_set_self hlt
  · rw [if_neg h]
    exact (List.getElem?_set_ne h).trans haccount

theorem respects_written {old : Account} (hold : s.accounts[b.indexInTransaction]? = some old)
    (hwritable : b.isWritable = true) (hrespects : Respects s.keys[b.programIndex]? old written)
    (haccount : s.accounts[index]? = some account) :
    ∃ after, (s.written b.indexInTransaction written lamportsDelta resizeDelta).accounts[index]? =
        some after ∧
      Respects s.keys[b.programIndex]? account after ∧
      (¬ (b.indexInTransaction = index ∧ b.isWritable = true) → after = account) := by
  refine ⟨_, getElem?_written haccount _, ?_⟩
  by_cases h : b.indexInTransaction = index
  · rw [if_pos h]
    rw [h, haccount] at hold
    cases hold
    exact ⟨hrespects, fun hnot => absurd ⟨h, hwritable⟩ hnot⟩
  · rw [if_neg h]
    exact ⟨.refl _ _, fun _ => rfl⟩

theorem Effect.respects (h : Effect b s s') (haccount : s.accounts[index]? = some account) :
    ∃ after, s'.accounts[index]? = some after ∧
      Respects s.keys[b.programIndex]? account after ∧
      (¬ (b.indexInTransaction = index ∧ b.isWritable = true) → after = account) := by
  cases h with
  | unchanged => exact ⟨account, haccount, .refl _ _, fun _ => rfl⟩
  | lamports hold hwritable howned =>
    refine respects_written hold hwritable ⟨fun hprogram => ?_, fun _ hne => absurd rfl hne⟩
      haccount
    rw [isOwnedByProgram_iff] at howned
    exact ⟨rfl, rfl, rfl, howned.resolve_left hprogram⟩
  | owner hold hwritable howned hzero =>
    rw [isOwnedByProgram_iff] at howned
    exact respects_written hold hwritable
      ⟨fun hprogram => absurd howned hprogram, fun _ _ => hzero⟩ haccount
  | data hold hwritable howned _ =>
    rw [isOwnedByProgram_iff] at howned
    exact respects_written hold hwritable
      ⟨fun hprogram => absurd howned hprogram, fun _ hne => absurd rfl hne⟩ haccount
  | executable hold hwritable howned =>
    rw [isOwnedByProgram_iff] at howned
    exact respects_written hold hwritable
      ⟨fun hprogram => absurd howned hprogram, fun _ hne => absurd rfl hne⟩ haccount

end

/-! ## A run -/

namespace InstructionFrame

variable {rent : Rent} {frame : InstructionFrame} {s : TransactionAccounts}

theorem call_respects (rent : Rent) (frame : InstructionFrame) (indexInInstruction : Nat)
    (mutation : Mutation) (haccount : s.accounts[index]? = some account) :
    (frame.call rent indexInInstruction mutation s).2.keys = s.keys ∧
      ∃ after, (frame.call rent indexInInstruction mutation s).2.accounts[index]? = some after ∧
        Respects s.keys[frame.programIndex]? account after ∧
        (¬ frame.IsWritable index → after = account) := by
  unfold call
  cases hentry : frame.accounts[indexInInstruction]? with
  | none => exact ⟨rfl, account, haccount, .refl _ _, fun _ => rfl⟩
  | some entry =>
    have heffect := apply_effect (b := frame.borrowed entry) (s := s) rent mutation
    obtain ⟨after, hafter, hrespects, hreadonly⟩ := heffect.respects haccount
    refine ⟨heffect.keys_eq, after, hafter, hrespects, fun hnot => hreadonly ?_⟩
    rintro ⟨hindex, hwritable⟩
    exact hnot ⟨entry, List.mem_of_getElem? hentry, hindex, hwritable⟩

theorem run_respects (rent : Rent) (frame : InstructionFrame) (calls : List (Nat × Mutation))
    (haccount : s.accounts[index]? = some account) :
    (frame.run rent calls s).keys = s.keys ∧
      ∃ after, (frame.run rent calls s).accounts[index]? = some after ∧
        Respects s.keys[frame.programIndex]? account after ∧
        (¬ frame.IsWritable index → after = account) := by
  induction calls generalizing s account with
  | nil => exact ⟨rfl, account, haccount, .refl _ _, fun _ => rfl⟩
  | cons c calls ih =>
    obtain ⟨hkeys, mid, hmid, hrespects, hreadonly⟩ :=
      call_respects rent frame c.1 c.2 haccount
    obtain ⟨hkeys', after, hafter, hrespects', hreadonly'⟩ := ih hmid
    rw [hkeys] at hrespects'
    exact ⟨hkeys'.trans hkeys, after, hafter, hrespects.trans hrespects',
      fun hnot => (hreadonly' hnot).trans (hreadonly hnot)⟩

theorem run_append (earlier later : List (Nat × Mutation)) :
    frame.run rent (earlier ++ later) s = frame.run rent later (frame.run rent earlier s) :=
  List.foldl_append

/-- The isolation of programs: whatever calls a program makes, an account that is not writable keeps
    everything, an account of another program loses nothing, and an account that the program gives
    away has only zeros from then on. -/
theorem ownership_rules (rent : Rent) (frame : InstructionFrame) (s : TransactionAccounts)
    (calls : List (Nat × Mutation)) (index : Nat) (account : Account)
    (haccount : s.accounts[index]? = some account) :
    ∃ after, (frame.run rent calls s).accounts[index]? = some after ∧
      (¬ frame.IsWritable index → after = account) ∧
      (s.isOwnedByProgram frame.programIndex account = false →
        s.isOwnedByProgram frame.programIndex after = false ∧
        after.owner = account.owner ∧ after.data = account.data ∧
        after.executable = account.executable ∧ account.lamports ≤ after.lamports) ∧
      (s.isOwnedByProgram frame.programIndex account = true →
        ∀ earlier later mid, calls = earlier ++ later →
          (frame.run rent earlier s).accounts[index]? = some mid → mid.owner ≠ account.owner →
          after.owner ≠ account.owner ∧ ∀ x ∈ after.data, x = 0) := by
  obtain ⟨-, after, hafter, hrespects, hreadonly⟩ :=
    run_respects rent frame calls haccount
  refine ⟨after, hafter, hreadonly, fun hexternal => ?_, ?_⟩
  · have hprogram : s.keys[frame.programIndex]? ≠ some account.owner :=
      mt isOwnedByProgram_iff.mpr (by rw [hexternal]; exact Bool.false_ne_true)
    obtain ⟨howner, hrest⟩ := hrespects.external hprogram
    refine ⟨?_, howner, hrest⟩
    rw [← Bool.not_eq_true, isOwnedByProgram_iff, howner]
    exact hprogram
  · intro howned earlier later mid hcalls hmid hgiven
    rw [isOwnedByProgram_iff] at howned
    -- from the moment of the change the account is one of another program
    obtain ⟨hkeys, _⟩ := run_respects rent frame earlier haccount
    obtain ⟨-, after', hafter', hlater, -⟩ :=
      run_respects rent frame later hmid
    rw [← run_append, ← hcalls, hafter] at hafter'
    cases hafter'
    have hlost : s.keys[frame.programIndex]? ≠ some mid.owner := by
      rw [howned]
      exact fun h => hgiven (Option.some.inj h).symm
    rw [hkeys] at hlater
    have hkept : after.owner ≠ account.owner := by
      rw [(hlater.external hlost).1]
      exact hgiven
    exact ⟨hkept, hrespects.given howned hkept⟩

/-- A program at key 7 gives its account to the program at key 8, and can then
    neither write to it nor take lamports from it. -/
theorem ownership_rules_given_away :
    ∃ after, ((InstructionFrame.mk 1 [⟨0, true⟩]).run (fun _ _ => true)
        [(0, .setLamports 5), (0, .setOwner (ofNat 8)), (0, .setDataFromSlice [1]),
          (0, .setLamports 0)]
        (TransactionAccounts.new [(ofNat 3, ⟨4, ofNat 7, false, [0, 0]⟩),
          (ofNat 7, ⟨1, ofNat 9, true, []⟩)])).accounts[0]? = some after ∧
      after.owner ≠ ofNat 7 ∧ ∀ x ∈ after.data, x = 0 := by
  obtain ⟨after, hafter, -, -, hgiven⟩ :=
    ownership_rules (fun _ _ => true) (InstructionFrame.mk 1 [⟨0, true⟩])
      (TransactionAccounts.new [(ofNat 3, ⟨4, ofNat 7, false, [0, 0]⟩),
        (ofNat 7, ⟨1, ofNat 9, true, []⟩)])
      [(0, .setLamports 5), (0, .setOwner (ofNat 8)), (0, .setDataFromSlice [1]),
        (0, .setLamports 0)] 0 ⟨4, ofNat 7, false, [0, 0]⟩ rfl
  exact ⟨after, hafter, hgiven (by decide +kernel)
    [(0, .setLamports 5), (0, .setOwner (ofNat 8))]
    [(0, .setDataFromSlice [1]), (0, .setLamports 0)]
    ⟨5, ofNat 8, false, [0, 0]⟩ rfl (by decide +kernel) (by decide +kernel)⟩

end InstructionFrame

end Agave.Transaction

