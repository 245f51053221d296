/-
  Agave.TransactionContext.Context

  The context of a transaction: the stack of the instructions that run, the trace of all that were
  called, and the handler that grows an account when a program writes past its end.

  Which accounts are borrowed when a call is made is up to the caller, so the calls that borrow an
  account take it as an argument.  The addresses of the sysvar accounts, and how the index of an
  instruction is written into one of them, are matters of another crate; they are parameters here.
  Left out of the context are the return data, the addresses of the regions of the virtual machine,
  and the account lists of the instructions: an account is changed through any
  `BorrowedInstructionAccount`.
-/

import Agave.TransactionContext.Accounts

namespace Agave.Transaction

/-- `InstructionFrame`: an entry of the trace. -/
structure TraceFrame where
  programAccountIndexInTx : Nat
  nestingLevel : Nat

/-- `InstructionFrame::default`. -/
def TraceFrame.default : TraceFrame where
  programAccountIndexInTx := 0
  nestingLevel := 0

/-- `TransactionContext`.  The top of the stack is its last entry. -/
structure TransactionContext where
  accounts : TransactionAccounts
  instructionStackCapacity : Nat
  instructionTraceCapacity : Nat
  instructionStack : List Nat
  instructionTrace : List TraceFrame
  nextTopLevelInstructionIndex : Nat
  numberOfCpisInTrace : Nat

/-- The addresses of the sysvar accounts, and a write that keeps the length of the data. -/
structure Sysvars where
  instructions : Pubkey
  sysvar : Pubkey
  storeCurrentIndexChecked : List UInt8 → Nat → Except InstructionError (List UInt8)
  length_stored : ∀ {data data' : List UInt8} {instructionIndex : Nat},
    storeCurrentIndexChecked data instructionIndex = .ok data' → data'.length = data.length

/-- The accounts that are borrowed when a call is made. -/
abbrev Borrowed := Nat → Bool

/-- `u16::MAX`. -/
def u16Max : Nat := 2 ^ 16 - 1

variable (s : TransactionAccounts)

def TransactionAccounts.tryBorrowMut (borrowed : Borrowed) (index : Nat) :
    Except InstructionError Account :=
  match s.accounts[index]? with
  | none => .error .missingAccount
  | some account => if borrowed index then .error .accountBorrowFailed else .ok account

def TransactionAccounts.findIndexOfAccount (pubkey : Pubkey) :
    Option Nat :=
  s.keys.findIdx? (· = pubkey)

/-- An account is written without a touch. -/
def TransactionAccounts.stored (index : Nat) (account : Account) :
    TransactionAccounts :=
  { s with
    accounts := s.accounts.set index account
    length_flags := by rw [List.length_set, s.length_flags] }

namespace TransactionContext

/-- `TransactionContext::new`.  The trace has one more entry than there are
    instructions, for the next one to be called. -/
def new (accounts : List (Pubkey × Account))
    (instructionStackCapacity instructionTraceCapacity numberOfTopLevelInstructions : Nat) :
    TransactionContext where
  accounts := .new accounts
  instructionStackCapacity
  instructionTraceCapacity
  instructionStack := []
  instructionTrace := List.replicate (numberOfTopLevelInstructions + 1) .default
  nextTopLevelInstructionIndex := 0
  numberOfCpisInTrace := 0

variable (ctx : TransactionContext) (borrowed : Borrowed)

def numberOfCalledInstructionsInTrace : Nat :=
  ctx.nextTopLevelInstructionIndex + ctx.numberOfCpisInTrace

def getInstructionTraceLength : Nat := ctx.instructionTrace.length - 1

/-- `configure_instruction_at_index`, as far as the program goes. -/
def configureInstructionAtIndex (instructionIndex programIndex : Nat) :
    Except InstructionError Unit × TransactionContext :=
  match ctx.instructionTrace[instructionIndex]? with
  | none => (.error .maxInstructionTraceLengthExceeded, ctx)
  | some instruction =>
    (.ok (), { ctx with
      instructionTrace := ctx.instructionTrace.set instructionIndex
        { instruction with programAccountIndexInTx := programIndex } })

/-- The nesting level of the last entry of the trace is set. -/
def setNestingLevel (nestingLevel : Nat) : TransactionContext :=
  { ctx with
    instructionTrace := ctx.instructionTrace.modify (ctx.instructionTrace.length - 1)
      (fun instruction => { instruction with nestingLevel := nestingLevel % 2 ^ 16 }) }

/-- The index of the instruction that is called, the index of the top-level
    instruction it belongs to, and the context with the call counted. -/
def countCall : Nat × Nat × TransactionContext :=
  if ctx.instructionStack = [] then
    (ctx.nextTopLevelInstructionIndex, ctx.nextTopLevelInstructionIndex,
      { ctx with nextTopLevelInstructionIndex := ctx.nextTopLevelInstructionIndex + 1 })
  else
    (ctx.getInstructionTraceLength, ctx.nextTopLevelInstructionIndex - 1,
      { ctx with
        numberOfCpisInTrace := min (ctx.numberOfCpisInTrace + 1) u16Max
        instructionTrace := ctx.instructionTrace ++ [.default] })

/-- The instruction at an index of the trace is on top of the stack. -/
def enter (indexInTrace : Nat) : TransactionContext :=
  { ctx with instructionStack := ctx.instructionStack ++ [indexInTrace] }

/-- The last part of `push`: the instructions sysvar, if the transaction has
    it, is told which instruction runs. -/
def storeCurrentIndex (sysvars : Sysvars) (borrowed : Borrowed)
    (currentTopLevelInstruction : Nat) : Except InstructionError Unit × TransactionContext :=
  match ctx.accounts.findIndexOfAccount sysvars.instructions with
  | none => (.ok (), ctx)
  | some index =>
    match ctx.accounts.tryBorrowMut borrowed index with
    | .error e => (.error e, ctx)
    | .ok account =>
      if account.owner ≠ sysvars.sysvar then (.error .invalidAccountOwner, ctx)
      else
        match sysvars.storeCurrentIndexChecked account.data
            (currentTopLevelInstruction % 2 ^ 16) with
        | .error e => (.error e, ctx)
        | .ok data =>
          (.ok (), { ctx with
            accounts := ctx.accounts.stored index { account with data := data } })

def push (sysvars : Sysvars) (borrowed : Borrowed) :
    Except InstructionError Unit × TransactionContext :=
  let nestingLevel := ctx.instructionStack.length
  if ctx.instructionStack ≠ [] ∧ ctx.accounts.lamportsDelta ≠ 0 then
    (.error .unbalancedInstruction, ctx)
  else if ctx.instructionTrace = [] then (.error .callDepth, ctx)
  else
    let ctx := ctx.setNestingLevel nestingLevel
    if ctx.instructionTraceCapacity ≤ ctx.numberOfCalledInstructionsInTrace then
      (.error .maxInstructionTraceLengthExceeded, ctx)
    else
      let (indexInTrace, currentTopLevelInstruction, ctx) := ctx.countCall
      if ctx.instructionStackCapacity ≤ nestingLevel then (.error .callDepth, ctx)
      else
        (ctx.enter indexInTrace).storeCurrentIndex sysvars borrowed currentTopLevelInstruction

/-- The check of `pop`: that the program account is not borrowed, and whether
    lamports have appeared or disappeared. -/
def detectUnbalancedInstruction : Except InstructionError Bool :=
  match ctx.instructionStack.getLast? with
  | none => .error .callDepth
  | some indexInTrace =>
    match ctx.instructionTrace[indexInTrace]? with
    | none => .error .callDepth
    | some instruction =>
      if instruction.programAccountIndexInTx = u16Max then .error .missingAccount
      else
        match ctx.accounts.tryBorrowMut borrowed instruction.programAccountIndexInTx with
        | .error .accountBorrowFailed => .error .accountBorrowOutstanding
        | .error e => .error e
        | .ok _ => .ok (decide (ctx.accounts.lamportsDelta ≠ 0))

def pop : Except InstructionError Unit × TransactionContext :=
  if ctx.instructionStack = [] then (.error .callDepth, ctx)
  else
    let detected := ctx.detectUnbalancedInstruction borrowed
    let ctx := { ctx with instructionStack := ctx.instructionStack.dropLast }
    match detected with
    | .error e => (.error e, ctx)
    | .ok true => (.error .unbalancedInstruction, ctx)
    | .ok false => (.ok (), ctx)

end TransactionContext

inductive AccessType where
  | load
  | store

/-- `MemoryRegion`, as far as the handler goes: where it starts, how long it
    is, and the account it shows, if that is writable. -/
structure MemoryRegion where
  vmAddr : Nat
  len : Nat
  accessViolationHandlerPayload : Option Nat

/-- What the handler is called with. -/
structure AccessViolation where
  region : MemoryRegion
  addressSpaceReservedForAccount : Nat
  accessType : AccessType
  vmAddr : Nat
  len : Nat

/-- The length up to which the access reaches into the region. -/
def AccessViolation.requestedLength (v : AccessViolation) : Nat :=
  min (v.vmAddr + v.len) u64Max - v.region.vmAddr

/-- What the transaction may still grow by. -/
def TransactionAccounts.remainingAllowedGrowth : Nat :=
  (max (saturateI64 (maxAccountDataGrowthPerTransaction - s.resizeDelta)) 0).toNat

/-- The length the handler grows an account to. -/
def AccessViolation.newLen (v : AccessViolation) (s : TransactionAccounts) (oldLen : Nat) : Nat :=
  min (min v.addressSpaceReservedForAccount maxAccountDataLen)
    (oldLen + s.remainingAllowedGrowth)

/-- The handler that `access_violation_handler` returns. -/
def accessViolationHandler (borrowed : Borrowed) (v : AccessViolation) (s : TransactionAccounts) :
    TransactionAccounts :=
  match v.accessType, v.region.accessViolationHandlerPayload with
  | .load, _ => s
  | .store, none => s
  | .store, some index =>
    if v.addressSpaceReservedForAccount < v.requestedLength then s
    else
      match s.tryBorrowMut borrowed index with
      | .error _ => s
      | .ok account =>
        if s.touchedFlags.length ≤ index then s
        else if v.requestedLength ≤ v.region.len then s.touched index
        else
          let newLen := v.newLen s account.data.length
          { (s.touched index).stored index
              { account with
                data := BorrowedInstructionAccount.resized account.data newLen } with
            resizeDelta := saturateI64
              (s.resizeDelta + saturateI64 ((newLen : Int) - account.data.length)) }

/-- What can happen to the context of a transaction. -/
inductive Event where
  | configure (instructionIndex programIndex : Nat)
  | push (borrowed : Borrowed)
  | pop (borrowed : Borrowed)
  | mutate (account : BorrowedInstructionAccount) (mutation : Mutation)
  | accessViolation (borrowed : Borrowed) (violation : AccessViolation)

namespace TransactionContext

/-- One event. -/
def step (sysvars : Sysvars) (rent : Rent) (ctx : TransactionContext) :
    Event → Except InstructionError Unit × TransactionContext
  | .configure instructionIndex programIndex =>
    ctx.configureInstructionAtIndex instructionIndex programIndex
  | .push borrowed => ctx.push sysvars borrowed
  | .pop borrowed => ctx.pop borrowed
  | .mutate account mutation =>
    ((mutation.apply rent account ctx.accounts).1,
      { ctx with accounts := (mutation.apply rent account ctx.accounts).2 })
  | .accessViolation borrowed violation =>
    (.ok (), { ctx with accounts := accessViolationHandler borrowed violation ctx.accounts })

/-- Any number of events, whatever they return. -/
def run (sysvars : Sysvars) (rent : Rent) (ctx : TransactionContext) (events : List Event) :
    TransactionContext :=
  events.foldl (fun ctx event => (ctx.step sysvars rent event).2) ctx

end TransactionContext

end Agave.Transaction
