/-
  Agave.ProgramRuntime.InvokeContext

  How a program calls another one.  The instructions of the message are put into
  the trace before anything runs; a cross-program invocation is checked against
  the instruction that runs, put into the trace and pushed onto the stack.

  The accounts of an instruction are kept with the flags the instruction has them
  with, and a map from the accounts of the transaction to the positions of the
  instruction.  In the context of the transaction they are vectors beside the
  trace, so an entry of the trace and the vectors are tied by its index only.

  Left out are the instruction data, the memory contexts and the addresses of the
  regions of the virtual machine.
-/

import Agave.TransactionContext.Context

namespace Agave.ProgramRuntime

open Agave.Transaction

/-- `MAX_ACCOUNTS_PER_TRANSACTION`. -/
def maxAccountsPerTransaction : Nat := 256

structure AccountMeta where
  pubkey : Pubkey
  isSigner : Bool
  isWritable : Bool
deriving DecidableEq

structure Instruction where
  programId : Pubkey
  accounts : List AccountMeta
deriving DecidableEq

structure InstructionAccount where
  indexInTransaction : Nat
  isSigner : Bool
  isWritable : Bool
deriving DecidableEq

/-- An instruction of a message, which names its accounts by `u8` indices. -/
structure SVMInstruction where
  programIdIndex : Fin 256
  accounts : List (Fin 256)
deriving DecidableEq

structure SVMMessage where
  instructions : List SVMInstruction
  isSigner : Nat → Bool
  isWritable : Nat → Bool

/-- Why a call is refused, or panics. -/
inductive InvokeError where
  | instruction (e : InstructionError)
  | privilegeEscalation
  | reentrancyNotAllowed
  | unsupportedProgramId
  | panic
deriving DecidableEq

/-- `InvokeContext`, with the vectors of the transaction context that belong to the trace. -/
structure InvokeContext where
  transactionContext : TransactionContext
  /-- `index_of_caller_instruction` of the entries of the trace -/
  indexOfCallerInstruction : Nat → Nat
  deduplicationMaps : List (List Nat)
  instructionAccounts : List (List InstructionAccount)

structure InstructionContext where
  programAccountIndexInTx : Nat
  instructionAccounts : List InstructionAccount
  dedupMap : List Nat

namespace InstructionContext

variable (instructionContext : InstructionContext)

def getIndexOfAccountInInstruction (indexInTransaction : Nat) : Except InvokeError Nat :=
  match instructionContext.dedupMap[indexInTransaction]? with
  | none => .error (.instruction .missingAccount)
  | some index =>
    if instructionContext.instructionAccounts.length ≤ index then
      .error (.instruction .missingAccount)
    else .ok index

def getProgramKey (keys : List Pubkey) : Except InvokeError Pubkey :=
  if instructionContext.programAccountIndexInTx = u16Max then
    .error (.instruction .missingAccount)
  else
    match keys[instructionContext.programAccountIndexInTx]? with
    | none => .error (.instruction .missingAccount)
    | some key => .ok key

end InstructionContext

namespace InvokeContext

/-- `TransactionContext::new` with nothing configured. -/
def new (accounts : List (Pubkey × Account))
    (instructionStackCapacity instructionTraceCapacity numberOfTopLevelInstructions : Nat) :
    InvokeContext where
  transactionContext := .new accounts instructionStackCapacity instructionTraceCapacity
    numberOfTopLevelInstructions
  indexOfCallerInstruction := fun _ => u16Max
  deduplicationMaps := []
  instructionAccounts := []

variable (ic : InvokeContext)

/-- The keys of the accounts of the transaction. -/
def keys : List Pubkey := ic.transactionContext.accounts.keys

def findIndexOfAccount (pubkey : Pubkey) : Option Nat :=
  ic.transactionContext.accounts.findIndexOfAccount pubkey

def getInstructionContextAtIndexInTrace (indexInTrace : Nat) :
    Except InvokeError InstructionContext :=
  match ic.transactionContext.instructionTrace[indexInTrace]? with
  | none => .error (.instruction .callDepth)
  | some instruction =>
    .ok {
      programAccountIndexInTx := instruction.programAccountIndexInTx
      instructionAccounts := ic.instructionAccounts[indexInTrace]?.getD []
      dedupMap := ic.deduplicationMaps[indexInTrace]?.getD [] }

def getInstructionContextAtNestingLevel (nestingLevel : Nat) :
    Except InvokeError InstructionContext :=
  match ic.transactionContext.instructionStack[nestingLevel]? with
  | none => .error (.instruction .callDepth)
  | some indexInTrace => ic.getInstructionContextAtIndexInTrace indexInTrace

def getCurrentInstructionIndex : Except InvokeError Nat :=
  match ic.transactionContext.instructionStack.getLast? with
  | none => .error (.instruction .callDepth)
  | some indexInTrace => .ok indexInTrace

def getCurrentInstructionContext : Except InvokeError InstructionContext := do
  let indexInTrace ← ic.getCurrentInstructionIndex
  ic.getInstructionContextAtIndexInTrace indexInTrace

def getNextInstructionContext : Except InvokeError InstructionContext :=
  if ic.transactionContext.instructionStack = [] then
    ic.getInstructionContextAtIndexInTrace ic.transactionContext.nextTopLevelInstructionIndex
  else if ic.transactionContext.instructionTrace = [] then .error (.instruction .callDepth)
  else
    ic.getInstructionContextAtIndexInTrace (ic.transactionContext.instructionTrace.length - 1)

def configureInstructionAtIndex (instructionIndex programIndex : Nat)
    (instructionAccounts : List InstructionAccount) (deduplicationMap : List Nat)
    (callerIndex : Option Nat) : Except InvokeError InvokeContext :=
  match ic.transactionContext.configureInstructionAtIndex instructionIndex programIndex with
  | (.error e, _) => .error (.instruction e)
  | (.ok (), transactionContext) =>
    .ok {
      transactionContext
      indexOfCallerInstruction :=
        match callerIndex with
        | none => ic.indexOfCallerInstruction
        | some callerIndex =>
          Function.update ic.indexOfCallerInstruction instructionIndex callerIndex
      deduplicationMaps := ic.deduplicationMaps ++ [deduplicationMap]
      instructionAccounts := ic.instructionAccounts ++ [instructionAccounts] }

end InvokeContext

/-! ## Cross-program invocations -/

/-- The accounts of an instruction as they are collected: `transaction_callee_map` and
    `instruction_accounts`. -/
structure Collected where
  transactionCalleeMap : List Nat
  instructionAccounts : List InstructionAccount

/-- No account yet: the map holds `u16::MAX` everywhere. -/
def Collected.empty : Collected where
  transactionCalleeMap := List.replicate maxAccountsPerTransaction u16Max
  instructionAccounts := []

/-- The flags of an account with those of another mention of it. -/
def InstructionAccount.merge (account : InstructionAccount) (isSigner isWritable : Bool) :
    InstructionAccount :=
  { account with
    isSigner := account.isSigner || isSigner
    isWritable := account.isWritable || isWritable }

/-- One turn of the first loop of `prepare_next_cpi_instruction`, for an account that was found. -/
def Collected.add (collected : Collected) (indexInTransaction : Nat)
    (isSigner isWritable : Bool) : Except InvokeError Collected :=
  match collected.transactionCalleeMap[indexInTransaction]? with
  | none => .error .panic
  | some indexInCallee =>
    if indexInCallee < collected.instructionAccounts.length then
      match collected.instructionAccounts[indexInCallee]? with
      | none => .error (.instruction .missingAccount)
      | some instructionAccount =>
        let merged := instructionAccount.merge isSigner isWritable
        .ok { collected with
          instructionAccounts :=
            collected.instructionAccounts.set indexInCallee merged ++ [merged] }
    else
      .ok {
        transactionCalleeMap := collected.transactionCalleeMap.set indexInTransaction
          (collected.instructionAccounts.length % 2 ^ 16)
        instructionAccounts :=
          collected.instructionAccounts ++ [⟨indexInTransaction, isSigner, isWritable⟩] }

/-- One turn of the first loop of `prepare_next_cpi_instruction`. -/
def InvokeContext.collectAccount (ic : InvokeContext) (collected : Collected)
    (accountMeta : AccountMeta) : Except InvokeError Collected :=
  match ic.findIndexOfAccount accountMeta.pubkey with
  | none => .error (.instruction .missingAccount)
  | some indexInTransaction =>
    collected.add indexInTransaction accountMeta.isSigner accountMeta.isWritable

/-- The checks the second loop makes at the first position of an account. -/
def checkPrivileges (caller : InstructionContext) (accounts : List AccountMeta)
    (signers : List Pubkey) (currentIndex : Nat) (instructionAccount : InstructionAccount) :
    Except InvokeError Unit := do
  let indexInCaller ←
    caller.getIndexOfAccountInInstruction instructionAccount.indexInTransaction
  match accounts[currentIndex]?, caller.instructionAccounts[indexInCaller]? with
  | some accountMeta, some callerInstructionAccount =>
    if instructionAccount.isWritable && !callerInstructionAccount.isWritable then
      .error .privilegeEscalation
    else if instructionAccount.isSigner &&
        !(callerInstructionAccount.isSigner || signers.contains accountMeta.pubkey) then
      .error .privilegeEscalation
    else .ok ()
  | _, _ => .error .panic

/-- One turn of the second loop of `prepare_next_cpi_instruction`. -/
def checkAccount (caller : InstructionContext) (accounts : List AccountMeta)
    (signers : List Pubkey) (transactionCalleeMap : List Nat)
    (instructionAccounts : List InstructionAccount) (currentIndex : Nat) :
    Except InvokeError (List InstructionAccount) :=
  match instructionAccounts[currentIndex]? with
  | none => .error .panic
  | some instructionAccount =>
    match transactionCalleeMap[instructionAccount.indexInTransaction]? with
    | none => .error .panic
    | some indexInCallee =>
      if currentIndex ≠ indexInCallee then
        match instructionAccounts[indexInCallee]? with
        | none => .error (.instruction .missingAccount)
        | some referenceAccount =>
          .ok (instructionAccounts.set currentIndex
            (instructionAccount.merge referenceAccount.isSigner referenceAccount.isWritable))
      else do
        checkPrivileges caller accounts signers currentIndex instructionAccount
        .ok instructionAccounts

/-- The program of an invocation: an account of the transaction that the caller has, too. -/
def InvokeContext.findProgram (ic : InvokeContext) (caller : InstructionContext)
    (programId : Pubkey) : Except InvokeError Nat :=
  match ic.findIndexOfAccount programId with
  | none => .error (.instruction .missingAccount)
  | some index =>
    match caller.getIndexOfAccountInInstruction index with
    | .error _ => .error (.instruction .missingAccount)
    | .ok _ => .ok index

namespace InvokeContext

variable (ic : InvokeContext) (message : SVMMessage)

/-- `prepare_next_cpi_instruction`.  It changes nothing when it fails. -/
def prepareNextCpiInstruction (instruction : Instruction) (signers : List Pubkey) :
    Except InvokeError InvokeContext := do
  let caller ← ic.getCurrentInstructionContext
  let collected ← instruction.accounts.foldlM ic.collectAccount .empty
  let instructionAccounts ← (List.range collected.instructionAccounts.length).foldlM
    (checkAccount caller instruction.accounts signers collected.transactionCalleeMap)
    collected.instructionAccounts
  let programAccountIndex ← ic.findProgram caller instruction.programId
  let callerIndex ← ic.getCurrentInstructionIndex
  ic.configureInstructionAtIndex ic.transactionContext.getInstructionTraceLength
    programAccountIndex instructionAccounts collected.transactionCalleeMap
    (some (callerIndex % 2 ^ 16))

/-! ## Top-level instructions -/

/-- One turn of the inner loop of `prepare_top_level_instructions`. -/
def collectTopLevelAccount (collected : Collected)
    (indexInTransaction : Fin 256) : Except InvokeError Collected :=
  match collected.transactionCalleeMap[indexInTransaction.val]? with
  | none => .error .panic
  | some indexInCallee =>
    .ok {
      transactionCalleeMap :=
        if collected.instructionAccounts.length < indexInCallee then
          collected.transactionCalleeMap.set indexInTransaction.val
            (collected.instructionAccounts.length % 2 ^ 16)
        else collected.transactionCalleeMap
      instructionAccounts := collected.instructionAccounts ++
        [⟨indexInTransaction.val, message.isSigner indexInTransaction.val,
          message.isWritable indexInTransaction.val⟩] }

/-- One turn of the outer loop of `prepare_top_level_instructions`. -/
def prepareTopLevelInstruction (ic : InvokeContext)
    (entry : SVMInstruction × Nat) : Except InvokeError InvokeContext := do
  let collected ← entry.1.accounts.foldlM (collectTopLevelAccount message) .empty
  ic.configureInstructionAtIndex entry.2 entry.1.programIdIndex.val
    collected.instructionAccounts collected.transactionCalleeMap none

/-- `prepare_top_level_instructions`.  A transaction whose instructions cannot be prepared does not
    run, so what was prepared until then is not returned. -/
def prepareTopLevelInstructions : Except InvokeError InvokeContext :=
  message.instructions.zipIdx.foldlM (prepareTopLevelInstruction message) ic

/-! ## The stack -/

/-- `program_key == program_id` of an instruction context that may be missing. -/
def runsProgram (programId : Pubkey) (instructionContext : Except InvokeError InstructionContext) :
    Bool :=
  match instructionContext >>= fun context => context.getProgramKey ic.keys with
  | .error _ => false
  | .ok programKey => decide (programKey = programId)

/-- A program that is on the stack may be called only by itself. -/
def reentrancyNotAllowed (programId : Pubkey) : Bool :=
  let stackHeight := ic.transactionContext.instructionStack.length
  if stackHeight ≠ 0 then
    let contains := (List.range stackHeight).any fun level =>
      ic.runsProgram programId (ic.getInstructionContextAtNestingLevel level)
    let isLast := ic.runsProgram programId ic.getCurrentInstructionContext
    contains && !isLast
  else false

def push (sysvars : Sysvars) (borrowed : Borrowed) : Except InvokeError Unit × InvokeContext :=
  match ic.getNextInstructionContext with
  | .error e => (.error e, ic)
  | .ok instructionContext =>
    match instructionContext.getProgramKey ic.keys with
    | .error _ => (.error .unsupportedProgramId, ic)
    | .ok programId =>
      if ic.reentrancyNotAllowed programId then (.error .reentrancyNotAllowed, ic)
      else
        match ic.transactionContext.push sysvars borrowed with
        | (.error e, transactionContext) =>
          (.error (.instruction e), { ic with transactionContext })
        | (.ok (), transactionContext) => (.ok (), { ic with transactionContext })

def pop (borrowed : Borrowed) : Except InvokeError Unit × InvokeContext :=
  match ic.transactionContext.pop borrowed with
  | (.error e, transactionContext) => (.error (.instruction e), { ic with transactionContext })
  | (.ok (), transactionContext) => (.ok (), { ic with transactionContext })

end InvokeContext

end Agave.ProgramRuntime
