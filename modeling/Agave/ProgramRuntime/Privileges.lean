/-
  Agave.ProgramRuntime.Privileges

  No program gives an account more than it has.

  `Built` lists the trees of invocations: the instructions of the message are prepared, pushed one
  after the other, and each may call others, which are checked against the instruction that runs,
  pushed and popped.  Beside the context it keeps the calls that filled the trace.

  What one call adds is `EntryOk`; what every step keeps is `Inv`.
-/

import Agave.ProgramRuntime.Deduplication

namespace Agave.ProgramRuntime

open Agave.Lib Agave.Transaction List InvokeContext

/-! ## The trace -/

/-- The programs of the entries of the trace, the reserved one included. -/
def tracePrograms (ctx : TransactionContext) : List Nat :=
  ctx.instructionTrace.map TraceFrame.programAccountIndexInTx

section Trace

variable {ctx ctx' : TransactionContext} {sysvars : Sysvars} {borrowed : Borrowed}

theorem tracePrograms_setNestingLevel (ctx : TransactionContext) (nestingLevel : Nat) :
    tracePrograms (ctx.setNestingLevel nestingLevel) = tracePrograms ctx := by
  unfold tracePrograms TransactionContext.setNestingLevel
  refine ext_getElem? (fun n => ?_)
  rw [getElem?_map, getElem?_map, getElem?_modify]
  cases ctx.instructionTrace[n]? with
  | none => rfl
  | some frame =>
    simp only [Option.map_some]
    split <;> rfl

theorem storeCurrentIndex_frame (index : Nat)
    (h : ctx.storeCurrentIndex sysvars borrowed index = (.ok (), ctx')) :
    ctx'.accounts.keys = ctx.accounts.keys ∧ ctx'.instructionStack = ctx.instructionStack ∧
      ctx'.instructionTrace = ctx.instructionTrace ∧
      ctx'.nextTopLevelInstructionIndex = ctx.nextTopLevelInstructionIndex := by
  unfold TransactionContext.storeCurrentIndex at h
  split at h
  · obtain rfl := congrArg Prod.snd h
    exact ⟨rfl, rfl, rfl, rfl⟩
  · split at h
    · cases congrArg Prod.fst h
    · split at h
      · cases congrArg Prod.fst h
      · split at h
        · cases congrArg Prod.fst h
        · obtain rfl := congrArg Prod.snd h
          exact ⟨rfl, rfl, rfl, rfl⟩

/-- A call that succeeds puts the next top-level instruction on an empty stack, and the last entry
    of the trace on another one, which gets a new entry. -/
theorem push_frame (h : ctx.push sysvars borrowed = (.ok (), ctx')) :
    ctx'.accounts.keys = ctx.accounts.keys ∧
    (ctx.instructionStack = [] → ctx'.instructionStack = [ctx.nextTopLevelInstructionIndex] ∧
      tracePrograms ctx' = tracePrograms ctx ∧
      ctx'.nextTopLevelInstructionIndex = ctx.nextTopLevelInstructionIndex + 1) ∧
    (ctx.instructionStack ≠ [] →
      ctx'.instructionStack = ctx.instructionStack ++ [ctx.getInstructionTraceLength] ∧
      tracePrograms ctx' = tracePrograms ctx ++ [0] ∧
      ctx'.nextTopLevelInstructionIndex = ctx.nextTopLevelInstructionIndex) := by
  unfold TransactionContext.push at h
  dsimp only at h
  split at h
  · cases congrArg Prod.fst h
  split at h
  · cases congrArg Prod.fst h
  split at h
  · cases congrArg Prod.fst h
  split at h
  · cases congrArg Prod.fst h
  obtain ⟨hkeys, hstack, htrace, hnext⟩ := storeCurrentIndex_frame _ h
  have hprograms := tracePrograms_setNestingLevel ctx ctx.instructionStack.length
  by_cases hempty : ctx.instructionStack = []
  · have hcount : ((ctx.setNestingLevel ctx.instructionStack.length).countCall) =
        (ctx.nextTopLevelInstructionIndex, ctx.nextTopLevelInstructionIndex,
          { ctx.setNestingLevel ctx.instructionStack.length with
            nextTopLevelInstructionIndex := ctx.nextTopLevelInstructionIndex + 1 }) :=
      if_pos hempty
    rw [hcount] at hkeys hstack htrace hnext
    refine ⟨hkeys, fun _ => ⟨?_, ?_, hnext⟩, fun hne => absurd hempty hne⟩
    · rw [hstack]
      show ctx.instructionStack ++ _ = _
      rw [hempty]
      rfl
    · rw [tracePrograms, htrace]
      exact hprograms
  · have hlen : (ctx.setNestingLevel ctx.instructionStack.length).getInstructionTraceLength =
        ctx.getInstructionTraceLength := by
      unfold TransactionContext.getInstructionTraceLength TransactionContext.setNestingLevel
      rw [length_modify]
    have hcount : ((ctx.setNestingLevel ctx.instructionStack.length).countCall) =
        (ctx.getInstructionTraceLength, ctx.nextTopLevelInstructionIndex - 1,
          { ctx.setNestingLevel ctx.instructionStack.length with
            numberOfCpisInTrace := min (ctx.numberOfCpisInTrace + 1) u16Max
            instructionTrace :=
              (ctx.setNestingLevel ctx.instructionStack.length).instructionTrace ++
                [.default] }) := by
      rw [← hlen]
      exact if_neg hempty
    rw [hcount] at hkeys hstack htrace hnext
    refine ⟨hkeys, fun hnil => absurd hnil hempty, fun _ => ⟨hstack, ?_, hnext⟩⟩
    rw [tracePrograms, htrace]
    show List.map _ (_ ++ [TraceFrame.default]) = _
    rw [map_append, ← hprograms]
    rfl

theorem pop_frame (ctx : TransactionContext) (borrowed : Borrowed) :
    (ctx.pop borrowed).2.accounts.keys = ctx.accounts.keys ∧
    (ctx.pop borrowed).2.instructionStack = ctx.instructionStack.dropLast ∧
    (ctx.pop borrowed).2.instructionTrace = ctx.instructionTrace ∧
    (ctx.pop borrowed).2.nextTopLevelInstructionIndex = ctx.nextTopLevelInstructionIndex := by
  unfold TransactionContext.pop
  split
  · next hempty =>
      rw [hempty]
      exact ⟨rfl, rfl, rfl, rfl⟩
  · dsimp only
    split
    · exact ⟨rfl, rfl, rfl, rfl⟩
    · exact ⟨rfl, rfl, rfl, rfl⟩
    · exact ⟨rfl, rfl, rfl, rfl⟩

end Trace

/-! ## Calls -/

/-- What filled an entry of the trace. -/
inductive Call where
  | topLevel (instruction : SVMInstruction)
  | cpi (caller : Nat) (instruction : Instruction) (signers : List Pubkey)

/-- The trees of invocations of a message.  An invocation that is refused ends the transaction, so
    only those that succeed go on; what a program does to the accounts does not change their keys. -/
inductive Built (sysvars : Sysvars) (message : SVMMessage) : InvokeContext → List Call → Prop where
  | prepare {accounts : List (Pubkey × Account)} {stackCapacity traceCapacity : Nat}
      {ic : InvokeContext}
      (hrun : (InvokeContext.new accounts stackCapacity traceCapacity
        message.instructions.length).prepareTopLevelInstructions message = .ok ic) :
      Built sysvars message ic (message.instructions.map .topLevel)
  | execute {ic : InvokeContext} {calls : List Call} (h : Built sysvars message ic calls)
      {accounts : TransactionAccounts} (hkeys : accounts.keys = ic.keys) :
      Built sysvars message
        { ic with transactionContext := { ic.transactionContext with accounts } } calls
  | pushTopLevel {ic ic' : InvokeContext} {calls : List Call} (h : Built sysvars message ic calls)
      (hempty : ic.transactionContext.instructionStack = [])
      (hnext : ic.transactionContext.nextTopLevelInstructionIndex < message.instructions.length)
      {borrowed : Borrowed} (hpush : ic.push sysvars borrowed = (.ok (), ic')) :
      Built sysvars message ic' calls
  | invoke {ic prepared ic' : InvokeContext} {calls : List Call}
      (h : Built sysvars message ic calls)
      {caller : Nat} (hcaller : ic.transactionContext.instructionStack.getLast? = some caller)
      {instruction : Instruction} {signers : List Pubkey}
      (hlen : instruction.accounts.length ≤ 255)
      (hprepare : ic.prepareNextCpiInstruction instruction signers = .ok prepared)
      {borrowed : Borrowed} (hpush : prepared.push sysvars borrowed = (.ok (), ic')) :
      Built sysvars message ic' (calls ++ [.cpi caller instruction signers])
  | pop {ic : InvokeContext} {calls : List Call} (h : Built sysvars message ic calls)
      (borrowed : Borrowed) : Built sysvars message (ic.pop borrowed).2 calls

/-! ## Entries -/

variable {message : SVMMessage} {keys : List Pubkey}
  {mentions callerMentions : List InstructionAccount} {ic ic' : InvokeContext} {calls : List Call}
  {sysvars : Sysvars} {borrowed : Borrowed}

/-- The key is found first at the index. -/
def FoundAt (keys : List Pubkey) (pubkey : Pubkey) (index : Nat) : Prop :=
  keys.findIdx? (· = pubkey) = some index

theorem FoundAt.getElem? {pubkey : Pubkey} {index : Nat} (h : FoundAt keys pubkey index) :
    keys[index]? = some pubkey := by
  obtain ⟨hlt, hkey, -⟩ := findIdx?_eq_some_iff_getElem.mp h
  rw [List.getElem?_eq_getElem hlt]
  simpa using hkey

/-- The accounts of the caller allow those of the callee. -/
def Allows (keys : List Pubkey) (signers : List Pubkey)
    (callerMentions mentions : List InstructionAccount) : Prop :=
  ∀ i ∈ mentioned mentions, i ∈ mentioned callerMentions ∧
    ((granted mentions i).isWritable = true → (granted callerMentions i).isWritable = true) ∧
    ((granted mentions i).isSigner = true → (granted callerMentions i).isSigner = true ∨
      ∃ key ∈ signers, keys[i]? = some key)

/-- The mentions and the program of an entry are those of its call, and allowed by its caller. -/
def CallOk (message : SVMMessage) (keys : List Pubkey)
    (instructionAccounts : List (List InstructionAccount)) (n : Nat)
    (mentions : List InstructionAccount) (program : Nat) : Call → Prop
  | .topLevel instruction =>
    mentions = topLevelMentions message instruction.accounts ∧
      program = instruction.programIdIndex.val
  | .cpi caller instruction signers =>
    List.Forall₂ (fun accountMeta mention =>
      FoundAt keys accountMeta.pubkey mention.indexInTransaction ∧
      mention.isSigner = accountMeta.isSigner ∧ mention.isWritable = accountMeta.isWritable)
      instruction.accounts mentions ∧
    FoundAt keys instruction.programId program ∧
    caller < n ∧
    ∃ callerMentions, instructionAccounts[caller]? = some (spread callerMentions) ∧
      Allows keys signers callerMentions mentions ∧ program ∈ mentioned callerMentions

/-- An entry of the trace. -/
structure EntryOk (message : SVMMessage) (ic : InvokeContext) (n : Nat) (call : Call) : Prop where
  filled : ∃ mentions program,
    ic.instructionAccounts[n]? = some (spread mentions) ∧
    ic.deduplicationMaps[n]? = some (firstPositions (mentioned mentions)) ∧
    (tracePrograms ic.transactionContext)[n]? = some program ∧
    mentions.length ≤ 255 ∧
    (∀ i ∈ mentioned mentions, i < maxAccountsPerTransaction) ∧
    CallOk message ic.keys ic.instructionAccounts n mentions program call

/-- The key of the program of an entry of the trace. -/
def programKey (ic : InvokeContext) (n : Nat) : Option Pubkey :=
  ((tracePrograms ic.transactionContext)[n]?).bind fun index =>
    if index = u16Max then none else ic.keys[index]?

/-- The programs on the stack. -/
def stackPrograms (ic : InvokeContext) : List (Option Pubkey) :=
  ic.transactionContext.instructionStack.map (programKey ic)

/-! ## Reentrancy -/

/-- Between two places with the same value there is no other one. -/
def Contiguous {α : Type} (l : List α) : Prop :=
  ∀ (i j k : Nat) (x y : α), i < j → j < k → l[i]? = some x → l[j]? = some y → l[k]? = some x → y = x

namespace Contiguous

variable {α : Type} {l : List α} {x : α}

theorem nil : Contiguous ([] : List α) := by
  intro i j k x y _ _ hi
  cases hi

/-- A value that occurs may be added only where the last one is equal to it. -/
theorem append (h : Contiguous l) (hlast : x ∈ l → l.getLast? = some x) : Contiguous (l ++ [x]) := by
  intro i j k x' y hij hjk hi hj hk
  have hklen : k < l.length + 1 := by
    have hsome := (List.getElem?_eq_some_iff.mp hk).1
    rwa [List.length_append, List.length_singleton] at hsome
  have hjl : j < l.length := by omega
  rw [List.getElem?_append_left (by omega)] at hi
  rw [List.getElem?_append_left hjl] at hj
  rcases Nat.lt_succ_iff_lt_or_eq.mp hklen with hk' | rfl
  · rw [List.getElem?_append_left hk'] at hk
    exact h i j k x' y hij hjk hi hj hk
  · rw [getElem?_concat_length, Option.some_inj] at hk
    subst hk
    have hend := hlast (mem_of_getElem? hi)
    rw [getLast?_eq_getElem?] at hend
    rcases Nat.lt_or_ge j (l.length - 1) with hj' | hj'
    · exact h i j (l.length - 1) x y hij hj' hi hj hend
    · rw [show j = l.length - 1 by omega, hend, Option.some_inj] at hj
      exact hj.symm

theorem dropLast (h : Contiguous l) : Contiguous l.dropLast := by
  intro i j k x y hij hjk hi hj hk
  have hlen : k < l.length - 1 := by
    have hsome := (List.getElem?_eq_some_iff.mp hk).1
    rwa [List.length_dropLast] at hsome
  rw [getElem?_dropLast, if_pos (by omega)] at hi hj hk
  exact h i j k x y hij hjk hi hj hk

end Contiguous

theorem runsProgram_eq (ic : InvokeContext) (programId : Pubkey) (n : Nat) :
    ic.runsProgram programId (ic.getInstructionContextAtIndexInTrace n) =
      decide (programKey ic n = some programId) := by
  unfold runsProgram getInstructionContextAtIndexInTrace programKey
  rw [tracePrograms, getElem?_map]
  cases ic.transactionContext.instructionTrace[n]? with
  | none => rfl
  | some frame =>
    rw [Option.map_some, Option.bind_some]
    dsimp only
    rw [ok_bind, InstructionContext.getProgramKey]
    by_cases hmax : frame.programAccountIndexInTx = u16Max
    · rw [if_pos hmax, if_pos hmax]
      rfl
    · rw [if_neg hmax, if_neg hmax]
      cases ic.keys[frame.programAccountIndexInTx]? with
      | none => rfl
      | some key => simp

variable {n program caller : Nat} {signers : List Pubkey} {instruction : Instruction}
  {programId : Pubkey} {call : Call} {account : InstructionAccount}
  {accounts : List InstructionAccount} {prepared : InvokeContext}

theorem getProgramKey_eq_ok {context : InstructionContext}
    (hcontext : ic.getInstructionContextAtIndexInTrace n = .ok context)
    (hkey : context.getProgramKey ic.keys = .ok programId) : programKey ic n = some programId := by
  have hruns := runsProgram_eq ic programId n
  rw [hcontext, runsProgram, ok_bind, hkey] at hruns
  simpa using hruns

/-- A program on the stack that is called again is on top of it. -/
theorem getLast?_of_reentrancyNotAllowed (h : ic.reentrancyNotAllowed programId = false)
    (hmem : some programId ∈ stackPrograms ic) :
    (stackPrograms ic).getLast? = some (some programId) := by
  obtain ⟨n, hn, hkey⟩ := List.mem_map.mp hmem
  obtain ⟨level, hlevel⟩ := mem_iff_getElem?.mp hn
  have hlt := (List.getElem?_eq_some_iff.mp hlevel).1
  have hne : ic.transactionContext.instructionStack.length ≠ 0 := Nat.ne_of_gt (Nat.zero_lt_of_lt hlt)
  have hcontains : (List.range ic.transactionContext.instructionStack.length).any (fun level =>
      ic.runsProgram programId (ic.getInstructionContextAtNestingLevel level)) = true := by
    refine any_eq_true.mpr ⟨level, mem_range.mpr hlt, ?_⟩
    rw [getInstructionContextAtNestingLevel, hlevel]
    dsimp only
    rw [runsProgram_eq, hkey, decide_eq_true rfl]
  unfold reentrancyNotAllowed at h
  dsimp only at h
  rw [if_pos hne, hcontains, Bool.true_and, Bool.not_eq_false'] at h
  cases hlast : ic.transactionContext.instructionStack.getLast? with
  | none =>
    rw [getLast?_eq_none_iff] at hlast
    rw [hlast] at hn
    cases hn
  | some last =>
    rw [getCurrentInstructionContext, getCurrentInstructionIndex,
      hlast] at h
    dsimp only at h
    rw [ok_bind, runsProgram_eq, decide_eq_true_iff] at h
    rw [stackPrograms, getLast?_map, hlast, Option.map_some, h]

theorem push_eq_ok (h : ic.push sysvars borrowed = (.ok (), ic')) :
    ∃ transactionContext, ic' = { ic with transactionContext } ∧
      ic.transactionContext.push sysvars borrowed = (.ok (), transactionContext) ∧
      ∀ n, (ic.transactionContext.instructionStack = [] →
          n = ic.transactionContext.nextTopLevelInstructionIndex) →
        (ic.transactionContext.instructionStack ≠ [] →
          n = ic.transactionContext.getInstructionTraceLength) →
        programKey ic n ∈ stackPrograms ic → (stackPrograms ic).getLast? = some (programKey ic n) := by
  unfold push at h
  split at h
  · cases congrArg Prod.fst h
  next context hcontext =>
    split at h
    · cases congrArg Prod.fst h
    next programId hkey =>
      split at h
      · cases congrArg Prod.fst h
      next hreentrancy =>
        split at h
        · cases congrArg Prod.fst h
        next transactionContext hpush =>
          refine ⟨transactionContext, (congrArg Prod.snd h).symm, hpush, ?_⟩
          intro n hempty hnested hmem
          have hn : ic.getInstructionContextAtIndexInTrace n = .ok context := by
            unfold getNextInstructionContext at hcontext
            split at hcontext
            · next hnil => rwa [hempty hnil]
            · next hcons =>
                split at hcontext
                · cases hcontext
                · rwa [hnested hcons]
          rw [getProgramKey_eq_ok hn hkey] at hmem ⊢
          exact getLast?_of_reentrancyNotAllowed (by simpa using hreentrancy) hmem

/-! ## The invariant -/

/-- What holds of every tree of invocations. -/
structure Inv (message : SVMMessage) (ic : InvokeContext) (calls : List Call) : Prop where
  accounts_length : ic.instructionAccounts.length = calls.length
  maps_length : ic.deduplicationMaps.length = calls.length
  trace_length : (tracePrograms ic.transactionContext).length = calls.length + 1
  topLevel_le : message.instructions.length ≤ calls.length
  stack_lt : ∀ n ∈ ic.transactionContext.instructionStack, n < calls.length
  entries : ∀ n call, calls[n]? = some call → EntryOk message ic n call
  contiguous : Contiguous (stackPrograms ic)

theorem getInstructionTraceLength_eq (h : Inv message ic calls) :
    ic.transactionContext.getInstructionTraceLength = calls.length := by
  have hlen := h.trace_length
  rw [tracePrograms, length_map] at hlen
  rw [TransactionContext.getInstructionTraceLength, hlen]
  rfl

theorem getElem?_of_prefix {α : Type} {l l' : List α} (h : l <+: l') {x : α} (hn : l[n]? = some x) :
    l'[n]? = some x := by
  obtain ⟨t, rfl⟩ := h
  rw [List.getElem?_append_left (List.getElem?_eq_some_iff.mp hn).1, hn]

theorem EntryOk.mono (h : EntryOk message ic n call) (hkeys : ic'.keys = ic.keys)
    (haccounts : ic.instructionAccounts <+: ic'.instructionAccounts)
    (hmaps : ic.deduplicationMaps <+: ic'.deduplicationMaps)
    (hprogram : (tracePrograms ic'.transactionContext)[n]? =
      (tracePrograms ic.transactionContext)[n]?) : EntryOk message ic' n call := by
  obtain ⟨mentions, program, hmentions, hmap, hget, hlen, hbound, hcall⟩ := h.filled
  refine ⟨mentions, program, getElem?_of_prefix haccounts hmentions, getElem?_of_prefix hmaps hmap,
    hprogram.trans hget, hlen, hbound, ?_⟩
  rw [hkeys]
  cases call with
  | topLevel instruction => exact hcall
  | cpi caller instruction signers =>
    obtain ⟨hresolves, hfound, hcaller, callerMentions, hget', hallows⟩ := hcall
    exact ⟨hresolves, hfound, hcaller, callerMentions, getElem?_of_prefix haccounts hget', hallows⟩

theorem programKey_congr (hkeys : ic'.keys = ic.keys)
    (hprogram : (tracePrograms ic'.transactionContext)[n]? =
      (tracePrograms ic.transactionContext)[n]?) : programKey ic' n = programKey ic n := by
  rw [programKey, programKey, hprogram, hkeys]

section

variable (h : Inv message ic calls)
include h

/-- A step that keeps the trace and its vectors. -/
theorem Inv.frame (hkeys : ic'.keys = ic.keys)
    (haccounts : ic'.instructionAccounts = ic.instructionAccounts)
    (hmaps : ic'.deduplicationMaps = ic.deduplicationMaps)
    (hprograms : tracePrograms ic'.transactionContext = tracePrograms ic.transactionContext)
    (hstack : ∀ n ∈ ic'.transactionContext.instructionStack, n < calls.length)
    (hcontiguous : Contiguous (stackPrograms ic')) : Inv message ic' calls where
  accounts_length := by rw [haccounts, h.accounts_length]
  maps_length := by rw [hmaps, h.maps_length]
  trace_length := by rw [hprograms, h.trace_length]
  topLevel_le := h.topLevel_le
  stack_lt := hstack
  entries := fun n call hcall => (h.entries n call hcall).mono hkeys
    (haccounts ▸ prefix_rfl) (hmaps ▸ prefix_rfl) (by rw [hprograms])
  contiguous := hcontiguous

theorem Inv.execute {accounts : TransactionAccounts} (hkeys : accounts.keys = ic.keys) :
    Inv message { ic with transactionContext := { ic.transactionContext with accounts } } calls := by
  refine h.frame hkeys rfl rfl rfl h.stack_lt ?_
  have hsame : stackPrograms { ic with
      transactionContext := { ic.transactionContext with accounts } } = stackPrograms ic :=
    map_congr_left (fun n _ => programKey_congr hkeys rfl)
  rw [hsame]
  exact h.contiguous

theorem Inv.pop (borrowed : Borrowed) :
    Inv message (ic.pop borrowed).2 calls := by
  obtain ⟨hkeys, hstack, htrace, -⟩ := pop_frame ic.transactionContext borrowed
  have hpop : (ic.pop borrowed).2 =
      { ic with transactionContext := (ic.transactionContext.pop borrowed).2 } := by
    unfold InvokeContext.pop
    split <;> simp_all
  have hprograms : tracePrograms (ic.pop borrowed).2.transactionContext =
      tracePrograms ic.transactionContext := by
    rw [hpop, tracePrograms, htrace]
    rfl
  have hkeys' : (ic.pop borrowed).2.keys = ic.keys := by
    rw [hpop]
    exact hkeys
  have hstack' : (ic.pop borrowed).2.transactionContext.instructionStack =
      ic.transactionContext.instructionStack.dropLast := by
    rw [hpop]
    exact hstack
  refine h.frame hkeys' (by rw [hpop]) (by rw [hpop]) hprograms ?_ ?_
  · intro n hn
    rw [hstack'] at hn
    exact h.stack_lt n (dropLast_subset _ hn)
  · have hsame : stackPrograms (ic.pop borrowed).2 = (stackPrograms ic).dropLast := by
      rw [stackPrograms, stackPrograms, hstack', ← map_dropLast]
      exact map_congr_left (fun n _ => programKey_congr hkeys' (by rw [hprograms]))
    rw [hsame]
    exact h.contiguous.dropLast

theorem Inv.pushTopLevel (hempty : ic.transactionContext.instructionStack = [])
    (hnext : ic.transactionContext.nextTopLevelInstructionIndex < message.instructions.length)
    (hpush : ic.push sysvars borrowed = (.ok (), ic')) : Inv message ic' calls := by
  obtain ⟨ctx', rfl, hctx, -⟩ := push_eq_ok hpush
  obtain ⟨hkeys, hnil, -⟩ := push_frame hctx
  obtain ⟨hstack, hprograms, -⟩ := hnil hempty
  refine h.frame hkeys rfl rfl hprograms ?_ ?_
  · intro n hn
    rw [hstack, mem_singleton] at hn
    rw [hn]
    exact Nat.lt_of_lt_of_le hnext h.topLevel_le
  · have hone : stackPrograms { ic with transactionContext := ctx' } =
        [] ++ [programKey { ic with transactionContext := ctx' }
          ic.transactionContext.nextTopLevelInstructionIndex] := by
      rw [stackPrograms, hstack]
      rfl
    rw [hone]
    refine Contiguous.nil.append (fun hmem => ?_)
    cases hmem

end

/-! ## Invocations -/

variable {context : InstructionContext} {map : List Nat}

/-- The map finds the accounts of the instruction, and no others. -/
theorem getIndexOfAccountInInstruction_eq_ok (haccounts : context.instructionAccounts = spread mentions)
    (hmap : context.dedupMap = firstPositions (mentioned mentions)) (hlen : mentions.length ≤ 255)
    {i position : Nat} (h : context.getIndexOfAccountInInstruction i = .ok position) :
    i ∈ mentioned mentions ∧ context.instructionAccounts[position]? = some (granted mentions i) := by
  unfold InstructionContext.getIndexOfAccountInInstruction at h
  rw [hmap] at h
  cases hget : (firstPositions (mentioned mentions))[i]? with
  | none =>
    rw [hget] at h
    cases h
  | some found =>
    rw [hget] at h
    dsimp only at h
    rw [guard_eq_ok_iff] at h
    obtain ⟨hlt, hfound⟩ := h
    obtain rfl := Except.ok.inj hfound
    rw [getElem?_firstPositions (lt_of_getElem?_firstPositions hget), Option.some_inj] at hget
    have hmem : i ∈ mentioned mentions := by
      by_contra hnot
      rw [if_neg hnot] at hget
      rw [haccounts, spread, length_map, ← hget] at hlt
      unfold u16Max at hlt
      omega
    rw [if_pos hmem] at hget
    refine ⟨hmem, ?_⟩
    rw [haccounts, ← hget]
    exact spread_getElem?_first hmem

theorem checkPrivileges_eq_ok {accounts : List AccountMeta} {position : Nat}
    (h : checkPrivileges context accounts signers position account = .ok ()) :
    ∃ indexInCaller accountMeta callerAccount,
      context.getIndexOfAccountInInstruction account.indexInTransaction = .ok indexInCaller ∧
      accounts[position]? = some accountMeta ∧
      context.instructionAccounts[indexInCaller]? = some callerAccount ∧
      (account.isWritable = true → callerAccount.isWritable = true) ∧
      (account.isSigner = true → callerAccount.isSigner = true ∨ accountMeta.pubkey ∈ signers) := by
  unfold checkPrivileges at h
  rw [bind_eq_ok_iff] at h
  obtain ⟨indexInCaller, hindex, h⟩ := h
  split at h
  · next accountMeta callerAccount hmeta hcaller =>
      rw [guard_eq_ok_iff, guard_eq_ok_iff] at h
      obtain ⟨hwritable, hsigner, -⟩ := h
      refine ⟨indexInCaller, accountMeta, callerAccount, hindex, hmeta, hcaller, ?_, ?_⟩
      · intro hw
        simpa [hw] using hwritable
      · intro hs
        simp only [hs, Bool.true_and, Bool.not_eq_true', Bool.not_eq_false,
          Bool.or_eq_true, contains_iff_mem] at hsigner
        exact hsigner
  · cases h

/-- The checks of the second loop let through only what the caller allows. -/
theorem allows_of_checked {accounts : List AccountMeta}
    (haccounts : context.instructionAccounts = spread callerMentions)
    (hmap : context.dedupMap = firstPositions (mentioned callerMentions))
    (hlen : callerMentions.length ≤ 255) (hresolves : List.Forall₂ (Resolves ic) accounts mentions)
    (hchecked : ∀ i ∈ mentioned mentions, checkPrivileges context accounts signers
      ((mentioned mentions).idxOf i) (granted mentions i) = .ok ()) :
    Allows ic.keys signers callerMentions mentions := by
  intro i hi
  obtain ⟨indexInCaller, accountMeta, callerAccount, hindex, hmeta, hcaller, hwritable, hsigner⟩ :=
    checkPrivileges_eq_ok (hchecked i hi)
  obtain ⟨hmem, hgranted⟩ := getIndexOfAccountInInstruction_eq_ok haccounts hmap hlen hindex
  rw [hcaller] at hgranted
  obtain rfl := Option.some.inj hgranted
  refine ⟨hmem, hwritable, fun hs => (hsigner hs).imp_right (fun hkey => ⟨_, hkey, ?_⟩)⟩
  -- the meta at the first position of an account has its key
  obtain ⟨mention, hmention, hself⟩ := exists_first_mention hi
  obtain ⟨hlt, rfl⟩ := List.getElem?_eq_some_iff.mp hmention
  obtain ⟨hlt', rfl⟩ := List.getElem?_eq_some_iff.mp hmeta
  have hfound := (hresolves.get hlt' hlt).index
  rw [get_eq_getElem, get_eq_getElem, hself] at hfound
  exact FoundAt.getElem? hfound

theorem configureInstructionAtIndex_eq_ok {caller : Option Nat}
    (h : ic.configureInstructionAtIndex n program accounts map caller = .ok ic') :
    ic'.keys = ic.keys ∧ ic'.instructionAccounts = ic.instructionAccounts ++ [accounts] ∧
      ic'.deduplicationMaps = ic.deduplicationMaps ++ [map] ∧
      tracePrograms ic'.transactionContext = (tracePrograms ic.transactionContext).set n program ∧
      n < (tracePrograms ic.transactionContext).length ∧
      ic'.transactionContext.instructionStack = ic.transactionContext.instructionStack ∧
      ic'.transactionContext.nextTopLevelInstructionIndex =
        ic.transactionContext.nextTopLevelInstructionIndex := by
  unfold configureInstructionAtIndex TransactionContext.configureInstructionAtIndex at h
  cases hget : ic.transactionContext.instructionTrace[n]? with
  | none =>
    rw [hget] at h
    cases h
  | some frame =>
    rw [hget] at h
    obtain rfl := Except.ok.inj h
    refine ⟨rfl, rfl, rfl, ?_, ?_, rfl, rfl⟩
    · rw [tracePrograms, tracePrograms]
      exact map_set
    · rw [tracePrograms, length_map]
      exact (List.getElem?_eq_some_iff.mp hget).1

/-- An invocation that is prepared: its accounts, its map and its program are added to the trace,
    and are allowed by the instruction that runs. -/
theorem prepareNextCpiInstruction_eq_ok (h : Inv message ic calls)
    (hcaller : ic.transactionContext.instructionStack.getLast? = some caller)
    (hlen : instruction.accounts.length ≤ 255)
    (hrun : ic.prepareNextCpiInstruction instruction signers = .ok ic') :
    ∃ mentions program, mentions.length ≤ 255 ∧
      (∀ i ∈ mentioned mentions, i < maxAccountsPerTransaction) ∧
      CallOk message ic.keys ic.instructionAccounts calls.length mentions program
        (.cpi caller instruction signers) ∧
      ∃ callerIndex, ic.configureInstructionAtIndex calls.length program (spread mentions)
        (firstPositions (mentioned mentions)) callerIndex = .ok ic' := by
  have hlt : caller < calls.length := h.stack_lt caller (mem_of_getLast? hcaller)
  obtain ⟨call, hcall⟩ : ∃ call, calls[caller]? = some call := ⟨_, List.getElem?_eq_getElem hlt⟩
  obtain ⟨callerMentions, callerProgram, haccounts, hmap, -, hshort, -, -⟩ :=
    (h.entries caller call hcall).filled
  unfold prepareNextCpiInstruction getCurrentInstructionContext
    getCurrentInstructionIndex at hrun
  rw [hcaller] at hrun
  simp only [bind_eq_ok_iff, Except.ok.injEq, exists_eq_left'] at hrun
  obtain ⟨context, hcontext, collected, hcollected, result, hresult, program, hprogram, hrun⟩ := hrun
  have hcontext' : context.instructionAccounts = spread callerMentions ∧
      context.dedupMap = firstPositions (mentioned callerMentions) := by
    unfold getInstructionContextAtIndexInTrace at hcontext
    split at hcontext
    · cases hcontext
    · obtain rfl := Except.ok.inj hcontext
      rw [haccounts, hmap]
      exact ⟨rfl, rfl⟩
  obtain ⟨mentions, hresolves, hmerged⟩ := collectAccounts_spec (by unfold u16Max; omega) hcollected
  obtain ⟨rfl, hchecked⟩ := checkAccounts_spec hmerged hresult
  rw [getInstructionTraceLength_eq h, hmerged.map_eq] at hrun
  refine ⟨mentions, program, hresolves.length_eq ▸ hlen, hmerged.index_lt, ?_, _, hrun⟩
  unfold findProgram at hprogram
  split at hprogram
  · cases hprogram
  next index hfind =>
    split at hprogram
    · cases hprogram
    next position hposition =>
      obtain rfl := Except.ok.inj hprogram
      refine ⟨hresolves.imp (fun _ _ hr => ⟨hr.index, hr.isSigner, hr.isWritable⟩), hfind, hlt,
        callerMentions, haccounts, ?_, ?_⟩
      · exact allows_of_checked hcontext'.1 hcontext'.2 hshort hresolves hchecked
      · exact (getIndexOfAccountInInstruction_eq_ok hcontext'.1 hcontext'.2 hshort hposition).1

/-- The entry `n` is filled and on top of the stack, and a new one is reserved. -/
structure Calls (n program : Nat) (accounts : List InstructionAccount) (dedupMap : List Nat)
    (ic ic' : InvokeContext) : Prop where
  keys_eq : ic'.keys = ic.keys
  accounts_eq : ic'.instructionAccounts = ic.instructionAccounts ++ [accounts]
  maps_eq : ic'.deduplicationMaps = ic.deduplicationMaps ++ [dedupMap]
  trace_length : (tracePrograms ic'.transactionContext).length =
    (tracePrograms ic.transactionContext).length + 1
  kept : ∀ k < n, (tracePrograms ic'.transactionContext)[k]? =
    (tracePrograms ic.transactionContext)[k]?
  program_eq : (tracePrograms ic'.transactionContext)[n]? = some program
  stack_eq : ic'.transactionContext.instructionStack = ic.transactionContext.instructionStack ++ [n]
  reentrancy : programKey ic' n ∈ stackPrograms ic →
    (stackPrograms ic).getLast? = some (programKey ic' n)

theorem calls_of_push {callerIndex : Option Nat}
    (hlast : (tracePrograms ic.transactionContext).length = n + 1)
    (hstack_lt : ∀ k ∈ ic.transactionContext.instructionStack, k < n)
    (hnested : ic.transactionContext.instructionStack ≠ [])
    (hconfigure : ic.configureInstructionAtIndex n program accounts map callerIndex = .ok prepared)
    (hpush : prepared.push sysvars borrowed = (.ok (), ic')) :
    Calls n program accounts map ic ic' := by
  obtain ⟨hkeys, haccounts, hmaps, hprograms, hlt, hstack, -⟩ :=
    configureInstructionAtIndex_eq_ok hconfigure
  obtain ⟨ctx', rfl, hctx, hreentrancy⟩ := push_eq_ok hpush
  obtain ⟨hkeys', -, hframe⟩ := push_frame hctx
  obtain ⟨hstack', hprograms', -⟩ := hframe (hstack ▸ hnested)
  have hindex : prepared.transactionContext.getInstructionTraceLength = n := by
    have hlength := congrArg List.length hprograms
    rw [length_set, hlast, tracePrograms, length_map] at hlength
    rw [TransactionContext.getInstructionTraceLength, hlength]
    rfl
  -- the push appends to the programs, the configuration sets the one at `n`
  have hpushed : ∀ k ≤ n, (tracePrograms ctx')[k]? =
      (tracePrograms prepared.transactionContext)[k]? := by
    intro k hk
    rw [hprograms', List.getElem?_append_left]
    rw [hprograms, length_set, hlast]
    omega
  have hset : ∀ k < n, (tracePrograms prepared.transactionContext)[k]? =
      (tracePrograms ic.transactionContext)[k]? := by
    intro k hk
    rw [hprograms, getElem?_set_ne (Nat.ne_of_gt hk)]
  have hprepared : stackPrograms prepared = stackPrograms ic := by
    rw [stackPrograms, stackPrograms, hstack]
    exact map_congr_left (fun k hk => programKey_congr hkeys (hset k (hstack_lt k hk)))
  have hkey : programKey { prepared with transactionContext := ctx' } n = programKey prepared n :=
    programKey_congr hkeys' (hpushed n (Nat.le_refl n))
  refine ⟨hkeys'.trans hkeys, haccounts, hmaps, ?_, ?_, ?_, ?_, ?_⟩
  · show (tracePrograms ctx').length = _
    rw [hprograms', hprograms, List.length_append, length_set, List.length_singleton]
  · intro k hk
    exact (hpushed k (Nat.le_of_lt hk)).trans (hset k hk)
  · refine (hpushed n (Nat.le_refl n)).trans ?_
    rw [hprograms, getElem?_set_self hlt]
  · rw [← hstack, ← hindex]
    exact hstack'
  · rw [hkey, ← hprepared]
    exact hreentrancy n (fun hnil => absurd hnil (hstack ▸ hnested)) (fun _ => hindex.symm)

/-- A call whose accounts are allowed by its caller. -/
theorem Inv.append (h : Inv message ic calls)
    (hcalls : Calls calls.length program (spread mentions) (firstPositions (mentioned mentions))
      ic ic') (hlen : mentions.length ≤ 255)
    (hbound : ∀ i ∈ mentioned mentions, i < maxAccountsPerTransaction)
    (hcall : CallOk message ic'.keys ic'.instructionAccounts calls.length mentions program call) :
    Inv message ic' (calls ++ [call]) where
  accounts_length := by simp [hcalls.accounts_eq, h.accounts_length]
  maps_length := by simp [hcalls.maps_eq, h.maps_length]
  trace_length := by simp [hcalls.trace_length, h.trace_length]
  topLevel_le := by
    rw [List.length_append]
    exact Nat.le_add_right_of_le h.topLevel_le
  stack_lt := by
    intro n hn
    rw [hcalls.stack_eq] at hn
    rw [List.length_append, List.length_singleton]
    rcases mem_append.mp hn with hn | hn
    · exact Nat.lt_succ_of_lt (h.stack_lt n hn)
    · rw [mem_singleton.mp hn]
      exact Nat.lt_succ_self _
  entries := by
    intro n call' hcall'
    rcases Nat.lt_or_ge n calls.length with hn | hn
    · rw [List.getElem?_append_left hn] at hcall'
      exact (h.entries n call' hcall').mono hcalls.keys_eq ⟨_, hcalls.accounts_eq.symm⟩
        ⟨_, hcalls.maps_eq.symm⟩ (hcalls.kept n hn)
    · have hn' : n = calls.length := by
        have hsome := (List.getElem?_eq_some_iff.mp hcall').1
        rw [List.length_append, List.length_singleton] at hsome
        omega
      subst hn'
      rw [getElem?_concat_length, Option.some_inj] at hcall'
      subst hcall'
      refine ⟨mentions, program, ?_, ?_, hcalls.program_eq, hlen, hbound, hcall⟩
      · rw [hcalls.accounts_eq, ← h.accounts_length, getElem?_concat_length]
      · rw [hcalls.maps_eq, ← h.maps_length, getElem?_concat_length]
  contiguous := by
    have hstack : stackPrograms ic' = stackPrograms ic ++ [programKey ic' calls.length] := by
      rw [stackPrograms, stackPrograms, hcalls.stack_eq, map_append]
      refine congrArg (· ++ _) (map_congr_left (fun n hn => ?_))
      exact programKey_congr hcalls.keys_eq (hcalls.kept n (h.stack_lt n hn))
    rw [hstack]
    exact h.contiguous.append hcalls.reentrancy

/-- An invocation adds an entry to the trace and puts it on the stack. -/
theorem Inv.invoke (h : Inv message ic calls)
    (hcaller : ic.transactionContext.instructionStack.getLast? = some caller)
    (hlen : instruction.accounts.length ≤ 255)
    (hprepare : ic.prepareNextCpiInstruction instruction signers = .ok prepared)
    (hpush : prepared.push sysvars borrowed = (.ok (), ic')) :
    Inv message ic' (calls ++ [.cpi caller instruction signers]) := by
  obtain ⟨mentions, program, hshort, hbound, hcallOk, callerIndex, hconfigure⟩ :=
    prepareNextCpiInstruction_eq_ok h hcaller hlen hprepare
  have hnested : ic.transactionContext.instructionStack ≠ [] := by
    intro hnil
    rw [hnil] at hcaller
    cases hcaller
  have hcalls := calls_of_push h.trace_length h.stack_lt hnested hconfigure hpush
  obtain ⟨hresolves, hfound, hlt, callerMentions, hget, hallows⟩ := hcallOk
  refine h.append hcalls hshort hbound ?_
  rw [hcalls.keys_eq]
  exact ⟨hresolves, hfound, hlt, callerMentions,
    getElem?_of_prefix ⟨_, hcalls.accounts_eq.symm⟩ hget, hallows⟩

/-! ## Top-level instructions -/

theorem granted_topLevelMentions (message : SVMMessage) {accounts : List (Fin 256)} {i : Fin 256}
    (hi : i ∈ accounts) :
    granted (topLevelMentions message accounts) i.val =
      ⟨i.val, message.isSigner i.val, message.isWritable i.val⟩ := by
  have hany : ∀ flag : Nat → Bool, ∀ field : InstructionAccount → Bool,
      (∀ j : Fin 256, field ⟨j.val, message.isSigner j.val, message.isWritable j.val⟩ = flag j.val) →
      ((topLevelMentions message accounts).any fun mention =>
        mention.indexInTransaction = i.val && field mention) = flag i.val := by
    intro flag field hfield
    rw [Bool.eq_iff_iff, any_eq_true]
    refine ⟨?_, fun hflag => ⟨_, List.mem_map.mpr ⟨i, hi, rfl⟩, by simp [hfield, hflag]⟩⟩
    rintro ⟨mention, hmention, hset⟩
    obtain ⟨j, -, rfl⟩ := List.mem_map.mp hmention
    rw [hfield, Bool.and_eq_true, decide_eq_true_iff] at hset
    rw [← hset.1]
    exact hset.2
  rw [granted, hany message.isSigner InstructionAccount.isSigner (fun _ => rfl),
    hany message.isWritable InstructionAccount.isWritable (fun _ => rfl)]

/-- The mentions of a top-level instruction agree on the flags of an account. -/
theorem spread_topLevelMentions (message : SVMMessage) (accounts : List (Fin 256)) :
    spread (topLevelMentions message accounts) = topLevelMentions message accounts := by
  unfold spread
  conv_rhs => rw [← map_id (topLevelMentions message accounts)]
  refine map_congr_left (fun mention hmention => ?_)
  obtain ⟨i, hi, rfl⟩ := List.mem_map.mp hmention
  exact granted_topLevelMentions message hi

/-- The trace after some of the instructions of the message are prepared. -/
structure Preparing (message : SVMMessage) (keys : List Pubkey)
    (seen : List (SVMInstruction × Nat)) (ic : InvokeContext) : Prop where
  keys_eq : ic.keys = keys
  accounts_eq : ic.instructionAccounts =
    seen.map fun entry => topLevelMentions message entry.1.accounts
  maps_eq : ic.deduplicationMaps =
    seen.map fun entry => firstPositions (mentioned (topLevelMentions message entry.1.accounts))
  trace_length : (tracePrograms ic.transactionContext).length = message.instructions.length + 1
  programs : ∀ entry ∈ seen,
    (tracePrograms ic.transactionContext)[entry.2]? = some entry.1.programIdIndex.val
  stack_eq : ic.transactionContext.instructionStack = []

theorem Preparing.step {seen : List (SVMInstruction × Nat)} {entry : SVMInstruction × Nat}
    (h : Preparing message keys seen ic) (hlen : entry.1.accounts.length ≤ 255)
    (hfresh : ∀ earlier ∈ seen, earlier.2 ≠ entry.2)
    (hrun : prepareTopLevelInstruction message ic entry = .ok ic') :
    Preparing message keys (seen ++ [entry]) ic' := by
  unfold prepareTopLevelInstruction at hrun
  rw [bind_eq_ok_iff] at hrun
  obtain ⟨collected, hcollected, hconfigure⟩ := hrun
  obtain ⟨haccounts, hmap⟩ := collectTopLevelAccounts_spec (by unfold u16Max; omega) hcollected
  obtain ⟨hkeys, haccounts', hmaps', hprograms, hlt, hstack, -⟩ :=
    configureInstructionAtIndex_eq_ok hconfigure
  refine ⟨hkeys.trans h.keys_eq, ?_, ?_, ?_, ?_, hstack.trans h.stack_eq⟩
  · rw [haccounts', h.accounts_eq, haccounts, map_append]
    rfl
  · rw [hmaps', h.maps_eq, hmap, map_append]
    rfl
  · rw [hprograms, length_set, h.trace_length]
  · intro e he
    rw [hprograms]
    rcases mem_append.mp he with he | he
    · rw [getElem?_set_ne (hfresh e he).symm]
      exact h.programs e he
    · rw [mem_singleton.mp he, getElem?_set_self hlt]

section

variable (hmessage : ∀ instruction ∈ message.instructions, instruction.accounts.length ≤ 255)
include hmessage

theorem Inv.prepare {accounts : List (Pubkey × Account)} {stackCapacity traceCapacity : Nat}
    (hrun : (new accounts stackCapacity traceCapacity
      message.instructions.length).prepareTopLevelInstructions message = .ok ic) :
    Inv message ic (message.instructions.map .topLevel) := by
  have hreturns : Returns (fun _ => True)
      (Preparing message (accounts.map Prod.fst) message.instructions.zipIdx)
      ((new accounts stackCapacity traceCapacity
        message.instructions.length).prepareTopLevelInstructions message) := by
    refine Returns.foldlM_seen ?_ ⟨rfl, rfl, rfl, ?_, ?_, rfl⟩
    · intro seen entry rest ic hsplit hpreparing
      cases hstep : prepareTopLevelInstruction message ic entry with
      | error e => exact True.intro
      | ok ic' =>
        refine hpreparing.step (hmessage entry.1 ?_) ?_ hstep
        · refine fst_mem_of_mem_zipIdx (k := 0) ?_
          rw [hsplit]
          simp
        · have hnodup : (message.instructions.zipIdx.map Prod.snd).Nodup := by
            rw [zipIdx_map_snd]
            exact nodup_range'
          rw [hsplit, map_append, map_cons] at hnodup
          intro earlier hearlier
          exact (nodup_append.mp hnodup).2.2 _ (mem_map_of_mem hearlier) _
            mem_cons_self
    · simp [tracePrograms, new, TransactionContext.new]
    · intro entry hentry
      cases hentry
  have hprepared := hreturns.of_ok hrun
  refine ⟨?_, ?_, ?_, ?_, ?_, ?_, ?_⟩
  · simp [hprepared.accounts_eq]
  · simp [hprepared.maps_eq]
  · simp [hprepared.trace_length]
  · simp
  · rw [hprepared.stack_eq]
    intro n hn
    cases hn
  · intro n call hcall
    rw [getElem?_map, Option.map_eq_some_iff] at hcall
    obtain ⟨instruction, hinstruction, rfl⟩ := hcall
    have hentry : message.instructions.zipIdx[n]? = some (instruction, n) := by
      rw [getElem?_zipIdx, hinstruction, Option.map_some, Nat.zero_add]
    have hmem := mem_of_getElem? hinstruction
    refine ⟨topLevelMentions message instruction.accounts, instruction.programIdIndex.val, ?_, ?_,
      hprepared.programs _ (mem_of_getElem? hentry), ?_, ?_, rfl, rfl⟩
    · rw [hprepared.accounts_eq, getElem?_map, hentry, Option.map_some, spread_topLevelMentions]
    · rw [hprepared.maps_eq, getElem?_map, hentry, Option.map_some]
    · rw [topLevelMentions, length_map]
      exact hmessage instruction hmem
    · intro i hi
      simp only [mentioned, topLevelMentions, map_map, List.mem_map] at hi
      obtain ⟨j, -, rfl⟩ := hi
      exact j.isLt
  · rw [stackPrograms, hprepared.stack_eq]
    exact Contiguous.nil

theorem Built.inv (h : Built sysvars message ic calls) : Inv message ic calls := by
  induction h with
  | prepare hrun => exact Inv.prepare hmessage hrun
  | execute _ hkeys ih => exact ih.execute hkeys
  | pushTopLevel _ hempty hnext hpush ih => exact ih.pushTopLevel hempty hnext hpush
  | invoke _ hcaller hlen hprepare hpush ih => exact ih.invoke hcaller hlen hprepare hpush
  | pop _ borrowed ih => exact ih.pop borrowed

end

/-! ## Privileges -/

/-- The accounts a call mentions, with the flags of its metas. -/
def Call.metas (message : SVMMessage) (keys : List Pubkey) : Call → List InstructionAccount
  | .topLevel instruction => topLevelMentions message instruction.accounts
  | .cpi _ instruction _ => instruction.accounts.filterMap fun accountMeta =>
    (keys.findIdx? (· = accountMeta.pubkey)).map fun index =>
    ⟨index, accountMeta.isSigner, accountMeta.isWritable⟩

/-- Every position holds the account of its meta, with the flags of all metas of that account. -/
structure CarriesMetas (metas accounts : List InstructionAccount) : Prop where
  length_eq : accounts.length = metas.length
  index_eq : ∀ (k : Nat) m a, metas[k]? = some m → accounts[k]? = some a →
    a.indexInTransaction = m.indexInTransaction
  isSigner_iff : ∀ a ∈ accounts, a.isSigner = true ↔
    ∃ m ∈ metas, m.indexInTransaction = a.indexInTransaction ∧ m.isSigner = true
  isWritable_iff : ∀ a ∈ accounts, a.isWritable = true ↔
    ∃ m ∈ metas, m.indexInTransaction = a.indexInTransaction ∧ m.isWritable = true

/-- The map sends an account to the first position that holds it. -/
def MapsToFirst (accounts : List InstructionAccount) (dedupMap : List Nat) : Prop :=
  ∀ a ∈ accounts, ∃ first, dedupMap[a.indexInTransaction]? = some first ∧
    (∃ b, accounts[first]? = some b ∧ b.indexInTransaction = a.indexInTransaction) ∧
    ∀ j < first, ∀ b, accounts[j]? = some b → b.indexInTransaction ≠ a.indexInTransaction

/-- The accounts and the program of the callee belong to the caller, which may write to every account
    the callee may write to and signs for every account that the call does not sign for. -/
structure Confined (keys : List Pubkey) (signers : List Pubkey)
    (caller callee : List InstructionAccount) (program : Nat) : Prop where
  account : ∀ a ∈ callee, ∃ b ∈ caller, b.indexInTransaction = a.indexInTransaction ∧
    (a.isWritable = true → b.isWritable = true) ∧
    (a.isSigner = true → b.isSigner = true ∨ ∃ key ∈ signers, keys[a.indexInTransaction]? = some key)
  program : ∃ b ∈ caller, b.indexInTransaction = program

/-- The accounts of an entry of the trace against those of its caller, or against the message. -/
def Call.Permits (message : SVMMessage) (ic : InvokeContext) (accounts : List InstructionAccount)
    (program : Nat) : Call → Prop
  | .topLevel instruction =>
    (∀ a ∈ accounts, a.isSigner = message.isSigner a.indexInTransaction ∧
      a.isWritable = message.isWritable a.indexInTransaction) ∧
    program = instruction.programIdIndex.val
  | .cpi caller instruction signers =>
    ic.keys[program]? = some instruction.programId ∧
    ∃ callerAccounts, ic.instructionAccounts[caller]? = some callerAccounts ∧
      Confined ic.keys signers callerAccounts accounts program

theorem mem_spread_iff :
    account ∈ spread mentions ↔ account.indexInTransaction ∈ mentioned mentions ∧
      account = granted mentions account.indexInTransaction := by
  rw [spread, List.mem_map]
  refine ⟨?_, ?_⟩
  · rintro ⟨mention, hmention, rfl⟩
    exact ⟨List.mem_map.mpr ⟨mention, hmention, rfl⟩, rfl⟩
  · rintro ⟨hmem, haccount⟩
    obtain ⟨mention, hmention, hindex⟩ := List.mem_map.mp hmem
    exact ⟨mention, hmention, by rw [hindex, ← haccount]⟩

theorem carriesMetas_spread (mentions : List InstructionAccount) :
    CarriesMetas mentions (spread mentions) where
  length_eq := length_map _
  index_eq := by
    intro k m a hm ha
    rw [spread, getElem?_map, hm, Option.map_some, Option.some_inj] at ha
    rw [← ha]
    rfl
  isSigner_iff := by
    intro a ha
    rw [(mem_spread_iff.mp ha).2]
    simp [granted]
  isWritable_iff := by
    intro a ha
    rw [(mem_spread_iff.mp ha).2]
    simp [granted]

theorem mapsToFirst_spread (hbound : ∀ i ∈ mentioned mentions, i < maxAccountsPerTransaction) :
    MapsToFirst (spread mentions) (firstPositions (mentioned mentions)) := by
  intro a ha
  have hmem := (mem_spread_iff.mp ha).1
  refine ⟨(mentioned mentions).idxOf a.indexInTransaction, ?_, ⟨_, spread_getElem?_first hmem, rfl⟩,
    ?_⟩
  · rw [getElem?_firstPositions (hbound _ hmem), if_pos hmem]
  · intro j hj b hb heq
    rw [spread, getElem?_map, Option.map_eq_some_iff] at hb
    obtain ⟨mention, hmention, rfl⟩ := hb
    have hindex : (mentioned mentions)[j]? = some a.indexInTransaction := by
      rw [mentioned, getElem?_map, hmention, Option.map_some]
      exact congrArg some heq
    obtain ⟨hlt, hget⟩ := List.getElem?_eq_some_iff.mp hindex
    have hnot := List.not_of_lt_findIdx hj
    simp [hget] at hnot

theorem metas_cpi (h : List.Forall₂ (fun accountMeta mention =>
      FoundAt keys accountMeta.pubkey mention.indexInTransaction ∧
      mention.isSigner = accountMeta.isSigner ∧ mention.isWritable = accountMeta.isWritable)
      instruction.accounts mentions) :
    Call.metas message keys (.cpi caller instruction signers) = mentions := by
  obtain ⟨programId, accounts⟩ := instruction
  unfold Call.metas
  dsimp only at h ⊢
  induction h with
  | nil => rfl
  | @cons accountMeta mention accounts mentions hhead _ ih =>
    obtain ⟨hfound, hsigner, hwritable⟩ := hhead
    rw [filterMap_cons, show keys.findIdx? _ = _ from hfound, Option.map_some, ih, ← hsigner,
      ← hwritable]

theorem confined_of_allows (h : Allows keys signers callerMentions mentions)
    (hprogram : program ∈ mentioned callerMentions) :
    Confined keys signers (spread callerMentions) (spread mentions) program where
  account := by
    intro a ha
    obtain ⟨hmem, haccount⟩ := mem_spread_iff.mp ha
    obtain ⟨hcaller, hwritable, hsigner⟩ := h a.indexInTransaction hmem
    rw [← haccount] at hwritable hsigner
    exact ⟨granted callerMentions a.indexInTransaction, mem_spread_iff.mpr ⟨hcaller, rfl⟩, rfl,
      hwritable, hsigner⟩
  program := ⟨granted callerMentions program, mem_spread_iff.mpr ⟨hprogram, rfl⟩, rfl⟩

/-- What an entry of the trace holds, against its call. -/
theorem EntryOk.permits (h : EntryOk message ic n call) :
    ∃ accounts dedupMap program, ic.instructionAccounts[n]? = some accounts ∧
      ic.deduplicationMaps[n]? = some dedupMap ∧
      (tracePrograms ic.transactionContext)[n]? = some program ∧
      CarriesMetas (call.metas message ic.keys) accounts ∧ MapsToFirst accounts dedupMap ∧
      call.Permits message ic accounts program := by
  obtain ⟨mentions, program, hmentions, hmap, hprogram, -, hbound, hcall⟩ := h.filled
  refine ⟨_, _, program, hmentions, hmap, hprogram, ?_, mapsToFirst_spread hbound, ?_⟩
  · cases call with
    | topLevel instruction =>
      obtain ⟨rfl, -⟩ := hcall
      exact carriesMetas_spread _
    | cpi caller instruction signers =>
      rw [metas_cpi hcall.1]
      exact carriesMetas_spread mentions
  · cases call with
    | topLevel instruction =>
      obtain ⟨rfl, hindex⟩ := hcall
      refine ⟨fun a ha => ?_, hindex⟩
      rw [spread_topLevelMentions] at ha
      obtain ⟨i, -, rfl⟩ := List.mem_map.mp ha
      exact ⟨rfl, rfl⟩
    | cpi caller instruction signers =>
      obtain ⟨-, hfound, -, callerMentions, hcaller, hallows, hmem⟩ := hcall
      exact ⟨hfound.getElem?, _, hcaller, confined_of_allows hallows hmem⟩

theorem Inv.isWritable_of_message (h : Inv message ic calls) (n : Nat) :
    ∀ accounts, ic.instructionAccounts[n]? = some accounts → ∀ a ∈ accounts,
      a.isWritable = true → message.isWritable a.indexInTransaction = true := by
  -- the caller of an entry is an earlier one
  induction n using Nat.strong_induction_on with
  | _ n ih =>
    intro accounts haccounts a ha hwritable
    have hlt : n < calls.length := by
      rw [← h.accounts_length]
      exact (List.getElem?_eq_some_iff.mp haccounts).1
    have hcall := List.getElem?_eq_getElem hlt
    have hentry := h.entries n _ hcall
    obtain ⟨accounts', -, program, haccounts', -, -, -, -, hpermits⟩ := hentry.permits
    obtain ⟨_, _, -, -, -, -, -, hcallOk⟩ := hentry.filled
    rw [haccounts] at haccounts'
    obtain rfl := Option.some.inj haccounts'
    cases hkind : calls[n] with
    | topLevel instruction =>
      rw [hkind] at hpermits
      rw [← (hpermits.1 a ha).2]
      exact hwritable
    | cpi caller instruction signers =>
      rw [hkind] at hpermits hcallOk
      obtain ⟨-, callerAccounts, hcaller, hconfined⟩ := hpermits
      obtain ⟨b, hb, hindex, hwritable', -⟩ := hconfined.account a ha
      rw [← hindex]
      exact ih caller hcallOk.2.2.1 callerAccounts hcaller b hb (hwritable' hwritable)

/-- Privileges never escalate.  Every entry of the trace carries the flags of the metas of its call,
    the same at every position of an account; its map sends an account to its first position; and
    its accounts and its program are confined to the instruction that called it, or have the flags
    of the message.  A program is on the stack twice only if it called itself. -/
theorem privileges_confined
    (hmessage : ∀ instruction ∈ message.instructions, instruction.accounts.length ≤ 255)
    (h : Built sysvars message ic calls) :
    ic.transactionContext.getInstructionTraceLength = calls.length ∧
    (∀ (n : Nat) (call : Call), calls[n]? = some call →
      ∃ accounts dedupMap program, ic.instructionAccounts[n]? = some accounts ∧
        ic.deduplicationMaps[n]? = some dedupMap ∧
        (tracePrograms ic.transactionContext)[n]? = some program ∧
        CarriesMetas (call.metas message ic.keys) accounts ∧ MapsToFirst accounts dedupMap ∧
        call.Permits message ic accounts program ∧
        ∀ a ∈ accounts, a.isWritable = true → message.isWritable a.indexInTransaction = true) ∧
    Contiguous (stackPrograms ic) := by
  have hinv := h.inv hmessage
  refine ⟨getInstructionTraceLength_eq hinv, fun n call hcall => ?_, hinv.contiguous⟩
  obtain ⟨accounts, dedupMap, program, haccounts, hmap, hprogram, hcarries, hfirst, hpermits⟩ :=
    (hinv.entries n call hcall).permits
  exact ⟨accounts, dedupMap, program, haccounts, hmap, hprogram, hcarries, hfirst, hpermits,
    hinv.isWritable_of_message n accounts haccounts⟩

/-- A message whose only instruction has accounts 0, 1 and 3 and runs the program at 2. -/
def oneInstruction : SVMMessage where
  instructions := [⟨2, [0, 1, 0, 3]⟩]
  isSigner := fun i => i == 0
  isWritable := fun i => i == 0

/-- No account of the message is a sysvar account, so that no index is stored. -/
def noSysvars : Sysvars := ⟨0, 0, fun data _ => .ok data, fun h => by cases h; rfl⟩

/-- An invocation of the program at 3, with account 0 mentioned twice. -/
def callOfAnother : Instruction :=
  ⟨13, [⟨10, false, true⟩, ⟨11, false, false⟩, ⟨10, true, false⟩]⟩

/-- The context a call leaves when it succeeds. -/
def completed (result : Except InvokeError Unit × InvokeContext) :
    Except InvokeError InvokeContext :=
  result.1.map fun _ => result.2

theorem completed_eq_ok {result : Except InvokeError Unit × InvokeContext}
    (h : completed result = .ok ic) : result = (.ok (), ic) := by
  obtain ⟨_ | _, ic₀⟩ := result
  · cases h
  · obtain rfl := Except.ok.inj h
    rfl

/-- The contexts before the program runs, while it runs, and when it has called the other one. -/
def callsAnother : Except InvokeError (InvokeContext × InvokeContext × InvokeContext) := do
  let account : Account := ⟨1, 0, false, []⟩
  let prepared ← (InvokeContext.new [(10, account), (11, account), (12, account), (13, account)]
    5 64 oneInstruction.instructions.length).prepareTopLevelInstructions oneInstruction
  let running ← completed (prepared.push noSysvars fun _ => false)
  let callee ← running.prepareNextCpiInstruction callOfAnother []
  let called ← completed (callee.push noSysvars fun _ => false)
  .ok (prepared, running, called)

theorem privileges_confined_callsAnother :
    ∃ ic calls, Built noSysvars oneInstruction ic calls ∧ calls.length = 2 ∧
      ic.transactionContext.instructionStack = [0, 1] ∧
      ic.instructionAccounts[1]? = some [⟨0, true, true⟩, ⟨1, false, false⟩, ⟨0, true, true⟩] ∧
      Contiguous (stackPrograms ic) := by
  have hstacks : (callsAnother.toOption.map fun x =>
      (x.1.transactionContext.instructionStack, x.1.transactionContext.nextTopLevelInstructionIndex,
        x.2.1.transactionContext.instructionStack.getLast?)) = some ([], 0, some 0) := by
    decide +kernel
  have hcallee : (callsAnother.toOption.map fun x =>
      (x.2.2.transactionContext.instructionStack, x.2.2.instructionAccounts[1]?)) =
      some ([0, 1], some [⟨0, true, true⟩, ⟨1, false, false⟩, ⟨0, true, true⟩]) := by
    decide +kernel
  cases hrun : callsAnother with
  | error e =>
    rw [hrun] at hstacks
    cases hstacks
  | ok x =>
    rw [hrun] at hstacks hcallee
    obtain ⟨prepared, running, called⟩ := x
    simp only [Except.toOption, Option.map_some, Option.some_inj, Prod.mk.injEq]
      at hstacks hcallee
    obtain ⟨hempty, hnext, hcaller⟩ := hstacks
    simp only [callsAnother, bind_eq_ok_iff, Except.ok.injEq, Prod.mk.injEq] at hrun
    obtain ⟨_, hprepare, _, hpush, callee, hinvoke, _, hcalled, rfl, rfl, rfl⟩ := hrun
    have hbuilt := Built.invoke (.pushTopLevel (.prepare hprepare) hempty (by rw [hnext]; decide)
      (completed_eq_ok hpush)) hcaller (by decide) hinvoke (completed_eq_ok hcalled)
    exact ⟨_, _, hbuilt, rfl, hcallee.1, hcallee.2,
      (privileges_confined (by decide) hbuilt).2.2⟩

end Agave.ProgramRuntime

