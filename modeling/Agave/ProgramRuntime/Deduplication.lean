/-
  Agave.ProgramRuntime.Deduplication

  What the loops over the accounts of an instruction compute.

  An account may be mentioned several times.  The map sends it to its first position
  (`firstPositions`), and in the end every position holds it with the flags of all its mentions
  (`spread`).  The first loop of `prepare_next_cpi_instruction` gets this right for the first
  positions only, and leaves the other ones with some of the flags (`Merged`); the second loop
  completes them, and checks the first positions against the caller (`checkAccounts_returns`).
-/

import Agave.Lib.Outcome
import Agave.ProgramRuntime.InvokeContext

namespace Agave.ProgramRuntime

open Agave.Lib Agave.Transaction List

/-! ## First positions -/

/-- The map of an instruction whose accounts have these indices. -/
def firstPositions (indices : List Nat) : List Nat :=
  (List.range maxAccountsPerTransaction).map fun i =>
    if i ∈ indices then indices.idxOf i else u16Max

variable {indices : List Nat} {i : Nat}

theorem firstPositions_nil : firstPositions [] = List.replicate maxAccountsPerTransaction u16Max := by
  simp [firstPositions, map_const']

theorem getElem?_firstPositions (h : i < maxAccountsPerTransaction) :
    (firstPositions indices)[i]? = some (if i ∈ indices then indices.idxOf i else u16Max) := by
  rw [firstPositions, getElem?_map, getElem?_range h, Option.map_some]

theorem getElem?_firstPositions_of_le (h : maxAccountsPerTransaction ≤ i) :
    (firstPositions indices)[i]? = none := by
  rw [getElem?_eq_none_iff, firstPositions, length_map, length_range]
  exact h

theorem lt_of_getElem?_firstPositions {position : Nat}
    (h : (firstPositions indices)[i]? = some position) : i < maxAccountsPerTransaction := by
  by_contra hle
  rw [getElem?_firstPositions_of_le (Nat.not_lt.mp hle)] at h
  cases h

/-- A mention of an account that is known does not change the map. -/
theorem firstPositions_append_of_mem (h : i ∈ indices) :
    firstPositions (indices ++ [i]) = firstPositions indices := by
  unfold firstPositions
  refine map_congr_left (fun j _ => ?_)
  by_cases hj : j ∈ indices
  · rw [if_pos hj, if_pos (mem_append_left [i] hj), idxOf_append_of_mem hj]
  · have hne : j ≠ i := fun heq => hj (heq ▸ h)
    rw [if_neg hj, if_neg (by simp [hj, hne])]

/-- A new account is at the position that comes next. -/
theorem firstPositions_append_of_not_mem (h : i ∉ indices) :
    firstPositions (indices ++ [i]) = (firstPositions indices).set i indices.length := by
  refine ext_getElem? (fun j => ?_)
  by_cases hj : j < maxAccountsPerTransaction
  case neg =>
    rw [getElem?_firstPositions_of_le (Nat.not_lt.mp hj), eq_comm, getElem?_eq_none_iff,
      length_set, ← getElem?_eq_none_iff]
    exact getElem?_firstPositions_of_le (Nat.not_lt.mp hj)
  case pos =>
    rw [getElem?_set, getElem?_firstPositions hj, getElem?_firstPositions hj]
    by_cases hij : i = j
    · subst hij
      have hlen : i < (firstPositions indices).length := by
        rw [firstPositions, length_map, length_range]
        exact hj
      rw [if_pos rfl, if_pos hlen, if_pos (by simp), idxOf_append_of_notMem h]
      simp
    · have hmem : j ∈ indices ++ [i] ↔ j ∈ indices := by simp [Ne.symm hij]
      rw [if_neg hij]
      by_cases hji : j ∈ indices
      · rw [if_pos hji, if_pos (hmem.mpr hji), idxOf_append_of_mem hji]
      · rw [if_neg hji, if_neg (fun hj' => hji (hmem.mp hj'))]

/-! ## Flags -/

variable {mentions : List InstructionAccount} {mention account : InstructionAccount}

/-- An account with the flags of all its mentions. -/
def granted (mentions : List InstructionAccount) (i : Nat) : InstructionAccount where
  indexInTransaction := i
  isSigner := mentions.any fun mention => mention.indexInTransaction = i && mention.isSigner
  isWritable := mentions.any fun mention => mention.indexInTransaction = i && mention.isWritable

/-- Every mention, with the flags of all mentions of its account. -/
def spread (mentions : List InstructionAccount) : List InstructionAccount :=
  mentions.map fun mention => granted mentions mention.indexInTransaction

/-- The accounts that are mentioned. -/
def mentioned (mentions : List InstructionAccount) : List Nat :=
  mentions.map InstructionAccount.indexInTransaction

theorem granted_append (mentions : List InstructionAccount) (mention : InstructionAccount) :
    granted (mentions ++ [mention]) mention.indexInTransaction =
      (granted mentions mention.indexInTransaction).merge mention.isSigner mention.isWritable := by
  simp [granted, InstructionAccount.merge]

theorem granted_append_of_ne (h : mention.indexInTransaction ≠ i) :
    granted (mentions ++ [mention]) i = granted mentions i := by
  simp [granted, h]

theorem granted_of_not_mem (h : i ∉ mentioned mentions) : granted mentions i = ⟨i, false, false⟩ := by
  have hne : ∀ mention ∈ mentions, mention.indexInTransaction ≠ i := by
    intro mention hmention heq
    exact h (mem_map.mpr ⟨mention, hmention, heq⟩)
  simp only [granted, InstructionAccount.mk.injEq, any_eq_false, true_and]
  refine ⟨?_, ?_⟩
  · intro mention hmention
    simp [hne mention hmention]
  · intro mention hmention
    simp [hne mention hmention]

theorem exists_first_mention (h : i ∈ mentioned mentions) :
    ∃ mention, mentions[(mentioned mentions).idxOf i]? = some mention ∧
      mention.indexInTransaction = i := by
  have hlt := idxOf_lt_length_of_mem h
  have hget : (mentions.map InstructionAccount.indexInTransaction)[(mentioned mentions).idxOf i]? =
      some i := by
    rw [← mentioned, getElem?_eq_getElem hlt, getElem_idxOf hlt]
  rwa [getElem?_map, Option.map_eq_some_iff] at hget

theorem spread_getElem?_first (h : i ∈ mentioned mentions) :
    (spread mentions)[(mentioned mentions).idxOf i]? = some (granted mentions i) := by
  obtain ⟨mention, hmention, hindex⟩ := exists_first_mention h
  rw [spread, getElem?_map, hmention, Option.map_some, hindex]

theorem merge_merge (account : InstructionAccount) (s w s' w' : Bool) :
    (account.merge s w).merge s' w' = account.merge (s || s') (w || w') := by
  simp [InstructionAccount.merge, Bool.or_assoc]

theorem merge_self (account : InstructionAccount) :
    account.merge account.isSigner account.isWritable = account := by
  simp [InstructionAccount.merge]

/-- The account has no flag the other one has not. -/
def Completes (full account : InstructionAccount) : Prop :=
  account.merge full.isSigner full.isWritable = full

theorem Completes.merge (h : Completes account mention) (s w : Bool) :
    Completes (account.merge s w) mention := by
  have hfull : mention.merge (account.isSigner || s) (account.isWritable || w) =
      (mention.merge account.isSigner account.isWritable).merge s w :=
    (merge_merge mention _ _ s w).symm
  unfold Completes at h ⊢
  rw [h] at hfull
  exact hfull

/-! ## The first loop -/

/-- The accounts after the first loop has seen these mentions. -/
structure Merged (mentions : List InstructionAccount) (collected : Collected) : Prop where
  map_eq : collected.transactionCalleeMap = firstPositions (mentioned mentions)
  indices_eq : mentioned collected.instructionAccounts = mentioned mentions
  index_lt : ∀ i ∈ mentioned mentions, i < maxAccountsPerTransaction
  first : ∀ i ∈ mentioned mentions,
    collected.instructionAccounts[(mentioned mentions).idxOf i]? = some (granted mentions i)
  completes : ∀ account ∈ collected.instructionAccounts,
    Completes (granted mentions account.indexInTransaction) account

namespace Merged

variable {collected collected' : Collected}

theorem length_eq (h : Merged mentions collected) :
    collected.instructionAccounts.length = mentions.length := by
  have hlen := congrArg List.length h.indices_eq
  simpa [mentioned] using hlen

theorem empty : Merged [] .empty where
  map_eq := firstPositions_nil.symm
  indices_eq := rfl
  index_lt := fun _ hi => absurd hi not_mem_nil
  first := fun _ hi => absurd hi not_mem_nil
  completes := fun _ haccount => absurd haccount not_mem_nil

theorem mentioned_append (mentions : List InstructionAccount) (mention : InstructionAccount) :
    mentioned (mentions ++ [mention]) = mentioned mentions ++ [mention.indexInTransaction] :=
  map_append

theorem completes_append (h : Completes (granted mentions account.indexInTransaction) account)
    (mention : InstructionAccount) :
    Completes (granted (mentions ++ [mention]) account.indexInTransaction) account := by
  by_cases hindex : mention.indexInTransaction = account.indexInTransaction
  · rw [← hindex, granted_append, hindex]
    exact h.merge mention.isSigner mention.isWritable
  · rw [granted_append_of_ne hindex]
    exact h

section

variable (h : Merged mentions collected) {k : Nat}
include h

theorem first_lt (hmem : i ∈ mentioned mentions) :
    (mentioned mentions).idxOf i < collected.instructionAccounts.length :=
  (List.getElem?_eq_some_iff.mp (h.first i hmem)).1

/-- Another mention of an account: its first position and the new one hold all its flags. -/
theorem add_known
    (hmem : mention.indexInTransaction ∈ mentioned mentions) {merged : InstructionAccount}
    (hmerged : merged = granted (mentions ++ [mention]) mention.indexInTransaction) :
    Merged (mentions ++ [mention])
      { collected with
        instructionAccounts := collected.instructionAccounts.set
          ((mentioned mentions).idxOf mention.indexInTransaction) merged ++ [merged] } := by
  have hposition := idxOf_lt_length_of_mem hmem
  have hindex : merged.indexInTransaction = mention.indexInTransaction := by rw [hmerged]; rfl
  have hknown : ∀ i ∈ mentioned (mentions ++ [mention]), i ∈ mentioned mentions := by
    intro i hi
    rw [mentioned_append] at hi
    rcases mem_append.mp hi with hi | hi
    · exact hi
    · rwa [mem_singleton.mp hi]
  refine ⟨?_, ?_, fun i hi => h.index_lt i (hknown i hi), ?_, ?_⟩
  · rw [mentioned_append, firstPositions_append_of_mem hmem]
    exact h.map_eq
  · have hset : (mentioned mentions).set ((mentioned mentions).idxOf mention.indexInTransaction)
        mention.indexInTransaction = mentioned mentions := by
      have hself := set_getElem_self hposition
      rwa [getElem_idxOf hposition] at hself
    rw [mentioned_append, mentioned_append, hindex, mentioned, map_set, hindex, ← mentioned,
      h.indices_eq, hset]
  · intro i hi
    have hi' := hknown i hi
    have hlt := h.first_lt hi'
    rw [mentioned_append, idxOf_append_of_mem hi',
      getElem?_append_left (by rwa [length_set]), getElem?_set]
    by_cases heq : mention.indexInTransaction = i
    · subst heq
      rw [if_pos rfl, if_pos hlt, hmerged]
    · rw [if_neg (fun hidx => heq ((idxOf_inj hmem).mp hidx)), granted_append_of_ne heq]
      exact h.first i hi'
  · intro account haccount
    have hcases : account = merged ∨ account ∈ collected.instructionAccounts := by
      rcases mem_append.mp haccount with hset | hlast
      · exact (mem_or_eq_of_mem_set hset).symm
      · exact .inl (mem_singleton.mp hlast)
    rcases hcases with rfl | hold
    · rw [hindex, ← hmerged]
      exact merge_self account
    · exact completes_append (h.completes account hold) mention

theorem add_new (hindex : mention.indexInTransaction < maxAccountsPerTransaction)
    (hmem : mention.indexInTransaction ∉ mentioned mentions) :
    Merged (mentions ++ [mention])
      { transactionCalleeMap :=
          collected.transactionCalleeMap.set mention.indexInTransaction mentions.length
        instructionAccounts := collected.instructionAccounts ++ [mention] } := by
  have hgranted : granted (mentions ++ [mention]) mention.indexInTransaction = mention := by
    rw [granted_append, granted_of_not_mem hmem]
    simp [InstructionAccount.merge]
  refine ⟨?_, ?_, ?_, ?_, ?_⟩
  · rw [mentioned_append, firstPositions_append_of_not_mem hmem, h.map_eq]
    simp [mentioned]
  · rw [mentioned_append, mentioned_append, h.indices_eq]
  · intro i hi
    rw [mentioned_append] at hi
    rcases mem_append.mp hi with hi | hi
    · exact h.index_lt i hi
    · rwa [mem_singleton.mp hi]
  · intro i hi
    by_cases hi' : i ∈ mentioned mentions
    · have hne : mention.indexInTransaction ≠ i := fun heq => hmem (heq ▸ hi')
      rw [mentioned_append, idxOf_append_of_mem hi', getElem?_append_left (h.first_lt hi'),
        granted_append_of_ne hne]
      exact h.first i hi'
    · have heq : mention.indexInTransaction = i := by
        rw [mentioned_append] at hi
        rcases mem_append.mp hi with hi | hi
        · exact absurd hi hi'
        · exact (mem_singleton.mp hi).symm
      subst heq
      have hlast : (mentioned mentions ++ [mention.indexInTransaction]).idxOf
          mention.indexInTransaction = collected.instructionAccounts.length := by
        rw [idxOf_append_of_notMem hi', h.length_eq]
        simp [mentioned]
      rw [mentioned_append, hlast, getElem?_concat_length, hgranted]
  · intro account haccount
    rcases mem_append.mp haccount with hold | hlast
    · exact completes_append (h.completes account hold) mention
    · rw [mem_singleton.mp hlast, hgranted]
      exact merge_self mention

theorem add (mention : InstructionAccount) (hlen : mentions.length < u16Max)
    (hadd : collected.add mention.indexInTransaction mention.isSigner mention.isWritable =
      .ok collected') : Merged (mentions ++ [mention]) collected' := by
  unfold Collected.add at hadd
  rw [h.map_eq] at hadd
  by_cases hindex : mention.indexInTransaction < maxAccountsPerTransaction
  case neg =>
    rw [getElem?_firstPositions_of_le (Nat.not_lt.mp hindex)] at hadd
    cases hadd
  case pos =>
    rw [getElem?_firstPositions hindex] at hadd
    dsimp only at hadd
    by_cases hmem : mention.indexInTransaction ∈ mentioned mentions
    · rw [if_pos hmem, if_pos (h.first_lt hmem), h.first _ hmem] at hadd
      obtain rfl := Except.ok.inj hadd
      rw [← h.map_eq]
      exact h.add_known hmem (granted_append mentions mention).symm
    · have hfresh : ¬ u16Max < collected.instructionAccounts.length := by
        rw [h.length_eq]
        omega
      have hmod : mentions.length % 2 ^ 16 = mentions.length := by
        unfold u16Max at hlen
        exact Nat.mod_eq_of_lt (by omega)
      rw [if_neg hmem, if_neg hfresh, h.length_eq, hmod] at hadd
      obtain rfl := Except.ok.inj hadd
      rw [← h.map_eq]
      exact h.add_new hindex hmem

theorem index_mem (hmem : account ∈ collected.instructionAccounts) :
    account.indexInTransaction ∈ mentioned mentions := by
  rw [← h.indices_eq]
  exact mem_map_of_mem hmem

variable (hk : collected.instructionAccounts[k]? = some account)
include hk

theorem getElem?_mentioned :
    (mentioned mentions)[k]? = some account.indexInTransaction := by
  rw [← h.indices_eq, mentioned, getElem?_map, hk, Option.map_some]

theorem idxOf_le : (mentioned mentions).idxOf account.indexInTransaction ≤ k := by
  obtain ⟨hlt, heq⟩ := List.getElem?_eq_some_iff.mp (h.getElem?_mentioned hk)
  by_contra hbefore
  have hnot := not_of_lt_findIdx (Nat.not_le.mp hbefore)
  simp [heq] at hnot

theorem spread_getElem? :
    (spread mentions)[k]? = some (granted mentions account.indexInTransaction) := by
  have hget := h.getElem?_mentioned hk
  rw [mentioned, getElem?_map, Option.map_eq_some_iff] at hget
  obtain ⟨mention, hmention, hindex⟩ := hget
  rw [spread, getElem?_map, hmention, Option.map_some, hindex]

end

end Merged

/-! ## The second loop -/

variable {collected : Collected} {caller : InstructionContext} {accounts : List AccountMeta}
  {signers : List Pubkey}

/-- The accounts after the second loop has handled the positions before `done`. -/
structure Checked (caller : InstructionContext) (accounts : List AccountMeta)
    (signers : List Pubkey) (mentions : List InstructionAccount) (collected : Collected)
    (done : Nat) (current : List InstructionAccount) : Prop where
  complete : ∀ k < done, current[k]? = (spread mentions)[k]?
  rest : ∀ k, done ≤ k → current[k]? = collected.instructionAccounts[k]?
  permitted : ∀ i ∈ mentioned mentions, (mentioned mentions).idxOf i < done →
    checkPrivileges caller accounts signers ((mentioned mentions).idxOf i) (granted mentions i) =
      .ok ()

/-- One turn of the second loop. -/
theorem Checked.step (hmerged : Merged mentions collected) {done : Nat}
    {current current' : List InstructionAccount}
    (h : Checked caller accounts signers mentions collected done current)
    (hstep : checkAccount caller accounts signers collected.transactionCalleeMap current done =
      .ok current') : Checked caller accounts signers mentions collected (done + 1) current' := by
  unfold checkAccount at hstep
  rw [h.rest done (Nat.le_refl done)] at hstep
  cases hget : collected.instructionAccounts[done]? with
  | none =>
    rw [hget] at hstep
    cases hstep
  | some account =>
    rw [hget, hmerged.map_eq] at hstep
    dsimp only at hstep
    have hmem := hmerged.index_mem (mem_of_getElem? hget)
    have hspread := hmerged.spread_getElem? hget
    by_cases hindex : account.indexInTransaction < maxAccountsPerTransaction
    case neg =>
      rw [getElem?_firstPositions_of_le (Nat.not_lt.mp hindex)] at hstep
      cases hstep
    case pos =>
      rw [getElem?_firstPositions hindex, if_pos hmem] at hstep
      dsimp only at hstep
      by_cases hfirst : done = (mentioned mentions).idxOf account.indexInTransaction
      · -- the first position is complete since the first loop, and is checked here
        rw [if_neg (fun hne => hne hfirst), check_bind_eq_ok_iff] at hstep
        obtain ⟨hcheck, hsame⟩ := hstep
        obtain rfl := Except.ok.inj hsame
        have haccount : account = granted mentions account.indexInTransaction := by
          have hgranted := hmerged.first account.indexInTransaction hmem
          rw [← hfirst, hget] at hgranted
          exact Option.some.inj hgranted
        refine ⟨fun k hk => ?_, fun k hk => h.rest k (Nat.le_of_succ_le hk), fun i hi hlt => ?_⟩
        · rcases Nat.lt_succ_iff_lt_or_eq.mp hk with hk | rfl
          · exact h.complete k hk
          · rw [h.rest k (Nat.le_refl k), hget, hspread, ← haccount]
        · rcases Nat.lt_succ_iff_lt_or_eq.mp hlt with hlt | heq
          · exact h.permitted i hi hlt
          · have hi' : i = account.indexInTransaction :=
              (idxOf_inj hi).mp (heq.trans hfirst)
            rw [heq, hi', ← haccount]
            exact hcheck
      · -- another position takes the flags of the first one
        have hbefore : (mentioned mentions).idxOf account.indexInTransaction < done :=
          Nat.lt_of_le_of_ne (hmerged.idxOf_le hget) (Ne.symm hfirst)
        have hreference : current[(mentioned mentions).idxOf account.indexInTransaction]? =
            some (granted mentions account.indexInTransaction) := by
          rw [h.complete _ hbefore, spread_getElem?_first hmem]
        have hcompleted : account.merge (granted mentions account.indexInTransaction).isSigner
            (granted mentions account.indexInTransaction).isWritable =
            granted mentions account.indexInTransaction :=
          hmerged.completes account (mem_of_getElem? hget)
        rw [if_pos hfirst, hreference] at hstep
        dsimp only at hstep
        rw [hcompleted] at hstep
        obtain rfl := Except.ok.inj hstep
        refine ⟨fun k hk => ?_, fun k hk => ?_, fun i hi hlt => ?_⟩
        · rcases Nat.lt_succ_iff_lt_or_eq.mp hk with hk | rfl
          · rw [getElem?_set_ne (Nat.ne_of_gt hk)]
            exact h.complete k hk
          · have hlen : k < current.length := by
              have hsome := h.rest k (Nat.le_refl k)
              rw [hget] at hsome
              exact (List.getElem?_eq_some_iff.mp hsome).1
            rw [List.getElem?_set_self hlen, hspread]
        · rw [getElem?_set_ne (Nat.ne_of_lt hk)]
          exact h.rest k (Nat.le_of_succ_le hk)
        · rcases Nat.lt_succ_iff_lt_or_eq.mp hlt with hlt | heq
          · exact h.permitted i hi hlt
          · -- the position of another account is not first for this one
            have hindex' : account.indexInTransaction = i := by
              have hgot := hmerged.first i hi
              rw [heq, hget] at hgot
              rw [Option.some.inj hgot]
              rfl
            exact absurd (hindex' ▸ heq.symm) hfirst

/-- The two loops leave every position with all flags of its account, and have checked the first
    position of every account. -/
theorem checkAccounts_spec (hmerged : Merged mentions collected) {result : List InstructionAccount}
    (hrun : (List.range collected.instructionAccounts.length).foldlM
      (checkAccount caller accounts signers collected.transactionCalleeMap)
      collected.instructionAccounts = .ok result) :
    result = spread mentions ∧ ∀ i ∈ mentioned mentions,
      checkPrivileges caller accounts signers ((mentioned mentions).idxOf i) (granted mentions i) =
        .ok () := by
  have hstart : Checked caller accounts signers mentions collected 0
      collected.instructionAccounts :=
    ⟨fun k hk => absurd hk (Nat.not_lt_zero k), fun _ _ => rfl,
      fun i _ hlt => absurd hlt (Nat.not_lt_zero _)⟩
  have hreturns : Returns (fun _ => True)
      (fun current => Checked caller accounts signers mentions collected
        collected.instructionAccounts.length current)
      ((List.range collected.instructionAccounts.length).foldlM
        (checkAccount caller accounts signers collected.transactionCalleeMap)
        collected.instructionAccounts) := by
    refine Returns.foldlM_range (fun k current _ hcurrent => ?_) hstart
    cases hstep : checkAccount caller accounts signers collected.transactionCalleeMap current k with
    | error e => exact True.intro
    | ok current' => exact hcurrent.step hmerged hstep
  have hdone := hreturns.of_ok hrun
  have hlen : (spread mentions).length = collected.instructionAccounts.length := by
    rw [spread, length_map, hmerged.length_eq]
  refine ⟨ext_getElem? (fun k => ?_),
    fun i hi => hdone.permitted i hi (hmerged.first_lt hi)⟩
  by_cases hk : k < collected.instructionAccounts.length
  · exact hdone.complete k hk
  · rw [hdone.rest k (Nat.not_lt.mp hk), getElem?_eq_none (Nat.not_lt.mp hk),
      getElem?_eq_none (by rw [hlen]; exact Nat.not_lt.mp hk)]

/-! ## The accounts of an invocation -/

/-- A mention of an account that was found in the transaction. -/
structure Resolves (ic : InvokeContext) (accountMeta : AccountMeta) (mention : InstructionAccount) :
    Prop where
  index : ic.findIndexOfAccount accountMeta.pubkey = some mention.indexInTransaction
  isSigner : mention.isSigner = accountMeta.isSigner
  isWritable : mention.isWritable = accountMeta.isWritable

/-- The first loop of an invocation. -/
theorem collectAccounts_spec {ic : InvokeContext} (hlen : accounts.length ≤ u16Max)
    (hrun : accounts.foldlM ic.collectAccount .empty = .ok collected) :
    ∃ mentions, List.Forall₂ (Resolves ic) accounts mentions ∧ Merged mentions collected := by
  let inv : List AccountMeta → Collected → Prop := fun seen collected =>
    ∃ mentions, List.Forall₂ (Resolves ic) seen mentions ∧ Merged mentions collected
  have hreturns : Returns (fun _ => True) (inv accounts)
      (accounts.foldlM ic.collectAccount .empty) := by
    refine Returns.foldlM_seen ?_ ⟨[], .nil, .empty⟩
    rintro seen accountMeta rest collected haccounts ⟨mentions, hresolves, hmerged⟩
    unfold InvokeContext.collectAccount
    cases hfind : ic.findIndexOfAccount accountMeta.pubkey with
    | none => exact True.intro
    | some index =>
      dsimp only
      cases hadd : collected.add index accountMeta.isSigner accountMeta.isWritable with
      | error e => exact True.intro
      | ok collected' =>
        have hshort : mentions.length < u16Max := by
          have hseen := congrArg List.length haccounts
          rw [length_append, length_cons] at hseen
          rw [← hresolves.length_eq]
          omega
        let mention : InstructionAccount :=
          ⟨index, accountMeta.isSigner, accountMeta.isWritable⟩
        refine ⟨mentions ++ [mention], ?_, hmerged.add mention hshort hadd⟩
        exact rel_append hresolves (.cons ⟨hfind, rfl, rfl⟩ .nil)
  exact hreturns.of_ok hrun

/-- The mentions of a top-level instruction have the flags of the message. -/
def topLevelMentions (message : SVMMessage) (accounts : List (Fin 256)) : List InstructionAccount :=
  accounts.map fun i => ⟨i.val, message.isSigner i.val, message.isWritable i.val⟩

/-- The loop over the accounts of a top-level instruction. -/
theorem collectTopLevelAccounts_spec {message : SVMMessage} {accounts : List (Fin 256)}
    (hlen : accounts.length ≤ u16Max)
    (hrun : accounts.foldlM (InvokeContext.collectTopLevelAccount message) .empty = .ok collected) :
    collected.instructionAccounts = topLevelMentions message accounts ∧
      collected.transactionCalleeMap =
        firstPositions (mentioned (topLevelMentions message accounts)) := by
  let inv : List (Fin 256) → Collected → Prop := fun seen collected =>
    collected.instructionAccounts = topLevelMentions message seen ∧
      collected.transactionCalleeMap = firstPositions (mentioned (topLevelMentions message seen))
  have hreturns : Returns (fun _ => True) (inv accounts)
      (accounts.foldlM (InvokeContext.collectTopLevelAccount message) .empty) := by
    refine Returns.foldlM_seen ?_ ⟨rfl, firstPositions_nil.symm⟩
    rintro seen i rest collected haccounts ⟨hcollected, hmap⟩
    have hshort : (mentioned (topLevelMentions message seen)).length < u16Max := by
      have hseen := congrArg List.length haccounts
      rw [length_append, length_cons] at hseen
      rw [mentioned, topLevelMentions, length_map, length_map]
      omega
    have happend : topLevelMentions message (seen ++ [i]) = topLevelMentions message seen ++
        [⟨i.val, message.isSigner i.val, message.isWritable i.val⟩] := map_append
    have hlength : collected.instructionAccounts.length =
        (mentioned (topLevelMentions message seen)).length := by
      rw [hcollected, mentioned, length_map]
    unfold InvokeContext.collectTopLevelAccount
    rw [hmap, getElem?_firstPositions i.isLt]
    refine ⟨by rw [hcollected, happend], ?_⟩
    rw [happend, Merged.mentioned_append, hlength]
    dsimp only
    by_cases hmem : i.val ∈ mentioned (topLevelMentions message seen)
    · have hlt := idxOf_lt_length_of_mem hmem
      rw [if_pos hmem, if_neg (Nat.not_lt.mpr (Nat.le_of_lt hlt)), firstPositions_append_of_mem hmem]
    · have hmod : (mentioned (topLevelMentions message seen)).length % 2 ^ 16 =
          (mentioned (topLevelMentions message seen)).length := by
        unfold u16Max at hshort
        exact Nat.mod_eq_of_lt (by omega)
      rw [if_neg hmem, if_pos hshort, hmod, firstPositions_append_of_not_mem hmem]
  exact hreturns.of_ok hrun

end Agave.ProgramRuntime

