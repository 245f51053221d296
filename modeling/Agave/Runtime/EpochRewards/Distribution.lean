/-
  Agave.Runtime.EpochRewards.Distribution

  The distribution of the rewards of an epoch to the stake accounts, one partition of them in each
  block.

  A bank takes the status of its parent over: the rewards are first waiting (`calculation`), are
  split into partitions in the first block of the interval (`distribution`), and the status is
  inactive after the last one.  The update of a stake account may fail, and then its reward is
  burned; it may also stop the bank, when the cached account does not go with the entry.  How a
  stake state is written into an account, the rent and how an address is hashed are left to the
  environment.
-/

import Agave.Runtime.EpochRewards.Points
import Mathlib.Algebra.Order.BigOperators.Group.List
import Mathlib.Data.List.Flatten
import Mathlib.Tactic.Linarith

namespace Agave.Runtime.Rewards

open Lib List

structure InflationReward where
  stake : Stake
  stakeReward : Nat
  commissionBps : Option Nat

structure PartitionedStakeReward extends InflationReward where
  stakePubkey : Pubkey

/-- `PartitionedStakeRewards`: rewards, with gaps. -/
abbrev PartitionedStakeRewards := List (Option PartitionedStakeReward)

inductive EpochRewardStatus where
  | calculation (distributionStartingBlockHeight : Nat) (allStakeRewards : PartitionedStakeRewards)
  | distribution (distributionStartingBlockHeight : Nat) (allStakeRewards : PartitionedStakeRewards)
      (partitionIndices : List (List Nat))
  | inactive

/-- The `EpochRewards` sysvar. -/
structure EpochRewards where
  numPartitions : Nat
  parentBlockhash : Hash
  totalRewards : Nat
  distributedRewards : Nat
  active : Bool

structure Meta where
  rentExemptReserve : Nat
  staker : Pubkey
  withdrawer : Pubkey
  lockup : Int × Nat × Pubkey

inductive StakeStateV2 where
  | uninitialized
  | initialized (metadata : Meta)
  | stake (metadata : Meta) (stake : Stake) (flags : UInt8)
  | rewardsPool

/-- `AccountSharedData`, without what an update leaves alone. -/
structure AccountSharedData where
  lamports : Nat
  data : List UInt8

/-- `RewardType`, of stake accounts. -/
inductive RewardType where
  | staking
  | deactivatedStake

/-- `StakeReward`: a stake account with its `StakeRewardInfo`. -/
structure StakeReward where
  stakePubkey : Pubkey
  rewardType : RewardType
  lamports : Nat
  postBalance : Nat
  commissionBps : Option Nat
  stakeAccount : AccountSharedData

inductive DistributionError where
  | accountNotFound
  | arithmeticOverflow
  | unableToSetState

/-- The part of a bank that the distribution reads and writes. -/
structure Bank where
  blockHeight : Nat
  epochRewardStatus : EpochRewardStatus
  epochRewards : EpochRewards
  capitalization : Nat
  rewards : List StakeReward
  storedAccounts : List StakeReward

/-- What a block finds around it: the cached stake accounts, the rent, how a state is written, and
    the features. -/
structure Environment where
  slotsInEpoch : Nat
  epoch : Nat
  stakesCacheAccounts : Pubkey → Option (AccountSharedData × StakeStateV2)
  minimumBalance : Nat → Nat
  setState : StakeStateV2 → List UInt8 → Option (List UInt8)
  effectiveStake : EffectiveStake
  adjustDelegationsForRent : Bool

/-- The partition of an address, for a blockhash and a number of partitions. -/
abbrev Hasher := Hash → Nat → Pubkey → Nat

/-- What stops the update of a stake account. -/
inductive UpdatePanic where
  /-- The cached account is not that of a stake. -/
  | notAStake
  /-- "stake reward delegation must be consistent with the updated stake account lamport
      balance". -/
  | delegationInconsistent
  /-- The reward does not fit an `i64`. -/
  | rewardNotSigned
deriving DecidableEq

/-- What stops a bank. -/
inductive RewardPanic where
  | hashOutOfBound
  | partitionIndexOutOfBound
  | rewardOutOfBound
  | rewardEmpty
  | tooManyPartitions
  | sysvarInactive
  | distributedExceedsTotal
  | update (panic : UpdatePanic)
deriving DecidableEq

/-- Addition of `u64`s. -/
def addU64 (a b : Nat) : Nat := (a + b) % 2 ^ 64

/-- `enumerated_rewards_iter`. -/
def enumeratedRewards (rewards : PartitionedStakeRewards) : List (Nat × PartitionedStakeReward) :=
  rewards.zipIdx.filterMap (fun entry => entry.1.map (fun reward => (entry.2, reward)))

/-- One step of `hash_rewards_into_partitions`. -/
def pushIndex (partition : Pubkey → Nat) (indices : List (List Nat))
    (entry : Nat × PartitionedStakeReward) : Except RewardPanic (List (List Nat)) :=
  let partitionIndex := partition entry.2.stakePubkey
  if partitionIndex < indices.length then
    .ok (indices.modify partitionIndex (fun l => l ++ [entry.1]))
  else .error .hashOutOfBound

def hashRewardsIntoPartitions (hasher : Hasher) (stakeRewards : PartitionedStakeRewards)
    (parentBlockhash : Hash) (numPartitions : Nat) : Except RewardPanic (List (List Nat)) :=
  (enumeratedRewards stakeRewards).foldlM (pushIndex (hasher parentBlockhash numPartitions))
    (List.replicate numPartitions [])

def buildUpdatedStakeReward (env : Environment) (partitionedStakeReward : PartitionedStakeReward) :
    Except UpdatePanic (Except DistributionError StakeReward) :=
  match env.stakesCacheAccounts partitionedStakeReward.stakePubkey with
  | none => .ok (.error .accountNotFound)
  | some (account, .stake metadata stake flags) =>
    let lamports := account.lamports + partitionedStakeReward.stakeReward
    if u64Max < lamports then .ok (.error .arithmeticOverflow)
    else
      let delegation := partitionedStakeReward.stake.delegation
      let consistent :=
        if env.adjustDelegationsForRent then
          decide (delegation.stake ≤ lamports - env.minimumBalance account.data.length)
        else
          decide (saturatingAdd stake.delegation.stake partitionedStakeReward.stakeReward =
            delegation.stake)
      if !consistent then .error .delegationInconsistent
      else
        match env.setState (.stake metadata partitionedStakeReward.stake flags) account.data with
        | none => .ok (.error .unableToSetState)
        | some data =>
          if 2 ^ 63 ≤ partitionedStakeReward.stakeReward then .error .rewardNotSigned
          else .ok (.ok
            { stakePubkey := partitionedStakeReward.stakePubkey
              rewardType :=
                if env.effectiveStake delegation env.epoch = 0 then .deactivatedStake else .staking
              lamports := partitionedStakeReward.stakeReward
              postBalance := lamports
              commissionBps := partitionedStakeReward.commissionBps
              stakeAccount := ⟨lamports, data⟩ })
  | some _ => .error .notAStake

structure DistributionResults where
  stakeRewardLamportsMinted : Nat
  stakeRewardLamportsBurned : Nat
  updatedStakeRewards : List StakeReward

/-- The body of the loop of `store_stake_accounts_in_partition`. -/
def processEntry (env : Environment) (allStakeRewards : PartitionedStakeRewards)
    (results : DistributionResults) (index : Nat) : Except RewardPanic DistributionResults :=
  match allStakeRewards[index]? with
  | none => .error .rewardOutOfBound
  | some none => .error .rewardEmpty
  | some (some reward) => do
    match ← (buildUpdatedStakeReward env reward).mapError .update with
    | .ok stakeReward =>
      return { results with
        stakeRewardLamportsMinted :=
          addU64 results.stakeRewardLamportsMinted reward.stakeReward
        updatedStakeRewards := results.updatedStakeRewards ++ [stakeReward] }
    | .error _ =>
      return { results with
        stakeRewardLamportsBurned :=
          addU64 results.stakeRewardLamportsBurned reward.stakeReward }

namespace Bank

variable (hasher : Hasher) (env : Environment) (bank : Bank)

def storeStakeAccountsInPartition (allStakeRewards : PartitionedStakeRewards)
    (partitionIndices : List (List Nat)) (partitionIndex : Nat) : Except RewardPanic
    (DistributionResults × Bank) :=
  match partitionIndices[partitionIndex]? with
  | none => .error .partitionIndexOutOfBound
  | some indices => do
    let results ← indices.foldlM (processEntry env allStakeRewards) ⟨0, 0, []⟩
    return (results,
      { bank with storedAccounts := bank.storedAccounts ++ results.updatedStakeRewards })

def updateEpochRewardsSysvar (distributed : Nat) : Except RewardPanic Bank :=
  let distributedRewards := min (bank.epochRewards.distributedRewards + distributed) u64Max
  if bank.epochRewards.active = false then .error .sysvarInactive
  else if bank.epochRewards.totalRewards < distributedRewards then .error .distributedExceedsTotal
  else .ok { bank with
    epochRewards := { bank.epochRewards with distributedRewards := distributedRewards } }

def setEpochRewardsSysvarToInactive : Except RewardPanic Bank :=
  if bank.epochRewards.totalRewards < bank.epochRewards.distributedRewards then
    .error .distributedExceedsTotal
  else .ok { bank with epochRewards := { bank.epochRewards with active := false } }

def distributeEpochRewardsInPartition (allStakeRewards : PartitionedStakeRewards)
    (partitionIndices : List (List Nat)) (partitionIndex : Nat) : Except RewardPanic Bank := do
  let (results, bank) ←
    bank.storeStakeAccountsInPartition env allStakeRewards partitionIndices partitionIndex
  let bank := { bank with
    capitalization := addU64 bank.capitalization results.stakeRewardLamportsMinted }
  let bank ← bank.updateEpochRewardsSysvar
    (addU64 results.stakeRewardLamportsMinted results.stakeRewardLamportsBurned)
  return { bank with
    rewards := bank.rewards ++ results.updatedStakeRewards.filter (fun x => 0 < x.lamports) }

/-- The part of `distribute_partitioned_epoch_rewards` in the distribution phase. -/
def distributePartition (distributionStartingBlockHeight : Nat)
    (allStakeRewards : PartitionedStakeRewards) (partitionIndices : List (List Nat)) : Except
    RewardPanic Bank := do
  let distributionEndExclusive := distributionStartingBlockHeight + partitionIndices.length
  if env.slotsInEpoch ≤ partitionIndices.length then .error .tooManyPartitions
  else do
    let bank ←
      if distributionStartingBlockHeight ≤ bank.blockHeight ∧
          bank.blockHeight < distributionEndExclusive then
        bank.distributeEpochRewardsInPartition env allStakeRewards partitionIndices
          (bank.blockHeight - distributionStartingBlockHeight)
      else .ok bank
    if distributionEndExclusive ≤ bank.blockHeight + 1 then
      setEpochRewardsSysvarToInactive { bank with epochRewardStatus := .inactive }
    else .ok bank

def distributePartitionedEpochRewards : Except RewardPanic Bank :=
  match bank.epochRewardStatus with
  | .inactive => .ok bank
  | .calculation start allStakeRewards =>
    if bank.blockHeight < start then .ok bank
    else do
      let partitionIndices ← hashRewardsIntoPartitions hasher allStakeRewards
        bank.epochRewards.parentBlockhash bank.epochRewards.numPartitions
      distributePartition env
        { bank with epochRewardStatus := .distribution start allStakeRewards partitionIndices }
        start allStakeRewards partitionIndices
  | .distribution start allStakeRewards partitionIndices =>
    if bank.blockHeight < start then .ok bank
    else bank.distributePartition env start allStakeRewards partitionIndices

/-- The bank of the next block, after it has distributed what it has to. -/
def nextBlock (env : Nat → Environment) : Except RewardPanic Bank :=
  distributePartitionedEpochRewards hasher (env (bank.blockHeight + 1))
    { bank with blockHeight := bank.blockHeight + 1 }

/-- The bank a number of blocks later.  Each block finds what there is at its height. -/
def after (hasher : Hasher) (env : Nat → Environment) (bank : Bank) : Nat → Except RewardPanic Bank
  | 0 => .ok bank
  | k + 1 => do (← after hasher env bank k).nextBlock hasher env

end Bank

/-! ## Partitions -/

/-- The places of the rewards. -/
def rewardIndices (rewards : PartitionedStakeRewards) : List Nat :=
  (enumeratedRewards rewards).map Prod.fst

/-- The reward at a place. -/
def stakeRewardAt (rewards : PartitionedStakeRewards) (index : Nat) : Nat :=
  ((rewards[index]?.join).map (fun reward => reward.stakeReward)).getD 0

/-- The sum of all rewards. -/
def totalStakeRewards (rewards : PartitionedStakeRewards) : Nat :=
  ((enumeratedRewards rewards).map (fun entry => entry.2.stakeReward)).sum

variable {rewards : PartitionedStakeRewards}

theorem mem_enumeratedRewards {entry : Nat × PartitionedStakeReward} :
    entry ∈ enumeratedRewards rewards ↔ rewards[entry.1]? = some (some entry.2) := by
  simp only [enumeratedRewards, mem_filterMap, mem_zipIdx_iff_getElem?, Prod.exists,
    Option.map_eq_some_iff]
  constructor
  · rintro ⟨_, _, hget, reward, rfl, rfl⟩
    exact hget
  · intro hget
    exact ⟨some entry.2, entry.1, hget, entry.2, rfl, rfl⟩

variable {index : Nat} {results : DistributionResults}

theorem mem_rewardIndices :
    index ∈ rewardIndices rewards ↔ ∃ reward, rewards[index]? = some (some reward) := by
  rw [rewardIndices, mem_map]
  constructor
  · rintro ⟨entry, hentry, rfl⟩
    exact ⟨entry.2, mem_enumeratedRewards.mp hentry⟩
  · rintro ⟨reward, hreward⟩
    exact ⟨(index, reward), mem_enumeratedRewards.mpr hreward, rfl⟩

theorem stakeRewardAt_eq {reward : PartitionedStakeReward}
    (h : rewards[index]? = some (some reward)) :
    stakeRewardAt rewards index = reward.stakeReward := by
  rw [stakeRewardAt, h]
  rfl

theorem totalStakeRewards_eq (rewards : PartitionedStakeRewards) :
    totalStakeRewards rewards = ((rewardIndices rewards).map (stakeRewardAt rewards)).sum := by
  rw [totalStakeRewards, rewardIndices, map_map]
  refine congrArg List.sum (map_congr_left ?_)
  intro entry hentry
  exact (stakeRewardAt_eq (mem_enumeratedRewards.mp hentry)).symm

/-- Pushing to one of the lists. -/
theorem flatten_modify_perm {indices : List (List Nat)} {p : Nat} (hp : p < indices.length)
    (i : Nat) : (indices.modify p (fun l => l ++ [i])).flatten.Perm (indices.flatten ++ [i]) := by
  induction indices generalizing p with
  | nil => exact absurd hp (Nat.not_lt_zero _)
  | cons l indices ih =>
    cases p with
    | zero =>
      rw [modify_zero_cons, flatten_cons, flatten_cons, append_assoc, append_assoc]
      exact List.Perm.append_left l perm_append_comm
    | succ p =>
      rw [modify_succ_cons, flatten_cons, flatten_cons, append_assoc]
      exact List.Perm.append_left l (ih (Nat.lt_of_succ_lt_succ hp))

/-- The split is into so many partitions, and every reward is in one of them, once. -/
theorem hashRewardsIntoPartitions_returns {hasher : Hasher} {blockhash : Hash} {n : Nat}
    (hhasher : ∀ pubkey, hasher blockhash n pubkey < n) (rewards : PartitionedStakeRewards) :
    ∃ partitions, hashRewardsIntoPartitions hasher rewards blockhash n = .ok partitions ∧
      partitions.length = n ∧ partitions.flatten.Perm (rewardIndices rewards) := by
  let inv : List (Nat × PartitionedStakeReward) → List (List Nat) → Prop := fun seen indices =>
    indices.length = n ∧ indices.flatten.Perm (seen.map Prod.fst)
  have hfold : Succeeds (inv (enumeratedRewards rewards))
      (hashRewardsIntoPartitions hasher rewards blockhash n) := by
    refine Returns.foldlM_seen ?_ ⟨length_replicate, by rw [flatten_replicate_nil]; rfl⟩
    rintro seen entry rest indices - ⟨hlength, hperm⟩
    have hp : hasher blockhash n entry.2.stakePubkey < indices.length := hlength ▸ hhasher _
    rw [pushIndex, if_pos hp]
    refine ⟨(length_modify _ _ _).trans hlength, ?_⟩
    rw [map_append]
    exact (flatten_modify_perm hp entry.1).trans (hperm.append_right _)
  exact hfold.exists_ok

/-! ## One partition -/

/-- What came of an entry: its account is updated, or there is an error. -/
structure Update where
  reward : PartitionedStakeReward
  outcome : Except DistributionError StakeReward

/-- The reward of an account that is updated. -/
def Update.credited (update : Update) : Nat :=
  match update.outcome with
  | .ok _ => update.reward.stakeReward
  | .error _ => 0

/-- The reward of an account that is not. -/
def Update.burned (update : Update) : Nat :=
  match update.outcome with
  | .ok _ => 0
  | .error _ => update.reward.stakeReward

/-- What was credited. -/
def credited (log : List Update) : Nat := (log.map Update.credited).sum

/-- What was burned. -/
def burned (log : List Update) : Nat := (log.map Update.burned).sum

/-- The updated accounts. -/
def updated (log : List Update) : List StakeReward :=
  log.filterMap (fun update => update.outcome.toOption)

theorem credited_append (l l' : List Update) : credited (l ++ l') = credited l + credited l' := by
  rw [credited, map_append, sum_append]
  rfl

theorem burned_append (l l' : List Update) : burned (l ++ l') = burned l + burned l' := by
  rw [burned, map_append, sum_append]
  rfl

theorem updated_append (l l' : List Update) : updated (l ++ l') = updated l ++ updated l' :=
  filterMap_append

/-- A reward is credited or burned. -/
theorem credited_add_burned (log : List Update) :
    credited log + burned log = (log.map (fun update => update.reward.stakeReward)).sum := by
  rw [credited, burned, ← sum_map_add]
  refine congrArg List.sum (map_congr_left ?_)
  rintro ⟨reward, _ | _⟩ -
  · exact Nat.zero_add _
  · exact Nat.add_zero _

/-- The update of the entry at a place, in the block of a height. -/
def UpdatedAt (env : Nat → Environment) (rewards : PartitionedStakeRewards) (place : Nat × Nat)
    (update : Update) : Prop :=
  rewards[place.2]? = some (some update.reward) ∧
    buildUpdatedStakeReward (env place.1) update.reward = .ok update.outcome

/-- The log is of the entries at these places. -/
abbrev LogOf (env : Nat → Environment) (rewards : PartitionedStakeRewards)
    (places : List (Nat × Nat)) (log : List Update) : Prop :=
  List.Forall₂ (UpdatedAt env rewards) places log

/-- The update of the entry at one of these places stops the bank, and nothing else does. -/
def StoppedAt (env : Nat → Environment) (rewards : PartitionedStakeRewards)
    (places : List (Nat × Nat)) : RewardPanic → Prop
  | .update panic => ∃ place ∈ places, ∃ reward, rewards[place.2]? = some (some reward) ∧
      buildUpdatedStakeReward (env place.1) reward = .error panic
  | _ => False

variable {env : Nat → Environment} {places : List (Nat × Nat)} {log : List Update}
  {partitions : List (List Nat)}

theorem StoppedAt.mono {places' : List (Nat × Nat)} {panic : RewardPanic}
    (h : StoppedAt env rewards places panic) (hsubset : places ⊆ places') :
    StoppedAt env rewards places' panic := by
  cases panic with
  | update panic =>
    obtain ⟨place, hplace, hreward⟩ := h
    exact ⟨place, hsubset hplace, hreward⟩
  | _ => exact h

theorem sum_logOf (h : LogOf env rewards places log) :
    (log.map (fun update => update.reward.stakeReward)).sum =
      (places.map (fun place => stakeRewardAt rewards place.2)).sum := by
  induction h with
  | nil => rfl
  | cons hupdate _ ih =>
    rw [map_cons, map_cons, sum_cons, sum_cons, ih, stakeRewardAt_eq hupdate.1]

/-- The results of the entries at some places. -/
def ResultsOf (env : Nat → Environment) (rewards : PartitionedStakeRewards)
    (places : List (Nat × Nat)) (results : DistributionResults) : Prop :=
  ∃ log, LogOf env rewards places log ∧
    results.stakeRewardLamportsMinted = credited log % 2 ^ 64 ∧
    results.stakeRewardLamportsBurned = burned log % 2 ^ 64 ∧
    results.updatedStakeRewards = updated log

/-- An entry that is there is processed. -/
theorem processEntry_returns (h : ResultsOf env rewards places results) (height : Nat)
    (hindex : index ∈ rewardIndices rewards) :
    Returns (StoppedAt env rewards [(height, index)])
      (ResultsOf env rewards (places ++ [(height, index)]))
      (processEntry (env height) rewards results index) := by
  obtain ⟨reward, hreward⟩ := mem_rewardIndices.mp hindex
  obtain ⟨log, hlog, hminted, hburned, hupdated⟩ := h
  unfold processEntry
  rw [hreward]
  dsimp only
  cases hbuild : buildUpdatedStakeReward (env height) reward with
  | error panic => exact ⟨_, mem_singleton_self _, reward, hreward, hbuild⟩
  | ok outcome =>
    have hlog' : LogOf env rewards (places ++ [(height, index)]) (log ++ [⟨reward, outcome⟩]) :=
      rel_append hlog (.cons ⟨hreward, hbuild⟩ .nil)
    cases outcome with
    | ok stakeReward =>
      refine ⟨_, hlog', ?_, ?_, ?_⟩
      · rw [credited_append, hminted]
        exact Nat.mod_add_mod _ _ _
      · rw [burned_append, hburned]
        rfl
      · rw [updated_append, hupdated]
        rfl
    | error e =>
      refine ⟨_, hlog', ?_, ?_, ?_⟩
      · rw [credited_append, hminted]
        rfl
      · rw [burned_append, hburned]
        exact Nat.mod_add_mod _ _ _
      · rw [updated_append, hupdated]
        exact (append_nil _).symm

theorem processEntries_returns (height : Nat) (indices : List Nat)
    (hindices : ∀ index ∈ indices, index ∈ rewardIndices rewards) :
    Returns (StoppedAt env rewards (indices.map (Prod.mk height)))
      (ResultsOf env rewards (indices.map (Prod.mk height)))
      (indices.foldlM (processEntry (env height) rewards) ⟨0, 0, []⟩) := by
  have hstep : ∀ seen index rest results, indices = seen ++ index :: rest →
      ResultsOf env rewards (seen.map (Prod.mk height)) results →
      Returns (StoppedAt env rewards (indices.map (Prod.mk height)))
        (ResultsOf env rewards ((seen ++ [index]).map (Prod.mk height)))
        (processEntry (env height) rewards results index) := by
    intro seen index rest results hseen hresults
    have hmem : index ∈ indices := hseen ▸ mem_append_right _ mem_cons_self
    rw [map_append]
    refine (processEntry_returns hresults height (hindices index hmem)).weaken
      fun panic h => h.mono ?_
    exact cons_subset.mpr ⟨mem_map_of_mem hmem, nil_subset _⟩
  exact Returns.foldlM_seen hstep ⟨[], .nil, rfl, rfl, rfl⟩

/-! ## The interval -/

/-- Where the entries of the partitions are, from the block of the first one on. -/
def placesOf (start : Nat) : List (List Nat) → List (Nat × Nat)
  | [] => []
  | indices :: partitions => indices.map (Prod.mk start) ++ placesOf (start + 1) partitions

theorem placesOf_append (start : Nat) (partitions : List (List Nat)) (indices : List Nat) :
    placesOf start (partitions ++ [indices]) =
      placesOf start partitions ++ indices.map (Prod.mk (start + partitions.length)) := by
  induction partitions generalizing start with
  | nil => exact append_nil _
  | cons first partitions ih =>
    rw [cons_append, placesOf, ih, placesOf, append_assoc, length_cons, Nat.add_right_comm,
      Nat.add_assoc]

theorem map_snd_placesOf (start : Nat) (partitions : List (List Nat)) :
    (placesOf start partitions).map Prod.snd = partitions.flatten := by
  induction partitions generalizing start with
  | nil => rfl
  | cons first partitions ih =>
    rw [placesOf, map_append, ih, map_map, flatten_cons]
    exact congrArg (· ++ _) (map_id _)

/-- The places of the partitions of so many blocks. -/
def placesUpTo (start : Nat) (partitions : List (List Nat)) (count : Nat) : List (Nat × Nat) :=
  placesOf start (partitions.take count)

theorem placesUpTo_succ {start count : Nat} (hcount : count < partitions.length) :
    placesUpTo start partitions (count + 1) = placesUpTo start partitions count ++
      partitions[count].map (Prod.mk (start + count)) := by
  rw [placesUpTo, take_add_one, getElem?_eq_getElem hcount, Option.toList_some, placesOf_append,
    length_take, min_eq_left hcount.le]
  rfl

theorem placesUpTo_mono (start : Nat) (partitions : List (List Nat)) (count : Nat) :
    placesUpTo start partitions count ⊆ placesUpTo start partitions (count + 1) := by
  by_cases hcount : count < partitions.length
  · rw [placesUpTo_succ hcount]
    exact subset_append_left _ _
  · rw [placesUpTo, placesUpTo, take_of_length_le (by omega), take_of_length_le (by omega)]
    exact Subset.refl _

/-- The rewards of an epoch, split into partitions.  What the sysvar promises covers them. -/
structure Split (rewards : PartitionedStakeRewards) (partitions : List (List Nat))
    (sysvar : EpochRewards) : Prop where
  perm : partitions.flatten.Perm (rewardIndices rewards)
  covered : sysvar.distributedRewards + totalStakeRewards rewards ≤ sysvar.totalRewards
  fits : sysvar.totalRewards ≤ u64Max
  active : sysvar.active = true

/-- What has come of a number of partitions. -/
structure Progress (env : Nat → Environment) (rewards : PartitionedStakeRewards)
    (places : List (Nat × Nat)) (bank₀ bank : Bank) (log : List Update) : Prop where
  logOf : LogOf env rewards places log
  stored : bank.storedAccounts = bank₀.storedAccounts ++ updated log
  history : bank.rewards = bank₀.rewards ++ (updated log).filter (fun x => 0 < x.lamports)
  capitalization : bank.capitalization % 2 ^ 64 = (bank₀.capitalization + credited log) % 2 ^ 64
  distributed : bank.epochRewards.distributedRewards =
    bank₀.epochRewards.distributedRewards + credited log + burned log
  total : bank.epochRewards.totalRewards = bank₀.epochRewards.totalRewards

section

variable {bank₀ bank : Bank} {start count : Nat}

/-- Some of the partitions hold no more than all of them. -/
theorem Split.log_le (h : Split rewards partitions bank₀.epochRewards)
    (hlog : LogOf env rewards (placesUpTo start partitions count) log) :
    bank₀.epochRewards.distributedRewards + credited log + burned log ≤
      bank₀.epochRewards.totalRewards := by
  have hsum : credited log + burned log ≤ totalStakeRewards rewards := by
    rw [credited_add_burned, sum_logOf hlog, totalStakeRewards_eq,
      ← (h.perm.map (stakeRewardAt rewards)).sum_eq, ← Function.comp_def, ← map_map, placesUpTo,
      map_snd_placesOf]
    apply List.Sublist.sum_le_sum
    · exact (List.Sublist.flatten (take_sublist _ _)).map _
    · exact fun _ _ => Nat.zero_le _
  have hcovered := h.covered
  omega

variable (hsplit : Split rewards partitions bank₀.epochRewards)
  (h : Progress env rewards (placesUpTo start partitions count) bank₀ bank log)
  (hactive : bank.epochRewards.active = true) (hcount : count < partitions.length)
include hsplit h hactive hcount

theorem Progress.next :
    Returns (StoppedAt env rewards (placesUpTo start partitions (count + 1)))
      (fun bank' => (∃ log', Progress env rewards (placesUpTo start partitions (count + 1)) bank₀
          bank' log') ∧ bank'.blockHeight = bank.blockHeight ∧
        bank'.epochRewardStatus = bank.epochRewardStatus ∧ bank'.epochRewards.active = true)
      (bank.distributeEpochRewardsInPartition (env (start + count)) rewards partitions count) := by
  have hmem : ∀ index ∈ partitions[count], index ∈ rewardIndices rewards := fun index hindex =>
    hsplit.perm.mem_iff.mp (mem_flatten.mpr ⟨_, getElem_mem hcount, hindex⟩)
  unfold Bank.distributeEpochRewardsInPartition Bank.storeStakeAccountsInPartition
  rw [getElem?_eq_getElem hcount]
  simp only [bind_assoc, pure_bind]
  refine ((processEntries_returns (start + count) partitions[count] hmem).weaken fun panic h =>
    h.mono (by rw [placesUpTo_succ hcount]; exact subset_append_right _ _)).bind ?_
  rintro results ⟨log', hlog', hminted, hburned, hupdated⟩
  have hlog : LogOf env rewards (placesUpTo start partitions (count + 1)) (log ++ log') := by
    rw [placesUpTo_succ hcount]
    exact rel_append h.logOf hlog'
  have hle := hsplit.log_le hlog
  rw [credited_append, burned_append] at hle
  have hfits := hsplit.fits
  unfold u64Max at hfits
  rw [Nat.mod_eq_of_lt (by omega)] at hminted hburned
  have hsum : addU64 results.stakeRewardLamportsMinted results.stakeRewardLamportsBurned =
      credited log' + burned log' := by
    rw [hminted, hburned, addU64, Nat.mod_eq_of_lt (by omega)]
  have hdistributed := h.distributed
  have htotal := h.total
  unfold Bank.updateEpochRewardsSysvar
  rw [hsum]
  dsimp only
  rw [if_neg (by rw [hactive]; exact Bool.noConfusion), min_eq_left (by
    unfold u64Max
    omega), if_neg (by omega)]
  refine ⟨⟨log ++ log', hlog, ?_, ?_, ?_, ?_, htotal⟩, rfl, rfl, hactive⟩
  · show bank.storedAccounts ++ results.updatedStakeRewards = _
    rw [h.stored, hupdated, updated_append, append_assoc]
  · show bank.rewards ++ results.updatedStakeRewards.filter _ = _
    rw [h.history, hupdated, updated_append, filter_append, append_assoc]
  · show addU64 bank.capitalization results.stakeRewardLamportsMinted % 2 ^ 64 = _
    rw [credited_append, hminted, addU64, Nat.mod_mod, ← Nat.add_assoc, Nat.add_mod,
      h.capitalization, ← Nat.add_mod]
  · show bank.epochRewards.distributedRewards + _ = _
    rw [credited_append, burned_append]
    omega

/-- The bank after a number of partitions. -/
structure Distributed (env : Nat → Environment) (start : Nat) (rewards : PartitionedStakeRewards)
    (partitions : List (List Nat)) (bank₀ : Bank) (count : Nat) (bank : Bank) : Prop where
  progress : ∃ log, Progress env rewards (placesUpTo start partitions count) bank₀ bank log
  ongoing : count < partitions.length →
    bank.epochRewardStatus = .distribution start rewards partitions ∧
      bank.epochRewards.active = true
  ended : partitions.length ≤ count → bank.epochRewardStatus = .inactive

/-- The block of a partition. -/
theorem distributePartition_returns
    (hstatus : bank.epochRewardStatus = .distribution start rewards partitions)
    (hheight : bank.blockHeight = start + count)
    (hslots : partitions.length < (env bank.blockHeight).slotsInEpoch) :
    Returns (StoppedAt env rewards (placesUpTo start partitions (count + 1)))
      (fun bank' => Distributed env start rewards partitions bank₀ (count + 1) bank' ∧
        bank'.blockHeight = bank.blockHeight)
      (bank.distributePartition (env bank.blockHeight) start rewards partitions) := by
  have hindex : bank.blockHeight - start = count := by omega
  unfold Bank.distributePartition
  dsimp only
  rw [if_neg (by omega), if_pos ⟨by omega, by omega⟩, hindex, hheight]
  refine (h.next hsplit hactive hcount).bind ?_
  rintro bank₁ ⟨⟨log', hprogress⟩, hheight₁, hstatus₁, hactive₁⟩
  by_cases hlast : start + partitions.length ≤ bank₁.blockHeight + 1
  · -- the last partition: the sysvar is set to inactive
    have hle := hsplit.log_le hprogress.logOf
    rw [if_pos hlast, Bank.setEpochRewardsSysvarToInactive, if_neg (by
      show ¬ bank₁.epochRewards.totalRewards < bank₁.epochRewards.distributedRewards
      rw [hprogress.distributed, hprogress.total]
      omega)]
    exact ⟨⟨⟨log', { hprogress with }⟩, fun hmore => by omega, fun _ => rfl⟩,
      hheight₁.trans hheight⟩
  · rw [if_neg hlast]
    exact ⟨⟨⟨log', hprogress⟩, fun _ => ⟨hstatus₁.trans hstatus, hactive₁⟩, fun hend => by omega⟩,
      hheight₁.trans hheight⟩

end

/-! ## A chain of blocks -/

section

variable {hasher : Hasher} {bank₀ bank : Bank} {start : Nat}

/-- The bank at a height: it waits until the interval begins, and has then distributed a partition
    in each block. -/
def Follows (env : Nat → Environment) (start : Nat) (rewards : PartitionedStakeRewards)
    (partitions : List (List Nat)) (bank₀ bank : Bank) : Prop :=
  (bank.blockHeight < start → bank = { bank₀ with blockHeight := bank.blockHeight }) ∧
    (start ≤ bank.blockHeight →
      Distributed env start rewards partitions bank₀ (bank.blockHeight + 1 - start) bank)

theorem progress_zero (h : bank = { bank₀ with
      blockHeight := bank.blockHeight
      epochRewardStatus := bank.epochRewardStatus }) :
    Progress env rewards (placesUpTo start partitions 0) bank₀ bank [] := by
  rw [h]
  exact ⟨.nil, (append_nil _).symm, (append_nil _).symm, rfl, rfl, rfl⟩

section

variable (hsplit : Split rewards partitions bank₀.epochRewards)
  (hstatus : bank₀.epochRewardStatus = .calculation start rewards)
  (hhash : hashRewardsIntoPartitions hasher rewards bank₀.epochRewards.parentBlockhash
    bank₀.epochRewards.numPartitions = .ok partitions)
  (hpos : 0 < partitions.length)
  (hslots : ∀ height, partitions.length < (env height).slotsInEpoch)
include hsplit hstatus hhash hpos hslots

/-- One more block. -/
theorem Follows.next (h : Follows env start rewards partitions bank₀ bank) :
    Returns (StoppedAt env rewards (placesUpTo start partitions (bank.blockHeight + 2 - start)))
      (fun bank' => Follows env start rewards partitions bank₀ bank' ∧
        bank'.blockHeight = bank.blockHeight + 1) (bank.nextBlock hasher env) := by
  obtain ⟨hwaiting, hdistributed⟩ := h
  unfold Bank.nextBlock
  set next : Bank := { bank with blockHeight := bank.blockHeight + 1 } with hnext
  have hheight : next.blockHeight = bank.blockHeight + 1 := rfl
  by_cases hbefore : bank.blockHeight < start
  · have hsame : next = { bank₀ with blockHeight := bank.blockHeight + 1 } := by
      rw [hnext, hwaiting hbefore]
    have hcalc : next.epochRewardStatus = .calculation start rewards := by
      rw [hsame]
      exact hstatus
    by_cases hstill : next.blockHeight < start
    · -- the interval has not begun
      rw [Bank.distributePartitionedEpochRewards, hcalc]
      dsimp only
      rw [if_pos hstill]
      exact ⟨⟨fun _ => hsame, fun hle => absurd hstill (by omega)⟩, hheight⟩
    · -- the first block of the interval splits the rewards
      have hhash' : hashRewardsIntoPartitions hasher rewards next.epochRewards.parentBlockhash
          next.epochRewards.numPartitions = .ok partitions := by
        rw [hsame]
        exact hhash
      rw [Bank.distributePartitionedEpochRewards, hcalc]
      dsimp only
      rw [if_neg hstill, hhash', ok_bind]
      have hzero : Progress env rewards (placesUpTo start partitions 0) bank₀
          { next with epochRewardStatus := .distribution start rewards partitions } [] := by
        apply progress_zero
        rw [hsame]
      rw [show bank.blockHeight + 2 - start = 0 + 1 by omega]
      refine (distributePartition_returns hsplit hzero (by rw [hsame]; exact hsplit.active) hpos
        rfl (show next.blockHeight = start + 0 by omega) (hslots _)).mono ?_
      rintro bank' ⟨hdist, hkept⟩
      change bank'.blockHeight = next.blockHeight at hkept
      refine ⟨⟨fun hlt => by omega, fun _ => ?_⟩, hkept⟩
      rwa [show bank'.blockHeight + 1 - start = 0 + 1 by omega]
  · have hdist := hdistributed (not_lt.mp hbefore)
    obtain ⟨log, hprogress⟩ := hdist.progress
    have hprogress : Progress env rewards
        (placesUpTo start partitions (bank.blockHeight + 1 - start)) bank₀ next log :=
      { hprogress with }
    by_cases hmore : bank.blockHeight + 1 - start < partitions.length
    · -- the next partition
      obtain ⟨hstat, hactive⟩ := hdist.ongoing hmore
      have hstat' : next.epochRewardStatus = .distribution start rewards partitions := hstat
      rw [Bank.distributePartitionedEpochRewards, hstat']
      dsimp only
      rw [if_neg (by omega),
        show bank.blockHeight + 2 - start = bank.blockHeight + 1 - start + 1 by omega]
      refine (distributePartition_returns hsplit hprogress hactive hmore hstat' (by omega)
        (hslots _)).mono ?_
      rintro bank' ⟨hdist', hkept⟩
      refine ⟨⟨fun hlt => by omega, fun _ => ?_⟩, hkept⟩
      rwa [show bank'.blockHeight + 1 - start = bank.blockHeight + 1 - start + 1 by omega]
    · -- all is distributed
      have hinactive : next.epochRewardStatus = .inactive := hdist.ended (not_lt.mp hmore)
      rw [Bank.distributePartitionedEpochRewards, hinactive]
      refine ⟨⟨fun hlt => by omega, fun _ => ⟨⟨log, ?_⟩, fun hlt => by omega, fun _ => hinactive⟩⟩,
        hheight⟩
      rw [placesUpTo, take_of_length_le (by omega)] at hprogress ⊢
      exact hprogress

theorem after_follows (hstart : bank₀.blockHeight < start) (k : Nat) :
    Returns (StoppedAt env rewards
        (placesUpTo start partitions (bank₀.blockHeight + k + 1 - start)))
      (fun bank => Follows env start rewards partitions bank₀ bank ∧
        bank.blockHeight = bank₀.blockHeight + k) (bank₀.after hasher env k) := by
  induction k with
  | zero => exact ⟨⟨fun _ => rfl, fun hle => absurd hstart (not_lt.mpr hle)⟩, rfl⟩
  | succ k ih =>
    refine (ih.weaken fun panic h => h.mono ?_).bind ?_
    · rcases Nat.lt_or_ge (bank₀.blockHeight + k + 1) start with hlt | hge
      · rw [show bank₀.blockHeight + k + 1 - start = 0 by omega]
        exact nil_subset _
      · rw [show bank₀.blockHeight + (k + 1) + 1 - start = bank₀.blockHeight + k + 1 - start + 1 by
          omega]
        exact placesUpTo_mono start partitions _
    · rintro bank ⟨hfollows, hheight⟩
      have hnext := hfollows.next hsplit hstatus hhash hpos hslots
      rw [hheight] at hnext
      exact hnext

/-- The sysvar never promises less than it has distributed. -/
theorem after_covered (hstart : bank₀.blockHeight < start) (k : Nat) :
    Returns (StoppedAt env rewards
        (placesUpTo start partitions (bank₀.blockHeight + k + 1 - start)))
      (fun bank => bank.epochRewards.distributedRewards ≤ bank.epochRewards.totalRewards)
      (bank₀.after hasher env k) := by
  refine (after_follows hsplit hstatus hhash hpos hslots hstart k).mono ?_
  rintro bank ⟨⟨hwaiting, hdistributed⟩, -⟩
  by_cases hbefore : bank.blockHeight < start
  · rw [hwaiting hbefore]
    exact le_of_add_le_left hsplit.covered
  · obtain ⟨log, hprogress⟩ := (hdistributed (not_lt.mp hbefore)).progress
    rw [hprogress.distributed, hprogress.total]
    exact hsplit.log_le hprogress.logOf

end

end

end Agave.Runtime.Rewards
