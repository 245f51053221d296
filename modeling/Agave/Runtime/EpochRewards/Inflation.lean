/-
  Agave.Runtime.EpochRewards.Inflation

  The rewards of an epoch, from the stakes to the asserts of the bank.

  Each delegation is redeemed for a reward of the staker and a commission.  The commissions are
  summed per collector, in any order and by several threads, and paid, incinerated or burned, as the
  collector turns out.  Nothing on this way makes lamports: every step keeps, or loses, what the
  shares of the pot came to.
-/

import Agave.Runtime.EpochRewards.Distribution
import Agave.Lib.BTreeMap
import Mathlib.Data.List.ReduceOption

namespace Agave.Runtime.Rewards

open Lib List

/-- A stake account, with the balance its data needs. -/
structure StakeAccount where
  pubkey : Pubkey
  stake : Stake
  lamports : Nat
  minimumBalance : Nat

/-- A vote account. -/
structure VoteAccount where
  voteState : DelegatedVoteState
  inflationRewardsCollector : Option Pubkey

/-- What the calculation finds: the vote accounts, the commission of each (of
    whichever epoch it is taken), and the features. -/
structure RewardEnvironment where
  calculation : CalculationEnvironment
  agEpochType : AlpenglowEpochType
  voteAccounts : Pubkey → Option VoteAccount
  commissionBps : Pubkey → Nat
  adjustDelegationsForRent : Bool
  customCommissionCollector : Bool

structure RewardCommission where
  commissionBps : Option Nat
  commissionLamports : Nat
  burnedLamports : Nat
  isVoteAccount : Bool

/-- The outcome of one delegation: the reward of the stake account, and the
    commission with its collector. -/
structure RewardRecord where
  stakeReward : PartitionedStakeReward
  commissionPubkey : Pubkey
  rewardCommission : RewardCommission

/-! ## Redeeming a delegation -/

def adjustDelegationForRent (delegation : Delegation)
    (rewardedEpoch newDelegationWithRewards lamportsWithRewards minimumLamports : Nat) :
    Bool × Delegation :=
  let newDelegation := min newDelegationWithRewards (lamportsWithRewards - minimumLamports)
  if newDelegation ≠ delegation.stake then
    (true, { delegation with
      stake := newDelegation
      deactivationEpoch := if newDelegation = 0 then rewardedEpoch
        else delegation.deactivationEpoch })
  else (false, delegation)

variable (env : RewardEnvironment) (account : StakeAccount)

/-- `redeem_stake_rewards`: what the staker and the voter get, and the stake. -/
def redeemStakeRewards (voterCommissionBps : Nat) (voteState : DelegatedVoteState) : Except
    PointsPanic (Option (Nat × Nat) × Stake) := do
  let maybeRewards ← calculateStakeRewards env.calculation account.stake voterCommissionBps
    voteState env.agEpochType
  let stake := { account.stake with
    creditsObserved := (maybeRewards.map CalculatedStakeRewards.newCreditsObserved).getD
      account.stake.creditsObserved }
  let stakerRewards := (maybeRewards.map CalculatedStakeRewards.stakerRewards).getD 0
  let voterRewards := (maybeRewards.map CalculatedStakeRewards.voterRewards).getD 0
  if env.adjustDelegationsForRent then
    let (stakeWasAdjusted, delegation) := adjustDelegationForRent stake.delegation
      env.calculation.rewardedEpoch (saturatingAdd stake.delegation.stake stakerRewards)
      (saturatingAdd account.lamports stakerRewards) account.minimumBalance
    let redeemed :=
      if stakeWasAdjusted = true ∨ maybeRewards.isSome = true then
        some (stakerRewards, voterRewards)
      else none
    return (redeemed, { stake with delegation := delegation })
  else
    return (maybeRewards.map (fun _ => (stakerRewards, voterRewards)),
      { stake with
        delegation := { stake.delegation with
          stake := addU64 stake.delegation.stake stakerRewards } })

/-- The commission rate that an entry shows. -/
def shownBps (commissionBps : Nat) : Option Nat :=
  if env.customCommissionCollector then none else some commissionBps

/-- `redeem_delegation_rewards`, and the entry it makes. -/
def redeemDelegationRewards : Except PointsPanic (Option RewardRecord) :=
  let votePubkey := account.stake.delegation.voterPubkey
  match env.voteAccounts votePubkey with
  | none =>
    let (stakeWasAdjusted, delegation) := adjustDelegationForRent account.stake.delegation
      env.calculation.rewardedEpoch account.stake.delegation.stake account.lamports
      account.minimumBalance
    if env.adjustDelegationsForRent = true ∧ stakeWasAdjusted = true then
      .ok (some
        { stakeReward :=
            { stake := { account.stake with delegation := delegation }
              stakeReward := 0
              commissionBps := shownBps env 0
              stakePubkey := account.pubkey }
          commissionPubkey := votePubkey
          rewardCommission := ⟨shownBps env 0, 0, 0, false⟩ })
    else .ok none
  | some voteAccount => do
    let commissionBps := env.commissionBps votePubkey
    let (redeemed, stake) ← redeemStakeRewards env account commissionBps voteAccount.voteState
    let some (stakeReward, commissionLamports) := redeemed | return none
    let commissionPubkey :=
      if env.customCommissionCollector then
        voteAccount.inflationRewardsCollector.getD votePubkey
      else votePubkey
    return some
      { stakeReward :=
          { stake, stakeReward
            commissionBps := shownBps env commissionBps
            stakePubkey := account.pubkey }
        commissionPubkey := commissionPubkey
        rewardCommission :=
          ⟨shownBps env commissionBps, commissionLamports, 0,
            decide (commissionPubkey = votePubkey)⟩ }

/-- The points of a delegation, as they are counted for the pot. -/
def delegationPoints : Nat :=
  match env.voteAccounts account.stake.delegation.voterPubkey with
  | none => 0
  | some voteAccount =>
    calculateStakePointsForTower env.calculation.effectiveStake account.stake
      voteAccount.voteState

/-- What `calculate_stake_rewards` pays for a delegation, if it is called. -/
def delegationPaid : Nat :=
  match env.voteAccounts account.stake.delegation.voterPubkey with
  | none => 0
  | some voteAccount =>
    match calculateStakeRewards env.calculation account.stake
        (env.commissionBps account.stake.delegation.voterPubkey) voteAccount.voteState
        env.agEpochType with
    | .ok (some rewards) => rewards.paid
    | _ => 0

/-! ## Accumulating -/

def accumulateLamports (src dst : RewardCommission) : RewardCommission :=
  match src.isVoteAccount, dst.isVoteAccount with
  | false, true =>
    { dst with
      burnedLamports := saturatingAdd (saturatingAdd dst.burnedLamports src.commissionLamports)
        src.burnedLamports }
  | true, false =>
    { dst with
      isVoteAccount := true
      burnedLamports := saturatingAdd (saturatingAdd dst.burnedLamports dst.commissionLamports)
        src.burnedLamports
      commissionLamports := src.commissionLamports }
  | true, true | false, false =>
    { dst with
      commissionLamports := saturatingAdd dst.commissionLamports src.commissionLamports
      burnedLamports := saturatingAdd dst.burnedLamports src.burnedLamports }

abbrev RewardCommissions := BTreeMap Pubkey RewardCommission

variable (commissions : RewardCommissions)

/-- `entry(..).and_modify(accumulate_lamports).or_insert(..)`. -/
def addCommission (commissionPubkey : Pubkey)
    (rewardCommission : RewardCommission) : RewardCommissions :=
  match commissions.get? commissionPubkey with
  | none => (commissions.insert commissionPubkey rewardCommission).2
  | some dst =>
    (commissions.insert commissionPubkey (accumulateLamports rewardCommission dst)).2

structure RewardsAccumulator where
  rewardCommissions : RewardCommissions
  numStakeRewards : Nat
  totalStakeRewardsLamports : Nat

namespace RewardsAccumulator

/-- `RewardsAccumulator::default`. -/
def default : RewardsAccumulator := ⟨.empty, 0, 0⟩

def addReward (self : RewardsAccumulator) (record : RewardRecord) : RewardsAccumulator where
  rewardCommissions :=
    addCommission self.rewardCommissions record.commissionPubkey record.rewardCommission
  numStakeRewards := saturatingAdd self.numStakeRewards 1
  totalStakeRewardsLamports :=
    saturatingAdd self.totalStakeRewardsLamports record.stakeReward.stakeReward

/-- Merging one accumulator into another. -/
def merge (dst src : RewardsAccumulator) : RewardsAccumulator where
  rewardCommissions := src.rewardCommissions.entries.foldl
    (fun commissions entry => addCommission commissions entry.1 entry.2) dst.rewardCommissions
  numStakeRewards := saturatingAdd dst.numStakeRewards src.numStakeRewards
  totalStakeRewardsLamports :=
    saturatingAdd dst.totalStakeRewardsLamports src.totalStakeRewardsLamports

def accumulateIntoLarger (self rhs : RewardsAccumulator) : RewardsAccumulator :=
  if rhs.rewardCommissions.entries.length ≤ self.rewardCommissions.entries.length then
    self.merge rhs
  else rhs.merge self

end RewardsAccumulator

/-- How the threads share the work: each folds some of the records, and the
    results are merged two by two. -/
inductive Accumulation where
  | fold (records : List RewardRecord)
  | reduce (a b : Accumulation)

namespace Accumulation

/-- The records of all threads. -/
def records : Accumulation → List RewardRecord
  | fold records => records
  | reduce a b => a.records ++ b.records

/-- What is accumulated. -/
def result : Accumulation → RewardsAccumulator
  | fold records => records.foldl RewardsAccumulator.addReward .default
  | reduce a b => a.result.accumulateIntoLarger b.result

end Accumulation

/-! ## Paying commissions -/

/-- How a collector turns out when its commission is paid. -/
inductive CollectorOutcome where
  /-- There is no such account. -/
  | missing
  /-- The balance would overflow. -/
  | addFailed
  /-- A vote account, or a system account that may collect. -/
  | collected
  | incinerated
  /-- The account may not collect. -/
  | rejected

structure RewardCommissionLamportAmounts where
  distributedLamports : Nat
  distributedToIncineratorLamports : Nat
  burnedLamports : Nat

/-- What stops the payment of commissions. -/
inductive CommissionPanic where
  /-- "incinerator lamports must be a subset of all distributed lamports". -/
  | incineratorNotSubset
  /-- The assert that no more was paid than expected. -/
  | paidTooMuch
  /-- The assert on the rewards of the sysvar. -/
  | distributedExceedsRewards
deriving DecidableEq

variable (outcome : Pubkey → RewardCommission → CollectorOutcome)

/-- What a collector adds to the rewarded accounts, the incinerator, and the burned lamports. -/
def CollectorOutcome.amounts (commission : RewardCommission) : CollectorOutcome → Nat × Nat × Nat
  | missing => (0, 0, 0)
  | addFailed => (0, 0, commission.burnedLamports + commission.commissionLamports)
  | collected => (commission.commissionLamports, 0, commission.burnedLamports)
  | incinerated =>
    (commission.commissionLamports, commission.commissionLamports, commission.burnedLamports)
  | rejected => (0, 0, commission.burnedLamports + commission.commissionLamports)

/-- The sum of some part of the amounts, in a `u64`. -/
def sumAmounts (part : Nat × Nat × Nat → Nat) : Nat :=
  (commissions.entries.map (fun entry =>
    part ((outcome entry.1 entry.2).amounts entry.2))).sum % 2 ^ 64

def loadAndRewardCommissionAccounts :
    Except CommissionPanic RewardCommissionLamportAmounts :=
  let incinerated := sumAmounts commissions outcome (fun amounts => amounts.2.1)
  let rewarded := sumAmounts commissions outcome (fun amounts => amounts.1)
  if rewarded < incinerated then .error .incineratorNotSubset
  else .ok ⟨rewarded - incinerated, incinerated,
    sumAmounts commissions outcome (fun amounts => amounts.2.2)⟩

/-- `distribute_reward_commissions`, as far as the amounts go. -/
def distributeRewardCommissions (pointValue : PointValue) (accumulator : RewardsAccumulator)
    (outcome : Pubkey → RewardCommission → CollectorOutcome) :
    Except CommissionPanic RewardCommissionLamportAmounts := do
  let amounts ← loadAndRewardCommissionAccounts accumulator.rewardCommissions outcome
  if pointValue.rewards <
      addU64 (addU64 (addU64 amounts.distributedLamports amounts.distributedToIncineratorLamports)
        amounts.burnedLamports) accumulator.totalStakeRewardsLamports then
    .error .paidTooMuch
  else return amounts

def createEpochRewardsSysvar (distributedRewards numPartitions : Nat) (parentBlockhash : Hash)
    (pointValue : PointValue) : Except CommissionPanic EpochRewards :=
  if pointValue.rewards < distributedRewards then .error .distributedExceedsRewards
  else .ok
    { numPartitions := numPartitions
      parentBlockhash := parentBlockhash
      totalRewards := pointValue.rewards
      distributedRewards := distributedRewards
      active := true }

/-- The part of `begin_partitioned_rewards` that makes the sysvar. -/
def beginPartitionedRewards (pointValue : PointValue) (accumulator : RewardsAccumulator)
    (outcome : Pubkey → RewardCommission → CollectorOutcome) (numPartitions : Nat)
    (parentBlockhash : Hash) : Except CommissionPanic EpochRewards := do
  let amounts ← distributeRewardCommissions pointValue accumulator outcome
  createEpochRewardsSysvar
    (addU64 (addU64 amounts.distributedLamports amounts.distributedToIncineratorLamports)
      amounts.burnedLamports) numPartitions parentBlockhash pointValue

/-! ## Nothing is made -/

theorem saturatingAdd_le (a b : Nat) : saturatingAdd a b ≤ a + b := min_le_left _ _

/-- The lamports of a commission. -/
def RewardCommission.lamports (commission : RewardCommission) : Nat :=
  commission.commissionLamports + commission.burnedLamports

/-- The lamports of all commissions. -/
def RewardCommissions.lamports : Nat :=
  (commissions.values.map RewardCommission.lamports).sum

theorem accumulateLamports_le (src dst : RewardCommission) :
    (accumulateLamports src dst).lamports ≤ dst.lamports + src.lamports := by
  unfold accumulateLamports RewardCommission.lamports
  rcases hsrc : src.isVoteAccount with _ | _ <;> rcases hdst : dst.isVoteAccount with _ | _ <;>
    simp only [saturatingAdd] <;> omega

theorem addCommission_le (pubkey : Pubkey) (commission : RewardCommission) :
    RewardCommissions.lamports (addCommission commissions pubkey commission) ≤
      RewardCommissions.lamports commissions + commission.lamports := by
  unfold addCommission RewardCommissions.lamports
  cases hget : commissions.get? pubkey with
  | none =>
    dsimp only
    rw [((BTreeMap.insert_values_perm commission (BTreeMap.get?_eq_none_iff.mp hget)).map
      _).sum_eq, map_cons, sum_cons]
    omega
  | some dst =>
    have hle := accumulateLamports_le commission dst
    dsimp only
    rw [((BTreeMap.insert_values_perm_remove commissions pubkey _).map _).sum_eq,
      ((BTreeMap.perm_values_remove (BTreeMap.get?_eq_some_iff.mp hget)).map _).sum_eq,
      map_cons, map_cons, sum_cons, sum_cons]
    omega

theorem addCommissions_le (entries : List (Pubkey × RewardCommission))
    (commissions : RewardCommissions) :
    RewardCommissions.lamports (entries.foldl
        (fun commissions entry => addCommission commissions entry.1 entry.2) commissions) ≤
      RewardCommissions.lamports commissions +
        (entries.map (fun entry => entry.2.lamports)).sum := by
  induction entries generalizing commissions with
  | nil => exact le_rfl
  | cons entry entries ih =>
    have hadd := addCommission_le commissions entry.1 entry.2
    have hrest := ih (addCommission commissions entry.1 entry.2)
    rw [foldl_cons, map_cons, sum_cons]
    omega

/-- What an accumulator has is at most what was put in. -/
structure AtMost (accumulator : RewardsAccumulator) (c r : Nat) : Prop where
  commissions : RewardCommissions.lamports accumulator.rewardCommissions ≤ c
  stakeRewards : accumulator.totalStakeRewardsLamports ≤ r

theorem merge_atMost {dst src : RewardsAccumulator} {c c' r r' : Nat} (h : AtMost dst c r)
    (h' : AtMost src c' r') : AtMost (dst.merge src) (c + c') (r + r') where
  commissions := by
    have hle := addCommissions_le src.rewardCommissions.entries dst.rewardCommissions
    have hsrc := h'.commissions
    unfold RewardCommissions.lamports BTreeMap.values at hsrc
    rw [map_map] at hsrc
    exact hle.trans (Nat.add_le_add h.commissions hsrc)
  stakeRewards :=
    (saturatingAdd_le _ _).trans (Nat.add_le_add h.stakeRewards h'.stakeRewards)

/-- The commissions of some records. -/
def recordCommissions (records : List RewardRecord) : Nat :=
  (records.map (fun record => record.rewardCommission.lamports)).sum

/-- The rewards of the stakers of some records. -/
def recordStakeRewards (records : List RewardRecord) : Nat :=
  (records.map (fun record => record.stakeReward.stakeReward)).sum

theorem recordCommissions_append (l l' : List RewardRecord) :
    recordCommissions (l ++ l') = recordCommissions l + recordCommissions l' := by
  rw [recordCommissions, map_append, sum_append]
  rfl

theorem recordStakeRewards_append (l l' : List RewardRecord) :
    recordStakeRewards (l ++ l') = recordStakeRewards l + recordStakeRewards l' := by
  rw [recordStakeRewards, map_append, sum_append]
  rfl

theorem addRewards_atMost (records : List RewardRecord) {self : RewardsAccumulator} {c r : Nat}
    (h : AtMost self c r) :
    AtMost (records.foldl RewardsAccumulator.addReward self) (c + recordCommissions records)
      (r + recordStakeRewards records) := by
  induction records generalizing self c r with
  | nil => exact h
  | cons record records ih =>
    have hstep : AtMost (self.addReward record) (c + record.rewardCommission.lamports)
        (r + record.stakeReward.stakeReward) :=
      ⟨(addCommission_le _ _ _).trans (Nat.add_le_add_right h.commissions _),
        (saturatingAdd_le _ _).trans (Nat.add_le_add_right h.stakeRewards _)⟩
    have hrest := ih hstep
    rw [Nat.add_assoc, Nat.add_assoc] at hrest
    exact hrest

/-- However the threads share the work. -/
theorem accumulation_atMost (accumulation : Accumulation) :
    AtMost accumulation.result (recordCommissions accumulation.records)
      (recordStakeRewards accumulation.records) := by
  induction accumulation with
  | fold records =>
    have hzero : AtMost .default 0 0 := ⟨le_rfl, le_rfl⟩
    have hall := addRewards_atMost records hzero
    rwa [Nat.zero_add, Nat.zero_add] at hall
  | reduce a b iha ihb =>
    rw [Accumulation.result, Accumulation.records, recordCommissions_append,
      recordStakeRewards_append]
    unfold RewardsAccumulator.accumulateIntoLarger
    split_ifs
    · exact merge_atMost iha ihb
    · rw [Nat.add_comm (recordCommissions _), Nat.add_comm (recordStakeRewards _)]
      exact merge_atMost ihb iha

/-! ## Commissions -/

theorem amounts_le (outcome : CollectorOutcome) (commission : RewardCommission) :
    (outcome.amounts commission).2.1 ≤ (outcome.amounts commission).1 ∧
      (outcome.amounts commission).1 + (outcome.amounts commission).2.2 ≤ commission.lamports := by
  unfold RewardCommission.lamports
  cases outcome <;> simp only [CollectorOutcome.amounts] <;> omega

/-- The commissions are paid, and come to no more than they were. -/
theorem loadAndReward_returns {commissions : RewardCommissions}
    (hfits : RewardCommissions.lamports commissions < 2 ^ 64)
    (outcome : Pubkey → RewardCommission → CollectorOutcome) :
    ∃ amounts, loadAndRewardCommissionAccounts commissions outcome = .ok amounts ∧
      amounts.distributedLamports + amounts.distributedToIncineratorLamports +
        amounts.burnedLamports ≤ RewardCommissions.lamports commissions := by
  set amountsOf := fun entry : Pubkey × RewardCommission =>
    (outcome entry.1 entry.2).amounts entry.2
  have hsub : (commissions.entries.map (fun entry => (amountsOf entry).2.1)).sum ≤
      (commissions.entries.map (fun entry => (amountsOf entry).1)).sum :=
    sum_le_sum (fun entry _ => (amounts_le _ _).1)
  have hall : (commissions.entries.map (fun entry => (amountsOf entry).1)).sum +
      (commissions.entries.map (fun entry => (amountsOf entry).2.2)).sum ≤
        RewardCommissions.lamports commissions := by
    rw [RewardCommissions.lamports, BTreeMap.values, map_map, ← sum_map_add]
    exact sum_le_sum (fun entry _ => (amounts_le _ _).2)
  have hmod : ∀ part : Nat × Nat × Nat → Nat,
      (commissions.entries.map (fun entry => part (amountsOf entry))).sum < 2 ^ 64 →
      sumAmounts commissions outcome part =
        (commissions.entries.map (fun entry => part (amountsOf entry))).sum :=
    fun part hlt => Nat.mod_eq_of_lt hlt
  unfold loadAndRewardCommissionAccounts
  dsimp only
  rw [hmod (fun amounts => amounts.1) (by omega), hmod (fun amounts => amounts.2.1) (by omega),
    hmod (fun amounts => amounts.2.2) (by omega), if_neg (by omega)]
  refine ⟨_, rfl, ?_⟩
  dsimp only
  omega

/-- The asserts hold if the records stay within the pot. -/
theorem beginPartitionedRewards_returns {pointValue : PointValue} {accumulator : RewardsAccumulator}
    {c r : Nat} (h : AtMost accumulator c r) (hpot : c + r ≤ pointValue.rewards)
    (hrewards : pointValue.rewards ≤ u64Max)
    (outcome : Pubkey → RewardCommission → CollectorOutcome) (numPartitions : Nat)
    (parentBlockhash : Hash) :
    ∃ sysvar, beginPartitionedRewards pointValue accumulator outcome numPartitions
        parentBlockhash = .ok sysvar ∧
      sysvar.numPartitions = numPartitions ∧ sysvar.parentBlockhash = parentBlockhash ∧
      sysvar.totalRewards = pointValue.rewards ∧ sysvar.active = true ∧
      sysvar.distributedRewards ≤ c := by
  have hcommissions := h.commissions
  have hstake := h.stakeRewards
  unfold u64Max at hrewards
  have hfits : RewardCommissions.lamports accumulator.rewardCommissions < 2 ^ 64 := by omega
  obtain ⟨amounts, hload, hle⟩ := loadAndReward_returns hfits outcome
  have hsum : addU64 (addU64 amounts.distributedLamports amounts.distributedToIncineratorLamports)
      amounts.burnedLamports = amounts.distributedLamports +
        amounts.distributedToIncineratorLamports + amounts.burnedLamports := by
    unfold addU64
    omega
  unfold beginPartitionedRewards distributeRewardCommissions
  rw [hload, ok_bind, hsum, if_neg (by unfold addU64; omega)]
  simp only [pure_bind]
  rw [hsum, createEpochRewardsSysvar, if_neg (by omega)]
  exact ⟨_, rfl, rfl, rfl, rfl, rfl, hle.trans hcommissions⟩

/-! ## From the stakes to the asserts -/

section

variable {env : RewardEnvironment} {account : StakeAccount} (records : List (Option RewardRecord))

/-- What the staker and the voter get comes from the calculation. -/
theorem redeemStakeRewards_le {commissionBps bound : Nat} {voteState : DelegatedVoteState}
    {result : Option CalculatedStakeRewards}
    (hresult : calculateStakeRewards env.calculation account.stake commissionBps voteState
      env.agEpochType = .ok result)
    (hbound : ∀ rewards, result = some rewards → rewards.paid ≤ bound) :
    ∃ redeemed, redeemStakeRewards env account commissionBps voteState = .ok redeemed ∧
      ∀ amounts, redeemed.1 = some amounts → amounts.1 + amounts.2 ≤ bound := by
  have hle : (result.map CalculatedStakeRewards.stakerRewards).getD 0 +
      (result.map CalculatedStakeRewards.voterRewards).getD 0 ≤ bound := by
    cases result with
    | none => exact Nat.zero_le _
    | some rewards =>
      have hpaid := hbound rewards rfl
      rw [CalculatedStakeRewards.paid, Nat.add_comm] at hpaid
      exact hpaid
  unfold redeemStakeRewards
  rw [hresult, ok_bind]
  dsimp only
  by_cases hadjust : env.adjustDelegationsForRent = true
  · rw [if_pos hadjust]
    refine ⟨_, rfl, fun amounts hamounts => ?_⟩
    dsimp only at hamounts
    split_ifs at hamounts
    cases hamounts
    exact hle
  · rw [if_neg hadjust]
    refine ⟨_, rfl, fun amounts hamounts => ?_⟩
    obtain ⟨_, -, rfl⟩ := Option.map_eq_some_iff.mp hamounts
    exact hle

/-- The lamports of a record. -/
def RewardRecord.lamports (record : RewardRecord) : Nat :=
  record.rewardCommission.lamports + record.stakeReward.stakeReward

section

variable (htower : env.agEpochType = .tower)
  (hpoints : delegationPoints env account ≤ env.calculation.pointValue.points)
  (hrewards : env.calculation.pointValue.rewards ≤ u64Max)
  (hfits : delegationPoints env account * env.calculation.pointValue.rewards < 2 ^ 128)
include htower hpoints hrewards hfits

/-- In a Tower epoch the calculation pays a delegation at most its share. -/
theorem delegationPaid_tower :
    delegationPaid env account ≤
      share env.calculation.pointValue (delegationPoints env account) := by
  unfold delegationPaid
  unfold delegationPoints at *
  cases hvote : env.voteAccounts account.stake.delegation.voterPubkey with
  | none => exact Nat.zero_le _
  | some voteAccount =>
    rw [hvote] at hpoints hfits
    dsimp only at hpoints hfits ⊢
    obtain ⟨result, hresult, hbound⟩ := calculateStakeRewards_tower
      (env.commissionBps account.stake.delegation.voterPubkey) hpoints hrewards hfits
    rw [htower, hresult]
    cases result with
    | none => exact Nat.zero_le _
    | some rewards => exact hbound rewards rfl

/-- In a Tower epoch a delegation is redeemed, and for at most its share. -/
theorem redeemDelegationRewards_tower :
    ∃ result, redeemDelegationRewards env account = .ok result ∧
      (result.map RewardRecord.lamports).getD 0 ≤
        share env.calculation.pointValue (delegationPoints env account) := by
  unfold redeemDelegationRewards
  unfold delegationPoints at *
  dsimp only
  cases hvote : env.voteAccounts account.stake.delegation.voterPubkey with
  | none =>
    dsimp only
    split
    · refine ⟨_, rfl, ?_⟩
      exact Nat.zero_le _
    · refine ⟨_, rfl, ?_⟩
      exact Nat.zero_le _
  | some voteAccount =>
    rw [hvote] at hpoints hfits
    dsimp only at hpoints hfits ⊢
    obtain ⟨result, hresult, hbound⟩ := calculateStakeRewards_tower
      (env.commissionBps account.stake.delegation.voterPubkey) hpoints hrewards hfits
    rw [← htower] at hresult
    obtain ⟨redeemed, hredeemed, hamounts⟩ := redeemStakeRewards_le hresult hbound
    rw [hredeemed, ok_bind]
    cases hsome : redeemed.1 with
    | none =>
      refine ⟨_, rfl, ?_⟩
      exact Nat.zero_le _
    | some amounts =>
      refine ⟨_, rfl, ?_⟩
      have hle := hamounts amounts hsome
      show amounts.2 + 0 + amounts.1 ≤ _
      omega

end

/-- The rewards of the stakers, as the partitions are made from them. -/
def stakeRewardsOf (records : List (Option RewardRecord)) : PartitionedStakeRewards :=
  records.map (Option.map RewardRecord.stakeReward)

theorem enumerated_stakeRewards (rewards : PartitionedStakeRewards) (k : Nat) :
    ((rewards.zipIdx k).filterMap
        (fun entry => entry.1.map (fun reward => (entry.2, reward)))).map Prod.snd =
      rewards.reduceOption := by
  induction rewards generalizing k with
  | nil => rfl
  | cons reward rewards ih =>
    rw [zipIdx_cons, filterMap_cons]
    cases reward with
    | none => exact ih (k + 1)
    | some reward => exact congrArg (reward :: ·) (ih (k + 1))

theorem totalStakeRewards_stakeRewardsOf :
    totalStakeRewards (stakeRewardsOf records) = recordStakeRewards records.reduceOption := by
  have hsnd := enumerated_stakeRewards (stakeRewardsOf records) 0
  rw [totalStakeRewards, recordStakeRewards]
  rw [show (fun entry : Nat × PartitionedStakeReward => entry.2.stakeReward) =
    (fun reward => reward.stakeReward) ∘ Prod.snd from rfl, ← map_map]
  rw [show (enumeratedRewards (stakeRewardsOf records)).map Prod.snd = _ from hsnd, stakeRewardsOf,
    reduceOption_map, map_map]
  rfl

theorem sum_lamports_eq :
    (records.map (fun record => (record.map RewardRecord.lamports).getD 0)).sum =
      recordCommissions records.reduceOption + recordStakeRewards records.reduceOption := by
  induction records with
  | nil => rfl
  | cons record records ih =>
    rw [map_cons, sum_cons, ih]
    cases record with
    | none =>
      rw [reduceOption_cons_of_none]
      exact Nat.zero_add _
    | some record =>
      rw [reduceOption_cons_of_some, recordCommissions, recordStakeRewards,
        recordCommissions, recordStakeRewards, map_cons, map_cons, sum_cons,
        sum_cons]
      simp only [Option.map_some, Option.getD_some, RewardRecord.lamports]
      omega

end

/-- Inflation payouts never exceed the pot.  The stakes of a Tower epoch are paid at most what there
    is, for any commissions; however the threads add the rewards up and whatever becomes of the
    commissions, the asserts on the rewards hold when the sysvar is made; and they hold in every
    block of the distribution that follows, which only the update of an account can stop. -/
theorem inflation_payouts_within_pot (env : RewardEnvironment) (accounts : List StakeAccount)
    (htower : env.agEpochType = .tower) (hpos : 0 < env.calculation.pointValue.points)
    (hpoints : env.calculation.pointValue.points = (accounts.map (delegationPoints env)).sum)
    (hrewards : env.calculation.pointValue.rewards ≤ u64Max)
    (hfits : ∀ account ∈ accounts,
      delegationPoints env account * env.calculation.pointValue.rewards < 2 ^ 128) :
    (accounts.map (delegationPaid env)).sum ≤ env.calculation.pointValue.rewards ∧
    ∃ records, accounts.mapM (redeemDelegationRewards env) = .ok records ∧
      ∀ accumulation : Accumulation, accumulation.records.Perm records.reduceOption →
      ∀ outcome numPartitions parentBlockhash,
      ∃ sysvar, beginPartitionedRewards env.calculation.pointValue accumulation.result outcome
          numPartitions parentBlockhash = .ok sysvar ∧
        sysvar.distributedRewards + totalStakeRewards (stakeRewardsOf records) ≤
          sysvar.totalRewards ∧
        ∀ (hasher : Hasher) (blocks : Nat → Environment) (bank : Bank) (start : Nat),
          bank.epochRewards = sysvar →
          bank.epochRewardStatus = .calculation start (stakeRewardsOf records) →
          bank.blockHeight < start → 1 ≤ numPartitions →
          (∀ height, numPartitions < (blocks height).slotsInEpoch) →
          (∀ pubkey, hasher parentBlockhash numPartitions pubkey < numPartitions) →
          ∃ partitions : List (List Nat), ∀ k, Returns
            (StoppedAt blocks (stakeRewardsOf records)
              (placesUpTo start partitions (bank.blockHeight + k + 1 - start)))
            (fun bank' => bank'.epochRewards.distributedRewards ≤ bank'.epochRewards.totalRewards)
            (bank.after hasher blocks k) := by
  have hle : ∀ account ∈ accounts,
      delegationPoints env account ≤ env.calculation.pointValue.points := by
    intro account haccount
    rw [hpoints]
    exact single_le_sum (fun _ _ => Nat.zero_le _) _ (mem_map_of_mem haccount)
  have hpot : (accounts.map (fun account =>
      share env.calculation.pointValue (delegationPoints env account))).sum ≤
        env.calculation.pointValue.rewards := by
    have hshares := sum_share_le hpoints.ge hpos
    rwa [map_map] at hshares
  refine ⟨?_, ?_⟩
  · refine le_trans (sum_le_sum (fun account haccount => ?_)) hpot
    exact delegationPaid_tower htower (hle account haccount) hrewards (hfits account haccount)
  obtain ⟨records, hrecords, hall⟩ := mapM_eq_ok (fun account haccount =>
    redeemDelegationRewards_tower htower (hle account haccount) hrewards (hfits account haccount))
  have hlamports : recordCommissions records.reduceOption +
      recordStakeRewards records.reduceOption ≤ env.calculation.pointValue.rewards := by
    rw [← sum_lamports_eq]
    refine le_trans (List.Forall₂.sum_le_sum ?_) hpot
    rw [forall₂_map_left_iff, forall₂_map_right_iff]
    exact hall.flip
  refine ⟨records, hrecords, fun accumulation hperm outcome numPartitions parentBlockhash => ?_⟩
  have hatMost := accumulation_atMost accumulation
  rw [recordCommissions, recordStakeRewards, (hperm.map _).sum_eq, (hperm.map _).sum_eq] at hatMost
  obtain ⟨sysvar, hbegin, hnum, hhash, htotal, hactive, hdistributed⟩ :=
    beginPartitionedRewards_returns hatMost hlamports hrewards outcome numPartitions
      parentBlockhash
  have hcovered : sysvar.distributedRewards + totalStakeRewards (stakeRewardsOf records) ≤
      sysvar.totalRewards := by
    rw [totalStakeRewards_stakeRewardsOf, htotal]
    exact (Nat.add_le_add_right hdistributed _).trans hlamports
  refine ⟨sysvar, hbegin, hcovered, ?_⟩
  rintro hasher blocks bank start rfl hstatus hstart hone hslots hhasher
  rw [← hnum] at hone hslots hhasher
  rw [← hhash] at hhasher
  obtain ⟨partitions, hpartitions, hlength, hsplit⟩ :=
    hashRewardsIntoPartitions_returns hhasher (stakeRewardsOf records)
  rw [← hlength] at hone hslots
  exact ⟨partitions, after_covered ⟨hsplit, hcovered, htotal ▸ hrewards, hactive⟩ hstatus
    hpartitions hone hslots hstart⟩

/-- Two stakes with one vote account, and a third without: seven points share a pot of ten, of which
    eight are paid and two are lost in the rounding of the shares and of the commission. -/
theorem inflation_payouts_within_pot_shared :
    let voteAccount : VoteAccount := ⟨⟨1, [(0, 1, 0)]⟩, none⟩
    let env : RewardEnvironment :=
      ⟨⟨1, ⟨10, 7⟩, fun delegation _ => delegation.stake⟩, .tower,
        fun pubkey => if pubkey = Pubkey.ofNat 9 then some voteAccount else none,
        fun _ => 5000, false, false⟩
    let account := fun pubkey voter stake : Nat =>
      (⟨Pubkey.ofNat pubkey, ⟨⟨Pubkey.ofNat voter, stake, 0, u64Max⟩, 0⟩, stake, 0⟩ : StakeAccount)
    let accounts := [account 1 9 5, account 2 9 2, account 3 8 4]
    accounts.map (delegationPaid env) = [6, 2, 0] ∧ (accounts.map (delegationPaid env)).sum ≤ 10 ∧
      ∃ records, accounts.mapM (redeemDelegationRewards env) = .ok records ∧
        ∃ sysvar, beginPartitionedRewards env.calculation.pointValue
            (Accumulation.fold records.reduceOption).result (fun _ _ => .collected) 1
            (Hash.ofNat 0) = .ok sysvar ∧
          sysvar.distributedRewards + totalStakeRewards (stakeRewardsOf records) ≤
            sysvar.totalRewards := by
  intro voteAccount env account accounts
  obtain ⟨hpaid, records, hrecords, haccumulation⟩ := inflation_payouts_within_pot env accounts rfl
    (by decide) (by decide +kernel) (by decide) (by decide +kernel)
  obtain ⟨sysvar, hbegin, hcovered, -⟩ := haccumulation (.fold records.reduceOption) (.refl _)
    (fun _ _ => .collected) 1 (Hash.ofNat 0)
  exact ⟨by decide +kernel, hpaid, records, hrecords, sysvar, hbegin, hcovered⟩

end Agave.Runtime.Rewards

