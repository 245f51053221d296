/-
  Agave.Runtime.EpochRewards.Points

  The points that a stake has earned, by the credits of its vote account, and
  the rewards they are worth.

  In a Tower epoch the points of all stakes share a pot; in an Alpenglow epoch
  the credits are lamports already; in the epoch of the migration a stake has
  some of both.  How much of a delegation is effective in an epoch is left to
  the environment.  The calls of the tracer are left out.

  The two passes of the code use the same function for the points, so that what
  a stake is paid is its share, rounded down.
-/

import Agave.Basic
import Agave.Lib.Outcome
import Mathlib.Algebra.Order.BigOperators.Group.List

namespace Agave.Runtime.Rewards

open Lib

structure Delegation where
  voterPubkey : Pubkey
  stake : Nat
  activationEpoch : Nat
  deactivationEpoch : Nat

structure Stake where
  delegation : Delegation
  creditsObserved : Nat

/-- An epoch, the credits at its end, and the credits before it. -/
abbrev EpochCredits := Nat × Nat × Nat

structure DelegatedVoteState where
  credits : Nat
  epochCredits : List EpochCredits

structure PointValue where
  rewards : Nat
  points : Nat

structure RewardEpochDelegatedStakes where
  epoch : Nat
  delegatedStakes : Pubkey → Option Nat

inductive AlpenglowEpochType where
  | tower
  | migrationEpoch (numTowerSlots numAgSlots : Nat) (stakes : RewardEpochDelegatedStakes)
  | alpenglow (stakes : RewardEpochDelegatedStakes)

structure CalculatedStakePoints where
  towerPoints : Nat
  agPoints : Nat
  newCreditsObserved : Nat
  forceCreditsUpdateWithSkippedReward : Bool

/-- `delegation_effective_stake`, with the stake history and the features it depends on. -/
abbrev EffectiveStake := Delegation → Nat → Nat

/-- `AG_MIGRATION_EPOCH_CREDIT`. -/
def agMigrationEpochCredit : EpochCredits := (u64Max, u64Max, u64Max)

/-- Subtraction of `u64`s. -/
def subU64 (a b : Nat) : Nat := (a + (2 ^ 64 - b % 2 ^ 64)) % 2 ^ 64

/-- Addition of `u128`s. -/
def addU128 (a b : Nat) : Nat := (a + b) % 2 ^ 128

/-! ## Points -/

/-- `calc_earned_credits`: what was earned, and the credits observed then. -/
def calcEarnedCredits (stake : Stake) (finalEpochCredits initialEpochCredits : Nat)
    (newCreditsObserved : Nat) : Nat × Nat :=
  let earnedCredits :=
    if stake.creditsObserved < initialEpochCredits then
      subU64 finalEpochCredits initialEpochCredits
    else if stake.creditsObserved < finalEpochCredits then
      subU64 finalEpochCredits newCreditsObserved
    else 0
  (earnedCredits, max newCreditsObserved finalEpochCredits)

/-- The result of `tower_epoch_credits_iter`, with what is left of the iterator. -/
structure TowerCredits where
  points : Nat
  newCreditsObserved : Nat
  sawMarker : Bool
  rest : List EpochCredits

variable (effectiveStake : EffectiveStake) (stake : Stake) (voteState : DelegatedVoteState)

/-- The loop of `tower_epoch_credits_iter`. -/
def towerEpochCreditsLoop (effectiveStake : EffectiveStake) (stake : Stake) (points : Nat)
    (newCreditsObserved : Nat) : List EpochCredits → TowerCredits
  | [] => ⟨points, newCreditsObserved, false, []⟩
  | entry :: rest =>
    if entry = agMigrationEpochCredit then ⟨points, newCreditsObserved, true, rest⟩
    else
      let (earnedCredits, newCreditsObserved) :=
        calcEarnedCredits stake entry.2.1 entry.2.2 newCreditsObserved
      let stakeAmount := effectiveStake stake.delegation entry.1
      towerEpochCreditsLoop effectiveStake stake (addU128 points (stakeAmount * earnedCredits))
        newCreditsObserved rest

def towerEpochCreditsIter (epochCredits : List EpochCredits) : TowerCredits :=
  towerEpochCreditsLoop effectiveStake stake 0 stake.creditsObserved epochCredits

/-- `calculate_alpenglow_points`: the points and the credits observed, or the
    answer for a vote account without stake. -/
def calculateAlpenglowPoints (rewardEpochCredits : Option EpochCredits)
    (stakes : RewardEpochDelegatedStakes) : Except CalculatedStakePoints (Nat × Nat) :=
  match rewardEpochCredits with
  | none => .ok (0, stake.creditsObserved)
  | some (epoch, finalEpochCredits, initialEpochCredits) =>
    if epoch ≠ stakes.epoch then .ok (0, stake.creditsObserved)
    else
      let (earnedCredits, newCreditsObserved) :=
        calcEarnedCredits stake finalEpochCredits initialEpochCredits stake.creditsObserved
      let stakeAmount := effectiveStake stake.delegation epoch
      if earnedCredits = 0 ∨ stakeAmount = 0 then .ok (0, newCreditsObserved)
      else
        match (stakes.delegatedStakes stake.delegation.voterPubkey).filter (· ≠ 0) with
        | none => .error ⟨0, 0, newCreditsObserved, true⟩
        | some totalStake => .ok (earnedCredits * stakeAmount / totalStake, newCreditsObserved)

def calculateMigrationPoints (epochCredits : List EpochCredits)
    (stakes : RewardEpochDelegatedStakes) : Except CalculatedStakePoints (Nat × Nat × Nat) := do
  let tower := towerEpochCreditsIter effectiveStake stake epochCredits
  let (agPoints, agNewCreditsObserved) ←
    if tower.sawMarker then calculateAlpenglowPoints effectiveStake stake tower.rest.head? stakes
    else .ok (0, stake.creditsObserved)
  return (tower.points, agPoints, max tower.newCreditsObserved agNewCreditsObserved)

def calculateStakePointsAndCredits : AlpenglowEpochType →
    CalculatedStakePoints :=
  fun agEpochType =>
    if voteState.credits < stake.creditsObserved then ⟨0, 0, voteState.credits, true⟩
    else if voteState.credits = stake.creditsObserved then ⟨0, 0, stake.creditsObserved, false⟩
    else
      match agEpochType with
      | .tower =>
        let tower := towerEpochCreditsIter effectiveStake stake voteState.epochCredits
        ⟨tower.points, 0, tower.newCreditsObserved, false⟩
      | .migrationEpoch _ _ stakes =>
        match calculateMigrationPoints effectiveStake stake voteState.epochCredits stakes with
        | .error answer => answer
        | .ok (towerPoints, agPoints, newCreditsObserved) =>
          ⟨towerPoints, agPoints, newCreditsObserved, false⟩
      | .alpenglow stakes =>
        match calculateAlpenglowPoints effectiveStake stake voteState.epochCredits.getLast?
            stakes with
        | .error answer => answer
        | .ok (agPoints, newCreditsObserved) => ⟨0, agPoints, newCreditsObserved, false⟩

def calculateStakePointsForTower : Nat :=
  (calculateStakePointsAndCredits effectiveStake stake voteState .tower).towerPoints

/-! ## Rewards -/

/-- What stops the calculation. -/
inductive PointsPanic where
  /-- "Rewards intermediate calculation should fit within u128". -/
  | intermediateOverflow
  /-- "Rewards should fit within u64". -/
  | rewardsOverflow
  /-- An unwrapped division by zero. -/
  | divisionByZero
deriving DecidableEq

structure CalculatedStakeRewards where
  stakerRewards : Nat
  voterRewards : Nat
  newCreditsObserved : Nat

/-- `CalculationEnvironment`, as far as the rewards go. -/
structure CalculationEnvironment where
  rewardedEpoch : Nat
  pointValue : PointValue
  effectiveStake : EffectiveStake

/-- `MAX_BPS`. -/
def maxBps : Nat := 10000

/-- `commission_split`: the voter's part, the staker's, and whether there were two. -/
def commissionSplit (commissionBps on : Nat) : Nat × Nat × Bool :=
  let split := min commissionBps maxBps
  if split = 0 then (0, on, false)
  else if split = maxBps then (on, 0, false)
  else (on * split / maxBps, on * (maxBps - split) / maxBps, true)

/-- `checked_mul(..).expect(..)` on `u128`s. -/
def checkedMulU128 (a b : Nat) : Except PointsPanic Nat :=
  if a * b < 2 ^ 128 then .ok (a * b) else .error .intermediateOverflow

/-- `checked_div(..).unwrap()`. -/
def checkedDiv (a b : Nat) : Except PointsPanic Nat :=
  if b = 0 then .error .divisionByZero else .ok (a / b)

/-- What the points are worth, or nothing if the reward is skipped. -/
def pointsToRewards (points : CalculatedStakePoints) (pointValue : PointValue) :
    AlpenglowEpochType → Except PointsPanic (Option Nat)
  | .alpenglow _ => .ok (if points.agPoints = 0 then none else some points.agPoints)
  | .tower =>
    if points.towerPoints = 0 then .ok none
    else if pointValue.points = 0 then .ok none
    else do
      let product ← checkedMulU128 points.towerPoints pointValue.rewards
      let rewards ← checkedDiv product pointValue.points
      return some rewards
  | .migrationEpoch numTowerSlots numAgSlots _ =>
    if points.towerPoints = 0 ∧ points.agPoints = 0 then .ok none
    else if points.agPoints = 0 ∧ pointValue.points = 0 then .ok none
    else do
      let totalSlots := numTowerSlots + numAgSlots
      let product ← checkedMulU128 points.towerPoints pointValue.rewards
      let share ← checkedDiv product pointValue.points
      let scaled ← checkedMulU128 share numTowerSlots
      let towerRewards ← checkedDiv scaled totalSlots
      return some (addU128 towerRewards points.agPoints)

/-- `matches!(ag_epoch_type, AlpenglowEpochType::Tower)`. -/
def AlpenglowEpochType.isTower : AlpenglowEpochType → Bool
  | .tower => true
  | .migrationEpoch _ _ _ => false
  | .alpenglow _ => false

def calculateStakeRewards (env : CalculationEnvironment) (stake : Stake)
    (voterCommissionBps : Nat) (voteState : DelegatedVoteState)
    (agEpochType : AlpenglowEpochType) : Except PointsPanic (Option CalculatedStakeRewards) := do
  let points := calculateStakePointsAndCredits env.effectiveStake stake voteState agEpochType
  let forceCreditsUpdateWithSkippedReward :=
    points.forceCreditsUpdateWithSkippedReward || decide (env.pointValue.rewards = 0) ||
      decide (stake.delegation.activationEpoch = env.rewardedEpoch)
  let skippedReward : Option CalculatedStakeRewards := some ⟨0, 0, points.newCreditsObserved⟩
  -- outside of Tower, credits advance also when the reward is skipped
  let skipReward :=
    if agEpochType.isTower = false ∧ points.newCreditsObserved ≠ stake.creditsObserved then
      skippedReward
    else none
  if forceCreditsUpdateWithSkippedReward then return skippedReward
  else do
    let some rewards ← pointsToRewards points env.pointValue agEpochType | return skipReward
    if u64Max < rewards then .error .rewardsOverflow
    else if rewards = 0 then return skipReward
    else
      let (voterRewards, stakerRewards, isSplit) := commissionSplit voterCommissionBps rewards
      if (voterRewards = 0 ∨ stakerRewards = 0) ∧ isSplit = true ∧ agEpochType.isTower = true then
        return none
      else return some ⟨stakerRewards, voterRewards, points.newCreditsObserved⟩

/-- What was paid. -/
def CalculatedStakeRewards.paid (rewards : CalculatedStakeRewards) : Nat :=
  rewards.voterRewards + rewards.stakerRewards

/-! ## Shares -/

theorem commissionSplit_le (commissionBps on : Nat) :
    (commissionSplit commissionBps on).1 + (commissionSplit commissionBps on).2.1 ≤ on := by
  unfold commissionSplit
  dsimp only
  split_ifs with hzero hall
  · exact (Nat.zero_add on).le
  · exact (Nat.add_zero on).le
  · have hle : min commissionBps maxBps ≤ maxBps := min_le_right _ _
    set split := min commissionBps maxBps
    show on * split / maxBps + on * (maxBps - split) / maxBps ≤ on
    calc on * split / maxBps + on * (maxBps - split) / maxBps
        ≤ (on * split + on * (maxBps - split)) / maxBps := Nat.div_add_div_le_add_div
      _ = on * maxBps / maxBps := by rw [← Nat.mul_add, Nat.add_sub_cancel' hle]
      _ = on := Nat.mul_div_cancel _ (by decide)

/-- What a share of the pot is worth. -/
def share (pointValue : PointValue) (points : Nat) : Nat :=
  points * pointValue.rewards / pointValue.points

theorem sum_share_le {pointValue : PointValue} {points : List Nat}
    (hpoints : points.sum ≤ pointValue.points) (hpos : 0 < pointValue.points) :
    (points.map (share pointValue)).sum ≤ pointValue.rewards := by
  have hscaled : ∀ l : List Nat,
      (l.map (share pointValue)).sum * pointValue.points ≤ l.sum * pointValue.rewards := by
    intro l
    induction l with
    | nil => exact Nat.le_of_eq (by simp)
    | cons a l ih =>
      rw [List.map_cons, List.sum_cons, List.sum_cons, Nat.add_mul, Nat.add_mul]
      exact Nat.add_le_add (Nat.div_mul_le_self _ _) ih
  have hle := (hscaled points).trans (Nat.mul_le_mul_right _ hpoints)
  rw [Nat.mul_comm pointValue.points] at hle
  exact Nat.le_of_mul_le_mul_right hle hpos

/-- In a Tower epoch a stake is paid at most its share, and the calculation does not stop. -/
theorem calculateStakeRewards_tower {env : CalculationEnvironment} {stake : Stake}
    (voterCommissionBps : Nat) {voteState : DelegatedVoteState}
    (hpoints : calculateStakePointsForTower env.effectiveStake stake voteState ≤
      env.pointValue.points) (hrewards : env.pointValue.rewards ≤ u64Max)
    (hfits : calculateStakePointsForTower env.effectiveStake stake voteState *
      env.pointValue.rewards < 2 ^ 128) :
    ∃ result, calculateStakeRewards env stake voterCommissionBps voteState .tower = .ok result ∧
      ∀ rewards, result = some rewards → rewards.paid ≤
        share env.pointValue (calculateStakePointsForTower env.effectiveStake stake voteState) := by
  unfold calculateStakeRewards
  unfold calculateStakePointsForTower at *
  set points := calculateStakePointsAndCredits env.effectiveStake stake voteState .tower
  dsimp only
  have hskip : ∀ {result : Option CalculatedStakeRewards},
      (result = none ∨ result = some ⟨0, 0, points.newCreditsObserved⟩) →
      ∀ rewards, result = some rewards → rewards.paid ≤
        share env.pointValue points.towerPoints := by
    rintro result (rfl | rfl) rewards h
    · cases h
    · cases h
      exact Nat.zero_le _
  split_ifs with hforce hnever
  · exact ⟨_, rfl, hskip (Or.inr rfl)⟩
  · exact absurd hnever.1 Bool.noConfusion
  · by_cases hnone : points.towerPoints = 0 ∨ env.pointValue.points = 0
    · have hvalue : pointsToRewards points env.pointValue .tower = .ok none := by
        unfold pointsToRewards
        rcases hnone with hnone | hnone
        · rw [if_pos hnone]
        · rw [if_pos hnone, ite_self]
      rw [hvalue]
      exact ⟨_, rfl, hskip (Or.inl rfl)⟩
    · rw [not_or] at hnone
      have hvalue : pointsToRewards points env.pointValue .tower =
          .ok (some (share env.pointValue points.towerPoints)) := by
        unfold pointsToRewards
        dsimp only
        rw [if_neg hnone.1, if_neg hnone.2, checkedMulU128, if_pos hfits, ok_bind, checkedDiv,
          if_neg hnone.2, ok_bind]
        rfl
      rw [hvalue, ok_bind]
      dsimp only
      -- a share of the pot is at most the pot
      have hshare : share env.pointValue points.towerPoints ≤ env.pointValue.rewards := by
        refine Nat.div_le_of_le_mul ?_
        exact Nat.mul_le_mul_right _ hpoints
      rw [if_neg (by omega)]
      split_ifs with hzero hlost
      · exact ⟨_, rfl, hskip (Or.inl rfl)⟩
      · exact ⟨_, rfl, hskip (Or.inl rfl)⟩
      · refine ⟨_, rfl, ?_⟩
        rintro rewards ⟨⟩
        exact commissionSplit_le _ _

end Agave.Runtime.Rewards
