/-
  Agave.ForkChoice.State

  The data of `HeaviestSubtreeForkChoice` and what one update does to one node.

  Blocks are named by slot and bank hash, because a slot may have several versions.  Every block of
  the tree has a `ForkInfo` with the stake that voted for it, the stake that voted in its subtree,
  and the values cached from its children.  Changes are queued as `UpdateOperations`, keyed by block
  and label, and replayed from the greatest key down; `aggregateSlot` recomputes a node from its
  children.

  The two hash maps of the source are ordered maps here: nothing modelled depends on the order in
  which they are walked.  Stakes are unbounded above (the stake of all vote accounts together fits a
  `u64`) but a subtraction that would go below zero stops the program.
-/

import Agave.Basic
import Agave.Lib.BTreeMap
import Mathlib.Data.Prod.Lex

namespace Agave.ForkChoice

open Agave.Lib

/-! ## Keys and labels -/

/-- `SlotHashKey`: a slot and the hash of one version of its block. -/
structure SlotHashKey where
  slot : Nat
  hash : Hash

namespace SlotHashKey

/-- Slots are compared first, hashes break ties. -/
def toPair (key : SlotHashKey) : Nat ×ₗ Hash := toLex (key.slot, key.hash)

theorem toPair_injective : Function.Injective toPair := by
  rintro ⟨s, h⟩ ⟨s', h'⟩ heq
  obtain ⟨rfl, rfl⟩ := Prod.mk.inj (toLex.injective heq)
  rfl

instance : LinearOrder SlotHashKey := LinearOrder.lift' toPair toPair_injective

instance lawfulBEq : LawfulBEq SlotHashKey := inferInstance

theorem lt_of_slot_lt {a b : SlotHashKey} (h : a.slot < b.slot) : a < b :=
  Prod.Lex.toLex_lt_toLex.mpr (Or.inl h)

/-- `SlotHashKey::default()`. -/
def zero : SlotHashKey := ⟨0, Hash.ofNat 0⟩

end SlotHashKey

/-- `UpdateLabel`, in the source's order of derivation. -/
inductive UpdateLabel where
  | aggregate
  | add
  | markValid (slot : Nat)
  | markInvalid (slot : Nat)
  | subtract

namespace UpdateLabel

def rank : UpdateLabel → Nat ×ₗ Nat
  | aggregate => toLex (0, 0)
  | add => toLex (1, 0)
  | markValid slot => toLex (2, slot)
  | markInvalid slot => toLex (3, slot)
  | subtract => toLex (4, 0)

theorem rank_injective : Function.Injective rank := by
  intro a b h
  have h := Prod.mk.inj (toLex.injective h)
  cases a <;> cases b <;> simp_all [rank]

instance : LinearOrder UpdateLabel := LinearOrder.lift' rank rank_injective

end UpdateLabel

inductive UpdateOperation where
  | add (stake : Nat)
  | markValid (slot : Nat)
  | markInvalid (slot : Nat)
  | subtract (stake : Nat)
  | aggregate

/-- Everything that makes the fork choice panic. -/
inductive Panic where
  /-- A node reached through a link of the tree is not in `fork_infos`. -/
  | missingNode
  /-- The block the caller named is not in `fork_infos`. -/
  | unknownBlock
  /-- `subtract_slot_stake` takes more than there is. -/
  | stakeUnderflow
  /-- A duplicate confirmed block is marked invalid. -/
  | markConfirmedInvalid
  /-- A walk of the tree does not end. -/
  | outOfFuel
deriving DecidableEq

/-- `UpdateOperations`: the queue, ordered by block and then by label. -/
abbrev UpdateOperations := BTreeMap (SlotHashKey ×ₗ UpdateLabel) UpdateOperation

/-! ## Nodes -/

structure ForkInfo where
  /-- Stake that voted for exactly this block. -/
  stakeVotedAt : Nat
  /-- Stake that voted for this block or below it. -/
  stakeVotedSubtree : Nat
  height : Nat
  bestSlot : SlotHashKey
  deepestSlot : SlotHashKey
  parent : Option SlotHashKey
  children : BTreeMap SlotHashKey Unit
  /-- The latest ancestor marked invalid, which may be the block itself. -/
  latestInvalidAncestor : Option Nat
  isDuplicateConfirmed : Bool

namespace ForkInfo

variable (info : ForkInfo)

def isCandidate : Bool := info.latestInvalidAncestor.isNone

def setDuplicateConfirmed : ForkInfo :=
  { info with isDuplicateConfirmed := true, latestInvalidAncestor := none }

def updateWithNewlyValidAncestor (newlyValidAncestor : Nat) : ForkInfo :=
  match info.latestInvalidAncestor with
  | none => info
  | some latest =>
    if latest ≤ newlyValidAncestor then { info with latestInvalidAncestor := none } else info

def updateWithNewlyInvalidAncestor (newlyInvalidAncestor : Nat) :
    Except Panic ForkInfo :=
  if info.isDuplicateConfirmed then .error .markConfirmedInvalid
  else if (info.latestInvalidAncestor.map
      (fun latest => decide (latest < newlyInvalidAncestor))).getD true then
    .ok { info with latestInvalidAncestor := some newlyInvalidAncestor }
  else .ok info

end ForkInfo

/-- The running values of the loop of `aggregate_slot` over the children. -/
structure Aggregation where
  stakeVotedSubtree : Nat
  isDuplicateConfirmed : Bool
  bestSlot : SlotHashKey
  bestChildKey : SlotHashKey
  bestChildStake : Nat
  deepestSlot : SlotHashKey
  deepestChildKey : SlotHashKey
  deepestChildHeight : Nat
  deepestChildStake : Nat

namespace Aggregation

variable (key : SlotHashKey) (a : Aggregation) (childKey : SlotHashKey) (child : ForkInfo)

/-- The values before the first child of `key`. -/
def start (info : ForkInfo) : Aggregation where
  stakeVotedSubtree := info.stakeVotedAt
  isDuplicateConfirmed := false
  bestSlot := key
  bestChildKey := key
  bestChildStake := 0
  deepestSlot := key
  deepestChildKey := key
  deepestChildHeight := 0
  deepestChildStake := 0

/-- `child` is a candidate and heavier than the best child so far. -/
abbrev Heavier : Prop :=
  child.isCandidate ∧ (a.bestChildKey = key ∨ a.bestChildStake < child.stakeVotedSubtree ∨
    (child.stakeVotedSubtree = a.bestChildStake ∧ childKey < a.bestChildKey))

/-- `child` is deeper than the deepest child so far. -/
abbrev Deeper : Prop :=
  a.deepestChildKey = key ∨ a.deepestChildHeight < child.height ∨
    (child.height = a.deepestChildHeight ∧ a.deepestChildStake < child.stakeVotedSubtree) ∨
    (child.height = a.deepestChildHeight ∧ child.stakeVotedSubtree = a.deepestChildStake ∧
      childKey < a.deepestChildKey)

def addStake : Aggregation :=
  -- a child that is not a candidate still counts towards the subtree
  { a with
    stakeVotedSubtree := a.stakeVotedSubtree + child.stakeVotedSubtree
    isDuplicateConfirmed := a.isDuplicateConfirmed || child.isDuplicateConfirmed }

def updateBest : Aggregation :=
  if Heavier key a childKey child then
    { a with
      bestSlot := child.bestSlot
      bestChildKey := childKey
      bestChildStake := child.stakeVotedSubtree }
  else a

def updateDeepest : Aggregation :=
  if Deeper key a childKey child then
    { a with
      deepestSlot := child.deepestSlot
      deepestChildKey := childKey
      deepestChildHeight := child.height
      deepestChildStake := child.stakeVotedSubtree }
  else a

/-- One iteration of the loop. -/
def visit (child : SlotHashKey × ForkInfo) : Aggregation :=
  updateDeepest key (updateBest key (a.addStake child.2) child.1 child.2) child.1 child.2

/-- What `aggregate_slot` writes back. -/
def store (info : ForkInfo) : ForkInfo :=
  { (if a.isDuplicateConfirmed then info.setDuplicateConfirmed else info) with
    stakeVotedSubtree := a.stakeVotedSubtree
    height := a.deepestChildHeight + 1
    bestSlot := a.bestSlot
    deepestSlot := a.deepestSlot }

end Aggregation

/-! ## The tree -/

/-- `HeaviestSubtreeForkChoice`, without the latest votes and the time of the last root. -/
structure HeaviestSubtreeForkChoice where
  forkInfos : BTreeMap SlotHashKey ForkInfo
  treeRoot : SlotHashKey

namespace HeaviestSubtreeForkChoice

variable (fc : HeaviestSubtreeForkChoice) (key : SlotHashKey)

def containsBlock : Bool :=
  (fc.forkInfos.get? key).isSome

def latestInvalidAncestor : Option Nat :=
  (fc.forkInfos.get? key).bind ForkInfo.latestInvalidAncestor

def parent : Option SlotHashKey :=
  (fc.forkInfos.get? key).bind ForkInfo.parent

/-- `fork_infos.get(key)` with an `unwrap` or `expect` that panics with `e`. -/
def getInfo (e : Panic) : Except Panic ForkInfo :=
  match fc.forkInfos.get? key with
  | none => .error e
  | some info => .ok info

/-- Writing through `fork_infos.get_mut(key)`. -/
def setInfo (info : ForkInfo) : HeaviestSubtreeForkChoice :=
  { fc with forkInfos := (fc.forkInfos.insert key info).2 }

/-- The children of a node with their infos, all of which must exist. -/
def childInfos (info : ForkInfo) : Except Panic (List (SlotHashKey × ForkInfo)) :=
  info.children.keys.mapM (fun childKey => do
    let child ← fc.getInfo childKey .missingNode
    return (childKey, child))

def aggregateSlot : Except Panic HeaviestSubtreeForkChoice :=
  match fc.forkInfos.get? key with
  | none => .ok fc
  | some info => do
    let children ← fc.childInfos info
    let a := children.foldl (Aggregation.visit key) (Aggregation.start key info)
    return fc.setInfo key (a.store info)

def markForkValid (validSlot : Nat) : HeaviestSubtreeForkChoice :=
  match fc.forkInfos.get? key with
  | none => fc
  | some info =>
    let info := info.updateWithNewlyValidAncestor validSlot
    fc.setInfo key
      (if key.slot = validSlot then { info with isDuplicateConfirmed := true } else info)

def markForkInvalid (invalidSlot : Nat) : Except Panic HeaviestSubtreeForkChoice :=
  match fc.forkInfos.get? key with
  | none => .ok fc
  | some info => do
    let info ← info.updateWithNewlyInvalidAncestor invalidSlot
    return fc.setInfo key info

def addSlotStake (stake : Nat) : HeaviestSubtreeForkChoice :=
  match fc.forkInfos.get? key with
  | none => fc
  | some info =>
    fc.setInfo key
      { info with
        stakeVotedAt := info.stakeVotedAt + stake
        stakeVotedSubtree := info.stakeVotedSubtree + stake }

/-- `subtract_slot_stake`, with both subtractions checked. -/
def subtractSlotStake (stake : Nat) : Except Panic HeaviestSubtreeForkChoice :=
  match fc.forkInfos.get? key with
  | none => .ok fc
  | some info =>
    if info.stakeVotedAt < stake then .error .stakeUnderflow
    else if info.stakeVotedSubtree < stake then .error .stakeUnderflow
    else .ok (fc.setInfo key
      { info with
        stakeVotedAt := info.stakeVotedAt - stake
        stakeVotedSubtree := info.stakeVotedSubtree - stake })

/-- One iteration of `process_update_operations`. -/
def processOperation : UpdateOperation → Except Panic HeaviestSubtreeForkChoice
  | .markValid validSlot => .ok (fc.markForkValid key validSlot)
  | .markInvalid invalidSlot => fc.markForkInvalid key invalidSlot
  | .aggregate => fc.aggregateSlot key
  | .add stake => .ok (fc.addSlotStake key stake)
  | .subtract stake => fc.subtractSlotStake key stake

/-- The queue in the order it is replayed: from the greatest key down. -/
def agenda (operations : UpdateOperations) : List (SlotHashKey × UpdateOperation) :=
  (operations.entries.map (fun e => ((ofLex e.1).1, e.2))).reverse

def processUpdateOperations (operations : UpdateOperations) : Except Panic HeaviestSubtreeForkChoice
    :=
  (agenda operations).foldlM (fun fc e => fc.processOperation e.1 e.2) fc

end HeaviestSubtreeForkChoice

end Agave.ForkChoice
