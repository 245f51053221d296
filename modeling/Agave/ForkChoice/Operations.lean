/-
  Agave.ForkChoice.Operations

  The operations of `HeaviestSubtreeForkChoice` that replay and duplicate handling call: inserting
  blocks, and marking forks valid or invalid.

  Loops that follow parent links carry the slot of their start as fuel, loops that follow child
  links the number of blocks: slots grow from parent to child, and no block has two parents.  A loop
  that exceeds its fuel stops with `outOfFuel`.
-/

import Agave.ForkChoice.State

namespace Agave.ForkChoice

open Agave.Lib

namespace HeaviestSubtreeForkChoice

variable (fc : HeaviestSubtreeForkChoice)

/-! ## Walking the tree -/

/-- `AncestorIterator`: the proper ancestors, nearest first. -/
def ancestorsFrom : Nat → SlotHashKey → List SlotHashKey
  | 0, _ => []
  | fuel + 1, key =>
    match fc.parent key with
    | none => []
    | some parentKey => parentKey :: ancestorsFrom fuel parentKey

def ancestorIterator (key : SlotHashKey) : List SlotHashKey := fc.ancestorsFrom key.slot key

def isStrictAncestor (maybeAncestor key : SlotHashKey) : Bool :=
  if maybeAncestor = key then false
  else if key.slot < maybeAncestor.slot then false
  else (fc.ancestorIterator key).any (fun a => a = maybeAncestor)

/-- The loop of `subtree_diff`, the stack with its top first. -/
def subtreeDiffLoop (root2 : SlotHashKey) :
    Nat → List SlotHashKey → List SlotHashKey → Except Panic (List SlotHashKey)
  | _, [], reachable => .ok reachable
  | 0, _ :: _, _ => .error .outOfFuel
  | fuel + 1, current :: pending, reachable =>
    if current = root2 then subtreeDiffLoop root2 fuel pending reachable
    else do
      let info ← fc.getInfo current .missingNode
      subtreeDiffLoop root2 fuel (info.children.keys.reverse ++ pending)
        (reachable.insert current)

/-- `subtree_diff`: the nodes reachable from `root1`, without the subtree at `root2`. -/
def subtreeDiff (root1 root2 : SlotHashKey) : Except Panic (List SlotHashKey) :=
  if fc.containsBlock root1 then
    fc.subtreeDiffLoop root2 fc.forkInfos.keys.length [root1] []
  else .ok []

/-! ## Queueing updates -/

/-- `do_insert_aggregate_operation`: whether the node was not queued before,
    and the queue with it. -/
def doInsertAggregateOperation (modifyForkValidity : Option UpdateOperation)
    (operations : UpdateOperations) (key : SlotHashKey) : Bool × UpdateOperations :=
  if (operations.get? (toLex (key, .aggregate))).isSome then (false, operations)
  else
    let marked :=
      match modifyForkValidity with
      | some (.markValid slot) =>
        (operations.insert (toLex (key, .markValid slot)) (.markValid slot)).2
      | some (.markInvalid slot) =>
        (operations.insert (toLex (key, .markInvalid slot)) (.markInvalid slot)).2
      | _ => operations
    (true, (marked.insert (toLex (key, .aggregate)) .aggregate).2)

/-- The loop of `do_insert_aggregate_operations_across_ancestors`: it stops at
    the first node that is queued already. -/
def insertAcrossAncestors (modifyForkValidity : Option UpdateOperation) :
    List SlotHashKey → UpdateOperations → UpdateOperations
  | [], operations => operations
  | ancestor :: ancestors, operations =>
    let inserted := doInsertAggregateOperation modifyForkValidity operations ancestor
    if inserted.1 then insertAcrossAncestors modifyForkValidity ancestors inserted.2
    else inserted.2

def insertAggregateOperations (operations : UpdateOperations) (key : SlotHashKey) :
    UpdateOperations :=
  insertAcrossAncestors none (fc.ancestorIterator key) operations

/-! ## Validity -/

/-- Queueing a mark and an aggregation for every node of the subtree at `key`,
    and an aggregation for its ancestors. -/
def queueMarks (mark : UpdateOperation) (key : SlotHashKey) : Except Panic UpdateOperations := do
  let subtree ← fc.subtreeDiff key .zero
  let operations := subtree.foldl (fun operations child =>
    (doInsertAggregateOperation (some mark) operations child).2) .empty
  return fc.insertAggregateOperations operations key

def markForkInvalidCandidate (key : SlotHashKey) : Except Panic HeaviestSubtreeForkChoice :=
  match fc.forkInfos.get? key with
  | none => .ok fc
  | some info =>
    if info.isDuplicateConfirmed then .error .markConfirmedInvalid
    else do
      let operations ← fc.queueMarks (.markInvalid key.slot) key
      fc.processUpdateOperations operations

/-- The blocks of a list that are not duplicate confirmed, in order; all of them must exist. -/
def unconfirmedAmong : List SlotHashKey → Except Panic (List SlotHashKey)
  | [] => .ok []
  | key :: keys => do
    let info ← fc.getInfo key .unknownBlock
    let unconfirmed ← unconfirmedAmong keys
    return if info.isDuplicateConfirmed then unconfirmed else key :: unconfirmed

/-- `mark_fork_valid_candidate`: the blocks that become duplicate confirmed, and the tree. -/
def markForkValidCandidate (key : SlotHashKey) :
    Except Panic (List SlotHashKey × HeaviestSubtreeForkChoice) := do
  let unconfirmed ← fc.unconfirmedAmong (key :: fc.ancestorIterator key)
  let operations ← fc.queueMarks (.markValid key.slot) key
  let fc ← fc.processUpdateOperations operations
  return (unconfirmed, fc)

/-! ## Inserting blocks -/

def isBestChild (maybeBestChild : SlotHashKey) : Except Panic Bool := do
  let info ← fc.getInfo maybeBestChild .missingNode
  match info.parent with
  | none => return true
  | some parentKey => do
    let parentInfo ← fc.getInfo parentKey .missingNode
    let children ← fc.childInfos parentInfo
    return !children.any (fun child => child.2.isCandidate &&
      decide (info.stakeVotedSubtree < child.2.stakeVotedSubtree ∨
        (info.stakeVotedSubtree = child.2.stakeVotedSubtree ∧ child.1 < maybeBestChild)))

def isDeepestChild (maybeDeepestChild : SlotHashKey) : Except Panic Bool := do
  let info ← fc.getInfo maybeDeepestChild .missingNode
  match info.parent with
  | none => return true
  | some parentKey => do
    let parentInfo ← fc.getInfo parentKey .missingNode
    let children ← fc.childInfos parentInfo
    return !children.any (fun child => decide (info.height < child.2.height ∨
      (child.2.height = info.height ∧ info.stakeVotedSubtree < child.2.stakeVotedSubtree) ∨
      (child.2.height = info.height ∧ child.2.stakeVotedSubtree = info.stakeVotedSubtree ∧
        child.1 < maybeDeepestChild)))

/-- The first loop of `propagate_new_leaf`: every ancestor that had the parent's
    best slot takes the new leaf. -/
def propagateBest (parentBest leaf : SlotHashKey) : Nat → Option SlotHashKey →
    HeaviestSubtreeForkChoice → Except Panic HeaviestSubtreeForkChoice
  | _, none, fc => .ok fc
  | 0, some _, _ => .error .outOfFuel
  | fuel + 1, some ancestor, fc => do
    let info ← fc.getInfo ancestor .missingNode
    if info.bestSlot = parentBest then
      propagateBest parentBest leaf fuel info.parent
        (fc.setInfo ancestor { info with bestSlot := leaf })
    else return fc

/-- The second loop of `propagate_new_leaf`, up to the first ancestor whose
    child is not the deepest one. -/
def propagateDeepest (leaf : SlotHashKey) : Nat → Option SlotHashKey → SlotHashKey → Nat →
    HeaviestSubtreeForkChoice → Except Panic HeaviestSubtreeForkChoice
  | _, none, _, _, fc => .ok fc
  | 0, some _, _, _, _ => .error .outOfFuel
  | fuel + 1, some ancestor, currentChild, currentHeight, fc => do
    if ← fc.isDeepestChild currentChild then
      let info ← fc.getInfo ancestor .missingNode
      propagateDeepest leaf fuel info.parent ancestor (currentHeight + 1)
        (fc.setInfo ancestor { info with deepestSlot := leaf, height := currentHeight + 1 })
    else return fc

def propagateNewLeaf (key parentKey : SlotHashKey) : Except Panic HeaviestSubtreeForkChoice := do
  let parentInfo ← fc.getInfo parentKey .missingNode
  let isBest ← fc.isBestChild key
  let fc ← if isBest then propagateBest parentInfo.bestSlot key key.slot (some parentKey) fc
    else pure fc
  propagateDeepest key key.slot (some parentKey) key 1 fc

/-- The info of a new leaf. -/
def newLeafInfo (key : SlotHashKey) (parentKey : Option SlotHashKey) : ForkInfo where
  stakeVotedAt := 0
  stakeVotedSubtree := 0
  height := 1
  bestSlot := key
  deepestSlot := key
  children := .empty
  parent := parentKey
  latestInvalidAncestor := parentKey.bind fc.latestInvalidAncestor
  isDuplicateConfirmed := parentKey.isNone

def addNewLeafSlot (key : SlotHashKey) (parentKey : Option SlotHashKey) :
    Except Panic HeaviestSubtreeForkChoice :=
  if fc.containsBlock key then .ok fc
  else
    let fc' := fc.setInfo key (fc.newLeafInfo key parentKey)
    match parentKey with
    | none => .ok fc'
    | some parentKey => do
      let parentInfo ← fc'.getInfo parentKey .unknownBlock
      (fc'.setInfo parentKey
        { parentInfo with children := (parentInfo.children.insert key ()).2 }).propagateNewLeaf
        key parentKey

def new (treeRoot : SlotHashKey) : Except Panic HeaviestSubtreeForkChoice :=
  addNewLeafSlot ⟨.empty, treeRoot⟩ treeRoot none

end HeaviestSubtreeForkChoice

end Agave.ForkChoice
