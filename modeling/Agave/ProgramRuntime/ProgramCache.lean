/-
  Agave.ProgramRuntime.ProgramCache

  The global cache of programs.  It holds the versions of every program, of all
  forks, in one list per program, sorted by the slot from which a version is
  effective.  A bank looks for the newest version on its own branch; at a new root
  the versions of other forks and those that are overshadowed are pruned.

  Of a loaded program only its environment is kept, and no sizes, counters and
  access slots: nothing here reads them.  The maps of the source are functions of
  the program address, so a program without versions has the empty list.
-/

import Agave.Basic
import Agave.Lib.SlotTree

namespace Agave.ProgramRuntime

open Agave.Lib

/-! ## Entries -/

inductive ProgramCacheEntryOwner where
  | nativeLoader
  | loaderV1
  | loaderV2
  | loaderV3
  | loaderV4
deriving DecidableEq, Ord

variable {Env : Type} [DecidableEq Env]

inductive ProgramCacheEntryType (Env : Type) where
  | failedVerification (environment : Env)
  | closed
  | delayVisibility
  | unloaded (environment : Env)
  | loaded (environment : Env)
  | builtin
deriving DecidableEq

def ProgramCacheEntryType.getEnvironment : ProgramCacheEntryType Env → Option Env
  | loaded environment => some environment
  | failedVerification environment => some environment
  | unloaded environment => some environment
  | closed => none
  | delayVisibility => none
  | builtin => none

structure ProgramCacheEntry (Env : Type) where
  program : ProgramCacheEntryType Env
  accountOwner : ProgramCacheEntryOwner
  deploymentSlot : Nat
  effectiveSlot : Nat
deriving DecidableEq

/-- `DELAY_VISIBILITY_SLOT_OFFSET`. -/
def delayVisibilitySlotOffset : Nat := 1

namespace ProgramCacheEntry

/-- `new_tombstone_with_stats`. -/
def newTombstone (slot : Nat) (accountOwner : ProgramCacheEntryOwner)
    (reason : ProgramCacheEntryType Env) : ProgramCacheEntry Env where
  program := reason
  accountOwner
  deploymentSlot := slot
  effectiveSlot := slot

variable (entry : ProgramCacheEntry Env)

def isTombstone : Bool :=
  match entry.program with
  | .failedVerification _ => true
  | .closed => true
  | .delayVisibility => true
  | _ => false

def isImplicitDelayVisibilityTombstone (slot : Nat) : Bool :=
  (match entry.program with
    | .builtin => false
    | _ => true) &&
    decide (entry.effectiveSlot - entry.deploymentSlot = delayVisibilitySlotOffset) &&
    decide (entry.deploymentSlot ≤ slot) && decide (slot < entry.effectiveSlot)

/-- The equality of entries, which does not look at the program. -/
def same (other : ProgramCacheEntry Env) : Bool :=
  decide (entry.effectiveSlot = other.effectiveSlot) &&
    decide (entry.deploymentSlot = other.deploymentSlot) &&
    decide (entry.accountOwner = other.accountOwner) && entry.isTombstone == other.isTombstone

def matchesEnvironment (environment : Env) : Bool :=
  match entry.program.getEnvironment with
  | none => true
  | some own => decide (own = environment)

end ProgramCacheEntry

inductive ProgramCacheMatchCriteria where
  | deployedOnOrAfterSlot (slot : Nat)
  | tombstone
  | noCriteria
deriving DecidableEq

def ProgramCacheEntry.matchesCriteria (program : ProgramCacheEntry Env) :
    ProgramCacheMatchCriteria → Bool
  | .deployedOnOrAfterSlot slot => decide (slot ≤ program.deploymentSlot)
  | .tombstone => program.isTombstone
  | .noCriteria => true

/-- `BlockRelation`.  The slots of a tree are all known. -/
inductive BlockRelation where
  | ancestor
  | equal
  | descendant
  | unrelated
deriving DecidableEq

/-- `ForkGraph::relationship` of a tree of slots. -/
def relationship (tree : SlotTree) (a b : Nat) : BlockRelation :=
  if a = b then .equal
  else if tree.Le a b then .ancestor
  else if tree.Le b a then .descendant
  else .unrelated

/-! ## Inserting a version -/

/-- The loop of `slice::binary_search_by`: the part of the list that is left has `size` elements
    from `base` on. -/
def binarySearchLoop {α : Type} (compare : α → Ordering) (l : List α) : Nat → Nat → Nat → Nat
  | 0, base, _ => base
  | fuel + 1, base, size =>
    if size ≤ 1 then base
    else
      let half := size / 2
      let base' :=
        match l[base + half]? with
        | some x => if compare x = .gt then base else base + half
        | none => base
      binarySearchLoop compare l fuel base' (size - half)

/-- `slice::binary_search_by`: where an element is, or where it belongs. -/
def binarySearchBy {α : Type} (compare : α → Ordering) (l : List α) : Except Nat Nat :=
  let base := binarySearchLoop compare l l.length 0 l.length
  match l[base]? with
  | none => .error 0
  | some x =>
    match compare x with
    | .eq => .ok base
    | .lt => .error (base + 1)
    | .gt => .error base

def isCurrentEnv (programRuntimeEnvironment : Env) (envOpt : Option Env) : Bool :=
  match envOpt with
  | none => true
  | some env => decide (env = programRuntimeEnvironment)

/-- The order of the versions of a program. -/
def compareVersions (programRuntimeEnvironment : Env) (entry at_ : ProgramCacheEntry Env) :
    Ordering :=
  (compare at_.effectiveSlot entry.effectiveSlot).then
    ((compare at_.deploymentSlot entry.deploymentSlot).then
      ((compare at_.accountOwner entry.accountOwner).then
        (compare (isCurrentEnv programRuntimeEnvironment at_.program.getEnvironment)
          (isCurrentEnv programRuntimeEnvironment entry.program.getEnvironment))))

/-- An entry that may be replaced by another one. -/
def replaceable (existing entry : ProgramCacheEntryType Env) : Bool :=
  match existing, entry with
  | .builtin, .builtin => true
  | .unloaded _, .loaded _ => true
  | _, _ => false

/-- The last part of `assign_program`: existing entries in the same deployment slot are removed,
    unless they are for a different environment. -/
def retainOthers (entry : ProgramCacheEntry Env) (slotVersions : List (ProgramCacheEntry Env)) :
    List (ProgramCacheEntry Env) :=
  slotVersions.filter fun existing =>
    decide (existing.deploymentSlot ≠ entry.deploymentSlot) ||
      (match existing.program.getEnvironment, entry.program.getEnvironment with
        | some a, some b => decide (a ≠ b)
        | _, _ => false) ||
      existing.same entry

/-- `assign_program` on the versions of the program: what it returns, and the versions. -/
def assignVersion (programRuntimeEnvironment : Env)
    (slotVersions : List (ProgramCacheEntry Env)) (entry : ProgramCacheEntry Env) :
    Bool × List (ProgramCacheEntry Env) :=
  match binarySearchBy (compareVersions programRuntimeEnvironment entry) slotVersions with
  | .ok index =>
    match slotVersions[index]? with
    | none => (true, slotVersions)
    | some existing =>
      if replaceable existing.program entry.program then
        (false, retainOthers entry (slotVersions.set index entry))
      else (true, slotVersions)
  | .error index => (false, retainOthers entry (slotVersions.insertIdx index entry))

/-! ## Searching a version -/

structure ProgramToLoad where
  programId : Pubkey
  loader : ProgramCacheEntryOwner
  matchCriteria : ProgramCacheMatchCriteria
deriving DecidableEq

/-- A version at or below the latest root is taken to be on the branch. -/
def inSameBranch (tree : SlotTree) (latestRootSlot slot deploymentSlot : Nat) : Bool :=
  decide (deploymentSlot ≤ latestRootSlot) ||
    match relationship tree deploymentSlot slot with
    | .equal => true
    | .ancestor => true
    | _ => false

/-- The loop of `extract` over the versions of a program, the newest one first, with its
    `filter_by_deployment_slot`. -/
def findVersion (tree : SlotTree) (latestRootSlot slot : Nat) (environment : Env)
    (loader : ProgramCacheEntryOwner) (criteria : ProgramCacheMatchCriteria) :
    Option Nat → List (ProgramCacheEntry Env) → Option (ProgramCacheEntry Env)
  | _, [] => none
  | filterByDeploymentSlot, entry :: rest =>
    if filterByDeploymentSlot.getD entry.deploymentSlot ≠ entry.deploymentSlot ∨
        loader ≠ entry.accountOwner then
      findVersion tree latestRootSlot slot environment loader criteria filterByDeploymentSlot rest
    else if !inSameBranch tree latestRootSlot slot entry.deploymentSlot then
      findVersion tree latestRootSlot slot environment loader criteria filterByDeploymentSlot rest
    else if entry.effectiveSlot ≤ slot then
      if !entry.matchesEnvironment environment then
        -- the current version has this deployment slot, so only another environment of it will do
        findVersion tree latestRootSlot slot environment loader criteria
          (filterByDeploymentSlot.or (some entry.deploymentSlot)) rest
      else if !entry.matchesCriteria criteria then none
      else
        match entry.program with
        | .unloaded _ => none
        | _ => some entry
    else if entry.isImplicitDelayVisibilityTombstone slot then
      some (.newTombstone entry.deploymentSlot entry.accountOwner .delayVisibility)
    else
      findVersion tree latestRootSlot slot environment loader criteria filterByDeploymentSlot rest

/-! ## Pruning the versions -/

/-- The first filter of `prune`, the newest version first.  `firstAncestor` is the environment of
    the first version found on the rooted branch. -/
def retainRooted (tree : SlotTree) (latestRootSlot newRootSlot : Nat) :
    Option (Option Env) → List (ProgramCacheEntry Env) → List (ProgramCacheEntry Env)
  | _, [] => []
  | firstAncestor, entry :: rest =>
    let relation := relationship tree entry.deploymentSlot newRootSlot
    if newRootSlot ≤ entry.deploymentSlot then
      if relation = .equal ∨ relation = .descendant then
        entry :: retainRooted tree latestRootSlot newRootSlot firstAncestor rest
      else retainRooted tree latestRootSlot newRootSlot firstAncestor rest
    else if relation = .ancestor ∨ entry.deploymentSlot ≤ latestRootSlot then
      match firstAncestor with
      | none =>
        entry :: retainRooted tree latestRootSlot newRootSlot
          (some entry.program.getEnvironment) rest
      | some firstEnv =>
        -- an older version is kept only for another environment
        match entry.program.getEnvironment, firstEnv with
        | some entryEnv, some env =>
          if entryEnv ≠ env then
            entry :: retainRooted tree latestRootSlot newRootSlot firstAncestor rest
          else retainRooted tree latestRootSlot newRootSlot firstAncestor rest
        | _, _ => retainRooted tree latestRootSlot newRootSlot firstAncestor rest
    else retainRooted tree latestRootSlot newRootSlot firstAncestor rest

/-- The second filter of `prune`. -/
def retainEnvironment (newEnvironment : Option Env) (versions : List (ProgramCacheEntry Env)) :
    List (ProgramCacheEntry Env) :=
  versions.filter fun entry =>
    match newEnvironment with
    | none => true
    | some environment => entry.matchesEnvironment environment

/-- `prune` on the versions of a program. -/
def pruneVersions (tree : SlotTree) (latestRootSlot newRootSlot : Nat)
    (newEnvironment : Option Env) (versions : List (ProgramCacheEntry Env)) :
    List (ProgramCacheEntry Env) :=
  (retainEnvironment newEnvironment
    (retainRooted tree latestRootSlot newRootSlot none versions.reverse)).reverse

/-! ## The cache -/

/-- `ProgramCache`.  A loading task belongs to the slot and the thread that began it. -/
structure ProgramCache (Env : Type) where
  entries : Pubkey → List (ProgramCacheEntry Env)
  loadingEntries : Pubkey → Option (Nat × Nat)
  latestRootSlot : Nat

/-- What `extract` makes of its arguments: the programs that are still missing, the entries of the
    batch, and the program the caller is to load. -/
structure Extraction (Env : Type) where
  searchFor : List ProgramToLoad
  entries : List (Pubkey × ProgramCacheEntry Env)
  loadingEntries : Pubkey → Option (Nat × Nat)
  cooperativeLoadingTask : Option Pubkey

namespace ProgramCache

/-- `ProgramCache::new`. -/
def new (rootSlot : Nat) : ProgramCache Env where
  entries := fun _ => []
  loadingEntries := fun _ => none
  latestRootSlot := rootSlot

variable (cache : ProgramCache Env) (programRuntimeEnvironment : Env)

def assignProgram (key : Pubkey) (entry : ProgramCacheEntry Env) : Bool × ProgramCache Env :=
  let assigned := assignVersion programRuntimeEnvironment (cache.entries key) entry
  (assigned.1, { cache with entries := Function.update cache.entries key assigned.2 })

def prune (tree : SlotTree) (newRootSlot : Nat) (newEnvironment : Option Env) :
    ProgramCache Env where
  entries := fun key =>
    pruneVersions tree cache.latestRootSlot newRootSlot newEnvironment (cache.entries key)
  loadingEntries := cache.loadingEntries
  latestRootSlot := newRootSlot

/-- A program that is searched for. -/
def find (tree : SlotTree) (slot : Nat) (environment : Env) (programToLoad : ProgramToLoad) :
    Option (ProgramCacheEntry Env) :=
  findVersion tree cache.latestRootSlot slot environment programToLoad.loader
    programToLoad.matchCriteria none (cache.entries programToLoad.programId).reverse

/-- One turn of the loop of `extract`. -/
def extractOne (tree : SlotTree) (slot thread : Nat) (environment : Env)
    (extraction : Extraction Env) (programToLoad : ProgramToLoad) : Extraction Env :=
  match cache.find tree slot environment programToLoad with
  | some entry =>
    { extraction with entries := extraction.entries ++ [(programToLoad.programId, entry)] }
  | none =>
    let extraction := { extraction with searchFor := extraction.searchFor ++ [programToLoad] }
    if extraction.cooperativeLoadingTask = none ∧
        extraction.loadingEntries programToLoad.programId = none then
      { extraction with
        loadingEntries :=
          Function.update extraction.loadingEntries programToLoad.programId (some (slot, thread))
        cooperativeLoadingTask := some programToLoad.programId }
    else extraction

def extract (tree : SlotTree) (slot thread : Nat) (environment : Env)
    (searchFor : List ProgramToLoad) : Extraction Env :=
  searchFor.foldl (cache.extractOne tree slot thread environment)
    { searchFor := []
      entries := []
      loadingEntries := cache.loadingEntries
      cooperativeLoadingTask := none }

/-- `finish_cooperative_loading_task`.  That the program is not visible to the fork that loaded it
    is only counted. -/
def finishCooperativeLoadingTask (key : Pubkey)
    (loadedProgram : ProgramCacheEntry Env) : Bool × ProgramCache Env :=
  ({ cache with
    loadingEntries := Function.update cache.loadingEntries key none }).assignProgram
      programRuntimeEnvironment key loadedProgram

def merge (modifiedEntries : List (Pubkey × ProgramCacheEntry Env)) : ProgramCache Env :=
  modifiedEntries.foldl
    (fun cache modified =>
      (cache.assignProgram programRuntimeEnvironment modified.1 modified.2).2) cache

end ProgramCache

end Agave.ProgramRuntime
