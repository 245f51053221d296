/-
  Agave.ProgramRuntime.ForkIsolation

  Which versions of a program a bank can see.

  At or below the latest root the search does not ask the fork graph.  This is right as long as the
  cache holds no version of an abandoned fork there (`Rooted`). Pruning removes them, and a bank
  that is on the rooted branch adds none.  A bank that is not may still finish a loading task it
  began before, or merge its modified entries, and then a version of its fork is seen by all.
-/

import Agave.ProgramRuntime.ProgramCache

namespace Agave.ProgramRuntime

open Agave.Lib List

variable {Env : Type} [DecidableEq Env] {tree : SlotTree}

/-! ## The fork graph -/

section

variable {a b : Nat}

theorem relationship_spec : (relationship tree a b = .equal ↔ a = b) ∧
    (relationship tree a b = .ancestor ↔ a ≠ b ∧ tree.Le a b) ∧
    (relationship tree a b = .equal ∨ relationship tree a b = .descendant ↔ tree.Le b a) := by
  unfold relationship
  by_cases heq : a = b
  · simp [heq, SlotTree.Le.refl]
  · by_cases hle : tree.Le a b
    · have hnot : ¬ tree.Le b a := fun hge => heq (Nat.le_antisymm hle.le hge.le)
      simp [heq, hle, hnot]
    · by_cases hge : tree.Le b a
      · simp [heq, hle, hge]
      · simp [heq, hle, hge]

theorem relationship_equal_iff : relationship tree a b = .equal ↔ a = b :=
  relationship_spec.1

theorem relationship_ancestor_iff : relationship tree a b = .ancestor ↔ a ≠ b ∧ tree.Le a b :=
  relationship_spec.2.1

theorem relationship_descends_iff :
    relationship tree a b = .equal ∨ relationship tree a b = .descendant ↔ tree.Le b a :=
  relationship_spec.2.2

end

variable {latestRootSlot slot newRootSlot : Nat} {environment : Env}

theorem inSameBranch_iff {deploymentSlot : Nat} :
    inSameBranch tree latestRootSlot slot deploymentSlot = true ↔
      deploymentSlot ≤ latestRootSlot ∨ tree.Le deploymentSlot slot := by
  unfold inSameBranch
  rw [Bool.or_eq_true, decide_eq_true_iff]
  refine or_congr_right ?_
  have hle : tree.Le deploymentSlot slot ↔ relationship tree deploymentSlot slot = .equal ∨
      relationship tree deploymentSlot slot = .ancestor := by
    rw [relationship_equal_iff, relationship_ancestor_iff]
    refine ⟨fun h => ?_, ?_⟩
    · by_cases heq : deploymentSlot = slot
      · exact .inl heq
      · exact .inr ⟨heq, h⟩
    · rintro (rfl | h)
      · exact .refl _
      · exact h.2
  rw [hle]
  cases relationship tree deploymentSlot slot <;> simp

/-! ## What the operations keep and add -/

variable {versions : List (ProgramCacheEntry Env)} {entry existing : ProgramCacheEntry Env}

theorem mem_assignVersion (h : existing ∈ (assignVersion environment versions entry).2) :
    existing ∈ versions ∨ existing = entry := by
  unfold assignVersion at h
  split at h
  · split at h
    · exact .inl h
    · split at h
      · exact mem_or_eq_of_mem_set (mem_of_mem_filter h)
      · exact .inl h
  · exact (eq_or_mem_of_mem_insertIdx (mem_of_mem_filter h)).symm

/-- The branch of the new root, as `prune` sees it. -/
def OnRootedBranch (tree : SlotTree) (latestRootSlot newRootSlot deploymentSlot : Nat) : Prop :=
  (newRootSlot ≤ deploymentSlot ∧ tree.Le newRootSlot deploymentSlot) ∨
    (deploymentSlot < newRootSlot ∧
      (tree.Le deploymentSlot newRootSlot ∨ deploymentSlot ≤ latestRootSlot))

instance (tree : SlotTree) (latestRootSlot newRootSlot deploymentSlot : Nat) :
    Decidable (OnRootedBranch tree latestRootSlot newRootSlot deploymentSlot) :=
  inferInstanceAs (Decidable (_ ∨ _))

/-- A version is for another environment than the first one below the new root. -/
def otherEnvironment (entry : ProgramCacheEntry Env) (firstEnv : Option Env) : Bool :=
  match entry.program.getEnvironment, firstEnv with
  | some entryEnv, some env => decide (entryEnv ≠ env)
  | _, _ => false

/-- A version on the branch of the new root is kept if it is not below the new root, or the first
    there, or for another environment than the first. -/
theorem retainRooted_cons (firstAncestor : Option (Option Env)) (entry : ProgramCacheEntry Env)
    (rest : List (ProgramCacheEntry Env)) :
    retainRooted tree latestRootSlot newRootSlot firstAncestor (entry :: rest) =
      if OnRootedBranch tree latestRootSlot newRootSlot entry.deploymentSlot then
        if newRootSlot ≤ entry.deploymentSlot ∨ firstAncestor.all (otherEnvironment entry) then
          entry :: retainRooted tree latestRootSlot newRootSlot
            (if newRootSlot ≤ entry.deploymentSlot then firstAncestor
              else firstAncestor.or (some entry.program.getEnvironment)) rest
        else retainRooted tree latestRootSlot newRootSlot firstAncestor rest
      else retainRooted tree latestRootSlot newRootSlot firstAncestor rest := by
  rw [retainRooted.eq_def]
  dsimp only
  by_cases hge : newRootSlot ≤ entry.deploymentSlot
  · simp only [relationship_descends_iff, OnRootedBranch, hge, Nat.not_lt.mpr hge]
    simp
  · have hancestor : relationship tree entry.deploymentSlot newRootSlot = .ancestor ↔
        tree.Le entry.deploymentSlot newRootSlot := by
      rw [relationship_ancestor_iff]
      exact and_iff_right (fun heq => hge heq.ge)
    simp only [hancestor, OnRootedBranch, hge, Nat.not_le.mp hge]
    cases firstAncestor with
    | none => simp
    | some firstEnv =>
      unfold otherEnvironment
      cases entry.program.getEnvironment <;> cases firstEnv <;> simp

theorem mem_retainRooted {firstAncestor : Option (Option Env)}
    (h : entry ∈ retainRooted tree latestRootSlot newRootSlot firstAncestor versions) :
    entry ∈ versions ∧ OnRootedBranch tree latestRootSlot newRootSlot entry.deploymentSlot := by
  induction versions generalizing firstAncestor with
  | nil => cases h
  | cons first rest ih =>
    have hrest : ∀ {firstAncestor : Option (Option Env)},
        entry ∈ retainRooted tree latestRootSlot newRootSlot firstAncestor rest →
        entry ∈ first :: rest ∧
          OnRootedBranch tree latestRootSlot newRootSlot entry.deploymentSlot :=
      fun hmem => ⟨mem_cons_of_mem first (ih hmem).1, (ih hmem).2⟩
    rw [retainRooted_cons] at h
    split at h
    · next hbranch =>
        split at h
        · rcases mem_cons.mp h with rfl | hmem
          · exact ⟨mem_cons_self, hbranch⟩
          · exact hrest hmem
        · exact hrest h
    · exact hrest h

theorem mem_pruneVersions {newEnvironment : Option Env}
    (h : entry ∈ pruneVersions tree latestRootSlot newRootSlot newEnvironment versions) :
    entry ∈ versions ∧ OnRootedBranch tree latestRootSlot newRootSlot entry.deploymentSlot := by
  rw [pruneVersions, mem_reverse] at h
  obtain ⟨hmem, hbranch⟩ := mem_retainRooted (mem_of_mem_filter h)
  exact ⟨mem_reverse.mp hmem, hbranch⟩

/-- The version that is found, or the tombstone made of it, is on the branch as the search sees
    it. -/
theorem findVersion_inSameBranch {loader : ProgramCacheEntryOwner}
    {criteria : ProgramCacheMatchCriteria} {filter : Option Nat}
    (h : findVersion tree latestRootSlot slot environment loader criteria filter versions =
      some entry) :
    ∃ existing ∈ versions, existing.deploymentSlot = entry.deploymentSlot ∧
      inSameBranch tree latestRootSlot slot entry.deploymentSlot = true := by
  induction versions generalizing filter with
  | nil => cases h
  | cons first rest ih =>
    have hrest : ∀ {filter : Option Nat},
        findVersion tree latestRootSlot slot environment loader criteria filter rest =
          some entry →
        ∃ existing ∈ first :: rest, existing.deploymentSlot = entry.deploymentSlot ∧
          inSameBranch tree latestRootSlot slot entry.deploymentSlot = true := by
      intro filter hfound
      obtain ⟨existing, hmem, hslot⟩ := ih hfound
      exact ⟨existing, mem_cons_of_mem first hmem, hslot⟩
    rw [findVersion] at h
    split at h
    · exact hrest h
    split at h
    · exact hrest h
    next hbranch =>
      have hbranch' : inSameBranch tree latestRootSlot slot first.deploymentSlot = true := by
        simpa using hbranch
      split at h
      · split at h
        · exact hrest h
        split at h
        · cases h
        split at h
        · cases h
        · obtain rfl := Option.some.inj h
          exact ⟨first, mem_cons_self, rfl, hbranch'⟩
      · split at h
        · obtain rfl := Option.some.inj h
          exact ⟨first, mem_cons_self, rfl, hbranch'⟩
        · exact hrest h

/-- The loop of `extract`: what is not found stays to be searched for, the rest is put into the
    batch. -/
theorem foldl_extractOne (cache : ProgramCache Env) (tree : SlotTree) (slot thread : Nat)
    (environment : Env) (searchFor : List ProgramToLoad) (extraction : Extraction Env) :
    let find := cache.find tree slot environment
    let extracted := searchFor.foldl (cache.extractOne tree slot thread environment) extraction
    extracted.searchFor = extraction.searchFor ++ searchFor.filter (fun p => (find p).isNone) ∧
      extracted.entries = extraction.entries ++
        searchFor.filterMap (fun p => (find p).map (Prod.mk p.programId)) := by
  induction searchFor generalizing extraction with
  | nil => simp
  | cons programToLoad rest ih =>
    have hone := ih (cache.extractOne tree slot thread environment extraction programToLoad)
    dsimp only at hone ⊢
    rw [foldl_cons, hone.1, hone.2, ProgramCache.extractOne]
    cases hfind : cache.find tree slot environment programToLoad with
    | some entry => simp [hfind]
    | none =>
      dsimp only
      split <;> simp [hfind]

theorem mem_extract_entries {cache : ProgramCache Env} {thread : Nat}
    {searchFor : List ProgramToLoad} {key : Pubkey}
    (h : (key, entry) ∈ (cache.extract tree slot thread environment searchFor).entries) :
    ∃ programToLoad ∈ searchFor, cache.find tree slot environment programToLoad = some entry := by
  rw [ProgramCache.extract, (foldl_extractOne ..).2, nil_append] at h
  obtain ⟨programToLoad, hmem, hfind⟩ := mem_filterMap.mp h
  obtain ⟨found, hfound, heq⟩ := Option.map_eq_some_iff.mp hfind
  cases heq
  exact ⟨programToLoad, hmem, hfound⟩

/-! ## Runs -/

/-- What banks do with the cache. -/
inductive CacheOp (Env : Type) where
  | extract (slot thread : Nat) (environment : Env) (searchFor : List ProgramToLoad)
  | finish (slot : Nat) (environment : Env) (key : Pubkey) (loadedProgram : ProgramCacheEntry Env)
  | merge (slot : Nat) (environment : Env)
      (modifiedEntries : List (Pubkey × ProgramCacheEntry Env))
  | prune (newRootSlot : Nat) (newEnvironment : Option Env)

namespace CacheOp

variable (tree : SlotTree) (cache : ProgramCache Env)

/-- One operation. -/
def apply : CacheOp Env → ProgramCache Env
  | extract slot thread environment searchFor =>
    { cache with
      loadingEntries := (cache.extract tree slot thread environment searchFor).loadingEntries }
  | finish _ environment key loadedProgram =>
    (cache.finishCooperativeLoadingTask environment key loadedProgram).2
  | merge _ environment modifiedEntries => cache.merge environment modifiedEntries
  | prune newRootSlot newEnvironment => cache.prune tree newRootSlot newEnvironment

/-- A bank loads a program that was deployed on its branch, merges entries of its own slot, and the
    root moves along a branch. -/
def Valid : CacheOp Env → Prop
  | extract _ _ _ _ => True
  | finish slot _ _ loadedProgram => tree.Le loadedProgram.deploymentSlot slot
  | merge slot _ modifiedEntries =>
    ∀ modified ∈ modifiedEntries, modified.2.deploymentSlot = slot
  | prune newRootSlot _ => tree.Le cache.latestRootSlot newRootSlot

/-- A bank that puts something into the cache is at the latest root, or descends from it. -/
def Live : CacheOp Env → Prop
  | extract _ _ _ _ => True
  | finish slot _ _ _ => tree.Le cache.latestRootSlot slot
  | merge slot _ _ => tree.Le cache.latestRootSlot slot
  | prune _ _ => True

end CacheOp

/-- The caches that banks arrive at, with operations of which `allowed` holds. -/
inductive CacheReached (tree : SlotTree) (allowed : ProgramCache Env → CacheOp Env → Prop) :
    ProgramCache Env → Prop where
  | new (rootSlot : Nat) : CacheReached tree allowed (.new rootSlot)
  | step {cache : ProgramCache Env} (h : CacheReached tree allowed cache) {op : CacheOp Env}
      (hvalid : op.Valid tree cache) (hallowed : allowed cache op) :
      CacheReached tree allowed (op.apply tree cache)

/-- Every version at or below the latest root is on its branch. -/
def Rooted (tree : SlotTree) (cache : ProgramCache Env) : Prop :=
  ∀ key, ∀ entry ∈ cache.entries key, entry.deploymentSlot ≤ cache.latestRootSlot →
    tree.Le entry.deploymentSlot cache.latestRootSlot

variable {cache : ProgramCache Env}

section

variable (h : Rooted tree cache)
include h

/-- A version of the branch of a live bank. -/
theorem Rooted.assignProgram (hlive : tree.Le cache.latestRootSlot slot)
    (hbranch : tree.Le entry.deploymentSlot slot) (environment : Env) (key : Pubkey) :
    Rooted tree (cache.assignProgram environment key entry).2 := by
  intro key' existing hmem hle
  by_cases hkey : key' = key
  · subst hkey
    have hmem' : existing ∈ (assignVersion environment (cache.entries key') entry).2 := by
      simpa [ProgramCache.assignProgram] using hmem
    rcases mem_assignVersion hmem' with hold | rfl
    · exact h key' existing hold hle
    · exact hbranch.of_le hlive hle
  · have hmem' : existing ∈ cache.entries key' := by
      simpa [ProgramCache.assignProgram, Function.update_of_ne hkey] using hmem
    exact h key' existing hmem' hle

theorem Rooted.merge (hlive : tree.Le cache.latestRootSlot slot)
    (environment : Env) {modifiedEntries : List (Pubkey × ProgramCacheEntry Env)}
    (hslot : ∀ modified ∈ modifiedEntries, modified.2.deploymentSlot = slot) :
    Rooted tree (cache.merge environment modifiedEntries) := by
  unfold ProgramCache.merge
  induction modifiedEntries generalizing cache with
  | nil => exact h
  | cons modified rest ih =>
    have hfirst : tree.Le modified.2.deploymentSlot slot := by
      rw [hslot modified mem_cons_self]
      exact .refl slot
    exact ih (h.assignProgram hlive hfirst environment modified.1) hlive
      (fun m hm => hslot m (mem_cons_of_mem modified hm))

theorem Rooted.prune (hroot : tree.Le cache.latestRootSlot newRootSlot)
    (newEnvironment : Option Env) : Rooted tree (cache.prune tree newRootSlot newEnvironment) := by
  intro key entry hmem hle
  obtain ⟨hold, hbranch⟩ := mem_pruneVersions hmem
  have hle' : entry.deploymentSlot ≤ newRootSlot := hle
  show tree.Le entry.deploymentSlot newRootSlot
  rcases hbranch with ⟨hge, -⟩ | ⟨-, hancestor | hrooted⟩
  · rw [Nat.le_antisymm hle' hge]
    exact .refl _
  · exact hancestor
  · exact (h key entry hold hrooted).trans hroot

theorem Rooted.apply {op : CacheOp Env} (hvalid : op.Valid tree cache)
    (hlive : op.Live tree cache) : Rooted tree (op.apply tree cache) := by
  cases op with
  | extract slot thread environment searchFor => exact h
  | finish slot environment key loadedProgram =>
    have hcleared : Rooted tree
        { cache with loadingEntries := Function.update cache.loadingEntries key none } := h
    exact hcleared.assignProgram hlive hvalid environment key
  | merge slot environment modifiedEntries => exact h.merge hlive environment hvalid
  | prune newRootSlot newEnvironment => exact h.prune hvalid newEnvironment

end

theorem CacheReached.rooted (h : CacheReached tree (CacheOp.Live tree) cache) :
    Rooted tree cache := by
  induction h with
  | new rootSlot =>
    intro key entry hmem
    cases hmem
  | step _ hvalid hlive ih => exact ih.apply hvalid hlive

/-- Programs do not leak between forks: a bank at the latest root, or descending from it, extracts
    only versions of its own branch, as long as the banks that put versions into the cache were at
    the latest root, or descended from it, when they did. -/
theorem extract_on_branch (h : CacheReached tree (CacheOp.Live tree) cache) {slot : Nat}
    (hslot : tree.Le cache.latestRootSlot slot) (thread : Nat) (environment : Env)
    (searchFor : List ProgramToLoad) :
    ∀ found ∈ (cache.extract tree slot thread environment searchFor).entries,
      tree.Le found.2.deploymentSlot slot := by
  rintro ⟨key, entry⟩ hfound
  obtain ⟨programToLoad, -, hfind⟩ := mem_extract_entries hfound
  obtain ⟨existing, hmem, heq, hbranch⟩ := findVersion_inSameBranch hfind
  rcases inSameBranch_iff.mp hbranch with hle | hle
  · have hrooted := h.rooted programToLoad.programId existing (mem_reverse.mp hmem)
    rw [heq] at hrooted
    exact (hrooted hle).trans hslot
  · exact hle

/-- Slots 1 and 2 fork off slot 0, and slot 3 follows slot 1. -/
def forkedTree : SlotTree where
  parent := fun slot =>
    if slot = 1 then some 0 else if slot = 2 then some 0 else if slot = 3 then some 1 else none
  parent_lt := by
    intro slot p h
    grind

/-- A program of loader v3. -/
def someProgram : ProgramToLoad := ⟨7, .loaderV3, .noCriteria⟩

/-- A version of it. -/
def someVersion (deploymentSlot : Nat) : ProgramCacheEntry Unit :=
  ⟨.loaded (), .loaderV3, deploymentSlot, deploymentSlot + 1⟩

/-- Both forks load a version of their own.  The bank of slot 3 extracts the one of slot 1, also
    when the root has moved there and the other one is pruned. -/
theorem extract_on_branch_own_version :
    let loaded : ProgramCache Unit := (CacheOp.finish 3 () 7 (someVersion 1)).apply forkedTree
      ((CacheOp.finish 2 () 7 (someVersion 2)).apply forkedTree (.new 0))
    let pruned : ProgramCache Unit := (CacheOp.prune 1 none).apply forkedTree loaded
    loaded.entries 7 = [someVersion 1, someVersion 2] ∧ pruned.entries 7 = [someVersion 1] ∧
      (∃ found ∈ (loaded.extract forkedTree 3 0 () [someProgram]).entries,
        found.2 = someVersion 1 ∧ forkedTree.Le found.2.deploymentSlot 3) ∧
      ∃ found ∈ (pruned.extract forkedTree 3 0 () [someProgram]).entries,
        found.2 = someVersion 1 ∧ forkedTree.Le found.2.deploymentSlot 3 := by
  intro loaded pruned
  have hother : CacheReached forkedTree (CacheOp.Live forkedTree)
      ((CacheOp.finish 2 () 7 (someVersion 2)).apply forkedTree (.new 0)) :=
    .step (.new 0) (show forkedTree.Le 2 2 by decide) (show forkedTree.Le 0 2 by decide)
  have hloaded : CacheReached forkedTree (CacheOp.Live forkedTree) loaded :=
    .step hother (show forkedTree.Le 1 3 by decide) (show forkedTree.Le 0 3 by decide)
  have hpruned : CacheReached forkedTree (CacheOp.Live forkedTree) pruned :=
    .step hloaded (show forkedTree.Le 0 1 by decide) True.intro
  have hfound : ((7 : Pubkey), someVersion 1) ∈
      (loaded.extract forkedTree 3 0 () [someProgram]).entries := by
    decide +kernel
  have hfound' : ((7 : Pubkey), someVersion 1) ∈
      (pruned.extract forkedTree 3 0 () [someProgram]).entries := by
    decide +kernel
  refine ⟨by decide +kernel, by decide +kernel, ⟨_, hfound, rfl, ?_⟩, _, hfound', rfl, ?_⟩
  · exact extract_on_branch hloaded (show forkedTree.Le 0 3 by decide) 0 () [someProgram] _ hfound
  · exact extract_on_branch hpruned (show forkedTree.Le 1 3 by decide) 0 () [someProgram] _ hfound'

/-- The bank of slot 2 begins to load a program, the root moves to slot 3, and the bank finishes
    with the version of its own slot: the bank of slot 3 extracts it. -/
theorem extract_from_abandoned_fork :
    ∃ cache : ProgramCache Unit, CacheReached forkedTree (fun _ _ => True) cache ∧
      forkedTree.Le cache.latestRootSlot 3 ∧
      ∃ found ∈ (cache.extract forkedTree 3 0 () [someProgram]).entries,
        ¬ forkedTree.Le found.2.deploymentSlot 3 := by
  let begun : ProgramCache Unit := (CacheOp.extract 2 0 () [someProgram]).apply forkedTree (.new 0)
  let pruned : ProgramCache Unit := (CacheOp.prune 3 none).apply forkedTree begun
  let finished : ProgramCache Unit :=
    (CacheOp.finish 2 () 7 (someVersion 2)).apply forkedTree pruned
  have hbegun : CacheReached forkedTree (fun _ _ => True) begun :=
    .step (.new 0) True.intro True.intro
  have hpruned : CacheReached forkedTree (fun _ _ => True) pruned :=
    .step hbegun (show forkedTree.Le 0 3 by decide) True.intro
  have hfinished : CacheReached forkedTree (fun _ _ => True) finished :=
    .step hpruned (show forkedTree.Le 2 2 by decide) True.intro
  have hfound : ((7 : Pubkey), someVersion 2) ∈
      (finished.extract forkedTree 3 0 () [someProgram]).entries := by
    decide +kernel
  exact ⟨finished, hfinished, show forkedTree.Le 3 3 by decide, _, hfound,
    show ¬ forkedTree.Le 2 3 by decide⟩

end Agave.ProgramRuntime

