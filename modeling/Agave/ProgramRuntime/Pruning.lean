/-
  Agave.ProgramRuntime.Pruning

  Whether a bank notices that the cache was pruned.

  The search ends at the newest version on the branch of the bank, or goes on to the other
  environments of its deployment slot.  The first filter of `prune` keeps exactly these, for every
  bank at or above the new root.  The second one removes the versions of other environments, and
  with them the knowledge that there is a newer deployment: then an older deployment may be found
  that was hidden before (`pruned_finds_older_deployment`).  `extract_prune` says when.
-/

import Agave.ProgramRuntime.ForkIsolation
import Mathlib.Data.List.Find
import Mathlib.Data.List.Pairwise

namespace Agave.ProgramRuntime

open Agave.Lib List

variable {Env : Type} [DecidableEq Env] {tree : SlotTree}
  {latestRootSlot newRootSlot slot : Nat} {environment : Env}
  {loader : ProgramCacheEntryOwner} {criteria : ProgramCacheMatchCriteria}
  {versions rest : List (ProgramCacheEntry Env)} {entry newest : ProgramCacheEntry Env}
  {newEnvironment : Option Env} {filter : Option Nat}

/-! ## The search -/

/-- The versions on the branch of a bank. -/
def branch (tree : SlotTree) (latestRootSlot slot : Nat) (versions : List (ProgramCacheEntry Env)) :
    List (ProgramCacheEntry Env) :=
  versions.filter (fun e => inSameBranch tree latestRootSlot slot e.deploymentSlot)

/-- A version that meets the criteria and is not unloaded. -/
def usable (criteria : ProgramCacheMatchCriteria) (entry : ProgramCacheEntry Env) : Bool :=
  entry.matchesCriteria criteria &&
    match entry.program with
    | .unloaded _ => false
    | _ => true

/-- What the search makes of the version that it ends at. -/
def found (slot : Nat) (criteria : ProgramCacheMatchCriteria) (entry : ProgramCacheEntry Env) :
    Option (ProgramCacheEntry Env) :=
  if entry.effectiveSlot ≤ slot then
    if usable criteria entry then some entry else none
  else some (.newTombstone entry.deploymentSlot entry.accountOwner .delayVisibility)

/-- A version of the deployment, for the environment. -/
def ofDeployment (deploymentSlot : Nat) (environment : Env) (entry : ProgramCacheEntry Env) :
    Bool :=
  decide (entry.deploymentSlot = deploymentSlot) && entry.matchesEnvironment environment

/-- A version on the branch is effective, or stands for a tombstone. -/
def Visible (slot : Nat) (entry : ProgramCacheEntry Env) : Prop :=
  entry.effectiveSlot ≤ slot ∨ entry.isImplicitDelayVisibilityTombstone slot = true

/-- Versions of other branches are passed over. -/
theorem findVersion_branch :
    findVersion tree latestRootSlot slot environment loader criteria filter
        (branch tree latestRootSlot slot versions) =
      findVersion tree latestRootSlot slot environment loader criteria filter versions := by
  unfold branch
  induction versions generalizing filter with
  | nil => rfl
  | cons e l ih =>
    cases hin : inSameBranch tree latestRootSlot slot e.deploymentSlot with
    | true => rw [filter_cons_of_pos (by exact hin), findVersion, findVersion, ih, ih]
    | false => simp [findVersion, hin, ih]

/-- The search ends at an effective version for the environment. -/
theorem findVersion_found (hfilter : filter.getD entry.deploymentSlot = entry.deploymentSlot)
    (hbranch : inSameBranch tree latestRootSlot slot entry.deploymentSlot = true)
    (hloader : loader = entry.accountOwner) (heffective : entry.effectiveSlot ≤ slot)
    (hmatch : entry.matchesEnvironment environment = true) :
    findVersion tree latestRootSlot slot environment loader criteria filter (entry :: rest) =
      found slot criteria entry := by
  cases hcriteria : entry.matchesCriteria criteria <;> cases hprogram : entry.program <;>
    simp [findVersion, found, usable, hfilter, hbranch, hloader, heffective, hmatch, hcriteria,
      hprogram]

/-- Among effective versions for a deployment slot, the search goes for the environment. -/
theorem findVersion_deployment {deploymentSlot : Nat}
    (hbranch : inSameBranch tree latestRootSlot slot deploymentSlot = true)
    (hversions : ∀ e ∈ versions, e.deploymentSlot = deploymentSlot →
      loader = e.accountOwner ∧ e.effectiveSlot ≤ slot) :
    findVersion tree latestRootSlot slot environment loader criteria (some deploymentSlot)
        versions =
      (versions.find? (ofDeployment deploymentSlot environment)).bind (found slot criteria) := by
  induction versions with
  | nil => rfl
  | cons e l ih =>
    obtain ⟨he, hl⟩ := forall_mem_cons.mp hversions
    rw [find?_cons]
    by_cases hdeployment : e.deploymentSlot = deploymentSlot
    · obtain ⟨hloader, heffective⟩ := he hdeployment
      subst hdeployment
      cases hmatch : e.matchesEnvironment environment with
      | true =>
        rw [findVersion_found rfl hbranch hloader heffective hmatch]
        simp [ofDeployment, hmatch]
      | false =>
        simp [findVersion, ofDeployment, hbranch, heffective, hmatch, ← hloader, ih hl]
    · simp [findVersion, ofDeployment, hdeployment, Ne.symm hdeployment, ih hl]

/-- Among versions for the environment, the search ends at the first one of the loader. -/
theorem findVersion_environment
    (hversions : ∀ e ∈ versions, e.matchesEnvironment environment = true ∧ Visible slot e ∧
      inSameBranch tree latestRootSlot slot e.deploymentSlot = true) :
    findVersion tree latestRootSlot slot environment loader criteria none versions =
      (versions.find? (fun e => decide (loader = e.accountOwner))).bind (found slot criteria) := by
  induction versions with
  | nil => rfl
  | cons e l ih =>
    obtain ⟨⟨hmatch, hvisible, hbranch⟩, hl⟩ := forall_mem_cons.mp hversions
    by_cases hloader : loader = e.accountOwner
    · rw [find?_cons_of_pos (by simpa using hloader), Option.bind_some]
      by_cases heffective : e.effectiveSlot ≤ slot
      · exact findVersion_found rfl hbranch hloader heffective hmatch
      · have htombstone := hvisible.resolve_left heffective
        simp [findVersion, found, hbranch, hloader, heffective, htombstone]
    · rw [findVersion, find?_cons, if_pos (.inr hloader), ih hl]
      simp [hloader]

/-! ## The first filter -/

/-- The first version below the new root. -/
def firstBelow (newRootSlot : Nat) (versions : List (ProgramCacheEntry Env)) :
    Option (ProgramCacheEntry Env) :=
  versions.find? (fun e => decide (e.deploymentSlot < newRootSlot))

/-- The versions on the branch that pruning leaves: those from the new root on, the first one below
    it, and those below it for another environment than that one. -/
def survives (newRootSlot : Nat) (below : Option (ProgramCacheEntry Env))
    (entry : ProgramCacheEntry Env) : Bool :=
  decide (newRootSlot ≤ entry.deploymentSlot) || decide (below = some entry) ||
    below.any (fun first => otherEnvironment entry first.program.getEnvironment)

/-- The branch of the new root. -/
def rooted (tree : SlotTree) (latestRootSlot newRootSlot : Nat)
    (versions : List (ProgramCacheEntry Env)) : List (ProgramCacheEntry Env) :=
  versions.filter (fun e =>
    decide (OnRootedBranch tree latestRootSlot newRootSlot e.deploymentSlot))

/-- What is left behind the first version below the new root. -/
theorem retainRooted_some (firstEnv : Option Env) (versions : List (ProgramCacheEntry Env)) :
    retainRooted tree latestRootSlot newRootSlot (some firstEnv) versions =
      (rooted tree latestRootSlot newRootSlot versions).filter (fun e =>
        decide (newRootSlot ≤ e.deploymentSlot) || otherEnvironment e firstEnv) := by
  unfold rooted
  induction versions with
  | nil => rfl
  | cons e l ih =>
    by_cases hrooted : OnRootedBranch tree latestRootSlot newRootSlot e.deploymentSlot
    · rw [retainRooted_cons, if_pos hrooted, filter_cons_of_pos (by simpa using hrooted),
        filter_cons, Option.all_some, Option.some_or, ite_self, ih]
      simp
    · rw [retainRooted_cons, if_neg hrooted, filter_cons_of_neg (by simpa using hrooted), ih]

theorem retainRooted_none (hdistinct : versions.Pairwise (· ≠ ·)) :
    retainRooted tree latestRootSlot newRootSlot none versions =
      (rooted tree latestRootSlot newRootSlot versions).filter (survives newRootSlot
        (firstBelow newRootSlot (rooted tree latestRootSlot newRootSlot versions))) := by
  induction versions with
  | nil => rfl
  | cons e l ih =>
    obtain ⟨hfirst, hdistinct⟩ := pairwise_cons.mp hdistinct
    rw [retainRooted_cons]
    by_cases hrooted : OnRootedBranch tree latestRootSlot newRootSlot e.deploymentSlot
    · have hcons : rooted tree latestRootSlot newRootSlot (e :: l) =
          e :: rooted tree latestRootSlot newRootSlot l :=
        filter_cons_of_pos (by simpa using hrooted)
      rw [if_pos hrooted, if_pos (.inr rfl), hcons, firstBelow, find?_cons]
      by_cases hge : newRootSlot ≤ e.deploymentSlot
      · rw [if_pos hge, ih hdistinct, filter_cons_of_pos (by simp [survives, hge])]
        simp [Nat.not_lt.mpr hge, firstBelow]
      · rw [if_neg hge, Option.none_or, retainRooted_some, decide_eq_true (Nat.not_le.mp hge),
          filter_cons_of_pos (by simp [survives])]
        congr 1
        refine filter_congr fun e' he' => ?_
        simp [survives, hfirst e' (mem_of_mem_filter he')]
    · rw [if_neg hrooted, ih hdistinct, rooted, rooted, filter_cons_of_neg (by simpa using hrooted)]

section Retained

variable (hroot : tree.Le latestRootSlot newRootSlot) (hslot : tree.Le newRootSlot slot)
include hroot hslot

/-- Of the branch of the new root, the bank sees what it saw before. -/
theorem inSameBranch_iff_newRoot {deploymentSlot : Nat} :
    inSameBranch tree latestRootSlot slot deploymentSlot = true ↔
      OnRootedBranch tree latestRootSlot newRootSlot deploymentSlot ∧
        inSameBranch tree newRootSlot slot deploymentSlot = true := by
  rw [inSameBranch_iff, inSameBranch_iff]
  constructor
  · intro h
    rcases Nat.lt_or_ge deploymentSlot newRootSlot with hlt | hge
    · refine ⟨.inr ⟨hlt, ?_⟩, .inl (Nat.le_of_lt hlt)⟩
      exact h.symm.imp_left (fun hle => hle.of_le hslot (Nat.le_of_lt hlt))
    · rcases h with hle | hle
      · rw [Nat.le_antisymm (Nat.le_trans hle hroot.le) hge]
        exact ⟨.inl ⟨Nat.le_refl _, .refl _⟩, .inr hslot⟩
      · exact ⟨.inl ⟨hge, hslot.of_le hle hge⟩, .inr hle⟩
  · rintro ⟨⟨hge, -⟩ | ⟨-, hle | hle⟩, hbranch⟩
    · rcases hbranch with hle | hle
      · rw [Nat.le_antisymm hle hge]
        exact .inr hslot
      · exact .inr hle
    · exact .inr (hle.trans hslot)
    · exact .inl hle

theorem branch_retainRooted (hdistinct : versions.Pairwise (· ≠ ·)) :
    branch tree newRootSlot slot (retainRooted tree latestRootSlot newRootSlot none versions) =
      (branch tree latestRootSlot slot versions).filter (survives newRootSlot
        (firstBelow newRootSlot (branch tree latestRootSlot slot versions))) := by
  have hbranch : branch tree newRootSlot slot (rooted tree latestRootSlot newRootSlot versions) =
      branch tree latestRootSlot slot versions := by
    rw [branch, rooted, filter_filter]
    refine filter_congr fun e _ => ?_
    rw [Bool.eq_iff_iff, inSameBranch_iff_newRoot hroot hslot]
    simp [and_comm]
  have hbelow : firstBelow newRootSlot (rooted tree latestRootSlot newRootSlot versions) =
      firstBelow newRootSlot (branch tree latestRootSlot slot versions) := by
    rw [← hbranch, firstBelow, firstBelow, branch, find?_filter]
    refine find?_congr fun e _ => ?_
    by_cases hlt : e.deploymentSlot < newRootSlot
    · simp [hlt, inSameBranch_iff, Nat.le_of_lt hlt]
    · simp [hlt]
  rw [retainRooted_none hdistinct, hbelow, ← hbranch, branch, filter_comm]
  rfl

end Retained

/-! ## The cache -/

/-- No environment has both of the versions of a deployment slot.  A version without an environment
    is for all of them. -/
def OneEach (a b : ProgramCacheEntry Env) : Prop :=
  a.deploymentSlot = b.deploymentSlot → ∀ environment,
    ¬ (a.matchesEnvironment environment = true ∧ b.matchesEnvironment environment = true)

instance : Std.Symm (@OneEach Env _) :=
  ⟨fun _ _ h heq environment hboth => h heq.symm environment hboth.symm⟩

/-- The order of the versions. -/
def Precedes (a b : ProgramCacheEntry Env) : Prop :=
  a.effectiveSlot < b.effectiveSlot ∨
    a.effectiveSlot = b.effectiveSlot ∧ a.deploymentSlot ≤ b.deploymentSlot

/-- A version is effective in its deployment slot or, unless it is a builtin, in the next one. -/
def EffectiveSoon (entry : ProgramCacheEntry Env) : Prop :=
  entry.effectiveSlot = entry.deploymentSlot ∨
    (entry.effectiveSlot = entry.deploymentSlot + 1 ∧ entry.program ≠ .builtin)

/-- The versions of a program as `assign_program` leaves them: sorted, with at most one for each
    deployment slot and environment, and with one owner for a deployment slot. -/
structure VersionsOk (versions : List (ProgramCacheEntry Env)) : Prop where
  sorted : versions.Pairwise Precedes
  oneEach : versions.Pairwise OneEach
  oneOwner : ∀ a ∈ versions, ∀ b ∈ versions, a.deploymentSlot = b.deploymentSlot →
    a.accountOwner = b.accountOwner
  effectiveSoon : ∀ e ∈ versions, EffectiveSoon e

omit [DecidableEq Env] in
theorem visible_of_branch (hroot : latestRootSlot ≤ slot)
    (hbranch : inSameBranch tree latestRootSlot slot entry.deploymentSlot = true)
    (heffective : EffectiveSoon entry) : Visible slot entry := by
  have hle : entry.deploymentSlot ≤ slot := by
    rcases inSameBranch_iff.mp hbranch with hle | hle
    · exact Nat.le_trans hle hroot
    · exact hle.le
  rcases heffective with heq | ⟨heq, hprogram⟩
  · exact .inl (heq ▸ hle)
  · rcases Nat.lt_or_ge slot entry.effectiveSlot with hlt | hge
    · right
      have hoffset : entry.effectiveSlot - entry.deploymentSlot = delayVisibilitySlotOffset := by
        rw [heq, Nat.add_sub_cancel_left]
        rfl
      simp only [ProgramCacheEntry.isImplicitDelayVisibilityTombstone, hoffset, hle, hlt,
        decide_true, Bool.and_true]
    · exact .inl hge

/-- The versions of a program on the branch of a bank, the newest first. -/
def ProgramCache.onBranch (cache : ProgramCache Env) (tree : SlotTree) (slot : Nat) (key : Pubkey) :
    List (ProgramCacheEntry Env) :=
  branch tree cache.latestRootSlot slot (cache.entries key).reverse

/-- The first of the versions for the environment that pruning leaves. -/
def firstLeft (newRootSlot : Nat) (environment : Env) (loader : ProgramCacheEntryOwner)
    (versions : List (ProgramCacheEntry Env)) : Option (ProgramCacheEntry Env) :=
  versions.find? (fun e => survives newRootSlot (firstBelow newRootSlot versions) e &&
    e.matchesEnvironment environment && decide (loader = e.accountOwner))

/-- Nothing is lost with the versions of other environments: there is a version of the newest
    deployment for the environment that is effective just when the newest one is, or the newest one
    is effective and the first version that is left cannot be used. -/
def Unnoticed (newRootSlot slot : Nat) (environment : Env) (programToLoad : ProgramToLoad)
    (versions : List (ProgramCacheEntry Env)) : Prop :=
  ∀ newest ∈ versions.head?,
    (∃ e ∈ versions, e.deploymentSlot = newest.deploymentSlot ∧
      e.matchesEnvironment environment = true ∧
      (e.effectiveSlot ≤ slot ↔ newest.effectiveSlot ≤ slot)) ∨
    (newest.effectiveSlot ≤ slot ∧
      ∀ left ∈ firstLeft newRootSlot environment programToLoad.loader versions,
        usable programToLoad.matchCriteria left = false)

/-- Two versions of a deployment are for different environments. -/
theorem OneEach.otherEnvironment {a b : ProgramCacheEntry Env} (h : OneEach a b)
    (heq : a.deploymentSlot = b.deploymentSlot) (environment : Env) :
    otherEnvironment b a.program.getEnvironment = true := by
  have hnot := h heq
  unfold ProgramCacheEntry.matchesEnvironment at hnot
  unfold ProgramRuntime.otherEnvironment
  cases ha : a.program.getEnvironment with
  | none =>
    cases hb : b.program.getEnvironment with
    | none => simpa [ha, hb] using hnot environment
    | some env => simpa [ha, hb] using hnot env
  | some env =>
    cases hb : b.program.getEnvironment with
    | none => simpa [ha, hb] using hnot env
    | some _ => simpa [ha, hb] using hnot env

/-- What is found first comes before all that could have been found. -/
theorem eq_or_rel_of_find? {α : Type _} {R : α → α → Prop} {p : α → Bool} {l : List α} {a b : α}
    (hl : l.Pairwise R) (ha : l.find? p = some a) (hb : b ∈ l) (hp : p b = true) :
    b = a ∨ R a b := by
  obtain ⟨-, ahead, behind, rfl, hahead⟩ := find?_eq_some_iff_append.mp ha
  rcases mem_append.mp hb with hb | hb
  · simpa [hp] using hahead b hb
  · rcases mem_cons.mp hb with rfl | hb
    · exact .inl rfl
    · exact .inr ((pairwise_cons.mp (pairwise_append.mp hl).2.1).1 b hb)

/-- What is known of the versions on the branch of a bank, the newest first. -/
structure BranchOk (slot : Nat) (loader : ProgramCacheEntryOwner) (newest : ProgramCacheEntry Env)
    (rest : List (ProgramCacheEntry Env)) : Prop where
  sorted : (newest :: rest).Pairwise (fun a b => Precedes b a)
  oneEach : (newest :: rest).Pairwise OneEach
  owner : ∀ e ∈ newest :: rest, e.deploymentSlot = newest.deploymentSlot → loader = e.accountOwner
  effectiveSoon : ∀ e ∈ newest :: rest, EffectiveSoon e

namespace BranchOk

section

variable (h : BranchOk slot loader newest rest) {e : ProgramCacheEntry Env}
include h

theorem precedes (he : e ∈ newest :: rest) : e = newest ∨ Precedes e newest := by
  rcases mem_cons.mp he with rfl | he
  · exact .inl rfl
  · exact .inr ((pairwise_cons.mp h.sorted).1 e he)

theorem effectiveSlot_le (he : e ∈ newest :: rest) : e.effectiveSlot ≤ newest.effectiveSlot := by
  rcases h.precedes he with rfl | hlt | ⟨heq, -⟩
  · exact Nat.le_refl _
  · exact Nat.le_of_lt hlt
  · exact Nat.le_of_eq heq

/-- Pruning leaves the newest deployment. -/
theorem survives (newRootSlot : Nat) (he : e ∈ newest :: rest)
    (hdeployment : e.deploymentSlot = newest.deploymentSlot) (environment : Env) :
    survives newRootSlot (firstBelow newRootSlot (newest :: rest)) e = true := by
  by_cases hge : newRootSlot ≤ newest.deploymentSlot
  · simp [ProgramRuntime.survives, hdeployment, hge]
  · rcases mem_cons.mp he with rfl | he
    · simp [ProgramRuntime.survives, firstBelow, Nat.not_le.mp hge]
    · have hother :=
        ((pairwise_cons.mp h.oneEach).1 e he).otherEnvironment hdeployment.symm environment
      simp [ProgramRuntime.survives, firstBelow, Nat.not_le.mp hge, hother]

/-- A version of the newest deployment for the environment is the first that is left: what is
    between them in the order is of the same deployment. -/
theorem firstLeft_eq (he : e ∈ newest :: rest)
    (hdeployment : e.deploymentSlot = newest.deploymentSlot)
    (hmatch : e.matchesEnvironment environment = true) :
    firstLeft newRootSlot environment loader (newest :: rest) = some e := by
  have hsurvives := h.survives newRootSlot he hdeployment environment
  have howner := h.owner e he hdeployment
  cases hleft : firstLeft newRootSlot environment loader (newest :: rest) with
  | none =>
    have hnot := find?_eq_none.mp hleft e he
    simp [hsurvives, hmatch, ← howner] at hnot
  | some left =>
    have hmem := mem_of_find?_eq_some hleft
    have hprop := find?_some hleft
    simp only [Bool.and_eq_true] at hprop
    have hsame : left.deploymentSlot = e.deploymentSlot := by
      rcases eq_or_rel_of_find? h.sorted hleft he (by simp [hsurvives, hmatch, ← howner])
        with rfl | hafter
      · rfl
      · rcases h.precedes hmem with rfl | hbefore
        · exact hdeployment.symm
        · have hsoon := h.effectiveSoon left hmem
          have hsoonNewest := h.effectiveSoon newest mem_cons_self
          have hsoonEntry := h.effectiveSoon e he
          unfold Precedes at hafter hbefore
          unfold EffectiveSoon at hsoon hsoonNewest hsoonEntry
          omega
    by_contra hne
    exact h.oneEach.forall hmem he (fun heq => hne (congrArg some heq)) hsame environment
      ⟨hprop.1.2, hmatch⟩

/-- The search among the newest version and some of those behind it. -/
theorem findVersion_eq {rest' : List (ProgramCacheEntry Env)} (hrest : ∀ e ∈ rest', e ∈ rest)
    (hbranch : inSameBranch tree latestRootSlot slot newest.deploymentSlot = true)
    (hvisible : Visible slot newest) :
    findVersion tree latestRootSlot slot environment loader criteria none (newest :: rest') =
      if newest.effectiveSlot ≤ slot then
        ((newest :: rest').find? (ofDeployment newest.deploymentSlot environment)).bind
          (found slot criteria)
      else found slot criteria newest := by
  have hloader := h.owner newest mem_cons_self rfl
  by_cases heffective : newest.effectiveSlot ≤ slot
  · have hdeployment : ∀ e ∈ newest :: rest', e.deploymentSlot = newest.deploymentSlot →
        loader = e.accountOwner ∧ e.effectiveSlot ≤ slot := by
      intro e he hdeployment
      have hmem := cons_subset_cons newest hrest he
      exact ⟨h.owner e hmem hdeployment, (h.effectiveSlot_le hmem).trans heffective⟩
    rw [if_pos heffective, ← findVersion_deployment hbranch hdeployment]
    simp [findVersion, hbranch, hloader, heffective]
  · have htombstone := hvisible.resolve_left heffective
    simp [findVersion, found, hbranch, hloader, heffective, htombstone]

end

/-- The search ends at the first version that is left as it did before, just when the removal of
    the others is unnoticed. -/
theorem found_firstLeft_iff {programToLoad : ProgramToLoad}
    (h : BranchOk slot programToLoad.loader newest rest) :
    (firstLeft newRootSlot environment programToLoad.loader (newest :: rest)).bind
        (found slot programToLoad.matchCriteria) =
      (if newest.effectiveSlot ≤ slot then
        ((newest :: rest).find? (ofDeployment newest.deploymentSlot environment)).bind
          (found slot programToLoad.matchCriteria)
      else found slot programToLoad.matchCriteria newest) ↔
      Unnoticed newRootSlot slot environment programToLoad (newest :: rest) := by
  simp only [Unnoticed, head?_cons, Option.mem_some_iff, forall_eq']
  by_cases heffective : newest.effectiveSlot ≤ slot
  · simp only [heffective, if_true, iff_true, true_and]
    cases hfind : (newest :: rest).find? (ofDeployment newest.deploymentSlot environment) with
    | some e =>
      have he := mem_of_find?_eq_some hfind
      obtain ⟨hdeployment, hmatch⟩ : e.deploymentSlot = newest.deploymentSlot ∧
          e.matchesEnvironment environment = true := by
        simpa [ofDeployment] using find?_some hfind
      rw [h.firstLeft_eq he hdeployment hmatch]
      exact iff_of_true rfl
        (.inl ⟨e, he, hdeployment, hmatch, (h.effectiveSlot_le he).trans heffective⟩)
    | none =>
      rw [Option.bind_none, Option.bind_eq_none_iff, or_iff_right]
      · refine forall₂_congr fun left hleft => ?_
        rw [found, if_pos ((h.effectiveSlot_le (mem_of_find?_eq_some hleft)).trans heffective)]
        simp
      · rintro ⟨e, he, hdeployment, hmatch, -⟩
        have hnot := find?_eq_none.mp hfind e he
        simp [ofDeployment, hdeployment, hmatch] at hnot
  · simp only [heffective, if_false, iff_false, false_and, or_false]
    constructor
    · -- the bank has to find the same tombstone, which only the same deployment gives
      intro heq
      obtain ⟨left, hleft, hfound⟩ := Option.bind_eq_some_iff.mp (heq.trans (if_neg heffective))
      have hmem := mem_of_find?_eq_some hleft
      have hprop := find?_some hleft
      simp only [Bool.and_eq_true] at hprop
      unfold found at hfound
      split_ifs at hfound with hearly
      · obtain rfl := Option.some.inj hfound
        rcases mem_cons.mp hmem with heq' | hmem
        · exact absurd (heq' ▸ hearly) heffective
        · cases ((pairwise_cons.mp h.oneEach).1 _ hmem).otherEnvironment rfl environment
      · exact ⟨left, hmem, (ProgramCacheEntry.mk.inj (Option.some.inj hfound)).2.2.1, hprop.1.2,
          hearly⟩
    · rintro ⟨e, he, hdeployment, hmatch, hlate⟩
      rw [h.firstLeft_eq he hdeployment hmatch, Option.bind_some, found, found, if_neg hlate,
        if_neg heffective, hdeployment, ← h.owner e he hdeployment,
        ← h.owner newest mem_cons_self rfl]

end BranchOk

theorem retainEnvironment_none : retainEnvironment none versions = versions :=
  filter_eq_self.mpr (fun _ _ => rfl)

theorem retainEnvironment_some : retainEnvironment (some environment) versions =
    versions.filter (fun e => e.matchesEnvironment environment) := rfl

/-- A search of a bank at or above the new root notices pruning only by what the versions of other
    environments have hidden. -/
theorem find_prune_iff {cache : ProgramCache Env} {programToLoad : ProgramToLoad}
    (hroot : tree.Le cache.latestRootSlot newRootSlot) (hslot : tree.Le newRootSlot slot)
    (hversions : VersionsOk (cache.entries programToLoad.programId))
    (hloader : ∀ newest ∈ (cache.onBranch tree slot programToLoad.programId).head?,
      programToLoad.loader = newest.accountOwner)
    (hnew : newEnvironment = none ∨ newEnvironment = some environment) :
    (cache.prune tree newRootSlot newEnvironment).find tree slot environment programToLoad =
        cache.find tree slot environment programToLoad ↔
      newEnvironment = none ∨ Unnoticed newRootSlot slot environment programToLoad
        (cache.onBranch tree slot programToLoad.programId) := by
  have honeEach : (cache.entries programToLoad.programId).reverse.Pairwise OneEach :=
    (pairwise_reverse.mpr hversions.oneEach).imp (fun h => Std.Symm.symm _ _ h)
  have hdistinct : (cache.entries programToLoad.programId).reverse.Pairwise (· ≠ ·) := by
    refine honeEach.imp ?_
    rintro a _ h rfl
    have hother := h.otherEnvironment rfl environment
    cases henv : a.program.getEnvironment <;> simp [otherEnvironment, henv] at hother
  have hsorted : (cache.onBranch tree slot programToLoad.programId).Pairwise
      (fun a b => Precedes b a) := (pairwise_reverse.mpr hversions.sorted).filter _
  have honeEach : (cache.onBranch tree slot programToLoad.programId).Pairwise OneEach :=
    honeEach.filter _
  have hmem : ∀ e ∈ cache.onBranch tree slot programToLoad.programId,
      e ∈ cache.entries programToLoad.programId ∧
        inSameBranch tree cache.latestRootSlot slot e.deploymentSlot = true := by
    intro e he
    obtain ⟨he, hbranch⟩ := mem_filter.mp he
    exact ⟨mem_reverse.mp he, hbranch⟩
  -- the search after pruning, among what is left of the branch
  have hafter : (cache.prune tree newRootSlot newEnvironment).find tree slot environment
      programToLoad = findVersion tree newRootSlot slot environment programToLoad.loader
        programToLoad.matchCriteria none (retainEnvironment newEnvironment
          ((cache.onBranch tree slot programToLoad.programId).filter (survives newRootSlot
            (firstBelow newRootSlot (cache.onBranch tree slot programToLoad.programId))))) := by
    unfold ProgramCache.find ProgramCache.prune pruneVersions
    rw [reverse_reverse, ← findVersion_branch, branch, retainEnvironment, filter_comm]
    rw [ProgramCache.onBranch, ← branch_retainRooted hroot hslot hdistinct]
    rfl
  have hbefore : cache.find tree slot environment programToLoad =
      findVersion tree cache.latestRootSlot slot environment programToLoad.loader
        programToLoad.matchCriteria none (cache.onBranch tree slot programToLoad.programId) :=
    findVersion_branch.symm
  rw [hafter, hbefore]
  generalize cache.onBranch tree slot programToLoad.programId = versions at *
  cases versions with
  | nil => exact iff_of_true (by cases newEnvironment <;> rfl) (.inr (by simp [Unnoticed]))
  | cons newest rest =>
    have hok : BranchOk slot programToLoad.loader newest rest := by
      refine ⟨hsorted, honeEach, fun e he hdeployment => ?_,
        fun e he => hversions.effectiveSoon e (hmem e he).1⟩
      exact (hloader newest rfl).trans (hversions.oneOwner _ (hmem _ mem_cons_self).1 e
        (hmem e he).1 hdeployment.symm)
    have hvisible : ∀ e ∈ newest :: rest, Visible slot e := fun e he =>
      visible_of_branch (hroot.trans hslot).le (hmem e he).2 (hok.effectiveSoon e he)
    have hbranch : ∀ e ∈ newest :: rest,
        inSameBranch tree newRootSlot slot e.deploymentSlot = true := fun e he =>
      ((inSameBranch_iff_newRoot hroot hslot).mp (hmem e he).2).2
    rw [hok.findVersion_eq (fun _ he => he) (hmem _ mem_cons_self).2 (hvisible _ mem_cons_self)]
    rcases hnew with rfl | rfl
    · refine iff_of_true ?_ (.inl rfl)
      have hkept := hok.survives newRootSlot mem_cons_self rfl environment
      have hfind : (newest :: rest).find? (ofDeployment newest.deploymentSlot environment) =
          ((newest :: rest).filter (survives newRootSlot
            (firstBelow newRootSlot (newest :: rest)))).find?
              (ofDeployment newest.deploymentSlot environment) := by
        rw [find?_filter]
        refine find?_congr fun e he => ?_
        by_cases hdeployment : e.deploymentSlot = newest.deploymentSlot
        · simp [hok.survives newRootSlot he hdeployment environment]
        · simp [ofDeployment, hdeployment]
      rw [hfind, retainEnvironment_none, filter_cons_of_pos hkept]
      exact hok.findVersion_eq (fun _ he => mem_of_mem_filter he) (hbranch _ mem_cons_self)
        (hvisible _ mem_cons_self)
    · have hleft : (retainEnvironment (some environment) ((newest :: rest).filter
          (survives newRootSlot (firstBelow newRootSlot (newest :: rest))))).find?
            (fun e => decide (programToLoad.loader = e.accountOwner)) =
          firstLeft newRootSlot environment programToLoad.loader (newest :: rest) := by
        rw [retainEnvironment_some, find?_filter, find?_filter, firstLeft]
        refine find?_congr fun e _ => ?_
        simp [Bool.and_assoc]
      rw [findVersion_environment, hleft]
      · simp only [hok.found_firstLeft_iff, reduceCtorEq, false_or]
      · intro e he
        obtain ⟨he, hmatch⟩ := mem_filter.mp he
        have he' := mem_of_mem_filter he
        exact ⟨hmatch, hvisible e he', hbranch e he'⟩

theorem eq_of_filterMap_eq {α β : Type _} {f g : α → Option β} {l : List α}
    (hnone : ∀ a ∈ l, (f a).isNone = (g a).isNone) (h : l.filterMap f = l.filterMap g) :
    ∀ a ∈ l, f a = g a := by
  induction l with
  | nil => simp
  | cons a l ih =>
    obtain ⟨ha, hl⟩ := forall_mem_cons.mp hnone
    rw [filterMap_cons, filterMap_cons] at h
    cases hf : f a <;> cases hg : g a <;> simp_all

/-- Two caches that load the same programs extract the same just when each search finds the same. -/
theorem extract_eq_iff {cache cache' : ProgramCache Env} {thread : Nat}
    {searchFor : List ProgramToLoad} (hloading : cache'.loadingEntries = cache.loadingEntries) :
    cache'.extract tree slot thread environment searchFor =
        cache.extract tree slot thread environment searchFor ↔
      ∀ programToLoad ∈ searchFor, cache'.find tree slot environment programToLoad =
        cache.find tree slot environment programToLoad := by
  constructor
  · intro h
    have hsearchFor := congrArg Extraction.searchFor h
    have hentries := congrArg Extraction.entries h
    rw [ProgramCache.extract, ProgramCache.extract, (foldl_extractOne ..).1,
      (foldl_extractOne ..).1, nil_append, nil_append] at hsearchFor
    rw [ProgramCache.extract, ProgramCache.extract, (foldl_extractOne ..).2,
      (foldl_extractOne ..).2, nil_append, nil_append] at hentries
    intro programToLoad hmem
    refine Option.map_injective (Prod.mk_right_injective _)
      (eq_of_filterMap_eq (fun p hp => ?_) hentries programToLoad hmem)
    have hiff : p ∈ _ ↔ p ∈ _ := iff_of_eq (congrArg (p ∈ ·) hsearchFor)
    rw [mem_filter, mem_filter] at hiff
    rw [Option.isNone_map, Option.isNone_map, Bool.eq_iff_iff]
    exact ⟨fun h => (hiff.mp ⟨hp, h⟩).2, fun h => (hiff.mpr ⟨hp, h⟩).2⟩
  · intro h
    unfold ProgramCache.extract
    rw [hloading]
    refine foldl_ext _ _ _ fun extraction programToLoad hmem => ?_
    unfold ProgramCache.extractOne
    rw [h programToLoad hmem]

/-- A bank at or above the new root extracts the same before and after pruning just when the
    versions of other environments are kept, or nothing is lost with them. -/
theorem extract_prune {cache : ProgramCache Env} {newEnvironment : Option Env}
    (hroot : tree.Le cache.latestRootSlot newRootSlot) (hslot : tree.Le newRootSlot slot)
    (thread : Nat) (environment : Env) (searchFor : List ProgramToLoad)
    (hversions : ∀ programToLoad ∈ searchFor, VersionsOk (cache.entries programToLoad.programId))
    (hloader : ∀ programToLoad ∈ searchFor,
      ∀ newest ∈ (cache.onBranch tree slot programToLoad.programId).head?,
        programToLoad.loader = newest.accountOwner)
    (hnew : newEnvironment = none ∨ newEnvironment = some environment) :
    (cache.prune tree newRootSlot newEnvironment).extract tree slot thread environment searchFor =
        cache.extract tree slot thread environment searchFor ↔
      newEnvironment = none ∨ ∀ programToLoad ∈ searchFor, Unnoticed newRootSlot slot environment
        programToLoad (cache.onBranch tree slot programToLoad.programId) := by
  refine (extract_eq_iff (by rfl)).trans (Iff.trans (forall₂_congr fun programToLoad hmem =>
    find_prune_iff hroot hslot (hversions _ hmem) (hloader _ hmem) hnew) ?_)
  simp only [forall_or_left]

/-- A cache with versions of `someProgram`, for the environments `true` and `false`. -/
def cacheOf (versions : List (ProgramCacheEntry Bool)) : ProgramCache Bool where
  entries := fun key => if key = 7 then versions else []
  loadingEntries := fun _ => none
  latestRootSlot := 0

/-- The deployment of slot 1 is there for both environments. -/
def bothEnvironments : ProgramCache Bool :=
  cacheOf [⟨.loaded true, .loaderV3, 0, 1⟩, ⟨.loaded true, .loaderV3, 1, 2⟩,
    ⟨.loaded false, .loaderV3, 1, 2⟩]

/-- So the bank of slot 3 does not notice that the version for `false` is removed. -/
theorem extract_prune_bothEnvironments :
    ((bothEnvironments.prune forkedTree 3 (some true)).entries 7).length = 2 ∧
      (bothEnvironments.prune forkedTree 3 (some true)).extract forkedTree 3 0 true [someProgram] =
        bothEnvironments.extract forkedTree 3 0 true [someProgram] ∧
      (bothEnvironments.extract forkedTree 3 0 true [someProgram]).entries =
        [(7, ⟨.loaded true, .loaderV3, 1, 2⟩)] := by
  have hhead : (bothEnvironments.onBranch forkedTree 3 7).head? =
      some ⟨.loaded false, .loaderV3, 1, 2⟩ := by decide +kernel
  refine ⟨by decide +kernel, (extract_prune (show forkedTree.Le 0 3 by decide)
    (show forkedTree.Le 3 3 by decide) 0 true [someProgram] (forall_mem_singleton.mpr ?_)
    (forall_mem_singleton.mpr ?_) (.inr rfl)).mpr (.inr (forall_mem_singleton.mpr ?_)),
    by decide +kernel⟩
  · show VersionsOk [_, _, _]
    constructor <;> simp [Precedes, OneEach, ProgramCacheEntry.matchesEnvironment,
      ProgramCacheEntryType.getEnvironment, EffectiveSoon]
  · rintro newest hnewest
    obtain rfl := Option.some.inj (hhead.symm.trans hnewest)
    rfl
  · rintro newest hnewest
    obtain rfl := Option.some.inj (hhead.symm.trans hnewest)
    exact .inl ⟨⟨.loaded true, .loaderV3, 1, 2⟩, by decide +kernel, rfl, rfl, Iff.rfl⟩

/-- The newest deployment is for the environment `false` only. -/
def twoVersions : ProgramCache Bool :=
  cacheOf [⟨.loaded true, .loaderV3, 0, 1⟩, ⟨.loaded false, .loaderV3, 1, 2⟩]

/-- The bank of slot 3 searches in the environment `true` and misses.  With the versions of the
    environment `false` pruned, it finds the older deployment. -/
theorem pruned_finds_older_deployment :
    VersionsOk (twoVersions.entries 7) ∧
      forkedTree.Le twoVersions.latestRootSlot 3 ∧
      (twoVersions.onBranch forkedTree 3 someProgram.programId).head?.all
          (fun newest => someProgram.loader = newest.accountOwner) ∧
      (twoVersions.extract forkedTree 3 0 true [someProgram]).entries = [] ∧
      ((twoVersions.prune forkedTree 3 (some true)).extract forkedTree 3 0 true
        [someProgram]).entries = [(7, ⟨.loaded true, .loaderV3, 0, 1⟩)] := by
  refine ⟨?_, show forkedTree.Le 0 3 by decide, by decide +kernel⟩
  show VersionsOk [_, _]
  constructor <;> simp [Precedes, OneEach, EffectiveSoon]

end Agave.ProgramRuntime
