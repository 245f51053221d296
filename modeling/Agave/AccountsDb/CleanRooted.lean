/-
  Agave.AccountsDb.CleanRooted

  Cleaning the slot list of an account of versions that a later root has outdated.

  A slot list holds the versions of an account, one for each slot that wrote it.  A reader takes the
  version of its newest ancestor, and that of the newest root if no ancestor wrote the account.
  Cleaning at a root keeps the newest rooted version up to there and every version from there on.  A
  reader that descends from the roots up to the clean root does not notice: a version it selects
  below the clean root is rooted, and it would have preferred a newer rooted one.
-/

import Agave.Basic

namespace Agave.AccountsDb.Clean

open List

variable {T : Type} (eligible : Nat → Bool)

abbrev SlotListItem (T : Type) := Nat × T

abbrev SlotList (T : Type) := List (SlotListItem T)

/-- `RollingBitField`: a set of slots, and the end of the range that it covers. -/
structure RollingBitField where
  slots : List Nat
  maxExclusive : Nat
  lt_maxExclusive : ∀ slot ∈ slots, slot < maxExclusive

namespace RollingBitField

def contains (field : RollingBitField) (slot : Nat) : Bool := field.slots.contains slot

def maxInclusive (field : RollingBitField) : Nat := field.maxExclusive - 1

end RollingBitField

/-- `AccountsIndex`: the slot lists of all bins, and the roots. -/
structure AccountsIndex (T : Type) where
  slotLists : Pubkey → Option (SlotList T)
  aliveRoots : RollingBitField

/-! ## Selecting a version -/

/-- A pass of the loops in `latest_slot`.  The state is the position, from the back, of the entry
    chosen so far, and its slot. -/
def latestSlotStep (eligible : Nat → Bool) :
    Option Nat × Nat → SlotListItem T × Nat → Option Nat × Nat
  | (rv, currentMax), ((slot, _), i) =>
    if (rv.isNone || currentMax < slot) && eligible slot then (some i, slot) else (rv, currentMax)

def latestSlotLoop (eligible : Nat → Bool) (slotList : SlotList T) : Option Nat × Nat :=
  slotList.reverse.zipIdx.foldl (latestSlotStep eligible) (none, 0)

/-- `latest_slot`.  The loop over the roots runs only if the one over the ancestors has left its
    state unchanged. -/
def AccountsIndex.latestSlot (index : AccountsIndex T) (ancestors : Option (List Nat))
    (slotList : SlotList T) (maxRootInclusive : Option Nat) : Option Nat :=
  let rv := match ancestors with
    | some ancestors =>
      if ancestors.isEmpty then none else (latestSlotLoop ancestors.contains slotList).1
    | none => none
  match rv with
  | some rv => some (slotList.length - 1 - rv)
  | none =>
    let maxRootInclusive := maxRootInclusive.getD u64Max
    (latestSlotLoop (fun slot => slot ≤ maxRootInclusive && index.aliveRoots.contains slot)
      slotList).1.map (slotList.length - 1 - ·)

/-- `choice` is the latest eligible entry, if there is one. -/
structure IsLatest (eligible : Nat → Bool) (slotList : SlotList T)
    (choice : Option (SlotListItem T)) : Prop where
  mem : ∀ e ∈ choice, e ∈ slotList ∧ eligible e.1
  latest : ∀ e' ∈ slotList, eligible e'.1 → ∃ e ∈ choice, e'.1 ≤ e.1

namespace IsLatest

variable {eligible : Nat → Bool} {slotList kept : SlotList T}
  {choice choice' : Option (SlotListItem T)} {a : SlotListItem T}

section

variable (hnd : (slotList.map Prod.fst).Nodup) (h : IsLatest eligible slotList choice)
  (h' : IsLatest eligible slotList choice')
include hnd h h'

theorem mem_of_mem {e : SlotListItem T} (he : e ∈ choice) : e ∈ choice' := by
  obtain ⟨hmem, helig⟩ := h.mem e he
  obtain ⟨e', he', hle⟩ := h'.latest e hmem helig
  obtain ⟨hmem', helig'⟩ := h'.mem e' he'
  obtain ⟨e'', he'', hle'⟩ := h.latest e' hmem' helig'
  obtain rfl : e = e'' := Option.mem_unique he he''
  rwa [inj_on_of_nodup_map hnd hmem hmem' (le_antisymm hle hle')]

theorem unique : choice = choice' :=
  Option.ext fun _ => ⟨h.mem_of_mem hnd h', h'.mem_of_mem hnd h⟩

end

variable (h : IsLatest eligible slotList choice)
include h

/-- A reader that finds its entry in a part of the list finds the same one. -/
theorem of_subset (hsub : kept ⊆ slotList) (hkept : ∀ e ∈ choice, e ∈ kept) :
    IsLatest eligible kept choice where
  mem e he := ⟨hkept e he, (h.mem e he).2⟩
  latest e' he' := h.latest e' (hsub he')

theorem cons_new (ha : eligible a.1) (hlt : ∀ e ∈ choice, e.1 < a.1) :
    IsLatest eligible (a :: slotList) (some a) where
  mem := by
    rintro _ ⟨⟩
    exact ⟨mem_cons_self, ha⟩
  latest := by
    refine forall_mem_cons.mpr ⟨fun _ => ⟨a, rfl, le_rfl⟩, fun e' he' helig => ?_⟩
    obtain ⟨e, he, hle⟩ := h.latest e' he' helig
    exact ⟨a, rfl, hle.trans (hlt e he).le⟩

theorem cons_old (ha : eligible a.1 → ∃ e ∈ choice, a.1 ≤ e.1) :
    IsLatest eligible (a :: slotList) choice where
  mem e he := (h.mem e he).imp_left (mem_cons_of_mem a)
  latest := forall_mem_cons.mpr ⟨ha, h.latest⟩

end IsLatest

/-- A loop in `latest_slot` has chosen `choice`: the state of the loop names it. -/
inductive Chosen (slotList : SlotList T) : Option (SlotListItem T) → Option Nat × Nat → Prop where
  | none (currentMax : Nat) : Chosen slotList none (none, currentMax)
  | some {i : Nat} {e : SlotListItem T} (he : slotList.reverse[i]? = some e) :
      Chosen slotList (some e) (some i, e.1)

namespace Chosen

variable {slotList : SlotList T} {choice : Option (SlotListItem T)} {s : Option Nat × Nat}
  (h : Chosen slotList choice s)
include h

/-- The test of a pass compares with the choice so far. -/
theorem newer_iff (slot : Nat) :
    (s.1.isNone || s.2 < slot) = true ↔ ∀ e ∈ choice, e.1 < slot := by
  cases h <;> simp

theorem cons (a : SlotListItem T) : Chosen (a :: slotList) choice s := by
  cases h with
  | none currentMax => exact .none currentMax
  | some he =>
    refine .some ?_
    rw [reverse_cons, getElem?_append_left (List.getElem?_eq_some_iff.mp he).1]
    exact he

theorem selected :
    (s.1.map (slotList.length - 1 - ·)).map (slotList[·]?) = choice.map Option.some := by
  cases h with
  | none currentMax => rfl
  | some he =>
    have hlt := (List.getElem?_eq_some_iff.mp he).1
    rw [length_reverse] at hlt
    rw [getElem?_reverse hlt] at he
    exact congrArg Option.some he

end Chosen

/-- The loops run from the back, so that the head of the list comes last. -/
theorem latestSlotLoop_cons (a : SlotListItem T) (slotList : SlotList T) :
    latestSlotLoop eligible (a :: slotList) =
      latestSlotStep eligible (latestSlotLoop eligible slotList) (a, slotList.length) := by
  simp [latestSlotLoop, zipIdx_append]

theorem latestSlotLoop_spec (slotList : SlotList T) :
    ∃ choice, IsLatest eligible slotList choice ∧
      Chosen slotList choice (latestSlotLoop eligible slotList) := by
  induction slotList with
  | nil => exact ⟨none, ⟨by simp, by simp⟩, .none 0⟩
  | cons a slotList ih =>
    obtain ⟨choice, hlatest, hchosen⟩ := ih
    rw [latestSlotLoop_cons]
    simp only [latestSlotStep]
    split_ifs with htest
    · obtain ⟨hnewer, ha⟩ := Bool.and_eq_true_iff.mp htest
      exact ⟨some a, hlatest.cons_new ha ((hchosen.newer_iff a.1).mp hnewer), .some (by simp)⟩
    · refine ⟨choice, hlatest.cons_old fun ha => ?_, hchosen.cons a⟩
      rw [ha, Bool.and_true, hchosen.newer_iff] at htest
      push Not at htest
      exact htest

/-- The slots of a reader's ancestors. -/
def isAncestor (ancestors : Option (List Nat)) (slot : Nat) : Bool := ancestors.any (·.contains slot)

namespace AccountsIndex

variable (index : AccountsIndex T) (slotList : SlotList T)

/-- The roots that a reader may see. -/
def isRootUpTo (maxRoot slot : Nat) : Bool :=
  slot ≤ maxRoot && index.aliveRoots.contains slot

/-- A reader selects its newest ancestor, and the newest root if it has none in the list. -/
theorem latestSlot_spec (index : AccountsIndex T) (ancestors : Option (List Nat))
    (slotList : SlotList T) (maxRoot : Option Nat) :
    ∃ ancestor root, IsLatest (isAncestor ancestors) slotList ancestor ∧
      IsLatest (index.isRootUpTo (maxRoot.getD u64Max)) slotList root ∧
      (index.latestSlot ancestors slotList maxRoot).map (slotList[·]?) =
        (ancestor.or root).map some := by
  obtain ⟨root, hroot, hchosen⟩ :=
    latestSlotLoop_spec (index.isRootUpTo (maxRoot.getD u64Max)) slotList
  have hroots := hchosen.selected
  have hnone : IsLatest (fun _ => false) slotList none := ⟨by simp, by simp⟩
  rcases ancestors with _ | ancestors
  · exact ⟨none, root, hnone, hroot, hroots⟩
  unfold latestSlot
  simp only
  split_ifs with hempty
  · rw [isEmpty_iff.mp hempty]
    exact ⟨none, root, hnone, hroot, hroots⟩
  obtain ⟨ancestor, hancestor, hchosen⟩ := latestSlotLoop_spec ancestors.contains slotList
  refine ⟨ancestor, root, hancestor, hroot, ?_⟩
  have hselected := hchosen.selected
  generalize latestSlotLoop ancestors.contains slotList = s at hchosen hselected
  cases hchosen with
  | none currentMax => exact hroots
  | some he => exact hselected

/-! ## Cleaning -/

def getNewestRootInSlotList (aliveRoots : RollingBitField) (slotList : SlotList T)
    (maxAllowedRootInclusive : Option Nat) : Nat :=
  (((slotList.map Prod.fst).filter fun slot => maxAllowedRootInclusive.all (slot ≤ ·)).filter
    aliveRoots.contains).max?.getD 0

def canPurgeOlderEntries (maxCleanRootExclusive newestRootInSlotList slot : Nat) : Bool :=
  slot < maxCleanRootExclusive && slot != newestRootInSlotList

/-- The test of `purge_older_root_entries`, whose bound for `canPurgeOlderEntries` is inclusive. -/
def shouldPurge (maxCleanRootInclusive : Option Nat) (item : SlotListItem T) : Bool :=
  canPurgeOlderEntries (maxCleanRootInclusive.getD index.aliveRoots.maxInclusive)
    (getNewestRootInSlotList index.aliveRoots slotList maxCleanRootInclusive) item.1

/-- The entries that `purge_older_root_entries` leaves. -/
def retained (maxCleanRootInclusive : Option Nat) : SlotList T :=
  slotList.filter (!index.shouldPurge slotList maxCleanRootInclusive ·)

/-- `purge_older_root_entries`: whether the list is empty, the list, and the reclaims. -/
def purgeOlderRootEntries (slotList reclaims : SlotList T) (maxCleanRootInclusive : Option Nat) :
    Bool × SlotList T × SlotList T :=
  let slotList' := index.retained slotList maxCleanRootInclusive
  (slotList'.isEmpty, slotList',
    reclaims ++ slotList.filter (index.shouldPurge slotList maxCleanRootInclusive))

def removeIfSlotListEmpty (pubkey : Pubkey) : Bool × AccountsIndex T :=
  match index.slotLists pubkey with
  | some (_ :: _) => (false, index)
  | _ => (true, { index with slotLists := Function.update index.slotLists pubkey none })

/-- `clean_rooted_entries`, with the reclaims. -/
def cleanRootedEntries (pubkey : Pubkey) (reclaims : SlotList T)
    (maxCleanRootInclusive : Option Nat) : Bool × AccountsIndex T × SlotList T :=
  match index.slotLists pubkey with
  | none => (true, index, reclaims)
  | some slotList =>
    let (isSlotListEmpty, slotList, reclaims) :=
      index.purgeOlderRootEntries slotList reclaims maxCleanRootInclusive
    let index :=
      { index with slotLists := Function.update index.slotLists pubkey (some slotList) }
    if isSlotListEmpty then
      let (removed, index) := index.removeIfSlotListEmpty pubkey
      (removed, index, reclaims)
    else (false, index, reclaims)

/-- What a reader may see of the slots up to the clean root `m`: roots only, and with a slot every
    root above it. -/
structure Live (index : AccountsIndex T) (m : Nat) (eligible : Nat → Bool) : Prop where
  rooted : ∀ slot, eligible slot → slot ≤ m → index.aliveRoots.contains slot
  closed : ∀ slot root, eligible slot → index.aliveRoots.contains root → slot ≤ root → root ≤ m →
    eligible root

variable {index : AccountsIndex T} {m : Nat} {slotList : SlotList T} {eligible : Nat → Bool}

theorem live_isRootUpTo {maxRoot : Nat} (h : m ≤ maxRoot) :
    Live index m (index.isRootUpTo maxRoot) where
  rooted slot hslot _ := by
    simp only [isRootUpTo, Bool.and_eq_true] at hslot
    exact hslot.2
  closed slot root _ hroot _ hle := by
    simp only [isRootUpTo, Bool.and_eq_true, decide_eq_true_eq]
    exact ⟨hle.trans h, hroot⟩

/-- The newest root is one of the list, if there is any. -/
theorem getNewestRootInSlotList_spec {aliveRoots : RollingBitField} {e : SlotListItem T}
    (he : e ∈ slotList) (hle : e.1 ≤ m) (hroot : aliveRoots.contains e.1) :
    ∃ r ∈ slotList, r.1 = getNewestRootInSlotList aliveRoots slotList (some m) ∧ r.1 ≤ m ∧
      aliveRoots.contains r.1 ∧ e.1 ≤ r.1 := by
  have hmem : e.1 ∈ ((slotList.map Prod.fst).filter fun slot => (some m).all (slot ≤ ·)).filter
      aliveRoots.contains := by
    simpa [hle, hroot] using ⟨e.2, he⟩
  obtain ⟨newest, hnewest⟩ := Option.isSome_iff_exists.mp (isSome_max?_of_mem hmem)
  obtain ⟨hin, hmax⟩ := max?_eq_some_iff.mp hnewest
  have hspec := hin
  simp only [mem_filter, mem_map, Option.all_some, decide_eq_true_eq] at hspec
  obtain ⟨⟨⟨r, hr, rfl⟩, hrle⟩, hrroot⟩ := hspec
  exact ⟨r, hr, by rw [getNewestRootInSlotList, hnewest, Option.getD_some], hrle, hrroot,
    hmax _ hmem⟩

/-- An entry that a live reader selects is not purged: below `m` it is rooted, and a newer root up
    to `m` would have been selected instead. -/
theorem Live.mem_retained {e : SlotListItem T}
    (hlive : Live index m eligible) (h : IsLatest eligible slotList (some e)) :
    e ∈ index.retained slotList (some m) := by
  obtain ⟨he, helig⟩ := h.mem e rfl
  refine mem_filter.mpr ⟨he, ?_⟩
  by_cases hlt : e.1 < m
  · have hroot := hlive.rooted e.1 helig hlt.le
    obtain ⟨r, hr, hnewest, hrle, hrroot, hge⟩ := getNewestRootInSlotList_spec he hlt.le hroot
    obtain ⟨_, ⟨⟩, hle⟩ := h.latest r hr (hlive.closed e.1 r.1 helig hrroot hge hrle)
    simp [shouldPurge, canPurgeOlderEntries, ← hnewest, le_antisymm hge hle]
  · simp [shouldPurge, canPurgeOlderEntries, hlt]

/-- A live reader has the same latest entry after cleaning. -/
theorem Live.eq_of_retained {before after : Option (SlotListItem T)}
    (hlive : Live index m eligible) (hnd : (slotList.map Prod.fst).Nodup)
    (hbefore : IsLatest eligible slotList before)
    (hafter : IsLatest eligible (index.retained slotList (some m)) after) : before = after := by
  have hsub : (index.retained slotList (some m)).Sublist slotList := filter_sublist
  refine IsLatest.unique (hnd.sublist (hsub.map Prod.fst)) ?_ hafter
  refine hbefore.of_subset hsub.subset ?_
  rintro e rfl
  exact hlive.mem_retained hbefore

/-- Cleaning puts the retained entries in place, and removes the account if there are none. -/
theorem cleanRootedEntries_eq {pubkey : Pubkey} (hlist : index.slotLists pubkey = some slotList)
    (reclaims : SlotList T) (maxClean : Option Nat) :
    index.cleanRootedEntries pubkey reclaims maxClean =
      ((index.retained slotList maxClean).isEmpty,
        ⟨Function.update index.slotLists pubkey
          (if (index.retained slotList maxClean).isEmpty then none
            else some (index.retained slotList maxClean)), index.aliveRoots⟩,
        reclaims ++ slotList.filter (index.shouldPurge slotList maxClean)) := by
  simp only [cleanRootedEntries, hlist, purgeOlderRootEntries]
  by_cases hempty : index.retained slotList maxClean = []
  · simp [hempty, removeIfSlotListEmpty]
  · simp [hempty]

theorem cleanRootedEntries_invisible {pubkey : Pubkey} (reclaims : SlotList T) (hm : m ≤ u64Max)
    (hlist : index.slotLists pubkey = some slotList) (hnd : (slotList.map Prod.fst).Nodup) :
    ∃ removed kept after reclaimed,
      index.cleanRootedEntries pubkey reclaims (some m) = (removed, after, reclaims ++ reclaimed) ∧
      after.slotLists = Function.update index.slotLists pubkey
        (if kept.isEmpty then none else some kept) ∧
      slotList.Perm (kept ++ reclaimed) ∧
      (∀ e, IsLatest (index.isRootUpTo m) slotList (some e) → e ∈ kept) ∧
      ∀ ancestors maxRoot, Live index m (isAncestor ancestors) → (∀ root ∈ maxRoot, m ≤ root) →
        ∃ choice : Option (SlotListItem T),
          (index.latestSlot ancestors slotList maxRoot).map (slotList[·]?) = choice.map some ∧
          (after.latestSlot ancestors kept maxRoot).map (kept[·]?) = choice.map some := by
  have hperm : slotList.Perm (index.retained slotList (some m) ++
      slotList.filter (index.shouldPurge slotList (some m))) :=
    ((filter_append_perm _ slotList).symm).trans perm_append_comm
  refine ⟨_, _, _, _, cleanRootedEntries_eq hlist reclaims (some m), rfl, hperm,
    fun e => (live_isRootUpTo le_rfl).mem_retained, ?_⟩
  intro ancestors maxRoot hlive hmax
  have hroots : Live index m (index.isRootUpTo (maxRoot.getD u64Max)) := by
    refine live_isRootUpTo ?_
    cases maxRoot with
    | none => exact hm
    | some root => exact hmax root rfl
  obtain ⟨ancestor, root, hancestor, hroot, hselected⟩ :=
    index.latestSlot_spec ancestors slotList maxRoot
  obtain ⟨ancestor', root', hancestor', hroot', hselected'⟩ :=
    index.latestSlot_spec ancestors (index.retained slotList (some m)) maxRoot
  obtain rfl := hlive.eq_of_retained hnd hancestor hancestor'
  obtain rfl := hroots.eq_of_retained hnd hroot hroot'
  exact ⟨_, hselected, hselected'⟩

/-- An account written in the roots 1 and 3. -/
def twoRoots : AccountsIndex Nat where
  slotLists _ := some [(1, 10), (3, 30)]
  aliveRoots := ⟨[1, 3, 5], 6, by decide⟩

theorem cleanRootedEntries_invisible_two_roots :
    ∃ removed kept after reclaimed,
      twoRoots.cleanRootedEntries 0 [] (some 5) = (removed, after, [] ++ reclaimed) ∧
      (after.latestSlot (some [3, 5, 7]) kept none).map (kept[·]?) = some (some (3, 30)) := by
  obtain ⟨removed, kept, after, reclaimed, hclean, -, -, -, hreader⟩ :=
    @cleanRootedEntries_invisible Nat twoRoots 5 [(1, 10), (3, 30)] 0 [] (by decide) rfl (by decide)
  have hlive : Live twoRoots 5 (isAncestor (some [3, 5, 7])) := by
    constructor
    all_goals simp [twoRoots, isAncestor, RollingBitField.contains]
    all_goals omega
  obtain ⟨choice, hbefore, hafter⟩ := hreader (some [3, 5, 7]) none hlive (by simp)
  exact ⟨removed, kept, after, reclaimed, hclean, hafter.trans (hbefore.symm.trans (by decide))⟩

end AccountsIndex

end Agave.AccountsDb.Clean
