/-
  Agave.Runtime.StatusCache

  The cache of transaction statuses, which keeps a transaction from being executed twice on a fork.

  There are two indexes.  `cache` finds the slots in which a transaction was seen, by its blockhash
  and twenty bytes of its key; `slotDeltas` lists what was added in a slot.  Purging drops from the
  first every blockhash that was last seen at or before a cutoff, and from the second every slot at
  or before it; clearing a slot walks the second to edit the first.

  Hash maps are kept as ordered maps.  The one loop over a hash map, in `clearSlotEntries`, edits
  the entries of one blockhash at a time, so that the order in which they are visited does not
  matter.
-/

import Agave.Basic
import Agave.Lib.BTreeMap
import Mathlib.Data.Finset.Sort
import Mathlib.Data.Nat.Digits.Lemmas

namespace Agave.Runtime

open Lib List

/-- `CACHED_KEY_SIZE`. -/
def cachedKeySize : Nat := 20

/-- `MAX_ROOT_ENTRIES`, the number of recent blockhashes. -/
def maxRootEntries : ℕ+ := 300

/-- Twenty bytes of a key, as the number they spell. -/
abbrev KeySlice := Fin (2 ^ 160)

/-- What stops an operation on the cache. -/
inductive StatusCachePanic where
  /-- "Blockhash must exist if it exists in self.slot_deltas". -/
  | blockhashMustExist
  /-- The key is too short to be sliced. -/
  | sliceOutOfRange
deriving DecidableEq

/-- The bytes of a key from an index on. -/
def keySliceAt (key : List UInt8) (index : Nat) : Except StatusCachePanic KeySlice :=
  if index + cachedKeySize ≤ key.length then
    .ok (Fin.ofNat _ (Nat.ofDigits 256
      (((key.drop index).take cachedKeySize).map UInt8.toNat)))
  else .error .sliceOutOfRange

variable {T : Type _}

/-- What is known under one blockhash: the highest slot it was seen in, where
    keys are sliced, and the slots of each key. -/
structure BlockhashEntry (T : Type _) where
  maxSlot : Nat
  keyIndex : Nat
  keyMap : BTreeMap KeySlice (List (Nat × T))

/-- The first index. -/
abbrev KeyStatusMap (T : Type _) := BTreeMap Hash (BlockhashEntry T)

/-- What was added in one slot. -/
abbrev Status (T : Type _) := BTreeMap Hash (Nat × List (KeySlice × T))

structure StatusCache (T : Type _) where
  cache : KeyStatusMap T
  roots : Finset Nat
  maxRootEntries : ℕ+
  slotDeltas : BTreeMap Nat (Status T)

/-- `StatusCache::default`. -/
def StatusCache.default : StatusCache T where
  cache := .empty
  roots := {0}
  maxRootEntries := Runtime.maxRootEntries
  slotDeltas := .empty

/-- The part of `clear_slot_entries` for one key. -/
def clearKey (slot : Nat) (keyMap : BTreeMap KeySlice (List (Nat × T))) (keySlice : KeySlice) :
    BTreeMap KeySlice (List (Nat × T)) :=
  match keyMap.get? keySlice with
  -- the key was in the list before: this is a dead slot
  | none => keyMap
  | some forks =>
    let kept := forks.filter (fun fork => fork.1 ≠ slot)
    if kept = [] then (keyMap.remove keySlice).2 else (keyMap.insert keySlice kept).2

/-- The part of `clear_slot_entries` for one blockhash. -/
def clearBlockhash (slot : Nat) (cache : KeyStatusMap T)
    (delta : Hash × Nat × List (KeySlice × T)) :
    Except StatusCachePanic (KeyStatusMap T) :=
  match cache.get? delta.1 with
  | none => .error .blockhashMustExist
  | some entry =>
    let keyMap := (delta.2.2.map Prod.fst).foldl (clearKey slot) entry.keyMap
    if keyMap.isEmpty then .ok (cache.remove delta.1).2
    else .ok (cache.insert delta.1 { entry with keyMap := keyMap }).2

namespace StatusCache

variable (self : StatusCache T)

def clearSlotEntries (slot : Nat) : Except StatusCachePanic (StatusCache T) :=
  match self.slotDeltas.get? slot with
  | none => .ok self
  | some deltas => do
    let cache ← deltas.entries.foldlM (clearBlockhash slot) self.cache
    return { self with cache := cache, slotDeltas := (self.slotDeltas.remove slot).2 }

/-- `get_status`, for the ancestors of the bank that asks. -/
def getStatus (key : List UInt8) (transactionBlockhash : Hash) (ancestors : Nat → Bool) :
    Except StatusCachePanic (Option (Nat × T)) :=
  match self.cache.get? transactionBlockhash with
  | none => .ok none
  | some entry => do
    let maxKeyIndex := key.length - (cachedKeySize + 1)
    let keySlice ← keySliceAt key (min entry.keyIndex maxKeyIndex)
    match entry.keyMap.get? keySlice with
    | none => .ok none
    | some storedForks =>
      .ok (storedForks.find? (fun fork => ancestors fork.1 || decide (fork.1 ∈ self.roots)))

/-- The slot at and below which everything goes, if there are too many roots:
    the highest of the roots in excess. -/
def purgeCutoff : Option Nat :=
  if self.maxRootEntries < self.roots.card then
    (self.roots.sort (· ≤ ·))[self.roots.card - self.maxRootEntries - 1]?
  else none

def purgeRoots : StatusCache T :=
  match self.purgeCutoff with
  | none => self
  | some cutoff =>
    { self with
      roots := self.roots.filter (fun root => cutoff < root)
      cache := self.cache.retain (fun _ entry => decide (cutoff < entry.maxSlot))
      slotDeltas := self.slotDeltas.retain (fun slot _ => decide (cutoff < slot)) }

/-- The roots before `add_roots` purges. -/
def extendRoots (forks : List Nat) : StatusCache T :=
  { self with roots := self.roots ∪ forks.toFinset }

def addRoots (forks : List Nat) : StatusCache T := (self.extendRoots forks).purgeRoots

def addToSlotDelta (transactionBlockhash : Hash) (slot keyIndex : Nat) (keySlice : KeySlice)
    (res : T) : StatusCache T :=
  let forkEntry := (self.slotDeltas.get? slot).getD .empty
  let hashEntry := (forkEntry.get? transactionBlockhash).getD (keyIndex, [])
  { self with
    slotDeltas := (self.slotDeltas.insert slot (forkEntry.insert transactionBlockhash
      (hashEntry.1, hashEntry.2 ++ [(keySlice, res)])).2).2 }

/-- The entry of a blockhash with one more slot for a key. -/
def pushFork (entry : BlockhashEntry T) (keySlice : KeySlice) (slot : Nat) (res : T) :
    BlockhashEntry T :=
  { entry with
    maxSlot := max slot entry.maxSlot
    keyMap := (entry.keyMap.insert keySlice
      ((entry.keyMap.get? keySlice).getD [] ++ [(slot, res)])).2 }

def insert (transactionBlockhash : Hash) (key : List UInt8) (slot : Nat) (res : T) :
    Except StatusCachePanic (StatusCache T) := do
  let maxKeyIndex := key.length - (cachedKeySize + 1)
  let entry := (self.cache.get? transactionBlockhash).getD ⟨slot, 0, .empty⟩
  let keyIndex := min entry.keyIndex maxKeyIndex
  let keySlice ← keySliceAt key keyIndex
  return { self with
    cache := (self.cache.insert transactionBlockhash (pushFork entry keySlice slot res)).2
    }.addToSlotDelta transactionBlockhash slot keyIndex keySlice res

end StatusCache

/-! ## Key slices -/

theorem keySliceAt_ok {key : List UInt8} (h : cachedKeySize ≤ key.length) :
    ∃ keySlice, keySliceAt key 0 = .ok keySlice := by
  refine ⟨_, if_pos ?_⟩
  rw [Nat.zero_add]
  exact h

/-- A slice tells the bytes it was taken from. -/
theorem take_eq_of_keySliceAt {key key' : List UInt8} {keySlice : KeySlice}
    (h : keySliceAt key 0 = .ok keySlice) (h' : keySliceAt key' 0 = .ok keySlice) :
    key.take cachedKeySize = key'.take cachedKeySize := by
  unfold keySliceAt at h h'
  rw [Nat.zero_add] at h h'
  split_ifs at h h' with hlen hlen'
  rw [drop_zero] at h h'
  have hbytes : ∀ (l : List UInt8), ∀ n ∈ (l.take cachedKeySize).map UInt8.toNat, n < 256 := by
    intro l n hn
    obtain ⟨x, -, rfl⟩ := mem_map.mp hn
    exact x.toNat_lt
  have hlength : ∀ {l : List UInt8}, cachedKeySize ≤ l.length →
      ((l.take cachedKeySize).map UInt8.toNat).length = cachedKeySize := by
    intro l hl
    rw [length_map, length_take, min_eq_left hl]
  have hsmall : ∀ {l : List UInt8}, cachedKeySize ≤ l.length →
      Nat.ofDigits 256 ((l.take cachedKeySize).map UInt8.toNat) < 2 ^ 160 := by
    intro l hl
    have hlt := Nat.ofDigits_lt_base_pow_length (b := 256) (by omega) (hbytes l)
    rw [hlength hl] at hlt
    exact hlt
  have hvalue := congrArg Fin.val ((Except.ok.inj h).trans (Except.ok.inj h').symm)
  simp only [Fin.ofNat] at hvalue
  rw [Nat.mod_eq_of_lt (hsmall hlen), Nat.mod_eq_of_lt (hsmall hlen')] at hvalue
  have hdigits := Nat.ofDigits_inj_of_len_eq (b := 256) (by omega)
    ((hlength hlen).trans (hlength hlen').symm) (hbytes key) (hbytes key') hvalue
  exact map_injective_iff.mpr (fun _ _ => UInt8.toNat_inj.mp) hdigits

/-! ## What the indexes hold -/

/-- The slots of a key under a blockhash. -/
def KeyStatusMap.forks (cache : KeyStatusMap T) (blockhash : Hash) (keySlice : KeySlice) :
    List (Nat × T) :=
  ((cache.get? blockhash).bind (fun entry => entry.keyMap.get? keySlice)).getD []

/-- What was added in a slot under a blockhash. -/
def StatusCache.delta (self : StatusCache T) (slot : Nat) (blockhash : Hash) :
    List (KeySlice × T) :=
  (((self.slotDeltas.get? slot).bind (fun deltas => deltas.get? blockhash)).map Prod.snd).getD []

section

variable {cache cache' : KeyStatusMap T} {blockhash blockhash' : Hash} {keySlice : KeySlice}
  {slot : Nat} {entry : BlockhashEntry T} {forks : List (Nat × T)} {fork : Nat × T}

theorem forks_eq (h : cache.get? blockhash = some entry) :
    KeyStatusMap.forks cache blockhash keySlice = (entry.keyMap.get? keySlice).getD [] := by
  rw [KeyStatusMap.forks, h, Option.bind_some]

theorem forks_eq_nil (h : cache.get? blockhash = none) :
    KeyStatusMap.forks cache blockhash keySlice = [] := by
  rw [KeyStatusMap.forks, h]
  rfl

theorem forks_congr (h : cache'.get? blockhash = cache.get? blockhash) :
    KeyStatusMap.forks cache' blockhash keySlice = KeyStatusMap.forks cache blockhash keySlice := by
  rw [KeyStatusMap.forks, KeyStatusMap.forks, h]

theorem exists_entry (h : fork ∈ KeyStatusMap.forks cache blockhash keySlice) :
    ∃ entry, cache.get? blockhash = some entry := by
  cases hget : cache.get? blockhash with
  | none =>
    rw [forks_eq_nil hget] at h
    exact absurd h not_mem_nil
  | some entry => exact ⟨entry, rfl⟩

/-! ## Clearing a slot -/

/-- Dropping what was seen in the slot. -/
def without (slot : Nat) (forks : List (Nat × T)) : List (Nat × T) :=
  forks.filter (fun fork => fork.1 ≠ slot)

theorem without_without (forks : List (Nat × T)) :
    without slot (without slot forks) = without slot forks := by
  rw [without, without, filter_filter]
  simp only [Bool.and_self]

theorem without_eq_self (h : ∀ fork ∈ forks, fork.1 ≠ slot) :
    without slot forks = forks := by
  rw [without, filter_eq_self]
  intro fork hfork
  exact decide_eq_true (h fork hfork)

theorem mem_without :
    fork ∈ without slot forks ↔ fork ∈ forks ∧ fork.1 ≠ slot := by
  rw [without, mem_filter, decide_eq_true_eq]

theorem clearKey_get? (keyMap : BTreeMap KeySlice (List (Nat × T))) (cleared : KeySlice) :
    ((clearKey slot keyMap cleared).get? keySlice).getD [] =
      if keySlice = cleared then without slot ((keyMap.get? keySlice).getD [])
      else (keyMap.get? keySlice).getD [] := by
  unfold clearKey
  cases hforks : keyMap.get? cleared with
  | none =>
    by_cases hkey : keySlice = cleared
    · rw [if_pos hkey, hkey, hforks]
      rfl
    · rw [if_neg hkey]
  | some forks =>
    dsimp only
    by_cases hempty : forks.filter (fun fork => fork.1 ≠ slot) = []
    · rw [if_pos hempty, BTreeMap.get?_remove]
      by_cases hkey : keySlice = cleared
      · rw [if_pos hkey, if_pos hkey, hkey, hforks]
        exact hempty.symm
      · rw [if_neg hkey, if_neg hkey]
    · rw [if_neg hempty, BTreeMap.get?_insert]
      by_cases hkey : keySlice = cleared
      · rw [if_pos hkey, if_pos hkey, hkey, hforks]
        rfl
      · rw [if_neg hkey, if_neg hkey]

/-- The keys of the list are cleared, also one that it has twice. -/
theorem clearKeys_get? (cleared : List KeySlice) (keyMap : BTreeMap KeySlice (List (Nat × T))) :
    ((cleared.foldl (clearKey slot) keyMap).get? keySlice).getD [] =
      if keySlice ∈ cleared then without slot ((keyMap.get? keySlice).getD [])
      else (keyMap.get? keySlice).getD [] := by
  induction cleared generalizing keyMap with
  | nil => rw [foldl_nil, if_neg not_mem_nil]
  | cons key cleared ih =>
    rw [foldl_cons, ih, clearKey_get?]
    by_cases hkey : keySlice = key
    · rw [if_pos hkey, without_without, ite_self, if_pos (hkey ▸ mem_cons_self)]
    · rw [if_neg hkey]
      simp only [mem_cons, hkey, false_or]

theorem get?_of_isEmpty {keyMap : BTreeMap KeySlice (List (Nat × T))}
    (h : keyMap.isEmpty = true) : keyMap.get? keySlice = none := by
  rw [BTreeMap.get?, isEmpty_iff.mp h]
  rfl

/-- What clearing keeps of the entry of a blockhash. -/
def SameHead (cache cache' : KeyStatusMap T) : Prop :=
  ∀ blockhash entry', cache'.get? blockhash = some entry' →
    ∃ entry, cache.get? blockhash = some entry ∧ entry'.maxSlot = entry.maxSlot ∧
      entry'.keyIndex = entry.keyIndex

theorem clearBlockhash_spec (slot : Nat)
    (hentry : cache.get? blockhash = some entry) (keyIndex : Nat) (keyList : List (KeySlice × T)) :
    ∃ cache', clearBlockhash slot cache (blockhash, keyIndex, keyList) = .ok cache' ∧
      (∀ blockhash', blockhash' ≠ blockhash → cache'.get? blockhash' = cache.get? blockhash') ∧
      (∀ keySlice, KeyStatusMap.forks cache' blockhash keySlice =
        if keySlice ∈ keyList.map Prod.fst then
          without slot (KeyStatusMap.forks cache blockhash keySlice)
        else KeyStatusMap.forks cache blockhash keySlice) ∧
      SameHead cache cache' := by
  unfold clearBlockhash
  rw [hentry]
  dsimp only
  set keyMap := (keyList.map Prod.fst).foldl (clearKey slot) entry.keyMap with hkeyMap
  have hget : ∀ keySlice, (keyMap.get? keySlice).getD [] =
      if keySlice ∈ keyList.map Prod.fst then
        without slot (KeyStatusMap.forks cache blockhash keySlice)
      else KeyStatusMap.forks cache blockhash keySlice := by
    intro keySlice
    rw [hkeyMap, clearKeys_get?, forks_eq hentry]
  by_cases hempty : keyMap.isEmpty = true
  · rw [if_pos hempty]
    refine ⟨_, rfl, fun b hb => ?_, fun keySlice => ?_, fun b entry' hentry' => ?_⟩
    · rw [BTreeMap.get?_remove, if_neg hb]
    · rw [forks_eq_nil (by rw [BTreeMap.get?_remove, if_pos rfl]), ← hget, get?_of_isEmpty hempty]
      rfl
    · rw [BTreeMap.get?_remove] at hentry'
      split_ifs at hentry' with hb
      exact ⟨entry', hentry', rfl, rfl⟩
  · rw [if_neg hempty]
    refine ⟨_, rfl, fun b hb => ?_, fun keySlice => ?_, fun b entry' hentry' => ?_⟩
    · rw [BTreeMap.get?_insert, if_neg hb]
    · rw [forks_eq (by rw [BTreeMap.get?_insert, if_pos rfl]), ← hget]
    · rw [BTreeMap.get?_insert] at hentry'
      split_ifs at hentry' with hb
      · cases hentry'
        exact ⟨entry, hb ▸ hentry, rfl, rfl⟩
      · exact ⟨entry', hentry', rfl, rfl⟩

theorem clearBlockhashes_spec (slot : Nat) {deltas : List (Hash × Nat × List (KeySlice × T))}
    (hnodup : (deltas.map Prod.fst).Nodup)
    (hexists : ∀ delta ∈ deltas, ∃ entry, cache.get? delta.1 = some entry) :
    ∃ cache', deltas.foldlM (clearBlockhash slot) cache = .ok cache' ∧
      (∀ blockhash keySlice,
        (∃ delta ∈ deltas, delta.1 = blockhash ∧ keySlice ∈ delta.2.2.map Prod.fst) →
        KeyStatusMap.forks cache' blockhash keySlice =
          without slot (KeyStatusMap.forks cache blockhash keySlice)) ∧
      (∀ blockhash keySlice,
        ¬ (∃ delta ∈ deltas, delta.1 = blockhash ∧ keySlice ∈ delta.2.2.map Prod.fst) →
        KeyStatusMap.forks cache' blockhash keySlice =
          KeyStatusMap.forks cache blockhash keySlice) ∧
      SameHead cache cache' := by
  induction deltas generalizing cache with
  | nil =>
    exact ⟨cache, rfl, fun _ _ ⟨_, h, _⟩ => absurd h not_mem_nil, fun _ _ _ => rfl,
      fun _ entry' h => ⟨entry', h, rfl, rfl⟩⟩
  | cons delta deltas ih =>
    obtain ⟨hnotin, hnodup'⟩ := nodup_cons.mp hnodup
    obtain ⟨entry, hentry⟩ := hexists delta mem_cons_self
    obtain ⟨cache₁, hstep, hother, hforks, hhead⟩ :=
      clearBlockhash_spec slot hentry delta.2.1 delta.2.2
    have hne : ∀ d ∈ deltas, d.1 ≠ delta.1 := fun d hd heq =>
      hnotin (heq ▸ mem_map_of_mem hd)
    have hexists' : ∀ d ∈ deltas, ∃ entry, cache₁.get? d.1 = some entry := by
      intro d hd
      rw [hother d.1 (hne d hd)]
      exact hexists d (mem_cons_of_mem _ hd)
    obtain ⟨cache₂, hrest, hcleared, hkept, hhead'⟩ := ih hnodup' hexists'
    refine ⟨cache₂, ?_, fun b keySlice hin => ?_, fun b keySlice hout => ?_,
      fun b entry' hentry' => ?_⟩
    · rw [foldlM_cons, hstep]
      exact hrest
    · obtain ⟨d, hd, rfl, hkey⟩ := hin
      rcases mem_cons.mp hd with rfl | hd
      · -- the first blockhash does not occur again
        rw [hkept _ _ (fun ⟨d', hd', heq, _⟩ => hne d' hd' heq), hforks, if_pos hkey]
      · rw [hcleared _ _ ⟨d, hd, rfl, hkey⟩, forks_congr (hother d.1 (hne d hd))]
    · have hout' : ¬ ∃ d ∈ deltas, d.1 = b ∧ keySlice ∈ d.2.2.map Prod.fst :=
        fun ⟨d, hd, h⟩ => hout ⟨d, mem_cons_of_mem _ hd, h⟩
      rw [hkept b keySlice hout']
      by_cases hb : b = delta.1
      · subst hb
        rw [hforks, if_neg (fun hkey => hout ⟨delta, mem_cons_self, rfl, hkey⟩)]
      · exact forks_congr (hother b hb)
    · obtain ⟨entry₁, hentry₁, hmax₁, hindex₁⟩ := hhead' b entry' hentry'
      obtain ⟨entry₀, hentry₀, hmax₀, hindex₀⟩ := hhead b entry₁ hentry₁
      exact ⟨entry₀, hentry₀, hmax₁.trans hmax₀, hindex₁.trans hindex₀⟩

end

end Agave.Runtime
