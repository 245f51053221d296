/-
  Agave.Runtime.StatusCacheRun

  The status cache over any sequence of operations.

  The cache is compared with a log of what was inserted and not cleared since.
  `Tracks` relates the two: what the cache finds is in the log, and it finds
  everything of a slot above the cutoffs of all purges.  For those slots the
  two indexes of the cache agree, which is what clearing a slot relies on.
-/

import Agave.Runtime.StatusCache

namespace Agave.Runtime

open Lib List KeyStatusMap BTreeMap

variable {T : Type _}

/-- What `insert` was called with. -/
structure Insertion (T : Type _) where
  blockhash : Hash
  key : List UInt8
  slot : Nat
  result : T

/-- The operations on the cache. -/
inductive CacheEvent (T : Type _) where
  | insert (insertion : Insertion T)
  | clearSlotEntries (slot : Nat)
  | addRoot (fork : Nat)
  | addRoots (forks : List Nat)

/-- The cache, what was inserted and not cleared since, and the cutoffs of the purges so far. -/
structure History (T : Type _) where
  statusCache : StatusCache T
  live : List (Insertion T)
  cutoffs : List Nat

namespace History

/-- The cache as it starts. -/
def start : History T := ⟨.default, [], []⟩

/-- Adding roots, with the cutoff of the purge recorded. -/
def addRoots (h : History T) (forks : List Nat) : History T where
  statusCache := h.statusCache.addRoots forks
  live := h.live
  cutoffs := h.cutoffs ++ (h.statusCache.extendRoots forks).purgeCutoff.toList

/-- One operation. -/
def step (h : History T) : CacheEvent T → Except StatusCachePanic (History T)
  | .insert insertion => do
    let statusCache ← h.statusCache.insert insertion.blockhash insertion.key insertion.slot
      insertion.result
    return { h with statusCache := statusCache, live := h.live ++ [insertion] }
  | .clearSlotEntries slot => do
    let statusCache ← h.statusCache.clearSlotEntries slot
    return { h with
      statusCache := statusCache
      live := h.live.filter (fun insertion => insertion.slot ≠ slot) }
  | .addRoot fork => .ok (h.addRoots [fork])
  | .addRoots forks => .ok (h.addRoots forks)

/-- Any number of operations. -/
def run (h : History T) (events : List (CacheEvent T)) : Except StatusCachePanic (History T) :=
  events.foldlM step h

/-- The caller's side: keys come from `keys`, and a slot is cleared only while
    it is above all roots. -/
def Allowed (keys : Set (List UInt8)) (h : History T) : CacheEvent T → Prop
  | .insert insertion => insertion.key ∈ keys
  | .clearSlotEntries slot => ∀ root ∈ h.statusCache.roots, root < slot
  | .addRoot _ => True
  | .addRoots _ => True

/-- Every operation of a sequence is allowed when it is made. -/
def Permitted (keys : Set (List UInt8)) : History T → List (CacheEvent T) → Prop
  | _, [] => True
  | h, event :: events =>
    h.Allowed keys event ∧ ∀ h', h.step event = .ok h' → Permitted keys h' events

end History

/-- The cache tracks the log. -/
structure Tracks (statusCache : StatusCache T) (live : List (Insertion T)) (cutoffs : List Nat) :
    Prop where
  sound : ∀ blockhash keySlice slot result,
    (slot, result) ∈ KeyStatusMap.forks statusCache.cache blockhash keySlice →
    ∃ key, keySliceAt key 0 = .ok keySlice ∧ ⟨blockhash, key, slot, result⟩ ∈ live
  complete : ∀ insertion ∈ live, (∀ cutoff ∈ cutoffs, cutoff < insertion.slot) →
    ∀ keySlice, keySliceAt insertion.key 0 = .ok keySlice →
      (insertion.slot, insertion.result) ∈
        KeyStatusMap.forks statusCache.cache insertion.blockhash keySlice
  deltas : ∀ slot, (∀ cutoff ∈ cutoffs, cutoff < slot) → ∀ blockhash keySlice,
    (∃ result, (keySlice, result) ∈ statusCache.delta slot blockhash) ↔
      ∃ result, (slot, result) ∈ KeyStatusMap.forks statusCache.cache blockhash keySlice
  filled : ∀ slot deltas blockhash, statusCache.slotDeltas.get? slot = some deltas →
    blockhash ∈ deltas.keys → statusCache.delta slot blockhash ≠ []
  le_maxSlot : ∀ blockhash entry, statusCache.cache.get? blockhash = some entry →
    ∀ keySlice, ∀ fork ∈ KeyStatusMap.forks statusCache.cache blockhash keySlice,
      fork.1 ≤ entry.maxSlot
  keyIndex : ∀ blockhash entry, statusCache.cache.get? blockhash = some entry → entry.keyIndex = 0
  root : ∃ root ∈ statusCache.roots, ∀ cutoff ∈ cutoffs, cutoff < root

variable {slot cutoff : Nat} {blockhash : Hash} {keySlice : KeySlice}

section

variable {self self' : StatusCache T} {live : List (Insertion T)} {cutoffs : List Nat}
  {cache : KeyStatusMap T} {fork : Nat × T}

theorem tracks_default : Tracks (.default : StatusCache T) [] [] where
  sound _ _ _ _ h := absurd h not_mem_nil
  complete _ h := absurd h not_mem_nil
  deltas _ _ _ _ := ⟨fun ⟨_, h⟩ => absurd h not_mem_nil,
    fun ⟨_, h⟩ => absurd h not_mem_nil⟩
  filled _ _ _ h := (nomatch h)
  le_maxSlot _ _ h := (nomatch h)
  keyIndex _ _ h := (nomatch h)
  root := ⟨0, Finset.mem_singleton_self 0, fun _ h => absurd h not_mem_nil⟩

/-! ## Insertion -/

theorem forks_getD (cache : KeyStatusMap T) (blockhash : Hash) (keySlice : KeySlice) (slot : Nat) :
    (((cache.get? blockhash).getD ⟨slot, 0, .empty⟩).keyMap.get? keySlice).getD [] =
      forks cache blockhash keySlice := by
  cases hentry : cache.get? blockhash with
  | none =>
    rw [forks_eq_nil hentry]
    rfl
  | some entry =>
    rw [forks_eq hentry]
    rfl

theorem forks_pushFork (cache : KeyStatusMap T) (blockhash blockhash' : Hash)
    (keySlice keySlice' : KeySlice) (slot : Nat) (result : T) :
    forks (cache.insert blockhash (StatusCache.pushFork
        ((cache.get? blockhash).getD ⟨slot, 0, .empty⟩) keySlice slot result)).2
        blockhash' keySlice' =
      forks cache blockhash' keySlice' ++
        if blockhash' = blockhash ∧ keySlice' = keySlice then [(slot, result)] else [] := by
  by_cases hb : blockhash' = blockhash
  · subst hb
    rw [forks_eq (by rw [get?_insert, if_pos rfl])]
    simp only [StatusCache.pushFork, get?_insert, forks_getD, true_and]
    by_cases hk : keySlice' = keySlice
    · rw [if_pos hk, if_pos hk, hk]
      rfl
    · rw [if_neg hk, if_neg hk, forks_getD, append_nil]
  · rw [if_neg (fun h => hb h.1), append_nil]
    exact forks_congr (by rw [get?_insert, if_neg hb])

theorem delta_addToSlotDelta (self : StatusCache T) (blockhash blockhash' : Hash)
    (slot slot' keyIndex : Nat) (keySlice : KeySlice) (result : T) :
    (self.addToSlotDelta blockhash slot keyIndex keySlice result).delta slot' blockhash' =
      self.delta slot' blockhash' ++
        if slot' = slot ∧ blockhash' = blockhash then [(keySlice, result)] else [] := by
  unfold StatusCache.delta StatusCache.addToSlotDelta
  simp only [get?_insert]
  by_cases hs : slot' = slot
  · subst hs
    rw [if_pos rfl, Option.bind_some, get?_insert]
    by_cases hb : blockhash' = blockhash
    · subst hb
      rw [if_pos rfl, if_pos ⟨rfl, rfl⟩]
      cases self.slotDeltas.get? slot' with
      | none => rfl
      | some deltas =>
        simp only [Option.getD_some, Option.map_some, Option.bind_some]
        cases deltas.get? blockhash' <;> rfl
    · rw [if_neg hb, if_neg (fun h => hb h.2), append_nil]
      cases self.slotDeltas.get? slot' with
      | none => rfl
      | some deltas => rfl
  · rw [if_neg hs, if_neg (fun h => hs h.1), append_nil]

theorem filled_addToSlotDelta (self : StatusCache T)
    (h : ∀ slot deltas blockhash, self.slotDeltas.get? slot = some deltas →
      blockhash ∈ deltas.keys → self.delta slot blockhash ≠ [])
    (blockhash : Hash) (slot keyIndex : Nat) (keySlice : KeySlice) (result : T) :
    let self' := self.addToSlotDelta blockhash slot keyIndex keySlice result
    ∀ slot' deltas blockhash', self'.slotDeltas.get? slot' = some deltas →
      blockhash' ∈ deltas.keys → self'.delta slot' blockhash' ≠ [] := by
  intro self' slot' deltas blockhash' hdeltas hmem
  rw [delta_addToSlotDelta]
  by_cases hnew : slot' = slot ∧ blockhash' = blockhash
  · rw [if_pos hnew]
    exact append_ne_nil_of_right_ne_nil _ (cons_ne_nil _ _)
  · rw [if_neg hnew, append_nil]
    change (self.slotDeltas.insert slot _).2.get? slot' = some deltas at hdeltas
    rw [get?_insert] at hdeltas
    by_cases hs : slot' = slot
    · -- the blockhash was in the slot before
      subst hs
      rw [if_pos rfl] at hdeltas
      cases hdeltas
      obtain ⟨value, hvalue⟩ := mem_keys_iff.mp hmem
      rw [get?_insert, if_neg (fun hb => hnew ⟨rfl, hb⟩)] at hvalue
      cases hold : self.slotDeltas.get? slot' with
      | none =>
        rw [hold] at hvalue
        cases hvalue
      | some deltas =>
        rw [hold] at hvalue
        exact h slot' deltas blockhash' hold (mem_keys_iff.mpr ⟨value, hvalue⟩)
    · rw [if_neg hs] at hdeltas
      exact h slot' deltas blockhash' hdeltas hmem

theorem Tracks.entry_keyIndex (h : Tracks self live cutoffs) (blockhash : Hash) (slot : Nat) :
    ((self.cache.get? blockhash).getD ⟨slot, 0, .empty⟩).keyIndex = 0 := by
  cases hentry : self.cache.get? blockhash with
  | none => rfl
  | some entry => exact h.keyIndex blockhash entry hentry

theorem Tracks.insert (h : Tracks self live cutoffs) (insertion : Insertion T)
    (hkey : cachedKeySize ≤ insertion.key.length) :
    ∃ self', self.insert insertion.blockhash insertion.key insertion.slot insertion.result =
      .ok self' ∧ Tracks self' (live ++ [insertion]) cutoffs := by
  obtain ⟨blockhash, key, slot, result⟩ := insertion
  obtain ⟨keySlice, hslice⟩ := keySliceAt_ok hkey
  have hindex := h.entry_keyIndex blockhash slot
  set cache := (self.cache.insert blockhash (StatusCache.pushFork
    ((self.cache.get? blockhash).getD ⟨slot, 0, .empty⟩) keySlice slot result)).2 with hcache
  have hmem : ∀ {b k fork}, fork ∈ forks cache b k ↔
      fork ∈ forks self.cache b k ∨
        (b = blockhash ∧ k = keySlice ∧ fork = (slot, result)) := by
    intro b k fork
    rw [hcache, forks_pushFork, mem_append, mem_ite_nil_right, mem_singleton, and_assoc]
  have hdelta : ∀ {s b k r}, (k, r) ∈ ({ self with cache := cache }.addToSlotDelta
        blockhash slot 0 keySlice result).delta s b ↔
      (k, r) ∈ self.delta s b ∨ (s = slot ∧ b = blockhash ∧ k = keySlice ∧ r = result) := by
    intro s b k r
    rw [delta_addToSlotDelta, mem_append, mem_ite_nil_right, mem_singleton, Prod.mk.injEq,
      and_assoc]
    rfl
  refine ⟨{ self with cache := cache }.addToSlotDelta blockhash slot 0 keySlice result, ?_,
    ?_, ?_, ?_, ?_, ?_, ?_, h.root⟩
  · rw [StatusCache.insert]
    dsimp only
    rw [hindex, Nat.zero_min, hslice]
    rfl
  · intro b k s r hfork
    rcases hmem.mp hfork with hold | ⟨rfl, rfl, heq⟩
    · obtain ⟨key', hkey', hlive⟩ := h.sound b k s r hold
      exact ⟨key', hkey', mem_append_left _ hlive⟩
    · cases heq
      exact ⟨key, hslice, mem_append_right _ (mem_singleton_self _)⟩
  · intro insertion hinsertion habove k hk
    rcases mem_append.mp hinsertion with hold | hnew
    · exact hmem.mpr (Or.inl (h.complete insertion hold habove k hk))
    · rw [mem_singleton.mp hnew] at hk ⊢
      rw [hslice] at hk
      cases hk
      exact hmem.mpr (Or.inr ⟨rfl, rfl, rfl⟩)
  · intro s habove b k
    constructor
    · rintro ⟨r, hr⟩
      rcases hdelta.mp hr with hold | ⟨rfl, rfl, rfl, rfl⟩
      · obtain ⟨r', hr'⟩ := (h.deltas s habove b k).mp ⟨r, hold⟩
        exact ⟨r', hmem.mpr (Or.inl hr')⟩
      · exact ⟨_, hmem.mpr (Or.inr ⟨rfl, rfl, rfl⟩)⟩
    · rintro ⟨r, hr⟩
      rcases hmem.mp hr with hold | ⟨rfl, rfl, heq⟩
      · obtain ⟨r', hr'⟩ := (h.deltas s habove b k).mpr ⟨r, hold⟩
        exact ⟨r', hdelta.mpr (Or.inl hr')⟩
      · cases heq
        exact ⟨_, hdelta.mpr (Or.inr ⟨rfl, rfl, rfl, rfl⟩)⟩
  · exact filled_addToSlotDelta { self with cache := cache } h.filled _ _ _ _ _
  · intro b entry hentry k fork hfork
    change cache.get? b = some entry at hentry
    rw [hcache, get?_insert] at hentry
    by_cases hb : b = blockhash
    · rw [if_pos hb] at hentry
      cases hentry
      rcases hmem.mp hfork with hold | ⟨-, -, rfl⟩
      · obtain ⟨entry₀, hentry₀⟩ := exists_entry hold
        refine le_max_of_le_right ?_
        rw [← hb, hentry₀]
        exact h.le_maxSlot b entry₀ hentry₀ k fork hold
      · exact le_max_left _ _
    · rw [if_neg hb] at hentry
      rcases hmem.mp hfork with hold | ⟨hb', -, -⟩
      · exact h.le_maxSlot b entry hentry k fork hold
      · exact absurd hb' hb
  · intro b entry hentry
    change cache.get? b = some entry at hentry
    rw [hcache, get?_insert] at hentry
    by_cases hb : b = blockhash
    · rw [if_pos hb] at hentry
      cases hentry
      exact hindex
    · rw [if_neg hb] at hentry
      exact h.keyIndex b entry hentry

/-! ## Clearing -/

/-- What clearing a slot leaves behind. -/
structure Cleared (slot : Nat) (before after : StatusCache T) : Prop where
  forks : ∀ blockhash keySlice, KeyStatusMap.forks after.cache blockhash keySlice =
    without slot (KeyStatusMap.forks before.cache blockhash keySlice)
  roots : after.roots = before.roots
  deltas : ∀ slot', slot' ≠ slot → after.slotDeltas.get? slot' = before.slotDeltas.get? slot'
  cleared : after.slotDeltas.get? slot = none
  head : SameHead before.cache after.cache

theorem Cleared.delta_eq {slot' : Nat} (h : Cleared slot self self')
    (hne : slot' ≠ slot) (blockhash : Hash) :
    self'.delta slot' blockhash = self.delta slot' blockhash := by
  rw [StatusCache.delta, StatusCache.delta, h.deltas slot' hne]

theorem Tracks.cleared (h : Tracks self live cutoffs) (hcleared : Cleared slot self self') :
    Tracks self' (live.filter (fun insertion => insertion.slot ≠ slot)) cutoffs where
  sound b k s r hfork := by
    rw [hcleared.forks, mem_without] at hfork
    obtain ⟨key, hkey, hlive⟩ := h.sound b k s r hfork.1
    exact ⟨key, hkey, mem_filter.mpr ⟨hlive, decide_eq_true hfork.2⟩⟩
  complete insertion hinsertion habove k hk := by
    obtain ⟨hlive, hne⟩ := mem_filter.mp hinsertion
    rw [hcleared.forks, mem_without]
    exact ⟨h.complete insertion hlive habove k hk, of_decide_eq_true hne⟩
  deltas s habove b k := by
    by_cases hs : s = slot
    · subst hs
      constructor
      · rintro ⟨r, hr⟩
        rw [StatusCache.delta, hcleared.cleared] at hr
        exact absurd hr not_mem_nil
      · rintro ⟨r, hr⟩
        rw [hcleared.forks, mem_without] at hr
        exact absurd rfl hr.2
    · rw [hcleared.delta_eq hs, h.deltas s habove b k, hcleared.forks]
      simp only [mem_without, ne_eq, hs, not_false_eq_true, and_true]
  filled s deltas b hdeltas hb := by
    by_cases hs : s = slot
    · subst hs
      rw [hcleared.cleared] at hdeltas
      cases hdeltas
    · rw [hcleared.deltas s hs] at hdeltas
      rw [hcleared.delta_eq hs]
      exact h.filled s deltas b hdeltas hb
  le_maxSlot b entry hentry k fork hfork := by
    obtain ⟨entry₀, hentry₀, hmax, -⟩ := hcleared.head b entry hentry
    rw [hcleared.forks, mem_without] at hfork
    rw [hmax]
    exact h.le_maxSlot b entry₀ hentry₀ k fork hfork.1
  keyIndex b entry hentry := by
    obtain ⟨entry₀, hentry₀, -, hindex⟩ := hcleared.head b entry hentry
    rw [hindex]
    exact h.keyIndex b entry₀ hentry₀
  root := by
    rw [hcleared.roots]
    exact h.root

section

variable (h : Tracks self live cutoffs) (hslot : ∀ root ∈ self.roots, root < slot)
include h hslot

theorem Tracks.above_cutoffs : ∀ cutoff ∈ cutoffs, cutoff < slot := by
  obtain ⟨root, hroot, hcutoffs⟩ := h.root
  exact fun cutoff hcutoff => (hcutoffs cutoff hcutoff).trans (hslot root hroot)

/-- Clearing a slot that no root has reached does not panic, and takes its
    entries away, and only these. -/
theorem Tracks.clearSlotEntries :
    ∃ self', self.clearSlotEntries slot = .ok self' ∧ Cleared slot self self' := by
  have habove := h.above_cutoffs hslot
  -- a key that the slot does not list has no entry of the slot
  have hunlisted : ∀ b k, (¬ ∃ result, (k, result) ∈ self.delta slot b) →
      forks self.cache b k =
        without slot (forks self.cache b k) := by
    intro b k hno
    rw [h.deltas slot habove b k] at hno
    refine (without_eq_self ?_).symm
    intro fork hfork heq
    subst heq
    exact hno ⟨fork.2, hfork⟩
  unfold StatusCache.clearSlotEntries
  cases hdeltas : self.slotDeltas.get? slot with
  | none =>
    refine ⟨self, rfl, fun b k => hunlisted b k ?_, rfl, fun _ _ => rfl, hdeltas,
      fun _ entry hentry => ⟨entry, hentry, rfl, rfl⟩⟩
    rintro ⟨result, hresult⟩
    rw [StatusCache.delta, hdeltas] at hresult
    exact absurd hresult not_mem_nil
  | some deltas =>
    have hdelta : ∀ {delta}, delta ∈ deltas.entries → self.delta slot delta.1 = delta.2.2 := by
      intro delta hmem
      rw [StatusCache.delta, hdeltas, Option.bind_some,
        get?_eq_some_iff.mpr (show (delta.1, delta.2) ∈ deltas.entries from hmem)]
      rfl
    have hexists : ∀ delta ∈ deltas.entries, ∃ entry, self.cache.get? delta.1 = some entry := by
      intro delta hmem
      have hne := h.filled slot deltas delta.1 hdeltas (mem_map_of_mem hmem)
      obtain ⟨⟨k, result⟩, hk⟩ := exists_mem_of_ne_nil _ hne
      obtain ⟨result', hresult'⟩ := (h.deltas slot habove delta.1 k).mp ⟨result, hk⟩
      exact exists_entry hresult'
    obtain ⟨cache, hcache, hcleared, hkept, hhead⟩ :=
      clearBlockhashes_spec slot deltas.nodup_keys hexists
    refine ⟨{ self with cache := cache, slotDeltas := (self.slotDeltas.remove slot).2 }, ?_,
      fun b k => ?_, rfl, fun s hs => ?_, ?_, hhead⟩
    · dsimp only
      rw [hcache]
      rfl
    · by_cases hin : ∃ delta ∈ deltas.entries, delta.1 = b ∧ k ∈ delta.2.2.map Prod.fst
      · exact hcleared b k hin
      · rw [show forks cache b k = _ from hkept b k hin]
        apply hunlisted
        rintro ⟨result, hresult⟩
        have hb : b ∈ deltas.keys := by
          by_contra hb
          rw [StatusCache.delta, hdeltas, Option.bind_some,
            get?_eq_none_iff.mpr hb] at hresult
          exact absurd hresult not_mem_nil
        obtain ⟨delta, hmem, rfl⟩ := mem_map.mp hb
        rw [hdelta hmem] at hresult
        exact hin ⟨delta, hmem, rfl, mem_map_of_mem hresult⟩
    · rw [get?_remove, if_neg hs]
    · rw [get?_remove, if_pos rfl]

end

/-! ## Purging -/

theorem purgeCutoff_lt (h : self.purgeCutoff = some cutoff) :
    ∃ root ∈ self.roots, cutoff < root := by
  unfold StatusCache.purgeCutoff at h
  split_ifs at h with hmany
  have hpos := self.maxRootEntries.pos
  obtain ⟨hlt, hget⟩ := List.getElem?_eq_some_iff.mp h
  have hlen : (self.roots.sort (· ≤ ·)).length = self.roots.card := Finset.length_sort _
  have hnext : self.roots.card - self.maxRootEntries - 1 + 1 <
      (self.roots.sort (· ≤ ·)).length := by omega
  refine ⟨(self.roots.sort (· ≤ ·))[self.roots.card - self.maxRootEntries - 1 + 1], ?_, ?_⟩
  · exact (Finset.mem_sort _).mp (getElem_mem hnext)
  · rw [← hget]
    exact pairwise_iff_getElem.mp (Finset.sortedLT_sort self.roots).pairwise _ _ hlt hnext
      (Nat.lt_succ_self _)

theorem retained_get? {entry : BlockhashEntry T} :
    (cache.retain (fun _ entry => decide (cutoff < entry.maxSlot))).get? blockhash = some entry ↔
      cache.get? blockhash = some entry ∧ cutoff < entry.maxSlot := by
  rw [get?_retain_eq_some_iff, decide_eq_true_eq]

theorem mem_forks_of_retained (h : fork ∈ forks
      (cache.retain (fun _ entry => decide (cutoff < entry.maxSlot))) blockhash keySlice) :
    fork ∈ forks cache blockhash keySlice := by
  obtain ⟨entry, hentry⟩ := exists_entry h
  rw [forks_eq hentry] at h
  rw [forks_eq (retained_get?.mp hentry).1]
  exact h

section

variable (h : Tracks self live cutoffs)
include h

/-- A purge takes nothing away from a slot above the cutoff. -/
theorem Tracks.mem_retained
    (hfork : fork ∈ forks self.cache blockhash keySlice) (hcutoff : cutoff < fork.1) :
    fork ∈ forks
      (self.cache.retain (fun _ entry => decide (cutoff < entry.maxSlot))) blockhash keySlice := by
  obtain ⟨entry, hentry⟩ := exists_entry hfork
  have hmax := h.le_maxSlot blockhash entry hentry keySlice fork hfork
  rw [forks_eq (retained_get?.mpr ⟨hentry, hcutoff.trans_le hmax⟩)]
  rw [forks_eq hentry] at hfork
  exact hfork

theorem Tracks.purgeRoots :
    Tracks self.purgeRoots live (cutoffs ++ self.purgeCutoff.toList) := by
  unfold StatusCache.purgeRoots
  cases hcutoff : self.purgeCutoff with
  | none =>
    rw [Option.toList_none, append_nil]
    exact h
  | some cutoff =>
    rw [Option.toList_some]
    dsimp only
    -- what is above the cutoffs now was so before
    have hsplit : ∀ {slot}, (∀ c ∈ cutoffs ++ [cutoff], c < slot) →
        (∀ c ∈ cutoffs, c < slot) ∧ cutoff < slot := fun hall =>
      ⟨fun c hc => hall c (mem_append_left _ hc),
        hall cutoff (mem_append_right _ (mem_singleton_self _))⟩
    have hslots : ∀ {slot}, cutoff < slot →
        (self.slotDeltas.retain (fun slot _ => decide (cutoff < slot))).get? slot =
          self.slotDeltas.get? slot := by
      intro slot hlt
      apply Option.ext
      intro deltas
      rw [get?_retain_eq_some_iff, decide_eq_true_eq]
      exact and_iff_left hlt
    refine ⟨fun b k s r hfork => h.sound b k s r (mem_forks_of_retained hfork), ?_, ?_, ?_, ?_,
      ?_, ?_⟩
    · intro insertion hinsertion habove k hk
      obtain ⟨habove', hlt⟩ := hsplit habove
      exact h.mem_retained (h.complete insertion hinsertion habove' k hk) hlt
    · intro s habove b k
      obtain ⟨habove', hlt⟩ := hsplit habove
      rw [StatusCache.delta, hslots hlt]
      refine (h.deltas s habove' b k).trans ⟨?_, ?_⟩
      · rintro ⟨r, hr⟩
        exact ⟨r, h.mem_retained hr hlt⟩
      · rintro ⟨r, hr⟩
        exact ⟨r, mem_forks_of_retained hr⟩
    · intro s deltas b hdeltas hb
      have hkept := get?_retain_eq_some_iff.mp hdeltas
      rw [StatusCache.delta, hslots (of_decide_eq_true hkept.2)]
      exact h.filled s deltas b hkept.1 hb
    · intro b entry hentry k fork hfork
      exact h.le_maxSlot b entry (retained_get?.mp hentry).1 k fork (mem_forks_of_retained hfork)
    · intro b entry hentry
      exact h.keyIndex b entry (retained_get?.mp hentry).1
    · -- the highest root is above the new cutoff, and above the old ones
      obtain ⟨root, hroot, hcutoffs⟩ := h.root
      obtain ⟨next, hnext, hlt⟩ := purgeCutoff_lt hcutoff
      refine ⟨max root next, Finset.mem_filter.mpr ⟨?_, hlt.trans_le (le_max_right _ _)⟩, ?_⟩
      · exact max_rec' (· ∈ self.roots) hroot hnext
      · intro c hc
        rcases mem_append.mp hc with hold | hnew
        · exact (hcutoffs c hold).trans_le (le_max_left _ _)
        · rw [mem_singleton.mp hnew]
          exact hlt.trans_le (le_max_right _ _)

theorem Tracks.extendRoots (forks : List Nat) :
    Tracks (self.extendRoots forks) live cutoffs :=
  ⟨h.sound, h.complete, h.deltas, h.filled, h.le_maxSlot, h.keyIndex, by
    obtain ⟨root, hroot, hcutoffs⟩ := h.root
    exact ⟨root, Finset.mem_union_left _ hroot, hcutoffs⟩⟩

/-! ## Answers -/

/-- Keys are sliced at their start. -/
theorem Tracks.getStatus {key : List UInt8}
    (hslice : keySliceAt key 0 = .ok keySlice) (blockhash : Hash) (ancestors : Nat → Bool) :
    self.getStatus key blockhash ancestors =
      .ok ((forks self.cache blockhash keySlice).find?
        (fun fork => ancestors fork.1 || decide (fork.1 ∈ self.roots))) := by
  unfold StatusCache.getStatus
  cases hentry : self.cache.get? blockhash with
  | none =>
    rw [forks_eq_nil hentry]
    rfl
  | some entry =>
    dsimp only
    rw [h.keyIndex blockhash entry hentry, Nat.zero_min, hslice, forks_eq hentry, ok_bind]
    cases entry.keyMap.get? keySlice <;> rfl

end

/-- The first match stays the first when others are dropped. -/
theorem find?_without {forks : List (Nat × T)} {p : Nat × T → Bool}
    (h : ∀ fork, forks.find? p = some fork → fork.1 ≠ slot) :
    (without slot forks).find? p = forks.find? p := by
  induction forks with
  | nil => rfl
  | cons fork forks ih =>
    by_cases hp : p fork = true
    · have hne := h fork (find?_cons_of_pos hp)
      rw [without, filter_cons, if_pos (decide_eq_true hne), find?_cons_of_pos hp,
        find?_cons_of_pos hp]
    · rw [find?_cons_of_neg hp] at h ⊢
      rw [← ih h, without]
      by_cases hne : fork.1 ≠ slot
      · rw [filter_cons, if_pos (decide_eq_true hne), find?_cons_of_neg hp]
        rfl
      · rw [filter_cons, if_neg (mt of_decide_eq_true hne)]
        rfl

end

/-! ## Runs -/

namespace History

variable {keys : Set (List UInt8)} {h : History T}

/-- The cache tracks the log, whose keys are those of the caller. -/
structure Sound (keys : Set (List UInt8)) (h : History T) : Prop where
  tracks : Tracks h.statusCache h.live h.cutoffs
  keys_mem : ∀ insertion ∈ h.live, insertion.key ∈ keys

theorem sound_start : (start : History T).Sound keys :=
  ⟨tracks_default, fun _ h => absurd h not_mem_nil⟩

/-- An operation that is allowed is made, and the cache keeps track. -/
theorem step_sound (hkeys : ∀ key ∈ keys, cachedKeySize ≤ key.length)
    (hsound : h.Sound keys) (event : CacheEvent T) (hallowed : h.Allowed keys event) :
    ∃ h', h.step event = .ok h' ∧ h'.Sound keys := by
  obtain ⟨htracks, hmem⟩ := hsound
  have hroots : ∀ forks, (h.addRoots forks).Sound keys := fun forks =>
    ⟨(htracks.extendRoots forks).purgeRoots, hmem⟩
  cases event with
  | insert insertion =>
    obtain ⟨self', hinsert, htracks'⟩ := htracks.insert insertion (hkeys _ hallowed)
    refine ⟨⟨self', h.live ++ [insertion], h.cutoffs⟩, ?_, htracks', fun i hi => ?_⟩
    · rw [step, hinsert]
      rfl
    · rcases mem_append.mp hi with hold | hnew
      · exact hmem i hold
      · rw [mem_singleton.mp hnew]
        exact hallowed
  | clearSlotEntries slot =>
    obtain ⟨self', hclear, hcleared⟩ := htracks.clearSlotEntries hallowed
    refine ⟨⟨self', h.live.filter (fun insertion => insertion.slot ≠ slot), h.cutoffs⟩, ?_,
      htracks.cleared hcleared, fun i hi => hmem i (mem_of_mem_filter hi)⟩
    rw [step, hclear]
    rfl
  | addRoot fork => exact ⟨_, rfl, hroots [fork]⟩
  | addRoots forks => exact ⟨_, rfl, hroots forks⟩

theorem run_sound (hkeys : ∀ key ∈ keys, cachedKeySize ≤ key.length) (events : List (CacheEvent T))
    (hsound : h.Sound keys) (hpermitted : h.Permitted keys events) :
    ∃ h', h.run events = .ok h' ∧ h'.Sound keys := by
  induction events generalizing h with
  | nil => exact ⟨h, rfl, hsound⟩
  | cons event events ih =>
    obtain ⟨h₁, hstep, hsound₁⟩ := step_sound hkeys hsound event hpermitted.1
    obtain ⟨h₂, hrun, hsound₂⟩ := ih hsound₁ (hpermitted.2 h₁ hstep)
    refine ⟨h₂, ?_, hsound₂⟩
    rw [run, foldlM_cons, hstep]
    exact hrun

/-- The cache answers exactly.  After any allowed operations, none of which panics: an answer is an
    insertion that was not cleared, in a slot of the fork or in a root; such an insertion is found
    if its slot is above the cutoffs of all purges; and clearing a slot takes away what was seen in
    this slot, and nothing else. -/
theorem status_cache_exact (keys : Set (List UInt8))
    (hlength : ∀ key ∈ keys, cachedKeySize ≤ key.length)
    (hdistinct : Set.InjOn (List.take cachedKeySize) keys)
    (events : List (CacheEvent T)) (hpermitted : (start : History T).Permitted keys events) :
    ∃ h, (start : History T).run events = .ok h ∧
      (∀ key ∈ keys, ∀ blockhash ancestors slot result,
        h.statusCache.getStatus key blockhash ancestors = .ok (some (slot, result)) →
        (ancestors slot = true ∨ slot ∈ h.statusCache.roots) ∧ ⟨blockhash, key, slot, result⟩ ∈ h.live) ∧
      (∀ insertion ∈ h.live, ∀ ancestors,
        (ancestors insertion.slot = true ∨ insertion.slot ∈ h.statusCache.roots) →
        (∀ cutoff ∈ h.cutoffs, cutoff < insertion.slot) →
        ∃ answer, h.statusCache.getStatus insertion.key insertion.blockhash ancestors =
          .ok (some answer)) ∧
      ∀ slot, (∀ root ∈ h.statusCache.roots, root < slot) →
        ∃ self', h.statusCache.clearSlotEntries slot = .ok self' ∧
          (∀ blockhash keySlice, forks self'.cache blockhash keySlice =
            (forks h.statusCache.cache blockhash keySlice).filter
              (fun fork => fork.1 ≠ slot)) ∧
          ∀ key ∈ keys, ∀ blockhash ancestors,
            (∀ answer, self'.getStatus key blockhash ancestors = .ok (some answer) →
              answer.1 ≠ slot) ∧
            ∀ answer, h.statusCache.getStatus key blockhash ancestors = .ok answer →
              (∀ fork, answer = some fork → fork.1 ≠ slot) →
              self'.getStatus key blockhash ancestors = .ok answer := by
  obtain ⟨h, hrun, htracks, hmem⟩ := run_sound hlength events sound_start hpermitted
  refine ⟨h, hrun, ?_, ?_, ?_⟩
  · intro key hkey blockhash ancestors slot result hanswer
    obtain ⟨keySlice, hslice⟩ := keySliceAt_ok (hlength key hkey)
    rw [htracks.getStatus hslice] at hanswer
    have hfound := Except.ok.inj hanswer
    have hmatch := find?_some hfound
    rw [Bool.or_eq_true, decide_eq_true_eq] at hmatch
    obtain ⟨key', hslice', hlive⟩ :=
      htracks.sound blockhash keySlice slot result (mem_of_find?_eq_some hfound)
    have hsame : key' = key :=
      hdistinct (hmem _ hlive) hkey (take_eq_of_keySliceAt hslice' hslice)
    exact ⟨hmatch, hsame ▸ hlive⟩
  · intro insertion hinsertion ancestors hvisible habove
    obtain ⟨keySlice, hslice⟩ :=
      keySliceAt_ok (hlength insertion.key (hmem insertion hinsertion))
    rw [htracks.getStatus hslice]
    have hfork := htracks.complete insertion hinsertion habove keySlice hslice
    have hsome : ((forks h.statusCache.cache insertion.blockhash keySlice).find?
        (fun fork => ancestors fork.1 || decide (fork.1 ∈ h.statusCache.roots))).isSome := by
      rw [find?_isSome]
      refine ⟨_, hfork, ?_⟩
      rw [Bool.or_eq_true, decide_eq_true_eq]
      exact hvisible
    obtain ⟨answer, hanswer⟩ := Option.isSome_iff_exists.mp hsome
    exact ⟨answer, congrArg Except.ok hanswer⟩
  · intro slot hslot
    obtain ⟨self', hclear, hcleared⟩ := htracks.clearSlotEntries hslot
    have htracks' := htracks.cleared hcleared
    refine ⟨self', hclear, hcleared.forks, fun key hkey blockhash ancestors => ?_⟩
    obtain ⟨keySlice, hslice⟩ := keySliceAt_ok (hlength key hkey)
    rw [htracks'.getStatus hslice, htracks.getStatus hslice, hcleared.forks, hcleared.roots]
    constructor
    · intro answer hanswer
      exact (mem_without.mp (mem_of_find?_eq_some (Except.ok.inj hanswer))).2
    · intro answer hanswer hother
      have hfound := Except.ok.inj hanswer
      rw [find?_without (fun fork hfork => hother fork (hfound.symm.trans hfork)), hfound]

/-- A transaction is seen on two forks, one of which is cleared; the other still answers. -/
theorem status_cache_exact_cleared_fork :
    ∃ h, (start : History Unit).run
        [.insert ⟨Hash.ofNat 1, List.replicate 64 7, 5, ()⟩,
          .insert ⟨Hash.ofNat 1, List.replicate 64 7, 6, ()⟩, .clearSlotEntries 6] = .ok h ∧
      ∃ answer, h.statusCache.getStatus (List.replicate 64 7) (Hash.ofNat 1) (fun s => s == 5) =
        .ok (some answer) := by
  obtain ⟨h, hrun, -, hfound, -⟩ := status_cache_exact (T := Unit) {List.replicate 64 7}
    (by
      rintro key rfl
      decide)
    (Set.injOn_singleton _ _)
    [.insert ⟨Hash.ofNat 1, List.replicate 64 7, 5, ()⟩,
      .insert ⟨Hash.ofNat 1, List.replicate 64 7, 6, ()⟩, .clearSlotEntries 6]
    (by
      refine ⟨rfl, fun h hstep => ?_⟩
      cases hstep
      refine ⟨rfl, fun h hstep => ?_⟩
      cases hstep
      refine ⟨fun root hroot => ?_, fun h _ => trivial⟩
      rw [Finset.mem_singleton.mp hroot]
      decide)
  refine ⟨h, hrun, ?_⟩
  cases hrun
  exact hfound ⟨Hash.ofNat 1, List.replicate 64 7, 5, ()⟩ mem_cons_self _ (Or.inl rfl)
    (fun _ hcutoff => absurd hcutoff not_mem_nil)

end History

end Agave.Runtime

