/-
  Agave.AccountsDb.AncientPacking

  Packing the accounts of ancient slots into fewer storages.

  An account that has references in several slots must not move to a slot below its own: the highest
  slot that holds an account decides which version is current.  The accounts are packed one storage
  after the other and written to the target slots from the highest down, accounts with many
  references first. `manyRefAccountsCanBeMoved` guesses from the number of bytes how many storages
  these take.

  The sums of sizes saturate, or wrap, at what a `usize` can count.  Results on sizes are about
  accounts that do not add up to more; no account is lost in any case.
-/

import Agave.Basic
import Agave.Lib.NextFit

namespace Agave.AccountsDb.Ancient

open Lib List

/-! ## Accounts -/

/-- `AccountFromStorage`, without its place in the storage. -/
structure AccountFromStorage where
  pubkey : Pubkey
  dataLen : Nat
deriving DecidableEq

/-- `STORE_META_OVERHEAD`. -/
def storeMetaOverhead : Nat := 136

/-- `u64_align!`. -/
def u64Align (n : Nat) : Nat := (n + (8 - 1)) / 8 * 8

def AccountFromStorage.storedSize (account : AccountFromStorage) : Nat :=
  u64Align (storeMetaOverhead + account.dataLen)

/-- `AliveAccounts`: accounts of a slot, and what they take in a storage. -/
structure AliveAccounts where
  slot : Nat
  accounts : List AccountFromStorage
  bytes : Nat
  bytes_eq : bytes = min (loadOf AccountFromStorage.storedSize accounts) u64Max

namespace AliveAccounts

def withCapacity (slot : Nat) : AliveAccounts := ⟨slot, [], 0, rfl⟩

def add (alive : AliveAccounts) (account : AccountFromStorage) : AliveAccounts where
  slot := alive.slot
  accounts := alive.accounts ++ [account]
  bytes := saturatingAdd alive.bytes account.storedSize
  bytes_eq := by
    rw [saturatingAdd, alive.bytes_eq, loadOf, loadOf, List.map_append, List.sum_append,
      List.map_singleton, List.sum_singleton]
    omega

theorem bytes_eq_loadOf {alive : AliveAccounts}
    (h : loadOf AccountFromStorage.storedSize alive.accounts ≤ u64Max) :
    alive.bytes = loadOf AccountFromStorage.storedSize alive.accounts :=
  alive.bytes_eq.trans (min_eq_left h)

end AliveAccounts

/-- An account with the slot that it is stored in. -/
abbrev Item := Nat × AccountFromStorage

def itemSize (item : Item) : Nat := item.2.storedSize

/-- The accounts of a slot, from an index on. -/
def AliveAccounts.items (alive : AliveAccounts) (index : Nat) : List Item :=
  (alive.accounts.drop index).map (Prod.mk alive.slot)

/-- All accounts, in their order. -/
def items (groups : List AliveAccounts) : List Item := groups.flatMap (fun alive => alive.items 0)

/-! ## Packing -/

/-- `PackedAncientStorage`: the accounts to move into a storage, with the slots
    that they come from. -/
structure PackedAncientStorage where
  accounts : List (Nat × List AccountFromStorage)
  bytes : Nat

/-- What the loop over the accounts of a slot leaves behind. -/
structure BrokenUp where
  taken : Nat
  bytesTotal : Nat
  partialBytesWritten : Nat
  full : Bool

/-- The loop over the accounts of a slot that does not fit as a whole. -/
def breakUp (idealSize : Nat) : List AccountFromStorage → Nat → Nat → BrokenUp
  | [], bytesTotal, partialBytesWritten => ⟨0, bytesTotal, partialBytesWritten, false⟩
  | account :: accounts, bytesTotal, partialBytesWritten =>
    let newSize := saturatingAdd bytesTotal account.storedSize
    if newSize > idealSize ∧ bytesTotal > 0 then ⟨0, bytesTotal, partialBytesWritten, true⟩
    else
      let rest := breakUp idealSize accounts newSize
        (saturatingAdd partialBytesWritten account.storedSize)
      { rest with taken := rest.taken + 1 }

/-- A storage that has been filled, and where the next one begins. -/
structure Filled where
  accountsToWrite : List (Nat × List AccountFromStorage)
  bytesTotal : Nat
  groups : List AliveAccounts
  partialInnerIndex : Nat
  partialBytesWritten : Nat

/-- The accounts of a slot that go into a storage, unless there are none. -/
def Filled.push (slot : Nat) (accounts : List AccountFromStorage) (filled : Filled) : Filled :=
  if accounts = [] then filled
  else { filled with accountsToWrite := (slot, accounts) :: filled.accountsToWrite }

/-- The loop that fills one storage.  The first of the groups is the current one,
    and its accounts before the index have been written. -/
def fill (idealSize : Nat) : List AliveAccounts → Nat → Nat → Nat → Filled
  | [], partialInnerIndex, partialBytesWritten, bytesTotal =>
    ⟨[], bytesTotal, [], partialInnerIndex, partialBytesWritten⟩
  | alive :: groups, partialInnerIndex, partialBytesWritten, bytesTotal =>
    if partialInnerIndex ≥ alive.accounts.length then fill idealSize groups 0 0 bytesTotal
    else
      let bytesTotalWithThisSlot := saturatingAdd bytesTotal (alive.bytes - partialBytesWritten)
      if bytesTotalWithThisSlot ≤ idealSize then
        -- The index is now at the end, so that the next round goes on with the next slot.
        (fill idealSize groups 0 0 bytesTotalWithThisSlot).push alive.slot
          (alive.accounts.drop partialInnerIndex)
      else
        let broken := breakUp idealSize (alive.accounts.drop partialInnerIndex) bytesTotal
          partialBytesWritten
        let written := (alive.accounts.drop partialInnerIndex).take broken.taken
        if broken.full then
          Filled.push alive.slot written ⟨[], broken.bytesTotal, alive :: groups,
            partialInnerIndex + broken.taken, broken.partialBytesWritten⟩
        else (fill idealSize groups 0 0 broken.bytesTotal).push alive.slot written

/-- The loop over the storages. -/
def packLoop (idealSize : Nat) : Nat → List AliveAccounts → Nat → Nat → List PackedAncientStorage
  | 0, _, _, _ => []
  | fuel + 1, groups, partialInnerIndex, partialBytesWritten =>
    let filled := fill idealSize groups partialInnerIndex partialBytesWritten 0
    if filled.accountsToWrite = [] then []
    else ⟨filled.accountsToWrite, filled.bytesTotal⟩ ::
      packLoop idealSize fuel filled.groups filled.partialInnerIndex filled.partialBytesWritten

/-- `pack`.  Every storage but the last round's takes an account. -/
def pack (groups : List AliveAccounts) (idealSize : Nat) : List PackedAncientStorage :=
  packLoop idealSize ((items groups).length + 1) groups 0 0

def manyRefAccountsCanBeMoved (manyRefsNewest : List AliveAccounts) (targetSlotsSorted : List Nat)
    (idealStorageSize : Nat) : Bool :=
  let aliveBytes := (manyRefsNewest.map AliveAccounts.bytes).sum % 2 ^ 64
  let requiredIdealPacked := aliveBytes / idealStorageSize + 1
  if aliveBytes = 0 then true
  else if targetSlotsSorted.length < requiredIdealPacked then false
  else
    match targetSlotsSorted[targetSlotsSorted.length - requiredIdealPacked]? with
    | none => false -- not reached: at least one storage is required
    | some highestSlot => manyRefsNewest.all (fun many => decide (many.slot ≤ highestSlot))

/-- An account that is written to a slot. -/
structure Write where
  item : Item
  targetSlot : Nat
deriving DecidableEq

/-- What a packed storage holds. -/
def PackedAncientStorage.items (storage : PackedAncientStorage) : List Item :=
  storage.accounts.flatMap (fun (slot, accounts) => accounts.map (Prod.mk slot))

/-- The writes of storages to slots, one to each. -/
def writeStorages (targetSlots : List Nat) (packedContents : List PackedAncientStorage) :
    List Write :=
  (targetSlots.zip packedContents).flatMap
    (fun (targetSlot, storage) => storage.items.map (fun item => ⟨item, targetSlot⟩))

/-- `write_packed_storages`: the storages go to the slots from the highest down. -/
def writePackedStorages (targetSlotsSorted : List Nat)
    (packedContents : List PackedAncientStorage) : List Write :=
  writeStorages targetSlotsSorted.reverse packedContents

/-- The accounts with many references, which are written first, are written to
    slots that are not below their own. -/
def MovesForward (manyRefs oneRefs : List AliveAccounts) (idealSize : Nat)
    (targetSlotsSorted : List Nat) : Prop :=
  let writes := (writePackedStorages targetSlotsSorted (pack (manyRefs ++ oneRefs) idealSize)).take
    (items manyRefs).length
  writes.map Write.item = items manyRefs ∧ ∀ write ∈ writes, write.item.1 ≤ write.targetSlot

/-! ## The loops pack as `nextFit` -/

variable {filled : Filled} {groups : List AliveAccounts} {alive : AliveAccounts}
  {accounts : List AccountFromStorage} {idealSize bytesTotal slot index written fuel : Nat}
  {targets : List Nat} {packed : List PackedAncientStorage} {write : Write}

/-- A `usize` can count the sizes of all accounts. -/
abbrev Countable (groups : List AliveAccounts) : Prop := loadOf itemSize (items groups) ≤ u64Max

theorem saturatingAdd_eq {a b : Nat} (h : a + b ≤ u64Max) : saturatingAdd a b = a + b :=
  min_eq_left h

theorem loadOf_items :
    loadOf itemSize (alive.items index) =
      loadOf AccountFromStorage.storedSize (alive.accounts.drop index) := by
  rw [loadOf, loadOf, AliveAccounts.items, map_map]
  rfl

theorem takeFit_map (slot : Nat) (capacity load : Nat) (accounts : List AccountFromStorage) :
    takeFit itemSize capacity load (accounts.map (Prod.mk slot)) =
      ((takeFit AccountFromStorage.storedSize capacity load accounts).1.map (Prod.mk slot),
        (takeFit AccountFromStorage.storedSize capacity load accounts).2.map (Prod.mk slot)) := by
  induction accounts generalizing load with
  | nil => rfl
  | cons account accounts ih =>
    rw [map_cons, takeFit, takeFit, ih]
    show (if load + account.storedSize > capacity ∧ load > 0 then _ else _) = _
    split <;> rfl

/-- The loop over the accounts of a slot takes what fits. -/
theorem breakUp_eq
    (htotal : bytesTotal + loadOf AccountFromStorage.storedSize accounts ≤ u64Max)
    (hwritten : written + loadOf AccountFromStorage.storedSize accounts ≤ u64Max) :
    let fit := takeFit AccountFromStorage.storedSize idealSize bytesTotal accounts
    breakUp idealSize accounts bytesTotal written =
      ⟨fit.1.length, bytesTotal + loadOf AccountFromStorage.storedSize fit.1,
        written + loadOf AccountFromStorage.storedSize fit.1, decide (fit.2 ≠ [])⟩ := by
  induction accounts generalizing bytesTotal written with
  | nil => rfl
  | cons account accounts ih =>
    rw [loadOf_cons] at htotal hwritten
    dsimp only
    rw [breakUp, takeFit, saturatingAdd_eq (by omega), saturatingAdd_eq (by omega)]
    dsimp only
    split
    · simp [loadOf]
    · rw [ih (by omega) (by omega)]
      simp only [loadOf_cons, length_cons, Nat.add_assoc]

/-- What is left of the groups, the first of which has been written up to an index. -/
def pending : List AliveAccounts → Nat → List Item
  | [], _ => []
  | alive :: groups, index => alive.items index ++ items groups

/-- The bytes written so far are those of the accounts before the index. -/
def PartlyWritten : List AliveAccounts → Nat → Nat → Prop
  | [], _, _ => True
  | alive :: _, index, written =>
    written = loadOf AccountFromStorage.storedSize (alive.accounts.take index)

theorem partlyWritten_zero (groups : List AliveAccounts) : PartlyWritten groups 0 0 := by
  cases groups with
  | nil => trivial
  | cons alive groups => rfl

theorem pending_zero (groups : List AliveAccounts) : pending groups 0 = items groups := by
  cases groups with
  | nil => rfl
  | cons alive groups => rfl

/-- What a filled storage holds. -/
def Filled.items (filled : Filled) : List Item :=
  PackedAncientStorage.items ⟨filled.accountsToWrite, filled.bytesTotal⟩

theorem items_push :
    (filled.push slot accounts).items = accounts.map (Prod.mk slot) ++ filled.items := by
  rw [Filled.push]
  split
  · rename_i hnil
    rw [hnil]
    rfl
  · rfl

theorem groups_push (slot : Nat) (accounts : List AccountFromStorage) (filled : Filled) :
    (filled.push slot accounts).groups = filled.groups ∧
      (filled.push slot accounts).partialInnerIndex = filled.partialInnerIndex ∧
      (filled.push slot accounts).partialBytesWritten = filled.partialBytesWritten ∧
      (filled.push slot accounts).bytesTotal = filled.bytesTotal := by
  rw [Filled.push]
  split
  · exact ⟨rfl, rfl, rfl, rfl⟩
  · exact ⟨rfl, rfl, rfl, rfl⟩

/-- No entry of a filled storage is empty. -/
def Filled.Dense (filled : Filled) : Prop :=
  ∀ entry ∈ filled.accountsToWrite, entry.2 ≠ []

theorem dense_push (h : filled.Dense) : (filled.push slot accounts).Dense := by
  rw [Filled.push]
  split
  · exact h
  · rename_i hne
    exact forall_mem_cons.mpr ⟨hne, h⟩

theorem Filled.Dense.accountsToWrite_eq_nil_iff (h : filled.Dense) :
    filled.accountsToWrite = [] ↔ filled.items = [] := by
  constructor
  · intro hnil
    rw [Filled.items, PackedAncientStorage.items, hnil]
    rfl
  · intro hnil
    rw [Filled.items, PackedAncientStorage.items, flatMap_eq_nil_iff] at hnil
    rw [eq_nil_iff_forall_not_mem]
    intro entry hentry
    exact h entry hentry (map_eq_nil_iff.mp (hnil entry hentry))

/-- A filled storage holds the first of some accounts, and the others are left. -/
structure Filled.Splits (filled : Filled) (all : List Item) : Prop where
  append_eq : filled.items ++ pending filled.groups filled.partialInnerIndex = all
  dense : filled.Dense

theorem Filled.Splits.push {all : List Item} (h : filled.Splits all) :
    (filled.push slot accounts).Splits (accounts.map (Prod.mk slot) ++ all) := by
  obtain ⟨hgroups, hindex, -⟩ := groups_push slot accounts filled
  refine ⟨?_, dense_push h.dense⟩
  rw [items_push, hgroups, hindex, append_assoc, h.append_eq]

theorem items_push_ne_nil (h : accounts ≠ []) : (filled.push slot accounts).items ≠ [] := by
  rw [items_push]
  exact append_ne_nil_of_left_ne_nil (map_eq_nil_iff.not.mpr h) _

theorem breakUp_taken (h : (breakUp idealSize accounts bytesTotal written).full = false) :
    (breakUp idealSize accounts bytesTotal written).taken = accounts.length := by
  induction accounts generalizing bytesTotal written with
  | nil => rfl
  | cons account accounts ih =>
    rw [breakUp] at h ⊢
    dsimp only at h ⊢
    split at h
    · cases h
    · rename_i hfits
      rw [if_neg hfits]
      exact congrArg (· + 1) (ih h)

theorem breakUp_taken_pos (h : accounts ≠ []) :
    0 < (breakUp idealSize accounts 0 written).taken := by
  cases accounts with
  | nil => exact absurd rfl h
  | cons account accounts =>
    rw [breakUp]
    dsimp only
    rw [if_neg (fun hfull => absurd hfull.2 (Nat.lt_irrefl 0))]
    exact Nat.succ_pos _

theorem pending_eq_append (taken : Nat) :
    pending (alive :: groups) index =
      ((alive.accounts.drop index).take taken).map (Prod.mk alive.slot) ++
        pending (alive :: groups) (index + taken) := by
  rw [pending, pending, AliveAccounts.items, AliveAccounts.items, ← drop_drop, ← append_assoc,
    ← map_append, take_append_drop]

/-- Wherever the counters say that a storage is full, no account is lost. -/
theorem fill_splits :
    (fill idealSize groups index written bytesTotal).Splits (pending groups index) := by
  induction groups generalizing index written bytesTotal with
  | nil => exact ⟨rfl, fun _ h => absurd h not_mem_nil⟩
  | cons alive groups ih =>
    have hnext : ∀ total, (fill idealSize groups 0 0 total).Splits (items groups) := by
      intro total
      rw [← pending_zero]
      exact ih
    rw [fill]
    dsimp only
    split
    · rename_i hend
      rw [pending, AliveAccounts.items, drop_eq_nil_of_le hend]
      exact hnext bytesTotal
    · split
      · exact (hnext _).push
      · split
        · rw [pending_eq_append
            (breakUp idealSize (alive.accounts.drop index) bytesTotal written).taken]
          exact Filled.Splits.push ⟨rfl, fun _ h => absurd h not_mem_nil⟩
        · rename_i hfull
          rw [breakUp_taken (Bool.eq_false_iff.mpr hfull), take_length]
          exact (hnext _).push

/-- An empty storage takes the first account. -/
theorem fill_items_ne_nil (hne : pending groups index ≠ []) :
    (fill idealSize groups index written 0).items ≠ [] := by
  induction groups generalizing index written with
  | nil => exact absurd rfl hne
  | cons alive groups ih =>
    rw [fill]
    dsimp only
    split
    · rename_i hend
      rw [pending, AliveAccounts.items, drop_eq_nil_of_le hend, map_nil, nil_append,
        ← pending_zero] at hne
      exact ih hne
    · rename_i hmore
      have hrest : alive.accounts.drop index ≠ [] := mt drop_eq_nil_iff.mp hmore
      have hwritten : (alive.accounts.drop index).take
          (breakUp idealSize (alive.accounts.drop index) 0 written).taken ≠ [] := by
        rw [Ne, take_eq_nil_iff]
        exact not_or.mpr ⟨(breakUp_taken_pos hrest).ne', hrest⟩
      split
      · exact items_push_ne_nil hrest
      · split
        · exact items_push_ne_nil hwritten
        · exact items_push_ne_nil hwritten

/-- A filled storage holds what fits, and the counters of the rest are right. -/
structure Filled.Fits (filled : Filled) (taken : List Item) : Prop where
  items_eq : filled.items = taken
  partly : PartlyWritten filled.groups filled.partialInnerIndex filled.partialBytesWritten
  countable : Countable filled.groups

theorem Filled.Fits.push {taken : List Item} (h : filled.Fits taken) :
    (filled.push slot accounts).Fits (accounts.map (Prod.mk slot) ++ taken) := by
  obtain ⟨hgroups, hindex, hwritten, -⟩ := groups_push slot accounts filled
  refine ⟨?_, ?_, hgroups ▸ h.countable⟩
  · rw [items_push, h.items_eq]
  · rw [hgroups, hindex, hwritten]
    exact h.partly

/-- The bytes of a storage, with what it held before. -/
def Filled.Counts (filled : Filled) (before : Nat) : Prop :=
  filled.bytesTotal = before + loadOf itemSize filled.items

theorem Filled.Counts.push {before : Nat}
    (h : filled.Counts (before + loadOf AccountFromStorage.storedSize accounts)) :
    (filled.push slot accounts).Counts before := by
  have hload : loadOf itemSize (accounts.map (Prod.mk slot)) =
      loadOf AccountFromStorage.storedSize accounts := by
    rw [loadOf, loadOf, map_map]
    rfl
  rw [Filled.Counts, (groups_push slot accounts filled).2.2.2, items_push, loadOf_append, hload, h,
    Nat.add_assoc]

/-- What has been written of the current slot and what is left of it, in bytes. -/
theorem written_add_loadOf (hpartly : PartlyWritten (alive :: groups) index written) :
    written + loadOf itemSize (alive.items index) =
      loadOf AccountFromStorage.storedSize alive.accounts := by
  rw [loadOf_items, hpartly, ← loadOf_append, take_append_drop]

theorem loadOf_items_cons (alive : AliveAccounts) (groups : List AliveAccounts) :
    loadOf itemSize (items (alive :: groups)) =
      loadOf AccountFromStorage.storedSize alive.accounts + loadOf itemSize (items groups) := by
  rw [items, flatMap_cons, loadOf_append, loadOf_items, drop_zero]
  rfl

theorem fill_broken (hpartly : PartlyWritten (alive :: groups) index written)
    (hsize : bytesTotal + loadOf itemSize (items (alive :: groups)) ≤ u64Max)
    (hnext : ∀ total, total + loadOf itemSize (items groups) ≤ u64Max →
      (fill idealSize groups 0 0 total).Fits (takeFit itemSize idealSize total (items groups)).1 ∧
        (fill idealSize groups 0 0 total).Counts total) :
    let broken := breakUp idealSize (alive.accounts.drop index) bytesTotal written
    let taken := (alive.accounts.drop index).take broken.taken
    let filled := if broken.full then
        Filled.push alive.slot taken ⟨[], broken.bytesTotal, alive :: groups,
          index + broken.taken, broken.partialBytesWritten⟩
      else (fill idealSize groups 0 0 broken.bytesTotal).push alive.slot taken
    filled.Fits (takeFit itemSize idealSize bytesTotal (alive.items index ++ items groups)).1 ∧
      filled.Counts bytesTotal := by
  have hmap := takeFit_map alive.slot idealSize bytesTotal (alive.accounts.drop index)
  have happend : (takeFit AccountFromStorage.storedSize idealSize bytesTotal
      (alive.accounts.drop index)).1 ++ (takeFit AccountFromStorage.storedSize idealSize bytesTotal
      (alive.accounts.drop index)).2 = alive.accounts.drop index := takeFit_append_eq _ _
  have hbytes := written_add_loadOf hpartly
  rw [loadOf_items_cons] at hsize
  rw [loadOf_items] at hbytes
  dsimp only
  rw [breakUp_eq (by omega) (by omega)]
  generalize takeFit AccountFromStorage.storedSize idealSize bytesTotal
    (alive.accounts.drop index) = fit at hmap happend ⊢
  obtain ⟨taken, rest⟩ := fit
  dsimp only at hmap happend ⊢
  have htaken : (alive.accounts.drop index).take taken.length = taken := by
    rw [← happend, take_left]
  rw [htaken]
  by_cases hrest : rest = []
  · rw [hrest, append_nil] at happend
    rw [if_neg (by simp [hrest]), takeFit_append_of_nil (by
      rw [AliveAccounts.items, hmap, hrest]; rfl), loadOf_items, happend]
    have hrest := hnext (bytesTotal + loadOf AccountFromStorage.storedSize
      (alive.accounts.drop index)) (by omega)
    exact ⟨hrest.1.push, hrest.2.push⟩
  · have hne : (takeFit itemSize idealSize bytesTotal (alive.items index)).2 ≠ [] := by
      rw [AliveAccounts.items, hmap]
      exact fun hnil => hrest (map_eq_nil_iff.mp hnil)
    rw [if_pos (by simp [hrest]), takeFit_append_of_ne_nil _ hne, AliveAccounts.items, hmap]
    refine ⟨⟨?_, ?_, ?_⟩, Filled.Counts.push (Nat.add_zero _).symm⟩
    · rw [items_push]
      exact append_nil _
    · obtain ⟨hgroups, hindex, hwritten, -⟩ := groups_push alive.slot taken ⟨[], _,
        alive :: groups, index + taken.length, _⟩
      rw [hgroups, hindex, hwritten, PartlyWritten, hpartly, take_add, htaken, loadOf_append]
    · rw [(groups_push alive.slot taken _).1, Countable, loadOf_items_cons]
      omega

/-- One storage is filled as far as the accounts fit, and its bytes are counted. -/
theorem fill_fits (idealSize : Nat) (hpartly : PartlyWritten groups index written)
    (hsize : bytesTotal + loadOf itemSize (items groups) ≤ u64Max) :
    (fill idealSize groups index written bytesTotal).Fits
      (takeFit itemSize idealSize bytesTotal (pending groups index)).1 ∧
        (fill idealSize groups index written bytesTotal).Counts bytesTotal := by
  induction groups generalizing index written bytesTotal with
  | nil => exact ⟨⟨rfl, trivial, Nat.zero_le _⟩, rfl⟩
  | cons alive groups ih =>
    have hnext : ∀ total, total + loadOf itemSize (items groups) ≤ u64Max →
        (fill idealSize groups 0 0 total).Fits
            (takeFit itemSize idealSize total (items groups)).1 ∧
          (fill idealSize groups 0 0 total).Counts total := by
      intro total htotal
      rw [← pending_zero]
      exact ih (partlyWritten_zero groups) htotal
    have hbytes := written_add_loadOf hpartly
    have hsize' := hsize
    rw [loadOf_items_cons] at hsize'
    rw [pending, fill]
    split
    · rename_i hend
      rw [AliveAccounts.items, drop_eq_nil_of_le hend]
      exact hnext bytesTotal (by omega)
    · rw [AliveAccounts.bytes_eq_loadOf (by omega), ← hbytes, Nat.add_sub_cancel_left,
        saturatingAdd_eq (by omega)]
      dsimp only
      split
      · rename_i hfits
        rw [takeFit_append_of_nil (by rw [takeFit_of_le hfits])]
        have hrest := hnext (bytesTotal + loadOf itemSize (alive.items index)) (by omega)
        refine ⟨hrest.1.push, ?_⟩
        rw [loadOf_items] at hrest ⊢
        exact hrest.2.push
      · exact fill_broken hpartly hsize hnext

theorem length_pending_lt
    (hne : (fill idealSize groups index written 0).accountsToWrite ≠ []) :
    (pending (fill idealSize groups index written 0).groups
      (fill idealSize groups index written 0).partialInnerIndex).length <
        (pending groups index).length := by
  have hsplits : (fill idealSize groups index written 0).Splits (pending groups index) :=
    fill_splits
  rw [Ne, hsplits.dense.accountsToWrite_eq_nil_iff] at hne
  have hpos := length_pos_iff.mpr hne
  rw [← hsplits.append_eq, length_append]
  omega

theorem pending_eq_nil (h : (fill idealSize groups index written 0).accountsToWrite = []) :
    pending groups index = [] := by
  rw [fill_splits.dense.accountsToWrite_eq_nil_iff] at h
  by_contra hne
  exact fill_items_ne_nil hne h

/-- The loop over the storages moves what is left, and leaves no storage empty. -/
theorem packLoop_partitions (hfuel : (pending groups index).length < fuel) :
    (packLoop idealSize fuel groups index written).flatMap PackedAncientStorage.items =
        pending groups index ∧
      ∀ storage ∈ packLoop idealSize fuel groups index written, storage.items ≠ [] := by
  induction fuel generalizing groups index written with
  | zero => exact absurd hfuel (Nat.not_lt_zero _)
  | succ fuel ih =>
    rw [packLoop]
    split
    · rename_i hnil
      rw [pending_eq_nil hnil]
      exact ⟨rfl, fun _ h => absurd h not_mem_nil⟩
    · rename_i hne
      have hless := (length_pending_lt hne).trans_le (Nat.le_of_lt_succ hfuel)
      rw [flatMap_cons, (ih hless).1]
      exact ⟨fill_splits.append_eq, forall_mem_cons.mpr
        ⟨mt fill_splits.dense.accountsToWrite_eq_nil_iff.mpr hne, (ih hless).2⟩⟩

/-- The loop has come to its end when every account could have had a storage. -/
theorem packLoop_succ (hfuel : (pending groups index).length < fuel) :
    packLoop idealSize (fuel + 1) groups index written =
      packLoop idealSize fuel groups index written := by
  induction fuel generalizing groups index written with
  | zero => exact absurd hfuel (Nat.not_lt_zero _)
  | succ fuel ih =>
    unfold packLoop
    dsimp only
    split
    · rfl
    · rename_i hne
      have hless := length_pending_lt hne
      rw [ih (by omega)]

/-- The loop over the storages packs what is left as next-fit does, and counts it. -/
theorem packLoop_items (hpartly : PartlyWritten groups index written)
    (hcountable : Countable groups) (hfuel : (pending groups index).length < fuel) :
    (packLoop idealSize fuel groups index written).map PackedAncientStorage.items =
        nextFit itemSize idealSize (pending groups index) ∧
      ∀ storage ∈ packLoop idealSize fuel groups index written,
        storage.bytes = loadOf itemSize storage.items := by
  induction fuel generalizing groups index written with
  | zero => exact absurd hfuel (Nat.not_lt_zero _)
  | succ fuel ih =>
    rw [packLoop]
    split
    · rename_i hnil
      rw [pending_eq_nil hnil]
      exact ⟨rfl, fun _ h => absurd h not_mem_nil⟩
    · rename_i hne
      obtain ⟨hfits, hcounts⟩ :=
        fill_fits idealSize hpartly ((Nat.zero_add _).trans_le hcountable)
      have hless := length_pending_lt hne
      have hpending : pending groups index ≠ [] := length_pos_iff.mp (Nat.zero_lt_of_lt hless)
      obtain ⟨hitems, hbytes⟩ := ih hfits.partly hfits.countable (by omega)
      have hrest : _ ++ pending (fill idealSize groups index written 0).groups _ =
          (takeFit itemSize idealSize 0 (pending groups index)).1 ++ _ :=
        fill_splits.append_eq.trans (takeFit_append_eq 0 _).symm
      rw [hfits.items_eq] at hrest
      rw [nextFit_eq_cons hpending, map_cons, hitems, append_cancel_left hrest, ← hfits.items_eq]
      exact ⟨rfl, forall_mem_cons.mpr ⟨hcounts.trans (Nat.zero_add _), hbytes⟩⟩

theorem length_pending_zero : (pending groups 0).length < (items groups).length + 1 := by
  rw [pending_zero]
  exact Nat.lt_succ_self _

/-- The storages hold what next-fit puts into its bins. -/
theorem pack_items (hcountable : Countable groups) :
    (pack groups idealSize).map PackedAncientStorage.items =
      nextFit itemSize idealSize (items groups) := by
  rw [← pending_zero groups]
  exact (packLoop_items (partlyWritten_zero groups) hcountable length_pending_zero).1

theorem storedSize_pos (account : AccountFromStorage) : 0 < account.storedSize := by
  rw [AccountFromStorage.storedSize, u64Align, storeMetaOverhead]
  omega

theorem itemSize_pos (item : Item) : 0 < itemSize item := storedSize_pos item.2

/-- The storages hold the accounts in their order, with the slots that they come from, and nothing
    else, and none is empty.  If the sizes can be counted, each knows its size, and none is larger
    than the ideal size, unless one account alone is, or could have taken the first account of the
    next. -/
theorem pack_partitions (groups : List AliveAccounts) (idealSize : Nat) :
    (∀ fuel > (items groups).length, packLoop idealSize fuel groups 0 0 = pack groups idealSize) ∧
    (pack groups idealSize).flatMap PackedAncientStorage.items = items groups ∧
    (∀ storage ∈ pack groups idealSize, storage.items ≠ []) ∧
    (Countable groups →
      (∀ storage ∈ pack groups idealSize, storage.bytes = loadOf itemSize storage.items ∧
        (storage.bytes ≤ idealSize ∨ storage.items.length = 1)) ∧
      (pack groups idealSize).IsChain (fun storage next =>
        ∀ item ∈ next.items.head?, idealSize < storage.bytes + itemSize item)) := by
  obtain ⟨hitems, hnonempty⟩ : _ ∧ ∀ storage ∈ pack groups idealSize, storage.items ≠ [] :=
    packLoop_partitions length_pending_zero
  refine ⟨fun fuel hfuel => ?_, hitems.trans (pending_zero groups), hnonempty,
    fun hcountable => ?_⟩
  · induction fuel, hfuel using Nat.le_induction with
    | base => rfl
    | succ fuel hfuel ih =>
      rw [packLoop_succ (by rw [pending_zero]; exact hfuel)]
      exact ih
  · have hbytes : ∀ storage ∈ pack groups idealSize,
        storage.bytes = loadOf itemSize storage.items :=
      (packLoop_items (partlyWritten_zero groups) hcountable length_pending_zero).2
    obtain ⟨hfilled, hclosed⟩ := nextFit_wellFilled itemSize_pos idealSize (items groups)
    rw [← pack_items hcountable] at hfilled hclosed
    refine ⟨fun storage hstorage => ?_, ?_⟩
    · obtain ⟨-, hfit⟩ := hfilled _ (mem_map_of_mem hstorage)
      rw [Fits, ← hbytes storage hstorage] at hfit
      exact ⟨hbytes storage hstorage, hfit⟩
    · refine ((isChain_map _).mp hclosed).imp_of_mem_imp ?_
      intro storage next hstorage _ hnext
      rw [hbytes storage hstorage]
      exact hnext

/-- An account that is larger than the ideal size, between two that share no storage with it. -/
theorem pack_partitions_large :
    let groups := [(AliveAccounts.withCapacity 5).add ⟨1, 64⟩, .withCapacity 6,
      ((AliveAccounts.withCapacity 7).add ⟨2, 864⟩).add ⟨3, 64⟩]
    (pack groups 500).map PackedAncientStorage.items =
        [[(5, ⟨1, 64⟩)], [(7, ⟨2, 864⟩)], [(7, ⟨3, 64⟩)]] ∧
      (pack groups 500).flatMap PackedAncientStorage.items = items groups ∧
      ∀ storage ∈ pack groups 500, storage.bytes ≤ 500 ∨ storage.items.length = 1 := by
  intro groups
  obtain ⟨-, hitems, -, hcounted⟩ := pack_partitions groups 500
  exact ⟨by decide, hitems, fun storage h => ((hcounted (by decide)).1 storage h).2⟩

/-! ## Where the accounts go -/

theorem items_append (groups groups' : List AliveAccounts) :
    items (groups ++ groups') = items groups ++ items groups' := flatMap_append

/-- The writes are those of the storages, one after the other. -/
theorem writeStorages_items (h : packed.length ≤ targets.length) :
    (writeStorages targets packed).map Write.item =
      (packed.map PackedAncientStorage.items).flatten := by
  have hzip : (targets.zip packed).map Prod.snd = packed := map_snd_zip h
  rw [writeStorages, map_flatMap]
  nth_rewrite 2 [← hzip]
  rw [map_map, ← flatMap_def]
  refine flatMap_congr fun entry _ => ?_
  rw [map_map]
  exact map_id _

theorem exists_storage (hroom : packed.length ≤ targets.length) {p : Nat}
    (h : (writeStorages targets packed)[p]? = some write) :
    ∃ k, targets[k]? = some write.targetSlot ∧
      placed (packed.map PackedAncientStorage.items) k ≤ p ∧
      p < placed (packed.map PackedAncientStorage.items) (k + 1) := by
  rw [writeStorages, flatMap_def] at h
  obtain ⟨k, writes, hwrites, hwrite, hplace⟩ := exists_bin h
  obtain ⟨⟨targetSlot, storage⟩, hentry, rfl⟩ := Option.map_eq_some_iff.mp
    (getElem?_map.symm.trans hwrites)
  obtain ⟨item, -, rfl⟩ := mem_map.mp hwrite
  have hlength : ∀ j, placed ((targets.zip packed).map (fun (targetSlot, storage) =>
      storage.items.map (fun item => Write.mk item targetSlot))) j =
        placed (packed.map PackedAncientStorage.items) j := by
    intro j
    nth_rewrite 2 [← map_snd_zip hroom]
    simp only [placed, map_map, Function.comp_def, length_map]
  rw [hlength, hlength] at hplace
  exact ⟨k, (getElem?_zip_eq_some.mp hentry).1, hplace⟩

theorem loadOf_items_eq_sum (hcountable : Countable groups) :
    loadOf itemSize (items groups) = (groups.map AliveAccounts.bytes).sum := by
  induction groups with
  | nil => rfl
  | cons alive groups ih =>
    rw [Countable, loadOf_items_cons] at hcountable
    rw [loadOf_items_cons, ih (by omega), map_cons, sum_cons,
      AliveAccounts.bytes_eq_loadOf (by omega)]

theorem items_eq_nil_of_bytes (hcountable : Countable groups)
    (h : (groups.map AliveAccounts.bytes).sum = 0) : items groups = [] := by
  rw [← loadOf_items_eq_sum hcountable] at h
  cases hitems : items groups with
  | nil => rfl
  | cons item items =>
    rw [hitems, loadOf_cons] at h
    have hpos := itemSize_pos item
    omega

theorem exists_group_of_mem {item : Item} (h : item ∈ items groups) :
    ∃ alive ∈ groups, alive.slot = item.1 := by
  obtain ⟨alive, halive, hitem⟩ := mem_flatMap.mp h
  obtain ⟨account, -, rfl⟩ := mem_map.mp hitem
  exact ⟨alive, halive, rfl⟩

/-- What the guard has checked, if there is anything to move: the lowest of the slots that it takes
    to be needed. -/
theorem highestSlot_of_canBeMoved {manyRefs : List AliveAccounts} (hcountable : Countable manyRefs)
    (hcan : manyRefAccountsCanBeMoved manyRefs targets idealSize = true)
    (hbytes : (manyRefs.map AliveAccounts.bytes).sum ≠ 0) :
    ∃ highestSlot,
      targets.reverse[(manyRefs.map AliveAccounts.bytes).sum / idealSize]? = some highestSlot ∧
      ∀ many ∈ manyRefs, many.slot ≤ highestSlot := by
  have hmod : (manyRefs.map AliveAccounts.bytes).sum % 2 ^ 64 =
      (manyRefs.map AliveAccounts.bytes).sum := by
    rw [Countable, loadOf_items_eq_sum hcountable, u64Max] at hcountable
    omega
  rw [manyRefAccountsCanBeMoved, hmod, if_neg hbytes] at hcan
  split at hcan
  · cases hcan
  · rename_i hlength
    split at hcan
    · cases hcan
    · rename_i highestSlot hhighest
      refine ⟨highestSlot, ?_, fun many hmany => ?_⟩
      · rw [getElem?_reverse (by omega), ← hhighest]
        congr 1
        omega
      · exact of_decide_eq_true (all_eq_true.mp hcan many hmany)

theorem highest_le_of_le (hsorted : targets.Pairwise (· ≤ ·)) {j k target target' : Nat}
    (hle : j ≤ k) (hj : targets.reverse[j]? = some target)
    (hk : targets.reverse[k]? = some target') : target' ≤ target := by
  rcases Nat.eq_or_lt_of_le hle with rfl | hlt
  · exact (Option.some.inj (hj.symm.trans hk)).ge
  · obtain ⟨hjlt, rfl⟩ := List.getElem?_eq_some_iff.mp hj
    obtain ⟨hklt, rfl⟩ := List.getElem?_eq_some_iff.mp hk
    exact pairwise_iff_getElem.mp (pairwise_reverse.mpr hsorted) j k hjlt hklt hlt

/-- The accounts can be cut, in their order, into runs that are not above the ideal size unless
    they are of one account, such that none of those behind the first runs, as many as the guard
    has asked for, is in a slot above the target of its run. -/
def CutsForward (manyRefs : List AliveAccounts) (idealSize : Nat) (targetSlotsSorted : List Nat) :
    Prop :=
  ∃ runs : List (List Item), runs.flatten = items manyRefs ∧
    (∀ run ∈ runs, Fits itemSize idealSize run) ∧
    ∀ k run, runs[k]? = some run → (manyRefs.map AliveAccounts.bytes).sum / idealSize + 1 ≤ k →
      ∀ item ∈ run, ∃ target, targetSlotsSorted.reverse[k]? = some target ∧ item.1 ≤ target

section

variable {manyRefs oneRefs : List AliveAccounts} (hcountable : Countable (manyRefs ++ oneRefs))
  (hroom : (pack (manyRefs ++ oneRefs) idealSize).length ≤ targets.length)
include hcountable hroom

/-- All accounts are written, in their order. -/
theorem writePackedStorages_items :
    (writePackedStorages targets (pack (manyRefs ++ oneRefs) idealSize)).map Write.item =
      items manyRefs ++ items oneRefs := by
  rw [writePackedStorages, writeStorages_items (by rwa [length_reverse]), pack_items hcountable,
    nextFit, flatten_nextFitFrom, nil_append, items_append]

/-- The slot that an account with many references goes to, and the storage that it is in. -/
theorem exists_write {p : Nat} {item : Item} (hitem : (items manyRefs)[p]? = some item) :
    ∃ k target,
      ((writePackedStorages targets (pack (manyRefs ++ oneRefs) idealSize)).take
        (items manyRefs).length)[p]? = some ⟨item, target⟩ ∧ targets.reverse[k]? = some target ∧
      placed (nextFit itemSize idealSize (items manyRefs ++ items oneRefs)) k ≤ p ∧
      p < placed (nextFit itemSize idealSize (items manyRefs ++ items oneRefs)) (k + 1) := by
  have hlt := (List.getElem?_eq_some_iff.mp hitem).1
  have hmap := congrArg (·[p]?) (writePackedStorages_items hcountable hroom)
  simp only [getElem?_append_left hlt, hitem, getElem?_map, Option.map_eq_some_iff] at hmap
  obtain ⟨write, hwrite, rfl⟩ := hmap
  obtain ⟨k, htarget, hplace⟩ := exists_storage (by rwa [length_reverse]) hwrite
  rw [pack_items hcountable, items_append] at hplace
  exact ⟨k, write.targetSlot, (getElem?_take_of_lt hlt).trans hwrite, htarget, hplace⟩

variable (hsorted : targets.Pairwise (· ≤ ·))
include hsorted

/-- The storages that the accounts are packed into are such runs. -/
theorem cutsForward_of_movesForward (h : MovesForward manyRefs oneRefs idealSize targets) :
    CutsForward manyRefs idealSize targets := by
  have hflatten : (nextFit itemSize idealSize (items manyRefs)).flatten = items manyRefs := by
    rw [nextFit, flatten_nextFitFrom, nil_append]
  refine ⟨nextFit itemSize idealSize (items manyRefs), hflatten, fun run hrun => ?_, ?_⟩
  · exact ((nextFit_wellFilled itemSize_pos _ _).1 run hrun).2
  · intro k run hrun _ item hitem
    obtain ⟨p, hle, hp⟩ := exists_place hrun hitem
    rw [hflatten] at hp
    obtain ⟨j, target, hwrite, htarget, -, hlt⟩ := exists_write hcountable hroom hp
    -- packed with the others, the accounts are in the same storages
    have hplaced : placed (nextFit itemSize idealSize (items manyRefs ++ items oneRefs)) k =
        placed (nextFit itemSize idealSize (items manyRefs)) k := by
      rw [placed, placed, ← map_take, ← map_take, nextFit, nextFit,
        take_nextFitFrom_append _ (List.getElem?_eq_some_iff.mp hrun).1]
    have hkj : k ≤ j := by
      by_contra hjk
      have hmono := placed_mono (nextFit itemSize idealSize (items manyRefs ++ items oneRefs))
        (show j + 1 ≤ k by omega)
      omega
    obtain ⟨hj, -⟩ := List.getElem?_eq_some_iff.mp htarget
    have hk : targets.reverse[k]? = some targets.reverse[k] :=
      getElem?_eq_getElem (Nat.lt_of_le_of_lt hkj hj)
    exact ⟨_, hk, (h.2 _ (mem_of_getElem? hwrite)).trans (highest_le_of_le hsorted hkj hk htarget)⟩

/-- No run is ahead of the storages, and the guard has checked the slots of the first ones. -/
theorem movesForward_of_cutsForward
    (hcan : manyRefAccountsCanBeMoved manyRefs targets idealSize = true)
    (h : CutsForward manyRefs idealSize targets) :
    MovesForward manyRefs oneRefs idealSize targets := by
  obtain ⟨runs, hflatten, hfits, hcuts⟩ := h
  have htake : ((writePackedStorages targets (pack (manyRefs ++ oneRefs) idealSize)).take
      (items manyRefs).length).map Write.item = items manyRefs := by
    rw [map_take, writePackedStorages_items hcountable hroom, take_left]
  refine ⟨htake, fun write hwrite => ?_⟩
  obtain ⟨p, hp⟩ := mem_iff_getElem?.mp hwrite
  have hitem : (items manyRefs)[p]? = some write.item := by
    rw [← htake, getElem?_map, hp]
    rfl
  obtain ⟨k, target, hp', htarget, hle, -⟩ := exists_write hcountable hroom hitem
  have hslot' : write.targetSlot = target :=
    congrArg Write.targetSlot (Option.some.inj (hp.symm.trans hp'))
  rw [hslot']
  obtain ⟨j, run, hrun, hmem, -, hlt⟩ := exists_bin (hflatten.symm ▸ hitem)
  -- the other accounts can have runs of their own
  have hfits' : ∀ run ∈ runs ++ (items oneRefs).map ([·]), Fits itemSize idealSize run := by
    rintro run hrun
    rcases mem_append.mp hrun with hrun | hrun
    · exact hfits run hrun
    · obtain ⟨item, -, rfl⟩ := mem_map.mp hrun
      exact .inr rfl
  have hahead := placed_le_nextFit hfits' 0 (j + 1)
  rw [drop_zero, flatten_append, hflatten, ← flatMap_def, flatMap_singleton', Nat.zero_add]
    at hahead
  have hkj : k ≤ j := by
    by_contra hjk
    have hmono := placed_mono (nextFit itemSize idealSize (items manyRefs ++ items oneRefs))
      (show j + 1 ≤ k by omega)
    have happend := placed_le_append runs ((items oneRefs).map ([·])) (j + 1)
    omega
  rcases Nat.lt_or_ge j ((manyRefs.map AliveAccounts.bytes).sum / idealSize + 1) with hj | hj
  · obtain ⟨many, hmany, hslot⟩ := exists_group_of_mem (mem_of_getElem? hitem)
    have hmany' : Countable manyRefs := by
      rw [Countable, items_append, loadOf_append] at hcountable
      exact le_of_add_le_left hcountable
    obtain ⟨highestSlot, hhighest, hguard⟩ := highestSlot_of_canBeMoved hmany' hcan (fun hzero => by
      rw [items_eq_nil_of_bytes hmany' hzero] at hitem
      cases hitem)
    calc write.item.1 = many.slot := hslot.symm
      _ ≤ highestSlot := hguard many hmany
      _ ≤ target := highest_le_of_le hsorted (by omega) htarget hhighest
  · obtain ⟨target', htarget', hslot⟩ := hcuts j run hrun hj write.item hmem
    exact hslot.trans (highest_le_of_le hsorted hkj htarget htarget')

end

/-- The accounts with many references move forward exactly if they can be cut into runs that do:
    the packing is ahead of every other one that keeps their order. -/
theorem many_refs_move_forward {manyRefs oneRefs : List AliveAccounts} {idealSize : Nat}
    {targets : List Nat} (hcountable : Countable (manyRefs ++ oneRefs))
    (hsorted : targets.Pairwise (· ≤ ·))
    (hcan : manyRefAccountsCanBeMoved manyRefs targets idealSize = true)
    (hroom : (pack (manyRefs ++ oneRefs) idealSize).length ≤ targets.length) :
    MovesForward manyRefs oneRefs idealSize targets ↔ CutsForward manyRefs idealSize targets :=
  ⟨cutsForward_of_movesForward hcountable hroom hsorted,
    movesForward_of_cutsForward hcountable hroom hsorted hcan⟩

/-- Three accounts of 600 bytes each, all in one slot. -/
def threeAccounts : AliveAccounts :=
  (((AliveAccounts.withCapacity 20).add ⟨1, 464⟩).add ⟨2, 464⟩).add ⟨3, 464⟩

/-- They need a storage each, one more than the guard has asked for, and there is a slot for it. -/
theorem many_refs_move_forward_three :
    (pack [threeAccounts] 1000).length = 3 ∧
      MovesForward [threeAccounts] [(AliveAccounts.withCapacity 40).add ⟨4, 464⟩] 1000
        [10, 20, 25, 30] :=
  ⟨by decide, (many_refs_move_forward (by decide) (by decide) (by decide) (by decide)).mpr
    ⟨[[(20, ⟨1, 464⟩)], [(20, ⟨2, 464⟩)], [(20, ⟨3, 464⟩)]], by decide, by simp [Fits],
      fun k run hrun hk item hitem => by
        obtain ⟨hlt, -⟩ := List.getElem?_eq_some_iff.mp hrun
        obtain rfl : k = 2 := by
          have hbytes : ([threeAccounts].map AliveAccounts.bytes).sum / 1000 + 1 = 2 := by decide
          simp only [length_cons, length_nil] at hlt
          omega
        obtain rfl := Option.some.inj hrun
        exact ⟨20, rfl, by simp_all⟩⟩⟩

/-- By their bytes the accounts need two storages of 1000 bytes, but no two of them fit into one.
    The third goes to a slot below its own. -/
theorem many_refs_move_back :
    [10, 20, 30].Pairwise (· ≤ ·) ∧ [threeAccounts].Pairwise (fun a b => b.slot ≤ a.slot) ∧
      manyRefAccountsCanBeMoved [threeAccounts] [10, 20, 30] 1000 = true ∧
      (pack ([threeAccounts] ++ []) 1000).length ≤ [10, 20, 30].length ∧
      ¬ MovesForward [threeAccounts] [] 1000 [10, 20, 30] := by
  refine ⟨by decide, by simp, by decide, by decide, ?_⟩
  intro h
  have hback := h.2 ⟨(20, ⟨3, 464⟩), 10⟩ (by decide)
  exact absurd hback (by decide)

end Agave.AccountsDb.Ancient
