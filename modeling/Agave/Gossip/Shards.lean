/-
  Agave.Gossip.Shards

  Table positions grouped by the leading bits of the hash.

  A pull request asks for the values whose hash begins as a mask does.  The shards answer it from
  one shard, when at least as many bits are given as name a shard, or else from a run of
  neighbouring shards.  `CrdsShards.Covers` says which positions the shards hold, and `find_returns`
  that all three ways of searching select the same thing: the positions whose hash has the prefix.
-/

import Agave.Gossip.Value
import Agave.Lib.IndexMap
import Agave.Lib.Outcome

namespace Agave.Gossip

open Lib Function List BitVec

/-! ## Masks -/

/-- `u64::checked_shr(n).unwrap_or(0)`. -/
def checkedShrOrZero (x : BitVec 64) (n : Nat) : BitVec 64 :=
  if n < 64 then x >>> n else 0

namespace CrdsFilter

/-- The first eight bytes of a hash, least significant first. -/
def hashAsU64 (item : Hash) : BitVec 64 :=
  BitVec.ofNat 64 (leValue ((Layouts.hash.encode item).take 8))

def lsbMask (maskBits : Nat) : BitVec 64 := checkedShrOrZero (BitVec.allOnes 64) maskBits

def canonicalMask (mask : BitVec 64) (maskBits : Nat) : BitVec 64 := mask ||| lsbMask maskBits

def hashMatchesMaskPrefix (mask : BitVec 64) (maskBits : Nat) (hash : BitVec 64) : Bool :=
  hash ||| lsbMask maskBits == canonicalMask mask maskBits

end CrdsFilter

/-- Two words agree on their first `bits` bits, or on all of them if they have fewer. -/
def SamePrefix (bits : Nat) (a b : BitVec 64) : Prop :=
  ∀ i < min bits 64, a.getMsbD i = b.getMsbD i

theorem checkedShrOrZero_eq (x : BitVec 64) (n : Nat) : checkedShrOrZero x n = x >>> n := by
  unfold checkedShrOrZero
  split
  · rfl
  · rename_i hn
    exact (ushiftRight_eq_zero (by omega)).symm

theorem getLsbD_lsbMask (maskBits i : Nat) :
    (CrdsFilter.lsbMask maskBits).getLsbD i = decide (maskBits + i < 64) := by
  rw [CrdsFilter.lsbMask, checkedShrOrZero_eq, getLsbD_ushiftRight, getLsbD_allOnes]

variable {bits : Nat} {a b : BitVec 64}

theorem samePrefix_iff_getLsbD :
    SamePrefix bits a b ↔ ∀ i, i < 64 → 64 ≤ bits + i → a.getLsbD i = b.getLsbD i := by
  constructor
  · intro h i hi hbits
    have hmsb := h (63 - i) (by omega)
    rw [getMsbD_eq_getLsbD, getMsbD_eq_getLsbD] at hmsb
    rw [show 64 - 1 - (63 - i) = i by omega] at hmsb
    simpa only [show 63 - i < 64 by omega, decide_true, Bool.true_and] using hmsb
  · intro h i hi
    rw [getMsbD_eq_getLsbD, getMsbD_eq_getLsbD, h (64 - 1 - i) (by omega) (by omega)]

variable {maskBits : Nat}

theorem hashMatchesMaskPrefix_iff {mask hash : BitVec 64} :
    CrdsFilter.hashMatchesMaskPrefix mask maskBits hash = true ↔ SamePrefix maskBits hash mask := by
  rw [CrdsFilter.hashMatchesMaskPrefix, beq_iff_eq, CrdsFilter.canonicalMask,
    samePrefix_iff_getLsbD]
  constructor
  · intro h i _ hbits
    have hbit := congrArg (fun w : BitVec 64 => w.getLsbD i) h
    simp only [getLsbD_or, getLsbD_lsbMask] at hbit
    simpa only [show ¬ maskBits + i < 64 by omega, decide_false, Bool.or_false] using hbit
  · intro h
    apply eq_of_getLsbD_eq
    intro i hi
    rw [getLsbD_or, getLsbD_or, getLsbD_lsbMask]
    by_cases hbits : maskBits + i < 64
    · rw [decide_eq_true hbits, Bool.or_true, Bool.or_true]
    · rw [h i hi (by omega)]

/-- The bits a canonical mask sets are not among the first ones. -/
theorem samePrefix_canonicalMask (mask : BitVec 64) (maskBits : Nat) :
    SamePrefix maskBits (CrdsFilter.canonicalMask mask maskBits) mask := by
  rw [samePrefix_iff_getLsbD]
  intro i _ hbits
  rw [CrdsFilter.canonicalMask, getLsbD_or, getLsbD_lsbMask,
    decide_eq_false (by omega), Bool.or_false]

theorem SamePrefix.symm (h : SamePrefix bits a b) : SamePrefix bits b a :=
  fun i hi => (h i hi).symm

theorem SamePrefix.trans {c : BitVec 64} (h : SamePrefix bits a b) (h' : SamePrefix bits b c) :
    SamePrefix bits a c :=
  fun i hi => (h i hi).trans (h' i hi)

theorem SamePrefix.mono {bits' : Nat} (h : SamePrefix bits a b) (hle : bits' ≤ bits) :
    SamePrefix bits' a b :=
  fun i hi => h i (by omega)

/-- A prefix is what a right shift leaves. -/
theorem samePrefix_iff_toNat_ushiftRight (hbits : bits ≤ 64) :
    SamePrefix bits a b ↔ (a >>> (64 - bits)).toNat = (b >>> (64 - bits)).toNat := by
  rw [samePrefix_iff_getLsbD, toNat_inj]
  constructor
  · intro h
    apply eq_of_getLsbD_eq
    intro i _
    rw [getLsbD_ushiftRight, getLsbD_ushiftRight]
    by_cases hlt : 64 - bits + i < 64
    · exact h _ hlt (by omega)
    · rw [getLsbD_of_ge _ _ (by omega), getLsbD_of_ge _ _ (by omega)]
  · intro h i _ hge
    have hbit := congrArg (fun w : BitVec 64 => w.getLsbD (i - (64 - bits))) h
    simp only [getLsbD_ushiftRight] at hbit
    rwa [show 64 - bits + (i - (64 - bits)) = i by omega] at hbit

/-! ## The shards -/

/-- A vector of `2 ^ shardBits` shards.  Each maps positions to hashes. -/
structure CrdsShards (shardBits : Nat) where
  shards : Fin (2 ^ shardBits) → IndexMap Nat (BitVec 64)

variable {rows : Nat → Option (BitVec 64)}

namespace CrdsShards

variable {shardBits : Nat}
variable {s : CrdsShards shardBits} {index : Nat}

def new (shardBits : Nat) : CrdsShards shardBits := ⟨fun _ => .empty⟩

def shardIndex (shardBits : Nat) (hash : BitVec 64) : Nat :=
  (checkedShrOrZero hash (64 - shardBits)).toNat

variable (s)

/-- `shard`: indexing a vector stops outside of it. -/
def shard (hash : BitVec 64) : Except Panic (IndexMap Nat (BitVec 64)) :=
  if h : shardIndex shardBits hash < 2 ^ shardBits then
    .ok (s.shards ⟨shardIndex shardBits hash, h⟩)
  else .error .indexOutOfBounds

/-- A write through `shard_mut`. -/
def modifyShard (hash : BitVec 64) (f : IndexMap Nat (BitVec 64) → IndexMap Nat (BitVec 64)) :
    Except Panic (CrdsShards shardBits) :=
  if h : shardIndex shardBits hash < 2 ^ shardBits then
    .ok ⟨Function.update s.shards ⟨shardIndex shardBits hash, h⟩
      (f (s.shards ⟨shardIndex shardBits hash, h⟩))⟩
  else .error .indexOutOfBounds

def insert (index : Nat) (value : CrdsValue) : Except Panic (CrdsShards shardBits) :=
  let hash := CrdsFilter.hashAsU64 value.hash
  s.modifyShard hash fun m => m.insert index hash

def remove (index : Nat) (value : CrdsValue) : Except Panic (CrdsShards shardBits) :=
  let hash := CrdsFilter.hashAsU64 value.hash
  s.modifyShard hash fun m => (m.swapRemoveFull index).2

/-- The positions in the shards from `start` up to `stop`. -/
def keysBetween (start stop : Nat) : List Nat :=
  (((List.finRange (2 ^ shardBits)).take stop).drop start).flatMap fun k => (s.shards k).keys

/-- `find`: positions of the values whose hash begins as the mask does. -/
def find (mask : BitVec 64) (maskBits : Nat) : Except Panic (List Nat) :=
  let mask := CrdsFilter.canonicalMask mask maskBits
  if shardBits < maskBits then do
    let m ← s.shard mask
    .ok (m.entries.filterMap fun e =>
      if CrdsFilter.hashMatchesMaskPrefix mask maskBits e.2 then some e.1 else none)
  else if shardBits = maskBits then do
    let m ← s.shard mask
    .ok m.keys
  else
    let count := 2 ^ (shardBits - maskBits)
    let stop := shardIndex shardBits mask + 1
    if stop < count ∨ 2 ^ shardBits < stop then .error .indexOutOfBounds
    else .ok (s.keysBetween (stop - count) stop)

/-- The shards hold exactly the given positions, each under its hash. -/
def Covers (rows : Nat → Option (BitVec 64)) : Prop :=
  ∀ k i hash, (s.shards k).get? i = some hash ↔
    rows i = some hash ∧ shardIndex shardBits hash = k

variable {s} {k : Fin (2 ^ shardBits)}

theorem covers_new : (new shardBits).Covers fun _ => none := by
  intro k i hash
  exact iff_of_false (Option.some_ne_none _).symm (fun h => (Option.some_ne_none _).symm h.1)

theorem shardIndex_eq (hash : BitVec 64) :
    shardIndex shardBits hash = (hash >>> (64 - shardBits)).toNat := by
  rw [shardIndex, checkedShrOrZero_eq]

section

variable (hbits : shardBits ≤ 64)
include hbits

theorem shardIndex_lt (hash : BitVec 64) :
    shardIndex shardBits hash < 2 ^ shardBits := by
  have h := toNat_ushiftRight_lt hash (64 - shardBits) (by omega)
  rwa [show 64 - (64 - shardBits) = shardBits by omega, ← shardIndex_eq] at h

theorem shardIndex_eq_iff :
    shardIndex shardBits a = shardIndex shardBits b ↔ SamePrefix shardBits a b := by
  rw [shardIndex_eq, shardIndex_eq, samePrefix_iff_toNat_ushiftRight hbits]

/-! ## Writing -/

theorem modifyShard_eq (s : CrdsShards shardBits) (hash : BitVec 64)
    (f : IndexMap Nat (BitVec 64) → IndexMap Nat (BitVec 64)) :
    ∃ s', s.modifyShard hash f = .ok s' ∧ ∀ k : Fin (2 ^ shardBits),
      s'.shards k = if shardIndex shardBits hash = k then f (s.shards k) else s.shards k := by
  refine ⟨_, dif_pos (shardIndex_lt hbits hash), ?_⟩
  intro k
  by_cases hk : shardIndex shardBits hash = k
  · have hk' : k = ⟨shardIndex shardBits hash, shardIndex_lt hbits hash⟩ := Fin.ext hk.symm
    rw [if_pos hk, hk']
    exact update_self _ _ _
  · have hk' : k ≠ ⟨shardIndex shardBits hash, shardIndex_lt hbits hash⟩ :=
      fun h => hk (congrArg Fin.val h).symm
    rw [if_neg hk]
    exact update_of_ne hk' _ _

/-- A write at one position of the shard that what was there, and what is, belongs to. -/
theorem modifyShard_returns (hs : s.Covers rows) {hash : BitVec 64} {new : Option (BitVec 64)}
    {f : IndexMap Nat (BitVec 64) → IndexMap Nat (BitVec 64)}
    (hf : ∀ m i, (f m).get? i = if i = index then new else m.get? i)
    (hold : ∀ h ∈ rows index, h = hash) (hnew : ∀ h ∈ new, h = hash) :
    ∃ s', s.modifyShard hash f = .ok s' ∧ s'.Covers (update rows index new) := by
  obtain ⟨s', hs', hshards⟩ := modifyShard_eq hbits s hash f
  refine ⟨s', hs', ?_⟩
  intro k i h
  rw [hshards k]
  by_cases hi : i = index
  · subst hi
    rw [update_self]
    split
    · rename_i hk
      rw [hf, if_pos rfl]
      exact ⟨fun hget => ⟨hget, hnew h hget ▸ hk⟩, fun hget => hget.1⟩
    · rename_i hk
      rw [hs k i h]
      exact iff_of_false (fun hrow => hk (hold h hrow.1 ▸ hrow.2))
        (fun hrow => hk (hnew h hrow.1 ▸ hrow.2))
  · rw [update_of_ne hi, ← hs k i h]
    split
    · rw [hf, if_neg hi]
    · rfl

theorem insert_returns (hs : s.Covers rows) (hfree : rows index = none) (value : CrdsValue) :
    ∃ s', s.insert index value = .ok s' ∧
      s'.Covers (update rows index (some (CrdsFilter.hashAsU64 value.hash))) :=
  modifyShard_returns hbits hs (fun m i => m.get?_insert index i _) (by simp [hfree]) (by simp)

theorem remove_returns (hs : s.Covers rows) {value : CrdsValue}
    (hheld : rows index = some (CrdsFilter.hashAsU64 value.hash)) :
    ∃ s', s.remove index value = .ok s' ∧ s'.Covers (update rows index none) :=
  modifyShard_returns hbits hs (fun m i => m.get?_swapRemoveFull index i) (by simp [hheld])
    (by simp)

end

/-! ## Searching -/

theorem mem_keys_iff (hs : s.Covers rows) {i : Nat} :
    i ∈ (s.shards k).keys ↔ ∃ hash, rows i = some hash ∧ shardIndex shardBits hash = k := by
  rw [IndexMap.keys, mem_map]
  constructor
  · rintro ⟨⟨j, hash⟩, hmem, rfl⟩
    exact ⟨hash, (hs k j hash).mp (IndexMap.get?_eq_some_iff_mem.mpr hmem)⟩
  · rintro ⟨hash, h⟩
    exact ⟨(i, hash), IndexMap.get?_eq_some_iff_mem.mp ((hs k i hash).mpr h), rfl⟩

theorem shard_eq (hbits : shardBits ≤ 64) (s : CrdsShards shardBits) (hash : BitVec 64) :
    ∃ k : Fin (2 ^ shardBits), shardIndex shardBits hash = k ∧ s.shard hash = .ok (s.shards k) :=
  ⟨⟨_, shardIndex_lt hbits hash⟩, rfl, dif_pos (shardIndex_lt hbits hash)⟩

theorem mem_take_drop_finRange {n start stop : Nat} {k : Fin n} :
    k ∈ ((List.finRange n).take stop).drop start ↔ start ≤ k.val ∧ k.val < stop := by
  rw [mem_iff_getElem?]
  simp only [getElem?_drop, getElem?_take]
  constructor
  · rintro ⟨j, hj⟩
    split at hj
    · obtain ⟨hlt, heq⟩ := List.getElem?_eq_some_iff.mp hj
      have hval := congrArg Fin.val heq
      rw [List.getElem_finRange] at hval
      simp only [Fin.val_cast] at hval
      omega
    · cases hj
  · rintro ⟨hstart, hstop⟩
    refine ⟨k.val - start, ?_⟩
    rw [show start + (k.val - start) = k.val by omega, if_pos hstop]
    refine List.getElem?_eq_some_iff.mpr ⟨by rw [List.length_finRange]; exact k.isLt, ?_⟩
    rw [List.getElem_finRange]
    rfl

theorem nodup_keysBetween (hs : s.Covers rows) (start stop : Nat) :
    (s.keysBetween start stop).Nodup := by
  rw [keysBetween, nodup_flatMap]
  constructor
  · intro k _
    exact (s.shards k).nodup
  · have hnodup : (((List.finRange (2 ^ shardBits)).take stop).drop start).Nodup :=
      (((nodup_finRange _).sublist (take_sublist _ _))).sublist (drop_sublist _ _)
    refine hnodup.imp ?_
    intro k k' hne i hi hi'
    obtain ⟨hash, hrow, hk⟩ := (mem_keys_iff hs).mp hi
    obtain ⟨hash', hrow', hk'⟩ := (mem_keys_iff hs).mp hi'
    rw [hrow] at hrow'
    cases hrow'
    exact hne (Fin.ext (hk.symm.trans hk'))

/-- The quotients by `d` that agree with the one of the last multiple below `e + 1`. -/
theorem between_iff_div_eq {d e k : Nat} (hd : 0 < d) (he : e % d = d - 1) :
    (e + 1 - d ≤ k ∧ k < e + 1) ↔ k / d = e / d := by
  have hdecomp := Nat.div_add_mod e d
  have hk := Nat.div_add_mod k d
  have hlt := Nat.mod_lt k hd
  constructor
  · rintro ⟨hlow, hhigh⟩
    apply Nat.div_eq_of_lt_le
    · rw [Nat.mul_comm]
      omega
    · rw [Nat.add_mul, Nat.one_mul, Nat.mul_comm]
      omega
  · intro h
    rw [h] at hk
    omega

/-- The low bits of a canonical mask are set, so its shard is the last of its run. -/
theorem shardIndex_canonicalMask_mod (hbits : shardBits ≤ 64) (hlt : maskBits < shardBits)
    (mask : BitVec 64) :
    shardIndex shardBits (CrdsFilter.canonicalMask mask maskBits) % 2 ^ (shardBits - maskBits) =
      2 ^ (shardBits - maskBits) - 1 := by
  apply Nat.eq_of_testBit_eq
  intro i
  rw [Nat.testBit_mod_two_pow, Nat.testBit_two_pow_sub_one, shardIndex_eq,
    testBit_toNat, getLsbD_ushiftRight, CrdsFilter.canonicalMask,
    getLsbD_or, getLsbD_lsbMask]
  by_cases hi : i < shardBits - maskBits
  · rw [decide_eq_true (show maskBits + (64 - shardBits + i) < 64 by omega), Bool.or_true,
      Bool.and_true]
  · rw [decide_eq_false hi, Bool.false_and]

/-- The shards of a run share the bits that a short mask gives. -/
theorem shardIndex_div (hbits : shardBits ≤ 64) (hle : maskBits ≤ shardBits) (hash : BitVec 64) :
    shardIndex shardBits hash / 2 ^ (shardBits - maskBits) = (hash >>> (64 - maskBits)).toNat := by
  rw [shardIndex_eq, toNat_ushiftRight, toNat_ushiftRight, ← Nat.shiftRight_eq_div_pow,
    ← Nat.shiftRight_add, show 64 - shardBits + (shardBits - maskBits) = 64 - maskBits by omega]

theorem div_eq_iff_samePrefix (hbits : shardBits ≤ 64) (hle : maskBits ≤ shardBits)
    (hash mask : BitVec 64) :
    shardIndex shardBits hash / 2 ^ (shardBits - maskBits) =
        shardIndex shardBits (CrdsFilter.canonicalMask mask maskBits) /
          2 ^ (shardBits - maskBits) ↔
      SamePrefix maskBits hash mask := by
  rw [shardIndex_div hbits hle, shardIndex_div hbits hle,
    ← samePrefix_iff_toNat_ushiftRight (show maskBits ≤ 64 by omega)]
  exact ⟨fun h => h.trans (samePrefix_canonicalMask mask maskBits),
    fun h => h.trans (samePrefix_canonicalMask mask maskBits).symm⟩

theorem mem_filterMap_shard (hs : s.Covers rows) {p : BitVec 64 → Bool} {i : Nat} :
    i ∈ ((s.shards k).entries.filterMap fun e => if p e.2 then some e.1 else none) ↔
      ∃ hash, rows i = some hash ∧ shardIndex shardBits hash = k ∧ p hash = true := by
  rw [mem_filterMap]
  constructor
  · rintro ⟨⟨j, hash⟩, hmem, hif⟩
    split at hif
    · rename_i hp
      cases hif
      obtain ⟨hrow, hk⟩ := (hs k j hash).mp (IndexMap.get?_eq_some_iff_mem.mpr hmem)
      exact ⟨hash, hrow, hk, hp⟩
    · cases hif
  · rintro ⟨hash, hrow, hk, hp⟩
    exact ⟨(i, hash), IndexMap.get?_eq_some_iff_mem.mp ((hs k i hash).mpr ⟨hrow, hk⟩), if_pos hp⟩

theorem nodup_filterMap_entries (m : IndexMap Nat (BitVec 64)) (p : BitVec 64 → Bool) :
    (m.entries.filterMap fun e => if p e.2 then some e.1 else none).Nodup := by
  have hfilter : (m.entries.filterMap fun e => if p e.2 then some e.1 else none) =
      (m.entries.filter fun e => p e.2).map Prod.fst := by
    induction m.entries with
    | nil => rfl
    | cons e l ih =>
      by_cases hp : p e.2 = true
      · simp only [filterMap_cons, filter_cons, if_pos hp, map_cons, ih]
      · simp only [filterMap_cons, filter_cons, if_neg hp, ih]
  rw [hfilter]
  exact m.nodup.sublist (filter_sublist.map _)

/-- However many bits are given, the search returns the positions with the prefix. -/
theorem find_returns (hbits : shardBits ≤ 64) (hs : s.Covers rows) (mask : BitVec 64)
    (maskBits : Nat) :
    ∃ found, s.find mask maskBits = .ok found ∧ found.Nodup ∧
      ∀ i, i ∈ found ↔ ∃ hash, rows i = some hash ∧ SamePrefix maskBits hash mask := by
  have hcanonical := samePrefix_canonicalMask mask maskBits
  obtain ⟨k, hk, hshard⟩ := shard_eq hbits s (CrdsFilter.canonicalMask mask maskBits)
  unfold find
  rcases Nat.lt_trichotomy shardBits maskBits with hlt | heq | hgt
  · simp only [if_pos hlt, hshard, ok_bind]
    refine ⟨_, rfl, nodup_filterMap_entries _ _, ?_⟩
    intro i
    rw [mem_filterMap_shard hs]
    refine exists_congr fun hash => and_congr_right fun _ => ?_
    rw [hashMatchesMaskPrefix_iff, ← hk, shardIndex_eq_iff hbits]
    constructor
    · exact fun h => h.2.trans hcanonical
    · intro h
      -- more bits agree than name the shard
      have hmatch := h.trans hcanonical.symm
      exact ⟨hmatch.mono (Nat.le_of_lt hlt), hmatch⟩
  · subst heq
    simp only [if_neg (Nat.lt_irrefl _), if_pos, hshard, ok_bind]
    refine ⟨_, rfl, (s.shards k).nodup, ?_⟩
    intro i
    rw [mem_keys_iff hs]
    refine exists_congr fun hash => and_congr_right fun _ => ?_
    rw [← hk, shardIndex_eq_iff hbits]
    exact ⟨fun h => h.trans hcanonical, fun h => h.trans hcanonical.symm⟩
  · have hmod := shardIndex_canonicalMask_mod hbits hgt mask
    have hpos : 0 < 2 ^ (shardBits - maskBits) := Nat.two_pow_pos _
    have hle := Nat.mod_le (shardIndex shardBits (CrdsFilter.canonicalMask mask maskBits))
      (2 ^ (shardBits - maskBits))
    have hbelow := shardIndex_lt hbits (CrdsFilter.canonicalMask mask maskBits)
    simp only [if_neg (Nat.lt_asymm hgt), if_neg (Nat.ne_of_gt hgt)]
    rw [if_neg (by omega)]
    refine ⟨_, rfl, nodup_keysBetween hs _ _, ?_⟩
    intro i
    simp only [keysBetween, mem_flatMap, mem_take_drop_finRange, mem_keys_iff hs,
      between_iff_div_eq hpos hmod]
    constructor
    · rintro ⟨k', hdiv, hash, hrow, hk'⟩
      rw [← hk', div_eq_iff_samePrefix hbits (Nat.le_of_lt hgt)] at hdiv
      exact ⟨hash, hrow, hdiv⟩
    · rintro ⟨hash, hrow, hprefix⟩
      refine ⟨⟨_, shardIndex_lt hbits hash⟩, ?_, hash, hrow, rfl⟩
      exact (div_eq_iff_samePrefix hbits (Nat.le_of_lt hgt) hash mask).mpr hprefix

end CrdsShards

end Agave.Gossip


