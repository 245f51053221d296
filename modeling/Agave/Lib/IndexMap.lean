/-
  Agave.Lib.IndexMap

  Maps whose entries have positions.

  An entry is appended when its key is new.  Removal fills the hole with the last
  entry, so that only this one moves.
-/

import Mathlib.Data.List.Nodup
import Mathlib.Data.List.Perm.Basic

namespace Agave.Lib

open List

/-! ## Lists -/

/-- The element at a position leaves, and the last one takes its place. -/
def swapRemoveAt {α : Type _} (l : List α) (i : Nat) : List α :=
  match l.getLast? with
  | none => []
  | some last => (l.set i last).dropLast

variable {i : Nat}

section

variable {α : Type _} {l : List α}

theorem swapRemoveAt_eq (hi : i < l.length) :
    swapRemoveAt l i = (l.set i (l.getLast (ne_nil_of_length_pos (by omega)))).dropLast := by
  rw [swapRemoveAt, getLast?_eq_getLast_of_ne_nil]

theorem length_swapRemoveAt (hi : i < l.length) : (swapRemoveAt l i).length = l.length - 1 := by
  rw [swapRemoveAt_eq hi, length_dropLast, length_set]

theorem getElem?_swapRemoveAt (hi : i < l.length) (j : Nat) : (swapRemoveAt l i)[j]? =
      if j < l.length - 1 then if j = i then l[l.length - 1]? else l[j]? else none := by
  have hlast : l[l.length - 1]? = some (l.getLast (ne_nil_of_length_pos (by omega))) := by
    rw [← getLast?_eq_getElem?, getLast?_eq_getLast_of_ne_nil]
  rw [swapRemoveAt_eq hi, getElem?_dropLast, length_set]
  split
  · rw [getElem?_set, hlast]
    by_cases hij : i = j
    · rw [if_pos hij, if_pos hij.symm, if_pos hi]
    · rw [if_neg hij, if_neg (Ne.symm hij)]
  · rfl

/-- Nothing else leaves: the removed element and the rest are the old list. -/
theorem cons_swapRemoveAt_perm {a : α} (ha : l[i]? = some a) : (a :: swapRemoveAt l i).Perm l := by
  obtain ⟨hi, rfl⟩ := List.getElem?_eq_some_iff.mp ha
  rw [swapRemoveAt_eq hi]
  set last := l.getLast (ne_nil_of_length_pos (by omega))
  -- with the last element in the hole, the list ends as it did
  have hend : (l.set i last).getLast? = some last := by
    rw [getLast?_eq_getElem?, length_set, getElem?_set]
    split
    · rfl
    · rw [← getLast?_eq_getElem?, getLast?_eq_getLast_of_ne_nil]
  have hrest : (last :: (l.set i last).dropLast).Perm (last :: l.eraseIdx i) :=
    calc (last :: (l.set i last).dropLast).Perm ((l.set i last).dropLast ++ [last]) :=
          (perm_append_singleton last _).symm
      _ = l.set i last := dropLast_append_getLast? last hend
      List.Perm _ (last :: l.eraseIdx i) := set_perm_cons_eraseIdx hi last
  exact (hrest.cons_inv.cons _).trans (getElem_cons_eraseIdx_perm hi)

end

/-! ## The map -/

/-- A finite map whose entries have positions; no key has two of them. -/
structure IndexMap (κ : Type _) (α : Type _) where
  entries : List (κ × α)
  nodup : (entries.map Prod.fst).Nodup

namespace IndexMap

variable {κ α : Type _}
variable {m : IndexMap κ α} {e : κ × α} {k : κ} {v : α}

def empty : IndexMap κ α := ⟨[], List.nodup_nil⟩

def keys (m : IndexMap κ α) : List κ := m.entries.map Prod.fst

def values (m : IndexMap κ α) : List α := m.entries.map Prod.snd

def len (m : IndexMap κ α) : Nat := m.entries.length

def isEmpty (m : IndexMap κ α) : Bool := m.entries.isEmpty

/-- `get_index`. -/
def getIndex? (m : IndexMap κ α) (i : Nat) : Option (κ × α) := m.entries[i]?

theorem getIndex?_lt (h : m.getIndex? i = some e) : i < m.len :=
  (List.getElem?_eq_some_iff.mp h).1

theorem getElem?_keys (h : m.getIndex? i = some e) :
    (m.entries.map Prod.fst)[i]? = some e.1 := by
  rw [getElem?_map, show m.entries[i]? = some e from h, Option.map_some]

theorem getIndex?_inj {j : Nat} {w : α} (hi : m.getIndex? i = some (k, v))
    (hj : m.getIndex? j = some (k, w)) : i = j := by
  have hki := getElem?_keys hi
  have hlt : i < (m.entries.map Prod.fst).length := (List.getElem?_eq_some_iff.mp hki).1
  exact (List.getElem?_inj hlt m.nodup).mp (hki.trans (getElem?_keys hj).symm)

/-! ## Removal by position -/

theorem nodup_swapRemoveAt (h : m.getIndex? i = some e) :
    e.1 ∉ (swapRemoveAt m.entries i).map Prod.fst ∧
      ((swapRemoveAt m.entries i).map Prod.fst).Nodup := by
  have hperm := (cons_swapRemoveAt_perm h).map Prod.fst
  exact nodup_cons.mp (hperm.nodup_iff.mpr m.nodup)

/-- The map without the entry at a position. -/
@[grind =]
def swapRemoveIndex (m : IndexMap κ α) (i : Nat) : IndexMap κ α :=
  match hi : m.getIndex? i with
  | none => m
  | some _ => ⟨swapRemoveAt m.entries i, (nodup_swapRemoveAt hi).2⟩

section

variable (h : m.getIndex? i = some e)
include h

theorem entries_swapRemoveIndex :
    (m.swapRemoveIndex i).entries = swapRemoveAt m.entries i := by
  unfold swapRemoveIndex
  split
  · rename_i hnone
    rw [hnone] at h
    cases h
  · rfl

theorem len_swapRemoveIndex :
    (m.swapRemoveIndex i).len = m.len - 1 := by
  rw [len, entries_swapRemoveIndex h, length_swapRemoveAt (getIndex?_lt h), len]

theorem getIndex?_swapRemoveIndex (j : Nat) :
    (m.swapRemoveIndex i).getIndex? j =
      if j < m.len - 1 then if j = i then m.getIndex? (m.len - 1) else m.getIndex? j
      else none := by
  rw [getIndex?, entries_swapRemoveIndex h, getElem?_swapRemoveAt (getIndex?_lt h)]
  rfl

end

/-! ## Writing to a position -/

theorem map_fst_modify (l : List (κ × α)) (i : Nat) (f : α → α) :
    (l.modify i fun e => (e.1, f e.2)).map Prod.fst = l.map Prod.fst := by
  apply ext_getElem?
  intro j
  rw [getElem?_map, getElem?_map, getElem?_modify]
  cases l[j]? with
  | none => rfl
  | some e =>
    by_cases hij : i = j
    · simp only [hij, if_true, Option.map_some, Option.map_eq_map]
    · simp only [hij, if_false, Option.map_some, Option.map_eq_map]

theorem nodup_modify (m : IndexMap κ α) (i : Nat) (f : α → α) :
    ((m.entries.modify i fun e => (e.1, f e.2)).map Prod.fst).Nodup := by
  rw [map_fst_modify]
  exact m.nodup

/-- A write through `get_index_mut`; nothing is at a position past the end. -/
def modifyIndex (m : IndexMap κ α) (i : Nat) (f : α → α) : IndexMap κ α :=
  ⟨m.entries.modify i fun e => (e.1, f e.2), nodup_modify m i f⟩

theorem getIndex?_modifyIndex (m : IndexMap κ α) (i : Nat) (f : α → α) (j : Nat) :
    (m.modifyIndex i f).getIndex? j =
      if i = j then (m.getIndex? j).map fun e => (e.1, f e.2) else m.getIndex? j := by
  rw [getIndex?, modifyIndex, getElem?_modify, getIndex?]
  by_cases hij : i = j
  · simp only [hij, if_true, Option.map_eq_map]
  · simp only [hij, if_false, id_map']

/-! ## Lookup by key -/

variable [DecidableEq κ]

/-- `get_index_of`. -/
def getIndexOf? (m : IndexMap κ α) (k : κ) : Option Nat :=
  m.entries.findIdx? (fun e => e.1 = k)

/-- `get_full`, without the key. -/
def getFull? (m : IndexMap κ α) (k : κ) : Option (Nat × α) :=
  (m.getIndexOf? k).bind fun i => (m.getIndex? i).map fun e => (i, e.2)

def get? (m : IndexMap κ α) (k : κ) : Option α := (m.getFull? k).map Prod.snd

theorem getIndexOf?_eq_some_iff : m.getIndexOf? k = some i ↔ ∃ v, m.getIndex? i = some (k, v) := by
  constructor
  · intro h
    obtain ⟨hi, hk, -⟩ := List.findIdx?_eq_some_iff_getElem.mp h
    have hk : m.entries[i].1 = k := of_decide_eq_true hk
    exact ⟨m.entries[i].2, List.getElem?_eq_some_iff.mpr ⟨hi, Prod.ext hk rfl⟩⟩
  · rintro ⟨v, hv⟩
    obtain ⟨hi, hentry⟩ := List.getElem?_eq_some_iff.mp hv
    refine List.findIdx?_eq_some_iff_getElem.mpr ⟨hi, ?_, ?_⟩
    · rw [hentry]
      exact decide_eq_true rfl
    · intro j hj hkj
      -- an earlier entry with this key would be a second position of it
      have hlt : j < m.entries.length := Nat.lt_trans hj hi
      have hkj : m.entries[j].1 = k := of_decide_eq_true hkj
      have hjth : m.getIndex? j = some (k, m.entries[j].2) :=
        List.getElem?_eq_some_iff.mpr ⟨hlt, Prod.ext hkj rfl⟩
      have := getIndex?_inj hjth hv
      omega

theorem getFull?_eq_some_iff : m.getFull? k = some (i, v) ↔ m.getIndex? i = some (k, v) := by
  constructor
  · intro h
    obtain ⟨j, hj, h⟩ := Option.bind_eq_some_iff.mp h
    obtain ⟨w, hw⟩ := getIndexOf?_eq_some_iff.mp hj
    rw [hw] at h
    cases h
    exact hw
  · intro h
    rw [getFull?, getIndexOf?_eq_some_iff.mpr ⟨v, h⟩, Option.bind_some, h, Option.map_some]

theorem get?_eq_some_iff : m.get? k = some v ↔ ∃ i, m.getIndex? i = some (k, v) := by
  rw [get?, Option.map_eq_some_iff]
  constructor
  · rintro ⟨⟨i, w⟩, hfull, rfl⟩
    exact ⟨i, getFull?_eq_some_iff.mp hfull⟩
  · rintro ⟨i, hi⟩
    exact ⟨(i, v), getFull?_eq_some_iff.mpr hi, rfl⟩

theorem get?_eq_some_iff_mem : m.get? k = some v ↔ (k, v) ∈ m.entries := by
  rw [get?_eq_some_iff, mem_iff_getElem?]
  rfl

theorem isEmpty_eq_false_of_get? (h : m.get? k = some v) : m.isEmpty = false := by
  have hmem := get?_eq_some_iff_mem.mp h
  exact isEmpty_eq_false_iff.mpr (ne_nil_of_mem hmem)

theorem get?_of_isEmpty (h : m.isEmpty = true) (k : κ) : m.get? k = none := by
  cases hk : m.get? k with
  | none => rfl
  | some v =>
    rw [isEmpty_eq_false_of_get? hk] at h
    cases h

theorem getIndexOf?_eq_none_iff : m.getIndexOf? k = none ↔ k ∉ m.keys := by
  rw [getIndexOf?, findIdx?_eq_none_iff]
  simp only [decide_eq_false_iff_not, keys, mem_map, not_exists, not_and]

/-! ## Insertion -/

theorem nodup_set (hk : m.getIndexOf? k = some i) (v : α) :
    ((m.entries.set i (k, v)).map Prod.fst).Nodup := by
  obtain ⟨w, hw⟩ := getIndexOf?_eq_some_iff.mp hk
  obtain ⟨hi, hkey⟩ := List.getElem?_eq_some_iff.mp (getElem?_keys hw)
  have hsame : (m.entries.map Prod.fst).set i k = m.entries.map Prod.fst := by
    rw [← show _ = k from hkey, set_getElem_self]
  rw [map_set, hsame]
  exact m.nodup

theorem nodup_append_new (hk : m.getIndexOf? k = none) (v : α) :
    ((m.entries ++ [(k, v)]).map Prod.fst).Nodup := by
  have hfresh : k ∉ m.entries.map Prod.fst := getIndexOf?_eq_none_iff.mp hk
  rw [map_append, map_singleton, ← concat_eq_append]
  exact m.nodup.concat hfresh

/-- `insert`: the entry of a known key keeps its position, a new one is appended. -/
@[grind =]
def insert (m : IndexMap κ α) (k : κ) (v : α) : IndexMap κ α :=
  match hk : m.getIndexOf? k with
  | some i => ⟨m.entries.set i (k, v), nodup_set hk v⟩
  | none => ⟨m.entries ++ [(k, v)], nodup_append_new hk v⟩

theorem entries_insert_of_some (hk : m.getIndexOf? k = some i) (v : α) :
    (m.insert k v).entries = m.entries.set i (k, v) := by
  unfold insert
  split
  · rename_i j hj
    rw [hk] at hj
    cases hj
    rfl
  · rename_i hnone
    rw [hk] at hnone
    cases hnone

theorem entries_insert_of_none (hk : m.getIndexOf? k = none) (v : α) :
    (m.insert k v).entries = m.entries ++ [(k, v)] := by
  unfold insert
  split
  · rename_i j hj
    rw [hk] at hj
    cases hj
  · rfl

theorem getIndex?_insert_of_some (hk : m.getIndexOf? k = some i) (v : α) (j : Nat) :
    (m.insert k v).getIndex? j = if j = i then some (k, v) else m.getIndex? j := by
  obtain ⟨w, hw⟩ := getIndexOf?_eq_some_iff.mp hk
  rw [getIndex?, entries_insert_of_some hk, getElem?_set]
  by_cases hij : i = j
  · have hi : i < m.entries.length := getIndex?_lt hw
    rw [if_pos hij, if_pos hij.symm, if_pos hi]
  · rw [if_neg hij, if_neg (Ne.symm hij)]
    rfl

theorem getIndex?_insert_of_none (hk : m.getIndexOf? k = none) (v : α) (j : Nat) :
    (m.insert k v).getIndex? j = if j = m.len then some (k, v) else m.getIndex? j := by
  rw [getIndex?, entries_insert_of_none hk]
  split
  · rename_i hj
    rw [hj]
    exact getElem?_concat_length
  · rename_i hj
    by_cases hlt : j < m.len
    · exact getElem?_append_left hlt
    · have hlen : m.len < j := by omega
      rw [getIndex?, getElem?_eq_none (Nat.le_of_not_lt hlt), getElem?_eq_none]
      rw [length_append, length_singleton]
      exact hlen

/-- The written entry has a position, where no other key was. -/
theorem exists_position_insert (m : IndexMap κ α) (k : κ) (v : α) :
    ∃ p, (∀ e, m.getIndex? p = some e → e.1 = k) ∧
      ∀ j, (m.insert k v).getIndex? j = if j = p then some (k, v) else m.getIndex? j := by
  cases hk : m.getIndexOf? k with
  | some i =>
    obtain ⟨w, hw⟩ := getIndexOf?_eq_some_iff.mp hk
    refine ⟨i, fun e he => ?_, getIndex?_insert_of_some hk v⟩
    rw [hw] at he
    cases he
    rfl
  | none =>
    exact ⟨m.len, fun e he => absurd (getIndex?_lt he) (Nat.lt_irrefl _),
      getIndex?_insert_of_none hk v⟩

@[simp] theorem get?_insert (m : IndexMap κ α) (k k' : κ) (v : α) :
    (m.insert k v).get? k' = if k' = k then some v else m.get? k' := by
  obtain ⟨p, hp, hinsert⟩ := exists_position_insert m k v
  split
  · rename_i hkk
    subst hkk
    exact get?_eq_some_iff.mpr ⟨p, (hinsert p).trans (if_pos rfl)⟩
  · rename_i hkk
    apply Option.ext
    intro w
    rw [get?_eq_some_iff, get?_eq_some_iff]
    refine exists_congr fun j => ?_
    rw [hinsert]
    split
    · rename_i hj
      refine iff_of_false ?_ fun h => hkk (hp _ (hj ▸ h))
      rintro ⟨⟩
      exact hkk rfl
    · rfl

/-! ## Removal by key -/

/-- `swap_remove_full`, without the key. -/
def swapRemoveFull (m : IndexMap κ α) (k : κ) : Option (Nat × α) × IndexMap κ α :=
  match m.getFull? k with
  | none => (none, m)
  | some (i, v) => (some (i, v), m.swapRemoveIndex i)

theorem swapRemoveFull_of_getIndex? (h : m.getIndex? i = some (k, v)) :
    m.swapRemoveFull k = (some (i, v), m.swapRemoveIndex i) := by
  rw [swapRemoveFull, getFull?_eq_some_iff.mpr h]

theorem swapRemoveFull_of_none (h : m.get? k = none) : m.swapRemoveFull k = (none, m) := by
  rw [swapRemoveFull, Option.map_eq_none_iff.mp h]

@[simp] theorem get?_swapRemoveFull (m : IndexMap κ α) (k k' : κ) :
    (m.swapRemoveFull k).2.get? k' = if k' = k then none else m.get? k' := by
  cases hk : m.get? k with
  | none =>
    rw [swapRemoveFull_of_none hk]
    split
    · rename_i hkk
      rw [hkk]
      exact hk
    · rfl
  | some v =>
    obtain ⟨i, hi⟩ := get?_eq_some_iff.mp hk
    have hperm := cons_swapRemoveAt_perm hi
    rw [swapRemoveFull_of_getIndex? hi]
    apply Option.ext
    intro w
    rw [get?_eq_some_iff_mem, entries_swapRemoveIndex hi]
    split
    · rename_i hkk
      subst hkk
      refine iff_of_false (fun hmem => (nodup_swapRemoveAt hi).1 ?_) (by simp)
      exact List.mem_map.mpr ⟨(k', w), hmem, rfl⟩
    · rename_i hkk
      rw [get?_eq_some_iff_mem, ← hperm.mem_iff, List.mem_cons, Prod.mk.injEq]
      simp only [hkk, false_and, false_or]

end IndexMap

end Agave.Lib

