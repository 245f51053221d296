/-
  Agave.Lib.BTreeMap

  Ordered maps, as the standard library's `BTreeMap` presents them: a finite map whose entries are
  visited in increasing key order.

  The representation is the list of entries itself, strictly increasing in the key, so that a map
  with a repeated or misplaced key cannot be built.  Each operation has two kinds of facts: what it
  returns, and how the multiset of entries changes (`Perm`).  Sortedness then pins the order down,
  which is what the "first entry is the least" lemmas say.
-/

import Agave.Lib.Outcome
import Mathlib.Algebra.BigOperators.Group.List.Basic
import Mathlib.Algebra.Order.Ring.Nat
import Mathlib.Data.List.Nodup

namespace Agave.Lib

open List

/-- A finite map with its entries in strictly increasing key order. -/
structure BTreeMap (κ : Type _) (α : Type _) [LinearOrder κ] where
  entries : List (κ × α)
  sorted : entries.Pairwise (fun a b => a.1 < b.1)

namespace BTreeMap

variable {κ α ε σ : Type _} [LinearOrder κ]
variable {k : κ} {v : α} {l : List (κ × α)} {m : BTreeMap κ α}

/-! ## Reading -/

def keys (m : BTreeMap κ α) : List κ := m.entries.map Prod.fst

def values (m : BTreeMap κ α) : List α := m.entries.map Prod.snd

def isEmpty (m : BTreeMap κ α) : Bool := m.entries.isEmpty

/-- `first_key_value`. -/
def first? (m : BTreeMap κ α) : Option (κ × α) := m.entries.head?

/-! ## Building -/

def empty : BTreeMap κ α := ⟨[], List.Pairwise.nil⟩

/-- `BTreeMap::from([(k, v)])`. -/
def singleton (k : κ) (v : α) : BTreeMap κ α := ⟨[(k, v)], List.pairwise_singleton _ _⟩

/-- Insertion into a sorted entry list, replacing the entry of an equal key. -/
def insertEntry (k : κ) (v : α) : List (κ × α) → List (κ × α)
  | [] => [(k, v)]
  | e :: l =>
    if k < e.1 then (k, v) :: e :: l
    else if k = e.1 then (k, v) :: l
    else e :: insertEntry k v l

theorem mem_insertEntry {a : κ × α} (h : a ∈ insertEntry k v l) : a = (k, v) ∨ a ∈ l := by
  induction l with
  | nil =>
    simp only [insertEntry, mem_singleton] at h
    exact Or.inl h
  | cons e l ih =>
    simp only [insertEntry] at h
    split_ifs at h with h1 h2
    · exact mem_cons.mp h
    · rcases mem_cons.mp h with h | h
      · exact Or.inl h
      · exact Or.inr (mem_cons_of_mem _ h)
    · rcases mem_cons.mp h with rfl | h
      · exact Or.inr mem_cons_self
      · rcases ih h with h | h
        · exact Or.inl h
        · exact Or.inr (mem_cons_of_mem _ h)

theorem insertEntry_sorted (h : l.Pairwise (fun a b => a.1 < b.1)) :
    (insertEntry k v l).Pairwise (fun a b => a.1 < b.1) := by
  induction l with
  | nil => exact pairwise_singleton _ _
  | cons e l ih =>
    obtain ⟨he, hl⟩ := pairwise_cons.mp h
    simp only [insertEntry]
    split_ifs with h1 h2
    · refine pairwise_cons.mpr ⟨?_, h⟩
      intro b hb
      rcases mem_cons.mp hb with rfl | hb
      · exact h1
      · exact lt_trans h1 (he b hb)
    · refine pairwise_cons.mpr ⟨?_, hl⟩
      intro b hb
      rw [h2]
      exact he b hb
    · refine pairwise_cons.mpr ⟨?_, ih hl⟩
      intro b hb
      rcases mem_insertEntry hb with rfl | hb
      · exact lt_of_le_of_ne (not_lt.mp h1) (Ne.symm h2)
      · exact he b hb

/-- The value stored under `k`. -/
def get? (m : BTreeMap κ α) (k : κ) : Option α :=
  (m.entries.find? (fun e => e.1 = k)).map Prod.snd

/-- `insert`: the value that was there before, and the new map. -/
def insert (m : BTreeMap κ α) (k : κ) (v : α) : Option α × BTreeMap κ α :=
  (m.get? k, ⟨insertEntry k v m.entries, insertEntry_sorted m.sorted⟩)

/-- `remove`: the value that was there before, and the new map. -/
def remove (m : BTreeMap κ α) (k : κ) : Option α × BTreeMap κ α :=
  (m.get? k, ⟨m.entries.filter (fun e => e.1 ≠ k), m.sorted.sublist List.filter_sublist⟩)

/-- `pop_first`: the least entry, and the map without it. -/
def popFirst (m : BTreeMap κ α) : Option (κ × α) × BTreeMap κ α :=
  (m.entries.head?, ⟨m.entries.tail, m.sorted.sublist (List.tail_sublist _)⟩)

/-- The entry-list half of `extract_if`: entries from `lo` on are shown to
    `f` in order, with a state that `f` may update; those it accepts leave the
    list.  Returns what is kept, what is extracted, and the final state. -/
def extractEntries (lo : κ) (f : σ → κ → α → Except ε (Bool × σ)) :
    List (κ × α) → σ → Except ε (List (κ × α) × List (κ × α) × σ)
  | [], s => .ok ([], [], s)
  | e :: l, s =>
    if e.1 < lo then
      match extractEntries lo f l s with
      | .error err => .error err
      | .ok (kept, out, s') => .ok (e :: kept, out, s')
    else
      match f s e.1 e.2 with
      | .error err => .error err
      | .ok (take, s₁) =>
        match extractEntries lo f l s₁ with
        | .error err => .error err
        | .ok (kept, out, s') =>
          if take then .ok (kept, e :: out, s') else .ok (e :: kept, out, s')

variable {f : σ → κ → α → Except ε (Bool × σ)} {J : List (κ × α) → σ → Prop} {allowed : ε → Prop}
  {T : κ × α → Prop} {lo : κ} {s : σ}

theorem extractEntries_sublist {kept out : List (κ × α)} {s' : σ}
    (h : extractEntries lo f l s = .ok (kept, out, s')) : kept.Sublist l := by
  induction l generalizing s kept out s' with
  | nil =>
    simp only [extractEntries, Except.ok.injEq, Prod.mk.injEq] at h
    rw [← h.1]
  | cons e l ih =>
    simp only [extractEntries] at h
    split at h
    · split at h
      · cases h
      · rename_i heq
        simp only [Except.ok.injEq, Prod.mk.injEq] at h
        rw [← h.1]
        exact (ih heq).cons_cons e
    · split at h
      · cases h
      · split at h
        · cases h
        · rename_i heq
          split at h
          · simp only [Except.ok.injEq, Prod.mk.injEq] at h
            rw [← h.1]
            exact (ih heq).cons e
          · simp only [Except.ok.injEq, Prod.mk.injEq] at h
            rw [← h.1]
            exact (ih heq).cons_cons e

/-- `extract_if(lo.., f)` run to its end. -/
def extractIf (m : BTreeMap κ α) (lo : κ) (f : σ → κ → α → Except ε (Bool × σ)) (s : σ) :
    Except ε (BTreeMap κ α × List (κ × α) × σ) :=
  match h : extractEntries lo f m.entries s with
  | .error err => .error err
  | .ok (kept, out, s') => .ok (⟨kept, m.sorted.sublist (extractEntries_sublist h)⟩, out, s')

/-! ## Facts -/

theorem nodup_keys (m : BTreeMap κ α) : m.keys.Nodup :=
  pairwise_map.mpr (m.sorted.imp (fun h => ne_of_lt h))

theorem get?_eq_some_iff : m.get? k = some v ↔ (k, v) ∈ m.entries := by
  unfold get?
  rw [Option.map_eq_some_iff]
  constructor
  · rintro ⟨e, he, rfl⟩
    have hk : e.1 = k := by simpa using find?_some he
    rw [← hk]
    exact mem_of_find?_eq_some he
  · intro hmem
    cases hf : m.entries.find? (fun e => e.1 = k) with
    | none =>
      have := find?_eq_none.mp hf (k, v) hmem
      simp at this
    | some e =>
      have hk : e.1 = k := by simpa using find?_some hf
      refine ⟨e, rfl, ?_⟩
      have hinj := inj_on_of_nodup_map (nodup_keys m)
        (mem_of_find?_eq_some hf) hmem hk
      rw [hinj]

theorem get?_eq_none_iff : m.get? k = none ↔ k ∉ m.keys := by
  rw [← not_iff_not, not_not, ← ne_eq, Option.ne_none_iff_exists']
  constructor
  · rintro ⟨v, hv⟩
    exact mem_map_of_mem (get?_eq_some_iff.mp hv)
  · intro hk
    obtain ⟨e, he, rfl⟩ := mem_map.mp hk
    exact ⟨e.2, get?_eq_some_iff.mpr he⟩

/-- The last entry up to a bound is the one of the greatest key. -/
theorem find?_reverse_le_eq_some_iff {bound : κ} :
    m.entries.reverse.find? (fun e => e.1 ≤ bound) = some (k, v) ↔
      m.get? k = some v ∧ k ≤ bound ∧ ∀ k' ∈ m.keys, k' ≤ bound → k' ≤ k := by
  have found : ∀ e, m.entries.reverse.find? (fun e => e.1 ≤ bound) = some e →
      e ∈ m.entries ∧ e.1 ≤ bound ∧ ∀ k' ∈ m.keys, k' ≤ bound → k' ≤ e.1 := by
    intro e he
    obtain ⟨hbound, before, behind, hsplit, hbefore⟩ := find?_eq_some_iff_append.mp he
    have hmem : ∀ a, a ∈ m.entries ↔ a ∈ before ++ e :: behind := by
      intro a
      rw [← hsplit, mem_reverse]
    have hsorted : (before ++ e :: behind).Pairwise (fun a b => b.1 < a.1) := by
      rw [← hsplit]
      exact pairwise_reverse.mpr m.sorted
    refine ⟨(hmem e).mpr (mem_append_right _ mem_cons_self), by simpa using hbound, ?_⟩
    intro k' hk' hle
    obtain ⟨a, ha, rfl⟩ := mem_map.mp hk'
    rcases mem_append.mp ((hmem a).mp ha) with ha | ha
    · exact absurd hle (by simpa using hbefore a ha)
    · rcases mem_cons.mp ha with rfl | ha
      · exact le_refl _
      · exact le_of_lt ((pairwise_cons.mp (pairwise_append.mp hsorted).2.1).1 a ha)
  constructor
  · intro h
    obtain ⟨hmem, hrest⟩ := found _ h
    exact ⟨get?_eq_some_iff.mpr hmem, hrest⟩
  · rintro ⟨hget, hle, hgreatest⟩
    have hmem := get?_eq_some_iff.mp hget
    obtain ⟨e, he⟩ : ∃ e, m.entries.reverse.find? (fun e => e.1 ≤ bound) = some e := by
      rw [← Option.isSome_iff_exists, find?_isSome]
      exact ⟨(k, v), mem_reverse.mpr hmem, by simpa using hle⟩
    obtain ⟨hmem', hle', hgreatest'⟩ := found e he
    have hk : e.1 = k := le_antisymm (hgreatest _ (mem_map_of_mem hmem') hle')
      (hgreatest' _ (mem_map_of_mem hmem) hle)
    rw [he, inj_on_of_nodup_map (nodup_keys m) hmem' hmem hk]

theorem filter_ne_eq_self (h : ∀ e ∈ l, e.1 ≠ k) : l.filter (fun e => e.1 ≠ k) = l :=
  filter_eq_self.mpr fun e he => decide_eq_true (h e he)

theorem perm_cons_filter_ne (hnd : (l.map Prod.fst).Nodup) (hm : (k, v) ∈ l) :
    l.Perm ((k, v) :: l.filter (fun e => e.1 ≠ k)) := by
  induction l with
  | nil => exact absurd hm not_mem_nil
  | cons e l ih =>
    obtain ⟨hek, hl⟩ := nodup_cons.mp hnd
    rcases mem_cons.mp hm with heq | hm
    · -- the entry is the head: no other entry of the tail has its key
      have hk : e.1 = k := by rw [← heq]
      rw [filter_cons_of_neg (by simpa using hk), filter_ne_eq_self, heq]
      intro a ha hak
      exact hek (mem_map.mpr ⟨a, ha, hak.trans hk.symm⟩)
    · have hne : e.1 ≠ k := by
        intro hk
        exact hek (mem_map.mpr ⟨(k, v), hm, hk.symm⟩)
      rw [filter_cons_of_pos (by simpa using hne)]
      exact ((ih hl hm).cons e).trans (List.Perm.swap _ _ _)

theorem perm_cons_remove (h : (k, v) ∈ m.entries) :
    m.entries.Perm ((k, v) :: (m.remove k).2.entries) :=
  perm_cons_filter_ne (nodup_keys m) h

theorem perm_values_remove (h : (k, v) ∈ m.entries) : m.values.Perm (v :: (m.remove k).2.values) :=
  (perm_cons_remove h).map Prod.snd

theorem insertEntry_perm_filter (h : l.Pairwise (fun a b => a.1 < b.1)) :
    (insertEntry k v l).Perm ((k, v) :: l.filter (fun e => e.1 ≠ k)) := by
  induction l with
  | nil => exact List.Perm.refl _
  | cons e l ih =>
    obtain ⟨he, hl⟩ := pairwise_cons.mp h
    simp only [insertEntry]
    split_ifs with h1 h2
    · rw [filter_ne_eq_self]
      intro a ha
      rcases mem_cons.mp ha with rfl | ha
      · exact (ne_of_lt h1).symm
      · exact (ne_of_lt (h1.trans (he a ha))).symm
    · rw [filter_cons_of_neg (by simpa using h2.symm), filter_ne_eq_self]
      intro a ha
      rw [h2]
      exact (ne_of_lt (he a ha)).symm
    · rw [filter_cons_of_pos (by simpa using Ne.symm h2)]
      exact ((ih hl).cons e).trans (List.Perm.swap _ _ _)

theorem insert_entries_perm (v : α) (h : k ∉ m.keys) :
    (m.insert k v).2.entries.Perm ((k, v) :: m.entries) := by
  have hother : ∀ e ∈ m.entries, e.1 ≠ k := fun e he hk => h (hk ▸ mem_map_of_mem he)
  have hperm := insertEntry_perm_filter (k := k) (v := v) m.sorted
  rwa [filter_ne_eq_self hother] at hperm

theorem insert_values_perm (v : α) (h : k ∉ m.keys) : (m.insert k v).2.values.Perm (v :: m.values) :=
  (insert_entries_perm v h).map Prod.snd

theorem insert_values_perm_remove (m : BTreeMap κ α) (k : κ) (v : α) :
    (m.insert k v).2.values.Perm (v :: (m.remove k).2.values) :=
  (insertEntry_perm_filter m.sorted).map Prod.snd

/-! ## Lookups after an update -/

theorem mem_keys_iff : k ∈ m.keys ↔ ∃ v, m.get? k = some v := by
  rw [← not_iff_not, ← get?_eq_none_iff, Option.eq_none_iff_forall_ne_some, not_exists]

theorem find?_insertEntry (k : κ) (v : α) (k' : κ) (l : List (κ × α)) :
    (insertEntry k v l).find? (fun e => e.1 = k') =
      if k' = k then some (k, v) else l.find? (fun e => e.1 = k') := by
  induction l with
  | nil =>
    simp only [insertEntry]
    grind
  | cons e l ih =>
    simp only [insertEntry]
    split_ifs <;> grind

@[simp] theorem get?_insert (m : BTreeMap κ α) (k : κ) (v : α) (k' : κ) :
    (m.insert k v).2.get? k' = if k' = k then some v else m.get? k' := by
  simp only [get?, insert, find?_insertEntry]
  split_ifs <;> rfl

@[simp] theorem get?_remove (m : BTreeMap κ α) (k k' : κ) :
    (m.remove k).2.get? k' = if k' = k then none else m.get? k' := by
  simp only [get?, remove, List.find?_filter]
  split_ifs with h
  · subst h
    simp
  · congr 2
    funext e
    by_cases he : e.1 = k'
    · simp [he, h]
    · simp [he]

def retain (m : BTreeMap κ α) (f : κ → α → Bool) : BTreeMap κ α :=
  ⟨m.entries.filter (fun e => f e.1 e.2), m.sorted.sublist List.filter_sublist⟩

theorem get?_retain_eq_some_iff {f : κ → α → Bool} :
    (m.retain f).get? k = some v ↔ m.get? k = some v ∧ f k v = true := by
  rw [get?_eq_some_iff, get?_eq_some_iff]
  exact mem_filter

theorem keys_insert_perm (v : α) (h : k ∉ m.keys) : (m.insert k v).2.keys.Perm (k :: m.keys) :=
  (insert_entries_perm v h).map Prod.fst

/-- The rule for `extract_if` with a stateful predicate.

    `T` says which entries are taken; `J` relates the entries taken so far to
    the state.  If one call of `f` decides `T` and keeps `J`, then the whole
    sweep splits the map along `T` from `lo` on. -/
theorem extractEntries_returns (hf : ∀ e ∈ l, lo ≤ e.1 → ∀ out s, J out s →
      Returns allowed (fun r => (r.1 = true ∧ T e ∧ J (out ++ [e]) r.2) ∨
        (r.1 = false ∧ ¬ T e ∧ J out r.2)) (f s e.1 e.2)) {out₀ : List (κ × α)} (hJ : J out₀ s) :
    Returns allowed (fun r => (r.1 ++ r.2.1).Perm l ∧ (∀ e ∈ r.2.1, lo ≤ e.1 ∧ T e) ∧
      (∀ e ∈ r.1, e.1 < lo ∨ ¬ T e) ∧ J (out₀ ++ r.2.1) r.2.2) (extractEntries lo f l s) := by
  induction l generalizing out₀ s with
  | nil =>
    simp only [extractEntries, Returns.ok_iff, append_nil]
    exact ⟨List.Perm.refl _, fun e h => absurd h not_mem_nil,
      fun e h => absurd h not_mem_nil, hJ⟩
  | cons e l ih =>
    have hf' := fun e' he' => hf e' (mem_cons_of_mem _ he')
    simp only [extractEntries]
    split
    · rename_i hlt
      have hrec := ih hf' hJ
      split
      · rename_i heq
        rw [heq] at hrec
        exact hrec
      · rename_i kept out s' heq
        rw [heq] at hrec
        obtain ⟨hp, hout, hkept, hJ'⟩ := hrec
        exact ⟨hp.cons e, hout, forall_mem_cons.mpr ⟨Or.inl hlt, hkept⟩, hJ'⟩
    · rename_i hge
      have hstep := hf e mem_cons_self (not_lt.mp hge) out₀ s hJ
      split
      · rename_i heq
        rw [heq] at hstep
        exact hstep
      · rename_i take s₁ heq
        rw [heq] at hstep
        rcases hstep with ⟨htake, hT, hJ₁⟩ | ⟨htake, hT, hJ₁⟩
        · have hrec := ih hf' hJ₁
          split
          · rename_i heq'
            rw [heq'] at hrec
            exact hrec
          · rename_i kept out s' heq'
            rw [heq'] at hrec
            obtain ⟨hp, hout, hkept, hJ'⟩ := hrec
            rw [if_pos htake]
            refine ⟨perm_middle.trans (hp.cons e),
              forall_mem_cons.mpr ⟨⟨not_lt.mp hge, hT⟩, hout⟩, hkept, ?_⟩
            simpa using hJ'
        · have hrec := ih hf' hJ₁
          split
          · rename_i heq'
            rw [heq'] at hrec
            exact hrec
          · rename_i kept out s' heq'
            rw [heq'] at hrec
            obtain ⟨hp, hout, hkept, hJ'⟩ := hrec
            have hno : ¬ take = true := by simp only at htake; simp [htake]
            rw [if_neg hno]
            exact ⟨hp.cons e, hout, forall_mem_cons.mpr ⟨Or.inr hT, hkept⟩, hJ'⟩

theorem extractIf_returns (hf : ∀ e ∈ m.entries, lo ≤ e.1 → ∀ out s, J out s →
      Returns allowed (fun r => (r.1 = true ∧ T e ∧ J (out ++ [e]) r.2) ∨
        (r.1 = false ∧ ¬ T e ∧ J out r.2)) (f s e.1 e.2)) (hJ : J [] s) :
    Returns allowed (fun r => (r.1.entries ++ r.2.1).Perm m.entries ∧
      (∀ e ∈ r.2.1, lo ≤ e.1 ∧ T e) ∧ (∀ e ∈ r.1.entries, e.1 < lo ∨ ¬ T e) ∧ J r.2.1 r.2.2)
      (m.extractIf lo f s) := by
  have h := extractEntries_returns hf hJ
  unfold extractIf
  split
  · rename_i heq
    rw [heq] at h
    exact h
  · rename_i heq
    rw [heq] at h
    simpa using h

end BTreeMap

end Agave.Lib
