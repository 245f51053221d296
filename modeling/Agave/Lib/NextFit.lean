/-
  Agave.Lib.NextFit

  Packing items into bins in the order they come.

  An item goes into the open bin if it fits there, and opens a new bin if not. An empty bin takes
  every item, so that one larger than a bin gets a bin of its own.
-/

import Mathlib.Algebra.Order.Ring.Nat
import Mathlib.Data.List.Chain

namespace Agave.Lib

open List

section

variable {α : Type _} (size : α → Nat) (capacity : Nat)

/-- The items that fit into a bin that holds a load, and the rest. -/
@[grind =]
def takeFit (load : Nat) : List α → List α × List α
  | [] => ([], [])
  | item :: items =>
    if load + size item > capacity ∧ load > 0 then ([], item :: items)
    else
      let (taken, rest) := takeFit (load + size item) items
      (item :: taken, rest)

/-- The bins of the items, with an open one to begin with. -/
@[grind =]
def nextFitFrom (bin : List α) (load : Nat) : List α → List (List α)
  | [] => if bin = [] then [] else [bin]
  | item :: items =>
    if load + size item > capacity ∧ load > 0 then bin :: nextFitFrom [item] (size item) items
    else nextFitFrom (bin ++ [item]) (load + size item) items

/-- The bins of the items. -/
def nextFit (items : List α) : List (List α) := nextFitFrom size capacity [] 0 items

end

section

variable {α : Type _} {size : α → Nat} {capacity : Nat}

/-- The load of a list of items. -/
def loadOf (size : α → Nat) (items : List α) : Nat := (items.map size).sum

theorem loadOf_cons (size : α → Nat) (item : α) (items : List α) :
    loadOf size (item :: items) = size item + loadOf size items := by
  rw [loadOf, map_cons, sum_cons]
  rfl

theorem loadOf_append (size : α → Nat) (items items' : List α) :
    loadOf size (items ++ items') = loadOf size items + loadOf size items' := by
  rw [loadOf, loadOf, loadOf, map_append, sum_append]

theorem takeFit_append_eq (load : Nat) (items : List α) :
    (takeFit size capacity load items).1 ++ (takeFit size capacity load items).2 = items := by
  induction items generalizing load with
  | nil => rfl
  | cons item items ih =>
    rw [takeFit]
    split
    · rfl
    · exact congrArg (item :: ·) (ih _)

variable {items bin : List α} {load : Nat}

theorem takeFit_zero_ne_nil (h : items ≠ []) : (takeFit size capacity 0 items).1 ≠ [] := by
  cases items with
  | nil => exact absurd rfl h
  | cons item items =>
    rw [takeFit, if_neg (fun hfull => absurd hfull.2 (Nat.lt_irrefl 0))]
    exact cons_ne_nil _ _

theorem takeFit_of_le (h : load + loadOf size items ≤ capacity) :
    takeFit size capacity load items = (items, []) := by
  induction items generalizing load with
  | nil => rfl
  | cons item items ih =>
    rw [loadOf_cons] at h
    rw [takeFit, if_neg (fun hfull => by omega), ih (by omega)]

/-- A bin that has room for all of a list goes on with the next. -/
theorem takeFit_append_of_nil {items' : List α} (h : (takeFit size capacity load items).2 = []) :
    takeFit size capacity load (items ++ items') =
      (items ++ (takeFit size capacity (load + loadOf size items) items').1,
        (takeFit size capacity (load + loadOf size items) items').2) := by
  induction items generalizing load with
  | nil => rfl
  | cons item items ih =>
    rw [takeFit] at h
    split at h
    · cases h
    · rename_i hfits
      rw [cons_append, takeFit, if_neg hfits, ih h, loadOf_cons, Nat.add_assoc]
      rfl

/-- A bin that is full before the end of a list does not see the next. -/
theorem takeFit_append_of_ne_nil (items' : List α) (h : (takeFit size capacity load items).2 ≠ []) :
    takeFit size capacity load (items ++ items') =
      ((takeFit size capacity load items).1, (takeFit size capacity load items).2 ++ items') := by
  induction items generalizing load with
  | nil => exact absurd rfl h
  | cons item items ih =>
    rw [takeFit] at h
    rw [cons_append, takeFit, takeFit]
    split at h
    · rename_i hfull
      rw [if_pos hfull, if_pos hfull]
      rfl
    · rename_i hfits
      rw [if_neg hfits, if_neg hfits, ih h]

/-- The bins, as the first one and those of the rest. -/
theorem nextFitFrom_eq_cons (h : bin ++ (takeFit size capacity load items).1 ≠ []) :
    nextFitFrom size capacity bin load items =
      (bin ++ (takeFit size capacity load items).1) ::
        nextFit size capacity (takeFit size capacity load items).2 := by
  induction items generalizing bin load with
  | nil =>
    rw [takeFit, append_nil] at h
    rw [nextFitFrom, if_neg h, takeFit, append_nil]
    rfl
  | cons item items ih =>
    rw [nextFitFrom, takeFit]
    split
    · rw [append_nil, nextFit, nextFitFrom,
        if_neg (fun hfull => absurd hfull.2 (Nat.lt_irrefl 0)), nil_append, Nat.zero_add]
    · rw [ih (by simp)]
      simp

theorem nextFit_eq_cons (h : items ≠ []) :
    nextFit size capacity items = (takeFit size capacity 0 items).1 ::
      nextFit size capacity (takeFit size capacity 0 items).2 := by
  have hne : [] ++ (takeFit size capacity 0 items).1 ≠ [] := by
    rw [nil_append]
    exact takeFit_zero_ne_nil h
  rw [nextFit, nextFitFrom_eq_cons hne, nil_append]

theorem flatten_nextFitFrom (bin : List α) (load : Nat) (items : List α) :
    (nextFitFrom size capacity bin load items).flatten = bin ++ items := by
  induction items generalizing bin load with
  | nil =>
    rw [nextFitFrom, append_nil]
    split
    · rename_i hbin
      rw [hbin]
      rfl
    · rw [flatten_singleton]
  | cons item items ih =>
    rw [nextFitFrom]
    split
    · rw [flatten_cons, ih, singleton_append]
    · rw [ih, append_assoc, singleton_append]

/-- But for the last one, the bins stay when more items come. -/
theorem take_nextFitFrom_append (items' : List α) {k : Nat}
    (h : k < (nextFitFrom size capacity bin load items).length) :
    (nextFitFrom size capacity bin load (items ++ items')).take k =
      (nextFitFrom size capacity bin load items).take k := by
  induction items generalizing bin load k with
  | nil =>
    have hlength : (nextFitFrom size capacity bin load []).length ≤ 1 := by
      rw [nextFitFrom]
      split <;> simp
    rw [show k = 0 by omega, take_zero, take_zero]
  | cons item items ih =>
    rw [nextFitFrom] at h
    rw [cons_append, nextFitFrom, nextFitFrom]
    split at h
    · rename_i hfull
      rw [if_pos hfull, if_pos hfull]
      cases k with
      | zero => rfl
      | succ k => rw [take_succ_cons, take_succ_cons, ih (Nat.lt_of_succ_lt_succ h)]
    · rename_i hfits
      rw [if_neg hfits, if_neg hfits, ih h]

/-- How many items the first bins hold. -/
def placed (bins : List (List α)) (k : Nat) : Nat := ((bins.map length).take k).sum

theorem placed_cons_succ (bin : List α) (bins : List (List α)) (k : Nat) :
    placed (bin :: bins) (k + 1) = bin.length + placed bins k := by
  rw [placed, map_cons, take_succ_cons, sum_cons]
  rfl

theorem placed_mono (bins : List (List α)) {j k : Nat} (h : j ≤ k) :
    placed bins j ≤ placed bins k := by
  obtain ⟨d, rfl⟩ := Nat.exists_eq_add_of_le h
  rw [placed, placed, take_add, sum_append]
  exact Nat.le_add_right _ _

theorem placed_le_append (bins bins' : List (List α)) (k : Nat) :
    placed bins k ≤ placed (bins ++ bins') k := by
  rw [placed, placed, map_append, take_append, sum_append]
  exact Nat.le_add_right _ _

theorem exists_bin {bins : List (List α)} {p : Nat} {item : α} (h : bins.flatten[p]? = some item) :
    ∃ k bin, bins[k]? = some bin ∧ item ∈ bin ∧ placed bins k ≤ p ∧ p < placed bins (k + 1) := by
  induction bins generalizing p with
  | nil => cases h
  | cons bin bins ih =>
    rw [flatten_cons] at h
    rcases Nat.lt_or_ge p bin.length with hlt | hge
    · rw [getElem?_append_left hlt] at h
      exact ⟨0, bin, rfl, mem_of_getElem? h, Nat.zero_le _, by rw [placed_cons_succ]; omega⟩
    · rw [getElem?_append_right hge] at h
      obtain ⟨k, b, hb, hmem, hle, hlt⟩ := ih h
      exact ⟨k + 1, b, hb, hmem, by rw [placed_cons_succ]; omega, by rw [placed_cons_succ]; omega⟩

theorem exists_place {bins : List (List α)} {k : Nat} {item : α} (hbin : bins[k]? = some bin)
    (hitem : item ∈ bin) : ∃ p, placed bins k ≤ p ∧ bins.flatten[p]? = some item := by
  induction bins generalizing k with
  | nil => cases hbin
  | cons b bins ih =>
    rw [flatten_cons]
    cases k with
    | zero =>
      obtain rfl : b = bin := Option.some.inj hbin
      obtain ⟨p, hp⟩ := mem_iff_getElem?.mp hitem
      exact ⟨p, Nat.zero_le _, by rw [getElem?_append_left (List.getElem?_eq_some_iff.mp hp).1, hp]⟩
    | succ k =>
      obtain ⟨p, hle, hp⟩ := ih hbin
      refine ⟨b.length + p, by rw [placed_cons_succ]; omega, ?_⟩
      rw [getElem?_append_right (Nat.le_add_right _ _), Nat.add_sub_cancel_left, hp]

/-- A run of items that an empty bin takes. -/
def Fits (size : α → Nat) (capacity : Nat) (run : List α) : Prop :=
  loadOf size run ≤ capacity ∨ run.length = 1

theorem Fits.takeFit_drop {run : List α} (h : Fits size capacity run) {d : Nat}
    (hd : d < run.length) : takeFit size capacity 0 (run.drop d) = (run.drop d, []) := by
  rcases h with hload | hone
  · have hsplit := loadOf_append size (run.take d) (run.drop d)
    rw [take_append_drop] at hsplit
    exact takeFit_of_le (by omega)
  · obtain ⟨item, rfl⟩ := length_eq_one_iff.mp hone
    rw [show d = 0 by omega, drop_zero, takeFit,
      if_neg (fun hfull => absurd hfull.2 (Nat.lt_irrefl 0)), takeFit]

/-- No packing that keeps the order is ahead of next-fit, even if that has a start of `d` items
    less. -/
theorem placed_le_nextFit {runs : List (List α)} (hfits : ∀ run ∈ runs, Fits size capacity run)
    (d k : Nat) :
    placed runs k ≤ d + placed (nextFit size capacity (runs.flatten.drop d)) k := by
  induction runs generalizing d k with
  | nil => simp [placed]
  | cons run runs ih =>
    obtain ⟨hrun, hruns⟩ := forall_mem_cons.mp hfits
    cases k with
    | zero => exact Nat.zero_le _
    | succ k =>
      rw [placed_cons_succ, flatten_cons, drop_append]
      rcases Nat.lt_or_ge d run.length with hlt | hge
      · -- the rest of the run fits into the first bin, and what else it takes is a start
        have hne : run.drop d ++ runs.flatten ≠ [] :=
          append_ne_nil_of_left_ne_nil (ne_nil_of_length_pos (by rw [length_drop]; omega)) _
        have hfit := hrun.takeFit_drop hlt
        rw [Nat.sub_eq_zero_of_le hlt.le, drop_zero, nextFit_eq_cons hne,
          takeFit_append_of_nil (by rw [hfit]), placed_cons_succ, length_append, length_drop]
        generalize hrest : takeFit size capacity _ runs.flatten = rest
        have hdrop : runs.flatten.drop rest.1.length = rest.2 := by
          rw [← takeFit_append_eq (0 + loadOf size (run.drop d)) runs.flatten, hrest, drop_left]
        have hnext := ih hruns rest.1.length k
        rw [hdrop] at hnext
        dsimp only
        omega
      · have hnext := ih hruns (d - run.length) k
        have hmono := placed_mono
          (nextFit size capacity (runs.flatten.drop (d - run.length))) (Nat.le_add_right k 1)
        rw [drop_eq_nil_of_le hge, nil_append]
        omega

/-- A bin holds an item, and no more than its capacity unless the item is alone in it. -/
def WellFilled (size : α → Nat) (capacity : Nat) (bin : List α) : Prop :=
  bin ≠ [] ∧ Fits size capacity bin

/-- The first item of the next bin had no room in this one. -/
def Closed (size : α → Nat) (capacity : Nat) (bin next : List α) : Prop :=
  ∀ item ∈ next.head?, capacity < loadOf size bin + size item

/-- The bins are well filled, and each was closed for want of room. -/
theorem nextFitFrom_wellFilled (hsize : ∀ item, 0 < size item)
    (hbin : bin = [] ∨ WellFilled size capacity bin) :
    (∀ b ∈ nextFitFrom size capacity bin (loadOf size bin) items, WellFilled size capacity b) ∧
      (nextFitFrom size capacity bin (loadOf size bin) items).IsChain (Closed size capacity) := by
  induction items generalizing bin with
  | nil =>
    rw [nextFitFrom]
    split
    · exact ⟨forall_mem_nil _, .nil⟩
    · rename_i hne
      exact ⟨forall_mem_singleton.mpr (hbin.resolve_left hne), .singleton _⟩
  | cons item items ih =>
    rw [nextFitFrom]
    split
    · rename_i hfull
      have hopen : WellFilled size capacity [item] := ⟨cons_ne_nil _ _, .inr rfl⟩
      have hrest := ih (.inr hopen)
      rw [loadOf_cons, loadOf, map_nil, sum_nil, Nat.add_zero] at hrest
      refine ⟨forall_mem_cons.mpr ⟨hbin.resolve_left ?_, hrest.1⟩, ?_⟩
      · rintro rfl
        exact absurd hfull.2 (Nat.lt_irrefl 0)
      · have hchain := hrest.2
        rw [nextFitFrom_eq_cons (by simp)] at hchain ⊢
        refine isChain_cons_cons.mpr ⟨?_, hchain⟩
        rintro _ ⟨⟩
        exact hfull.1
    · rename_i hfits
      have hload : loadOf size (bin ++ [item]) = loadOf size bin + size item := loadOf_append ..
      rw [← hload]
      refine ih (.inr ⟨append_ne_nil_of_right_ne_nil _ (cons_ne_nil _ _), ?_⟩)
      cases bin with
      | nil => exact .inr rfl
      | cons first bin =>
        have hfirst := hsize first
        rw [loadOf_cons] at hfits hload
        exact .inl (by omega)

theorem nextFit_wellFilled (hsize : ∀ item, 0 < size item) (capacity : Nat) (items : List α) :
    (∀ bin ∈ nextFit size capacity items, WellFilled size capacity bin) ∧
      (nextFit size capacity items).IsChain (Closed size capacity) :=
  nextFitFrom_wellFilled hsize (.inl rfl)

end

end Agave.Lib
