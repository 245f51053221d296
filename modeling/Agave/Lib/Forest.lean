/-
  Agave.Lib.Forest

  Forests given by a function from nodes to children, and the depth first walk of one.

  `Forest children level` says that levels grow from parent to child and that no node has two
  parents; it is all a walk with a stack needs in order to visit every node below its start exactly
  once.  `walk_root` is that statement: with as much fuel as there are nodes, the walk returns the
  nodes it can reach without entering a skipped one, each once.
-/

import Mathlib.Data.Finset.Card

namespace Agave.Lib

open List

variable {κ : Type _}

/-- Levels grow from parent to child, and no node is a child twice. -/
structure Forest (children : κ → List κ) (level : κ → Nat) : Prop where
  level_lt : ∀ {a c}, c ∈ children a → level a < level c
  parent_unique : ∀ {a b c}, c ∈ children a → c ∈ children b → a = b
  nodup : ∀ a, (children a).Nodup

variable {pending : List κ} {nodes : Finset κ}

namespace Forest

variable (children : κ → List κ)

/-- `b` is `a` or one of its descendants. -/
def Below : κ → κ → Prop := Relation.ReflTransGen (fun a b => b ∈ children a)

/-- `b` is reached from `a` through nodes that are not skipped. -/
def Reached (skip : κ → Bool) (a b : κ) : Prop :=
  skip a = false ∧ Relation.ReflTransGen (fun x y => y ∈ children x ∧ skip y = false) a b

/-- The depth first walk: the stack is a list with its top first, the children of a node are pushed
    in order, and the nodes are returned in the order in which they are popped. -/
def walk (skip : κ → Bool) : Nat → List κ → Option (List κ)
  | _, [] => some []
  | 0, _ :: _ => none
  | fuel + 1, k :: pending =>
    if skip k then walk skip fuel pending
    else (walk skip fuel ((children k).reverse ++ pending)).map (fun visited => k :: visited)

variable {children} {skip : κ → Bool} {level : κ → Nat} {a b c : κ}

/-! ## Descendants -/

theorem Below.head (hc : c ∈ children a) (h : Below children c b) : Below children a b :=
  Relation.ReflTransGen.head hc h

theorem Reached.below (h : Reached children skip a b) : Below children a b := by
  obtain ⟨-, hab⟩ := h
  induction hab with
  | refl => exact Relation.ReflTransGen.refl
  | tail _ hstep ih => exact ih.tail hstep.1

/-- The last step of a walk. -/
theorem Reached.parent (h : Reached children skip a b) :
    b = a ∨ ∃ p, Reached children skip a p ∧ b ∈ children p := by
  obtain ⟨ha, hab⟩ := h
  cases hab with
  | refl => exact Or.inl rfl
  | tail hp hstep => exact Or.inr ⟨_, ⟨ha, hp⟩, hstep.1⟩

theorem reached_iff :
    Reached children skip a b ↔
      skip a = false ∧ (b = a ∨ ∃ c ∈ children a, Reached children skip c b) := by
  unfold Reached
  rw [Relation.ReflTransGen.cases_head_iff]
  constructor
  · rintro ⟨ha, rfl | ⟨c, ⟨hc, hskip⟩, hcb⟩⟩
    · exact ⟨ha, Or.inl rfl⟩
    · exact ⟨ha, Or.inr ⟨c, hc, hskip, hcb⟩⟩
  · rintro ⟨ha, rfl | ⟨c, hc, hskip, hcb⟩⟩
    · exact ⟨ha, Or.inl rfl⟩
    · exact ⟨ha, Or.inr ⟨c, ⟨hc, hskip⟩, hcb⟩⟩

section

variable (hf : Forest children level) {fuel : Nat}
include hf

theorem level_le (h : Below children a b) : level a ≤ level b := by
  induction h with
  | refl => exact le_refl _
  | tail _ hstep ih => exact le_trans ih (le_of_lt (hf.level_lt hstep))

theorem below_child (hc : c ∈ children b) (h : Below children a c) :
    a = c ∨ Below children a b := by
  cases h with
  | refl => exact Or.inl rfl
  | tail hp hstep =>
    rw [hf.parent_unique hc hstep]
    exact Or.inr hp

theorem not_below_parent (hc : c ∈ children a) : ¬ Below children c a := by
  intro h
  have := hf.level_le h
  have := hf.level_lt hc
  omega

theorem not_below_sibling (ha : a ∈ children c) (hb : b ∈ children c) (hne : a ≠ b) :
    ¬ Below children a b := by
  intro h
  rcases hf.below_child hb h with heq | h
  · exact hne heq
  · exact hf.not_below_parent ha h

/-! ## The walk -/

/-- No node of the stack is below another one. -/
def Apart (children : κ → List κ) (a b : κ) : Prop :=
  ¬ Below children a b ∧ ¬ Below children b a

/-- Replacing the top of the stack by its children keeps the stack apart. -/
theorem apart_expand (h : (a :: pending).Pairwise (Apart children)) :
    ((children a).reverse ++ pending).Pairwise (Apart children) := by
  obtain ⟨htop, hrest⟩ := pairwise_cons.mp h
  rw [pairwise_append]
  refine ⟨?_, hrest, ?_⟩
  · rw [pairwise_reverse]
    apply (hf.nodup a).imp_of_mem
    intro b c hb hc hne
    exact ⟨hf.not_below_sibling hc hb (Ne.symm hne), hf.not_below_sibling hb hc hne⟩
  · intro c hc b hb
    rw [mem_reverse] at hc
    obtain ⟨hab, hba⟩ := htop b hb
    refine ⟨fun hcb => hab (hcb.head hc), fun hbc => ?_⟩
    rcases hf.below_child hc hbc with rfl | hbelow
    · exact hab (Relation.ReflTransGen.single hc)
    · exact hba hbelow

/-- What is below the new stack was below the old one, and is not its top. -/
theorem below_expand (h : (a :: pending).Pairwise (Apart children)) {x : κ}
    (hx : ∃ p ∈ (children a).reverse ++ pending, Below children p x) :
    x ≠ a ∧ ∃ p ∈ a :: pending, Below children p x := by
  obtain ⟨p, hp, hpx⟩ := hx
  rcases mem_append.mp hp with hp | hp
  · rw [mem_reverse] at hp
    refine ⟨?_, a, mem_cons_self, hpx.head hp⟩
    rintro rfl
    exact hf.not_below_parent hp hpx
  · refine ⟨?_, p, mem_cons_of_mem _ hp, hpx⟩
    intro hxa
    rw [hxa] at hpx
    exact ((pairwise_cons.mp h).1 p hp).2 hpx

open Classical in
/-- The nodes below a stack. -/
noncomputable def remaining (children : κ → List κ) (nodes : Finset κ) (pending : List κ) :
    Finset κ :=
  nodes.filter (fun x => ∃ p ∈ pending, Below children p x)

omit hf in
theorem mem_remaining {x : κ} :
    x ∈ remaining children nodes pending ↔ x ∈ nodes ∧ ∃ p ∈ pending, Below children p x := by
  classical
  exact Finset.mem_filter

omit hf in
theorem top_mem_remaining (ha : a ∈ nodes) : a ∈ remaining children nodes (a :: pending) :=
  mem_remaining.mpr ⟨ha, a, mem_cons_self, Relation.ReflTransGen.refl⟩

/-- Popping the top leaves less below the stack, whether or not its children are pushed. -/
theorem card_remaining_lt {next : List κ} (h : (a :: pending).Pairwise (Apart children))
    (ha : a ∈ nodes) (hnext : next.Sublist ((children a).reverse ++ pending)) :
    (remaining children nodes next).card < (remaining children nodes (a :: pending)).card := by
  have hsub : ∀ {x}, x ∈ remaining children nodes next →
      x ≠ a ∧ x ∈ remaining children nodes (a :: pending) := by
    intro x hx
    obtain ⟨hx, p, hp, hpx⟩ := mem_remaining.mp hx
    obtain ⟨hne, hbelow⟩ := hf.below_expand h ⟨p, hnext.subset hp, hpx⟩
    exact ⟨hne, mem_remaining.mpr ⟨hx, hbelow⟩⟩
  apply Finset.card_lt_card
  rw [Finset.ssubset_iff_of_subset (fun x hx => (hsub hx).2)]
  exact ⟨a, top_mem_remaining ha, fun hmem => (hsub hmem).1 rfl⟩

/-- The walk from a stack of nodes that are apart.  The induction is on the
    fuel, which bounds the number of nodes below the stack. -/
theorem walk_eq_some (hclosed : ∀ a ∈ nodes, ∀ c ∈ children a, c ∈ nodes)
    (hapart : pending.Pairwise (Apart children)) (hmem : ∀ p ∈ pending, p ∈ nodes)
    (hfuel : (remaining children nodes pending).card ≤ fuel) :
    ∃ visited, walk children skip fuel pending = some visited ∧ visited.Nodup ∧
      ∀ x, x ∈ visited ↔ ∃ p ∈ pending, Reached children skip p x := by
  induction fuel generalizing pending with
  | zero =>
    cases pending with
    | nil => exact ⟨[], rfl, nodup_nil, by simp⟩
    | cons a pending =>
      have hpos : 0 < (remaining children nodes (a :: pending)).card :=
        Finset.card_pos.mpr ⟨a, top_mem_remaining (hmem a mem_cons_self)⟩
      omega
  | succ fuel ih =>
    cases pending with
    | nil => exact ⟨[], rfl, nodup_nil, by simp⟩
    | cons a pending =>
      have ha := hmem a mem_cons_self
      have hpending := fun p hp => hmem p (mem_cons_of_mem a hp)
      have hless := fun {next : List κ}
          (hnext : next.Sublist ((children a).reverse ++ pending)) =>
        Nat.le_of_lt_succ (lt_of_lt_of_le (hf.card_remaining_lt hapart ha hnext) hfuel)
      simp only [walk]
      by_cases hskip : skip a = true
      · obtain ⟨visited, hwalk, hnodup, hvisited⟩ :=
          ih (pairwise_cons.mp hapart).2 hpending (hless (sublist_append_right _ _))
        rw [if_pos hskip]
        refine ⟨visited, hwalk, hnodup, fun x => ?_⟩
        have hno : ¬ Reached children skip a x := by
          rw [reached_iff, hskip]
          simp
        simp [hvisited, hno]
      · have hnext : ∀ p ∈ (children a).reverse ++ pending, p ∈ nodes := by
          intro p hp
          rcases mem_append.mp hp with hp | hp
          · exact hclosed a ha p (mem_reverse.mp hp)
          · exact hpending p hp
        obtain ⟨visited, hwalk, hnodup, hvisited⟩ :=
          ih (hf.apart_expand hapart) hnext (hless (List.Sublist.refl _))
        rw [if_neg hskip]
        refine ⟨a :: visited, by rw [hwalk]; rfl, nodup_cons.mpr ⟨?_, hnodup⟩, ?_⟩
        · intro hav
          obtain ⟨p, hp, hpa⟩ := (hvisited a).mp hav
          exact (hf.below_expand hapart ⟨p, hp, hpa.below⟩).1 rfl
        · intro x
          have htop : Reached children skip a x ↔
              x = a ∨ ∃ c ∈ children a, Reached children skip c x := by
            rw [reached_iff, Bool.eq_false_of_not_eq_true hskip]
            simp
          simp only [mem_cons, hvisited, mem_append, mem_reverse, or_and_right,
            exists_or, exists_eq_left, htop, or_assoc]

/-- The walk from one node visits what can be reached from it, each node once. -/
theorem walk_root (hclosed : ∀ a ∈ nodes, ∀ c ∈ children a, c ∈ nodes)
    (hfuel : nodes.card ≤ fuel) (ha : a ∈ nodes) (skip : κ → Bool) :
    ∃ visited, walk children skip fuel [a] = some visited ∧ visited.Nodup ∧
      ∀ x, x ∈ visited ↔ Reached children skip a x := by
  obtain ⟨visited, hwalk, hnodup, hvisited⟩ := hf.walk_eq_some hclosed
    (pairwise_singleton _ a) (by simpa using ha)
    (le_trans (Finset.card_le_card (fun x hx => (mem_remaining.mp hx).1)) hfuel)
  exact ⟨visited, hwalk, hnodup, fun x => by simp [hvisited]⟩

end

end Forest

end Agave.Lib
