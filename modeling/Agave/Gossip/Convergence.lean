/-
  Agave.Gossip.Convergence

  Nodes that were offered the same values store the same values.

  Under each label the table holds the greatest of the values offered, in the order of their ranks.
  The greatest of a set does not depend on the order or the number of times its members come, so
  neither does the table.
-/

import Agave.Gossip.Run

namespace Agave.Gossip

variable {label : CrdsValueLabel} {v : CrdsValue}

namespace Crds

open Lib List

variable {crds crds' : Crds} {offered : List CrdsValue}

/-- Hashes tell the values of a list apart. -/
def CollisionFree (values : List CrdsValue) : Prop :=
  ∀ v ∈ values, ∀ w ∈ values, v.hash = w.hash → v = w

/-- `v` is the greatest of the values with this label. -/
def IsGreatest (values : List CrdsValue) (label : CrdsValueLabel) (v : CrdsValue) : Prop :=
  (v ∈ values ∧ v.label = label) ∧ ∀ w ∈ values, w.label = label → w.rank ≤ v.rank

/-- The table holds the greatest value of every label. -/
def HoldsGreatest (crds : Crds) (values : List CrdsValue) : Prop :=
  ∀ label v, crds.stored label = some v ↔ IsGreatest values label v

theorem IsGreatest.unique (hfree : CollisionFree offered) {w : CrdsValue}
    (hv : IsGreatest offered label v) (hw : IsGreatest offered label w) : v = w := by
  have hrank : v.rank = w.rank :=
    le_antisymm (hw.2 v hv.1.1 hv.1.2) (hv.2 w hw.1.1 hw.1.2)
  exact hfree v hv.1.1 w hw.1.1 (hash_eq_of_rank_eq hrank)

theorem exists_isGreatest (hv : v ∈ offered) (hlabel : v.label = label) :
    ∃ w, IsGreatest offered label w := by
  induction offered generalizing v with
  | nil => cases hv
  | cons u us ih =>
    by_cases hrest : ∃ w ∈ us, w.label = label
    · obtain ⟨w', hw', hlabel'⟩ := hrest
      obtain ⟨w, ⟨hw, hwl⟩, hmax⟩ := ih hw' hlabel'
      by_cases hu : u.label = label ∧ w.rank < u.rank
      · refine ⟨u, ⟨mem_cons_self, hu.1⟩, ?_⟩
        intro x hx hxl
        rcases mem_cons.mp hx with rfl | hx
        · exact le_rfl
        · exact le_trans (hmax x hx hxl) (le_of_lt hu.2)
      · refine ⟨w, ⟨mem_cons_of_mem u hw, hwl⟩, ?_⟩
        intro x hx hxl
        rcases mem_cons.mp hx with rfl | hx
        · exact le_of_not_gt fun hlt => hu ⟨hxl, hlt⟩
        · exact hmax x hx hxl
    · have hall : ∀ w ∈ us, w.label ≠ label := fun w hw hwl => hrest ⟨w, hw, hwl⟩
      have hvu : v = u := (mem_cons.mp hv).resolve_right fun h => hall v h hlabel
      subst hvu
      refine ⟨v, ⟨mem_cons_self, hlabel⟩, ?_⟩
      intro x hx hxl
      rcases mem_cons.mp hx with rfl | hx
      · exact le_rfl
      · exact absurd hxl (hall x hx)

theorem Inserted.holdsGreatest {value : CrdsValue} (h : Inserted crds value crds')
    (hfree : CollisionFree (value :: offered)) (hholds : crds.HoldsGreatest offered) :
    crds'.HoldsGreatest (value :: offered) := by
  obtain ⟨w, hw, hge, hfrom, hmax⟩ := h.winner
  -- what is stored under the value's label is the greatest one there
  have hgreatest : IsGreatest (value :: offered) value.label w := by
    refine ⟨?_, ?_⟩
    · rcases hfrom with rfl | hold
      · exact ⟨mem_cons_self, rfl⟩
      · obtain ⟨⟨hmem, hlabel⟩, -⟩ := (hholds value.label w).mp hold
        exact ⟨mem_cons_of_mem value hmem, hlabel⟩
    · intro x hx hxl
      rcases mem_cons.mp hx with rfl | hx
      · exact hge
      · obtain ⟨u, hu⟩ := exists_isGreatest hx hxl
        exact le_trans (hu.2 x hx hxl) (hmax u ((hholds value.label u).mpr hu))
  intro label v
  by_cases hlabel : label = value.label
  · subst hlabel
    rw [hw, Option.some_inj]
    constructor
    · rintro rfl
      exact hgreatest
    · exact fun hv => hgreatest.unique hfree hv
  · rw [h.other label hlabel, hholds label v]
    -- the new value has another label
    constructor
    · rintro ⟨⟨hmem, hvl⟩, hall⟩
      refine ⟨⟨mem_cons_of_mem value hmem, hvl⟩, ?_⟩
      intro x hx hxl
      rcases mem_cons.mp hx with rfl | hx
      · exact absurd hxl.symm hlabel
      · exact hall x hx hxl
    · rintro ⟨⟨hmem, hvl⟩, hall⟩
      refine ⟨⟨?_, hvl⟩, fun x hx => hall x (mem_cons_of_mem value hx)⟩
      exact (mem_cons.mp hmem).resolve_left (by
        rintro rfl
        exact hlabel hvl.symm)

/-- A value with the local time and the route of its arrival. -/
structure Offer where
  value : CrdsValue
  now : Nat
  route : GossipRoute

/-- Insertions one after the other, with no regard to their results. -/
def insertAll (crds : Crds) : List Offer → Except Panic Crds
  | [] => .ok crds
  | offer :: offers => do
    let (_, crds) ← crds.insert offer.value offer.now offer.route
    crds.insertAll offers

theorem insertAll_returns (hexact : crds.Exact) (hholds : crds.HoldsGreatest offered)
    (offers : List Offer) (hfree : CollisionFree ((offers.map Offer.value).reverse ++ offered)) :
    ∃ crds', crds.insertAll offers = .ok crds' ∧
      crds'.HoldsGreatest ((offers.map Offer.value).reverse ++ offered) := by
  induction offers generalizing crds offered with
  | nil => exact ⟨crds, rfl, hholds⟩
  | cons offer offers ih =>
    rw [map_cons, reverse_cons, append_assoc, singleton_append] at hfree ⊢
    obtain ⟨result, crds₁, hrun₁, hexact₁, hinserted⟩ :=
      insert_returns hexact offer.value offer.now offer.route
    have hfree₁ : CollisionFree (offer.value :: offered) :=
      fun a ha b hb => hfree a (mem_append_right _ ha) b (mem_append_right _ hb)
    obtain ⟨crds', hrun, hholds'⟩ := ih hexact₁ (hinserted.holdsGreatest hfree₁ hholds) hfree
    refine ⟨crds', ?_, hholds'⟩
    rw [insertAll, hrun₁, ok_bind]
    exact hrun

theorem isGreatest_congr {values values' : List CrdsValue} (h : ∀ v, v ∈ values ↔ v ∈ values') :
    IsGreatest values label v ↔ IsGreatest values' label v := by
  simp only [IsGreatest, h]

theorem holdsGreatest_default : default.HoldsGreatest [] := by
  intro label v
  exact iff_of_false (fun h => (nomatch h)) (fun h => (nomatch h.1.1))

theorem insertAll_default (offers : List Offer) (hfree : CollisionFree (offers.map Offer.value)) :
    ∃ crds, default.insertAll offers = .ok crds ∧ crds.HoldsGreatest (offers.map Offer.value) := by
  have hmem : ∀ v, v ∈ (offers.map Offer.value).reverse ++ [] ↔ v ∈ offers.map Offer.value := by
    intro v
    rw [append_nil, mem_reverse]
  obtain ⟨crds, hrun, hholds⟩ := insertAll_returns exact_default holdsGreatest_default offers
    (fun a ha b hb => hfree a ((hmem a).mp ha) b ((hmem b).mp hb))
  refine ⟨crds, hrun, ?_⟩
  intro label v
  rw [hholds label v, isGreatest_congr hmem]

/-! ## Purged values -/

/-- What was offered is accounted for, and what is stored was offered. -/
theorem Reachable.accounted (h : Reachable crds offered) :
    (∀ v ∈ offered, crds.Accounted v.label v.hash) ∧
      ∀ label w, crds.stored label = some w → w ∈ offered := by
  induction h with
  | default => exact ⟨fun v hv => (nomatch hv), fun label w hw => (nomatch hw)⟩
  | call h hpossible hrun ih =>
    obtain ⟨crds', hrun', -, hkeeps, hoffers⟩ := call_returns h.exact hpossible
    rw [hrun] at hrun'
    cases hrun'
    constructor
    · intro v hv
      rcases mem_append.mp hv with hv | hv
      · exact hoffers v hv
      · exact hkeeps.accounted _ _ (ih.1 v hv)
    · intro label w hw
      rcases hkeeps.stored label w hw with hw | hw
      · exact mem_append_left _ hw
      · exact mem_append_right _ (ih.2 label w hw)

/-- The table after insertions is a function of the set of values, and no value is
    forgotten by any calls. -/
theorem crds_converges :
    (∀ offers : List Offer, CollisionFree (offers.map Offer.value) →
      ∃ crds, default.insertAll offers = .ok crds ∧
        crds.HoldsGreatest (offers.map Offer.value) ∧
        ∀ offers' : List Offer,
          (∀ v, v ∈ offers'.map Offer.value ↔ v ∈ offers.map Offer.value) →
          ∃ crds', default.insertAll offers' = .ok crds' ∧ crds'.stored = crds.stored) ∧
    ∀ crds offered, Reachable crds offered → CollisionFree offered → ∀ v ∈ offered,
      crds.stored v.label = some v ∨ ∃ ts, (v.hash, ts) ∈ crds.purged := by
  constructor
  · intro offers hfree
    obtain ⟨crds, hrun, hholds⟩ := insertAll_default offers hfree
    refine ⟨crds, hrun, hholds, ?_⟩
    intro offers' hsame
    have hfree' : CollisionFree (offers'.map Offer.value) :=
      fun a ha b hb => hfree a ((hsame a).mp ha) b ((hsame b).mp hb)
    obtain ⟨crds', hrun', hholds'⟩ := insertAll_default offers' hfree'
    refine ⟨crds', hrun', ?_⟩
    funext label
    apply Option.ext
    intro v
    rw [hholds' label v, hholds label v, isGreatest_congr hsame]
  · intro crds offered h hfree v hv
    obtain ⟨haccounted, hoffered⟩ := h.accounted
    rcases haccounted v hv with ⟨w, hw, hhash⟩ | hpurged
    · have hwv : w = v := hfree w (hoffered _ w hw) v hv hhash
      exact .inl (hwv ▸ hw)
    · exact .inr hpurged

/-- A node before and after a restart that set its clock back. -/
def beforeRestart : CrdsValue := ⟨.contactInfo ⟨Pubkey.ofNat 1, 90, 10⟩, Hash.ofNat 8⟩

def afterRestart : CrdsValue := ⟨.contactInfo ⟨Pubkey.ofNat 1, 50, 40⟩, Hash.ofNat 7⟩

theorem crds_converges_restart :
    ∃ crds, default.insertAll [⟨afterRestart, 0, .pullResponse⟩, ⟨beforeRestart, 1, .pullRequest⟩] =
        .ok crds ∧ crds.stored (.contactInfo (Pubkey.ofNat 1)) = some afterRestart := by
  have hfree : CollisionFree [afterRestart, beforeRestart] := by
    unfold CollisionFree
    decide +kernel
  obtain ⟨crds, hrun, hholds, -⟩ :=
    crds_converges.1 [⟨afterRestart, 0, .pullResponse⟩, ⟨beforeRestart, 1, .pullRequest⟩] hfree
  refine ⟨crds, hrun, (hholds _ _).mpr ⟨⟨mem_cons_self, rfl⟩, ?_⟩⟩
  intro w hw _
  rcases mem_cons.mp hw with rfl | hw
  · exact le_rfl
  · rw [mem_singleton.mp hw]
    exact le_of_lt (rank_lt_iff.mpr (.inl (by decide)))

end Crds

end Agave.Gossip
