/-
  Agave.Gossip.Run

  The table over any sequence of calls.

  `Reachable crds offered` are the tables that calls lead to from an empty one,
  with the values that were offered to `insert` on the way.  Every call returns,
  whatever `trim` chooses, and the indices stay exact.
-/

import Agave.Gossip.Indices

namespace Agave.Gossip

open Lib List

variable {chosen keep : List Pubkey} {stakes : BTreeMap Pubkey Nat} {v : VersionedCrdsValue}

namespace Crds

variable {crds crds' : Crds} {offered : List CrdsValue}

/-! ## Values that are accounted for -/

/-- A value with this hash is stored under the label, or the hash has been purged. -/
def Accounted (crds : Crds) (label : CrdsValueLabel) (hash : Hash) : Prop :=
  (∃ w, crds.stored label = some w ∧ w.hash = hash) ∨ ∃ ts, (hash, ts) ∈ crds.purged

/-- What a call may do to the stored values: it loses none without purging its hash, and
    stores none but those offered to it. -/
structure Keeps (crds crds' : Crds) (added : List CrdsValue) : Prop where
  accounted : ∀ label hash, crds.Accounted label hash → crds'.Accounted label hash
  stored : ∀ label w, crds'.stored label = some w → w ∈ added ∨ crds.stored label = some w

theorem Keeps.refl (crds : Crds) : Keeps crds crds [] :=
  ⟨fun _ _ h => h, fun _ _ h => .inr h⟩

theorem Keeps.trans {crds₁ crds₂ : Crds} (h₁ : Keeps crds crds₁ []) (h₂ : Keeps crds₁ crds₂ []) :
    Keeps crds crds₂ [] := by
  constructor
  · exact fun label hash h => h₂.accounted label hash (h₁.accounted label hash h)
  · intro label w hw
    rcases h₂.stored label w hw with hmem | hw
    · cases hmem
    · exact h₁.stored label w hw

theorem SameRows.keeps (h : SameRows crds crds') : Keeps crds crds' [] := by
  constructor
  · intro label hash hacc
    rwa [Accounted, h.stored, h.purged]
  · intro label w hw
    rw [h.stored] at hw
    exact .inr hw

theorem Inserted.keeps {value : CrdsValue} (h : Inserted crds value crds') :
    Keeps crds crds' [value] := by
  constructor
  · rintro label hash (⟨w, hw, rfl⟩ | ⟨ts, hts⟩)
    · by_cases hlabel : label = value.label
      · subst hlabel
        exact h.accounted w (.inr hw)
      · exact .inl ⟨w, by rw [h.other label hlabel, hw], rfl⟩
    · exact .inr ⟨ts, h.purged_mono _ hts⟩
  · intro label w hw
    by_cases hlabel : label = value.label
    · subst hlabel
      obtain ⟨w', hw', -, hfrom, -⟩ := h.winner
      rw [hw'] at hw
      cases hw
      exact hfrom.imp mem_singleton.mpr id
    · rw [h.other label hlabel] at hw
      exact .inr hw

theorem Removed.keeps {key : CrdsValueLabel} (h : Removed crds key crds') :
    Keeps crds crds' [] := by
  constructor
  · rintro label hash (⟨w, hw, rfl⟩ | ⟨ts, hts⟩)
    · by_cases hlabel : label = key
      · subst hlabel
        exact .inr (h.accounted w hw)
      · exact .inl ⟨w, by rw [h.stored, if_neg hlabel, hw], rfl⟩
    · exact .inr ⟨ts, h.purged_mono _ hts⟩
  · intro label w hw
    rw [h.stored] at hw
    split at hw
    · cases hw
    · exact .inr hw

/-! ## Trimming -/

theorem removeAll_returns (h : crds.Exact) (now : Nat) (keys : List CrdsValueLabel) :
    ∃ crds', crds.removeAll now keys = .ok crds' ∧ crds'.Exact ∧ Keeps crds crds' [] := by
  induction keys generalizing crds with
  | nil => exact ⟨crds, rfl, h, .refl crds⟩
  | cons key keys ih =>
    obtain ⟨crds₁, hrun₁, hexact₁, hremoved⟩ := remove_returns h key now
    obtain ⟨crds₂, hrun₂, hexact₂, hkeeps⟩ := ih hexact₁
    refine ⟨crds₂, ?_, hexact₂, hremoved.keeps.trans hkeeps⟩
    rw [removeAll, hrun₁, ok_bind, hrun₂]

/-- Every recorded position is one of the table. -/
theorem Exact.labelAt_returns (h : crds.Exact) {pubkey : Pubkey} {positions : IndexSet Nat}
    (hget : crds.records.get? pubkey = some positions) {i : Nat} (hi : i ∈ positions.keys) :
    ∃ label, crds.labelAt i = .ok label := by
  obtain ⟨⟨j, u⟩, hmem, rfl⟩ := mem_map.mp hi
  have hset := h.indexed.records.positions pubkey
  rw [hget] at hset
  obtain ⟨r, hr, -⟩ := (hset j).mp (IndexMap.get?_eq_some_iff_mem.mpr hmem)
  obtain ⟨label, v, hv, -⟩ := rows_eq_some_iff.mp hr
  exact ⟨label, by rw [labelAt, hv]⟩

theorem Exact.labelsOf_returns (h : crds.Exact) (hchosen : chosen ⊆ crds.records.keys) :
    ∃ keys, crds.labelsOf chosen = .ok keys := by
  have hrecords : ∀ pubkey ∈ chosen, ∃ positions, crds.recordsAt pubkey = .ok positions ∧
      ∀ i ∈ positions, ∃ label, crds.labelAt i = .ok label := by
    intro pubkey hpubkey
    obtain ⟨positions, hget⟩ := BTreeMap.mem_keys_iff.mp (hchosen hpubkey)
    exact ⟨positions.keys, by rw [recordsAt, hget], fun i hi => h.labelAt_returns hget hi⟩
  obtain ⟨positions, hpositions, hall⟩ := mapM_eq_ok hrecords
  have hflat : ∀ i ∈ positions.flatten, ∃ label, crds.labelAt i = .ok label ∧ True := by
    intro i hi
    obtain ⟨l, hl, hil⟩ := mem_flatten.mp hi
    obtain ⟨pubkey, -, hlabels⟩ := exists_left_of_mem hall hl
    obtain ⟨label, hlabel⟩ := hlabels i hil
    exact ⟨label, hlabel, trivial⟩
  obtain ⟨keys, hkeys, -⟩ := mapM_eq_ok hflat
  exact ⟨keys, by rw [labelsOf, hpositions, ok_bind, hkeys]⟩

theorem ChosenToDrop.subset {size : Nat} (h : crds.ChosenToDrop size keep stakes chosen) :
    chosen ⊆ crds.records.keys := by
  obtain ⟨-, h⟩ := h
  split at h
  · exact fun k hk => (mem_filter.mp (h.1 hk)).1
  · exact h.1

theorem trim_returns (h : crds.Exact) {cap : Nat} (hchosen : crds.shouldTrim cap = true →
      crds.ChosenToDrop (crds.records.keys.length - cap) keep stakes chosen) (now : Nat) :
    ∃ n crds', crds.trim cap keep chosen now = .ok (n, crds') ∧ crds'.Exact ∧
      Keeps crds crds' [] := by
  unfold trim
  split
  · rename_i htrim
    have hsubset : chosen.filter (· ∉ keep) ⊆ crds.records.keys :=
      fun k hk => (hchosen htrim).subset (mem_filter.mp hk).1
    obtain ⟨keys, hkeys⟩ := h.labelsOf_returns hsubset
    obtain ⟨crds', hrun, hexact, hkeeps⟩ := removeAll_returns h now keys
    exact ⟨keys.length, crds', by rw [drop, hkeys, ok_bind, hrun, ok_bind], hexact, hkeeps⟩
  · exact ⟨0, crds, rfl, h, .refl crds⟩

/-! ## Timestamps -/

theorem touch_row (now : Nat) (v : VersionedCrdsValue) : (touch now v).row = v.row := by
  unfold touch
  split <;> rfl

theorem touchAll_returns (now : Nat) (indices : List Nat) (crds : Crds)
    (hindices : ∀ i ∈ indices, i < crds.table.len) :
    ∃ table, touchAll crds.table now indices = .ok table ∧
      SameRows crds { crds with table := table } := by
  induction indices generalizing crds with
  | nil => exact ⟨crds.table, rfl, .refl crds⟩
  | cons i indices ih =>
    have hlen : (crds.table.modifyIndex i (touch now)).len = crds.table.len :=
      length_modify _ _ _
    have hi := hindices i mem_cons_self
    obtain ⟨table, hrun, hsame⟩ :=
      ih { crds with table := crds.table.modifyIndex i (touch now) } (by
        intro j hj
        show j < (crds.table.modifyIndex i (touch now)).len
        rw [hlen]
        exact hindices j (mem_cons_of_mem i hj))
    refine ⟨table, ?_, (sameRows_modifyIndex crds i (touch_row now)).trans hsame⟩
    rw [touchAll, if_neg (Nat.not_le.mpr hi)]
    exact hrun

theorem updateRecordTimestamp_returns (h : crds.Exact) (pubkey : Pubkey) (now : Nat) :
    ∃ crds', crds.updateRecordTimestamp pubkey now = .ok crds' ∧ SameRows crds crds' := by
  unfold updateRecordTimestamp
  split
  · exact ⟨_, rfl, sameRows_modifyIndex crds _ (touch_row now)⟩
  · split
    · exact ⟨crds, rfl, .refl crds⟩
    · rename_i positions hget
      have hbound : ∀ i ∈ positions.keys, i < crds.table.len := by
        intro i hi
        obtain ⟨label, hlabel⟩ := h.labelAt_returns hget hi
        unfold labelAt at hlabel
        split at hlabel
        · cases hlabel
        · rename_i hentry
          exact IndexMap.getIndex?_lt hentry
      obtain ⟨table, hrun, hsame⟩ := touchAll_returns now positions.keys crds hbound
      exact ⟨_, by rw [hrun, ok_bind], hsame⟩

/-! ## Queries -/

/-- The values of the table are told apart by their ordinals. -/
theorem Exact.position_inj (h : crds.Exact) {i j : Nat} {label label' : CrdsValueLabel}
    (hi : crds.table.getIndex? i = some (label, v))
    (hj : crds.table.getIndex? j = some (label', v)) : i = j :=
  h.distinct (rows_eq_some_iff.mpr ⟨label, v, hi, rfl⟩) (rows_eq_some_iff.mpr ⟨label', v, hj, rfl⟩)
    rfl

theorem mem_values_iff :
    v ∈ crds.table.values ↔ ∃ i label, crds.table.getIndex? i = some (label, v) := by
  rw [IndexMap.values, mem_map]
  constructor
  · rintro ⟨⟨label, w⟩, hmem, rfl⟩
    obtain ⟨i, hi⟩ := mem_iff_getElem?.mp hmem
    exact ⟨i, label, hi⟩
  · rintro ⟨i, label, hi⟩
    exact ⟨(label, v), mem_iff_getElem?.mpr ⟨i, hi⟩, rfl⟩

/-- The values a pull request asks for. -/
def Matches (mask : BitVec 64) (maskBits : Nat) (v : VersionedCrdsValue) : Prop :=
  v.value.data.isDeprecated = false ∧
    SamePrefix maskBits (CrdsFilter.hashAsU64 v.value.hash) mask

theorem filterBitmask_returns (h : crds.Exact) (mask : BitVec 64) (maskBits : Nat) :
    ∃ found, crds.filterBitmask mask maskBits = .ok found ∧ found.Nodup ∧
      ∀ v, v ∈ found ↔ v ∈ crds.table.values ∧ Matches mask maskBits v := by
  obtain ⟨positions, hpositions, hnodup, hmem⟩ :=
    CrdsShards.find_returns crdsShardsBits_le h.indexed.shards mask maskBits
  have hvalues : ∀ i ∈ positions, ∃ v, crds.valueAt i = .ok v ∧
      ∃ label, crds.table.getIndex? i = some (label, v) := by
    intro i hi
    obtain ⟨hash, hrow, -⟩ := (hmem i).mp hi
    obtain ⟨r, hr, -⟩ := Option.map_eq_some_iff.mp hrow
    obtain ⟨label, v, hv, -⟩ := rows_eq_some_iff.mp hr
    exact ⟨v, by rw [valueAt, hv], label, hv⟩
  obtain ⟨values, hrun, hall⟩ := mapM_eq_ok hvalues
  refine ⟨_, by rw [filterBitmask, hpositions, ok_bind, hrun, ok_bind], ?_, ?_⟩
  · refine List.Nodup.filter _ (nodup_of_forall₂ ?_ hall hnodup)
    rintro i j v ⟨label, hi⟩ ⟨label', hj⟩
    exact h.position_inj hi hj
  · intro v
    rw [mem_filter, Matches, Bool.not_eq_true']
    constructor
    · rintro ⟨hv, hlive⟩
      obtain ⟨i, hi, label, hlabel⟩ := exists_left_of_mem hall hv
      obtain ⟨hash, hrow, hprefix⟩ := (hmem i).mp hi
      have hvalue : crds.rows i = some v.row := rows_eq_some_iff.mpr ⟨label, v, hlabel, rfl⟩
      rw [hvalue, Option.map_some, Option.some_inj] at hrow
      rw [← hrow] at hprefix
      exact ⟨mem_values_iff.mpr ⟨i, label, hlabel⟩, hlive, hprefix⟩
    · rintro ⟨hv, hlive, hprefix⟩
      obtain ⟨i, label, hlabel⟩ := mem_values_iff.mp hv
      have hvalue : crds.rows i = some v.row := rows_eq_some_iff.mpr ⟨label, v, hlabel, rfl⟩
      have hi : i ∈ positions := (hmem i).mpr ⟨v.row.hash, by rw [hvalue]; rfl, hprefix⟩
      obtain ⟨v', hv', label', hlabel'⟩ := exists_right_of_mem hall hi
      rw [hlabel] at hlabel'
      cases hlabel'
      exact ⟨hv', hlive⟩

/-! ## Runs -/

inductive Call where
  | insert (value : CrdsValue) (now : Nat) (route : GossipRoute)
  | remove (key : CrdsValueLabel) (now : Nat)
  | trim (cap : Nat) (keep : List Pubkey) (stakes : BTreeMap Pubkey Nat) (now : Nat)
      (chosen : List Pubkey)
  | updateRecordTimestamp (pubkey : Pubkey) (now : Nat)

namespace Call

/-- What `trim` chose is something it can choose. -/
def Possible (crds : Crds) : Call → Prop
  | .trim cap keep stakes _ chosen => crds.shouldTrim cap = true →
      crds.ChosenToDrop (crds.records.keys.length - cap) keep stakes chosen
  | _ => True

/-- The values offered by a call. -/
def offers : Call → List CrdsValue
  | .insert value _ _ => [value]
  | _ => []

end Call

def call (crds : Crds) : Call → Except Panic Crds
  | .insert value now route => do
    let (_, crds) ← crds.insert value now route
    .ok crds
  | .remove key now => crds.remove key now
  | .trim cap keep _ now chosen => do
    let (_, crds) ← crds.trim cap keep chosen now
    .ok crds
  | .updateRecordTimestamp pubkey now => crds.updateRecordTimestamp pubkey now

/-- Any sequence of calls on an empty table, and what they offered. -/
inductive Reachable : Crds → List CrdsValue → Prop where
  | default : Reachable default []
  | call {crds crds' : Crds} {offered : List CrdsValue} {c : Call} (h : Reachable crds offered)
      (hpossible : c.Possible crds) (hrun : crds.call c = .ok crds') :
      Reachable crds' (c.offers ++ offered)

theorem call_returns (h : crds.Exact) {c : Call} (hpossible : c.Possible crds) :
    ∃ crds', crds.call c = .ok crds' ∧ crds'.Exact ∧ Keeps crds crds' c.offers ∧
      ∀ v ∈ c.offers, crds'.Accounted v.label v.hash := by
  cases c with
  | insert value now route =>
    obtain ⟨result, crds', hrun, hexact, hinserted⟩ := insert_returns h value now route
    refine ⟨crds', by rw [call, hrun, ok_bind], hexact, hinserted.keeps, ?_⟩
    intro v hv
    rw [mem_singleton.mp hv]
    exact hinserted.accounted value (.inl rfl)
  | remove key now =>
    obtain ⟨crds', hrun, hexact, hremoved⟩ := remove_returns h key now
    exact ⟨crds', hrun, hexact, hremoved.keeps, fun v hv => (nomatch hv)⟩
  | trim cap keep stakes now chosen =>
    obtain ⟨n, crds', hrun, hexact, hkeeps⟩ := trim_returns h hpossible now
    exact ⟨crds', by rw [call, hrun, ok_bind], hexact, hkeeps, fun v hv => (nomatch hv)⟩
  | updateRecordTimestamp pubkey now =>
    obtain ⟨crds', hrun, hsame⟩ := updateRecordTimestamp_returns h pubkey now
    exact ⟨crds', hrun, hsame.exact h, hsame.keeps, fun v hv => (nomatch hv)⟩

theorem Reachable.exact (h : Reachable crds offered) : crds.Exact := by
  induction h with
  | default => exact exact_default
  | call h hpossible hrun ih =>
    obtain ⟨crds', hrun', hexact, -⟩ := call_returns ih hpossible
    rw [hrun] at hrun'
    cases hrun'
    exact hexact

/-- After any calls the indices are exact, the next call returns, and a pull request is
    answered with exactly the values it asks for. -/
theorem crds_indices_exact (h : Reachable crds offered) :
    crds.Exact ∧ (∀ c : Call, c.Possible crds → ∃ crds', crds.call c = .ok crds') ∧
      ∀ mask maskBits, ∃ found, crds.filterBitmask mask maskBits = .ok found ∧ found.Nodup ∧
        ∀ v, v ∈ found ↔ v ∈ crds.table.values ∧ Matches mask maskBits v := by
  refine ⟨h.exact, ?_, filterBitmask_returns h.exact⟩
  intro c hpossible
  obtain ⟨crds', hrun, -⟩ := call_returns h.exact hpossible
  exact ⟨crds', hrun⟩

theorem reachable_calls {calls : List Call} (h : Reachable crds offered)
    (hpossible : ∀ c ∈ calls, ∀ crds, c.Possible crds) (hrun : calls.foldlM call crds = .ok crds') :
    ∃ offered', Reachable crds' offered' := by
  induction calls generalizing crds offered with
  | nil =>
    cases hrun
    exact ⟨offered, h⟩
  | cons c calls ih =>
    obtain ⟨crds₁, hcall, hrun⟩ := bind_eq_ok_iff.mp hrun
    obtain ⟨hfirst, hpossible⟩ := forall_mem_cons.mp hpossible
    exact ih (.call h (hfirst crds) hcall) hpossible hrun

/-- A vote of node 1, whose hash starts with the bits of `bits`. -/
def voteAt (wallclock bits : Nat) : CrdsValue :=
  ⟨.vote 0 ⟨Pubkey.ofNat 1, wallclock⟩, Hash.ofNat (bits * 2 ^ 196)⟩

/-- Node 2 publishes its contact-info and node 1 a vote, and then a newer one, which overrides it.
    The contact-info is removed, and the vote moves to its position. -/
def overrideThenMove : List Call :=
  [.insert ⟨.contactInfo ⟨Pubkey.ofNat 2, 5, 0⟩, Hash.ofNat 3⟩ 0 .localMessage,
    .insert (voteAt 5 9) 0 .localMessage, .insert (voteAt 6 11) 1 .localMessage,
    .remove (.contactInfo (Pubkey.ofNat 2)) 2]

theorem crds_indices_exact_vote :
    ∃ crds found, overrideThenMove.foldlM call default = .ok crds ∧ crds.Exact ∧
      crds.votes.entries = [(2, 0)] ∧ crds.filterBitmask (11 <<< 60) 4 = .ok found ∧
      found.map VersionedCrdsValue.value = [voteAt 6 11] ∧ found.Nodup := by
  have hvalues : (overrideThenMove.foldlM call default).toOption.map
      (fun crds => (crds.votes.entries, (crds.filterBitmask (11 <<< 60) 4).toOption.map
        (List.map VersionedCrdsValue.value))) = some ([(2, 0)], some [voteAt 6 11]) := by
    decide +kernel
  obtain ⟨crds, hrun, hvalues⟩ := exists_ok_of_map hvalues
  obtain ⟨hvotes, hfilter⟩ := Prod.ext_iff.mp hvalues
  have hpossible : ∀ c ∈ overrideThenMove, ∀ crds, c.Possible crds := by
    simp [overrideThenMove, Call.Possible]
  obtain ⟨offered, hreachable⟩ := reachable_calls .default hpossible hrun
  obtain ⟨hexact, -, hfound⟩ := crds_indices_exact hreachable
  obtain ⟨found, hrun', hnodup, -⟩ := hfound (11 <<< 60) 4
  refine ⟨crds, found, hrun, hexact, hvotes, hrun', ?_, hnodup⟩
  rw [hrun'] at hfilter
  exact Option.some.inj hfilter

end Crds

end Agave.Gossip
