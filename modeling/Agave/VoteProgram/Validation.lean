/-
  Agave.VoteProgram.Validation

  What the checks of a vote accept, exactly.

  `check_and_filter_proposed_vote_state` and `check_slots_are_valid` walk the slots of a vote,
  oldest first, along the slot hashes, which are stored newest first.  `Cursor.Sound` is what the
  first loop keeps: whatever it has passed is in order, and is in the slot hashes or older than all
  of them.  The second loop is the relation `Finds` on what is left of both lists, a greedy search
  for a subsequence.  The last section is about `process_new_vote_state`, which awards credits
  before it looks at the timestamp.
-/

import Agave.VoteProgram.Credits

namespace Agave.VoteProgram

open Agave.Lib List

/-- The slot hashes, newest first. -/
def Descending (slotHashes : List SlotHash) : Prop := slotHashes.Pairwise fun a b => b.1 < a.1

variable {voteState s : VoteState} {lockouts : List Lockout} {slotHashes : List SlotHash}
  {oldest entry : SlotHash} {slot : Nat} {root : Option Nat} {c : Cursor} {last : Lockout}
  {hash : Hash} (keep : Lockout → Bool)

theorem Descending.last_le (h : Descending slotHashes)
    {last : SlotHash} (hlast : slotHashes.getLast? = some last) (hentry : entry ∈ slotHashes) :
    last.1 ≤ entry.1 := by
  obtain ⟨newer, rfl⟩ := getLast?_eq_some_iff.mp hlast
  rcases mem_append.mp hentry with hnewer | hsame
  · exact Nat.le_of_lt ((pairwise_append.mp h).2.2 entry hnewer last mem_cons_self)
  · rw [mem_singleton.mp hsame]

theorem Descending.hash_eq (h : Descending slotHashes) {a b : Hash}
    (ha : (slot, a) ∈ slotHashes) (hb : (slot, b) ∈ slotHashes) : a = b := by
  have hnodup : (slotHashes.map Prod.fst).Nodup :=
    pairwise_map.mpr (h.imp fun hlt heq => by omega)
  exact (Prod.mk.inj (inj_on_of_nodup_map hnodup ha hb rfl)).2

/-! ## A proposed tower -/

/-- A proposed slot is kept unless it is older than the slot hashes and was not voted on. -/
def isKept (voteState : VoteState) (earliest : Nat) (lockout : Lockout) : Bool :=
  decide (earliest ≤ lockout.slot) || voteState.containsSlot lockout.slot

/-- The indices, from `i` on, of the lockouts that are not kept. -/
def droppedIndices (keep : Lockout → Bool) : Nat → List Lockout → List Nat
  | _, [] => []
  | i, lockout :: lockouts =>
    if keep lockout then droppedIndices keep (i + 1) lockouts
    else i :: droppedIndices keep (i + 1) lockouts

theorem le_of_mem_droppedIndices {keep : Lockout → Bool} {i j : Nat}
    (h : j ∈ droppedIndices keep i lockouts) : i ≤ j := by
  induction lockouts generalizing i with
  | nil => cases h
  | cons lockout lockouts ih =>
    rw [droppedIndices] at h
    split at h
    · exact Nat.le_of_succ_le (ih h)
    · rcases mem_cons.mp h with rfl | h
      · exact Nat.le_refl _
      · exact Nat.le_of_succ_le (ih h)

theorem droppedIndices_concat (i : Nat) (lockouts : List Lockout) (last : Lockout) :
    droppedIndices keep i (lockouts ++ [last]) =
      droppedIndices keep i lockouts ++ if keep last then [] else [i + lockouts.length] := by
  induction lockouts generalizing i with
  | nil => simp [droppedIndices]
  | cons lockout lockouts ih =>
    rw [cons_append, droppedIndices, droppedIndices, ih, length_cons,
      Nat.add_right_comm, Nat.add_assoc]
    split <;> rfl

theorem retainLockouts_droppedIndices (i : Nat) (lockouts : List Lockout) :
    retainLockouts i (droppedIndices keep i lockouts) lockouts = lockouts.filter keep := by
  induction lockouts generalizing i with
  | nil => rfl
  | cons lockout lockouts ih =>
    rw [droppedIndices, filter_cons]
    split
    · -- no index at hand is this one
      have hrest := ih (i + 1)
      have hle := fun j => @le_of_mem_droppedIndices lockouts keep (i + 1) j
      generalize droppedIndices keep (i + 1) lockouts = dropped at hrest hle
      cases dropped with
      | nil => rw [retainLockouts, hrest]
      | cons j rest =>
        have hne : i ≠ j := Nat.ne_of_lt (hle j mem_cons_self)
        rw [retainLockouts, if_neg hne, hrest]
    · rw [retainLockouts, if_pos rfl, ih]

section Proposal

variable {earliest : Nat}

/-- What the loop keeps, where `root` is the proposed root after it was overwritten. -/
structure Cursor.Sound (voteState : VoteState) (lockouts : List Lockout)
    (slotHashes : List SlotHash) (earliest : Nat) (root : Option Nat) (c : Cursor) : Prop where
  index_le : c.proposedLockoutsIndex ≤ lockouts.length
  hashes_le : c.slotHashesIndex ≤ slotHashes.length
  unchecked : c.rootToCheck ≠ none → c.rootToCheck = root ∧ c.proposedLockoutsIndex = 0
  checked : c.rootToCheck = none → ∀ r ∈ root, earliest ≤ r → ∃ hash, (r, hash) ∈ slotHashes
  ordered : ((lockouts.take c.proposedLockoutsIndex).map Lockout.slot).IsChain (· < ·)
  passed : ∀ lockout ∈ lockouts.take c.proposedLockoutsIndex,
    lockout.slot < earliest ∨ ∃ hash, (lockout.slot, hash) ∈ slotHashes
  filtered : c.indicesToFilter =
    droppedIndices (isKept voteState earliest) 0 (lockouts.take c.proposedLockoutsIndex)
  /-- The slot that was passed last is old, or is under the cursor if it was the last one. -/
  last : ∀ lockout, 0 < c.proposedLockoutsIndex →
    lockouts[c.proposedLockoutsIndex - 1]? = some lockout →
      lockout.slot < earliest ∨ c.proposedLockoutsIndex < lockouts.length ∨
        ∃ hash, slotHashes[c.slotHashesIndex]? = some (lockout.slot, hash)

theorem Cursor.Sound.pass (h : c.Sound voteState lockouts slotHashes earliest root)
    {lockout : Lockout} {hashesIndex : Nat} (hroot : c.rootToCheck = none)
    (hlockout : lockouts[c.proposedLockoutsIndex]? = some lockout)
    (hordered : ¬ c.NotOrdered lockouts lockout.slot) (hhashes : hashesIndex ≤ slotHashes.length)
    (hpassed : lockout.slot < earliest ∨
      ∃ hash, slotHashes[hashesIndex]? = some (lockout.slot, hash)) :
    Cursor.Sound voteState lockouts slotHashes earliest root
      { c with
        proposedLockoutsIndex := c.proposedLockoutsIndex + 1
        slotHashesIndex := hashesIndex
        indicesToFilter :=
          if isKept voteState earliest lockout then c.indicesToFilter
          else c.indicesToFilter ++ [c.proposedLockoutsIndex] } := by
  have hlt : c.proposedLockoutsIndex < lockouts.length := (List.getElem?_eq_some_iff.mp hlockout).1
  have htake : lockouts.take (c.proposedLockoutsIndex + 1) =
      lockouts.take c.proposedLockoutsIndex ++ [lockout] := by
    rw [take_add_one, hlockout]
    rfl
  refine ⟨hlt, hhashes, fun hne => absurd hroot hne, fun _ => h.checked hroot, ?_, ?_, ?_, ?_⟩
  · dsimp only
    rw [htake, map_append]
    refine isChain_append.mpr ⟨h.ordered, .singleton _, ?_⟩
    intro previous hprevious slot hslot
    obtain rfl : lockout.slot = slot := Option.some.inj hslot
    -- the vote before this one was compared with it
    rw [getLast?_map, getLast?_take] at hprevious
    by_cases hzero : c.proposedLockoutsIndex = 0
    · rw [if_pos hzero] at hprevious
      cases hprevious
    · have hsome := getElem?_eq_getElem
        (show c.proposedLockoutsIndex - 1 < lockouts.length by omega)
      rw [if_neg hzero, hsome] at hprevious
      cases hprevious
      refine Nat.lt_of_not_le fun hle => hordered ⟨?_, Nat.pos_of_ne_zero hzero, _, hsome, hle⟩
      rw [hroot]
      rfl
  · dsimp only
    rw [htake]
    intro old hold
    rcases mem_append.mp hold with hold | hold
    · exact h.passed old hold
    · rw [mem_singleton.mp hold]
      exact hpassed.imp_right fun ⟨hash, hhash⟩ => ⟨hash, mem_of_getElem? hhash⟩
  · dsimp only
    rw [htake, droppedIndices_concat, ← h.filtered, length_take, Nat.zero_add,
      Nat.min_eq_left (Nat.le_of_lt hlt)]
    split
    · rw [append_nil]
    · rfl
  · intro last _ hlast
    rw [Nat.add_sub_cancel, hlockout] at hlast
    cases hlast
    exact hpassed.imp_right Or.inr

theorem Cursor.Sound.passRoot (h : c.Sound voteState lockouts slotHashes earliest root) {r : Nat}
    (hroot : c.rootToCheck = some r) (hpassed : earliest ≤ r → ∃ hash, (r, hash) ∈ slotHashes) :
    Cursor.Sound voteState lockouts slotHashes earliest root { c with rootToCheck := none } := by
  obtain ⟨hsame, -⟩ := h.unchecked (hroot ▸ Option.some_ne_none r)
  refine { h with unchecked := fun hne => absurd rfl hne, checked := fun _ r' hr' => ?_ }
  rw [← hsame, hroot] at hr'
  cases hr'
  exact hpassed

variable (holdest : slotHashes.getLast? = some oldest)
  (h : c.Sound voteState lockouts slotHashes oldest.1 root)
include holdest h

theorem Cursor.Sound.moves {c' : Cursor} (hdesc : Descending slotHashes) (hc : c.Continues lockouts)
    (hmoves : Cursor.Moves voteState lockouts slotHashes oldest.1 c c') :
    c'.Sound voteState lockouts slotHashes oldest.1 root := by
  cases hmoves with
  | @rootTooOld r hroot _ hold => exact h.passRoot hroot (fun hle => by omega)
  | @rootFound r hash hroot hhash => exact h.passRoot hroot (fun _ => ⟨hash, mem_of_getElem? hhash⟩)
  | @voteTooOld lockout hroot hlockout hordered hfirst hold =>
    have hpass := h.pass hroot hlockout hordered h.hashes_le (.inl hold)
    have hkept : isKept voteState oldest.1 lockout = voteState.containsSlot lockout.slot := by
      rw [isKept, decide_eq_false (Nat.not_le.mpr hold), Bool.false_or]
    rw [hkept] at hpass
    exact hpass
  | @voteFound lockout hash hroot hlockout hordered hhash =>
    have hle := hdesc.last_le holdest (mem_of_getElem? hhash)
    have hpass := h.pass hroot hlockout hordered
      (Nat.le_trans (Nat.sub_le _ 1) h.hashes_le) (.inr ⟨hash, hhash⟩)
    have hkept : isKept voteState oldest.1 lockout = true := by
      rw [isKept, decide_eq_true hle, Bool.true_or]
    rw [hkept, if_pos rfl] at hpass
    exact hpass
  | newer _ _ _ =>
    exact { h with
      hashes_le := Nat.le_trans (Nat.sub_le _ 1) h.hashes_le
      last := fun lockout hpos hlast =>
        (h.last lockout hpos hlast).imp_right fun _ => .inl hc.1 }

/-- The errors of the loop: no index is out of bounds and no assertion fails. -/
def ProposalError (e : Stop) : Prop := ∃ err, e = .err err ∧ err ≠ .assertionFailed

theorem Cursor.Sound.step_error {e : Stop} (hc : c.Continues lockouts)
    (hstep : c.step voteState lockouts slotHashes oldest.1 = .error e) : ProposalError e := by
  have hle := h.hashes_le
  have hlockout := getElem?_eq_getElem hc.1
  have hhash := getElem?_eq_getElem
    (show c.slotHashesIndex - 1 < slotHashes.length by have := hc.2; omega)
  simp only [Cursor.step, hlockout, hhash] at hstep
  split at hstep
  · cases hstep
    exact ⟨_, rfl, by decide⟩
  · split at hstep
    · rename_i hcmp
      split at hstep
      · -- the slot is below the oldest slot hash, which is the one under the cursor
        rename_i hfirst
        have hlast : slotHashes[c.slotHashesIndex - 1]? = some oldest := by
          rw [hfirst, ← getLast?_eq_getElem?, holdest]
        rw [hhash, Option.some_inj] at hlast
        rw [hlast] at hcmp
        have hold := Nat.compare_eq_lt.mp hcmp
        unfold Cursor.stepTooOld at hstep
        rw [if_neg (Nat.not_le.mpr hold)] at hstep
        cases hroot : c.rootToCheck with
        | none =>
          rw [hroot] at hstep
          cases hstep
        | some r =>
          rw [hroot, Option.getD_some] at hold
          rw [hroot] at hstep
          dsimp only at hstep
          rw [if_neg (Nat.not_le.mpr hold)] at hstep
          cases hstep
      · split at hstep
        · cases hstep
          exact ⟨_, rfl, by decide⟩
        · cases hstep
          exact ⟨_, rfl, by decide⟩
    · cases hstep
    · cases hstep

theorem Cursor.Sound.run (hdesc : Descending slotHashes) :
    Returns ProposalError (Cursor.Sound voteState lockouts slotHashes oldest.1 root)
      (c.run voteState lockouts slotHashes oldest.1) := by
  fun_induction Cursor.run voteState lockouts slotHashes oldest.1 c with
  | case1 c hc next hstep ih =>
    exact ih (h.moves holdest hdesc hc (Cursor.step_moves _ _ _ _ hstep))
  | case2 c hc e hstep => exact h.step_error holdest hc hstep
  | case3 c hc => exact h

end Proposal

/-- What a proposal that passes is left with. -/
structure ProposalKept (voteState : VoteState) (lockouts : List Lockout) (hash : Hash)
    (slotHashes : List SlotHash) (retained : List Lockout) (root : Option Nat) (earliest : Nat) :
    Prop where
  oldest : slotHashes.getLast?.map Prod.fst = some earliest
  increasing : lockouts.Pairwise fun a b => a.slot < b.slot
  retained_eq : retained = lockouts.filter (isKept voteState earliest)
  known : ∀ l ∈ retained, (∃ h, (l.slot, h) ∈ slotHashes) ∨
    l.slot < earliest ∧ voteState.containsSlot l.slot = true
  last : ∃ l, lockouts.getLast? = some l ∧ retained.getLast? = some l ∧
    (l.slot, hash) ∈ slotHashes ∧ ∀ slot ∈ voteState.lastVotedSlot, slot < l.slot
  root_known : ∀ r ∈ root, earliest ≤ r → ∃ h, (r, h) ∈ slotHashes

/-- After the loop and the checks that follow it. -/
theorem ProposalKept.of_sound
    (hlast : lockouts.getLast? = some last) (holdest : slotHashes.getLast? = some oldest)
    (hnew : ∀ slot ∈ voteState.lastVotedSlot, slot < last.slot) (hrecent : oldest.1 ≤ last.slot)
    (h : c.Sound voteState lockouts slotHashes oldest.1 root)
    (hpassed : c.proposedLockoutsIndex = lockouts.length) (hhash : (last.slot, hash) ∈ slotHashes) :
    ProposalKept voteState lockouts hash slotHashes
      (retainLockouts 0 c.indicesToFilter lockouts) root oldest.1 := by
  have htake : lockouts.take c.proposedLockoutsIndex = lockouts := by
    rw [hpassed, take_length]
  have hretained : retainLockouts 0 c.indicesToFilter lockouts =
      lockouts.filter (isKept voteState oldest.1) := by
    rw [h.filtered, htake, retainLockouts_droppedIndices]
  obtain ⟨older, hlockouts⟩ := getLast?_eq_some_iff.mp hlast
  refine ⟨by rw [holdest]; rfl, ?_, hretained, ?_, ?_, ?_⟩
  · have hchain := h.ordered
    rw [htake, isChain_iff_pairwise, pairwise_map] at hchain
    exact hchain
  · intro lockout hlockout
    rw [hretained] at hlockout
    obtain ⟨hmem, hkept⟩ := mem_filter.mp hlockout
    have hpassed := h.passed lockout (by rw [htake]; exact hmem)
    rcases Bool.or_eq_true_iff.mp hkept with hle | hcontains
    · exact .inl (hpassed.resolve_left (Nat.not_lt.mpr (of_decide_eq_true hle)))
    · exact hpassed.symm.imp_right fun hold => ⟨hold, hcontains⟩
  · refine ⟨last, hlast, ?_, hhash, hnew⟩
    have hkept : isKept voteState oldest.1 last = true := by
      rw [isKept, decide_eq_true hrecent, Bool.true_or]
    rw [hretained, hlockouts, filter_append, filter_cons_of_pos hkept]
    exact getLast?_concat
  · refine h.checked ?_
    -- a root that is still to be checked would have kept the loop at the first vote
    by_contra hne
    have hzero := (h.unchecked hne).2
    rw [hpassed, hlockouts, length_append] at hzero
    cases hzero

/-- The checks after the loop cannot panic. -/
theorem Cursor.Sound.checkLast
    (hlast : lockouts.getLast? = some last) (hrecent : oldest.1 ≤ last.slot)
    (h : c.Sound voteState lockouts slotHashes oldest.1 root) :
    Returns ProposalError
      (fun _ => c.proposedLockoutsIndex = lockouts.length ∧ (last.slot, hash) ∈ slotHashes)
      (c.checkLast lockouts slotHashes last.slot hash) := by
  unfold Cursor.checkLast
  by_cases hpassed : c.proposedLockoutsIndex = lockouts.length
  · rw [if_neg (not_not_intro hpassed)]
    obtain ⟨older, rfl⟩ := getLast?_eq_some_iff.mp hlast
    have hpos : 0 < c.proposedLockoutsIndex := by
      rw [hpassed, length_append]
      exact Nat.succ_pos _
    have hget : (older ++ [last])[c.proposedLockoutsIndex - 1]? = some last := by
      rw [hpassed, length_append]
      exact getElem?_concat_length
    obtain ⟨found, hfound⟩ : ∃ found, slotHashes[c.slotHashesIndex]? = some (last.slot, found) := by
      rcases h.last last hpos hget with hold | hlt | hfound
      · omega
      · omega
      · exact hfound
    rw [hfound]
    dsimp only
    rw [if_neg (not_not_intro rfl)]
    split
    · exact ⟨_, rfl, by decide⟩
    · rename_i hsame
      rw [← not_not.mp hsame]
      exact ⟨hpassed, mem_of_getElem? hfound⟩
  · rw [if_pos hpassed]
    exact ⟨_, rfl, by decide⟩

/-- `check_and_filter_proposed_vote_state` does not panic and reaches none of its
    `AssertionFailed` branches, and a proposal that passes is filtered exactly. -/
theorem proposal_filter_exact (voteState : VoteState) (lockouts : List Lockout)
    (root : Option Nat) (hash : Hash) (slotHashes : List SlotHash)
    (_hvotes : voteState.votes.Pairwise fun a b => a.slot < b.slot)
    (hdesc : Descending slotHashes) :
    (∀ e, checkAndFilterProposedVoteState voteState lockouts root hash slotHashes = .error e →
      e.IsErr ∧ e ≠ .err .assertionFailed) ∧
    ∀ retained newRoot,
      checkAndFilterProposedVoteState voteState lockouts root hash slotHashes =
          .ok (retained, newRoot) →
        ∃ earliest, ProposalKept voteState lockouts hash slotHashes retained newRoot earliest := by
  have hreturns : Returns ProposalError
      (fun proposal => ∃ earliest,
        ProposalKept voteState lockouts hash slotHashes proposal.1 proposal.2 earliest)
      (checkAndFilterProposedVoteState voteState lockouts root hash slotHashes) := by
    unfold checkAndFilterProposedVoteState
    split
    · exact ⟨_, rfl, by decide⟩
    · rename_i last hlast
      split
      · exact ⟨_, rfl, by decide⟩
      · rename_i hnew
        split
        · exact ⟨_, rfl, by decide⟩
        · rename_i earliest oldestHash holdest
          split
          · exact ⟨_, rfl, by decide⟩
          · rename_i hrecent
            have hstart : Cursor.Sound voteState lockouts slotHashes earliest
                (overwriteProposedRoot voteState earliest root)
                ⟨overwriteProposedRoot voteState earliest root, 0, slotHashes.length, []⟩ :=
              { index_le := Nat.zero_le _
                hashes_le := Nat.le_refl _
                unchecked := fun _ => ⟨rfl, rfl⟩
                checked := fun hnone r hr => absurd (hr.symm.trans hnone) (Option.some_ne_none r)
                ordered := .nil
                passed := forall_mem_nil _
                filtered := rfl
                last := fun _ hpos => absurd hpos (Nat.lt_irrefl 0) }
            refine (hstart.run holdest hdesc).bind fun c hc => ?_
            refine (hc.checkLast hlast (Nat.le_of_not_lt hrecent)).bind ?_
            rintro _ ⟨hpassed, hhash⟩
            refine ⟨earliest,
              .of_sound hlast holdest ?_ (Nat.le_of_not_lt hrecent) hc hpassed hhash⟩
            intro slot hslot
            have hold := (Option.any_eq_false _ _).mp (eq_false_of_ne_true hnew) slot hslot
            simpa using hold
  constructor
  · intro e he
    rw [he] at hreturns
    obtain ⟨err, rfl, herr⟩ := hreturns
    exact ⟨⟨err, rfl⟩, fun heq => herr (Stop.err.inj heq)⟩
  · intro retained newRoot hok
    rw [hok] at hreturns
    exact hreturns

/-- The first proposed slot is older than the slot hashes and was not voted on. -/
theorem proposal_filter_exact_dropping : ∃ proposal earliest,
    checkAndFilterProposedVoteState .empty [⟨1, 3⟩, ⟨5, 2⟩, ⟨7, 1⟩] none 7
        [(7, 7), (6, 6), (5, 5)] = .ok proposal ∧ proposal.1 = [⟨5, 2⟩, ⟨7, 1⟩] ∧
      ProposalKept .empty [⟨1, 3⟩, ⟨5, 2⟩, ⟨7, 1⟩] 7 [(7, 7), (6, 6), (5, 5)]
        proposal.1 proposal.2 earliest := by
  have hsome : (checkAndFilterProposedVoteState .empty [⟨1, 3⟩, ⟨5, 2⟩, ⟨7, 1⟩] none 7
      [(7, 7), (6, 6), (5, 5)]).toOption.map Prod.fst = some [⟨5, 2⟩, ⟨7, 1⟩] := by
    decide +kernel
  have hdesc : Descending [(7, 7), (6, 6), (5, 5)] := by
    unfold Descending
    decide
  obtain ⟨proposal, hok, hretained⟩ := exists_ok_of_map hsome
  obtain ⟨earliest, hkept⟩ :=
    (proposal_filter_exact .empty _ none 7 _ .nil hdesc).2 proposal.1 proposal.2 hok
  exact ⟨proposal, earliest, hok, hretained, hkept⟩

/-! ## The slots of a vote -/

/-- Slots that the vote state has passed. -/
def isStale (voteState : VoteState) (slot : Nat) : Bool :=
  voteState.lastVotedSlot.any fun lastVotedSlot => slot ≤ lastVotedSlot

/-- The slots of a vote that are greater than the last voted slot. -/
def freshSlots (voteState : VoteState) (slots : List Nat) : List Nat :=
  slots.filter fun slot => !isStale voteState slot

theorem freshSlots_cons_of_stale (h : isStale voteState slot = true) (slots : List Nat) :
    freshSlots voteState (slot :: slots) = freshSlots voteState slots := by
  simp [freshSlots, h]

theorem freshSlots_cons_of_fresh (h : isStale voteState slot = false) (slots : List Nat) :
    freshSlots voteState (slot :: slots) = slot :: freshSlots voteState slots := by
  simp [freshSlots, h]

/-- The search of `check_slots_are_valid`, by what is left of the slots and of the slot hashes,
    oldest first: from the first two lists to the last two. -/
inductive Finds (voteState : VoteState) :
    List Nat → List SlotHash → List Nat → List SlotHash → Prop where
  | done {slots : List Nat} {hashes : List SlotHash} (h : slots = [] ∨ hashes = []) :
      Finds voteState slots hashes slots hashes
  | skip {slot : Nat} {slots slots' : List Nat} {entry : SlotHash} {hashes hashes' : List SlotHash}
      (hstale : isStale voteState slot = true)
      (hrest : Finds voteState slots (entry :: hashes) slots' hashes') :
      Finds voteState (slot :: slots) (entry :: hashes) slots' hashes'
  | older {slot : Nat} {slots slots' : List Nat} {entry : SlotHash}
      {hashes hashes' : List SlotHash} (hfresh : isStale voteState slot = false)
      (hne : slot ≠ entry.1) (hrest : Finds voteState (slot :: slots) hashes slots' hashes') :
      Finds voteState (slot :: slots) (entry :: hashes) slots' hashes'
  | found {slot : Nat} {slots slots' : List Nat} {hash : Hash} {hashes hashes' : List SlotHash}
      (hfresh : isStale voteState slot = false)
      (hrest : Finds voteState slots hashes slots' hashes') :
      Finds voteState (slot :: slots) ((slot, hash) :: hashes) slots' hashes'

/-- The loop never leaves its lists. -/
theorem findSlots_finds {voteSlots : List Nat} (i j : Nat)
    (hi : i ≤ voteSlots.length) (hj : j ≤ slotHashes.length) :
    ∃ i' j', findSlots voteState.lastVotedSlot voteSlots slotHashes i j = .ok (i', j') ∧
      i' ≤ voteSlots.length ∧ j' ≤ slotHashes.length ∧
      Finds voteState (voteSlots.drop i) (slotHashes.take j).reverse (voteSlots.drop i')
        (slotHashes.take j').reverse := by
  have hcons : ∀ {j : Nat} {entry : SlotHash}, 0 < j → slotHashes[j - 1]? = some entry →
      (slotHashes.take j).reverse = entry :: (slotHashes.take (j - 1)).reverse := by
    intro j entry hpos hentry
    obtain ⟨k, rfl⟩ := Nat.exists_eq_add_of_lt hpos
    rw [Nat.zero_add, Nat.add_sub_cancel] at hentry ⊢
    rw [take_add_one, hentry, reverse_append]
    rfl
  fun_induction findSlots voteState.lastVotedSlot voteSlots slotHashes i j with
  | case1 i j hc slot entrySlot hash hentry hslot hstale ih =>
    obtain ⟨hlt, hget⟩ := List.getElem?_eq_some_iff.mp hslot
    obtain ⟨i', j', hrun, hi', hj', hfinds⟩ := ih hlt hj
    refine ⟨i', j', hrun, hi', hj', ?_⟩
    rw [hcons hc.2 hentry] at hfinds ⊢
    rw [drop_eq_getElem_cons hlt, hget]
    exact .skip hstale hfinds
  | case2 i j hc slot entrySlot hash hentry hslot hfresh hne ih =>
    obtain ⟨hlt, hget⟩ := List.getElem?_eq_some_iff.mp hslot
    obtain ⟨i', j', hrun, hi', hj', hfinds⟩ := ih hi (by omega)
    refine ⟨i', j', hrun, hi', hj', ?_⟩
    rw [drop_eq_getElem_cons hlt, hget] at hfinds ⊢
    rw [hcons hc.2 hentry]
    exact .older (eq_false_of_ne_true hfresh) hne hfinds
  | case3 i j hc slot entrySlot hash hentry hslot hfresh heq ih =>
    obtain ⟨hlt, hget⟩ := List.getElem?_eq_some_iff.mp hslot
    obtain ⟨i', j', hrun, hi', hj', hfinds⟩ := ih hlt (by omega)
    refine ⟨i', j', hrun, hi', hj', ?_⟩
    rw [drop_eq_getElem_cons hlt, hget, hcons hc.2 hentry, ← not_not.mp heq]
    exact .found (eq_false_of_ne_true hfresh) hfinds
  | case4 i j hc hnone =>
    exact absurd (getElem?_eq_getElem (show j - 1 < slotHashes.length by omega))
      (hnone _ _ _ (getElem?_eq_getElem hc.1))
  | case5 i j hc =>
    refine ⟨i, j, rfl, hi, hj, .done ?_⟩
    by_cases hlt : i < voteSlots.length
    · have hzero : j = 0 := by omega
      rw [hzero]
      exact .inr rfl
    · exact .inl (drop_eq_nil_of_le (Nat.le_of_not_lt hlt))

/-- What the search has found: the hashes it passed end with the last fresh slot, if it got
    past all fresh slots, and it does if they are a subsequence. -/
structure Found (voteState : VoteState) (slots : List Nat) (hashes : List SlotHash)
    (slots' : List Nat) (passed hashes' : List SlotHash) : Prop where
  split : hashes = passed ++ hashes'
  ended : slots' = [] ∨ hashes' = []
  sublist : freshSlots voteState slots' = [] →
    (freshSlots voteState slots).Sublist (passed.map Prod.fst)
  last : freshSlots voteState slots' = [] →
    passed.getLast?.map Prod.fst = (freshSlots voteState slots).getLast?
  complete : (freshSlots voteState slots).Sublist (hashes.map Prod.fst) →
    freshSlots voteState slots' = []
  /-- A stale slot is passed only while there are slot hashes left. -/
  trailing : slots' = [] → ∀ slot, slots.getLast? = some slot → isStale voteState slot = true →
    hashes' ≠ []

theorem Finds.exists_found {slots slots' : List Nat} {hashes hashes' : List SlotHash}
    (h : Finds voteState slots hashes slots' hashes') :
    ∃ passed, Found voteState slots hashes slots' passed hashes' := by
  induction h with
  | @done slots hashes h =>
    refine ⟨[], rfl, h, fun hnil => ?_, fun hnil => ?_, fun hsub => ?_, fun hnil slot hslot => ?_⟩
    · rw [hnil]
      exact nil_sublist _
    · rw [hnil]
      rfl
    · rcases h with rfl | rfl
      · rfl
      · exact sublist_nil.mp hsub
    · rw [hnil] at hslot
      cases hslot
  | @skip slot slots slots' entry hashes hashes' hstale hrest ih =>
    obtain ⟨passed, hsplit, hended, hsub, hlast, hcomplete, htrailing⟩ := ih
    rw [← freshSlots_cons_of_stale hstale slots] at hsub hlast hcomplete
    refine ⟨passed, hsplit, hended, hsub, hlast, hcomplete, fun hnil last hlast' hstale' => ?_⟩
    cases slots with
    | nil =>
      cases hrest with
      | done _ => exact cons_ne_nil _ _
    | cons next slots => exact htrailing hnil last hlast' hstale'
  | @older slot slots slots' entry hashes hashes' hfresh hne _ ih =>
    obtain ⟨passed, hsplit, hended, hsub, hlast, hcomplete, htrailing⟩ := ih
    refine ⟨entry :: passed, ?_, hended, fun hnil => (hsub hnil).cons _, fun hnil => ?_,
      fun hsub' => hcomplete ?_, htrailing⟩
    · rw [hsplit, cons_append]
    · have hlast := hlast hnil
      rw [freshSlots_cons_of_fresh hfresh] at hlast ⊢
      rw [← hlast]
      cases passed with
      | nil => cases hlast
      | cons first passed => rfl
    · rw [freshSlots_cons_of_fresh hfresh] at hsub' ⊢
      rcases cons_sublist_cons'.mp hsub' with hsub' | ⟨heq, -⟩
      · exact hsub'
      · exact absurd heq hne
  | @found slot slots slots' hash hashes hashes' hfresh _ ih =>
    obtain ⟨passed, hsplit, hended, hsub, hlast, hcomplete, htrailing⟩ := ih
    refine ⟨(slot, hash) :: passed, ?_, hended, fun hnil => ?_, fun hnil => ?_, fun hsub' => ?_,
      fun hnil last hlast' hstale => ?_⟩
    · rw [hsplit, cons_append]
    · rw [freshSlots_cons_of_fresh hfresh]
      exact (hsub hnil).cons_cons slot
    · rw [freshSlots_cons_of_fresh hfresh, getLast?_cons, getLast?_cons, ← hlast hnil]
      cases passed.getLast? <;> rfl
    · rw [freshSlots_cons_of_fresh hfresh] at hsub'
      exact hcomplete (cons_sublist_cons.mp hsub')
    · cases slots with
      | nil =>
        obtain rfl : slot = last := Option.some.inj hlast'
        rw [hfresh] at hstale
        cases hstale
      | cons next slots => exact htrailing hnil last hlast' hstale

theorem mem_freshSlots {slots : List Nat} :
    slot ∈ freshSlots voteState slots ↔ slot ∈ slots ∧ isStale voteState slot = false := by
  rw [freshSlots, mem_filter, Bool.not_eq_true']

/-- A vote that `check_slots_are_valid` accepts. -/
structure SlotsConfirmed (voteState : VoteState) (voteSlots : List Nat) (voteHash : Hash)
    (slotHashes : List SlotHash) (last : Nat) : Prop where
  last_fresh : (freshSlots voteState voteSlots).getLast? = some last
  sublist : (freshSlots voteState voteSlots).Sublist (slotHashes.map Prod.fst).reverse
  hash : (last, voteHash) ∈ slotHashes
  /-- No stale slot follows the fresh ones if they end with the newest slot hash. -/
  trailing : voteSlots.getLast? = some last ∨ slotHashes.head?.map Prod.fst ≠ some last

section Confirmed

variable {voteSlots slots' : List Nat} {voteHash : Hash} {passed newer : List SlotHash}
  (hfound : Found voteState voteSlots slotHashes.reverse slots' passed newer.reverse)

include hfound

theorem Found.slotHashes_eq : slotHashes = newer ++ passed.reverse := by
  have hsplit := congrArg List.reverse hfound.split
  rw [reverse_reverse, reverse_append, reverse_reverse] at hsplit
  exact hsplit

/-- The search stopped behind the last fresh slot. -/
theorem Found.of_confirmed {last : Nat}
    (h : SlotsConfirmed voteState voteSlots voteHash slotHashes last)
    (hslots : ∃ before, voteSlots = before ++ slots') :
    slots' = [] ∧ ∃ entry, passed.getLast? = some entry ∧ entry.1 = last := by
  have hsub := h.sublist
  rw [← map_reverse] at hsub
  have hnone := hfound.complete hsub
  have hlast := hfound.last hnone
  rw [h.last_fresh] at hlast
  obtain ⟨entry, hentry, rfl⟩ := Option.map_eq_some_iff.mp hlast
  refine ⟨?_, entry, hentry, rfl⟩
  by_contra hne
  -- a stale slot is left, so the search has come to the newest slot hash
  have hnewer := hfound.ended.resolve_left hne
  have heq := hfound.slotHashes_eq
  rw [reverse_eq_nil_iff.mp hnewer, nil_append] at heq
  obtain ⟨before, hbefore⟩ := hslots
  rcases h.trailing with htrailing | htrailing
  · rw [hbefore, getLast?_append_of_ne_nil _ hne] at htrailing
    have hfresh := (mem_freshSlots.mp (mem_of_getLast? h.last_fresh)).2
    have hmem := mem_freshSlots.mpr ⟨mem_of_getLast? htrailing, hfresh⟩
    rw [hnone] at hmem
    cases hmem
  · rw [heq, head?_reverse, hentry] at htrailing
    exact htrailing rfl

theorem Found.confirmed (hdesc : Descending slotHashes) (hnil : slots' = [])
    (hentry : passed.getLast? = some entry) (hhash : entry.2 = voteHash) :
    SlotsConfirmed voteState voteSlots voteHash slotHashes entry.1 := by
  have hnone : freshSlots voteState slots' = [] := by
    rw [hnil]
    rfl
  have hlast := hfound.last hnone
  rw [hentry] at hlast
  have heq := hfound.slotHashes_eq
  have hmem : entry ∈ passed.reverse := mem_reverse.mpr (mem_of_getLast? hentry)
  refine ⟨hlast.symm, ?_, ?_, ?_⟩
  · rw [← map_reverse, hfound.split, map_append]
    exact (hfound.sublist hnone).trans (sublist_append_left _ _)
  · rw [← hhash, heq]
    exact mem_append_right _ hmem
  · by_cases hsame : voteSlots.getLast? = some entry.1
    · exact .inl hsame
    · -- the last slot is stale, so there are newer slot hashes
      right
      cases hslot : voteSlots.getLast? with
      | none =>
        rw [getLast?_eq_none_iff.mp hslot] at hlast
        cases hlast
      | some slot =>
        have hstale : isStale voteState slot = true := by
          by_contra hfresh
          obtain ⟨before, hbefore⟩ := getLast?_eq_some_iff.mp hslot
          rw [hbefore, freshSlots, filter_append,
            filter_cons_of_pos (by simpa using hfresh), filter_nil,
            getLast?_concat] at hlast
          rw [hslot] at hsame
          exact hsame hlast.symm
        have hne := hfound.trailing hnil slot hslot hstale
        cases newer with
        | nil => exact absurd rfl hne
        | cons first newer =>
          rw [heq] at hdesc ⊢
          have hlt := (pairwise_append.mp hdesc).2.2 first mem_cons_self entry hmem
          intro hhead
          have hfirst : first.1 = entry.1 := Option.some.inj hhead
          omega

end Confirmed

/-- `check_slots_are_valid` does not index out of range, and accepts exactly the votes whose
    fresh slots are a non-empty subsequence of the slot hashes that ends under the hash of the
    vote, unless stale slots follow the newest slot hash. -/
theorem slots_valid_iff (voteState : VoteState) (voteSlots : List Nat) (voteHash : Hash)
    (slotHashes : List SlotHash) (hdesc : Descending slotHashes) :
    (∀ e, checkSlotsAreValid voteState voteSlots voteHash slotHashes = .error e → e.IsErr) ∧
    (checkSlotsAreValid voteState voteSlots voteHash slotHashes = .ok () ↔
      ∃ last, SlotsConfirmed voteState voteSlots voteHash slotHashes last) := by
  obtain ⟨i, j, hrun, hi, hj, hfinds⟩ := @findSlots_finds voteState slotHashes voteSlots 0
    slotHashes.length (Nat.zero_le _) (Nat.le_refl _)
  rw [drop_zero, take_length] at hfinds
  obtain ⟨passed, hfound⟩ := hfinds.exists_found
  have hslots : ∃ before, voteSlots = before ++ voteSlots.drop i :=
    ⟨voteSlots.take i, (take_append_drop i voteSlots).symm⟩
  have heq := hfound.slotHashes_eq
  have hlength : slotHashes.length = j + passed.length := by
    have hsum := congrArg List.length heq
    rw [length_append, length_take, length_reverse] at hsum
    omega
  have hget : slotHashes[j]? = passed.getLast? := by
    rw [heq, getElem?_append_right (by rw [length_take]; omega), length_take,
      Nat.min_eq_left hj, Nat.sub_self, ← head?_eq_getElem?, head?_reverse]
  have hend : voteSlots.drop i = [] ↔ i = voteSlots.length := by
    rw [drop_eq_nil_iff]
    omega
  -- an error on the left is a contradiction on the right
  have hrefused : ∀ err, ¬ (∃ last, SlotsConfirmed voteState voteSlots voteHash slotHashes last) →
      (∀ e, (Except.error (.err err) : Except Stop Unit) = .error e → e.IsErr) ∧
        ((Except.error (.err err) : Except Stop Unit) = .ok () ↔
          ∃ last, SlotsConfirmed voteState voteSlots voteHash slotHashes last) := by
    intro err hnot
    refine ⟨?_, ?_⟩
    · intro e he
      cases he
      exact ⟨err, rfl⟩
    · exact ⟨fun h => (nomatch h), fun h => absurd h hnot⟩
  rw [checkSlotsAreValid, hrun, ok_bind]
  dsimp only
  by_cases hall : j = slotHashes.length
  · rw [if_pos hall]
    refine hrefused _ ?_
    rintro ⟨last, hlast⟩
    obtain ⟨-, entry, hentry, -⟩ := hfound.of_confirmed hlast hslots
    rw [length_eq_zero_iff.mp (show passed.length = 0 by omega)] at hentry
    cases hentry
  · rw [if_neg hall]
    by_cases hrest : i = voteSlots.length
    · rw [if_neg (not_not_intro hrest), hget]
      cases hentry : passed.getLast? with
      | none =>
        rw [getLast?_eq_none_iff.mp hentry] at hlength
        exact absurd hlength.symm hall
      | some entry =>
        dsimp only
        by_cases hhash : entry.2 = voteHash
        · rw [if_neg (not_not_intro hhash)]
          refine ⟨fun e he => (nomatch he), fun _ => ?_, fun _ => rfl⟩
          exact ⟨entry.1, hfound.confirmed hdesc (hend.mpr hrest) hentry hhash⟩
        · rw [if_pos hhash]
          refine hrefused _ ?_
          rintro ⟨last, hlast⟩
          obtain ⟨-, entry', hentry', rfl⟩ := hfound.of_confirmed hlast hslots
          rw [hentry] at hentry'
          cases hentry'
          have hmem : entry ∈ slotHashes := mem_of_getElem? (hget.trans hentry)
          exact hhash (hdesc.hash_eq hmem hlast.hash)
    · rw [if_pos hrest]
      refine hrefused _ ?_
      rintro ⟨last, hlast⟩
      exact hrest (hend.mp (hfound.of_confirmed hlast hslots).1)

/-- A vote for slots 5 and 7 after a vote for slot 4, which it also names. -/
theorem slots_valid_skipping : ∃ last, SlotsConfirmed
    { VoteState.empty with votes := [⟨1, ⟨4, 1⟩⟩] } [4, 5, 7] 7 [(7, 7), (6, 6), (5, 5)] last := by
  have hdesc : Descending [(7, 7), (6, 6), (5, 5)] := by
    unfold Descending
    decide
  refine (slots_valid_iff { VoteState.empty with votes := [⟨1, ⟨4, 1⟩⟩] } [4, 5, 7] 7
    [(7, 7), (6, 6), (5, 5)] hdesc).2.mp ?_
  decide +kernel

/-- The fresh slot 5 is the newest slot hash and its hash is right, but the stale slot 3 follows
    it: the loop ends before it has passed slot 3. -/
theorem slots_valid_trailing_stale :
    freshSlots { VoteState.empty with votes := [⟨1, ⟨4, 1⟩⟩] } [5, 3] = [5] ∧
      checkSlotsAreValid { VoteState.empty with votes := [⟨1, ⟨4, 1⟩⟩] } [5, 3] 5 [(5, 5)] =
        .error (.err .slotsMismatch) := by
  refine ⟨by decide, ?_⟩
  decide +kernel

/-! ## A new vote state -/

section NewState

variable {newState : List LandedVote} {newRoot : Option Nat} {timestamp : Option Int}
  {epoch currentSlot : Nat} {s' : VoteState} {checked : List LandedVote × Nat}

theorem stampAt_eq_error_iff {missing e : Stop} :
    stampAt (some slot) missing timestamp s = .error e s' ↔
      (∃ t, timestamp = some t ∧ VoteState.isTimestampTooOld s.lastTimestamp slot t = true) ∧
        e = .err .timestampTooOld ∧ s' = s := by
  cases timestamp with
  | none => simp [stampAt, pure, EStateM.pure]
  | some t =>
    simp only [stampAt, VoteState.processTimestamp, Option.some.injEq, exists_eq_left']
    split
    · rename_i hold
      simp [hold, eq_comm]
    · rename_i hnew
      simp [hnew]

/-- The votes that are stored are for the slots of the new state, and the credits are those of the
    current votes it roots. -/
theorem checkNewState_eq_ok (h : checkNewState s newState newRoot currentSlot = .ok checked) :
    (∃ last, newState.getLast? = some last ∧
      checked.1.getLast?.map LandedVote.slot = some last.slot) ∧
    ∃ index, rootCurrentVotes s newRoot = .ok (index, checked.2) := by
  unfold checkNewState at h
  obtain ⟨hempty, h⟩ := guard_eq_ok_iff.mp h
  obtain ⟨-, h⟩ := guard_eq_ok_iff.mp h
  obtain ⟨-, h⟩ := check_bind_eq_ok_iff.mp h
  obtain ⟨-, h⟩ := check_bind_eq_ok_iff.mp h
  obtain ⟨rooted, hrooted, h⟩ := bind_eq_ok_iff.mp h
  obtain ⟨merged, hmerged, h⟩ := bind_eq_ok_iff.mp h
  cases h
  refine ⟨?_, rooted.1, hrooted⟩
  have hne : newState ≠ [] := fun hnil => hempty (isEmpty_iff.mpr hnil)
  refine ⟨_, getLast?_eq_some_getLast hne, ?_⟩
  have hslots : (merged.map (setLatency currentSlot)).map LandedVote.lockout =
      newState.map LandedVote.lockout := by
    rw [← mergeVotes_lockouts hmerged, map_map]
    exact map_congr_left (fun v _ => setLatency_lockout currentSlot v)
  have hlast := congrArg getLast? hslots
  rw [getLast?_map, getLast?_map (l := newState), getLast?_eq_some_getLast hne,
    Option.map_some] at hlast
  obtain ⟨vote, hvote, hlockout⟩ := Option.map_eq_some_iff.mp hlast
  rw [hvote]
  exact congrArg (fun lockout => some lockout.slot) hlockout

/-- A call stops in its checks, or at a timestamp that is too old when the credits are written. -/
theorem processNewVoteState_eq_error_iff {e : Stop} :
    processNewVoteState newState newRoot timestamp epoch currentSlot s = .error e s' ↔
      (checkNewState s newState newRoot currentSlot = .error e ∧ s' = s) ∨
      ∃ checked last t, checkNewState s newState newRoot currentSlot = .ok checked ∧
        newState.getLast? = some last ∧ timestamp = some t ∧
        VoteState.isTimestampTooOld s.lastTimestamp last.slot t = true ∧
        e = .err .timestampTooOld ∧ s' = s.awardCredits newRoot epoch checked.2 := by
  have hget : (get : VoteM VoteState) s = .ok s s := rfl
  have haward : ∀ n, (modify (fun s => VoteState.awardCredits s newRoot epoch n) : VoteM Unit) s =
      .ok () (s.awardCredits newRoot epoch n) := fun _ => rfl
  have hstamp : ∀ n, (s.awardCredits newRoot epoch n).lastTimestamp = s.lastTimestamp := by
    intro n
    rw [VoteState.awardCredits]
    split <;> rfl
  rw [processNewVoteState, run_bind_of_ok hget]
  cases hchecked : checkNewState s newState newRoot currentSlot with
  | error e' =>
    have hcheck : VoteM.check (.error e' : Except Stop (List LandedVote × Nat)) s = .error e' s :=
      rfl
    rw [run_bind_eq_error_iff, hcheck]
    constructor
    · rintro (h | ⟨_, _, h, -⟩)
      · cases h
        exact .inl ⟨rfl, rfl⟩
      · cases h
    · rintro (⟨h, rfl⟩ | ⟨_, _, _, h, -⟩)
      · cases h
        exact .inl rfl
      · cases h
  | ok checked =>
    have hcheck : VoteM.check (.ok checked : Except Stop (List LandedVote × Nat)) s =
        .ok checked s := rfl
    obtain ⟨⟨last, hlast, hslot⟩, -⟩ := checkNewState_eq_ok hchecked
    rw [run_bind_of_ok hcheck, run_bind_of_ok (haward _), run_bind_eq_error_iff, hslot,
      stampAt_eq_error_iff, hstamp]
    constructor
    · rintro (⟨⟨t, ht, hold⟩, rfl, rfl⟩ | ⟨_, _, -, h⟩)
      · exact .inr ⟨checked, last, t, rfl, hlast, ht, hold, rfl, rfl⟩
      · cases h
    · rintro (⟨h, -⟩ | ⟨_, last', t, hok, hlast', ht, hold, rfl, rfl⟩)
      · cases h
      · cases hok
        rw [hlast] at hlast'
        cases hlast'
        exact .inl ⟨⟨t, ht, hold⟩, rfl, rfl⟩

/-- The new root reaches the oldest vote. -/
def RootsVote (s : VoteState) (newRoot : Option Nat) : Prop :=
  ∃ vote root, s.votes.head? = some vote ∧ newRoot = some root ∧ vote.slot ≤ root

theorem creditsForLatency_pos (latency : Nat) : 0 < creditsForLatency latency := by
  unfold creditsForLatency voteCreditsGraceSlots voteCreditsMaximumPerSlot
  split_ifs <;> omega

theorem le_of_rootVotes {root index earned : Nat} {rest : List LandedVote} {rooted : Nat × Nat}
    (h : rootVotes s root rest index earned = .ok rooted) : earned ≤ rooted.2 := by
  induction rest generalizing index earned with
  | nil =>
    cases h
    exact Nat.le_refl _
  | cons vote rest ih =>
    rw [rootVotes] at h
    split at h
    · obtain ⟨-, h⟩ := guard_eq_ok_iff.mp h
      exact (Nat.le_add_right _ _).trans (ih h)
    · cases h
      exact Nat.le_refl _

/-- Every vote is worth a credit, so credits are earned when a vote is rooted. -/
theorem rootCurrentVotes_pos_iff {index earned : Nat}
    (h : rootCurrentVotes s newRoot = .ok (index, earned)) : 0 < earned ↔ RootsVote s newRoot := by
  cases newRoot with
  | none =>
    cases h
    simp [RootsVote]
  | some root =>
    rw [rootCurrentVotes] at h
    cases hvotes : s.votes with
    | nil =>
      rw [hvotes] at h
      cases h
      simp [RootsVote, hvotes]
    | cons vote rest =>
      rw [hvotes, rootVotes] at h
      split at h
      · rename_i hle
        obtain ⟨-, h⟩ := guard_eq_ok_iff.mp h
        have hpos : 0 < s.creditsForVoteAtIndex 0 := creditsForLatency_pos _
        have hearned := le_of_rootVotes h
        dsimp only at hearned
        refine iff_of_true (by omega) ⟨vote, root, by rw [hvotes]; rfl, rfl, hle⟩
      · rename_i hlt
        cases h
        simpa [RootsVote, hvotes] using hlt

/-- The calls that are applied by half.  They pass the checks and move the root, their timestamp is
    too old for the last slot they vote for, and the award changes the history: unless it is for
    the newest epoch, and either nothing is rooted or the credits are at their maximum. -/
structure HalfApplied (s : VoteState) (newState : List LandedVote) (newRoot : Option Nat)
    (timestamp : Option Int) (epoch currentSlot : Nat) : Prop where
  passes : ∃ checked, checkNewState s newState newRoot currentSlot = .ok checked
  moves : s.rootSlot ≠ newRoot
  tooOld : ∃ last t, newState.getLast? = some last ∧ timestamp = some t ∧
    VoteState.isTimestampTooOld s.lastTimestamp last.slot t = true
  awards : ∀ last, s.epochCredits.getLast? = some last → last.epoch = epoch →
    last.credits ≠ u64Max ∧ (last.credits < u64Max → RootsVote s newRoot)

theorem awardCredits_ne_iff {index earned : Nat}
    (h : rootCurrentVotes s newRoot = .ok (index, earned)) :
    s.awardCredits newRoot epoch earned ≠ s ↔ s.rootSlot ≠ newRoot ∧
      ∀ last, s.epochCredits.getLast? = some last → last.epoch = epoch →
        last.credits ≠ u64Max ∧ (last.credits < u64Max → RootsVote s newRoot) := by
  rw [VoteState.awardCredits, ← rootCurrentVotes_pos_iff h]
  by_cases hmoves : s.rootSlot ≠ newRoot
  · rw [if_pos hmoves, Ne, incrementCredits_eq_self_iff, and_iff_right hmoves]
    push Not
    refine forall_congr' (fun last => imp_congr_right (fun _ => imp_congr_right (fun _ => ?_)))
    omega
  · rw [if_neg hmoves]
    exact iff_of_false (fun hne => hne rfl) (fun hmoves' => hmoves hmoves'.1)

/-- A call that stops leaves the vote state as it was, exactly if it is not one of those that are
    applied by half. -/
theorem new_vote_state_all_or_nothing (s : VoteState) (newState : List LandedVote)
    (newRoot : Option Nat) (timestamp : Option Int) (epoch currentSlot : Nat) :
    (∀ e s', processNewVoteState newState newRoot timestamp epoch currentSlot s = .error e s' →
      s' = s) ↔ ¬ HalfApplied s newState newRoot timestamp epoch currentSlot := by
  simp only [processNewVoteState_eq_error_iff]
  constructor
  · rintro hall ⟨⟨checked, hchecked⟩, hmoves, ⟨last, t, hlast, ht, hold⟩, hawards⟩
    obtain ⟨-, index, hrooted⟩ := checkNewState_eq_ok hchecked
    apply (awardCredits_ne_iff hrooted).mpr ⟨hmoves, hawards⟩
    exact hall _ _ (.inr ⟨checked, last, t, hchecked, hlast, ht, hold, rfl, rfl⟩)
  · rintro hnot e s' (⟨-, hsame⟩ | ⟨checked, last, t, hchecked, hlast, ht, hold, -, rfl⟩)
    · exact hsame
    · by_contra hne
      obtain ⟨-, index, hrooted⟩ := checkNewState_eq_ok hchecked
      obtain ⟨hmoves, hawards⟩ := (awardCredits_ne_iff hrooted).mp hne
      exact hnot ⟨⟨checked, hchecked⟩, hmoves, ⟨last, t, hlast, ht, hold⟩, hawards⟩

end NewState

/-- The state of a validator that has voted for slot 2, with the timestamp 100. -/
def stampedState : VoteState :=
  { VoteState.empty with votes := [⟨1, ⟨2, 2⟩⟩], lastTimestamp := ⟨2, 100⟩ }

/-- The new root 2 earns 16 credits, and they stay although the timestamp is refused. -/
theorem new_vote_state_half_applied : ∃ s',
    processNewVoteState [⟨0, ⟨5, 1⟩⟩] (some 2) (some 99) 0 6 stampedState =
        .error (.err .timestampTooOld) s' ∧ s'.epochCredits = [⟨0, 16, 0⟩] ∧ s' ≠ stampedState := by
  have hcheck : checkNewState stampedState [⟨0, ⟨5, 1⟩⟩] (some 2) 6 =
      .ok ([⟨1, ⟨5, 1⟩⟩], 16) := by
    decide +kernel
  refine ⟨stampedState.incrementCredits 0 16, ?_, by decide, by decide⟩
  refine run_bind_eq_error_iff.mpr (.inr ⟨stampedState, stampedState, rfl, ?_⟩)
  refine run_bind_eq_error_iff.mpr (.inr ⟨_, _, VoteM.check_eq_ok_iff.mpr ⟨hcheck, rfl⟩, ?_⟩)
  rfl

end Agave.VoteProgram
