/-
  Agave.VoteProgram.Replace

  What `process_new_vote_state` accepts.

  Each of its checks is brought to the property it decides: the new votes form a tower over the new
  root, the root does not move back, and the new votes supersede the current ones above the root.
  Together these are `Accepted`, and `checkNewState_ok_iff` says that on a tower in slot order
  nothing else is asked.
-/

import Agave.Lib.Supersedes
import Agave.VoteProgram.Tower

namespace Agave.VoteProgram

open Agave.Lib List LandedVote

/-! ## The new votes by themselves -/

variable {newRoot root : Option Nat} {s s' : VoteState} {new newState : List LandedVote}
  {currentSlot : Nat} {timestamp : Option Int}

theorem checkNewRoot_ok_iff {currentRoot : Option Nat} :
    checkNewRoot newRoot currentRoot = .ok () ↔ RootLe currentRoot newRoot := by
  cases currentRoot with
  | none => simp [checkNewRoot, RootLe]
  | some current =>
    cases newRoot with
    | none => simp [checkNewRoot, RootLe]
    | some new => simp [checkNewRoot, RootLe]

variable {v : LandedVote} {previous : Option LandedVote} {votes current : List LandedVote}
  {checked : List LandedVote × Nat} {epoch slot : Nat} {α : Type}

theorem checkNewVote_ok_iff : checkNewVote newRoot v = .ok () ↔ VoteOk newRoot v := by
  have hok : VoteOk newRoot v ↔ ¬ v.confirmationCount = 0 ∧
      ¬ maxLockoutHistory < v.confirmationCount ∧ ∀ r ∈ newRoot, ¬ (v.slot ≤ r ∧ r ≠ 0) := by
    constructor
    · intro h
      refine ⟨Nat.ne_of_gt h.count_pos, Nat.not_lt.mpr h.count_le, fun r hr hle => ?_⟩
      have := h.above_root r hr hle.2
      omega
    · intro h
      refine ⟨Nat.pos_of_ne_zero h.1, Nat.not_lt.mp h.2.1, fun r hr hr0 => ?_⟩
      have := h.2.2 r hr
      omega
  rw [hok]
  cases newRoot with
  | none => simp [checkNewVote, guard_eq_ok_iff]
  | some root => simp [checkNewVote, guard_eq_ok_iff]

theorem checkConsecutive_ok_iff :
    checkConsecutive previous v = .ok () ↔ ∀ p ∈ previous, Follows p v := by
  cases previous with
  | none => simp [checkConsecutive]
  | some p =>
    simp only [checkConsecutive, guard_eq_ok_iff, Option.mem_some_iff, forall_eq', and_true]
    constructor
    · intro h
      exact ⟨Nat.not_le.mp h.1, Nat.not_le.mp h.2.1, Nat.not_lt.mp h.2.2⟩
    · intro h
      exact ⟨Nat.not_le.mpr h.slot_lt, Nat.not_le.mpr h.count_lt, Nat.not_lt.mpr h.locked⟩

theorem checkNewVotes_ok_iff :
    checkNewVotes newRoot previous votes = .ok () ↔
      (∀ v ∈ votes, VoteOk newRoot v) ∧ (previous.toList ++ votes).IsChain Follows := by
  induction votes generalizing previous with
  | nil => cases previous <;> simp [checkNewVotes]
  | cons v votes ih =>
    have hchain : (previous.toList ++ v :: votes).IsChain Follows ↔
        (∀ p ∈ previous, Follows p v) ∧ (v :: votes).IsChain Follows := by
      cases previous with
      | none => simp
      | some p => simp [isChain_cons_cons]
    rw [checkNewVotes, check_bind_eq_ok_iff, check_bind_eq_ok_iff, checkNewVote_ok_iff,
      checkConsecutive_ok_iff, ih, hchain, forall_mem_cons]
    constructor
    · intro ⟨hok, hfollows, hrest, hlinked⟩
      exact ⟨⟨hok, hrest⟩, hfollows, hlinked⟩
    · intro ⟨⟨hok, hrest⟩, hfollows, hlinked⟩
      exact ⟨hok, hfollows, hrest, hlinked⟩

/-! ## The votes that the new root reaches -/

/-- Whether `v` is at or below the root. -/
def reachedBy (root : Option Nat) (v : LandedVote) : Bool := root.any (fun r => v.slot ≤ r)

theorem not_reachedBy_iff : (!reachedBy root v) = true ↔ ∀ r ∈ root, r < v.slot := by
  cases root with
  | none => simp [reachedBy]
  | some r => simp [reachedBy]

/-- The credits of a list of votes. -/
def totalCredits (votes : List LandedVote) : Nat :=
  (votes.map (fun v => creditsForLatency v.latency)).sum

theorem creditsForLatency_bounds (latency : Nat) :
    0 < creditsForLatency latency ∧ creditsForLatency latency ≤ voteCreditsMaximumPerSlot := by
  unfold creditsForLatency voteCreditsMaximumPerSlot voteCreditsGraceSlots
  split
  · omega
  · split
    · omega
    · split <;> omega

theorem totalCredits_le (votes : List LandedVote) :
    totalCredits votes ≤ votes.length * voteCreditsMaximumPerSlot := by
  induction votes with
  | nil => exact Nat.zero_le _
  | cons v votes ih =>
    have hv := (creditsForLatency_bounds v.latency).2
    have hcons : totalCredits (v :: votes) = creditsForLatency v.latency + totalCredits votes :=
      sum_cons
    rw [hcons, length_cons, Nat.succ_mul]
    omega

/-- The loop stops at the first vote above the root. -/
theorem rootVotes_eq (s : VoteState) (newRoot earned : Nat) {index : Nat} {rest : List LandedVote}
    (hrest : s.votes.drop index = rest)
    (hbound : earned + totalCredits (rest.takeWhile (fun v => v.slot ≤ newRoot)) ≤ u64Max) :
    rootVotes s newRoot rest index earned =
      .ok (index + (rest.takeWhile (fun v => v.slot ≤ newRoot)).length,
        earned + totalCredits (rest.takeWhile (fun v => v.slot ≤ newRoot))) := by
  induction rest generalizing index earned with
  | nil => rfl
  | cons v rest ih =>
    by_cases hv : v.slot ≤ newRoot
    · have hget : s.votes[index]? = some v := by
        rw [← head?_drop, hrest]
        rfl
      have hcredits : s.creditsForVoteAtIndex index = creditsForLatency v.latency := by
        rw [VoteState.creditsForVoteAtIndex, hget]
        rfl
      have htotal : ∀ votes, totalCredits (v :: votes) =
          creditsForLatency v.latency + totalCredits votes := fun _ => sum_cons
      have hnext : s.votes.drop (index + 1) = rest := by
        rw [← tail_drop, hrest]
        rfl
      have htake : (v :: rest).takeWhile (fun v => v.slot ≤ newRoot) =
          v :: rest.takeWhile (fun v => v.slot ≤ newRoot) :=
        takeWhile_cons_of_pos (decide_eq_true hv)
      rw [htake, htotal] at hbound
      rw [htake, htotal, rootVotes, if_pos hv, hcredits, if_neg (by omega), ih _ hnext (by omega),
        length_cons]
      congr 2 <;> omega
    · rw [takeWhile_cons_of_neg (by simpa using hv), rootVotes, if_neg hv]
      rfl

/-- In a list where `p` only ever switches off, walking up to the first failure is filtering. -/
theorem takeWhile_dropWhile_eq_filter {p : α → Bool} {l : List α}
    (h : l.Pairwise (fun a b => p b → p a)) :
    l.takeWhile p = l.filter p ∧ l.dropWhile p = l.filter (fun a => !p a) := by
  induction l with
  | nil => exact ⟨rfl, rfl⟩
  | cons a l ih =>
    rw [pairwise_cons] at h
    obtain ⟨htake, hdrop⟩ := ih h.2
    cases ha : p a with
    | true => simp [ha, htake, hdrop]
    | false =>
      have hnone : ∀ b ∈ l, p b = false := by
        intro b hb
        cases hpb : p b with
        | true => exact absurd (h.1 b hb hpb) (by simp [ha])
        | false => rfl
      have hfilter : l.filter p = [] := filter_eq_nil_iff.mpr (by simpa using hnone)
      have hall : l.filter (fun a => !p a) = l :=
        filter_eq_self.mpr (by simpa using hnone)
      simp [ha, hfilter, hall]

/-- On a tower: the votes that the new root reaches, and their credits. -/
theorem rootCurrentVotes_eq (h : Tower root s.votes) (newRoot : Option Nat) :
    ∃ k, rootCurrentVotes s newRoot = .ok (k, totalCredits (s.votes.filter (reachedBy newRoot))) ∧
      s.votes.drop k = s.votes.filter (fun v => !reachedBy newRoot v) := by
  cases newRoot with
  | none =>
    have hnone : s.votes.filter (reachedBy none) = [] := filter_eq_nil_iff.mpr (by simp [reachedBy])
    refine ⟨0, ?_, by simp [reachedBy]⟩
    rw [hnone]
    rfl
  | some newRoot =>
    have hswitch : s.votes.Pairwise (fun a b =>
        reachedBy (some newRoot) b → reachedBy (some newRoot) a) := by
      apply h.slots_lt.imp
      intro a b hlt hb
      have := of_decide_eq_true hb
      exact decide_eq_true (by omega)
    obtain ⟨htake, hdrop⟩ := takeWhile_dropWhile_eq_filter hswitch
    have hsplit : s.votes.takeWhile (reachedBy (some newRoot)) ++
        s.votes.dropWhile (reachedBy (some newRoot)) = s.votes := takeWhile_append_dropWhile
    refine ⟨(s.votes.takeWhile (reachedBy (some newRoot))).length, ?_, ?_⟩
    · have hle := totalCredits_le (s.votes.takeWhile (reachedBy (some newRoot)))
      have hlen := ( takeWhile_prefix (l := s.votes) (reachedBy (some newRoot))).length_le
      have hmax := Nat.mul_le_mul_right voteCreditsMaximumPerSlot (hlen.trans h.length_le)
      have hcap : maxLockoutHistory * voteCreditsMaximumPerSlot ≤ u64Max := by decide
      have hroot := rootVotes_eq s newRoot 0 drop_zero
        (by rw [Nat.zero_add]; exact hle.trans (hmax.trans hcap))
      rw [Nat.zero_add, Nat.zero_add] at hroot
      rw [← htake]
      exact hroot
    · have hrest := congrArg (List.drop (s.votes.takeWhile (reachedBy (some newRoot))).length) hsplit
      rw [drop_left] at hrest
      rw [← hdrop, hrest]

/-! ## The merge loop -/

/-- No lockout of `old` is taken back by `new`: a vote that stays does not lose
    confirmations, and a vote that is gone had expired before the next one. -/
def NoRollBack (old new : List LandedVote) : Prop :=
  Supersedes LandedVote.slot LandedVote.confirmationCount
    (fun v => v.lockout.lastLockedOutSlot) old new

/-- The loop accepts exactly the new votes that roll nothing back. -/
theorem mergeVotes_ok_iff (hcurrent : current.Pairwise (fun a b => a.slot < b.slot))
    (hnew : new.Pairwise (fun a b => a.slot < b.slot)) :
    (∃ merged, mergeVotes current new = .ok merged) ↔ NoRollBack current new := by
  unfold NoRollBack
  fun_induction mergeVotes current new with
  | case1 new => exact ⟨fun _ => .nil_left, fun _ => ⟨new, rfl⟩⟩
  | case2 c cs => exact ⟨fun _ => .nil_right, fun _ => ⟨[], rfl⟩⟩
  | case3 c cs n ns hcmp hlocked =>
    have hlt := Nat.compare_eq_lt.mp hcmp
    rw [Supersedes.cons_lt_iff hlt (pairwise_cons.mp hnew).1]
    simp [hlocked]
  | case4 c cs n ns hcmp hexpired ih =>
    have hlt := Nat.compare_eq_lt.mp hcmp
    rw [Supersedes.cons_lt_iff hlt (pairwise_cons.mp hnew).1, ih (pairwise_cons.mp hcurrent).2 hnew]
    simp [Nat.not_le.mp hexpired]
  | case5 c cs n ns hcmp hless =>
    have heq := Nat.compare_eq_eq.mp hcmp
    rw [Supersedes.cons_eq_iff heq (pairwise_cons.mp hcurrent).1 (pairwise_cons.mp hnew).1]
    simp [hless]
  | case6 c cs n ns hcmp hge ih =>
    have heq := Nat.compare_eq_eq.mp hcmp
    rw [Supersedes.cons_eq_iff heq (pairwise_cons.mp hcurrent).1 (pairwise_cons.mp hnew).1,
      ← ih (pairwise_cons.mp hcurrent).2 (pairwise_cons.mp hnew).2,
      exists_ok_bind_pure_iff]
    simp [Nat.not_lt.mp hge]
  | case7 c cs n ns hcmp ih =>
    have hgt := Nat.compare_eq_gt.mp hcmp
    rw [Supersedes.cons_gt_iff hgt (pairwise_cons.mp hcurrent).1,
      ← ih hcurrent (pairwise_cons.mp hnew).2, exists_ok_bind_pure_iff]

theorem mergeVotes_lockouts {merged : List LandedVote} (h : mergeVotes current new = .ok merged) :
    merged.map lockout = new.map lockout := by
  fun_induction mergeVotes current new generalizing merged with
  | case1 new => cases h; rfl
  | case2 c cs => cases h; rfl
  | case3 => cases h
  | case4 c cs n ns hcmp hexpired ih => exact ih h
  | case5 => cases h
  | case6 c cs n ns hcmp hge ih =>
    obtain ⟨rest, hrest, hmerged⟩ := bind_eq_ok_iff.mp h
    cases hmerged
    rw [map_cons, map_cons, ih hrest]
  | case7 c cs n ns hcmp ih =>
    obtain ⟨rest, hrest, hmerged⟩ := bind_eq_ok_iff.mp h
    cases hmerged
    rw [map_cons, map_cons, ih hrest]

/-! ## process_new_vote_state -/

/-- What is asked of a new state. -/
structure Accepted (s : VoteState) (newState : List LandedVote) (newRoot : Option Nat) : Prop where
  nonempty : newState ≠ []
  tower : Tower newRoot newState
  root_le : RootLe s.rootSlot newRoot
  noRollBack : NoRollBack (s.votes.filter (fun v => !reachedBy newRoot v)) newState

theorem tower_ofLockout_iff :
    Tower root ((votes.map lockout).map ofLockout) ↔ Tower root votes := by
  have hfollows : ∀ a b : LandedVote, Follows (.ofLockout a.lockout) (.ofLockout b.lockout) ↔
      Follows a b :=
    fun a b => ⟨fun h => ⟨h.slot_lt, h.count_lt, h.locked⟩,
      fun h => ⟨h.slot_lt, h.count_lt, h.locked⟩⟩
  rw [map_map]
  constructor
  · intro h
    refine ⟨by simpa using h.length_le, ?_, fun v hv => ?_⟩
    · have hchain := (isChain_map _).mp h.follows
      exact hchain.imp fun a b => (hfollows a b).mp
    · have hok := h.ok _ (mem_map_of_mem hv)
      exact ⟨hok.count_pos, hok.count_le, hok.above_root⟩
  · intro h
    refine ⟨by simpa using h.length_le, ?_, ?_⟩
    · exact (isChain_map _).mpr (h.follows.imp fun a b => (hfollows a b).mpr)
    · intro w hw
      obtain ⟨v, hv, rfl⟩ := mem_map.mp hw
      have hok := h.ok v hv
      exact ⟨hok.count_pos, hok.count_le, hok.above_root⟩

/-- What is asked of a new state is a matter of lockouts; latencies play no part. -/
theorem Accepted.congr {stored : List LandedVote}
    (heq : stored.map lockout = new.map lockout) (h : Accepted s new newRoot) :
    Accepted s stored newRoot := by
  have hmem : ∀ v ∈ stored, ∃ w ∈ new, w.lockout = v.lockout := by
    intro v hv
    have : v.lockout ∈ new.map lockout := heq ▸ mem_map_of_mem hv
    exact mem_map.mp this
  have hmem' : ∀ w ∈ new, ∃ v ∈ stored, v.lockout = w.lockout := by
    intro w hw
    have : w.lockout ∈ stored.map lockout := heq ▸ mem_map_of_mem hw
    exact mem_map.mp this
  refine ⟨?_, ?_, h.root_le, ?_, ?_⟩
  · intro hnil
    rw [hnil] at heq
    exact h.nonempty (map_eq_nil_iff.mp heq.symm)
  · rw [← tower_ofLockout_iff, heq, tower_ofLockout_iff]
    exact h.tower
  · intro o ho v hv hslot
    obtain ⟨w, hw, hlockout⟩ := hmem v hv
    have hwslot : w.slot = v.slot := congrArg Lockout.slot hlockout
    have hcount : w.confirmationCount = v.confirmationCount :=
      congrArg Lockout.confirmationCount hlockout
    exact hcount ▸ h.noRollBack.weight_le o ho w hw (hwslot.trans hslot)
  · intro o ho hgone v hv hlt
    obtain ⟨w, hw, hlockout⟩ := hmem v hv
    have hgone' : ∀ w ∈ new, w.slot ≠ o.slot := by
      intro w hw
      obtain ⟨v, hv, hlockout⟩ := hmem' w hw
      have hslot : v.slot = w.slot := congrArg Lockout.slot hlockout
      exact hslot ▸ hgone v hv
    have hslot : w.slot = v.slot := congrArg Lockout.slot hlockout
    have hexp := h.noRollBack.expired o ho hgone' w hw
    rw [hslot] at hexp
    exact hexp hlt

@[simp] theorem setLatency_lockout (currentSlot : Nat) (v : LandedVote) :
    (setLatency currentSlot v).lockout = v.lockout := by
  unfold setLatency
  split <;> rfl

theorem checkNewState_ok_iff (h : Tower root s.votes) :
    (∃ checked, checkNewState s newState newRoot currentSlot = .ok checked) ↔
      Accepted s newState newRoot := by
  obtain ⟨k, hrooted, hdrop⟩ := rootCurrentVotes_eq h newRoot
  have hsorted : (s.votes.filter (fun v => !reachedBy newRoot v)).Pairwise
      (fun a b => a.slot < b.slot) := h.slots_lt.filter _
  simp only [checkNewState, guard_eq_ok_iff, check_bind_eq_ok_iff, checkNewRoot_ok_iff,
    checkNewVotes_ok_iff, hrooted, ok_bind, hdrop, exists_and_left, exists_ok_bind_pure_iff,
    List.isEmpty_iff, Option.toList_none, List.nil_append]
  constructor
  · intro ⟨hne, hlen, hroot, ⟨hok, hfollows⟩, hmerge⟩
    have htower : Tower newRoot newState := ⟨Nat.not_lt.mp hlen, hfollows, hok⟩
    exact ⟨hne, htower, hroot, (mergeVotes_ok_iff hsorted htower.slots_lt).mp hmerge⟩
  · intro hacc
    exact ⟨hacc.nonempty, Nat.not_lt.mpr hacc.tower.length_le, hacc.root_le,
      ⟨hacc.tower.ok, hacc.tower.follows⟩,
      (mergeVotes_ok_iff hsorted hacc.tower.slots_lt).mpr hacc.noRollBack⟩

/-- What is stored: the proposed lockouts, and the credits of the current votes
    that the new root reaches. -/
theorem checkNewState_stored (h : Tower root s.votes)
    (hchecked : checkNewState s newState newRoot currentSlot = .ok checked) :
    checked.1.map lockout = newState.map lockout ∧
      checked.2 = totalCredits (s.votes.filter (reachedBy newRoot)) := by
  obtain ⟨k, hrooted, hdrop⟩ := rootCurrentVotes_eq h newRoot
  simp only [checkNewState, guard_eq_ok_iff, hrooted, ok_bind, bind_eq_ok_iff] at hchecked
  obtain ⟨-, -, -, -, -, -, merged, hmerged, hpure⟩ := hchecked
  cases hpure
  refine ⟨?_, rfl⟩
  rw [← mergeVotes_lockouts hmerged, map_map]
  apply map_congr_left
  intro v _
  exact setLatency_lockout currentSlot v

theorem VoteM.check_eq_ok_iff {x : Except Stop α} {a : α} :
    VoteM.check x s = .ok a s' ↔ x = .ok a ∧ s = s' := by
  cases x with
  | ok b =>
    constructor
    · intro h
      cases h
      exact ⟨rfl, rfl⟩
    · intro ⟨h, hs⟩
      cases h
      cases hs
      rfl
  | error e => exact ⟨fun h => (nomatch h), fun h => (nomatch h.1)⟩

theorem processTimestamp_ok {timestamp : Int}
    (h : VoteState.processTimestamp slot timestamp s = .ok () s') :
    ∃ stamp, s' = { s with lastTimestamp := stamp } := by
  unfold VoteState.processTimestamp at h
  split at h
  · cases h
  · cases h
    exact ⟨_, rfl⟩

theorem stampAt_ok {slot : Option Nat} {missing : Stop}
    (h : stampAt slot missing timestamp s = .ok () s') :
    ∃ stamp, s' = { s with lastTimestamp := stamp } := by
  cases timestamp with
  | none =>
    cases h
    exact ⟨s.lastTimestamp, rfl⟩
  | some timestamp =>
    cases slot with
    | none => cases h
    | some slot => exact processTimestamp_ok h

theorem processNewVoteState_ok
    (h : processNewVoteState newState newRoot timestamp epoch currentSlot s = .ok () s') :
    ∃ checked stamp, checkNewState s newState newRoot currentSlot = .ok checked ∧
      s' = { s.awardCredits newRoot epoch checked.2 with
        rootSlot := newRoot, votes := checked.1, lastTimestamp := stamp } := by
  obtain ⟨_, _, hget, h⟩ := run_bind_eq_ok_iff.mp h
  cases hget
  obtain ⟨checked, _, hcheck, h⟩ := run_bind_eq_ok_iff.mp h
  obtain ⟨hchecked, rfl⟩ := VoteM.check_eq_ok_iff.mp hcheck
  obtain ⟨_, _, haward, h⟩ := run_bind_eq_ok_iff.mp h
  cases haward
  obtain ⟨_, _, hstamp, h⟩ := run_bind_eq_ok_iff.mp h
  obtain ⟨stamp, rfl⟩ := stampAt_ok hstamp
  cases h
  exact ⟨checked, stamp, hchecked, rfl⟩

/-- Without a timestamp nothing can fail after the checks. -/
theorem processNewVoteState_of_checked
    (h : checkNewState s newState newRoot currentSlot = .ok checked) :
    processNewVoteState newState newRoot none epoch currentSlot s =
      .ok () { s.awardCredits newRoot epoch checked.2 with
        rootSlot := newRoot, votes := checked.1 } := by
  have hcheck : VoteM.check (checkNewState s newState newRoot currentSlot) s = .ok checked s :=
    VoteM.check_eq_ok_iff.mpr ⟨h, rfl⟩
  apply run_bind_eq_ok_iff.mpr
  refine ⟨s, s, rfl, run_bind_eq_ok_iff.mpr ⟨checked, s, hcheck, rfl⟩⟩

/-- What a call that replaced the tower of `s` has left in `s'`. -/
structure Replaced (s s' : VoteState) (epoch : Nat) : Prop where
  accepted : Accepted s s'.votes s'.rootSlot
  credits : s'.epochCredits =
    (s.awardCredits s'.rootSlot epoch
      (totalCredits (s.votes.filter (reachedBy s'.rootSlot)))).epochCredits

theorem replaceTower_ok {slotHashes : List SlotHash} {lockouts : List Lockout}
    {hash : Hash} (hs : Tower s.rootSlot s.votes)
    (h : replaceTower slotHashes epoch slot lockouts root hash timestamp s = .ok () s') :
    Replaced s s' epoch ∧
      checkAndFilterProposedVoteState s lockouts root hash slotHashes =
        .ok (s'.votes.map lockout, s'.rootSlot) := by
  obtain ⟨_, _, hget, h⟩ := run_bind_eq_ok_iff.mp h
  cases hget
  obtain ⟨proposal, _, hcheck, h⟩ := run_bind_eq_ok_iff.mp h
  obtain ⟨hproposal, rfl⟩ := VoteM.check_eq_ok_iff.mp hcheck
  obtain ⟨checked, stamp, hchecked, rfl⟩ := processNewVoteState_ok h
  obtain ⟨hlockouts, hcredits⟩ := checkNewState_stored hs hchecked
  have haccepted := (checkNewState_ok_iff hs).mp ⟨checked, hchecked⟩
  refine ⟨⟨haccepted.congr hlockouts, ?_⟩, ?_⟩
  · rw [← hcredits]
  · rw [hproposal, hlockouts, map_map]
    show _ = Except.ok (proposal.1.map id, proposal.2)
    rw [map_id]

end Agave.VoteProgram

