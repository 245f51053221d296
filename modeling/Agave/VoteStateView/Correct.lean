/-
  Agave.VoteStateView.Correct

  A view of a serialized vote state returns the fields of the vote state, and a
  view of any data stays inside of it.

  Serialization and frame go over the fields in the same order, so that each
  section of the one ends where an offset of the other says.
-/

import Agave.VoteStateView.Agreement

namespace Agave.VoteView

open Lib VoteStateFrameBeforeV4 List

/-! ## Vote states -/

/-- The fields that a view should return. -/
def VoteStateBeforeV4.fields {Vote : Type} (lockout : Vote → Lockout)
    (state : VoteStateBeforeV4 Vote) : Fields where
  nodePubkey := state.nodePubkey
  commission := .percent state.commission
  votes := state.votes.map lockout
  rootSlot := state.rootSlot
  authorizedVoters := state.authorizedVoters.entries
  epochCredits := state.epochCredits
  lastTimestamp := state.lastTimestamp
  simd185 := none

def VoteStateV4.fields (state : VoteStateV4) : Fields where
  nodePubkey := state.nodePubkey
  commission := .bps state.inflationRewardsCommissionBps
  votes := state.votes.map LandedVote.lockout
  rootSlot := state.rootSlot
  authorizedVoters := state.authorizedVoters.entries
  epochCredits := state.epochCredits
  lastTimestamp := state.lastTimestamp
  simd185 := some
    { inflationRewardsCollector := state.inflationRewardsCollector
      blockRevenueCollector := state.blockRevenueCollector
      blockRevenueCommissionBps := state.blockRevenueCommissionBps
      pendingDelegatorRewards := state.pendingDelegatorRewards
      blsPubkeyCompressed := state.blsPubkeyCompressed }

namespace VoteStateVersions

def fields : VoteStateVersions → Fields
  | v1_14_11 state => state.fields id
  | v3 state => state.fields LandedVote.lockout
  | v4 state => state.fields

def authorizedVoters : VoteStateVersions → AuthorizedVoters
  | v1_14_11 state => state.authorizedVoters
  | v3 state => state.authorizedVoters
  | v4 state => state.authorizedVoters

/-- The sequences are as short as their frames can say. -/
def Fits (state : VoteStateVersions) : Prop :=
  state.fields.votes.length ≤ 255 ∧ state.fields.authorizedVoters.length ≤ 255 ∧
    state.fields.epochCredits.length ≤ 255

end VoteStateVersions

/-! ## Sections and frames -/

variable {data : List UInt8} {votes : ListKind Lockout} {fields : Fields} {Vote : Type}
  (state : VoteStateVersions) {lockout : Vote → Lockout} {layout : Layout Vote}

section

variable {α β : Type} {kind : ListKind α} {layout : Layout β} {f : β → α} {items : List β}
  {offset : Nat} {rest : List UInt8}

theorem toNat_ofNat_length (hle : items.length ≤ 255) :
    (UInt8.ofNat items.length).toNat = items.length := by
  rw [UInt8.toNat_ofNat']
  omega

theorem totalSize_list (hsize : kind.itemSize = layout.size) (hle : items.length ≤ 255) :
    (serializeList layout items).length =
      (⟨UInt8.ofNat items.length⟩ : ListFrame kind).totalSize := by
  rw [serializeList, length_append, length_leBytes, layout.length_encodeAll,
    ListFrame.totalSize, ListFrame.totalItemSize, toNat_ofNat_length hle, hsize]

theorem totalSize_option (value : Option β) :
    (serializeOption layout value).length =
      (⟨value.isSome⟩ : OptionFrame layout.size).totalSize := by
  rw [serializeOption, length_append, OptionFrame.totalSize, OptionFrame.size]
  cases value with
  | none => rfl
  | some a =>
    rw [Option.isSome_some, if_pos rfl]
    exact congrArg (1 + ·) (layout.length_encode a)

theorem at_serializeList :
    At data offset (serializeList layout items) ↔
      At data offset (leBytes 8 items.length) ∧ At data (offset + 8) (layout.encodeAll items) := by
  rw [serializeList, at_append, length_leBytes]

/-- A serialized sequence, with its frame, and what comes after it. -/
theorem split_serializeList (hstores : kind.Stores layout f)
    (hle : items.length ≤ 255) (hat : At data offset (serializeList layout items ++ rest)) :
    At data offset (leBytes 8 (UInt8.ofNat items.length).toNat) ∧
    HoldsList data offset (⟨UInt8.ofNat items.length⟩ : ListFrame kind) (items.map f) ∧
    At data (offset + (⟨UInt8.ofNat items.length⟩ : ListFrame kind).totalSize) rest := by
  obtain ⟨hlist, hrest⟩ := at_append.mp hat
  obtain ⟨hlen, hitems⟩ := at_serializeList.mp hlist
  rw [totalSize_list hstores.size hle] at hrest
  rw [toNat_ofNat_length hle]
  exact ⟨hlen, holdsList_of_at hstores (toNat_ofNat_length hle) hitems, hrest⟩

/-- A serialized optional value, with its frame, and what comes after it. -/
theorem split_serializeOption {value : Option β}
    (hat : At data offset (serializeOption layout value ++ rest)) :
    At data offset [flagByte value.isSome] ∧
    HoldsOption data offset layout ⟨value.isSome⟩ value ∧
    At data (offset + (⟨value.isSome⟩ : OptionFrame layout.size).totalSize) rest := by
  obtain ⟨hoption, hrest⟩ := at_append.mp hat
  obtain ⟨hflag, hvalue⟩ := at_append.mp hoption
  rw [totalSize_option] at hrest
  exact ⟨hflag, ⟨rfl, hvalue⟩, hrest⟩

end

/-! ## The versions before the fourth -/

/-- The fields stand in the data where a frame of an older version says. -/
structure VoteStateFrameBeforeV4.HoldsFields {votes : ListKind Lockout}
    (frame : VoteStateFrameBeforeV4 votes) (data : List UInt8) (fields : Fields) : Prop where
  nodePubkey : At data nodePubkeyOffset (Layouts.pubkey.encode fields.nodePubkey)
  useBps : false = fields.commission.useBps
  commission : At data commissionOffset fields.commission.encode
  votes : HoldsList data votesOffset frame.votesFrame fields.votes
  rootSlot : HoldsOption data frame.rootSlotOffset Layouts.u64 frame.rootSlotFrame fields.rootSlot
  authorizedVoters : HoldsList data frame.authorizedVotersOffset frame.authorizedVotersFrame
    fields.authorizedVoters
  epochCredits : HoldsList data frame.epochCreditsOffset frame.epochCreditsFrame
    fields.epochCredits
  lastTimestamp : At data frame.lastTimestampOffset
    (Layouts.blockTimestamp.encode fields.lastTimestamp)
  simd185 : fields.simd185 = none

theorem holds_v1_14_11 {frame : VoteStateFrameV1_14_11}
    (h : frame.HoldsFields data fields) : Holds (.v1_14_11 frame) data fields :=
  ⟨h.nodePubkey, h.useBps, h.commission, h.votes, h.rootSlot, h.authorizedVoters, h.epochCredits,
    h.lastTimestamp, h.simd185⟩

theorem holds_v3 {frame : VoteStateFrameV3} (h : frame.HoldsFields data fields) :
    Holds (.v3 frame) data fields :=
  ⟨h.nodePubkey, h.useBps, h.commission, h.votes, h.rootSlot, h.authorizedVoters, h.epochCredits,
    h.lastTimestamp, h.simd185⟩

/-- The frame of a vote state. -/
def VoteStateBeforeV4.frame {Vote : Type} (votes : ListKind Lockout)
    (state : VoteStateBeforeV4 Vote) : VoteStateFrameBeforeV4 votes where
  votesFrame := ⟨UInt8.ofNat state.votes.length⟩
  rootSlotFrame := ⟨state.rootSlot.isSome⟩
  authorizedVotersFrame := ⟨UInt8.ofNat state.authorizedVoters.entries.length⟩
  epochCreditsFrame := ⟨UInt8.ofNat state.epochCredits.length⟩

theorem VoteStateBeforeV4.holds_serialize (hstores : votes.Stores layout lockout)
    {state : VoteStateBeforeV4 Vote} (hvotes : state.votes.length ≤ 255)
    (hvoters : state.authorizedVoters.entries.length ≤ 255)
    (hcredits : state.epochCredits.length ≤ 255) (hat : At data 4 (state.serialize layout)) :
    (state.frame votes).Framed data ∧
    (state.frame votes).HoldsFields data (state.fields lockout) := by
  unfold serialize at hat
  obtain ⟨hnode, hat⟩ := at_append.mp hat
  obtain ⟨-, hat⟩ := at_append.mp hat
  obtain ⟨hcommission, hat⟩ := at_append.mp hat
  obtain ⟨hvotesLen, hvotesItems, hat⟩ := split_serializeList hstores hvotes hat
  obtain ⟨hrootFlag, hrootValue, hat⟩ := split_serializeOption hat
  obtain ⟨hvotersLen, hvotersItems, hat⟩ :=
    split_serializeList authorizedVoterItems_stores hvoters hat
  obtain ⟨-, hat⟩ := at_append.mp hat
  rw [PriorVoters.length_serialize] at hat
  obtain ⟨hcreditsLen, hcreditsItems, hat⟩ :=
    split_serializeList epochCreditsItems_stores hcredits hat
  rw [map_id] at hvotersItems hcreditsItems
  exact ⟨⟨hvotesLen, hrootFlag, hvotersLen, hcreditsLen, hat.le⟩,
    ⟨hnode, rfl, hcommission, hvotesItems, hrootValue, hvotersItems, hcreditsItems, hat, rfl⟩⟩

theorem VoteStateFrameBeforeV4.Framed.exists_holdsFields (hstores : votes.Stores layout lockout)
    {frame : VoteStateFrameBeforeV4 votes} (h : frame.Framed data) :
    ∃ fields, frame.HoldsFields data fields := by
  -- every section ends where the next one starts
  obtain ⟨timestamp, htimestamp⟩ := Layouts.blockTimestamp.exists_at h.room
  obtain ⟨credits, hcredits⟩ := exists_holdsList epochCreditsItems_stores htimestamp.1
  obtain ⟨voters, hvoters⟩ :=
    exists_holdsList authorizedVoterItems_stores (le_of_add_le_left h.epochCredits.1)
  obtain ⟨rootSlot, hroot⟩ := exists_holdsOption Layouts.u64 h.authorizedVoters.1
  obtain ⟨votes, hvotes⟩ := exists_holdsList hstores h.rootSlot.1
  obtain ⟨commission, hcommission⟩ := Layout.uint8.exists_at h.votes.1
  obtain ⟨nodePubkey, hnode⟩ := Layouts.pubkey.exists_at (le_of_add_le_left hcommission.1)
  exact ⟨⟨nodePubkey, .percent commission, votes, rootSlot, voters, credits, timestamp, none⟩,
    ⟨hnode, rfl, hcommission, hvotes, hroot, hvoters, hcredits, htimestamp, rfl⟩⟩

/-! ## The fourth version -/

/-- The frame of a vote state. -/
def VoteStateV4.frame (state : VoteStateV4) : VoteStateFrameV4 where
  blsPubkeyCompressedFrame := ⟨state.blsPubkeyCompressed.isSome⟩
  votesFrame := ⟨UInt8.ofNat state.votes.length⟩
  rootSlotFrame := ⟨state.rootSlot.isSome⟩
  authorizedVotersFrame := ⟨UInt8.ofNat state.authorizedVoters.entries.length⟩
  epochCreditsFrame := ⟨UInt8.ofNat state.epochCredits.length⟩

theorem VoteStateV4.holds_serialize {state : VoteStateV4} (hvotes : state.votes.length ≤ 255)
    (hvoters : state.authorizedVoters.entries.length ≤ 255)
    (hcredits : state.epochCredits.length ≤ 255) (hat : At data 4 state.serialize) :
    state.frame.Framed data ∧ Holds (.v4 state.frame) data state.fields := by
  unfold serialize at hat
  obtain ⟨hnode, hat⟩ := at_append.mp hat
  obtain ⟨-, hat⟩ := at_append.mp hat
  obtain ⟨hinflation, hat⟩ := at_append.mp hat
  obtain ⟨hrevenue, hat⟩ := at_append.mp hat
  obtain ⟨hcommission, hat⟩ := at_append.mp hat
  obtain ⟨hrevenueCommission, hat⟩ := at_append.mp hat
  obtain ⟨hpending, hat⟩ := at_append.mp hat
  obtain ⟨hblsFlag, hblsValue, hat⟩ := split_serializeOption hat
  obtain ⟨hvotesLen, hvotesItems, hat⟩ := split_serializeList landedVoteItems_stores hvotes hat
  obtain ⟨hrootFlag, hrootValue, hat⟩ := split_serializeOption hat
  obtain ⟨hvotersLen, hvotersItems, hat⟩ :=
    split_serializeList authorizedVoterItems_stores hvoters hat
  obtain ⟨hcreditsLen, hcreditsItems, hat⟩ :=
    split_serializeList epochCreditsItems_stores hcredits hat
  rw [map_id] at hvotersItems hcreditsItems
  refine ⟨⟨hblsFlag, hvotesLen, hrootFlag, hvotersLen, hcreditsLen, hat.le⟩,
    ⟨hnode, rfl, hcommission, hvotesItems, hrootValue, hvotersItems, hcreditsItems, hat, ?_⟩⟩
  exact ⟨hinflation, hrevenue, hrevenueCommission, hpending, hblsValue⟩

theorem VoteStateFrameV4.Framed.exists_holds {frame : VoteStateFrameV4} (h : frame.Framed data) :
    ∃ fields, Holds (.v4 frame) data fields := by
  obtain ⟨timestamp, htimestamp⟩ := Layouts.blockTimestamp.exists_at h.room
  obtain ⟨credits, hcredits⟩ := exists_holdsList epochCreditsItems_stores htimestamp.1
  obtain ⟨voters, hvoters⟩ := exists_holdsList authorizedVoterItems_stores h.epochCredits.1
  obtain ⟨rootSlot, hroot⟩ := exists_holdsOption Layouts.u64 h.authorizedVoters.1
  obtain ⟨votes, hvotes⟩ := exists_holdsList landedVoteItems_stores h.rootSlot.1
  obtain ⟨bls, hbls⟩ := exists_holdsOption Layouts.blsPubkeyCompressed h.votes.1
  obtain ⟨pending, hpending⟩ := Layouts.u64.exists_at h.blsPubkeyCompressed.1
  obtain ⟨revenueCommission, hrevenueCommission⟩ := Layouts.u16.exists_at hpending.1
  obtain ⟨commission, hcommission⟩ := Layouts.u16.exists_at hrevenueCommission.1
  obtain ⟨revenue, hrevenue⟩ := Layouts.pubkey.exists_at hcommission.1
  obtain ⟨inflation, hinflation⟩ := Layouts.pubkey.exists_at hrevenue.1
  obtain ⟨nodePubkey, hnode⟩ := Layouts.pubkey.exists_at (le_of_add_le_left hinflation.1)
  exact ⟨⟨nodePubkey, .bps commission, votes, rootSlot, voters, credits, timestamp,
      some ⟨inflation, revenue, revenueCommission, pending, bls⟩⟩,
    ⟨hnode, rfl, hcommission, hvotes, hroot, hvoters, hcredits, htimestamp,
      hinflation, hrevenue, hrevenueCommission, hpending, hbls⟩⟩

/-! ## All versions -/

/-- The version at the start of the data decides about the frame. -/
theorem readCursor_version (version : U32) (hat : At data 0 (leBytes 4 version.val)) :
    readCursor Layouts.u32 data 0 = .ok (version, 4) :=
  readCursor_eq_ok.mpr ⟨hat, rfl⟩

theorem VoteStateVersions.tryNew_serialize (hfits : state.Fits) (trailing : List UInt8) :
    ∃ frame, VoteStateFrame.tryNew (state.serialize ++ trailing) = .ok frame ∧
      Holds frame (state.serialize ++ trailing) state.fields := by
  obtain ⟨hvotes, hvoters, hcredits⟩ := hfits
  have hat := at_zero_append state.serialize trailing
  cases state with
  | v1_14_11 state =>
    obtain ⟨hversion, hstate⟩ := at_append.mp hat
    obtain ⟨hframed, hholds⟩ := VoteStateBeforeV4.holds_serialize lockoutItems_stores
      (by rwa [← length_map]) hvoters hcredits hstate
    refine ⟨.v1_14_11 (state.frame _), ?_, holds_v1_14_11 hholds⟩
    rw [VoteStateFrame.tryNew, readCursor_version 1 hversion, ok_bind]
    show (tryNew lockoutItems _ >>= fun frame => _) = _
    rw [tryNew_eq_ok.mpr hframed]
    rfl
  | v3 state =>
    obtain ⟨hversion, hstate⟩ := at_append.mp hat
    obtain ⟨hframed, hholds⟩ := VoteStateBeforeV4.holds_serialize landedVoteItems_stores
      (by rwa [← length_map]) hvoters hcredits hstate
    refine ⟨.v3 (state.frame _), ?_, holds_v3 hholds⟩
    rw [VoteStateFrame.tryNew, readCursor_version 2 hversion, ok_bind]
    show (tryNew landedVoteItems _ >>= fun frame => _) = _
    rw [tryNew_eq_ok.mpr hframed]
    rfl
  | v4 state =>
    obtain ⟨hversion, hstate⟩ := at_append.mp hat
    obtain ⟨hframed, hholds⟩ := VoteStateV4.holds_serialize
      (by rwa [← length_map]) hvoters hcredits hstate
    refine ⟨.v4 state.frame, ?_, hholds⟩
    rw [VoteStateFrame.tryNew, readCursor_version 3 hversion, ok_bind]
    show (VoteStateFrameV4.tryNew _ >>= fun frame => _) = _
    rw [VoteStateFrameV4.tryNew_eq_ok.mpr hframed]
    rfl

theorem VoteStateFrame.exists_holds {frame : VoteStateFrame} (h : tryNew data = .ok frame) :
    ∃ fields, Holds frame data fields := by
  rw [tryNew] at h
  obtain ⟨⟨version, _⟩, -, h⟩ := bind_eq_ok_iff.mp h
  dsimp only at h
  split at h
  · cases h
  · obtain ⟨frame, hframe, heq⟩ := bind_eq_ok_iff.mp h
    cases heq
    obtain ⟨fields, hholds⟩ :=
      (tryNew_eq_ok.mp hframe).exists_holdsFields lockoutItems_stores
    exact ⟨fields, holds_v1_14_11 hholds⟩
  · obtain ⟨frame, hframe, heq⟩ := bind_eq_ok_iff.mp h
    cases heq
    obtain ⟨fields, hholds⟩ :=
      (tryNew_eq_ok.mp hframe).exists_holdsFields landedVoteItems_stores
    exact ⟨fields, holds_v3 hholds⟩
  · obtain ⟨frame, hframe, heq⟩ := bind_eq_ok_iff.mp h
    cases heq
    exact (VoteStateFrameV4.tryNew_eq_ok.mp hframe).exists_holds
  · cases h

theorem VoteStateVersions.fields_authorizedVoters :
    state.fields.authorizedVoters = state.authorizedVoters.entries := by
  cases state <;> rfl

/-- The authorized voter of an epoch is that of the greatest epoch stored up to it. -/
theorem VoteStateVersions.fields_authorizedVoter (epoch : U64)
    (voter : Pubkey) : state.fields.authorizedVoter epoch = some voter ↔
      ∃ stored, state.authorizedVoters.get? stored = some voter ∧ stored ≤ epoch ∧
        ∀ other ∈ state.authorizedVoters.keys, other ≤ epoch → other ≤ stored := by
  rw [Fields.authorizedVoter, state.fields_authorizedVoters, Option.map_eq_some_iff]
  constructor
  · rintro ⟨⟨stored, voter'⟩, hfind, rfl⟩
    exact ⟨stored, BTreeMap.find?_reverse_le_eq_some_iff.mp hfind⟩
  · rintro ⟨stored, hstored⟩
    exact ⟨(stored, voter), BTreeMap.find?_reverse_le_eq_some_iff.mpr hstored, rfl⟩

/-- Views agree with the vote states they are made of.  Over the serialization of a vote state, with
    anything behind it, there is a view, and its accessors return the fields of the vote state; and
    whatever data there is a view of, no accessor leaves it. -/
theorem vote_state_view_agrees :
    (∀ (state : VoteStateVersions) (trailing : List UInt8), state.Fits →
      ∃ view, VoteStateView.tryNew (state.serialize ++ trailing) = .ok view ∧
        view.Returns state.fields ∧
        ∀ epoch, ∃ found, view.getAuthorizedVoter epoch = some found ∧
          ∀ voter, found = some voter ↔
            ∃ stored, state.authorizedVoters.get? stored = some voter ∧ stored ≤ epoch ∧
              ∀ other ∈ state.authorizedVoters.keys, other ≤ epoch → other ≤ stored) ∧
    (∀ (data : List UInt8) (view : VoteStateView), VoteStateView.tryNew data = .ok view →
      view.data = data ∧ ∃ fields, view.Returns fields) := by
  constructor
  · intro state trailing hfits
    obtain ⟨frame, hframe, hholds⟩ := state.tryNew_serialize hfits trailing
    have hreturns := hholds.returns
    refine ⟨⟨_, frame⟩, ?_, hreturns, fun epoch => ?_⟩
    · rw [VoteStateView.tryNew, hframe]
      rfl
    · exact ⟨_, hreturns.authorizedVoter epoch, state.fields_authorizedVoter epoch⟩
  · intro data view h
    obtain ⟨frame, hframe, heq⟩ := bind_eq_ok_iff.mp h
    cases heq
    obtain ⟨fields, hholds⟩ := VoteStateFrame.exists_holds hframe
    exact ⟨rfl, fields, hholds.returns⟩

/-- A vote state with two authorized voters: in between their epochs it is the first one's turn. -/
theorem vote_state_view_agrees_two_voters :
    let state : VoteStateVersions := .v4
      { nodePubkey := Pubkey.ofNat 1
        authorizedWithdrawer := Pubkey.ofNat 2
        inflationRewardsCollector := Pubkey.ofNat 3
        blockRevenueCollector := Pubkey.ofNat 4
        inflationRewardsCommissionBps := 550
        blockRevenueCommissionBps := 10000
        pendingDelegatorRewards := 7
        blsPubkeyCompressed := none
        votes := [⟨1, 100, 2⟩, ⟨2, 101, 1⟩]
        rootSlot := some 99
        authorizedVoters := ⟨[(3, Pubkey.ofNat 5), (6, Pubkey.ofNat 6)], by decide⟩
        epochCredits := [⟨3, 40, 20⟩]
        lastTimestamp := ⟨101, -1⟩ }
    ∃ view, VoteStateView.tryNew (state.serialize ++ [0, 0]) = .ok view ∧
      view.commission = some 5 ∧ view.lastVotedSlot = some (some 101) ∧
      view.getAuthorizedVoter 5 = some (some (Pubkey.ofNat 5)) := by
  intro state
  obtain ⟨view, hview, hreturns, -⟩ :=
    vote_state_view_agrees.1 state [0, 0] ⟨by decide, by decide, by decide⟩
  exact ⟨view, hview, hreturns.commission, hreturns.lastVotedSlot, hreturns.authorizedVoter 5⟩

end Agave.VoteView


