/-
  Agave.VoteStateView.Agreement

  What a view returns.

  `Holds` says which values stand in the data where a frame puts them.  The
  accessors depend on nothing else.  The serialization of a vote state holds
  its fields, and whatever data a view was made of holds some fields.
-/

import Agave.VoteStateView.View

namespace Agave.VoteView

open Lib List VoteStateView VoteView.Layouts

/-- A commission, in the unit of its version. -/
inductive Commission where
  | percent (commission : UInt8)
  | bps (commission : U16)

namespace Commission

def useBps : Commission → Bool
  | percent _ => false
  | bps _ => true

def encode : Commission → List UInt8
  | percent commission => Layout.uint8.encode commission
  | bps commission => Layouts.u16.encode commission

/-- Whole percents, as many as a byte can hold. -/
def toPercent : Commission → UInt8
  | percent commission => commission
  | bps commission => UInt8.ofNat (min (commission.val / 100) 255)

def toBps : Commission → U16
  | percent commission => Fin.ofNat _ (100 * commission.toNat)
  | bps commission => commission

end Commission

/-- The fields of the fourth version that the others do not have. -/
structure Simd185Fields where
  inflationRewardsCollector : Pubkey
  blockRevenueCollector : Pubkey
  blockRevenueCommissionBps : U16
  pendingDelegatorRewards : U64
  blsPubkeyCompressed : Option BlsPubkeyCompressed

/-- The fields of a vote state that a view reads. -/
structure Fields where
  nodePubkey : Pubkey
  commission : Commission
  votes : List Lockout
  rootSlot : Option U64
  authorizedVoters : List (U64 × Pubkey)
  epochCredits : List EpochCredits
  lastTimestamp : BlockTimestamp
  simd185 : Option Simd185Fields

/-- The last voter whose epoch has begun. -/
def Fields.authorizedVoter (fields : Fields) (epoch : U64) : Option Pubkey :=
  (fields.authorizedVoters.reverse.find? (fun entry => entry.1 ≤ epoch)).map Prod.snd

/-- The accessors of a view return what the fields say, and none of their reads leaves the data. -/
structure VoteStateView.Returns (view : VoteStateView) (fields : Fields) : Prop where
  nodePubkey : view.nodePubkey = some fields.nodePubkey
  commission : view.commission = some fields.commission.toPercent
  inflationRewardsCommission :
    view.inflationRewardsCommission = some fields.commission.toBps
  votesIter : view.votesIter = some fields.votes
  votesLen : view.votesLen = some fields.votes.length
  lastLockout : view.lastLockout = some fields.votes.getLast?
  lastVotedSlot : view.lastVotedSlot = some (fields.votes.getLast?.map Lockout.slot)
  rootSlot : view.rootSlot = some fields.rootSlot
  authorizedVoter : ∀ epoch, view.getAuthorizedVoter epoch = some (fields.authorizedVoter epoch)
  epochCreditsIter : view.epochCreditsIter = some fields.epochCredits
  numEpochCredits : view.numEpochCredits = some fields.epochCredits.length
  credits : view.credits =
    some ((fields.epochCredits.getLast?.map EpochCredits.credits).getD 0)
  lastTimestamp : view.lastTimestamp = some fields.lastTimestamp
  inflationRewardsCollector : view.inflationRewardsCollector =
    some (fields.simd185.map Simd185Fields.inflationRewardsCollector)
  blockRevenueCollector : view.blockRevenueCollector =
    some (fields.simd185.map Simd185Fields.blockRevenueCollector)
  blockRevenueCommission : view.blockRevenueCommission =
    some ((fields.simd185.map Simd185Fields.blockRevenueCommissionBps).getD 10000)
  pendingDelegatorRewards : view.pendingDelegatorRewards =
    some ((fields.simd185.map Simd185Fields.pendingDelegatorRewards).getD 0)
  blsPubkeyCompressed : view.blsPubkeyCompressed =
    some (fields.simd185.bind Simd185Fields.blsPubkeyCompressed)

/-! ## Sequences and optional values -/

/-- How the items that a kind reads are stored. -/
structure ListKind.Stores {α β : Type} (kind : ListKind α) (layout : Layout β) (f : β → α) :
    Prop where
  size : kind.itemSize = layout.size
  pos : 0 < layout.size
  read : ∀ b, kind.readItem (layout.encode b) = some (f b)

variable {α : Type}

theorem readAt_encode (layout : Layout α) (a : α) :
    layout.readAt (layout.encode a) 0 = some a :=
  layout.readAt_eq_some.mpr ⟨Nat.zero_le _, prefix_refl _⟩

theorem lockoutItems_stores : lockoutItems.Stores lockout id where
  size := rfl
  pos := by decide
  read := readAt_encode lockout

theorem landedVoteItems_stores : landedVoteItems.Stores landedVote LandedVote.lockout where
  size := rfl
  pos := by decide
  read vote := by
    show lockout.readAt (landedVote.encode vote) 1 = _
    refine lockout.readAt_eq_some.mpr ?_
    have hat : At (landedVote.encode vote) 0
        (Layout.uint8.encode vote.latency ++ lockout.encode vote.lockout) :=
      ⟨Nat.zero_le _, prefix_refl _⟩
    exact (at_append.mp hat).2

theorem authorizedVoterItems_stores : authorizedVoterItems.Stores authorizedVoter id where
  size := rfl
  pos := by decide
  read := readAt_encode authorizedVoter

theorem epochCreditsItems_stores : epochCreditsItems.Stores epochCredits id where
  size := rfl
  pos := by decide
  read := readAt_encode epochCredits

/-- The items of a sequence stand after its length. -/
def HoldsList {α : Type} {kind : ListKind α} (data : List UInt8) (offset : Nat)
    (frame : ListFrame kind) (items : List α) : Prop :=
  ∃ (β : Type) (layout : Layout β) (f : β → α) (stored : List β), kind.Stores layout f ∧
    frame.len.toNat = stored.length ∧ At data (offset + 8) (layout.encodeAll stored) ∧
    items = stored.map f

/-- An optional value stands after its flag. -/
def HoldsOption {α : Type} (data : List UInt8) (offset : Nat) (layout : Layout α)
    (frame : OptionFrame layout.size) (value : Option α) : Prop :=
  frame.isPresent = value.isSome ∧ At data (offset + 1) (serializeSome layout value)

variable {buffer data : List UInt8} {offset : Nat} {layout : Layout α}

section

variable {α β : Type} {kind : ListKind α} {layout : Layout β} {f : β → α} {frame : ListFrame kind}
  {items : List α} {stored : List β}

theorem holdsList_of_at (hstores : kind.Stores layout f) (hlen : frame.len.toNat = stored.length)
    (hat : At data (offset + 8) (layout.encodeAll stored)) :
    HoldsList data offset frame (stored.map f) :=
  ⟨β, layout, f, stored, hstores, hlen, hat, rfl⟩

theorem exists_holdsList (hstores : kind.Stores layout f)
    (hroom : offset + frame.totalSize ≤ data.length) :
    ∃ items, HoldsList data offset frame items := by
  have hread : ∃ stored, layout.readArrayAt data (offset + 8) frame.len.toNat = some stored := by
    refine layout.exists_readArrayAt ?_
    rw [ListFrame.totalSize, ListFrame.totalItemSize, hstores.size] at hroom
    omega
  obtain ⟨stored, hstored⟩ := hread
  obtain ⟨hlength, hat⟩ := layout.readArrayAt_eq_some.mp hstored
  exact ⟨_, holdsList_of_at hstores hlength.symm hat⟩

theorem sliceFrom_of_at {bytes piece : List UInt8} {start n : Nat}
    (h : At bytes (start + n) piece) : sliceFrom bytes start = some (bytes.drop start) := by
  have hle := h.le
  exact if_pos (by omega)

section

variable (hstores : kind.Stores layout f) (hlen : frame.len.toNat = stored.length)
  (hat : At buffer 0 (layout.encodeAll stored))
include hstores hlen hat

theorem ListView.item_of_stored {index : Nat} (hindex : index < stored.length) :
    (ListView.mk frame buffer).item index = some (some (f stored[index])) := by
  have hitem := layout.at_getElem hat hindex
  rw [Nat.zero_add, ← hstores.size] at hitem
  rw [item, if_neg (by rw [len, hlen]; omega)]
  dsimp only
  rw [slice_of_at hitem (by rw [layout.length_encode, hstores.size])]
  show (kind.readItem (layout.encode stored[index]) >>= fun item => some (some item)) = _
  rw [hstores.read]
  rfl

theorem ListView.last_of_stored :
    (ListView.mk frame buffer).last = some (stored.map f).getLast? := by
  rw [last, len, hlen]
  by_cases hzero : stored.length = 0
  · rw [if_pos hzero, length_eq_zero_iff.mp hzero]
    rfl
  · rw [if_neg hzero, item_of_stored hstores hlen hat (by omega), getLast?_eq_getElem?,
      length_map, getElem?_map, getElem?_eq_getElem (by omega)]
    rfl

theorem ListView.intoIter_of_stored :
    (ListView.mk frame buffer).intoIter = some (stored.map layout.encode) := by
  have hslice : slice buffer 0 (stored.length * kind.itemSize) = some (layout.encodeAll stored) :=
    slice_of_at hat (by rw [layout.length_encodeAll, hstores.size, Nat.zero_add])
  rw [intoIter, len, hlen]
  dsimp only
  rw [hslice, hstores.size]
  exact congrArg some (chunksExact_encodeAll layout hstores.pos stored)

end

theorem mapM_readItem (hstores : kind.Stores layout f) (stored : List β) :
    (stored.map layout.encode).mapM kind.readItem = some (stored.map f) := by
  induction stored with
  | nil => rfl
  | cons b stored ih =>
    rw [map_cons, mapM_cons, hstores.read, ih]
    rfl

/-- The view of a sequence has the items that stand in the data. -/
theorem listView_of_at {view : VoteStateView} {field : Field} (frame : ListFrame kind)
    (hat : At view.data (view.frame.offset field + 8) (layout.encodeAll stored)) :
    ∃ buffer, view.listView field frame = some ⟨frame, buffer⟩ ∧
      At buffer 0 (layout.encodeAll stored) := by
  have hle := hat.le
  have hbuffer : sliceFrom (view.data.drop (view.frame.offset field)) 8 =
      some ((view.data.drop (view.frame.offset field)).drop 8) := by
    refine if_pos ?_
    rw [length_drop]
    omega
  refine ⟨(view.data.drop (view.frame.offset field)).drop 8, ?_, ?_⟩
  · rw [listView, sliceFrom_of_at hat]
    show ListView.new frame _ = _
    rw [ListView.new, hbuffer]
    rfl
  · rw [drop_drop, at_drop (by omega)]
    exact hat

theorem listView_of_holds (view : VoteStateView) (field : Field)
    (h : HoldsList view.data (view.frame.offset field) frame items) :
    ∃ listView, view.listView field frame = some listView ∧ listView.items = some items ∧
      listView.len = items.length ∧ listView.last = some items.getLast? := by
  obtain ⟨β, layout, f, stored, hstores, hlen, hat, rfl⟩ := h
  obtain ⟨buffer, hview, hitems⟩ := listView_of_at frame hat
  refine ⟨⟨frame, buffer⟩, hview, ?_, ?_, ListView.last_of_stored hstores hlen hitems⟩
  · rw [ListView.items, ListView.intoIter_of_stored hstores hlen hitems]
    exact mapM_readItem hstores stored
  · rw [length_map]
    exact hlen

end

/-- The loop over the voters stops at the first whose epoch has begun. -/
theorem findAuthorizedVoter_eq {β : Type} {layout : Layout β} {f : β → U64 × Pubkey}
    (hstores : authorizedVoterItems.Stores layout f) (epoch : U64) (stored : List β) :
    findAuthorizedVoter epoch (stored.map layout.encode) =
      some (((stored.map f).find? (fun entry => entry.1 ≤ epoch)).map Prod.snd) := by
  induction stored with
  | nil => rfl
  | cons b stored ih =>
    rw [map_cons, findAuthorizedVoter, hstores.read, map_cons, find?_cons]
    show (if (f b).1 ≤ epoch then some (some (f b).2) else _) = _
    by_cases hepoch : (f b).1 ≤ epoch
    · rw [if_pos hepoch, decide_eq_true hepoch]
      rfl
    · rw [if_neg hepoch, decide_eq_false hepoch]
      exact ih

theorem getAuthorizedVoter_of_holds (view : VoteStateView) {voters : List (U64 × Pubkey)}
    (h : HoldsList view.data (view.frame.offset .authorizedVoters)
      view.frame.authorizedVotersFrame voters) (epoch : U64) :
    view.getAuthorizedVoter epoch =
      some ((voters.reverse.find? (fun entry => entry.1 ≤ epoch)).map Prod.snd) := by
  obtain ⟨β, layout, f, stored, hstores, hlen, hat, rfl⟩ := h
  obtain ⟨buffer, hview, hitems⟩ := listView_of_at view.frame.authorizedVotersFrame hat
  rw [getAuthorizedVoter, authorizedVotersView, hview]
  show ListView.getAuthorizedVoter _ epoch = _
  rw [ListView.getAuthorizedVoter, ListView.intoIter_of_stored hstores hlen hitems]
  show findAuthorizedVoter epoch (stored.map layout.encode).reverse = _
  rw [← map_reverse, findAuthorizedVoter_eq hstores, map_reverse]

theorem readOption_of_holds {frame : OptionFrame layout.size} {value : Option α}
    (h : HoldsOption data offset layout frame value) :
    (sliceFrom data offset >>= readOption layout frame) = some value := by
  obtain ⟨hflag, hat⟩ := h
  have hle := hat.le
  rw [sliceFrom_of_at hat]
  show readOption layout frame (data.drop offset) = some value
  rw [readOption, hflag]
  cases value with
  | none => rfl
  | some a =>
    have hread : layout.readAt (data.drop offset) 1 = some a := by
      rw [layout.readAt_eq_some, at_drop (by omega)]
      exact hat
    rw [Option.isSome_some, if_pos rfl, hread]
    rfl

theorem exists_holdsOption (layout : Layout α)
    {frame : OptionFrame layout.size} (hroom : offset + frame.totalSize ≤ data.length) :
    ∃ value, HoldsOption data offset layout frame value := by
  rw [OptionFrame.totalSize, OptionFrame.size] at hroom
  cases hpresent : frame.isPresent with
  | false =>
    rw [hpresent] at hroom
    exact ⟨none, hpresent, at_nil.mpr (by omega)⟩
  | true =>
    rw [hpresent, if_pos rfl] at hroom
    obtain ⟨a, ha⟩ := layout.exists_at (show offset + 1 + layout.size ≤ data.length by omega)
    exact ⟨some a, hpresent, ha⟩

/-! ## The fields of the data -/

/-- The fields of the fourth version stand where its frame says, and the other frames have none. -/
def HoldsSimd185 (data : List UInt8) : VoteStateFrame → Option Simd185Fields → Prop
  | .v4 frame, some fields =>
    At data VoteStateFrameV4.inflationRewardsCollectorOffset
      (Layouts.pubkey.encode fields.inflationRewardsCollector) ∧
    At data VoteStateFrameV4.blockRevenueCollectorOffset
      (Layouts.pubkey.encode fields.blockRevenueCollector) ∧
    At data VoteStateFrameV4.blockRevenueCommissionOffset
      (Layouts.u16.encode fields.blockRevenueCommissionBps) ∧
    At data VoteStateFrameV4.pendingDelegatorRewardsOffset
      (Layouts.u64.encode fields.pendingDelegatorRewards) ∧
    HoldsOption data VoteStateFrameV4.blsPubkeyCompressedOffset Layouts.blsPubkeyCompressed
      frame.blsPubkeyCompressedFrame fields.blsPubkeyCompressed
  | .v4 _, none => False
  | _, fields => fields = none

/-- The fields stand in the data where the frame says. -/
structure Holds (frame : VoteStateFrame) (data : List UInt8) (fields : Fields) : Prop where
  nodePubkey : At data (frame.offset .nodePubkey) (Layouts.pubkey.encode fields.nodePubkey)
  useBps : frame.commissionUsesBps = fields.commission.useBps
  commission : At data (frame.offset .commission) fields.commission.encode
  votes : HoldsList data (frame.offset .votes) frame.votesFrame.2 fields.votes
  rootSlot : HoldsOption data (frame.offset .rootSlot) Layouts.u64 frame.rootSlotFrame
    fields.rootSlot
  authorizedVoters : HoldsList data (frame.offset .authorizedVoters) frame.authorizedVotersFrame
    fields.authorizedVoters
  epochCredits : HoldsList data (frame.offset .epochCredits) frame.epochCreditsFrame
    fields.epochCredits
  lastTimestamp : At data (frame.offset .lastTimestamp)
    (Layouts.blockTimestamp.encode fields.lastTimestamp)
  simd185 : HoldsSimd185 data frame fields.simd185

/-- A value that stands at the start of a slice. -/
theorem readAt_sliceFrom {a : α} (h : At data offset (layout.encode a)) :
    ∃ buffer, sliceFrom data offset = some buffer ∧ layout.readAt buffer 0 = some a := by
  have hle := h.le
  refine ⟨data.drop offset, if_pos (by omega), ?_⟩
  rw [layout.readAt_eq_some, at_drop (by omega)]
  exact h

section

variable {frame : VoteStateFrame} {fields : Fields}

theorem commission_of_holds (h : Holds frame data fields) :
    (VoteStateView.mk data frame).commission = some fields.commission.toPercent ∧
    (VoteStateView.mk data frame).inflationRewardsCommission = some fields.commission.toBps := by
  have hcommission := h.commission
  unfold commission inflationRewardsCommission
    inflationRewardsCommissionView
  rw [h.useBps]
  cases hunit : fields.commission with
  | percent commission =>
    rw [hunit] at hcommission
    obtain ⟨buffer, hbuffer, hread⟩ := readAt_sliceFrom hcommission
    rw [hbuffer]
    refine ⟨hread, ?_⟩
    show (Layout.uint8.readAt buffer 0 >>= fun percent => _) = _
    rw [hread]
    rfl
  | bps commission =>
    rw [hunit] at hcommission
    obtain ⟨buffer, hbuffer, hread⟩ := readAt_sliceFrom hcommission
    rw [hbuffer]
    refine ⟨?_, hread⟩
    show (Layouts.u16.readAt buffer 0 >>= fun bps => _) = _
    rw [hread]
    rfl

theorem simd185_of_holds (h : HoldsSimd185 data frame fields.simd185) :
    (VoteStateView.mk data frame).inflationRewardsCollector =
      some (fields.simd185.map Simd185Fields.inflationRewardsCollector) ∧
    (VoteStateView.mk data frame).blockRevenueCollector =
      some (fields.simd185.map Simd185Fields.blockRevenueCollector) ∧
    (VoteStateView.mk data frame).blockRevenueCommission =
      some ((fields.simd185.map Simd185Fields.blockRevenueCommissionBps).getD 10000) ∧
    (VoteStateView.mk data frame).pendingDelegatorRewards =
      some ((fields.simd185.map Simd185Fields.pendingDelegatorRewards).getD 0) ∧
    (VoteStateView.mk data frame).blsPubkeyCompressed =
      some (fields.simd185.bind Simd185Fields.blsPubkeyCompressed) := by
  cases frame with
  | v1_14_11 frame =>
    rw [show fields.simd185 = none from h]
    exact ⟨rfl, rfl, rfl, rfl, rfl⟩
  | v3 frame =>
    rw [show fields.simd185 = none from h]
    exact ⟨rfl, rfl, rfl, rfl, rfl⟩
  | v4 frame =>
    cases hfields : fields.simd185 with
    | none =>
      rw [hfields] at h
      exact h.elim
    | some simd185 =>
      rw [hfields] at h
      obtain ⟨hinflation, hrevenue, hcommission, hpending, hbls⟩ := h
      obtain ⟨buffer, hbuffer, hbps⟩ := readAt_sliceFrom hcommission
      obtain ⟨buffer', hbuffer', hrewards⟩ := readAt_sliceFrom hpending
      refine ⟨?_, ?_, ?_, ?_, readOption_of_holds hbls⟩
      · show (Layouts.pubkey.readAt data VoteStateFrameV4.inflationRewardsCollectorOffset >>=
          fun pubkey => _) = _
        rw [Layouts.pubkey.readAt_eq_some.mpr hinflation]
        rfl
      · show (Layouts.pubkey.readAt data VoteStateFrameV4.blockRevenueCollectorOffset >>=
          fun pubkey => _) = _
        rw [Layouts.pubkey.readAt_eq_some.mpr hrevenue]
        rfl
      · show (sliceFrom data VoteStateFrameV4.blockRevenueCommissionOffset >>= _) = _
        rw [hbuffer]
        exact hbps
      · show (sliceFrom data VoteStateFrameV4.pendingDelegatorRewardsOffset >>= _) = _
        rw [hbuffer']
        exact hrewards

/-- The accessors depend on the data only through what it holds. -/
theorem Holds.returns (h : Holds frame data fields) :
    (VoteStateView.mk data frame).Returns fields := by
  obtain ⟨hpercent, hbps⟩ := commission_of_holds h
  obtain ⟨hinflation, hrevenue, hcommission, hpending, hbls⟩ := simd185_of_holds h.simd185
  obtain ⟨votes, hvotes, hvotesItems, hvotesLen, hvotesLast⟩ :=
    listView_of_holds ⟨data, frame⟩ .votes h.votes
  obtain ⟨credits, hcredits, hcreditsItems, hcreditsLen, hcreditsLast⟩ :=
    listView_of_holds ⟨data, frame⟩ .epochCredits h.epochCredits
  obtain ⟨buffer, hbuffer, htimestamp⟩ := readAt_sliceFrom h.lastTimestamp
  have hvotesView : (VoteStateView.mk data frame).votesView = some votes := hvotes
  have hcreditsView : (VoteStateView.mk data frame).epochCreditsView = some credits := hcredits
  exact
    { nodePubkey := Layouts.pubkey.readAt_eq_some.mpr h.nodePubkey
      commission := hpercent
      inflationRewardsCommission := hbps
      votesIter := by rw [votesIter, hvotesView]; exact hvotesItems
      votesLen := by rw [votesLen, hvotesView]; exact congrArg some hvotesLen
      lastLockout := by rw [lastLockout, hvotesView]; exact hvotesLast
      lastVotedSlot := by
        rw [lastVotedSlot, hvotesView]
        show (votes.last >>= fun last => _) = _
        rw [hvotesLast]
        rfl
      rootSlot := readOption_of_holds h.rootSlot
      authorizedVoter := getAuthorizedVoter_of_holds ⟨data, frame⟩ h.authorizedVoters
      epochCreditsIter := by rw [epochCreditsIter, hcreditsView]; exact hcreditsItems
      numEpochCredits := by
        rw [numEpochCredits, hcreditsView]
        exact congrArg some hcreditsLen
      credits := by
        rw [VoteStateView.credits, hcreditsView]
        show (credits.last >>= fun last => _) = _
        rw [hcreditsLast]
        rfl
      lastTimestamp := by rw [VoteStateView.lastTimestamp, hbuffer]; exact htimestamp
      inflationRewardsCollector := hinflation
      blockRevenueCollector := hrevenue
      blockRevenueCommission := hcommission
      pendingDelegatorRewards := hpending
      blsPubkeyCompressed := hbls }

end

end Agave.VoteView

