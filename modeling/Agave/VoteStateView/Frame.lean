/-
  Agave.VoteStateView.Frame

  The frame of a serialized vote state: the lengths and flags of its fields, as
  a cursor finds them, and the offsets they give.

  The cursor may be moved past the end of the data.  A read there fails, and
  the last check is on the position the cursor has come to.
-/

import Agave.VoteStateView.Types

namespace Agave.VoteView

open Lib

inductive VoteStateViewError where
  | accountDataTooSmall
  | invalidVotesLength
  | invalidRootSlotOption
  | invalidBlsPubkeyCompressedOption
  | invalidAuthorizedVotersLength
  | invalidEpochCreditsLength
  | oldVersion
  | unsupportedVersion
deriving DecidableEq

/-- `read_u8`, `read_u32` and `read_u64` of a cursor: the value and the position after it. -/
def readCursor {α : Type} (layout : Layout α) (bytes : List UInt8) (position : Nat) :
    Except VoteStateViewError (α × Nat) :=
  match layout.readAt bytes position with
  | none => .error .accountDataTooSmall
  | some a => .ok (a, position + layout.size)

variable {bytes : List UInt8} {position position' : Nat}

theorem readCursor_eq_ok {α : Type} {layout : Layout α} {a : α} :
    readCursor layout bytes position = .ok (a, position') ↔
      At bytes position (layout.encode a) ∧ position' = position + layout.size := by
  rw [← layout.readAt_eq_some, readCursor]
  cases layout.readAt bytes position with
  | none => exact ⟨fun h => (nomatch h), fun h => (nomatch h.1)⟩
  | some b =>
    simp only [Except.ok.injEq, Prod.mk.injEq, Option.some.injEq]
    exact and_congr_right (fun _ => eq_comm)

/-! ## Sequences -/

/-- An implementation of the trait `ListFrame`: how large the items are in the data, and what is
    read of the bytes of one; nothing, if the read leaves them. -/
structure ListKind (α : Type) where
  itemSize : Nat
  readItem : List UInt8 → Option α

/-- The items of `LockoutListFrame`. -/
def lockoutItems : ListKind Lockout where
  itemSize := Layouts.lockout.size
  readItem itemData := Layouts.lockout.readAt itemData 0

/-- The items of `LandedVotesListFrame`, of which the latency is skipped. -/
def landedVoteItems : ListKind Lockout where
  itemSize := Layouts.landedVote.size
  readItem itemData := Layouts.lockout.readAt itemData 1

/-- The items of `AuthorizedVotersListFrame`. -/
def authorizedVoterItems : ListKind (U64 × Pubkey) where
  itemSize := Layouts.authorizedVoter.size
  readItem itemData := Layouts.authorizedVoter.readAt itemData 0

/-- The items of `EpochCreditsListFrame`. -/
def epochCreditsItems : ListKind EpochCredits where
  itemSize := Layouts.epochCredits.size
  readItem itemData := Layouts.epochCredits.readAt itemData 0

/-- The frame of a sequence. -/
structure ListFrame {α : Type} (kind : ListKind α) where
  len : UInt8

namespace ListFrame

variable {α : Type} {kind : ListKind α}

def totalItemSize (self : ListFrame kind) : Nat := self.len.toNat * kind.itemSize

def totalSize (self : ListFrame kind) : Nat := 8 + self.totalItemSize

/-- The `read` of all list frames, which differ in the error. -/
def read (invalidLength : VoteStateViewError) (kind : ListKind α) (bytes : List UInt8)
    (position : Nat) : Except VoteStateViewError (ListFrame kind × Nat) := do
  let (len, position) ← readCursor Layouts.u64 bytes position
  if 255 < len.val then .error invalidLength
  else
    let frame : ListFrame kind := ⟨UInt8.ofNat len.val⟩
    return (frame, position + frame.totalItemSize)

/-- The length stands at the position, and the items are skipped. -/
theorem read_eq_ok {invalidLength : VoteStateViewError} {frame : ListFrame kind} :
    read invalidLength kind bytes position = .ok (frame, position') ↔
      At bytes position (leBytes 8 frame.len.toNat) ∧ position' = position + frame.totalSize := by
  have hlow : frame.len.toNat < 256 := frame.len.toNat_lt
  rw [read, bind_eq_ok_iff]
  constructor
  · rintro ⟨⟨len, next⟩, hlen, hrest⟩
    obtain ⟨hat, rfl⟩ := readCursor_eq_ok.mp hlen
    obtain ⟨hle, hframe⟩ := guard_eq_ok_iff.mp hrest
    cases hframe
    have hval : (UInt8.ofNat len.val).toNat = len.val := by
      rw [UInt8.toNat_ofNat']
      omega
    refine ⟨?_, Nat.add_assoc _ _ _⟩
    show At bytes position (leBytes 8 (UInt8.ofNat len.val).toNat)
    rw [hval]
    exact hat
  · rintro ⟨hat, rfl⟩
    refine ⟨(⟨frame.len.toNat, by omega⟩, position + 8), readCursor_eq_ok.mpr ⟨hat, rfl⟩, ?_⟩
    refine guard_eq_ok_iff.mpr ⟨by dsimp only; omega, ?_⟩
    dsimp only
    rw [UInt8.ofNat_toNat, totalSize, Nat.add_assoc]
    rfl

end ListFrame

abbrev LandedVotesListFrame := ListFrame landedVoteItems

def LandedVotesListFrame.read := ListFrame.read .invalidVotesLength landedVoteItems

abbrev AuthorizedVotersListFrame := ListFrame authorizedVoterItems

def AuthorizedVotersListFrame.read :=
  ListFrame.read .invalidAuthorizedVotersLength authorizedVoterItems

abbrev EpochCreditsListFrame := ListFrame epochCreditsItems

def EpochCreditsListFrame.read := ListFrame.read .invalidEpochCreditsLength epochCreditsItems

/-! ## Optional values -/

/-- The frame of an optional value of some size: whether it is there. -/
structure OptionFrame (valueSize : Nat) where
  isPresent : Bool

namespace OptionFrame

variable {valueSize : Nat} {invalidOption : VoteStateViewError}

def size (self : OptionFrame valueSize) : Nat := if self.isPresent then valueSize else 0

def totalSize (self : OptionFrame valueSize) : Nat := 1 + self.size

/-- What the byte before the value says. -/
def ofByte (invalidOption : VoteStateViewError) (byte : UInt8) : Except VoteStateViewError Bool :=
  if byte = 0 then .ok false
  else if byte = 1 then .ok true
  else .error invalidOption

/-- The `read` of both optional values, which differ in the error. -/
def read (invalidOption : VoteStateViewError) (valueSize : Nat) (bytes : List UInt8)
    (position : Nat) : Except VoteStateViewError (OptionFrame valueSize × Nat) := do
  let (byte, position) ← readCursor Layout.uint8 bytes position
  let isPresent ← ofByte invalidOption byte
  let frame : OptionFrame valueSize := ⟨isPresent⟩
  return (frame, position + frame.size)

theorem ofByte_eq_ok {byte : UInt8} {flag : Bool} :
    ofByte invalidOption byte = .ok flag ↔ byte = flagByte flag := by
  unfold ofByte
  by_cases hzero : byte = 0
  · subst hzero
    cases flag with
    | false => exact ⟨fun _ => rfl, fun _ => rfl⟩
    | true => exact ⟨fun h => (nomatch h), fun h => absurd h (by decide)⟩
  · rw [if_neg hzero]
    by_cases hone : byte = 1
    · subst hone
      cases flag with
      | false => exact ⟨fun h => (nomatch h), fun h => absurd h (by decide)⟩
      | true => exact ⟨fun _ => rfl, fun _ => rfl⟩
    · rw [if_neg hone]
      cases flag with
      | false => exact ⟨fun h => (nomatch h), fun h => absurd h hzero⟩
      | true => exact ⟨fun h => (nomatch h), fun h => absurd h hone⟩

/-- The flag stands at the position, and the value is skipped. -/
theorem read_eq_ok {frame : OptionFrame valueSize} :
    read invalidOption valueSize bytes position = .ok (frame, position') ↔
      At bytes position [flagByte frame.isPresent] ∧ position' = position + frame.totalSize := by
  rw [read, bind_eq_ok_iff]
  constructor
  · rintro ⟨⟨byte, next⟩, hbyte, hrest⟩
    obtain ⟨hat, rfl⟩ := readCursor_eq_ok.mp hbyte
    obtain ⟨flag, hflag, hframe⟩ := bind_eq_ok_iff.mp hrest
    cases hframe
    rw [Layout.encode_uint8, ofByte_eq_ok.mp hflag] at hat
    exact ⟨hat, Nat.add_assoc _ _ _⟩
  · rintro ⟨hat, rfl⟩
    rw [← Layout.encode_uint8] at hat
    refine ⟨_, readCursor_eq_ok.mpr ⟨hat, rfl⟩, bind_eq_ok_iff.mpr ?_⟩
    refine ⟨frame.isPresent, ofByte_eq_ok.mpr rfl, ?_⟩
    rw [totalSize, ← Nat.add_assoc]
    rfl

end OptionFrame

abbrev RootSlotFrame := OptionFrame Layouts.u64.size

def RootSlotFrame.read := OptionFrame.read .invalidRootSlotOption Layouts.u64.size

abbrev BlsPubkeyCompressedFrame := OptionFrame blsPublicKeyCompressedSize

def BlsPubkeyCompressedFrame.read :=
  OptionFrame.read .invalidBlsPubkeyCompressedOption blsPublicKeyCompressedSize

/-- `PriorVotersFrame::total_size`. -/
def priorVotersTotalSize : Nat := 1545

/-! ## Frames -/

inductive Field where
  | nodePubkey
  | commission
  | votes
  | rootSlot
  | authorizedVoters
  | epochCredits
  | lastTimestamp

inductive Simd185Field where
  | inflationRewardsCollector
  | blockRevenueCollector
  | blockRevenueCommission
  | pendingDelegatorRewards
  | blsPubkeyCompressed

/-- `VoteStateFrameV1_14_11` and `VoteStateFrameV3`, which differ in the votes. -/
structure VoteStateFrameBeforeV4 (votes : ListKind Lockout) where
  votesFrame : ListFrame votes
  rootSlotFrame : RootSlotFrame
  authorizedVotersFrame : AuthorizedVotersListFrame
  epochCreditsFrame : EpochCreditsListFrame

namespace VoteStateFrameBeforeV4

variable {votes : ListKind Lockout}

def nodePubkeyOffset : Nat := 4

def authorizedWithdrawerOffset : Nat := nodePubkeyOffset + Layouts.pubkey.size

def commissionOffset : Nat := authorizedWithdrawerOffset + Layouts.pubkey.size

def votesOffset : Nat := commissionOffset + 1

variable (self : VoteStateFrameBeforeV4 votes)

def rootSlotOffset : Nat :=
  votesOffset + self.votesFrame.totalSize

def authorizedVotersOffset : Nat :=
  self.rootSlotOffset + self.rootSlotFrame.totalSize

def priorVotersOffset : Nat :=
  self.authorizedVotersOffset + self.authorizedVotersFrame.totalSize

def epochCreditsOffset : Nat :=
  self.priorVotersOffset + priorVotersTotalSize

def lastTimestampOffset : Nat :=
  self.epochCreditsOffset + self.epochCreditsFrame.totalSize

def fieldOffset : Field → Nat
  | .nodePubkey => nodePubkeyOffset
  | .commission => commissionOffset
  | .votes => votesOffset
  | .rootSlot => self.rootSlotOffset
  | .authorizedVoters => self.authorizedVotersOffset
  | .epochCredits => self.epochCreditsOffset
  | .lastTimestamp => self.lastTimestampOffset

/-- `try_new`, of both. -/
def tryNew (votes : ListKind Lockout) (bytes : List UInt8) :
    Except VoteStateViewError (VoteStateFrameBeforeV4 votes) := do
  let (votesFrame, position) ← ListFrame.read .invalidVotesLength votes bytes votesOffset
  let (rootSlotFrame, position) ← RootSlotFrame.read bytes position
  let (authorizedVotersFrame, position) ← AuthorizedVotersListFrame.read bytes position
  let position := position + priorVotersTotalSize
  let (epochCreditsFrame, position) ← EpochCreditsListFrame.read bytes position
  let position := position + Layouts.blockTimestamp.size
  if position ≤ bytes.length then
    return ⟨votesFrame, rootSlotFrame, authorizedVotersFrame, epochCreditsFrame⟩
  else .error .accountDataTooSmall

/-- What the data holds where a frame says so: its lengths and flags, and room for the rest. -/
structure Framed (frame : VoteStateFrameBeforeV4 votes) (bytes : List UInt8) : Prop where
  votes : At bytes votesOffset (leBytes 8 frame.votesFrame.len.toNat)
  rootSlot : At bytes frame.rootSlotOffset [flagByte frame.rootSlotFrame.isPresent]
  authorizedVoters : At bytes frame.authorizedVotersOffset
    (leBytes 8 frame.authorizedVotersFrame.len.toNat)
  epochCredits : At bytes frame.epochCreditsOffset (leBytes 8 frame.epochCreditsFrame.len.toNat)
  room : frame.lastTimestampOffset + Layouts.blockTimestamp.size ≤ bytes.length

theorem tryNew_eq_ok {frame : VoteStateFrameBeforeV4 votes} :
    tryNew votes bytes = .ok frame ↔ frame.Framed bytes := by
  simp only [tryNew, RootSlotFrame.read, AuthorizedVotersListFrame.read, EpochCreditsListFrame.read,
    bind_next_eq_ok_iff ListFrame.read_eq_ok, bind_next_eq_ok_iff OptionFrame.read_eq_ok]
  constructor
  · rintro ⟨votesFrame, hvotes, rootSlotFrame, hroot, authorizedVotersFrame, hvoters,
      epochCreditsFrame, hcredits, h⟩
    split at h
    case isTrue hroom =>
      cases h
      exact ⟨hvotes, hroot, hvoters, hcredits, hroom⟩
    case isFalse => cases h
  · rintro ⟨hvotes, hroot, hvoters, hcredits, hroom⟩
    exact ⟨_, hvotes, _, hroot, _, hvoters, _, hcredits, if_pos hroom⟩

end VoteStateFrameBeforeV4

/-- `VoteStateFrameV1_14_11`. -/
abbrev VoteStateFrameV1_14_11 := VoteStateFrameBeforeV4 lockoutItems

abbrev VoteStateFrameV3 := VoteStateFrameBeforeV4 landedVoteItems

structure VoteStateFrameV4 where
  blsPubkeyCompressedFrame : BlsPubkeyCompressedFrame
  votesFrame : LandedVotesListFrame
  rootSlotFrame : RootSlotFrame
  authorizedVotersFrame : AuthorizedVotersListFrame
  epochCreditsFrame : EpochCreditsListFrame

namespace VoteStateFrameV4

def nodePubkeyOffset : Nat := 4

def authorizedWithdrawerOffset : Nat := nodePubkeyOffset + Layouts.pubkey.size

def inflationRewardsCollectorOffset : Nat := authorizedWithdrawerOffset + Layouts.pubkey.size

def blockRevenueCollectorOffset : Nat := inflationRewardsCollectorOffset + Layouts.pubkey.size

def inflationRewardsCommissionOffset : Nat := blockRevenueCollectorOffset + Layouts.pubkey.size

def blockRevenueCommissionOffset : Nat := inflationRewardsCommissionOffset + Layouts.u16.size

def pendingDelegatorRewardsOffset : Nat := blockRevenueCommissionOffset + Layouts.u16.size

def blsPubkeyCompressedOffset : Nat := pendingDelegatorRewardsOffset + Layouts.u64.size

variable (self : VoteStateFrameV4)

def votesOffset : Nat :=
  blsPubkeyCompressedOffset + self.blsPubkeyCompressedFrame.totalSize

def rootSlotOffset : Nat :=
  self.votesOffset + self.votesFrame.totalSize

def authorizedVotersOffset : Nat :=
  self.rootSlotOffset + self.rootSlotFrame.totalSize

def epochCreditsOffset : Nat :=
  self.authorizedVotersOffset + self.authorizedVotersFrame.totalSize

def lastTimestampOffset : Nat :=
  self.epochCreditsOffset + self.epochCreditsFrame.totalSize

def fieldOffset : Field → Nat
  | .nodePubkey => nodePubkeyOffset
  | .commission => inflationRewardsCommissionOffset
  | .votes => self.votesOffset
  | .rootSlot => self.rootSlotOffset
  | .authorizedVoters => self.authorizedVotersOffset
  | .epochCredits => self.epochCreditsOffset
  | .lastTimestamp => self.lastTimestampOffset

def simd185FieldOffset (_self : VoteStateFrameV4) : Simd185Field → Nat
  | .inflationRewardsCollector => inflationRewardsCollectorOffset
  | .blockRevenueCollector => blockRevenueCollectorOffset
  | .blockRevenueCommission => blockRevenueCommissionOffset
  | .pendingDelegatorRewards => pendingDelegatorRewardsOffset
  | .blsPubkeyCompressed => blsPubkeyCompressedOffset

def tryNew (bytes : List UInt8) : Except VoteStateViewError VoteStateFrameV4 := do
  let (blsPubkeyCompressedFrame, position) ←
    BlsPubkeyCompressedFrame.read bytes blsPubkeyCompressedOffset
  let (votesFrame, position) ← LandedVotesListFrame.read bytes position
  let (rootSlotFrame, position) ← RootSlotFrame.read bytes position
  let (authorizedVotersFrame, position) ← AuthorizedVotersListFrame.read bytes position
  let (epochCreditsFrame, position) ← EpochCreditsListFrame.read bytes position
  let position := position + Layouts.blockTimestamp.size
  if position ≤ bytes.length then
    return ⟨blsPubkeyCompressedFrame, votesFrame, rootSlotFrame, authorizedVotersFrame,
      epochCreditsFrame⟩
  else .error .accountDataTooSmall

/-- What the data holds where a frame says so: its lengths and flags, and room for the rest. -/
structure Framed (frame : VoteStateFrameV4) (bytes : List UInt8) : Prop where
  blsPubkeyCompressed : At bytes blsPubkeyCompressedOffset
    [flagByte frame.blsPubkeyCompressedFrame.isPresent]
  votes : At bytes frame.votesOffset (leBytes 8 frame.votesFrame.len.toNat)
  rootSlot : At bytes frame.rootSlotOffset [flagByte frame.rootSlotFrame.isPresent]
  authorizedVoters : At bytes frame.authorizedVotersOffset
    (leBytes 8 frame.authorizedVotersFrame.len.toNat)
  epochCredits : At bytes frame.epochCreditsOffset (leBytes 8 frame.epochCreditsFrame.len.toNat)
  room : frame.lastTimestampOffset + Layouts.blockTimestamp.size ≤ bytes.length

theorem tryNew_eq_ok {frame : VoteStateFrameV4} : tryNew bytes = .ok frame ↔ frame.Framed bytes := by
  simp only [tryNew, BlsPubkeyCompressedFrame.read, LandedVotesListFrame.read, RootSlotFrame.read,
    AuthorizedVotersListFrame.read, EpochCreditsListFrame.read,
    bind_next_eq_ok_iff ListFrame.read_eq_ok, bind_next_eq_ok_iff OptionFrame.read_eq_ok]
  constructor
  · rintro ⟨blsFrame, hbls, votesFrame, hvotes, rootSlotFrame, hroot, authorizedVotersFrame,
      hvoters, epochCreditsFrame, hcredits, h⟩
    split at h
    case isTrue hroom =>
      cases h
      exact ⟨hbls, hvotes, hroot, hvoters, hcredits, hroom⟩
    case isFalse => cases h
  · rintro ⟨hbls, hvotes, hroot, hvoters, hcredits, hroom⟩
    exact ⟨_, hbls, _, hvotes, _, hroot, _, hvoters, _, hcredits, if_pos hroom⟩

end VoteStateFrameV4

inductive VoteStateFrame where
  | v1_14_11 (frame : VoteStateFrameV1_14_11)
  | v3 (frame : VoteStateFrameV3)
  | v4 (frame : VoteStateFrameV4)

namespace VoteStateFrame

/-- `VoteStateFrame::try_new`. -/
def tryNew (bytes : List UInt8) : Except VoteStateViewError VoteStateFrame := do
  let (version, _) ← readCursor Layouts.u32 bytes 0
  match version.val with
  | 0 => .error .oldVersion
  | 1 => return .v1_14_11 (← VoteStateFrameBeforeV4.tryNew lockoutItems bytes)
  | 2 => return .v3 (← VoteStateFrameBeforeV4.tryNew landedVoteItems bytes)
  | 3 => return .v4 (← VoteStateFrameV4.tryNew bytes)
  | _ => .error .unsupportedVersion

def offset : VoteStateFrame → Field → Nat
  | v1_14_11 frame => frame.fieldOffset
  | v3 frame => frame.fieldOffset
  | v4 frame => frame.fieldOffset

def simd185FieldOffset : VoteStateFrame → Simd185Field → Option Nat
  | v1_14_11 _, _ => none
  | v3 _, _ => none
  | v4 frame, field => some (frame.simd185FieldOffset field)

/-- `commission_frame`: whether the commission is in basis points. -/
def commissionUsesBps : VoteStateFrame → Bool
  | v1_14_11 _ => false
  | v3 _ => false
  | v4 _ => true

def blsPubkeyCompressedFrame : VoteStateFrame → Option BlsPubkeyCompressedFrame
  | v1_14_11 _ => none
  | v3 _ => none
  | v4 frame => some frame.blsPubkeyCompressedFrame

/-- `votes_frame`, with the kind of the votes. -/
def votesFrame : VoteStateFrame → (kind : ListKind Lockout) × ListFrame kind
  | v1_14_11 frame => ⟨lockoutItems, frame.votesFrame⟩
  | v3 frame => ⟨landedVoteItems, frame.votesFrame⟩
  | v4 frame => ⟨landedVoteItems, frame.votesFrame⟩

def rootSlotFrame : VoteStateFrame → RootSlotFrame
  | v1_14_11 frame => frame.rootSlotFrame
  | v3 frame => frame.rootSlotFrame
  | v4 frame => frame.rootSlotFrame

def authorizedVotersFrame : VoteStateFrame → AuthorizedVotersListFrame
  | v1_14_11 frame => frame.authorizedVotersFrame
  | v3 frame => frame.authorizedVotersFrame
  | v4 frame => frame.authorizedVotersFrame

def epochCreditsFrame : VoteStateFrame → EpochCreditsListFrame
  | v1_14_11 frame => frame.epochCreditsFrame
  | v3 frame => frame.epochCreditsFrame
  | v4 frame => frame.epochCreditsFrame

end VoteStateFrame

end Agave.VoteView
