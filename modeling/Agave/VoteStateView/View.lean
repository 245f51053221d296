/-
  Agave.VoteStateView.View

  The accessors of a view.

  A read that leaves the data, be it a panic or an unchecked read, gives
  `none`; what a reader does not find in the vote state is `some none`.
-/

import Agave.VoteStateView.Frame

namespace Agave.VoteView

open Lib

/-! ## Slices -/

/-- `&bytes[start..]`. -/
def sliceFrom (bytes : List UInt8) (start : Nat) : Option (List UInt8) :=
  if start ≤ bytes.length then some (bytes.drop start) else none

/-- `&bytes[start..stop]`. -/
def slice (bytes : List UInt8) (start stop : Nat) : Option (List UInt8) :=
  if start ≤ stop ∧ stop ≤ bytes.length then some ((bytes.drop start).take (stop - start))
  else none

/-- Some chunks of a size. -/
def chunks (size : Nat) : Nat → List UInt8 → List (List UInt8)
  | 0, _ => []
  | n + 1, bytes => bytes.take size :: chunks size n (bytes.drop size)

def chunksExact (size : Nat) (bytes : List UInt8) : List (List UInt8) :=
  chunks size (bytes.length / size) bytes

theorem slice_of_at {bytes piece : List UInt8} {start stop : Nat} (h : At bytes start piece)
    (hstop : stop = start + piece.length) : slice bytes start stop = some piece := by
  subst hstop
  obtain ⟨hle, htake⟩ := at_iff_take.mp h
  rw [slice, if_pos ⟨Nat.le_add_right _ _, hle⟩, Nat.add_sub_cancel_left, htake]

theorem chunksExact_encodeAll {α : Type} (layout : Layout α) (hpos : 0 < layout.size)
    (items : List α) : chunksExact layout.size (layout.encodeAll items) =
      items.map layout.encode := by
  rw [chunksExact, layout.length_encodeAll, Nat.mul_div_cancel _ hpos]
  induction items with
  | nil => rfl
  | cons item items ih =>
    rw [List.length_cons, chunks, layout.encodeAll_cons,
      List.take_left' (layout.length_encode item), List.drop_left' (layout.length_encode item), ih]
    rfl

/-! ## Views of the fields -/

structure ListView {α : Type} (kind : ListKind α) where
  frame : ListFrame kind
  itemBuffer : List UInt8

namespace ListView

variable {α : Type} {kind : ListKind α}

/-- `ListView::new`. -/
def new (frame : ListFrame kind) (buffer : List UInt8) : Option (ListView kind) := do
  let itemBuffer ← sliceFrom buffer 8
  return ⟨frame, itemBuffer⟩

variable (self : ListView kind)

def len : Nat := self.frame.len.toNat

def item (self : ListView kind) (index : Nat) : Option (Option α) :=
  if index ≥ self.len then some none
  else do
    let offset := index * kind.itemSize
    let itemData ← slice self.itemBuffer offset (offset + kind.itemSize)
    let item ← kind.readItem itemData
    return some item

def last : Option (Option α) :=
  if self.len = 0 then some none else self.item (self.len - 1)

/-- `into_iter`: the chunks of the items. -/
def intoIter : Option (List (List UInt8)) := do
  let bytes ← slice self.itemBuffer 0 (self.len * kind.itemSize)
  return chunksExact kind.itemSize bytes

/-- All items of `into_iter`. -/
def items : Option (List α) := do
  let chunks ← self.intoIter
  chunks.mapM kind.readItem

end ListView

/-- The loop of `get_authorized_voter`. -/
def findAuthorizedVoter (epoch : U64) : List (List UInt8) → Option (Option Pubkey)
  | [] => some none
  | itemData :: rest => do
    let item ← authorizedVoterItems.readItem itemData
    if item.1 ≤ epoch then return some item.2 else findAuthorizedVoter epoch rest

/-- `ListView::get_authorized_voter`. -/
def ListView.getAuthorizedVoter (self : ListView authorizedVoterItems) (epoch : U64) :
    Option (Option Pubkey) := do
  let chunks ← self.intoIter
  findAuthorizedVoter epoch chunks.reverse

structure CommissionView where
  useBps : Bool
  buffer : List UInt8

def CommissionView.commissionPercent (self : CommissionView) : Option UInt8 :=
  if self.useBps then do
    let bps ← Layouts.u16.readAt self.buffer 0
    return UInt8.ofNat (min (bps.val / 100) 255)
  else Layout.uint8.readAt self.buffer 0

def CommissionView.commissionBps (self : CommissionView) : Option U16 :=
  if self.useBps then Layouts.u16.readAt self.buffer 0
  else do
    let percent ← Layout.uint8.readAt self.buffer 0
    return Fin.ofNat _ (100 * percent.toNat)

/-- The views of an optional value: the value, if its flag is set. -/
def readOption {α : Type} (layout : Layout α) (frame : OptionFrame layout.size)
    (buffer : List UInt8) : Option (Option α) :=
  if frame.isPresent then do
    let value ← layout.readAt buffer 1
    return some value
  else some none

/-! ## The view -/

structure VoteStateView where
  data : List UInt8
  frame : VoteStateFrame

namespace VoteStateView

/-- `VoteStateView::try_new`. -/
def tryNew (data : List UInt8) : Except VoteStateViewError VoteStateView := do
  let frame ← VoteStateFrame.tryNew data
  return ⟨data, frame⟩

variable (self : VoteStateView)

def nodePubkey : Option Pubkey :=
  Layouts.pubkey.readAt self.data (self.frame.offset .nodePubkey)

def inflationRewardsCommissionView : Option CommissionView := do
  let buffer ← sliceFrom self.data (self.frame.offset .commission)
  return ⟨self.frame.commissionUsesBps, buffer⟩

def commission : Option UInt8 := do
  let view ← self.inflationRewardsCommissionView
  view.commissionPercent

def inflationRewardsCommission : Option U16 := do
  let view ← self.inflationRewardsCommissionView
  view.commissionBps

/-- The two collectors, which are read at an offset that only some frames have. -/
def collector (field : Simd185Field) : Option (Option Pubkey) :=
  match self.frame.simd185FieldOffset field with
  | none => some none
  | some offset => do
    let pubkey ← Layouts.pubkey.readAt self.data offset
    return some pubkey

def blockRevenueCollector : Option (Option Pubkey) :=
  self.collector .blockRevenueCollector

def inflationRewardsCollector : Option (Option Pubkey) :=
  self.collector .inflationRewardsCollector

def blockRevenueCommission : Option U16 :=
  match self.frame.simd185FieldOffset .blockRevenueCommission with
  | none => some 10000
  | some offset => do
    let buffer ← sliceFrom self.data offset
    (CommissionView.mk true buffer).commissionBps

def pendingDelegatorRewards : Option U64 :=
  match self.frame.simd185FieldOffset .pendingDelegatorRewards with
  | none => some 0
  | some offset => do
    let buffer ← sliceFrom self.data offset
    Layouts.u64.readAt buffer 0

def blsPubkeyCompressed : Option (Option BlsPubkeyCompressed) :=
  match self.frame.simd185FieldOffset .blsPubkeyCompressed, self.frame.blsPubkeyCompressedFrame with
  | some offset, some frame => do
    let buffer ← sliceFrom self.data offset
    readOption Layouts.blsPubkeyCompressed frame buffer
  | _, _ => some none

/-- The views of the sequences. -/
def listView {α : Type} {kind : ListKind α} (self : VoteStateView) (field : Field)
    (frame : ListFrame kind) : Option (ListView kind) := do
  let buffer ← sliceFrom self.data (self.frame.offset field)
  ListView.new frame buffer

def votesView : Option (ListView self.frame.votesFrame.1) :=
  self.listView .votes self.frame.votesFrame.2

def authorizedVotersView : Option (ListView authorizedVoterItems) :=
  self.listView .authorizedVoters self.frame.authorizedVotersFrame

def epochCreditsView : Option (ListView epochCreditsItems) :=
  self.listView .epochCredits self.frame.epochCreditsFrame

/-- All items of `votes_iter`. -/
def votesIter : Option (List Lockout) := do
  let view ← self.votesView
  view.items

def votesLen : Option Nat := do
  let view ← self.votesView
  return view.len

def lastLockout : Option (Option Lockout) := do
  let view ← self.votesView
  view.last

def lastVotedSlot : Option (Option U64) := do
  let view ← self.votesView
  let last ← view.last
  return last.map Lockout.slot

def rootSlot : Option (Option U64) := do
  let buffer ← sliceFrom self.data (self.frame.offset .rootSlot)
  readOption Layouts.u64 self.frame.rootSlotFrame buffer

def getAuthorizedVoter (epoch : U64) : Option (Option Pubkey) := do
  let view ← self.authorizedVotersView
  view.getAuthorizedVoter epoch

def numEpochCredits : Option Nat := do
  let view ← self.epochCreditsView
  return view.len

/-- All items of `epoch_credits_iter`. -/
def epochCreditsIter : Option (List EpochCredits) := do
  let view ← self.epochCreditsView
  view.items

def credits : Option U64 := do
  let view ← self.epochCreditsView
  let last ← view.last
  return (last.map EpochCredits.credits).getD 0

def lastTimestamp : Option BlockTimestamp := do
  let buffer ← sliceFrom self.data (self.frame.offset .lastTimestamp)
  Layouts.blockTimestamp.readAt buffer 0

end VoteStateView

end Agave.VoteView
