/-
  Agave.VoteStateView.Types

  Vote states and their serialization.

  `bincode` writes the fields in their order: numbers in little endian, the
  items of a sequence after their number in eight bytes, an optional value
  after a byte that says whether there is one, and a version in four bytes.
-/

import Agave.Layouts
import Agave.Lib.BTreeMap

namespace Agave.VoteView

open Lib

/-- `BLS_PUBLIC_KEY_COMPRESSED_SIZE`. -/
def blsPublicKeyCompressedSize : Nat := 48

abbrev BlsPubkeyCompressed := Vector UInt8 blsPublicKeyCompressedSize

structure Lockout where
  slot : U64
  confirmationCount : U32
deriving DecidableEq

structure LandedVote where
  latency : UInt8
  lockout : Lockout
deriving DecidableEq

structure BlockTimestamp where
  slot : U64
  timestamp : Int64
deriving DecidableEq

/-- An entry of the epoch credits: the epoch, the credits at its end, and the credits before it. -/
structure EpochCredits where
  epoch : U64
  credits : U64
  prevCredits : U64
deriving DecidableEq

/-- `CircBuf<(Pubkey, Epoch, Epoch)>`. -/
structure PriorVoters where
  buf : Vector (Pubkey × U64 × U64) 32
  idx : U64
  isEmpty : Bool

abbrev AuthorizedVoters := BTreeMap U64 Pubkey

/-- `VoteState1_14_11` and `VoteStateV3`, which differ in what a vote is. -/
structure VoteStateBeforeV4 (Vote : Type) where
  nodePubkey : Pubkey
  authorizedWithdrawer : Pubkey
  commission : UInt8
  votes : List Vote
  rootSlot : Option U64
  authorizedVoters : AuthorizedVoters
  priorVoters : PriorVoters
  epochCredits : List EpochCredits
  lastTimestamp : BlockTimestamp

/-- `VoteState1_14_11`. -/
abbrev VoteState1_14_11 := VoteStateBeforeV4 Lockout

abbrev VoteStateV3 := VoteStateBeforeV4 LandedVote

structure VoteStateV4 where
  nodePubkey : Pubkey
  authorizedWithdrawer : Pubkey
  inflationRewardsCollector : Pubkey
  blockRevenueCollector : Pubkey
  inflationRewardsCommissionBps : U16
  blockRevenueCommissionBps : U16
  pendingDelegatorRewards : U64
  blsPubkeyCompressed : Option BlsPubkeyCompressed
  votes : List LandedVote
  rootSlot : Option U64
  authorizedVoters : AuthorizedVoters
  epochCredits : List EpochCredits
  lastTimestamp : BlockTimestamp

/-- `VoteStateVersions`, from the first one that has a view. -/
inductive VoteStateVersions where
  | v1_14_11 (state : VoteState1_14_11)
  | v3 (state : VoteStateV3)
  | v4 (state : VoteStateV4)

/-! ## Layouts -/

namespace Layouts

open Agave.Layouts

def lockout : Layout Lockout :=
  (u64.pair u32).congr
    { toFun := fun p => ⟨p.1, p.2⟩
      invFun := fun a => (a.slot, a.confirmationCount)
      left_inv := fun _ => rfl
      right_inv := fun _ => rfl }

def landedVote : Layout LandedVote :=
  (Layout.uint8.pair lockout).congr
    { toFun := fun p => ⟨p.1, p.2⟩
      invFun := fun a => (a.latency, a.lockout)
      left_inv := fun _ => rfl
      right_inv := fun _ => rfl }

def blockTimestamp : Layout BlockTimestamp :=
  (u64.pair i64).congr
    { toFun := fun p => ⟨p.1, p.2⟩
      invFun := fun a => (a.slot, a.timestamp)
      left_inv := fun _ => rfl
      right_inv := fun _ => rfl }

def authorizedVoter : Layout (U64 × Pubkey) := u64.pair pubkey

def epochCredits : Layout EpochCredits :=
  (u64.pair (u64.pair u64)).congr
    { toFun := fun p => ⟨p.1, p.2.1, p.2.2⟩
      invFun := fun a => (a.epoch, a.credits, a.prevCredits)
      left_inv := fun _ => rfl
      right_inv := fun _ => rfl }

def priorVoter : Layout (Pubkey × U64 × U64) := pubkey.pair (u64.pair u64)

def blsPubkeyCompressed : Layout BlsPubkeyCompressed := .byteArray blsPublicKeyCompressedSize

end Layouts

/-! ## Serialization -/

/-- A sequence, after its length. -/
def serializeList {α : Type} (layout : Layout α) (items : List α) : List UInt8 :=
  leBytes 8 items.length ++ layout.encodeAll items

/-- The byte of a `bool`, or of whether there is an optional value. -/
def flagByte (flag : Bool) : UInt8 := if flag then 1 else 0

/-- What stands after the flag of an optional value. -/
def serializeSome {α : Type} (layout : Layout α) : Option α → List UInt8
  | none => []
  | some a => layout.encode a

/-- An optional value. -/
def serializeOption {α : Type} (layout : Layout α) (value : Option α) : List UInt8 :=
  [flagByte value.isSome] ++ serializeSome layout value

def PriorVoters.serialize (priorVoters : PriorVoters) : List UInt8 :=
  Layouts.priorVoter.encodeAll priorVoters.buf.toList ++ Layouts.u64.encode priorVoters.idx ++
    [flagByte priorVoters.isEmpty]

theorem PriorVoters.length_serialize (priorVoters : PriorVoters) :
    priorVoters.serialize.length = 1545 := by
  rw [serialize, List.length_append, List.length_append, Layout.length_encodeAll,
    Layout.length_encode, Vector.length_toList, List.length_singleton]
  rfl

def VoteStateBeforeV4.serialize {Vote : Type} (vote : Layout Vote)
    (state : VoteStateBeforeV4 Vote) : List UInt8 :=
  Layouts.pubkey.encode state.nodePubkey ++
    (Layouts.pubkey.encode state.authorizedWithdrawer ++
    (Layout.uint8.encode state.commission ++
    (serializeList vote state.votes ++
    (serializeOption Layouts.u64 state.rootSlot ++
    (serializeList Layouts.authorizedVoter state.authorizedVoters.entries ++
    (state.priorVoters.serialize ++
    (serializeList Layouts.epochCredits state.epochCredits ++
    Layouts.blockTimestamp.encode state.lastTimestamp)))))))

def VoteStateV4.serialize (state : VoteStateV4) : List UInt8 :=
  Layouts.pubkey.encode state.nodePubkey ++
    (Layouts.pubkey.encode state.authorizedWithdrawer ++
    (Layouts.pubkey.encode state.inflationRewardsCollector ++
    (Layouts.pubkey.encode state.blockRevenueCollector ++
    (Layouts.u16.encode state.inflationRewardsCommissionBps ++
    (Layouts.u16.encode state.blockRevenueCommissionBps ++
    (Layouts.u64.encode state.pendingDelegatorRewards ++
    (serializeOption Layouts.blsPubkeyCompressed state.blsPubkeyCompressed ++
    (serializeList Layouts.landedVote state.votes ++
    (serializeOption Layouts.u64 state.rootSlot ++
    (serializeList Layouts.authorizedVoter state.authorizedVoters.entries ++
    (serializeList Layouts.epochCredits state.epochCredits ++
    Layouts.blockTimestamp.encode state.lastTimestamp)))))))))))

/-- `bincode::serialize` of a vote account's data. -/
def VoteStateVersions.serialize : VoteStateVersions → List UInt8
  | v1_14_11 state => leBytes 4 1 ++ state.serialize Layouts.lockout
  | v3 state => leBytes 4 2 ++ state.serialize Layouts.landedVote
  | v4 state => leBytes 4 3 ++ state.serialize

end Agave.VoteView
