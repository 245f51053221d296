/-
  Agave.Gossip.Value

  The values that gossip replicates, and which of two values of one label wins.

  Of a value's payload the table reads who published it, when, and, for a contact-info, when the
  node started.  The rest of the payload and the signature are visible to the table through the hash
  alone, and are left out.  So are the six kinds that hold the source's `Deprecated`: no value of
  them can be read from the wire.
-/

import Agave.Layouts
import Mathlib.Data.Prod.Lex

namespace Agave.Gossip

/-- Who published a value, and the wallclock it carries. -/
structure Published where
  origin : Pubkey
  wallclock : Nat
deriving DecidableEq

/-- `outset` is when the node with this contact-info started. -/
structure ContactInfo where
  pubkey : Pubkey
  wallclock : Nat
  outset : Nat
deriving DecidableEq

inductive CrdsData where
  | vote (ix : UInt8) (vote : Published)
  | lowestSlot (ix : UInt8) (slot : Published)
  | epochSlots (ix : UInt8) (slots : Published)
  | duplicateShred (ix : UInt16) (shred : Published)
  | snapshotHashes (hashes : Published)
  | contactInfo (node : ContactInfo)
  | restartLastVotedForkSlots (slots : Published)
  | restartHeaviestFork (fork : Published)
deriving DecidableEq

namespace CrdsData

def wallclock : CrdsData → Nat
  | vote _ value => value.wallclock
  | lowestSlot _ slot => slot.wallclock
  | epochSlots _ slots => slots.wallclock
  | duplicateShred _ shred => shred.wallclock
  | snapshotHashes hashes => hashes.wallclock
  | contactInfo node => node.wallclock
  | restartLastVotedForkSlots slots => slots.wallclock
  | restartHeaviestFork fork => fork.wallclock

def pubkey : CrdsData → Pubkey
  | vote _ value => value.origin
  | lowestSlot _ slot => slot.origin
  | epochSlots _ slots => slots.origin
  | duplicateShred _ shred => shred.origin
  | snapshotHashes hashes => hashes.origin
  | contactInfo node => node.pubkey
  | restartLastVotedForkSlots slots => slots.origin
  | restartHeaviestFork fork => fork.origin

def isDeprecated : CrdsData → Bool
  | vote _ _ => false
  | lowestSlot ix _ => ix != 0
  | epochSlots _ _ => false
  | duplicateShred _ _ => false
  | snapshotHashes _ => false
  | contactInfo _ => false
  | restartLastVotedForkSlots _ => true
  | restartHeaviestFork _ => true

end CrdsData

inductive CrdsValueLabel where
  | vote (ix : UInt8) (pubkey : Pubkey)
  | lowestSlot (pubkey : Pubkey)
  | epochSlots (ix : UInt8) (pubkey : Pubkey)
  | duplicateShred (ix : UInt16) (pubkey : Pubkey)
  | snapshotHashes (pubkey : Pubkey)
  | contactInfo (pubkey : Pubkey)
  | restartLastVotedForkSlots (pubkey : Pubkey)
  | restartHeaviestFork (pubkey : Pubkey)
deriving DecidableEq

/-- `hash` is taken over the signature and the serialized data. -/
structure CrdsValue where
  data : CrdsData
  hash : Hash
deriving DecidableEq

namespace CrdsValue

def wallclock (value : CrdsValue) : Nat := value.data.wallclock

def pubkey (value : CrdsValue) : Pubkey := value.data.pubkey

def label (value : CrdsValue) : CrdsValueLabel :=
  match value.data with
  | .vote ix _ => .vote ix value.pubkey
  | .lowestSlot _ _ => .lowestSlot value.pubkey
  | .epochSlots ix _ => .epochSlots ix value.pubkey
  | .duplicateShred ix _ => .duplicateShred ix value.pubkey
  | .snapshotHashes _ => .snapshotHashes value.pubkey
  | .contactInfo _ => .contactInfo value.pubkey
  | .restartLastVotedForkSlots _ => .restartLastVotedForkSlots value.pubkey
  | .restartHeaviestFork _ => .restartHeaviestFork value.pubkey

end CrdsValue

/-! ## Which value wins -/

inductive Panic where
  | labelsMismatch
  | thisShouldNotHappen
  | unwrapNone
  | indexOutOfBounds
deriving DecidableEq

/-- `ContactInfo::overrides`: undecided between different nodes and between equal times. -/
def ContactInfo.overrides (node other : ContactInfo) : Option Bool :=
  if node.pubkey ≠ other.pubkey then none
  else
    let key := toLex (node.outset, node.wallclock)
    let otherKey := toLex (other.outset, other.wallclock)
    if key < otherKey then some false
    else if otherKey < key then some true
    else none

/-- The part of `overrides` that is about contact-infos. -/
def contactInfoOverrides (value other : CrdsValue) : Option Bool :=
  match value.data, other.data with
  | .contactInfo node, .contactInfo otherNode => node.overrides otherNode
  | _, _ => none

/-- `overrides`, for two values of the same label. -/
def overridesSameLabel (value other : CrdsValue) : Bool :=
  match contactInfoOverrides value other with
  | some out => out
  | none =>
    if value.wallclock < other.wallclock then false
    else if other.wallclock < value.wallclock then true
    else decide (other.hash < value.hash)

/-- Whether the first value updates the second one. -/
def overrides (value other : CrdsValue) : Except Panic Bool :=
  if value.label ≠ other.label then .error .labelsMismatch
  else .ok (overridesSameLabel value other)

/-- When the publishing node started, where the value says so. -/
def CrdsValue.outset (value : CrdsValue) : Nat :=
  match value.data with
  | .contactInfo node => node.outset
  | _ => 0

/-- The place of a value among those of its label. -/
def CrdsValue.rank (value : CrdsValue) : ℕ ×ₗ ℕ ×ₗ Hash :=
  toLex (value.outset, toLex (value.wallclock, value.hash))

variable {value other : CrdsValue}

theorem rank_lt_iff :
    other.rank < value.rank ↔
      other.outset < value.outset ∨ other.outset = value.outset ∧
        (other.wallclock < value.wallclock ∨
          other.wallclock = value.wallclock ∧ other.hash < value.hash) := by
  rw [CrdsValue.rank, CrdsValue.rank, Prod.Lex.toLex_lt_toLex, Prod.Lex.toLex_lt_toLex]

theorem hash_eq_of_rank_eq (h : value.rank = other.rank) : value.hash = other.hash :=
  congrArg (fun r : ℕ ×ₗ ℕ ×ₗ Hash => (ofLex (ofLex r).2).2) h

theorem contactInfo_iff_of_label_eq (h : value.label = other.label) :
    (∃ node, value.data = .contactInfo node) ↔ ∃ node, other.data = .contactInfo node := by
  unfold CrdsValue.label at h
  cases hv : value.data <;> cases ho : other.data <;> simp_all

theorem CrdsValue.label_pubkey_inj (h : value.label = other.label) :
    value.pubkey = other.pubkey := by
  unfold CrdsValue.label at h
  cases hv : value.data <;> cases ho : other.data <;> simp_all

theorem outset_of_not_contactInfo (h : ¬ ∃ node, value.data = .contactInfo node) :
    value.outset = 0 := by
  unfold CrdsValue.outset
  split
  · rename_i node hnode
    exact absurd ⟨node, hnode⟩ h
  · rfl

/-- The two steps of the comparison are one order. -/
theorem overridesSameLabel_iff (hlabel : value.label = other.label) :
    overridesSameLabel value other = true ↔ other.rank < value.rank := by
  rw [rank_lt_iff]
  by_cases hnode : ∃ node, value.data = .contactInfo node
  · obtain ⟨node, hv⟩ := hnode
    obtain ⟨otherNode, ho⟩ := (contactInfo_iff_of_label_eq hlabel).mp ⟨node, hv⟩
    have hpubkey : node.pubkey = otherNode.pubkey := by
      have h := CrdsValue.label_pubkey_inj hlabel
      simpa only [CrdsValue.pubkey, hv, ho, CrdsData.pubkey] using h
    simp only [overridesSameLabel, contactInfoOverrides, hv, ho, ContactInfo.overrides, hpubkey,
      ne_eq, not_true_eq_false, if_false, Prod.Lex.toLex_lt_toLex, CrdsValue.outset,
      CrdsValue.wallclock, CrdsData.wallclock]
    -- the start times decide first, then the wallclocks, then the hashes
    rcases Nat.lt_trichotomy node.outset otherNode.outset with hout | hout | hout
    · simp [hout, Nat.lt_asymm hout, Nat.ne_of_gt hout]
    · rcases Nat.lt_trichotomy node.wallclock otherNode.wallclock with hw | hw | hw
      · simp [hout, hw, Nat.lt_asymm hw, Nat.ne_of_gt hw]
      · simp [hout, hw]
      · simp [hout, hw, Nat.lt_asymm hw]
    · simp [hout, Nat.lt_asymm hout, Nat.ne_of_gt hout]
  · have hother : ¬ ∃ node, other.data = .contactInfo node := by
      rwa [← contactInfo_iff_of_label_eq hlabel]
    have hnone : contactInfoOverrides value other = none := by
      unfold contactInfoOverrides
      split
      · rename_i node _ hv _
        exact absurd ⟨node, hv⟩ hnode
      · rfl
    rw [outset_of_not_contactInfo hnode, outset_of_not_contactInfo hother, overridesSameLabel,
      hnone]
    rcases Nat.lt_trichotomy value.wallclock other.wallclock with hw | hw | hw
    · simp [hw, Nat.lt_asymm hw, Nat.ne_of_gt hw]
    · simp [hw]
    · simp [hw, Nat.lt_asymm hw]

theorem overrides_of_label_eq (hlabel : value.label = other.label) :
    overrides value other = .ok (decide (other.rank < value.rank)) := by
  rw [overrides, if_neg (not_not.mpr hlabel)]
  congr 1
  rw [Bool.eq_iff_iff, overridesSameLabel_iff hlabel, decide_eq_true_iff]

end Agave.Gossip
