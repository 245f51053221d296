/-
  Agave.Fs.FileIo

  Reading an account storage file.

  `read_into_buffer` and `read_more_buffer`, and how a `BufferedReader` fills its buffer with them.
  A file is the list of its bytes.  The operating system decides which calls of `read_at` are
  interrupted and how many bytes the others deliver: `answers` says so call by call.
-/

import Mathlib.Data.List.Basic

namespace Agave.Fs

open List

variable {α : Type} (file : List α)

/-- `arch_read_at` at `offset` into `room` bytes.  `none` is an interruption; another call delivers
at least one byte unless there is no room or the file ends. -/
def archReadAt (answer : Option Nat) (room offset : Nat) : Option (List α) :=
  answer.map fun more => (file.drop offset).take (min room (more + 1))

section Loop

variable (validFileLen startOffset len : Nat)

/-- The loop of `read_into_buffer` on a buffer of `len` bytes, the first `buffer_offset` of which
are `written`: the bytes that it reports as read, or `none` if it still reads after all of
`answers`. -/
def readLoop : List (Option Nat) → Nat → Nat → List α → Option (List α)
  | [], _, totalBytesRead, written =>
    if written.length < len then none else some (written.take totalBytesRead)
  | answer :: answers, offset, totalBytesRead, written =>
    if written.length < len then
      match archReadAt file answer (len - written.length) offset with
      | none => readLoop answers offset totalBytesRead written
      | some bytes =>
        let totalBytesRead := totalBytesRead + bytes.length
        if validFileLen ≤ totalBytesRead + startOffset then
          some ((written ++ bytes).take
            (totalBytesRead - (totalBytesRead + startOffset - validFileLen)))
        else readLoop answers (offset + bytes.length) totalBytesRead (written ++ bytes)
    else some (written.take totalBytesRead)

def readIntoBuffer (answers : List (Option Nat)) : Option (List α) :=
  if validFileLen ≤ startOffset then some []
  else readLoop file validFileLen startOffset len answers startOffset 0 []

/-- The file holds every byte that the read has to deliver. -/
abbrev Untruncated : Prop :=
  min validFileLen (startOffset + len) ≤ max startOffset file.length

variable {file validFileLen startOffset len} {answers : List (Option Nat)}

/-- A call that is not interrupted delivers the next bytes of the file, at least one if it can. -/
theorem archReadAt_some (file : List α) (more room offset : Nat) :
    ∃ bytes, archReadAt file (some more) room offset = some bytes ∧
      bytes = (file.drop offset).take bytes.length ∧
      bytes.length = min (min room (more + 1)) (file.length - offset) := by
  refine ⟨_, rfl, ?_, by rw [length_take, length_drop]⟩
  rw [length_take, ← take_eq_take_min]

/-- At the head of the loop `t` bytes of the file have been read.  While the file lasts, a call that
is not interrupted brings at least one byte; behind its end the loop waits for `validFileLen` or a
full buffer. -/
theorem readLoop_eq : ∀ t, t ≤ len → startOffset + t < validFileLen →
    startOffset + t ≤ max startOffset file.length →
    (Untruncated file validFileLen startOffset len → len - t ≤ answers.countP Option.isSome) →
    readLoop file validFileLen startOffset len answers (startOffset + t) t
      ((file.drop startOffset).take t) =
      if Untruncated file validFileLen startOffset len then
        some ((file.drop startOffset).take (min len (validFileLen - startOffset)))
      else none := by
  induction answers with
  | nil =>
    intro t ht hvalid hfile hcalls
    rw [countP_nil] at hcalls
    rw [readLoop, length_take, length_drop]
    split
    case isTrue hroom => rw [if_neg (by omega)]
    case isFalse hfull =>
      rw [if_pos (by omega), take_take, Nat.min_self, Nat.min_eq_left (by omega),
        show t = len by omega]
  | cons answer answers ih =>
    intro t ht hvalid hfile hcalls
    have hwritten : ((file.drop startOffset).take t).length = t := by
      rw [length_take, length_drop]
      omega
    rw [readLoop, hwritten]
    split
    case isFalse hfull =>
      rw [if_pos (by omega), take_take, Nat.min_self, Nat.min_eq_left (by omega),
        show t = len by omega]
    case isTrue hroom =>
      cases answer with
      | none => exact ih t ht hvalid hfile (by simpa using hcalls)
      | some more =>
        obtain ⟨bytes, hread, hbytes, hlen⟩ := archReadAt_some file more (len - t) (startOffset + t)
        have hnext : (file.drop startOffset).take t ++ bytes =
            (file.drop startOffset).take (t + bytes.length) := by
          rw [take_add, drop_drop, ← hbytes]
        rw [countP_cons_of_pos rfl] at hcalls
        simp only [hread, hnext]
        split
        case isTrue hend =>
          rw [if_pos (by omega), take_take]
          congr 2
          omega
        case isFalse hmore =>
          rw [Nat.add_assoc]
          exact ih (t + bytes.length) (by omega) (by omega) (by omega) (by omega)

/-- `read_into_buffer` returns exactly if the file holds what it should. -/
theorem readIntoBuffer_eq
    (hcalls : Untruncated file validFileLen startOffset len → len ≤ answers.countP Option.isSome) :
    readIntoBuffer file validFileLen startOffset len answers =
      if Untruncated file validFileLen startOffset len then
        some ((file.drop startOffset).take (min len (validFileLen - startOffset)))
      else none := by
  rw [readIntoBuffer]
  split
  case isTrue hbeyond =>
    rw [if_pos (by omega), Nat.sub_eq_zero_of_le hbeyond, Nat.min_zero, take_zero]
  case isFalse hbelow => exact readLoop_eq 0 (by omega) (by omega) (by omega) hcalls

end Loop

/-- `BufferedReader<N>` with its file: `validSlice` is the part `buf[buf_valid_bytes]` of the buffer
that the caller has not used. -/
structure BufferedReader (α : Type) where
  N : Nat
  fileOffsetOfNextRead : Nat
  validSlice : List α
  fileLenValid : Nat
  file : List α

/-- Why `fill_buf_required` refuses. -/
inductive FillError
  | quotaExceeded
  | unexpectedEof

/-- `read_more_buffer`: the new offset and the valid bytes of the buffer. -/
def readMoreBuffer (validFileLen offset bufferLen : Nat) (valid : List α)
    (answers : List (Option Nat)) : Option (Nat × List α) :=
  (readIntoBuffer file validFileLen offset (bufferLen - valid.length) answers).map fun bytes =>
    (offset + bytes.length, valid ++ bytes)

namespace BufferedReader

variable (r : BufferedReader α) (answers : List (Option Nat))

def readMoreBytes : Option (BufferedReader α) :=
  (readMoreBuffer r.file r.fileLenValid r.fileOffsetOfNextRead r.N r.validSlice answers).map
    fun m => { r with fileOffsetOfNextRead := m.1, validSlice := m.2 }

/-- `fill_buf`, which hands out the `validSlice` of the reader it leaves. -/
def fillBuf : Option (BufferedReader α) :=
  if r.validSlice.isEmpty then r.readMoreBytes answers else some r

def fillBufRequired (requiredLen : Nat) : Option (Except FillError (BufferedReader α)) :=
  if r.validSlice.length < requiredLen then
    (r.readMoreBytes answers).map fun r =>
      if r.validSlice.length < requiredLen then
        if r.N < requiredLen then .error .quotaExceeded else .error .unexpectedEof
      else .ok r
  else some (.ok r)

end BufferedReader

/-- Exactly where the file holds what it should, `read_into_buffer` returns the bytes asked for
after at most as many calls that are not interrupted, and a reader at the end of its file says
so. -/
theorem readIntoBuffer_returns (validFileLen startOffset len : Nat) :
    (∀ answers : List (Option Nat), len ≤ answers.countP Option.isSome →
      (∃ bytes, readIntoBuffer file validFileLen startOffset len answers = some bytes ∧
        bytes.length = min len (min validFileLen file.length - startOffset) ∧
        bytes = (file.drop startOffset).take bytes.length) ∧
      ∀ r : BufferedReader α, r.file = file → r.fileLenValid = validFileLen →
        r.fileOffsetOfNextRead = startOffset → r.N - r.validSlice.length = len →
        min validFileLen file.length ≤ startOffset →
        (r.validSlice = [] → r.fillBuf answers = some r) ∧
        ∀ n, r.validSlice.length < n → n ≤ r.N →
          r.fillBufRequired answers n = some (.error .unexpectedEof)) ↔
      Untruncated file validFileLen startOffset len := by
  constructor
  · intro hreturns
    by_contra hfile
    have hcalls : len ≤ (replicate len (some 0)).countP Option.isSome := by
      rw [countP_replicate]
      exact Nat.le_refl _
    obtain ⟨⟨bytes, hread, -⟩, -⟩ := hreturns _ hcalls
    rw [readIntoBuffer_eq fun _ => hcalls, if_neg hfile] at hread
    cases hread
  intro hfile answers hcalls
  have hread : readIntoBuffer file validFileLen startOffset len answers = some _ :=
    (readIntoBuffer_eq fun _ => hcalls).trans (if_pos hfile)
  refine ⟨⟨_, hread, ?_, ?_⟩, ?_⟩
  · rw [length_take, length_drop]
    omega
  · rw [length_take, ← take_eq_take_min]
  · rintro r rfl rfl rfl rfl hend
    have hmore : r.readMoreBytes answers = some r := by
      rw [BufferedReader.readMoreBytes, readMoreBuffer, hread,
        show min _ (r.fileLenValid - r.fileOffsetOfNextRead) = 0 by omega]
      simp
    constructor
    · intro hempty
      rw [BufferedReader.fillBuf, hempty, hmore]
      rfl
    · intro n hshort hcapacity
      rw [BufferedReader.fillBufRequired, if_pos hshort, hmore, Option.map_some, if_pos hshort,
        if_neg (by omega)]

theorem readIntoBuffer_returns_interrupted :
    ∃ bytes, readIntoBuffer ['a', 'b', 'c'] 3 1 2 [none, some 0, none, some 4] = some bytes ∧
      bytes.length = 2 ∧ bytes = ['b', 'c'].take bytes.length :=
  ((readIntoBuffer_returns ['a', 'b', 'c'] 3 1 2).mpr (by decide) [none, some 0, none, some 4]
    (by decide)).1

/-- A file of one byte that should have two: neither a read nor a reader behind the byte returns. -/
theorem readIntoBuffer_never_returns :
    (∀ answers, readIntoBuffer ['a'] 2 0 2 answers = none) ∧
    ∀ answers, (BufferedReader.mk 2 1 [] 2 ['a']).fillBuf answers = none := by
  constructor
  · intro answers
    rw [readIntoBuffer_eq (fun h => absurd h (by decide)), if_neg (by decide)]
  · intro answers
    show Option.map _ (Option.map _ (readIntoBuffer ['a'] 2 1 2 answers)) = none
    rw [readIntoBuffer_eq (fun h => absurd h (by decide)), if_neg (by decide)]
    rfl

end Agave.Fs
