/-
  Agave.AccountsDb.InMemAccountsIndex

  One bin of the accounts index, in memory and on disk.

  An entry in memory is clean when it needs no write to disk, and only a clean entry may be evicted.
  Disk writes happen outside of all locks: an operation copies an entry out, writes the copy, and in
  write-through mode compares the entry with its copy before it marks the entry clean.  Threads are
  modelled by the jobs they have left between two atomic steps.

  An entry is updated and marked dirty in one step, and copied out and marked clean in one step.
  The source holds the map's read lock in between, so that no eviction and no deletion comes there.
  A flush reads the dirty flag before it locks the slot list; an update that comes between the two
  is one that comes before it, followed by one that changes nothing.  A lookup reads the disk after
  it has missed in memory; the entry may be there by then, so the miss is not asked for.

  Steps of different pubkeys share nothing but the map's lock, so the bin is a cell for each pubkey.
  `last` is not in the source: it is what the last completed update or deletion left, and what a
  lookup should return.
-/

import Agave.Basic

namespace Agave.AccountsDb.InMem

open Function List

variable {T : Type}

/-- A slot list with its reference count. -/
abbrev IndexValue (T : Type) := List (Nat × T) × Nat

structure AccountMapEntry (T : Type) where
  slotList : List (Nat × T)
  refCount : Nat
  dirty : Bool
deriving DecidableEq

namespace AccountMapEntry

def value (e : AccountMapEntry T) : IndexValue T := (e.slotList, e.refCount)

/-- The entry after an update. -/
def updated (value : IndexValue T) : AccountMapEntry T := ⟨value.1, value.2, true⟩

/-- The entry as it is loaded from disk. -/
def loaded (value : IndexValue T) : AccountMapEntry T := ⟨value.1, value.2, false⟩

end AccountMapEntry

/-- The one item of a regular value, which is the only kind that is written to disk. -/
def regular : IndexValue T → Option (Nat × T)
  | ([item], 1) => some item
  | _ => none

/-- What a thread has left to do. -/
inductive Job (T : Type) where
  /-- `write_to_disk`, after which `write_through` compares and a flush does not. -/
  | writing (item : Nat × T) (recheck : Bool)
  /-- The comparison in `write_through`. -/
  | checking (item : Nat × T)
  /-- `get_internal_inner`, with what it read from disk. -/
  | loaded (value : IndexValue T)
deriving DecidableEq

/-- The state of one pubkey. -/
structure Cell (T : Type) where
  mem : Option (AccountMapEntry T)
  disk : Option (IndexValue T)
  jobs : List (Job T)
  last : Option (IndexValue T)
deriving DecidableEq

inductive Action (T : Type) where
  /-- `slot_list_mut_with_entry`, `replace` or `upsert`, on an entry in memory.  With
      `through`, the first two go on to write the entry to disk. -/
  | update (value : IndexValue T) (through : Bool)
  /-- `get_or_create_index_entry_for_pubkey`, on a pubkey that is not in memory. -/
  | create (value : IndexValue T) (through : Bool)
  /-- `get_internal_inner` reads the disk. -/
  | load
  /-- `get_internal_inner` goes on under the map's lock, with an update or none. -/
  | install (loaded : IndexValue T) (value : Option (IndexValue T)) (through addToCache : Bool)
  /-- `try_write_through` copies the entry out. -/
  | copyThrough
  /-- `try_make_entry_for_flush` copies the entry out and clears the dirty flag. -/
  | copyFlush
  | write (item : Nat × T) (recheck : Bool)
  | check (item : Nat × T)
  | evict
  /-- `remove_if_slot_list_empty`. -/
  | delete
deriving DecidableEq

namespace Cell

/-- What a lookup returns. -/
def lookup (c : Cell T) : Option (IndexValue T) :=
  match c.mem with
  | some e => some e.value
  | none => c.disk

/-- The disk write that an update goes on to, in write-through mode only. -/
def through (writeThrough : Bool) (value : IndexValue T) : Bool → Option (List (Job T))
  | false => some []
  | true =>
    if writeThrough then (regular value).map fun item => [.writing item true] else none

/-- The entry of a cell gets a new value. -/
def put (writeThrough : Bool) (c : Cell T) (value : IndexValue T) (goesOn : Bool) :
    Option (Cell T) :=
  (through writeThrough value goesOn).map fun jobs =>
    { c with
      mem := some (.updated value)
      jobs := c.jobs ++ jobs
      last := some value }

variable [DecidableEq T]

/-- One atomic step, where it is possible. -/
def next (writeThrough : Bool) (c : Cell T) : Action T → Option (Cell T)
  | .update value goesOn =>
    match c.mem with
    | some _ => c.put writeThrough value goesOn
    | none => none
  | .create value goesOn =>
    match c.mem with
    | some _ => none
    | none => if value.1 = [] then none else c.put writeThrough value goesOn
  | .load => c.disk.map fun value => { c with jobs := c.jobs ++ [.loaded value] }
  | .install loaded value goesOn addToCache =>
    if .loaded loaded ∈ c.jobs then
      let c := { c with jobs := c.jobs.erase (.loaded loaded) }
      match value with
      | some value => c.put writeThrough value goesOn
      | none =>
        match c.mem with
        | some _ => some c
        | none => some (if addToCache then { c with mem := some (.loaded loaded) } else c)
    else none
  | .copyThrough =>
    match c.mem with
    | some e =>
      if e.dirty then
        (regular e.value).map fun item => { c with jobs := c.jobs ++ [.writing item true] }
      else none
    | none => none
  | .copyFlush =>
    match c.mem with
    | some e =>
      if e.dirty then
        (regular e.value).map fun item =>
          { c with
            mem := some { e with dirty := false }
            jobs := c.jobs ++ [.writing item false] }
      else none
    | none => none
  | .write item recheck =>
    if .writing item recheck ∈ c.jobs then
      some { c with
        disk := some ([item], 1)
        jobs := c.jobs.erase (.writing item recheck) ++ if recheck then [.checking item] else [] }
    else none
  | .check item =>
    if .checking item ∈ c.jobs then
      some { c with
        mem := c.mem.map fun e => if e.value = ([item], 1) then { e with dirty := false } else e
        jobs := c.jobs.erase (.checking item) }
    else none
  | .evict =>
    match c.mem with
    | some e => if e.dirty then none else some { c with mem := none }
    | none => none
  | .delete =>
    match c.mem with
    | some e => if e.slotList = [] then some { c with mem := none, disk := none, last := none }
        else none
    | none =>
      match c.disk with
      | some value => if value.1 = [] then some { c with disk := none, last := none } else none
      | none => none

end Cell

/-! ## Runs -/

/-- A bin: a cell for each pubkey. -/
abbrev Bin (T : Type) := Pubkey → Cell T

variable [DecidableEq T]

/-- A bin before any operation, with whatever is on its disk. -/
def Bin.start (disk : Pubkey → Option (IndexValue T)) : Bin T :=
  fun pubkey => ⟨none, disk pubkey, [], disk pubkey⟩

/-- The bins that any interleaving of operations leads to, each step of which is `allowed`. -/
inductive Reachable (writeThrough : Bool) (allowed : Cell T → Action T → Prop) : Bin T → Prop where
  | start (disk : Pubkey → Option (IndexValue T)) : Reachable writeThrough allowed (.start disk)
  | step {bin : Bin T} (h : Reachable writeThrough allowed bin) (pubkey : Pubkey)
      (action : Action T) (c : Cell T) (hallowed : allowed (bin pubkey) action)
      (hnext : (bin pubkey).next writeThrough action = some c) :
      Reachable writeThrough allowed (Function.update bin pubkey c)

/-- Every step is taken whenever it is possible. -/
def Any (_ : Cell T) (_ : Action T) : Prop := True

/-- Operations on one pubkey wait for each other: a step that starts a disk write or read,
    an eviction or a deletion finds no other disk write or read under way. -/
def Serialized (c : Cell T) : Action T → Prop
  | .update _ goesOn => goesOn = true → c.jobs = []
  | .create _ goesOn => goesOn = true → c.jobs = []
  | .load => c.jobs = []
  | .install loaded _ goesOn _ => goesOn = true → c.jobs.erase (.loaded loaded) = []
  | .copyThrough => c.jobs = []
  | .copyFlush => c.jobs = []
  | .write _ _ => True
  | .check _ => True
  | .evict => c.jobs = []
  | .delete => c.jobs = []

/-! ## The phases of a cell -/

/-- Memory, disk and the last update agree, up to the one job under way. -/
inductive Coherent : Cell T → Prop where
  | missing {value : Option (IndexValue T)} : Coherent ⟨none, value, [], value⟩
  | cached {e : AccountMapEntry T} {disk : Option (IndexValue T)}
      (hclean : e.dirty = false → disk = some e.value) : Coherent ⟨some e, disk, [], some e.value⟩
  | writingThrough {e : AccountMapEntry T} {disk : Option (IndexValue T)} {item : Nat × T}
      (hdirty : e.dirty = true) : Coherent ⟨some e, disk, [.writing item true], some e.value⟩
  /-- A flush marks the entry clean before it writes. -/
  | flushing {e : AccountMapEntry T} {disk : Option (IndexValue T)} {item : Nat × T}
      (hclean : e.dirty = false → e.value = ([item], 1)) :
      Coherent ⟨some e, disk, [.writing item false], some e.value⟩
  | checking {e : AccountMapEntry T} {item : Nat × T} (hdirty : e.dirty = true) :
      Coherent ⟨some e, some ([item], 1), [.checking item], some e.value⟩
  | loading {value : IndexValue T} :
      Coherent ⟨none, some value, [.loaded value], some value⟩
  /-- The entry came into memory before the thread that reads the disk goes on. -/
  | overtaken {e : AccountMapEntry T} {disk : Option (IndexValue T)} {value : IndexValue T}
      (hclean : e.dirty = false → disk = some e.value) :
      Coherent ⟨some e, disk, [.loaded value], some e.value⟩

variable {c c' : Cell T} {writeThrough goesOn : Bool} {item : Nat × T} {value : IndexValue T}
  {bin : Bin T}

omit [DecidableEq T] in
theorem regular_eq_some_iff :
    regular value = some item ↔ value = ([item], 1) := by
  unfold regular
  split
  · constructor
    · intro h
      rw [Option.some.inj h]
    · intro h
      cases h
      rfl
  · rename_i hne
    refine iff_of_false (Option.some_ne_none item).symm ?_
    rintro rfl
    exact hne item rfl

omit [DecidableEq T] in
/-- An update that is not written through leaves the job that is under way. -/
theorem Coherent.update (h : Coherent c) (value : IndexValue T) :
    Coherent { c with mem := some (.updated value), last := some value } := by
  cases h with
  | missing => exact .cached (fun hclean => (Bool.noConfusion hclean))
  | cached _ => exact .cached (fun hclean => (Bool.noConfusion hclean))
  | writingThrough _ => exact .writingThrough rfl
  | flushing _ => exact .flushing (fun hclean => (Bool.noConfusion hclean))
  | checking _ => exact .checking rfl
  | loading => exact .overtaken (fun hclean => (Bool.noConfusion hclean))
  | overtaken _ => exact .overtaken (fun hclean => (Bool.noConfusion hclean))

omit [DecidableEq T] in
theorem Coherent.put (h : Coherent c)
    (hjobs : goesOn = true → c.jobs = []) (hput : c.put writeThrough value goesOn = some c') :
    Coherent c' := by
  obtain ⟨jobs, hthrough, rfl⟩ := Option.map_eq_some_iff.mp hput
  cases goesOn with
  | false =>
    cases hthrough
    simp only [append_nil]
    exact h.update value
  | true =>
    simp only [Cell.through] at hthrough
    split at hthrough
    · obtain ⟨item, -, rfl⟩ := Option.map_eq_some_iff.mp hthrough
      rw [hjobs rfl]
      exact .writingThrough rfl
    · cases hthrough

omit [DecidableEq T] in
/-- Without a job the cell is at rest: nothing in memory, or an entry that is on disk if clean. -/
theorem Coherent.idle (h : Coherent c) (hjobs : c.jobs = []) :
    (∃ value, c = ⟨none, value, [], value⟩) ∨
      ∃ e disk, (e.dirty = false → disk = some e.value) ∧ c = ⟨some e, disk, [], some e.value⟩ := by
  cases h with
  | missing => exact .inl ⟨_, rfl⟩
  | cached hclean => exact .inr ⟨_, _, hclean, rfl⟩
  | writingThrough _ => cases hjobs
  | flushing _ => cases hjobs
  | checking _ => cases hjobs
  | loading => cases hjobs
  | overtaken _ => cases hjobs

section

variable (h : Coherent c) {loaded : IndexValue T}
include h

theorem Coherent.load (hjobs : c.jobs = [])
    (hnext : c.next writeThrough .load = some c') : Coherent c' := by
  obtain ⟨value, hdisk, rfl⟩ := Option.map_eq_some_iff.mp hnext
  obtain ⟨value', rfl⟩ | ⟨e, disk, hclean, rfl⟩ := h.idle hjobs
  · cases hdisk
    exact .loading
  · exact .overtaken hclean

/-- The job that has loaded a value finds the cell as it left it, or an entry in memory. -/
theorem Coherent.loaded_cases (hjob : .loaded loaded ∈ c.jobs) :
    c.jobs.erase (.loaded loaded) = [] ∧
      ((c.mem = none ∧ c.disk = some loaded ∧ c.last = some loaded) ∨
        ∃ e, c.mem = some e ∧ (e.dirty = false → c.disk = some e.value) ∧
          c.last = some e.value) := by
  cases h with
  | missing => cases hjob
  | cached _ => cases hjob
  | writingThrough _ => cases mem_singleton.mp hjob
  | flushing _ => cases mem_singleton.mp hjob
  | checking _ => cases mem_singleton.mp hjob
  | loading =>
    cases mem_singleton.mp hjob
    exact ⟨erase_cons_head _ _, .inl ⟨rfl, rfl, rfl⟩⟩
  | overtaken hclean =>
    cases mem_singleton.mp hjob
    exact ⟨erase_cons_head _ _, .inr ⟨_, rfl, hclean, rfl⟩⟩

theorem Coherent.install {value : Option (IndexValue T)} {addToCache : Bool}
    (hnext : c.next writeThrough (.install loaded value goesOn addToCache) = some c') :
    Coherent c' := by
  simp only [Cell.next] at hnext
  split at hnext
  · rename_i hjob
    obtain ⟨hjobs, hcases⟩ := h.loaded_cases hjob
    -- with its job gone, the cell is at rest
    have hrest : Coherent { c with jobs := c.jobs.erase (.loaded loaded) } := by
      rw [hjobs]
      obtain ⟨mem, disk, jobs, last⟩ := c
      rcases hcases with ⟨rfl, rfl, rfl⟩ | ⟨e, rfl, hclean, rfl⟩
      · exact .missing
      · exact .cached hclean
    cases value with
    | some value => exact hrest.put (fun _ => hjobs) hnext
    | none =>
      obtain ⟨mem, disk, jobs, last⟩ := c
      rcases hcases with ⟨rfl, rfl, rfl⟩ | ⟨e, rfl, -, rfl⟩
      · cases hnext
        cases addToCache with
        | true =>
          simp only [hjobs, if_true]
          exact .cached (fun _ => rfl)
        | false => exact hrest
      · cases hnext
        exact hrest
  · cases hnext

theorem Coherent.copyThrough (hjobs : c.jobs = [])
    (hnext : c.next writeThrough .copyThrough = some c') : Coherent c' := by
  obtain ⟨value, rfl⟩ | ⟨e, disk, -, rfl⟩ := h.idle hjobs
  · cases hnext
  · simp only [Cell.next] at hnext
    split at hnext
    · rename_i hdirty
      obtain ⟨item, -, rfl⟩ := Option.map_eq_some_iff.mp hnext
      exact .writingThrough hdirty
    · cases hnext

theorem Coherent.copyFlush (hjobs : c.jobs = [])
    (hnext : c.next writeThrough .copyFlush = some c') : Coherent c' := by
  obtain ⟨value, rfl⟩ | ⟨e, disk, -, rfl⟩ := h.idle hjobs
  · cases hnext
  · simp only [Cell.next] at hnext
    split at hnext
    · obtain ⟨item, hitem, rfl⟩ := Option.map_eq_some_iff.mp hnext
      exact Coherent.flushing (e := { e with dirty := false })
        (fun _ => regular_eq_some_iff.mp hitem)
    · cases hnext

theorem Coherent.write {recheck : Bool}
    (hnext : c.next writeThrough (.write item recheck) = some c') : Coherent c' := by
  simp only [Cell.next] at hnext
  split at hnext
  · rename_i hjob
    cases hnext
    cases h with
    | missing => cases hjob
    | cached _ => cases hjob
    | writingThrough hdirty =>
      cases mem_singleton.mp hjob
      simp only [erase_cons_head, nil_append, if_true]
      exact .checking hdirty
    | flushing hclean =>
      cases mem_singleton.mp hjob
      simp only [erase_cons_head, nil_append, Bool.false_eq_true, if_false]
      exact .cached (fun h => by rw [hclean h])
    | checking _ => cases mem_singleton.mp hjob
    | loading => cases mem_singleton.mp hjob
    | overtaken _ => cases mem_singleton.mp hjob
  · cases hnext

theorem Coherent.check (hnext : c.next writeThrough (.check item) = some c') : Coherent c' := by
  simp only [Cell.next] at hnext
  split at hnext
  · rename_i hjob
    cases hnext
    cases h with
    | missing => cases hjob
    | cached _ => cases hjob
    | writingThrough _ => cases mem_singleton.mp hjob
    | flushing _ => cases mem_singleton.mp hjob
    | @checking e _ hdirty =>
      cases mem_singleton.mp hjob
      simp only [erase_cons_head, Option.map_some]
      split
      · rename_i hsame
        exact Coherent.cached (e := { e with dirty := false }) (fun _ => by rw [← hsame]; rfl)
      · exact .cached (fun hclean => absurd (hdirty.symm.trans hclean) Bool.noConfusion)
    | loading => cases mem_singleton.mp hjob
    | overtaken _ => cases mem_singleton.mp hjob
  · cases hnext

theorem Coherent.evict (hjobs : c.jobs = [])
    (hnext : c.next writeThrough .evict = some c') : Coherent c' := by
  obtain ⟨value, rfl⟩ | ⟨e, disk, hclean, rfl⟩ := h.idle hjobs
  · cases hnext
  · simp only [Cell.next] at hnext
    split at hnext
    · cases hnext
    · rename_i hdirty
      cases hnext
      rw [hclean (eq_false_of_ne_true hdirty)]
      exact .missing

theorem Coherent.delete (hjobs : c.jobs = [])
    (hnext : c.next writeThrough .delete = some c') : Coherent c' := by
  obtain ⟨value, rfl⟩ | ⟨e, disk, -, rfl⟩ := h.idle hjobs
  · cases value with
    | none => cases hnext
    | some value =>
      simp only [Cell.next] at hnext
      split at hnext
      · cases hnext
        exact .missing
      · cases hnext
  · simp only [Cell.next] at hnext
    split at hnext
    · cases hnext
      exact .missing
    · cases hnext

theorem Coherent.next {action : Action T} (hserialized : Serialized c action)
    (hnext : c.next writeThrough action = some c') : Coherent c' := by
  cases action with
  | update value goesOn =>
    simp only [Cell.next] at hnext
    split at hnext
    · exact h.put hserialized hnext
    · cases hnext
  | create value goesOn =>
    simp only [Cell.next] at hnext
    split at hnext
    · cases hnext
    · split at hnext
      · cases hnext
      · exact h.put hserialized hnext
  | load => exact h.load hserialized hnext
  | install loaded value goesOn addToCache => exact h.install hnext
  | copyThrough => exact h.copyThrough hserialized hnext
  | copyFlush => exact h.copyFlush hserialized hnext
  | write item recheck => exact h.write hnext
  | check item => exact h.check hnext
  | evict => exact h.evict hserialized hnext
  | delete => exact h.delete hserialized hnext

end

theorem Reachable.coherent (h : Reachable writeThrough Serialized bin)
    (pubkey : Pubkey) : Coherent (bin pubkey) := by
  induction h generalizing pubkey with
  | start disk => exact .missing
  | step _ key action c hserialized hnext ih =>
    rw [update_apply]
    split
    · exact (ih key).next hserialized hnext
    · exact ih pubkey

omit [DecidableEq T] in
/-- The last update is found in memory or on disk, whatever job is under way. -/
theorem Coherent.lookup_eq (h : Coherent c) : c.lookup = c.last := by
  cases h <;> rfl

omit [DecidableEq T] in
theorem Coherent.clean_eq_disk (h : Coherent c)
    (hwritten : ∀ item recheck, .writing item recheck ∉ c.jobs) {e : AccountMapEntry T}
    (hmem : c.mem = some e) (hclean : e.dirty = false) : c.disk = some e.value := by
  cases h with
  | missing => cases hmem
  | cached hdisk =>
    cases hmem
    exact hdisk hclean
  | writingThrough _ => exact absurd mem_cons_self (hwritten _ _)
  | flushing _ => exact absurd mem_cons_self (hwritten _ _)
  | checking hdirty =>
    cases hmem
    exact absurd (hdirty.symm.trans hclean) Bool.noConfusion
  | loading => cases hmem
  | overtaken hdisk =>
    cases hmem
    exact hdisk hclean

/-! ## Two delayed writes -/

/-- Steps on one pubkey, one after the other. -/
def Cell.run (writeThrough : Bool) (c : Cell T) : List (Action T) → Option (Cell T)
  | [] => some c
  | action :: actions => (c.next writeThrough action).bind fun c => c.run writeThrough actions

theorem Reachable.run (h : Reachable writeThrough Any bin) (pubkey : Pubkey)
    {actions : List (Action T)} (hrun : (bin pubkey).run writeThrough actions = some c) :
    Reachable writeThrough Any (update bin pubkey c) := by
  induction actions generalizing bin with
  | nil =>
    cases hrun
    rwa [update_eq_self]
  | cons action actions ih =>
    obtain ⟨c₁, hnext, hrun⟩ := Option.bind_eq_some_iff.mp hrun
    have hstep := h.step pubkey action c₁ trivial hnext
    have hidem : update (update bin pubkey c₁) pubkey c =
        update bin pubkey c := update_idem _ _ _
    rw [← hidem]
    exact ih hstep (by rwa [update_self])

/-- Two updates are written through at the same time.  The second one is on disk and marked
    clean before the write of the first one arrives; the comparison of the first one fails,
    and leaves the entry clean. -/
def delayedWrite : List (Action Nat) :=
  [.create ([(4, 9)], 1) false, .update ([(5, 10)], 1) true, .update ([(6, 11)], 1) true,
    .write (6, 11) true, .check (6, 11), .write (5, 10) true, .check (5, 10)]

/-- The clean entry differs from the disk with nothing under way, and once it is evicted a
    lookup returns the older update. -/
theorem delayed_write_leaves_stale_disk :
    (∃ bin : Bin Nat, Reachable true Any bin ∧ (bin 0).jobs = [] ∧
      (bin 0).mem = some ⟨[(6, 11)], 1, false⟩ ∧ (bin 0).disk = some ([(5, 10)], 1)) ∧
    ∃ bin : Bin Nat, Reachable true Any bin ∧ (bin 0).jobs = [] ∧
      (bin 0).last = some ([(6, 11)], 1) ∧ (bin 0).lookup = some ([(5, 10)], 1) := by
  have hstart : Reachable true Any (Bin.start (T := Nat) fun _ => none) := .start _
  have hwritten : (Cell.mk none none [] none).run true delayedWrite =
      some ⟨some ⟨[(6, 11)], 1, false⟩, some ([(5, 10)], 1), [], some ([(6, 11)], 1)⟩ := by
    decide
  have hevicted : (Cell.mk none none [] none).run true (delayedWrite ++ [.evict]) =
      some ⟨none, some ([(5, 10)], 1), [], some ([(6, 11)], 1)⟩ := by
    decide
  constructor
  · refine ⟨_, hstart.run 0 hwritten, ?_⟩
    rw [update_self]
    exact ⟨rfl, rfl, rfl⟩
  · refine ⟨_, hstart.run 0 hevicted, ?_⟩
    rw [update_self]
    exact ⟨rfl, rfl, rfl⟩

/-- Where operations on one pubkey wait for each other, a clean entry is what is on disk once no
    disk write is pending, and a lookup returns what the last update left. -/
theorem serialized_index_coherent {bin : Bin T} (h : Reachable writeThrough Serialized bin)
    (pubkey : Pubkey) :
    (bin pubkey).lookup = (bin pubkey).last ∧
      ((∀ item recheck, .writing item recheck ∉ (bin pubkey).jobs) →
        ∀ e, (bin pubkey).mem = some e → e.dirty = false →
          (bin pubkey).disk = some e.value) := by
  have hcoherent := h.coherent pubkey
  exact ⟨hcoherent.lookup_eq, fun hwritten e hmem hclean =>
    hcoherent.clean_eq_disk hwritten hmem hclean⟩

/-- An update that is written through, and then a lookup that has missed it in memory. -/
theorem serialized_index_coherent_written :
    ∃ bin : Bin Nat, Reachable true Serialized bin ∧
      (bin 0).jobs = [.loaded ([(5, 10)], 1)] ∧ (bin 0).mem = some ⟨[(5, 10)], 1, false⟩ ∧
      (bin 0).disk = some ([(5, 10)], 1) := by
  have h₀ : Reachable true Serialized (Bin.start (T := Nat) fun _ => none) := .start _
  have h₁ := h₀.step 0 (.create ([(5, 10)], 1) true)
    ⟨some ⟨[(5, 10)], 1, true⟩, none, [.writing (5, 10) true], some ([(5, 10)], 1)⟩
    (fun _ => rfl) (by decide)
  have h₂ := h₁.step 0 (.write (5, 10) true)
    ⟨some ⟨[(5, 10)], 1, true⟩, some ([(5, 10)], 1), [.checking (5, 10)], some ([(5, 10)], 1)⟩
    trivial (by rw [update_self]; decide)
  have h₃ := h₂.step 0 (.check (5, 10))
    ⟨some ⟨[(5, 10)], 1, false⟩, some ([(5, 10)], 1), [], some ([(5, 10)], 1)⟩
    trivial (by rw [update_self]; decide)
  have h₄ := h₃.step 0 .load
    ⟨some ⟨[(5, 10)], 1, false⟩, some ([(5, 10)], 1), [.loaded ([(5, 10)], 1)],
      some ([(5, 10)], 1)⟩ (by rw [update_self]; rfl) (by rw [update_self]; decide)
  refine ⟨_, h₄, by rw [update_self], by rw [update_self], ?_⟩
  exact (serialized_index_coherent h₄ 0).2 (by rw [update_self]; simp)
    ⟨[(5, 10)], 1, false⟩ (by rw [update_self]) rfl

end Agave.AccountsDb.InMem

