import Zeno.Lib.Machine
import Zeno.Wal.Payload

/-!
# The log file of the server

With the flush hook the server keeps a log of its own (`WALLogOperator`,
`wal.hpp`).  The workers append items to a list in shared memory, and `flush`
writes the entries of the pending items behind those in the file.  Where to
write is in the header of the file, and each worker has a copy of the header
that it loads once, in `init`, and updates by its own calls only.

So a flush is in its place if the worker's copy is up to date, and otherwise it
overwrites entries that another worker has flushed.  In every run whose flushes
are made by workers whose copy is up to date, a process that starts afterwards
replays what was flushed since the last truncate, in order
(`flushed_entries_replayed`).  That the position in the header is a proper one
holds in all runs (`header_valid`).
-/

namespace Zeno

/-! ## The file -/

/-- `sizeof(WALEntry)`. -/
def walEntrySize : Nat := 560

/-- `WAL_MAGIC`. -/
def walMagic : Nat := 0x4645444257414c34

/-- `WAL_FILE_SIZE`. -/
def walFileSize : Nat := 4 * 2 ^ 30

/-- `WAL_DATA_OFFSET`. -/
def walDataOffset : Nat := pageSize

/-- `MAX_PENDING_ITEMS`. -/
def maxPendingItems : Nat := 2 ^ 20

/-- `WALEntry`, as the bytes it has in the file. -/
structure WALEntry where
  /-- The bytes. -/
  bytes : List UInt8
  /-- Their number. -/
  sized : bytes.length = walEntrySize
deriving DecidableEq

/-- `WALHeader`. -/
structure WALHeader where
  /-- The magic number. -/
  magic : Nat
  /-- Where the next entry is written. -/
  writePos : Nat
deriving DecidableEq

/-- The check of `init_wal_file`. -/
def WALHeader.Valid (h : WALHeader) : Prop :=
  h.magic = walMagic ∧ walDataOffset ≤ h.writePos ∧ h.writePos ≤ walFileSize ∧
    (h.writePos - walDataOffset) % walEntrySize = 0

instance (h : WALHeader) : Decidable h.Valid := inferInstanceAs (Decidable (_ ∧ _ ∧ _ ∧ _))

/-- The log file.  The header has a page of its own. -/
structure LogFile where
  /-- The header. -/
  header : WALHeader
  /-- The bytes, by their offset in the file. -/
  data : Mem

namespace LogFile

/-- The header that `init_wal_file` leaves in the file and in the worker's copy. -/
def initHeader (f : LogFile) : WALHeader :=
  if f.header.Valid then f.header else ⟨walMagic, walDataOffset⟩

/-- The loop of `replay`, from a position on, over at most `fuel` entries. -/
def readEntries (f : LogFile) (stop : Nat) : Nat → Nat → List (List UInt8)
  | 0, _ => []
  | fuel + 1, pos =>
      if pos < stop then
        f.data.read pos walEntrySize :: f.readEntries stop fuel (pos + walEntrySize)
      else []

/-- The entries that `replay` reads in a process that starts now. -/
def replay (f : LogFile) : List (List UInt8) :=
  f.readEntries f.initHeader.writePos f.initHeader.writePos walDataOffset

/-- The bytes of some entries. -/
def bytesOf (es : List WALEntry) : List UInt8 := es.flatMap WALEntry.bytes

/-- The file holds exactly some entries. -/
structure Holds (f : LogFile) (es : List WALEntry) : Prop where
  /-- The header is behind the last one. -/
  position : f.initHeader.writePos = walDataOffset + walEntrySize * es.length
  /-- The bytes are those of the entries. -/
  bytes : f.data.Holds walDataOffset (bytesOf es)

theorem length_bytesOf (es : List WALEntry) : (bytesOf es).length = walEntrySize * es.length := by
  induction es with
  | nil => rfl
  | cons e es ih =>
      have hrest : (es.flatMap WALEntry.bytes).length = walEntrySize * es.length := ih
      rw [bytesOf, List.flatMap_cons, List.length_append, e.sized, hrest, List.length_cons,
        Nat.mul_succ, Nat.add_comm]

theorem bytesOf_append (es new : List WALEntry) :
    bytesOf (es ++ new) = bytesOf es ++ bytesOf new :=
  List.flatMap_append

theorem readEntries_eq {f : LogFile} {es : List WALEntry} {pos stop fuel : Nat}
    (hbytes : f.data.Holds pos (bytesOf es)) (hstop : stop = pos + walEntrySize * es.length)
    (hfuel : es.length ≤ fuel) : f.readEntries stop fuel pos = es.map WALEntry.bytes := by
  induction es generalizing pos fuel with
  | nil =>
      cases fuel with
      | zero => rfl
      | succ fuel =>
          rw [List.length_nil, Nat.mul_zero, Nat.add_zero] at hstop
          simp [readEntries, hstop]
  | cons e es ih =>
      cases fuel with
      | zero => cases hfuel
      | succ fuel =>
          rw [List.length_cons, Nat.mul_succ] at hstop
          have hlt : pos < stop := by
            simp only [walEntrySize] at hstop
            omega
          obtain ⟨hfirst, hrest⟩ := Mem.holds_append.mp hbytes
          have hread := Mem.read_of_holds hfirst
          rw [e.sized] at hread hrest
          rw [readEntries, if_pos hlt, hread, ih hrest (by omega) (by simpa using hfuel),
            List.map_cons]

/-- What a file holds is what a process that starts now replays. -/
theorem Holds.replay {f : LogFile} {es : List WALEntry} (h : f.Holds es) :
    f.replay = es.map WALEntry.bytes := by
  refine readEntries_eq h.bytes h.position ?_
  rw [h.position]
  simp only [walEntrySize]
  omega

theorem initHeader_of_valid {f : LogFile} (h : f.header.Valid) : f.initHeader = f.header :=
  if_pos h

theorem valid_reset : WALHeader.Valid ⟨walMagic, walDataOffset⟩ := by decide

theorem valid_initHeader (f : LogFile) : f.initHeader.Valid := by
  unfold initHeader
  split
  · assumption
  · exact valid_reset

/-- A reset header says that the file is empty. -/
theorem holds_reset (data : Mem) : LogFile.Holds ⟨⟨walMagic, walDataOffset⟩, data⟩ [] := by
  refine ⟨?_, fun _ hlt => nomatch hlt⟩
  rw [initHeader_of_valid valid_reset]
  simp

/-- To write down the header that `init` has found changes nothing for a process
that starts afterwards. -/
theorem Holds.init {f : LogFile} {es : List WALEntry} (h : f.Holds es) :
    LogFile.Holds ⟨f.initHeader, f.data⟩ es := by
  refine ⟨?_, h.bytes⟩
  rw [initHeader_of_valid f.valid_initHeader]
  exact h.position

/-- Entries written where the header points are behind those the file holds. -/
theorem Holds.append {f : LogFile} {es new : List WALEntry} (h : f.Holds es)
    (hvalid : f.header.Valid)
    (hnew : WALHeader.Valid ⟨walMagic, f.header.writePos + walEntrySize * new.length⟩) :
    LogFile.Holds ⟨⟨walMagic, f.header.writePos + walEntrySize * new.length⟩,
      f.data.write f.header.writePos (bytesOf new)⟩ (es ++ new) := by
  have hpos : f.header.writePos = walDataOffset + walEntrySize * es.length := by
    rw [← initHeader_of_valid hvalid]
    exact h.position
  constructor
  · rw [initHeader_of_valid hnew]
    simp only [hpos, List.length_append, Nat.mul_add, Nat.add_assoc]
  · rw [bytesOf_append]
    refine Mem.holds_append.mpr ⟨h.bytes.congr fun a _ ha => ?_, ?_⟩
    · rw [length_bytesOf, ← hpos] at ha
      exact Mem.write_of_lt ha
    · rw [length_bytesOf, ← hpos]
      exact Mem.holds_write _ _ _

end LogFile

/-! ## The workers -/

/-- The pending items, the log file, and what each worker has of it. -/
structure WalLog (ι : Type) where
  /-- The log file. -/
  file : LogFile
  /-- The pending items, in shared memory. -/
  pending : List WalRidItem
  /-- Each worker's copy of the header; `none` before `init`. -/
  cached : ι → Option WALHeader
  /-- The entries flushed since the last truncate. -/
  flushed : List WALEntry

/-- The locked sections.  What an item is materialized to is the store's business
and is part of the call. -/
inductive WalCall (ι : Type) where
  | init (i : ι)
  | append (i : ι) (items : List WalRidItem)
  | flush (i : ι) (materialize : WalRidItem → WALEntry)
  | truncate (i : ι)

namespace WalLog

variable {ι : Type}

/-- No worker has started. -/
def start (file : LogFile) (pending : List WalRidItem) (flushed : List WALEntry) : WalLog ι :=
  ⟨file, pending, fun _ => none, flushed⟩

/-- The copy of the header is what the file says of the position, if the flush has
anything to write. -/
def UpToDate (s : WalLog ι) : WalCall ι → Prop
  | .flush i _ =>
      s.pending = [] ∨ (s.cached i).map WALHeader.writePos = some s.file.header.writePos
  | _ => True

variable [DecidableEq ι]

/-- One locked section.  `none` is a failed check. -/
def step (s : WalLog ι) : WalCall ι → Option (WalLog ι)
  | .init i =>
      match s.cached i with
      | some _ => some s
      | none =>
          some { s with
            file := ⟨s.file.initHeader, s.file.data⟩
            cached := Function.update s.cached i (some s.file.initHeader) }
  | .append i items =>
      if items = [] then some s else do
        let _ ← s.cached i
        if s.pending.length + items.length ≤ maxPendingItems then
          some { s with pending := s.pending ++ items }
        else none
  | .flush i materialize => do
      let h ← s.cached i
      if s.pending = [] then some s else
        let entries := s.pending.map materialize
        let size := walEntrySize * entries.length
        if h.writePos + size ≤ walFileSize then
          let h' : WALHeader := ⟨walMagic, h.writePos + size⟩
          some
            { file := ⟨h', s.file.data.write h.writePos (LogFile.bytesOf entries)⟩
              pending := []
              cached := Function.update s.cached i (some h')
              flushed := s.flushed ++ entries }
        else none
  | .truncate i => do
      let _ ← s.cached i
      let h' : WALHeader := ⟨walMagic, walDataOffset⟩
      some
        { file := ⟨h', s.file.data⟩
          pending := []
          cached := Function.update s.cached i (some h')
          flushed := [] }

/-- The headers are proper: every copy, and the one in the file once a worker has
started. -/
structure Proper (s : WalLog ι) : Prop where
  /-- The copies. -/
  cached : ∀ i h, s.cached i = some h → h.Valid
  /-- The file. -/
  file : s.file.header.Valid ∨ ∀ i, s.cached i = none

omit [DecidableEq ι] in
theorem Proper.valid_of_cached {s : WalLog ι} (hs : s.Proper) {i : ι} {h : WALHeader}
    (hi : s.cached i = some h) : s.file.header.Valid :=
  hs.file.resolve_right fun hnone => nomatch (hnone i).symm.trans hi

/-- A worker that has written its copy to the file. -/
theorem proper_update {s t : WalLog ι} (hs : s.Proper) {i : ι} {h : WALHeader} (hh : h.Valid)
    (hfile : t.file.header = h) (hcached : t.cached = Function.update s.cached i (some h)) :
    t.Proper := by
  refine ⟨fun j h' hj => ?_, Or.inl (hfile ▸ hh)⟩
  rw [hcached, Function.update_apply] at hj
  split at hj
  · exact Option.some.inj hj ▸ hh
  · exact hs.cached j h' hj

omit [DecidableEq ι] in
theorem proper_start (file : LogFile) (pending : List WalRidItem) (flushed : List WALEntry) :
    (start file pending flushed : WalLog ι).Proper :=
  ⟨fun _ _ hi => (nomatch hi), Or.inr fun _ => rfl⟩

/-- A position stays one when entries are written and the file has room for them. -/
theorem valid_advance {h : WALHeader} (hh : h.Valid) {n : Nat}
    (hroom : h.writePos + walEntrySize * n ≤ walFileSize) :
    WALHeader.Valid ⟨walMagic, h.writePos + walEntrySize * n⟩ := by
  obtain ⟨_, hlow, _, hmod⟩ := hh
  refine ⟨rfl, Nat.le_add_right_of_le hlow, hroom, ?_⟩
  show (h.writePos + walEntrySize * n - walDataOffset) % walEntrySize = 0
  rw [Nat.sub_add_comm hlow, Nat.add_mul_mod_self_left, hmod]

/-- What a flush with pending items has done. -/
theorem step_flush {s t : WalLog ι} {i : ι} {materialize : WalRidItem → WALEntry}
    (hstep : s.step (.flush i materialize) = some t) :
    ∃ h, s.cached i = some h ∧ (s.pending = [] ∧ t = s ∨ s.pending ≠ [] ∧
      ∃ h' : WALHeader, h' = ⟨walMagic, h.writePos + walEntrySize * s.pending.length⟩ ∧
        h'.writePos ≤ walFileSize ∧
        t = ⟨⟨h', s.file.data.write h.writePos
            (LogFile.bytesOf (s.pending.map materialize))⟩, [],
          Function.update s.cached i (some h'), s.flushed ++ s.pending.map materialize⟩) := by
  obtain ⟨h, hi, hrest⟩ := Option.bind_eq_some_iff.mp hstep
  refine ⟨h, hi, ?_⟩
  by_cases hempty : s.pending = []
  · rw [if_pos hempty] at hrest
    exact Or.inl ⟨hempty, (Option.some.inj hrest).symm⟩
  · simp only [if_neg hempty, List.length_map] at hrest
    split at hrest
    · rename_i hroom
      exact Or.inr ⟨hempty, _, rfl, hroom, (Option.some.inj hrest).symm⟩
    · cases hrest

/-- An append changes the pending items only. -/
theorem step_append {s t : WalLog ι} {i : ι} {items : List WalRidItem}
    (hstep : s.step (.append i items) = some t) :
    t.file = s.file ∧ t.cached = s.cached ∧ t.flushed = s.flushed := by
  simp only [step] at hstep
  split at hstep
  · cases hstep
    exact ⟨rfl, rfl, rfl⟩
  · obtain ⟨_, _, hrest⟩ := Option.bind_eq_some_iff.mp hstep
    split at hrest
    · cases hrest
      exact ⟨rfl, rfl, rfl⟩
    · cases hrest

/-- What `init` has done: nothing, or the header found is in the file and in the
worker's copy. -/
theorem step_init {s t : WalLog ι} {i : ι} (hstep : s.step (.init i) = some t) :
    t = s ∨ t = { s with
      file := ⟨s.file.initHeader, s.file.data⟩
      cached := Function.update s.cached i (some s.file.initHeader) } := by
  simp only [step] at hstep
  split at hstep
  · exact Or.inl (Option.some.inj hstep).symm
  · exact Or.inr (Option.some.inj hstep).symm

theorem step_truncate {s t : WalLog ι} {i : ι} (hstep : s.step (.truncate i) = some t) :
    t = ⟨⟨⟨walMagic, walDataOffset⟩, s.file.data⟩, [],
      Function.update s.cached i (some ⟨walMagic, walDataOffset⟩), []⟩ := by
  obtain ⟨_, _, hrest⟩ := Option.bind_eq_some_iff.mp hstep
  exact (Option.some.inj hrest).symm

theorem Proper.step {s t : WalLog ι} (hs : s.Proper) {call : WalCall ι}
    (hstep : s.step call = some t) : t.Proper := by
  cases call with
  | init i =>
      rcases step_init hstep with rfl | rfl
      · exact hs
      · exact proper_update hs s.file.valid_initHeader rfl rfl
  | append i items =>
      obtain ⟨hfile, hcached, _⟩ := step_append hstep
      exact ⟨hcached ▸ hs.cached, hfile ▸ hcached ▸ hs.file⟩
  | flush i materialize =>
      obtain ⟨h, hi, ⟨_, rfl⟩ | ⟨_, h', rfl, hroom, rfl⟩⟩ := step_flush hstep
      · exact hs
      · exact proper_update hs (valid_advance (hs.cached i h hi) hroom) rfl rfl
  | truncate i =>
      obtain rfl := step_truncate hstep
      exact proper_update hs LogFile.valid_reset rfl rfl

/-- In every run the position in the file is a proper one, once a worker has
started. -/
theorem header_valid {file : LogFile} {pending : List WalRidItem} {flushed : List WALEntry}
    {s : WalLog ι} (path : Machine.Path step Machine.free (start file pending flushed) s) :
    s.Proper :=
  path.invariant (proper_start file pending flushed) fun _ _ _ inv _ hstep => inv.step hstep

/-- The file holds what was flushed, as long as flushes are up to date. -/
theorem holds_step {s t : WalLog ι} (hs : s.Proper) (hfile : s.file.Holds s.flushed)
    {call : WalCall ι} (hok : s.UpToDate call) (hstep : s.step call = some t) :
    t.file.Holds t.flushed := by
  cases call with
  | init i =>
      rcases step_init hstep with rfl | rfl
      · exact hfile
      · exact hfile.init
  | append i items =>
      obtain ⟨hsame, _, hflushed⟩ := step_append hstep
      rw [hsame, hflushed]
      exact hfile
  | flush i materialize =>
      obtain ⟨h, hi, ⟨_, rfl⟩ | ⟨hne, h', rfl, hroom, rfl⟩⟩ := step_flush hstep
      · exact hfile
      · -- The copy is up to date, so the entries go behind those in the file.
        have hpos := hok.resolve_left hne
        rw [hi, Option.map_some, Option.some.injEq] at hpos
        have hvalid := hs.valid_of_cached hi
        have hnew := @LogFile.Holds.append _ _ (s.pending.map materialize) hfile hvalid
        rw [List.length_map, ← hpos] at hnew
        exact hnew (valid_advance (hs.cached i h hi) hroom)
  | truncate i =>
      obtain rfl := step_truncate hstep
      exact LogFile.holds_reset _

/-- In every run in which flushes are up to date the file holds what was flushed. -/
theorem holds_of_path {file : LogFile} {pending : List WalRidItem} {flushed : List WALEntry}
    {s : WalLog ι} (hfile : file.Holds flushed)
    (path : Machine.Path step UpToDate (start file pending flushed) s) :
    s.Proper ∧ s.file.Holds s.flushed :=
  path.invariant (I := fun s => s.Proper ∧ s.file.Holds s.flushed)
    ⟨proper_start file pending flushed, hfile⟩ fun _ _ _ inv hok hstep =>
      ⟨inv.1.step hstep, holds_step inv.1 inv.2 hok hstep⟩

/-- **The log file.**  In every run in which each flush is made by a worker whose
copy of the header is up to date, a process that starts afterwards replays the
entries flushed since the last truncate, in order, and the position in the file
is a proper one. -/
theorem flushed_entries_replayed {file : LogFile} {pending : List WalRidItem}
    {flushed : List WALEntry} {s : WalLog ι} (hfile : file.Holds flushed)
    (path : Machine.Path step UpToDate (start file pending flushed) s) :
    s.file.replay = s.flushed.map WALEntry.bytes ∧
      (s.file.header.Valid ∨ ∀ i, s.cached i = none) := by
  obtain ⟨hs, hholds⟩ := holds_of_path hfile path
  exact ⟨hholds.replay, hs.file⟩

instance (s : WalLog ι) (call : WalCall ι) : Decidable (s.UpToDate call) := by
  cases call <;> unfold UpToDate <;> infer_instance

/-- A file that was never written. -/
def newFile : LogFile := ⟨⟨0, 0⟩, fun _ => 0⟩

theorem holds_newFile : newFile.Holds [] :=
  ⟨rfl, fun _ hlt => nomatch hlt⟩

/-- The item of some field, and an entry of equal bytes. -/
def someItem : WalRidItem := ⟨.int, 0⟩

@[inherit_doc someItem]
def entryOf (b : UInt8) : WALEntry := ⟨List.replicate walEntrySize b, List.length_replicate⟩

/-- Worker 1 starts after worker 0 has flushed, so its copy is up to date. -/
def lateWorker : List (WalCall (Fin 2)) :=
  [.init 0, .append 0 [someItem], .flush 0 fun _ => entryOf 1,
    .init 1, .append 1 [someItem], .flush 1 fun _ => entryOf 2]

/-- Both workers start before either flushes, so the copy of worker 1 is stale when
it does. -/
def earlyWorker : List (WalCall (Fin 2)) :=
  [.init 0, .init 1, .append 0 [someItem], .flush 0 fun _ => entryOf 1,
    .append 1 [someItem], .flush 1 fun _ => entryOf 2]

theorem flushed_entries_replayed_lateWorker :
    ∃ s : WalLog (Fin 2), Machine.Path step UpToDate (start newFile [] []) s ∧
      s.flushed = [entryOf 1, entryOf 2] ∧
      s.file.replay = [(entryOf 1).bytes, (entryOf 2).bytes] := by
  have hrun : (Machine.runOk step UpToDate (start newFile [] [])
      lateWorker).map WalLog.flushed = some [entryOf 1, entryOf 2] := by decide +kernel
  obtain ⟨s, hs, hflushed⟩ := Option.map_eq_some_iff.mp hrun
  have path := Machine.path_of_runOk hs
  refine ⟨s, path, hflushed, ?_⟩
  rw [(flushed_entries_replayed holds_newFile path).1, hflushed]
  rfl

/-- Two entries were flushed, and one is replayed. -/
theorem stale_flush_overwrites :
    ∃ s : WalLog (Fin 2), Machine.Path step Machine.free (start newFile [] []) s ∧
      s.flushed = [entryOf 1, entryOf 2] ∧ s.file.replay.length = 1 := by
  have hrun : (Machine.run step (start newFile [] []) earlyWorker).map
      (fun s => (s.flushed, s.file.replay.length)) = some ([entryOf 1, entryOf 2], 1) := by
    decide +kernel
  obtain ⟨s, hs, hend⟩ := Option.map_eq_some_iff.mp hrun
  obtain ⟨hflushed, hreplay⟩ := Prod.mk.inj hend
  exact ⟨s, Machine.path_of_run (fun _ _ _ => trivial) hs, hflushed, hreplay⟩

end WalLog

end Zeno
