import Zeno.Kv.Shared

/-!
# What a checkpoint flushes

`CMD_CKPT` calls `flush_async`, which passes ranges of the mapped files to
`msync`.  It walks the partitions that are open *in the worker that serves the
request*.  A numeric file is flushed up to its `cur_rid`, a text file up to its
`cur_store_offset`.

The cells written are recorded as the workers' calls write them, one step at a
time.  A cell of a text and a slot taken by a `put` are below their counters, so
they are flushed if the worker has the partition open.  A numeric slot written by
`replace` need not be: `replace` leaves `cur_rid` alone.  It is flushed all the
same if it ends on a page that the slots given out reach.
`checkpoint_covers_iff` says that these are the only two conditions.
-/

namespace Zeno

open KvMap

/-! ## Pages -/

/-- `PAGE_ALIGN_DOWN`. -/
def pageAlignDown (v : Nat) : Nat := v / pageSize * pageSize

/-- `PAGE_ALIGN_UP`. -/
def pageAlignUp (v : Nat) : Nat := (v + (pageSize - 1)) / pageSize * pageSize

/-- The page of the last byte before an address. -/
def lastPage (v : Nat) : Nat := (v - 1) / pageSize

theorem pageAlignDown_le (v : Nat) : pageAlignDown v ≤ v :=
  Nat.div_mul_le_self v pageSize

theorem le_pageAlignUp (v : Nat) : v ≤ pageAlignUp v := by
  simp only [pageAlignUp, pageSize]
  omega

/-- To end before an aligned address is to end on a page before it. -/
theorem le_pageAlignUp_iff {v w : Nat} (hv : 0 < v) (hw : 0 < w) :
    v ≤ pageAlignUp w ↔ lastPage v ≤ lastPage w := by
  simp only [pageAlignUp, lastPage, pageSize]
  omega

/-! ## Cells -/

/-- A cell of the mapped files. -/
inductive Cell where
  /-- A slot of a numeric store. -/
  | slot (n : Num) (p : RID) (k : Nat)
  /-- An entry of `offsets`. -/
  | offset (p : RID) (k : Nat)
  /-- A byte of a text. -/
  | byte (p : RID) (a : Nat)
deriving DecidableEq

/-- Where a worker has each file's store object mapped. -/
abbrev Mapping := Ty → RID → Nat

/-- The address of `store` of a numeric file, behind the counter. -/
def Mapping.numStore (base : Mapping) (n : Num) (p : RID) : Nat := base (.num n) p + 8

/-- The address of `offsets`, behind the two counters. -/
def Mapping.textOffsets (base : Mapping) (p : RID) : Nat := base .text p + 16

/-- The address of `store` of a text file. -/
def Mapping.textStore (base : Mapping) (p : RID) : Nat := base.textOffsets p + offsetArrayBytes

namespace Cell

/-- The type of the file. -/
def ty : Cell → Ty
  | .slot n _ _ => .num n
  | .offset _ _ => .text
  | .byte _ _ => .text

/-- The partition of the file. -/
def part : Cell → RID
  | .slot _ p _ => p
  | .offset p _ => p
  | .byte p _ => p

/-- The first address of a cell. -/
def lo (base : Mapping) : Cell → Nat
  | .slot n p k => base.numStore n p + k * n.size
  | .offset p k => base.textOffsets p + k * 8
  | .byte p a => base.textStore p + a

/-- The address behind a cell. -/
def hi (base : Mapping) : Cell → Nat
  | .slot n p k => base.numStore n p + (k + 1) * n.size
  | .offset p k => base.textOffsets p + (k + 1) * 8
  | .byte p a => base.textStore p + (a + 1)

end Cell

/-- A cell written, and whether `replace` wrote it. -/
structure Write where
  /-- The cell. -/
  cell : Cell
  /-- It was written by `replace`. -/
  replaced : Bool
deriving DecidableEq

/-- The operation is a `replace`. -/
def Target.isNamed : Target → Bool
  | .fresh _ => false
  | .named _ => true

/-- The cell that the next step of an operation writes. -/
def Pc.write? : Pc → Option Write
  | .numStore n _ target key => some ⟨.slot n target.partition key, target.isNamed⟩
  | .textOffset _ target key _ => some ⟨.offset target.partition key, target.isNamed⟩
  | .textCopy _ target _ pos done => some ⟨.byte target.partition (pos + done), target.isNamed⟩
  | _ => none

/-! ## The flush -/

/-- A range passed to `msync`, with the file it is of. -/
structure Msync where
  /-- The type of the file. -/
  ty : Ty
  /-- The partition of the file. -/
  part : RID
  /-- `aligned_start`. -/
  start : Nat
  /-- `aligned_end`. -/
  stop : Nat

/-- `flush_async` of one store. -/
def KvMap.flushAsync (kv : KvMap) (base : Mapping) (p : RID) : Ty → Option Msync
  | .num n =>
      let used := (kv.num n p).curRid * n.size
      if used = 0 then none
      else
        let start := base.numStore n p
        some ⟨.num n, p, pageAlignDown start, pageAlignUp (start + used)⟩
  | .text =>
      let used := (kv.text p).curStoreOffset
      if used = 0 then none
      else
        some ⟨.text, p, pageAlignDown (base.textOffsets p),
          pageAlignUp (base.textStore p + used)⟩

/-- `FileMapKVStoreOperator::flush_async`, with the partitions open in the worker. -/
def KvMap.flushAsyncAll (kv : KvMap) (base : Mapping) (opened : List RID) : List Msync :=
  [Ty.num .int, .num .float, .num .timestamp, .text].flatMap fun t =>
    opened.filterMap fun p => kv.flushAsync base p t

/-- A cell lies inside a range of its file. -/
def Cell.Inside (base : Mapping) (c : Cell) (r : Msync) : Prop :=
  r.ty = c.ty ∧ r.part = c.part ∧ r.start ≤ c.lo base ∧ c.hi base ≤ r.stop

/-- A cell lies inside a range that the flush passes to `msync`. -/
def KvMap.Covers (kv : KvMap) (base : Mapping) (opened : List RID) (c : Cell) : Prop :=
  ∃ r ∈ kv.flushAsyncAll base opened, c.Inside base r

theorem KvMap.flushAsync_file {kv : KvMap} {base : Mapping} {p : RID} {t : Ty} {r : Msync}
    (h : kv.flushAsync base p t = some r) : r.ty = t ∧ r.part = p := by
  cases t with
  | num n =>
      simp only [flushAsync, Option.ite_none_left_eq_some, Option.some.injEq] at h
      obtain ⟨-, rfl⟩ := h
      exact ⟨rfl, rfl⟩
  | text =>
      simp only [flushAsync, Option.ite_none_left_eq_some, Option.some.injEq] at h
      obtain ⟨-, rfl⟩ := h
      exact ⟨rfl, rfl⟩

/-- A cell is flushed with its own file, if the worker has that open. -/
theorem KvMap.covers_iff {kv : KvMap} {base : Mapping} {opened : List RID} {c : Cell} :
    kv.Covers base opened c ↔ c.part ∈ opened ∧
      ∃ r, kv.flushAsync base c.part c.ty = some r ∧ r.start ≤ c.lo base ∧ c.hi base ≤ r.stop := by
  constructor
  · rintro ⟨r, hr, hty, hpart, hlo, hhi⟩
    simp only [flushAsyncAll, List.mem_flatMap, List.mem_filterMap] at hr
    obtain ⟨t, -, p, hp, hflush⟩ := hr
    obtain ⟨ht, hp'⟩ := flushAsync_file hflush
    obtain rfl : t = c.ty := ht.symm.trans hty
    obtain rfl : p = c.part := hp'.symm.trans hpart
    exact ⟨hp, r, hflush, hlo, hhi⟩
  · rintro ⟨hopen, r, hflush, hlo, hhi⟩
    obtain ⟨hty, hpart⟩ := flushAsync_file hflush
    refine ⟨r, ?_, hty, hpart, hlo, hhi⟩
    simp only [flushAsyncAll, List.mem_flatMap, List.mem_filterMap]
    refine ⟨c.ty, ?_, c.part, hopen, hflush⟩
    cases c with
    | slot n p k => cases n <;> simp [Cell.ty]
    | offset p k => simp [Cell.ty]
    | byte p a => simp [Cell.ty]

/-- The slots given out reach the page on which a slot ends. -/
def KvMap.Reaches (kv : KvMap) (base : Mapping) (n : Num) (p : RID) (k : Nat) : Prop :=
  0 < (kv.num n p).curRid ∧
    lastPage (base.numStore n p + (k + 1) * n.size) ≤
      lastPage (base.numStore n p + (kv.num n p).curRid * n.size)

theorem KvMap.reaches_of_lt {kv : KvMap} {base : Mapping} {n : Num} {p : RID} {k : Nat}
    (h : k < (kv.num n p).curRid) : kv.Reaches base n p k := by
  refine ⟨Nat.zero_lt_of_lt h, Nat.div_le_div_right (Nat.sub_le_sub_right ?_ 1)⟩
  exact Nat.add_le_add_left (Nat.mul_le_mul_right n.size h) _

theorem KvMap.covers_slot_iff {kv : KvMap} {base : Mapping} {opened : List RID} {n : Num}
    {p : RID} {k : Nat} :
    kv.Covers base opened (.slot n p k) ↔ p ∈ opened ∧ kv.Reaches base n p k := by
  rw [covers_iff]
  refine and_congr_right fun _ => ?_
  have hsize := n.size_pos
  have hstart : 0 < base.numStore n p := Nat.succ_pos _
  show (∃ r, kv.flushAsync base p (.num n) = some r ∧
    r.start ≤ base.numStore n p + k * n.size ∧ base.numStore n p + (k + 1) * n.size ≤ r.stop) ↔ _
  simp only [flushAsync, Option.ite_none_left_eq_some, Option.some.injEq, Reaches]
  constructor
  · rintro ⟨r, ⟨hused, rfl⟩, -, hhi⟩
    refine ⟨Nat.pos_of_ne_zero fun h0 => hused (by rw [h0, Nat.zero_mul]), ?_⟩
    exact (le_pageAlignUp_iff (Nat.add_pos_left hstart _) (Nat.add_pos_left hstart _)).mp hhi
  · rintro ⟨hpos, hpage⟩
    refine ⟨_, ⟨(Nat.mul_pos hpos hsize).ne', rfl⟩, ?_, ?_⟩
    · exact (pageAlignDown_le _).trans (Nat.le_add_right _ _)
    · exact (le_pageAlignUp_iff (Nat.add_pos_left hstart _) (Nat.add_pos_left hstart _)).mpr hpage

/-- A text file is flushed from its offsets up to the bytes given out. -/
theorem KvMap.covers_text {kv : KvMap} {base : Mapping} {opened : List RID} {c : Cell}
    (hty : c.ty = .text) (hopen : c.part ∈ opened) (hused : 0 < (kv.text c.part).curStoreOffset)
    (hlo : base.textOffsets c.part ≤ c.lo base)
    (hhi : c.hi base ≤ base.textStore c.part + (kv.text c.part).curStoreOffset) :
    kv.Covers base opened c := by
  rw [covers_iff, hty]
  refine ⟨hopen, _, if_neg hused.ne', ?_, ?_⟩
  · exact (pageAlignDown_le _).trans hlo
  · exact hhi.trans (le_pageAlignUp _)

/-- What the counters say of a cell written. -/
def Write.Counted (kv : KvMap) (w : Write) : Prop :=
  match w.cell with
  | .slot n p k => w.replaced = false → k < (kv.num n p).curRid
  | .offset p k => k < textMaxArrayEleNum ∧ 0 < (kv.text p).curStoreOffset
  | .byte p a => a < (kv.text p).curStoreOffset

theorem Write.Counted.mono {kv kv' : KvMap} {w : Write} {slot : Option Slot}
    {range : Option ByteRange} (h : w.Counted kv) (f : Frame kv kv' slot range) :
    w.Counted kv' := by
  obtain ⟨cell, replaced⟩ := w
  cases cell with
  | slot n p k => exact fun hput => (h hput).trans_le (f.curRid (.num n) p)
  | offset p k => exact ⟨h.1, h.2.trans_le (f.curStoreOffset p)⟩
  | byte p a => exact Nat.lt_of_lt_of_le h (f.curStoreOffset p)

/-- When a cell written is flushed. -/
theorem Write.Counted.covers_iff {kv : KvMap} {base : Mapping} {opened : List RID} {w : Write}
    (h : w.Counted kv) :
    kv.Covers base opened w.cell ↔ w.cell.part ∈ opened ∧
      ∀ n p k, w = ⟨.slot n p k, true⟩ → kv.Reaches base n p k := by
  obtain ⟨cell, replaced⟩ := w
  cases cell with
  | slot n p k =>
      rw [covers_slot_iff]
      refine and_congr_right fun _ => ?_
      cases replaced with
      | false => exact ⟨fun _ _ _ _ he => (nomatch he), fun _ => reaches_of_lt (h rfl)⟩
      | true =>
          refine ⟨fun hr n' p' k' he => ?_, fun hr => hr n p k rfl⟩
          cases he
          exact hr
  | offset p k =>
      refine ⟨fun hc => ⟨(KvMap.covers_iff.mp hc).1, fun _ _ _ he => nomatch he⟩, fun hc => ?_⟩
      obtain ⟨hkey, hused⟩ := h
      refine covers_text rfl hc.1 hused (Nat.le_add_right _ _) ?_
      -- the offsets end where the bytes begin
      have hend : (k + 1) * 8 ≤ offsetArrayBytes := Nat.mul_le_mul_right 8 hkey
      simp only [Cell.hi, Cell.part, Mapping.textStore]
      omega
  | byte p a =>
      refine ⟨fun hc => ⟨(KvMap.covers_iff.mp hc).1, fun _ _ _ he => nomatch he⟩, fun hc => ?_⟩
      have hlt : a < (kv.text p).curStoreOffset := h
      refine covers_text rfl hc.1 (Nat.zero_lt_of_lt hlt) ?_ (Nat.add_le_add_left hlt _)
      simp only [Cell.lo, Cell.part, Mapping.textStore, Nat.add_assoc]
      exact Nat.le_add_right _ _

/-! ## The workers -/

/-- The workers with the partitions each has open, and the cells written so far. -/
structure Mapped (ι : Type) where
  /-- The files and the running calls. -/
  shared : Shared ι
  /-- The keys of `int_stores` and of the other maps of each worker. -/
  opened : ι → List RID
  /-- The cells written. -/
  written : List Write

/-- A step of a worker. -/
inductive MappedLabel (ι : Type) where
  /-- A worker begins a `put` or a `replace`; `replayPayload` is a sequence of these. -/
  | start (i : ι) (op : StoreOp)
  /-- A worker takes one step of its call. -/
  | advance (i : ι)
  /-- A worker reads a field. -/
  | get (i : ι) (key : RID)

namespace Mapped

variable {ι : Type}

/-- No call is running and nothing has been written. -/
def start (kv : KvMap) (opened : ι → List RID) : Mapped ι := ⟨.quiet ι kv, opened, []⟩

/-- What the counters say in every run. -/
structure Inv (s : Mapped ι) : Prop where
  inRange : ∀ i, (s.shared.pc i).InRange
  rangeBelow : ∀ i, (s.shared.pc i).claim.RangeBelow s.shared.kv
  slotBelow : ∀ i, (s.shared.pc i).IsPut → (s.shared.pc i).claim.SlotBelow s.shared.kv
  written : ∀ w ∈ s.written, w.Counted s.shared.kv

theorem inv_start (kv : KvMap) (opened : ι → List RID) : (start kv opened).Inv where
  inRange _ _ _ _ h := nomatch h
  rangeBelow _ _ h := nomatch h
  slotBelow _ _ _ _ _ h := nomatch h
  written _ h := nomatch h

variable [DecidableEq ι]

/-- `init_partition`. -/
def initPartition (s : Mapped ι) (i : ι) (p : RID) : Option (Mapped ι) :=
  if p = ridLocalPartition then none
  else if p ∈ s.opened i then some s
  else some { s with opened := Function.update s.opened i (s.opened i ++ [p]) }

/-- One step of one worker. -/
def step (s : Mapped ι) : MappedLabel ι → Option (Mapped ι)
  | .start i op => do
      let s ← s.initPartition i op.target.partition
      let shared ← s.shared.step (.start i op)
      some { s with shared := shared }
  | .advance i => do
      let shared ← s.shared.step (.advance i)
      some { s with
        shared := shared
        written := s.written ++ (s.shared.pc i).write?.toList }
  | .get i key => s.initPartition i (ridPartition key)

/-- To open a partition leaves the files, the calls and what was written. -/
theorem initPartition_eq {s s' : Mapped ι} {i : ι} {p : RID}
    (h : s.initPartition i p = some s') : s'.shared = s.shared ∧ s'.written = s.written := by
  simp only [initPartition, Option.ite_none_left_eq_some] at h
  obtain ⟨-, h⟩ := h
  split at h
  · cases h
    exact ⟨rfl, rfl⟩
  · cases h
    exact ⟨rfl, rfl⟩

/-- The cell a step writes is counted. -/
theorem counted_write {kv : KvMap} {pc : Pc} {w : Write} (hw : pc.write? = some w)
    (inRange : pc.InRange) (range : pc.claim.RangeBelow kv)
    (slot : pc.IsPut → pc.claim.SlotBelow kv) : w.Counted kv := by
  cases pc with
  | idle => cases hw
  | fetch op => cases hw
  | textAlloc value target key => cases hw
  | numStore n value target key =>
      cases hw
      intro hput
      cases target with
      | named rid => cases hput
      | fresh p =>
          refine slot (fun target ht => ?_) (.num n) p.val key rfl
          cases ht
          exact ⟨p, rfl⟩
  | textOffset value target key pos =>
      cases hw
      have hbelow : pos + (value.length + 1) ≤ _ := range _ rfl
      exact ⟨inRange .text _ key rfl, Nat.lt_of_lt_of_le (Nat.succ_pos _) hbelow⟩
  | textCopy value target key pos done =>
      cases hw
      exact Nat.lt_of_lt_of_le (Nat.add_lt_add_left done.isLt pos) (range _ rfl)

theorem Inv.advance {s : Mapped ι} (inv : s.Inv) {i : ι} {shared : Shared ι}
    (h : s.shared.step (.advance i) = some shared) :
    Inv { s with shared := shared, written := s.written ++ (s.shared.pc i).write?.toList } := by
  obtain ⟨m, hm, rfl⟩ := Shared.step_advance h
  have f := advance_frame hm
  refine ⟨?_, ?_, ?_, ?_⟩
  · exact (Function.forall_update_iff s.shared.pc fun _ pc => pc.InRange).mpr
      ⟨advance_inRange hm (inv.inRange i), fun j _ => inv.inRange j⟩
  · exact (Function.forall_update_iff s.shared.pc fun _ pc => pc.claim.RangeBelow m.kv).mpr
      ⟨advance_rangeBelow hm (inv.rangeBelow i), fun j _ => (inv.rangeBelow j).mono f⟩
  · refine (Function.forall_update_iff s.shared.pc
      fun _ pc => pc.IsPut → pc.claim.SlotBelow m.kv).mpr
      ⟨fun hput => ?_, fun j _ hput => (inv.slotBelow j hput).mono f⟩
    rcases advance_target hm with hidle | hsame
    · rw [hidle]
      exact fun _ _ _ hk => nomatch hk
    · have hput' : (s.shared.pc i).IsPut := fun target ht => hput target (hsame ▸ ht)
      exact advance_slotBelow hm hput' (inv.slotBelow i hput')
  · intro w hw
    rcases List.mem_append.mp hw with hold | hnew
    · exact (inv.written w hold).mono f
    · exact (counted_write (Option.mem_toList.mp hnew) (inv.inRange i) (inv.rangeBelow i)
        (inv.slotBelow i)).mono f

theorem Inv.begin {s : Mapped ι} (inv : s.Inv) {i : ι} {op : StoreOp} {shared : Shared ι}
    (h : s.shared.step (.start i op) = some shared) : Inv { s with shared := shared } := by
  obtain ⟨-, rfl⟩ := Shared.step_start h
  refine ⟨?_, ?_, ?_, inv.written⟩
  · exact (Function.forall_update_iff s.shared.pc fun _ pc => pc.InRange).mpr
      ⟨fun _ _ _ hk => (nomatch hk), fun j _ => inv.inRange j⟩
  · exact (Function.forall_update_iff s.shared.pc
      fun _ pc => pc.claim.RangeBelow s.shared.kv).mpr
      ⟨fun _ hr => (nomatch hr), fun j _ => inv.rangeBelow j⟩
  · exact (Function.forall_update_iff s.shared.pc
      fun _ pc => pc.IsPut → pc.claim.SlotBelow s.shared.kv).mpr
      ⟨fun _ _ _ _ hk => (nomatch hk), fun j _ => inv.slotBelow j⟩

theorem Inv.open {s s' : Mapped ι} (inv : s.Inv) {i : ι} {p : RID}
    (h : s.initPartition i p = some s') : s'.Inv := by
  obtain ⟨hshared, hwritten⟩ := initPartition_eq h
  refine ⟨?_, ?_, ?_, ?_⟩
  · rw [hshared]
    exact inv.inRange
  · rw [hshared]
    exact inv.rangeBelow
  · rw [hshared]
    exact inv.slotBelow
  · rw [hshared, hwritten]
    exact inv.written

theorem Inv.step {s s' : Mapped ι} (inv : s.Inv) {l : MappedLabel ι}
    (h : s.step l = some s') : s'.Inv := by
  cases l with
  | start i op =>
      obtain ⟨u, hu, h⟩ := Option.bind_eq_some_iff.mp h
      obtain ⟨shared, hshared, h⟩ := Option.bind_eq_some_iff.mp h
      cases h
      exact (inv.open hu).begin hshared
  | advance i =>
      obtain ⟨shared, hshared, h⟩ := Option.bind_eq_some_iff.mp h
      cases h
      exact inv.advance hshared
  | get i key => exact inv.open h

/-- **Checkpoint.**  After any run, the flush that a worker makes covers every cell
written if and only if the worker has the partition of each of them open, and each
numeric slot written by `replace` ends on a page that the slots given out reach. -/
theorem checkpoint_covers_iff {kv : KvMap} {opened : ι → List RID} {s : Mapped ι}
    (path : Machine.Path step Machine.free (start kv opened) s) (base : Mapping) (i : ι) :
    (∀ w ∈ s.written, s.shared.kv.Covers base (s.opened i) w.cell) ↔
      (∀ w ∈ s.written, w.cell.part ∈ s.opened i) ∧
        ∀ w ∈ s.written, ∀ n p k, w = ⟨.slot n p k, true⟩ → s.shared.kv.Reaches base n p k := by
  have inv : s.Inv :=
    path.invariant (inv_start kv opened) fun _ _ _ inv _ hstep => inv.step hstep
  rw [← forall₂_and]
  exact forall₂_congr fun w hw => (inv.written w hw).covers_iff

/-- Worker `i` puts an int into the default partition. -/
def putOne (i : Bool) : List (MappedLabel Bool) :=
  [.start i ⟨⟨.num .int, 7⟩, .fresh .default⟩, .advance i, .advance i]

/-- Worker `i` replaces the int of a slot of the default partition, as replay does. -/
def replaceOne (i : Bool) (k : Nat) : List (MappedLabel Bool) :=
  [.start i ⟨⟨.num .int, 7⟩, .named (Partition.default.rid k)⟩, .advance i, .advance i]

/-- Every object at the start of a page. -/
def pageMapping : Mapping := fun _ _ => pageSize

theorem checkpoint_covers_iff_putOne :
    ∃ s : Mapped Bool, Machine.Path step Machine.free (start .fresh fun _ => []) s ∧
      s.written = [⟨.slot .int Partition.default.val 0, false⟩] ∧
      ∀ w ∈ s.written, s.shared.kv.Covers pageMapping (s.opened true) w.cell := by
  have hrun : (Machine.run step (start .fresh fun _ => []) (putOne true)).map
      (fun s => (s.written, s.opened true)) =
        some ([⟨.slot .int Partition.default.val 0, false⟩], [Partition.default.val]) := by
    decide +kernel
  obtain ⟨s, hs, hend⟩ := Option.map_eq_some_iff.mp hrun
  obtain ⟨hwritten, hopened⟩ := Prod.mk.inj hend
  have path : Machine.Path step Machine.free (start .fresh fun _ => []) s :=
    Machine.path_of_run (fun _ _ _ => trivial) hs
  refine ⟨s, path, hwritten, (checkpoint_covers_iff path pageMapping true).mpr ⟨?_, ?_⟩⟩
  · rw [hwritten, hopened]
    simp [Cell.part]
  · rw [hwritten]
    simp

/-- A checkpoint by a worker that has not opened the partition does not flush what
another has put there, and one by a worker that has does not flush what it replaced
in a file with no slot given out. -/
theorem checkpoint_misses :
    (∃ s : Mapped Bool, Machine.Path step Machine.free (start .fresh fun _ => []) s ∧
      ∃ w ∈ s.written, ¬ s.shared.kv.Covers pageMapping (s.opened false) w.cell) ∧
    ∃ s : Mapped Bool, Machine.Path step Machine.free (start .fresh fun _ => []) s ∧
      ∃ w ∈ s.written, ¬ s.shared.kv.Covers pageMapping (s.opened true) w.cell := by
  constructor
  · have hrun : (Machine.run step (start .fresh fun _ => []) (putOne true)).map
        (fun s => (s.written, s.opened false)) =
          some ([⟨.slot .int Partition.default.val 0, false⟩], []) := by
      decide +kernel
    obtain ⟨s, hs, hend⟩ := Option.map_eq_some_iff.mp hrun
    obtain ⟨hwritten, hopened⟩ := Prod.mk.inj hend
    refine ⟨s, Machine.path_of_run (fun _ _ _ => trivial) hs, _,
      hwritten ▸ List.mem_singleton_self _, fun hc => ?_⟩
    have hopen := (covers_slot_iff.mp hc).1
    rw [hopened] at hopen
    cases hopen
  · have hrun : (Machine.run step (start .fresh fun _ => []) (replaceOne true 0)).map
        (fun s => (s.written, (s.shared.kv.num .int Partition.default.val).curRid)) =
          some ([⟨.slot .int Partition.default.val 0, true⟩], 0) := by
      decide +kernel
    obtain ⟨s, hs, hend⟩ := Option.map_eq_some_iff.mp hrun
    obtain ⟨hwritten, hcount⟩ := Prod.mk.inj hend
    refine ⟨s, Machine.path_of_run (fun _ _ _ => trivial) hs, _,
      hwritten ▸ List.mem_singleton_self _, fun hc => ?_⟩
    have hpos := (covers_slot_iff.mp hc).2.1
    rw [hcount] at hpos
    exact Nat.lt_irrefl 0 hpos

end Mapped

end Zeno
