import Zeno.Wal.LogFile
import Zeno.Wal.Format

/-!
# Entries of the log file

An entry of the server's own log is a structure of fixed size: the type, the RID and a union
with the value (`WALEntry`, `wal.hpp`).  `materialize` fills it in from the stores and
`replay_entry` replaces the field by what it reads there.  Of a text the entry has the
`STRING_LENGTH` bytes that begin with it, with whatever lies behind its end, and the end is
found again by `replaceString`.

What is read from the entry of a field is the field (`readEntry_materializeEntry`).  A process
that replays the log of a run then has the fields that were flushed in it.
-/

namespace Zeno

/-- The size of the union in a `WALEntry`. -/
def entryAreaSize : Nat := 544

/-- The union of an entry. -/
abbrev EntryArea := {area : List UInt8 // area.length = entryAreaSize}

theorem length_area_num (n : Num) (value : Nat) :
    (Bytes.le n.size value ++ List.replicate (entryAreaSize - n.size) 0).length =
      entryAreaSize := by
  rw [List.length_append, Bytes.length_le, List.length_replicate]
  cases n <;> rfl

theorem length_area_text (mem : Mem) (pos : Nat) :
    (mem.read pos stringLength ++ List.replicate (entryAreaSize - stringLength) 0).length =
      entryAreaSize := by
  rw [List.length_append, Mem.length_read, List.length_replicate]
  rfl

/-- One turn of the loop of `materialize`: what it stores into the union of a zeroed entry.
Past the end of the text file the bytes are undefined. -/
def entryArea (kv : KvMap) : (t : Ty) → RID → Option EntryArea
  | .num n, key =>
      (kv.get (.num n) key).map fun value => ⟨_, length_area_num n value.toNat⟩
  | .text, key =>
      if ridPartition key ≠ ridLocalPartition ∧ (ridIndex key).toNat < textMaxArrayEleNum then
        let s := kv.text (ridPartition key)
        let pos := s.offsets (ridIndex key).toNat
        if pos + stringLength ≤ storeSize then some ⟨_, length_area_text s.store pos⟩ else none
      else none

/-- The bytes of an entry. -/
def entryBytes (item : WalRidItem) (area : List UInt8) : List UInt8 :=
  Bytes.le 4 item.ty.walType.toNat ++ (List.replicate 4 0 ++ (Bytes.le 8 item.rid.toNat ++ area))

theorem length_entryBytes (item : WalRidItem) (area : EntryArea) :
    (entryBytes item area).length = walEntrySize := by
  simp only [entryBytes, List.length_append, Bytes.length_le, List.length_replicate, area.2]
  rfl

/-- `materialize`, for one item. -/
def materializeEntry (kv : KvMap) (item : WalRidItem) : Option WALEntry :=
  (entryArea kv item.ty item.rid).map fun area => ⟨_, length_entryBytes item area⟩

/-- The value that `replay_entry` takes from the union.  A text without an end in it is read
beyond the entry, which is undefined. -/
def entryValue : (t : Ty) → List UInt8 → Option t.Val
  | .num n, area => some (BitVec.ofNat n.width (Bytes.ofLe (area.take n.size)))
  | .text, area => if 0 ∈ area then some (CStr.ofBytes area) else none

/-- The field in an entry. -/
def readEntry (bytes : List UInt8) : Option Field := do
  let type := Bytes.ofLe (bytes.take 4)
  let t ← if type < 4 then Ty.ofWalType (UInt8.ofNat type) else none
  let value ← entryValue t (bytes.drop 16)
  some ⟨BitVec.ofNat 64 (Bytes.ofLe ((bytes.drop 8).take 8)), ⟨t, value⟩⟩

/-- `replay_entry`. -/
def replayEntry (kv : KvMap) (bytes : List UInt8) : Option KvMap :=
  (readEntry bytes).bind fun f => kv.replace f.val.1 f.rid f.val.2

/-- `replay`, in a process that starts now. -/
def LogFile.replayInto (f : LogFile) (kv : KvMap) : Option KvMap := f.replay.foldlM replayEntry kv

/-! ## Reading an entry back -/

theorem entryValue_num {kv : KvMap} {n : Num} {key : RID} {value : (Ty.num n).Val}
    {area : EntryArea} (hget : kv.get (.num n) key = some value)
    (harea : entryArea kv (.num n) key = some area) : entryValue (.num n) area = some value := by
  simp only [entryArea, hget, Option.map_some, Option.some.injEq] at harea
  subst harea
  have hlt : value.toNat < 256 ^ n.size := by
    have := value.isLt
    cases n <;> exact this
  simp only [entryValue]
  rw [List.take_left' (Bytes.length_le _ _), Bytes.ofLe_le_of_lt hlt, BitVec.ofNat_toNat,
    BitVec.setWidth_eq]

theorem entryValue_text {kv : KvMap} {key : RID} {value : CStr} {area : EntryArea}
    (hget : kv.get .text key = some value) (hshort : value.length < stringLength)
    (harea : entryArea kv .text key = some area) : entryValue .text area = some value := by
  simp only [entryArea, Option.ite_none_right_eq_some, Option.some.injEq] at harea
  obtain ⟨⟨hpart, hidx⟩, -, rfl⟩ := harea
  simp only [KvMap.get, if_neg hpart, FileMapTextStore.get, if_pos hidx] at hget
  have hholds := Mem.holds_of_readCStr hget
  have hread := Mem.read_of_holds_le hholds (n := stringLength)
    (by rw [CStr.length_terminated]; omega)
  have hzero : (0 : UInt8) ∈ value.terminated := List.mem_append_right _ List.mem_cons_self
  simp only [entryValue]
  rw [hread, List.append_assoc, if_pos (List.mem_append_left _ hzero),
    CStr.ofBytes_append_of_mem hzero]
  refine congrArg some (CStr.ext ?_)
  rw [CStr.terminated, CStr.ofBytes_append_zeros (fun b hb => List.mem_singleton.mp hb)]
  exact CStr.ofBytes_of_nulFree value.nulFree

/-- The entry of a legal item is read back as its field. -/
theorem readEntry_materializeEntry {kv : KvMap} {item : WalRidItem} {entry : WALEntry}
    (legal : item.Legal kv) (h : materializeEntry kv item = some entry) :
    readEntry entry.bytes = item.field? kv := by
  obtain ⟨t, rid⟩ := item
  obtain ⟨area, harea, rfl⟩ := Option.map_eq_some_iff.mp h
  have hvalue : entryValue t area = kv.get t rid := by
    cases t with
    | num n =>
        obtain ⟨value, hstored⟩ := kv.settled_num n rid legal.1
        rw [hstored.get]
        exact entryValue_num hstored.get harea
    | text =>
        obtain ⟨value, hget, hshort⟩ := legal.2 rfl
        rw [hget]
        exact entryValue_text hget hshort harea
  have htype : t.walType.toNat < 4 := by
    cases t with
    | num n => cases n <;> decide
    | text => decide
  have hkey : rid.toNat < 256 ^ 8 := rid.isLt
  have htake : Bytes.ofLe ((entryBytes ⟨t, rid⟩ area).take 4) = t.walType.toNat := by
    rw [entryBytes, List.take_left' (Bytes.length_le _ _),
      Bytes.ofLe_le_of_lt (htype.trans (by decide))]
  have hrid : Bytes.ofLe (((entryBytes ⟨t, rid⟩ area).drop 8).take 8) = rid.toNat := by
    rw [entryBytes, ← List.append_assoc, List.drop_left' (by simp),
      List.take_left' (Bytes.length_le _ _), Bytes.ofLe_le_of_lt hkey]
  have hdrop : (entryBytes ⟨t, rid⟩ area).drop 16 = area := by
    rw [entryBytes, ← List.append_assoc, ← List.append_assoc, List.drop_left' (by simp)]
  simp only [readEntry, htake, hrid, hdrop, if_pos htype, UInt8.ofNat_toNat, Ty.ofWalType_walType,
    Option.bind_eq_bind, Option.bind_some, hvalue, BitVec.ofNat_toNat, BitVec.setWidth_eq,
    WalRidItem.field?]
  cases kv.get t rid <;> rfl

/-- Entries that are read as fields are replayed as the fields. -/
theorem foldlM_replayEntry {bytes : List (List UInt8)} {fs : List Field}
    (h : bytes.map readEntry = fs.map some) (kv : KvMap) :
    bytes.foldlM replayEntry kv = applyFields kv fs := by
  induction bytes generalizing fs kv with
  | nil =>
      cases fs with
      | nil => rfl
      | cons f fs => cases h
  | cons b bytes ih =>
      cases fs with
      | nil => cases h
      | cons f fs =>
          obtain ⟨hb, hrest⟩ := List.cons.inj h
          have hstep : replayEntry kv b = kv.replace f.val.1 f.rid f.val.2 := by
            rw [replayEntry, hb, Option.bind_some]
          simp only [applyFields, List.foldlM_cons, hstep]
          exact congrArg _ (funext fun kv' => ih hrest kv')

/-! ## Runs of the log -/

/-- An entry is what `materialize` made of a field, from a store that had its value. -/
def Recorded (entry : WALEntry) (f : Field) : Prop :=
  ∃ kv : KvMap, f.item.Legal kv ∧ kv.get f.val.1 f.rid = some f.val.2 ∧
    materializeEntry kv f.item = some entry

theorem Recorded.read {entry : WALEntry} {f : Field} (h : Recorded entry f) :
    readEntry entry.bytes = some f := by
  obtain ⟨kv, legal, hget, hentry⟩ := h
  have hfield : f.item.field? kv = some f := by
    show (kv.get f.val.1 f.rid).map _ = some f
    rw [hget]
    rfl
  rw [readEntry_materializeEntry legal hentry, hfield]

theorem Recorded.valid {entry : WALEntry} {f : Field} (h : Recorded entry f) :
    KvMap.ValidRid f.val.1 f.rid := by
  obtain ⟨kv, legal, -⟩ := h
  exact legal.1

theorem map_readEntry_of_recorded {es : List WALEntry} {fs : List Field}
    (h : List.Forall₂ Recorded es fs) :
    (es.map WALEntry.bytes).map readEntry = fs.map some := by
  induction h with
  | nil => rfl
  | cons hentry _ ih => rw [List.map_cons, List.map_cons, List.map_cons, hentry.read, ih]

theorem valid_of_recorded {es : List WALEntry} {fs : List Field}
    (h : List.Forall₂ Recorded es fs) : ∀ f ∈ fs, KvMap.ValidRid f.val.1 f.rid := by
  induction h with
  | nil =>
      intro f hf
      cases hf
  | cons hentry _ ih =>
      intro f hf
      rcases List.mem_cons.mp hf with rfl | hf
      · exact hentry.valid
      · exact ih f hf

/-- The last record of a field is the one that counts. -/
theorem applyFields_get_last {kv kv' : KvMap} {pre post : List Field} {f : Field}
    (h : applyFields kv (pre ++ f :: post) = some kv') (last : f.item ∉ post.map Field.item) :
    kv'.get f.val.1 f.rid = some f.val.2 := by
  rw [applyFields_append] at h
  obtain ⟨kv₁, -, hrest⟩ := Option.bind_eq_some_iff.mp h
  obtain ⟨kv₂, hreplace, hpost⟩ := applyFields_cons_eq_some.mp hrest
  have hstored := KvMap.replace_stored hreplace
  rw [applyFields_get_other hpost last fun _ => ⟨_, hstored⟩]
  exact hstored.get

namespace WalLog

variable {ι : Type}

/-- A flush materializes the pending items from the store as it is then. -/
def FromStore (s : WalLog ι) : WalCall ι → Prop
  | .flush _ materialize =>
      ∃ kv : KvMap, ∀ item ∈ s.pending,
        item.Legal kv ∧ materializeEntry kv item = some (materialize item)
  | _ => True

theorem exists_recorded {kv : KvMap} {items : List WalRidItem}
    {materialize : WalRidItem → WALEntry}
    (h : ∀ item ∈ items, item.Legal kv ∧ materializeEntry kv item = some (materialize item)) :
    ∃ fs, List.Forall₂ Recorded (items.map materialize) fs := by
  induction items with
  | nil => exact ⟨[], .nil⟩
  | cons item items ih =>
      obtain ⟨legal, hentry⟩ := h item List.mem_cons_self
      obtain ⟨f, -, rfl, hget, -⟩ := legal.field
      obtain ⟨fs, hfs⟩ := ih fun item' hmem => h item' (List.mem_cons_of_mem _ hmem)
      exact ⟨f :: fs, .cons ⟨kv, legal, hget, hentry⟩ hfs⟩

variable [DecidableEq ι]

/-- What was flushed stays a list of recorded fields. -/
theorem recorded_step {s t : WalLog ι} {call : WalCall ι}
    (hs : ∃ fs, List.Forall₂ Recorded s.flushed fs) (hok : s.FromStore call)
    (hstep : s.step call = some t) : ∃ fs, List.Forall₂ Recorded t.flushed fs := by
  cases call with
  | init i =>
      rcases step_init hstep with rfl | rfl
      · exact hs
      · exact hs
  | append i items =>
      rw [(step_append hstep).2.2]
      exact hs
  | flush i materialize =>
      obtain ⟨h, -, ⟨-, rfl⟩ | ⟨-, h', -, -, rfl⟩⟩ := step_flush hstep
      · exact hs
      · obtain ⟨kv, hitems⟩ := hok
        obtain ⟨fs, hfs⟩ := hs
        obtain ⟨new, hnew⟩ := exists_recorded hitems
        exact ⟨fs ++ new, List.rel_append hfs hnew⟩
  | truncate i =>
      obtain rfl := step_truncate hstep
      exact ⟨[], .nil⟩

/-- **Recovery from the log file.**  In every run in which flushes are up to date and
materialize their items from the store as it is then, the entries flushed since the last
truncate stand for fields.  A process that starts afterwards replays them without a failed
check if the text files have room.  Every RID among them then reads the value of its last
record, and every other settled RID reads what it read. -/
theorem replay_restores_flushed {file : LogFile} {pending : List WalRidItem}
    {flushed : List WALEntry} {s : WalLog ι} (hfile : file.Holds flushed)
    (old : ∃ fs, List.Forall₂ Recorded flushed fs)
    (path : Machine.Path step (fun s call => s.UpToDate call ∧ s.FromStore call)
      (start file pending flushed) s) :
    ∃ fs, List.Forall₂ Recorded s.flushed fs ∧ ∀ kv₀ : KvMap, kv₀.Room fs →
      ∃ kv', s.file.replayInto kv₀ = some kv' ∧
        (∀ pre f post, fs = pre ++ f :: post → f.item ∉ post.map Field.item →
          kv'.get f.val.1 f.rid = some f.val.2) ∧
        ∀ t key, ⟨t, key⟩ ∉ fs.map Field.item → kv₀.Settled t key →
          kv'.get t key = kv₀.get t key := by
  obtain ⟨-, hholds⟩ := holds_of_path hfile (path.mono fun _ _ hok => hok.1)
  obtain ⟨fs, hfs⟩ := path.invariant (I := fun s => ∃ fs, List.Forall₂ Recorded s.flushed fs) old
    fun _ _ _ hs hok hstep => recorded_step hs hok.2 hstep
  refine ⟨fs, hfs, fun kv₀ room => ?_⟩
  obtain ⟨kv', happly⟩ := applyFields_room (valid_of_recorded hfs) room
  have hreplay : s.file.replayInto kv₀ = some kv' := by
    rw [LogFile.replayInto, hholds.replay, foldlM_replayEntry (map_readEntry_of_recorded hfs),
      happly]
  refine ⟨kv', hreplay, ?_, ?_⟩
  · rintro pre f post rfl last
    exact applyFields_get_last happly last
  · intro t key other settled
    exact applyFields_get_other happly other settled

/-- The calls that the theorem allows. -/
abbrev Allowed (s : WalLog ι) (call : WalCall ι) : Prop := s.UpToDate call ∧ s.FromStore call

/-- A worker that starts has a copy of the header as it is in the file. -/
theorem exists_started {s : WalLog ι} {i : ι} (hnone : s.cached i = none) :
    ∃ t : WalLog ι, Machine.Path step Allowed s t ∧ t.cached i = some t.file.header ∧
      t.file.header = s.file.initHeader ∧ t.pending = s.pending ∧ t.flushed = s.flushed ∧
      ∀ j ≠ i, t.cached j = s.cached j := by
  let t : WalLog ι :=
    { s with
      file := ⟨s.file.initHeader, s.file.data⟩
      cached := Function.update s.cached i (some s.file.initHeader) }
  have hinit : s.step (.init i) = some t := by
    simp only [step, hnone]
    rfl
  have hnext : Machine.Next step Allowed s t := ⟨.init i, ⟨trivial, trivial⟩, hinit⟩
  exact ⟨t, .single hnext, Function.update_self _ _ _, rfl, rfl, rfl,
    fun j hj => Function.update_of_ne hj _ _⟩

/-- A worker whose copy of the header is up to date appends items and flushes them. -/
theorem exists_flushed {s : WalLog ι} {i : ι} {kv : KvMap} {items : List WalRidItem}
    {materialize : WalRidItem → WALEntry} (hcached : s.cached i = some s.file.header)
    (hpending : s.pending = []) (hne : items ≠ []) (hfew : items.length ≤ maxPendingItems)
    (hroom : s.file.header.writePos + walEntrySize * items.length ≤ walFileSize)
    (hfrom : ∀ item ∈ items,
      item.Legal kv ∧ materializeEntry kv item = some (materialize item)) :
    ∃ t : WalLog ι, Machine.Path step Allowed s t ∧ t.pending = [] ∧
      t.file.header = ⟨walMagic, s.file.header.writePos + walEntrySize * items.length⟩ ∧
      t.flushed = s.flushed ++ items.map materialize ∧ ∀ j ≠ i, t.cached j = s.cached j := by
  let u : WalLog ι := { s with pending := items }
  let h : WALHeader := ⟨walMagic, s.file.header.writePos + walEntrySize * items.length⟩
  let t : WalLog ι :=
    ⟨⟨h, s.file.data.write s.file.header.writePos (LogFile.bytesOf (items.map materialize))⟩, [],
      Function.update s.cached i (some h), s.flushed ++ items.map materialize⟩
  have happend : s.step (.append i items) = some u := by
    simp [step, u, hne, hcached, hpending, hfew]
  have hflush : u.step (.flush i materialize) = some t := by
    simp only [step, u, hcached, Option.bind_eq_bind, Option.bind_some, if_neg hne, List.length_map]
    exact if_pos hroom
  have hup : u.UpToDate (.flush i materialize) := .inr (by simp [u, hcached])
  have next₁ : Machine.Next step Allowed s u := ⟨.append i items, ⟨trivial, trivial⟩, happend⟩
  have next₂ : Machine.Next step Allowed u t := ⟨_, ⟨hup, kv, hfrom⟩, hflush⟩
  exact ⟨t, (Relation.ReflTransGen.single next₁).tail next₂, rfl, rfl, rfl,
    fun j hj => Function.update_of_ne hj _ _⟩

omit [DecidableEq ι] in
/-- The fields that entries record are determined. -/
theorem recorded_unique {es : List WALEntry} {fs fs' : List Field}
    (h : List.Forall₂ Recorded es fs) (h' : List.Forall₂ Recorded es fs') : fs = fs' :=
  List.map_injective_iff.mpr (Option.some_injective _)
    ((map_readEntry_of_recorded h).symm.trans (map_readEntry_of_recorded h'))

theorem isSome_materializeEntry_sample {text : CStr} (h : text.length < stringLength)
    {item : WalRidItem} (hitem : item ∈ sampleItems) :
    (materializeEntry (.sample text) item).isSome = true := by
  have hvalid := valid_sampleItems item hitem
  have hget := get_sample h item hitem
  rw [materializeEntry, Option.isSome_map]
  obtain ⟨t, rid⟩ := item
  cases t with
  | num n =>
      rw [entryArea, hget]
      rfl
  | text =>
      have hroom : 0 + stringLength ≤ storeSize := by decide
      rw [entryArea, if_pos ⟨hvalid.1, hvalid.2⟩]
      exact congrArg Option.isSome (if_pos hroom)

/-- The entry of an item in the sample files. -/
def sampleEntry (text : CStr) (item : WalRidItem) : WALEntry :=
  (materializeEntry (.sample text) item).getD (entryOf 0)

theorem materializeEntry_sample {text : CStr} (h : text.length < stringLength)
    {item : WalRidItem} (hitem : item ∈ sampleItems) :
    materializeEntry (.sample text) item = some (sampleEntry text item) := by
  obtain ⟨entry, hentry⟩ :=
    Option.isSome_iff_exists.mp (isSome_materializeEntry_sample h hitem)
  rw [sampleEntry, hentry, Option.getD_some]

theorem recorded_sample {text : CStr} (h : text.length < stringLength)
    {items : List WalRidItem} (hitems : items ⊆ sampleItems) :
    List.Forall₂ Recorded (items.map (sampleEntry text)) (items.map (sampleField text)) := by
  refine List.forall₂_map_left_iff.mpr (List.forall₂_map_right_iff.mpr ?_)
  refine List.forall₂_same.mpr fun item hitem => ?_
  have hmem := hitems hitem
  exact ⟨_, legal_sampleItems h item hmem, get_sample h item hmem, materializeEntry_sample h hmem⟩

/-- The items of a second flush. -/
def changedItems : List WalRidItem := [⟨.text, 0⟩, ⟨.int, 0⟩]

/-- A worker flushes fields of every type, and another that starts afterwards flushes two of
them again after the texts have changed. -/
theorem exists_twoFlushes :
    ∃ s : WalLog (Fin 2), Machine.Path step Allowed (start newFile [] []) s ∧
      s.flushed = sampleItems.map (sampleEntry letterA) ++
        changedItems.map (sampleEntry lettersBC) := by
  have hA : letterA.length < stringLength := by decide
  have hBC : lettersBC.length < stringLength := by decide
  have hchanged : changedItems ⊆ sampleItems := by decide
  obtain ⟨s₁, path₁, hcached₁, hheader₁, hpending₁, hflushed₁, hothers₁⟩ :=
    exists_started (s := (start newFile [] [] : WalLog (Fin 2))) (i := 0) rfl
  have hroom₁ : s₁.file.header.writePos + walEntrySize * sampleItems.length ≤ walFileSize := by
    rw [hheader₁]
    decide
  obtain ⟨s₂, path₂, hpending₂, hheader₂, hflushed₂, hothers₂⟩ :=
    exists_flushed hcached₁ hpending₁ (by decide) (by decide) hroom₁ fun item hitem =>
      ⟨legal_sampleItems hA item hitem, materializeEntry_sample hA hitem⟩
  have hnone : s₂.cached 1 = none := by
    rw [hothers₂ 1 (by decide), hothers₁ 1 (by decide)]
    rfl
  obtain ⟨s₃, path₃, hcached₃, hheader₃, hpending₃, hflushed₃, -⟩ := exists_started hnone
  have hroom₃ : s₃.file.header.writePos + walEntrySize * changedItems.length ≤ walFileSize := by
    rw [hheader₃, LogFile.initHeader, hheader₂, hheader₁]
    decide
  obtain ⟨s₄, path₄, -, -, hflushed₄, -⟩ :=
    exists_flushed hcached₃ (hpending₃.trans hpending₂) (by decide) (by decide) hroom₃
      fun item hitem => ⟨legal_sampleItems hBC item (hchanged hitem),
        materializeEntry_sample hBC (hchanged hitem)⟩
  refine ⟨s₄, ((path₁.trans path₂).trans path₃).trans path₄, ?_⟩
  rw [hflushed₄, hflushed₃, hflushed₂, hflushed₁]
  rfl

/-- Of the text that was flushed twice the last record counts. -/
theorem replay_restores_flushed_twice :
    ∃ (s : WalLog (Fin 2)) (kv' : KvMap),
      Machine.Path step (fun s call => s.UpToDate call ∧ s.FromStore call)
        (start newFile [] []) s ∧
      s.file.replayInto .fresh = some kv' ∧ kv'.get .text 0 = some lettersBC ∧
      kv'.get .text 0x0005000000000000 = some letterA := by
  obtain ⟨s, path, hflushed⟩ := exists_twoFlushes
  obtain ⟨fs, hfs, hreplay⟩ := replay_restores_flushed holds_newFile ⟨[], .nil⟩ path
  have hrecorded : List.Forall₂ Recorded s.flushed
      (sampleFields letterA ++ changedItems.map (sampleField lettersBC)) := by
    rw [hflushed]
    exact List.rel_append (recorded_sample (by decide) (List.Subset.refl _))
      (recorded_sample (by decide) (by decide))
  obtain rfl := recorded_unique hrecorded hfs
  obtain ⟨kv', hkv', hlast, -⟩ :=
    hreplay .fresh (KvMap.room_of_empty (fun _ => rfl) (by decide))
  refine ⟨s, kv', path, hkv', ?_, ?_⟩
  · exact hlast (sampleFields letterA) (sampleField lettersBC ⟨.text, 0⟩) _ rfl (by decide)
  · exact hlast ((sampleFields letterA).take 3)
      (sampleField letterA ⟨.text, 0x0005000000000000⟩) _ rfl (by decide)

end WalLog

end Zeno
