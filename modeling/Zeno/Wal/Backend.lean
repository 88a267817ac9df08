import Zeno.Kv.Shared
import Zeno.Wal.Payload

/-!
# Backends that log their fields

A backend keeps the fields of the tuples it wrote in `zeno_pending_items`, and
turns them into payloads: a full batch as soon as there is one, the rest before
commit.  At commit the payloads are inserted into the write-ahead log one by
one, then the commit record.  An abort clears neither list.

`Cluster` is any number of backends over the shared stores and one log.
Promotions run in the small steps of `Shared`, a batch is read one field at a
time, and each payload is logged in a step of its own.  `Cluster.Inv` says what
the log can be relied on for: every payload in it opens to fields that were
promoted, and a commit record comes after payloads that carry every field of
the tuples it commits.
-/

namespace Zeno

/-! ## Tuples -/

/-- `WAL_RID_BATCH_SIZE`. -/
def walRidBatchSize : Nat := 4096

/-- `MaxHeapAttributeNumber` of PostgreSQL. -/
def maxHeapAttributeNumber : Nat := 1600

/-- A column of a tuple as `ZenoWalAppendTuple` reads it. -/
structure Column where
  /-- `attisdropped`. -/
  dropped : Bool
  /-- The type, if it is one of the encrypted types. -/
  kvType : Option Ty
  /-- The value, unless it is NULL. -/
  datum : Option RID

/-- The item of a column, if it has one. -/
def Column.item? (c : Column) : Option WalRidItem :=
  if c.dropped then none
  else do
    let t ← c.kvType
    let rid ← c.datum
    some ⟨t, rid⟩

/-- A tuple of a relation. -/
structure HeapTuple where
  /-- Its columns. -/
  columns : List Column
  /-- PostgreSQL bounds their number. -/
  small : columns.length ≤ maxHeapAttributeNumber

/-- The fields of a tuple: its encrypted columns that are not NULL. -/
def HeapTuple.fields (tuple : HeapTuple) : List WalRidItem := tuple.columns.filterMap Column.item?

/-- The items `ZenoWalAppendTuple` collects. -/
def HeapTuple.items (tuple : HeapTuple) : List WalRidItem := tuple.fields.take walRidBatchSize

theorem HeapTuple.items_eq_fields (tuple : HeapTuple) : tuple.items = tuple.fields := by
  have hle := List.length_filterMap_le Column.item? tuple.columns
  have hsmall := tuple.small
  simp only [maxHeapAttributeNumber] at hsmall
  exact List.take_of_length_le (by simp only [fields, walRidBatchSize]; omega)

/-! ## A backend -/

/-- A request `CMD_WAL_MATERIALIZE_BATCH` at work. -/
structure Batch where
  /-- The number of items asked for. -/
  nitems : Nat
  /-- The items not read yet. -/
  left : List WalRidItem
  /-- The records written so far. -/
  out : List UInt8

/-- Where a backend stands. -/
inductive Phase where
  /-- Between calls. -/
  | idle
  /-- At the test of the loop of `ZenoWalMaterializeFullBatches`. -/
  | filling
  /-- In `ZenoWalMaterializeBatch`, called before commit or for a full batch. -/
  | batch (x : Batch) (commit : Bool)
  /-- In the loop of `ZenoWalLogPendingPayloads`. -/
  | logging (left : List (List UInt8))

/-- A backend. -/
structure Backend where
  /-- `zeno_pending_items`. -/
  pending : List WalRidItem
  /-- The payloads from `zeno_payload_head` on. -/
  chunks : List (List UInt8)
  /-- Where it stands. -/
  phase : Phase
  /-- The tuples written by the current transaction. -/
  written : List HeapTuple

namespace Backend

/-- A new backend. -/
def init : Backend := ⟨[], [], .idle, []⟩

/-- `ZenoWalAppendTuple`, up to its call of `ZenoWalMaterializeFullBatches`. -/
def append (tuple : HeapTuple) (b : Backend) : Option Backend :=
  match b.phase with
  | .idle =>
      if tuple.items = [] then some { b with written := b.written ++ [tuple] }
      else some { b with
        pending := b.pending ++ tuple.items
        written := b.written ++ [tuple]
        phase := .filling }
  | _ => none

/-- Send a batch.  The server refuses one of more than `WAL_MATERIALIZE_RID_BATCH_SIZE`
items. -/
def startBatch (items : List WalRidItem) (commit : Bool) (b : Backend) : Option Backend :=
  if items.length ≤ walMaterializeRidBatchSize then
    some { b with phase := .batch ⟨items.length, items, []⟩ commit }
  else none

/-- The test of the loop of `ZenoWalMaterializeFullBatches`. -/
def fill (b : Backend) : Option Backend :=
  match b.phase with
  | .filling =>
      if walMaterializeRidBatchSize ≤ b.pending.length then
        b.startBatch (b.pending.take walMaterializeRidBatchSize) false
      else some { b with phase := .idle }
  | _ => none

/-- `ZenoWalMaterializePending`, up to its request. -/
def prepare (b : Backend) : Option Backend :=
  match b.phase with
  | .idle =>
      if b.pending = [] then some { b with phase := .logging b.chunks }
      else b.startBatch b.pending true
  | _ => none

/-- The server reads one more item of the batch. -/
def read (kv : KvMap) (b : Backend) : Option Backend :=
  match b.phase with
  | .batch ⟨n, item :: left, out⟩ commit =>
      (materializeRecord kv item).map fun record =>
        { b with phase := .batch ⟨n, left, out ++ record⟩ commit }
  | _ => none

/-- The server seals the batch with the counter of its worker, and the backend saves the
payload. -/
def finish (g : Gcm) (iv : Iv) (b : Backend) : Option Backend :=
  match b.phase with
  | .batch ⟨n, [], out⟩ commit =>
      (sealPayload g iv (payloadHeader n ++ out) zenoPayloadCapacity).map fun (_, payload) =>
        let chunks := b.chunks ++ [payload]
        if commit then { b with chunks := chunks, pending := [], phase := .logging chunks }
        else { b with
          chunks := chunks
          pending := b.pending.drop walMaterializeRidBatchSize
          phase := .filling }
  | _ => none

/-- Abort.  Neither list is cleared. -/
def abort (b : Backend) : Option Backend :=
  match b.phase with
  | .idle => some { b with written := [] }
  | _ => none

end Backend

/-! ## The cluster -/

/-- A record of the write-ahead log. -/
inductive WalRecord where
  /-- A logical message with the prefix `zeno_wal`. -/
  | message (payload : List UInt8)
  /-- The commit of a transaction that wrote these tuples. -/
  | commit (tuples : List HeapTuple)

/-- Backends over the shared stores and one log. -/
structure Cluster (ι : Type) where
  /-- The stores, with the promotions that run for the backends. -/
  shared : Shared ι
  /-- The backends. -/
  backend : ι → Backend
  /-- The log. -/
  wal : List WalRecord

/-- A step of the cluster. -/
inductive ClusterLabel (ι : Type) where
  | promote (i : ι) (val : Value) (p : Partition)
  | advance (i : ι)
  | append (i : ι) (tuple : HeapTuple)
  | fill (i : ι)
  | prepare (i : ι)
  | read (i : ι)
  | finish (i : ι) (iv : Iv)
  | log (i : ι)
  | commit (i : ι)
  | abort (i : ι)

/-- A worker between requests. -/
def Pc.isIdle : Pc → Bool
  | .idle => true
  | _ => false

/-- The field a completed put stands for. -/
def PutRecord.field (r : PutRecord) : Field := ⟨r.rid, r.val⟩

namespace Cluster

variable {ι : Type} [DecidableEq ι]

/-- Backends without transactions over some stores. -/
def init (ι : Type) (kv : KvMap) : Cluster ι := ⟨.quiet ι kv, fun _ => .init, []⟩

/-- A step of one backend outside any promotion. -/
def call (s : Cluster ι) (i : ι) (f : Backend → Option Backend) : Option (Cluster ι) :=
  if (s.shared.pc i).isIdle then
    (f (s.backend i)).map fun b => { s with backend := Function.update s.backend i b }
  else none

/-- One step.  The fields of an appended tuple must come from promotions. -/
def step (g : Gcm) (s : Cluster ι) : ClusterLabel ι → Option (Cluster ι)
  | .promote i val p =>
      match (s.backend i).phase with
      | .idle => (s.shared.step (.start i ⟨val, .fresh p⟩)).map fun sh => { s with shared := sh }
      | _ => none
  | .advance i => (s.shared.step (.advance i)).map fun sh => { s with shared := sh }
  | .append i tuple =>
      if tuple.fields.all (· ∈ s.shared.returned.map fun r => r.field.item) then
        s.call i (·.append tuple)
      else none
  | .fill i => s.call i (·.fill)
  | .prepare i => s.call i (·.prepare)
  | .read i => s.call i (·.read s.shared.kv)
  | .finish i iv => s.call i (·.finish g iv)
  | .log i =>
      match (s.backend i).phase with
      | .logging (payload :: left) =>
          some { s with
            wal := s.wal ++ [.message payload]
            backend := Function.update s.backend i
              { s.backend i with phase := .logging left } }
      | _ => none
  | .commit i =>
      match (s.backend i).phase with
      | .logging [] =>
          some { s with
            wal := s.wal ++ [.commit (s.backend i).written]
            backend := Function.update s.backend i
              { s.backend i with chunks := [], written := [], phase := .idle } }
      | _ => none
  | .abort i => s.call i (·.abort)

end Cluster

/-! ## What the log can be relied on for -/

section Invariant

variable {g : Gcm}

/-- A payload carries a field of an item. -/
def Carries (g : Gcm) (payload : List UInt8) (item : WalRidItem) : Prop :=
  ∃ fs, openPayload g payload = some fs ∧ ∃ f ∈ fs, f.item = item

/-- A payload opens to fields that were promoted, with their values cut. -/
def Sound (g : Gcm) (returned : List PutRecord) (payload : List UInt8) : Prop :=
  ∃ fs, openPayload g payload = some fs ∧ ∀ f ∈ fs, ∃ r ∈ returned, r.field.cut = f

/-- What a sound payload opens to was promoted. -/
theorem Sound.promoted {returned : List PutRecord} {p : List UInt8} {fs : List Field} {f : Field}
    (sound : Sound g returned p) (opened : openPayload g p = some fs) (hf : f ∈ fs) :
    ∃ r ∈ returned, r.field.cut = f := by
  obtain ⟨fs', opened', hall⟩ := sound
  obtain rfl := Option.some.inj (opened.symm.trans opened')
  exact hall f hf

/-- An item that a sound payload carries is that of a put. -/
theorem Sound.carried {returned : List PutRecord} {p : List UInt8} {item : WalRidItem}
    (sound : Sound g returned p) (carries : Carries g p item) :
    ∃ r ∈ returned, r.field.item = item := by
  obtain ⟨fs, opened, f, hf, rfl⟩ := carries
  obtain ⟨r, hr, rfl⟩ := sound.promoted opened hf
  exact ⟨r, hr, rfl⟩

/-- What holds where a backend stands. -/
def Backend.At (returned : List PutRecord) (wal : List WalRecord) (b : Backend) : Phase → Prop
  | .idle => True
  | .filling => True
  | .batch x commit =>
      ∃ fs : List Field, x.out = (fs.map Field.encode).flatten ∧
        x.nitems = fs.length + x.left.length ∧ x.nitems ≤ walMaterializeRidBatchSize ∧
          (∀ f ∈ fs, ∃ r ∈ returned, r.field = f) ∧
            fs.map Field.item ++ x.left =
              if commit then b.pending else b.pending.take walMaterializeRidBatchSize
  | .logging left =>
      b.pending = [] ∧ (∀ p ∈ left, p ∈ b.chunks) ∧
        ∀ p ∈ b.chunks, p ∈ left ∨ .message p ∈ wal

/-- A backend has every field of its transaction in its lists. -/
structure Backend.Inv (g : Gcm) (returned : List PutRecord) (wal : List WalRecord)
    (b : Backend) : Prop where
  pending : ∀ item ∈ b.pending, ∃ r ∈ returned, r.field.item = item
  chunks : ∀ p ∈ b.chunks, Sound g returned p
  written : ∀ tuple ∈ b.written, ∀ item ∈ tuple.fields,
    item ∈ b.pending ∨ ∃ p ∈ b.chunks, Carries g p item
  phase : b.At returned wal b.phase

theorem Sound.mono {returned returned' : List PutRecord} {p : List UInt8}
    (h : Sound g returned p) (more : ∀ r ∈ returned, r ∈ returned') : Sound g returned' p := by
  obtain ⟨fs, hopen, hall⟩ := h
  refine ⟨fs, hopen, fun f hf => ?_⟩
  obtain ⟨r, hr, hcut⟩ := hall f hf
  exact ⟨r, more r hr, hcut⟩

theorem sound_seal (iv : Iv) {returned : List PutRecord} {fs : List Field}
    (hle : fs.length ≤ walMaterializeRidBatchSize)
    (hall : ∀ f ∈ fs, ∃ r ∈ returned, r.field = f) :
    Sound g returned (gcmEncrypt g iv (encodeFields fs)).2 := by
  refine ⟨_, openPayload_seal g iv hle, fun f hf => ?_⟩
  obtain ⟨f', hf', rfl⟩ := List.mem_map.mp hf
  obtain ⟨r, hr, rfl⟩ := hall f' hf'
  exact ⟨r, hr, rfl⟩

theorem carries_seal (iv : Iv) {fs : List Field}
    (hle : fs.length ≤ walMaterializeRidBatchSize) (item : WalRidItem)
    (hmem : item ∈ fs.map Field.item) :
    Carries g (gcmEncrypt g iv (encodeFields fs)).2 item := by
  obtain ⟨f, hf, rfl⟩ := List.mem_map.mp hmem
  exact ⟨_, openPayload_seal g iv hle, f.cut, List.mem_map_of_mem hf, rfl⟩

namespace Backend.Inv

variable {returned : List PutRecord} {wal : List WalRecord} {b b' : Backend}

/-- More promotions and a longer log break nothing. -/
theorem mono {returned' : List PutRecord} {wal' : List WalRecord} (h : b.Inv g returned wal)
    (more : ∀ r ∈ returned, r ∈ returned') (longer : ∀ x ∈ wal, x ∈ wal') :
    b.Inv g returned' wal' := by
  refine ⟨fun item hitem => ?_, fun p hp => (h.chunks p hp).mono more, h.written, ?_⟩
  · obtain ⟨r, hr, hi⟩ := h.pending item hitem
    exact ⟨r, more r hr, hi⟩
  · have hphase := h.phase
    cases hp : b.phase with
    | idle => trivial
    | filling => trivial
    | batch x commit =>
        rw [hp] at hphase
        obtain ⟨fs, hout, hn, hle, hall, hitems⟩ := hphase
        refine ⟨fs, hout, hn, hle, fun f hf => ?_, hitems⟩
        obtain ⟨r, hr, hfield⟩ := hall f hf
        exact ⟨r, more r hr, hfield⟩
    | logging left =>
        rw [hp] at hphase
        obtain ⟨hnil, hsub, hlogged⟩ := hphase
        exact ⟨hnil, hsub, fun p hp => (hlogged p hp).imp_right (longer _)⟩

theorem init : Backend.init.Inv g returned wal :=
  ⟨fun _ h => (nomatch h), fun _ h => (nomatch h), fun _ h => (nomatch h), trivial⟩

theorem append {tuple : HeapTuple} (h : b.Inv g returned wal)
    (known : ∀ item ∈ tuple.fields, ∃ r ∈ returned, r.field.item = item)
    (hb : b.append tuple = some b') : b'.Inv g returned wal := by
  unfold Backend.append at hb
  rw [HeapTuple.items_eq_fields] at hb
  split at hb
  next hidle =>
    split at hb
    next hnil =>
      cases hb
      refine ⟨h.pending, h.chunks, fun t ht item hitem => ?_, by simp only [hidle]; trivial⟩
      rcases List.mem_append.mp ht with ht | ht
      · exact h.written t ht item hitem
      · obtain rfl := List.mem_singleton.mp ht
        rw [hnil] at hitem
        cases hitem
    next =>
      cases hb
      refine ⟨fun item hitem => ?_, h.chunks, fun t ht item hitem => ?_, trivial⟩
      · rcases List.mem_append.mp hitem with hitem | hitem
        · exact h.pending item hitem
        · exact known item hitem
      · rcases List.mem_append.mp ht with ht | ht
        · exact (h.written t ht item hitem).imp_left (List.mem_append_left _)
        · obtain rfl := List.mem_singleton.mp ht
          exact .inl (List.mem_append_right _ hitem)
  next => cases hb

theorem startBatch {items : List WalRidItem} (commit : Bool) (h : b.Inv g returned wal)
    (hitems : items = if commit then b.pending else b.pending.take walMaterializeRidBatchSize)
    (hb : b.startBatch items commit = some b') : b'.Inv g returned wal := by
  simp only [Backend.startBatch, Option.ite_none_right_eq_some, Option.some.injEq] at hb
  obtain ⟨hle, rfl⟩ := hb
  exact ⟨h.pending, h.chunks, h.written,
    [], rfl, (Nat.zero_add _).symm, hle, fun f hf => (nomatch hf), hitems⟩

theorem fill (h : b.Inv g returned wal) (hb : b.fill = some b') : b'.Inv g returned wal := by
  unfold Backend.fill at hb
  split at hb
  next =>
    split at hb
    next => exact h.startBatch false rfl hb
    next =>
      cases hb
      exact ⟨h.pending, h.chunks, h.written, trivial⟩
  next => cases hb

theorem prepare (h : b.Inv g returned wal) (hb : b.prepare = some b') :
    b'.Inv g returned wal := by
  unfold Backend.prepare at hb
  split at hb
  next =>
    split at hb
    next hnil =>
      cases hb
      exact ⟨h.pending, h.chunks, h.written, hnil, fun p hp => hp, fun p hp => .inl hp⟩
    next => exact h.startBatch true rfl hb
  next => cases hb

theorem abort (h : b.Inv g returned wal) (hb : b.abort = some b') : b'.Inv g returned wal := by
  unfold Backend.abort at hb
  split at hb
  next hidle =>
    cases hb
    exact ⟨h.pending, h.chunks, fun _ ht => (nomatch ht), by simp only [hidle]; trivial⟩
  next => cases hb

/-- The items of a batch are pending. -/
theorem mem_pending {items : List WalRidItem} {commit : Bool} {item : WalRidItem}
    (hitems : items = if commit then b.pending else b.pending.take walMaterializeRidBatchSize)
    (hmem : item ∈ items) : item ∈ b.pending := by
  subst hitems
  split at hmem
  · exact hmem
  · exact List.mem_of_mem_take hmem

/-- An item is read as the field that was promoted under it. -/
theorem read {kv : KvMap} (h : b.Inv g returned wal) (kept : ∀ r ∈ returned, r.Kept kv)
    (hb : b.read kv = some b') : b'.Inv g returned wal := by
  have hphase := h.phase
  unfold Backend.read at hb
  split at hb
  next n item left out commit hp =>
    simp only [Option.map_eq_some_iff] at hb
    obtain ⟨record, hrecord, rfl⟩ := hb
    rw [hp] at hphase
    obtain ⟨fs, hout, hn, hle, hall, hitems⟩ := hphase
    obtain ⟨r, hr, rfl⟩ := h.pending item
      (mem_pending hitems (List.mem_append_right _ List.mem_cons_self))
    have hencode := materializeRecord_eq (f := r.field) (kept r hr).stored.get
    rw [Field.item, hencode] at hrecord
    obtain rfl := Option.some.inj hrecord
    refine ⟨h.pending, h.chunks, h.written, fs ++ [r.field], ?_, ?_, hle, fun f hf => ?_, ?_⟩
    · simp only at hout
      simp [hout]
    · simp only [List.length_cons] at hn
      simp only [List.length_append, List.length_singleton]
      omega
    · rcases List.mem_append.mp hf with hf | hf
      · exact hall f hf
      · exact ⟨r, hr, (List.mem_singleton.mp hf).symm⟩
    · rw [← hitems]
      simp
  next => cases hb

/-- A backend saves a payload and drops pending items that the payload carries. -/
theorem save {p : List UInt8} {pending : List WalRidItem} {phase : Phase}
    (h : b.Inv g returned wal) (sound : Sound g returned p)
    (keep : ∀ item ∈ pending, item ∈ b.pending)
    (carries : ∀ item ∈ b.pending, item ∈ pending ∨ Carries g p item)
    (hphase : Backend.At returned wal
      { b with chunks := b.chunks ++ [p], pending := pending, phase := phase } phase) :
    Backend.Inv g returned wal
      { b with chunks := b.chunks ++ [p], pending := pending, phase := phase } := by
  refine ⟨fun item hitem => h.pending item (keep item hitem), fun q hq => ?_,
    fun tuple ht item hitem => ?_, hphase⟩
  · rcases List.mem_append.mp hq with hq | hq
    · exact h.chunks q hq
    · rw [List.mem_singleton.mp hq]
      exact sound
  · rcases h.written tuple ht item hitem with hpend | ⟨q, hq, hc⟩
    · refine (carries item hpend).imp_right fun hc => ⟨p, ?_, hc⟩
      exact List.mem_append_right _ (List.mem_singleton.mpr rfl)
    · exact .inr ⟨q, List.mem_append_left _ hq, hc⟩

theorem finish {iv : Iv} (h : b.Inv g returned wal) (hb : b.finish g iv = some b') :
    b'.Inv g returned wal := by
  have hphase := h.phase
  unfold Backend.finish at hb
  split at hb
  next n out commit hp =>
    rw [hp] at hphase
    obtain ⟨fs, rfl, hn, hle, hall, hitems⟩ := hphase
    simp only [List.length_nil, Nat.add_zero, List.append_nil] at hn hitems hle
    subst hn
    simp only [sealPayload, Option.map_eq_some_iff, Option.ite_none_right_eq_some,
      Option.some.injEq] at hb
    obtain ⟨out, ⟨-, rfl⟩, rfl⟩ := hb
    have hsound := sound_seal (g := g) iv hle hall
    have hcarries := carries_seal (g := g) iv hle
    split
    next =>
      refine h.save hsound (fun item hitem => absurd hitem List.not_mem_nil) (fun item hitem => ?_)
        ⟨rfl, fun p hp => hp, fun p hp => .inl hp⟩
      rw [if_pos ‹_›] at hitems
      exact .inr (hcarries item (hitems ▸ hitem))
    next =>
      refine h.save hsound (fun item => List.mem_of_mem_drop) (fun item hitem => ?_) trivial
      rw [if_neg ‹_›] at hitems
      rw [← List.take_append_drop walMaterializeRidBatchSize b.pending, ← hitems] at hitem
      exact (List.mem_append.mp hitem).symm.imp_right (hcarries item)
  next => cases hb

end Backend.Inv

variable {ι : Type}

/-- What the log can be relied on for: its payloads are sound, and a commit record comes
after payloads that carry every field of the tuples it commits. -/
structure Cluster.Inv (g : Gcm) (s : Cluster ι) : Prop where
  puts : s.shared.PutInv
  backends : ∀ i, (s.backend i).Inv g s.shared.returned s.wal
  messages : ∀ p, .message p ∈ s.wal → Sound g s.shared.returned p
  commits : ∀ w, w <+: s.wal → ∀ tuples, .commit tuples ∈ w → ∀ tuple ∈ tuples,
    ∀ item ∈ tuple.fields, ∃ p, .message p ∈ w ∧ Carries g p item

namespace Cluster

theorem inv_init (kv : KvMap) : (init ι kv).Inv g where
  puts := Shared.putInv_quiet kv
  backends _ := .init
  messages _ h := nomatch h
  commits w hw tuples h := by
    rw [List.prefix_nil.mp hw] at h
    cases h

variable [DecidableEq ι] {s s' : Cluster ι}

theorem call_eq_some {i : ι} {f : Backend → Option Backend} (h : s.call i f = some s') :
    ∃ b, f (s.backend i) = some b ∧
      s' = { s with backend := Function.update s.backend i b } := by
  simp only [call, Option.ite_none_right_eq_some, Option.map_eq_some_iff] at h
  obtain ⟨-, b, hb, rfl⟩ := h
  exact ⟨b, hb, rfl⟩

/-- A step leaves the stores, or it begins or advances a put. -/
theorem step_shared {l : ClusterLabel ι} (h : s.step g l = some s') :
    s'.shared = s.shared ∨
    (∃ i val p, l = .promote i val p ∧
      s.shared.step (.start i ⟨val, .fresh p⟩) = some s'.shared) ∨
    (∃ i, l = .advance i ∧ s.shared.step (.advance i) = some s'.shared) := by
  have hcall {i : ι} {f : Backend → Option Backend} (h : s.call i f = some s') :
      s'.shared = s.shared := by
    obtain ⟨b, -, rfl⟩ := call_eq_some h
    rfl
  cases l with
  | promote i val p =>
      simp only [step] at h
      split at h
      next =>
        obtain ⟨sh, hsh, rfl⟩ := Option.map_eq_some_iff.mp h
        exact .inr (.inl ⟨i, val, p, rfl, hsh⟩)
      next => cases h
  | advance i =>
      obtain ⟨sh, hsh, rfl⟩ := Option.map_eq_some_iff.mp h
      exact .inr (.inr ⟨i, rfl, hsh⟩)
  | append i tuple =>
      simp only [step, Option.ite_none_right_eq_some] at h
      exact .inl (hcall h.2)
  | fill i | prepare i | read i | finish i iv | abort i => exact .inl (hcall h)
  | log i | commit i =>
      simp only [step] at h
      split at h
      next =>
        cases h
        exact .inl rfl
      next => cases h

theorem path_of_step {l : ClusterLabel ι} (h : s.step g l = some s') :
    Machine.Path Shared.step Shared.putsOnly s.shared s'.shared := by
  rcases step_shared h with hsame | ⟨i, val, p, -, hsh⟩ | ⟨i, -, hsh⟩
  · rw [hsame]
  · exact .single ⟨.start i ⟨val, .fresh p⟩, ⟨p, rfl⟩, hsh⟩
  · exact .single ⟨.advance i, trivial, hsh⟩

theorem path_shared {ok : Cluster ι → ClusterLabel ι → Prop}
    (path : Machine.Path (step g) ok s s') :
    Machine.Path Shared.step Shared.putsOnly s.shared s'.shared :=
  path.related (R := fun a b => Machine.Path Shared.step Shared.putsOnly a.shared b.shared)
    (fun _ => .refl) (fun _ _ _ => .trans) fun _ _ _ => path_of_step

namespace Inv

/-- A step of a put. -/
theorem shared {sh : Shared ι} (inv : s.Inv g) (path : Machine.Path Shared.step Shared.putsOnly
    s.shared sh) : Inv g { s with shared := sh } := by
  obtain ⟨hputs, hkeep⟩ := inv.puts.path path
  have hmore (r : PutRecord) (hr : r ∈ s.shared.returned) := (hkeep r hr).1
  exact ⟨hputs, fun i => (inv.backends i).mono hmore fun _ => id,
    fun p hp => (inv.messages p hp).mono hmore, inv.commits⟩

/-- A step of one backend. -/
theorem call {i : ι} {f : Backend → Option Backend} (inv : s.Inv g)
    (keep : ∀ b, f (s.backend i) = some b → b.Inv g s.shared.returned s.wal)
    (h : s.call i f = some s') : s'.Inv g := by
  obtain ⟨b, hb, rfl⟩ := call_eq_some h
  refine ⟨inv.puts, ?_, inv.messages, inv.commits⟩
  exact (Function.forall_update_iff s.backend fun _ b => b.Inv g s.shared.returned s.wal).mpr
    ⟨keep b hb, fun j _ => inv.backends j⟩

/-- A payload of a backend is logged. -/
theorem log {i : ι} (inv : s.Inv g) (h : s.step g (.log i) = some s') : s'.Inv g := by
  simp only [step] at h
  split at h
  next payload left hp =>
    cases h
    have hb := inv.backends i
    have hphase := hb.phase
    rw [hp] at hphase
    obtain ⟨hnil, hsub, hlogged⟩ := hphase
    have hlonger : ∀ x ∈ s.wal, x ∈ s.wal ++ [.message payload] :=
      fun x => List.mem_append_left _
    refine ⟨inv.puts, ?_, fun p hp' => ?_, fun w hw tuples hc tuple ht item hitem => ?_⟩
    · refine (Function.forall_update_iff s.backend fun _ b =>
        b.Inv g s.shared.returned (s.wal ++ [.message payload])).mpr
        ⟨?_, fun j _ => (inv.backends j).mono (fun _ => id) hlonger⟩
      refine ⟨hb.pending, hb.chunks, hb.written, hnil,
        fun p hp => hsub p (List.mem_cons_of_mem _ hp), fun p hp => ?_⟩
      rcases hlogged p hp with hmem | hmem
      · rcases List.mem_cons.mp hmem with rfl | hmem
        · exact .inr (List.mem_append_right _ (List.mem_singleton.mpr rfl))
        · exact .inl hmem
      · exact .inr (hlonger _ hmem)
    · rcases List.mem_append.mp hp' with hp' | hp'
      · exact inv.messages p hp'
      · cases List.mem_singleton.mp hp'
        exact hb.chunks payload (hsub payload List.mem_cons_self)
    · rcases List.prefix_concat_iff.mp hw with rfl | hw
      · have hold : .commit tuples ∈ s.wal := by
          rcases List.mem_append.mp hc with hc | hc
          · exact hc
          · cases List.mem_singleton.mp hc
        obtain ⟨p, hp, hcarries⟩ :=
          inv.commits s.wal List.prefix_rfl tuples hold tuple ht item hitem
        exact ⟨p, hlonger _ hp, hcarries⟩
      · exact inv.commits w hw tuples hc tuple ht item hitem
  next => cases h

/-- A transaction commits: every payload of its backend is in the log. -/
theorem commit {i : ι} (inv : s.Inv g) (h : s.step g (.commit i) = some s') : s'.Inv g := by
  simp only [step] at h
  split at h
  next hp =>
    cases h
    have hb := inv.backends i
    have hphase := hb.phase
    rw [hp] at hphase
    obtain ⟨hnil, -, hlogged⟩ := hphase
    have hlonger : ∀ x ∈ s.wal, x ∈ s.wal ++ [.commit (s.backend i).written] :=
      fun x => List.mem_append_left _
    refine ⟨inv.puts, ?_, fun p hp' => ?_, fun w hw tuples hc tuple ht item hitem => ?_⟩
    · refine (Function.forall_update_iff s.backend fun _ b =>
        b.Inv g s.shared.returned (s.wal ++ [.commit (s.backend i).written])).mpr
        ⟨?_, fun j _ => (inv.backends j).mono (fun _ => id) hlonger⟩
      exact ⟨hb.pending, fun _ hp => (nomatch hp), fun _ ht => (nomatch ht), trivial⟩
    · rcases List.mem_append.mp hp' with hp' | hp'
      · exact inv.messages p hp'
      · cases List.mem_singleton.mp hp'
    · rcases List.prefix_concat_iff.mp hw with rfl | hw
      · suffices ∃ p, .message p ∈ s.wal ∧ Carries g p item by
          obtain ⟨p, hp, hcarries⟩ := this
          exact ⟨p, hlonger _ hp, hcarries⟩
        rcases List.mem_append.mp hc with hc | hc
        · exact inv.commits s.wal List.prefix_rfl tuples hc tuple ht item hitem
        · cases List.mem_singleton.mp hc
          rcases hb.written tuple ht item hitem with hpend | ⟨p, hp, hcarries⟩
          · rw [hnil] at hpend
            cases hpend
          · exact ⟨p, (hlogged p hp).resolve_left (List.not_mem_nil), hcarries⟩
      · exact inv.commits w hw tuples hc tuple ht item hitem
  next => cases h

theorem step {l : ClusterLabel ι} (inv : s.Inv g) (h : s.step g l = some s') : s'.Inv g := by
  cases l with
  | promote i val p =>
      have hpath := path_of_step h
      simp only [Cluster.step] at h
      split at h
      next =>
        obtain ⟨sh, -, rfl⟩ := Option.map_eq_some_iff.mp h
        exact inv.shared hpath
      next => cases h
  | advance i =>
      have hpath := path_of_step h
      obtain ⟨sh, -, rfl⟩ := Option.map_eq_some_iff.mp h
      exact inv.shared hpath
  | append i tuple =>
      simp only [Cluster.step, Option.ite_none_right_eq_some, List.all_eq_true, decide_eq_true_eq,
        List.mem_map] at h
      exact inv.call (fun b hb => (inv.backends i).append h.1 hb) h.2
  | fill i => exact inv.call (fun b hb => (inv.backends i).fill hb) h
  | prepare i => exact inv.call (fun b hb => (inv.backends i).prepare hb) h
  | read i => exact inv.call (fun b hb => (inv.backends i).read inv.puts.kept hb) h
  | finish i iv => exact inv.call (fun b hb => (inv.backends i).finish hb) h
  | log i => exact inv.log h
  | commit i => exact inv.commit h
  | abort i => exact inv.call (fun b hb => (inv.backends i).abort hb) h

theorem path {ok : Cluster ι → ClusterLabel ι → Prop} (inv : s.Inv g)
    (path : Machine.Path (Cluster.step g) ok s s') : s'.Inv g :=
  path.invariant (I := Inv g) inv fun _ _ _ hinv _ h => hinv.step h

end Inv

end Cluster

end Invariant

/-! ## A transaction on its own -/

namespace Cluster

variable {ι : Type} [DecidableEq ι] {g : Gcm} {ok : Cluster ι → ClusterLabel ι → Prop}

/-- A put of the stores is a promotion of a backend between calls. -/
theorem promote_path {s : Cluster ι} {sh : Shared ι} {val : Value} {p : Partition}
    (idle : ∀ i, (s.backend i).phase = .idle) (promote : ∀ s i, ok s (.promote i val p))
    (advance : ∀ s i, ok s (.advance i))
    (path : Machine.Path Shared.step (Shared.startsOnly ⟨val, .fresh p⟩) s.shared sh) :
    Machine.Path (step g) ok s { s with shared := sh } := by
  induction path with
  | refl => exact .refl
  | tail _ hnext ih =>
      obtain ⟨l, hok, hs⟩ := hnext
      refine ih.tail ?_
      cases l with
      | start i op =>
          obtain rfl := hok
          exact ⟨.promote i val p, promote _ i, by simp only [step, idle i, hs, Option.map_some]⟩
      | advance i => exact ⟨.advance i, advance _ i, by simp only [step, hs, Option.map_some]⟩

/-- A tuple of one field. -/
def oneField (item : WalRidItem) : HeapTuple :=
  ⟨[⟨false, some item.ty, some item.rid⟩], by simp [maxHeapAttributeNumber]⟩

/-- A backend on its own commits a tuple of a field it has promoted. -/
theorem commit_path {s : Cluster ι} {i : ι} {r : PutRecord} (iv : Iv)
    (other : ∀ s l, (∀ i val p, l ≠ .promote i val p) → ok s l)
    (hbackend : s.backend i = .init) (hpc : s.shared.pc i = .idle)
    (hr : r ∈ s.shared.returned) (kept : r.Kept s.shared.kv) :
    ∃ s', Machine.Path (step g) ok s s' ∧ s'.shared = s.shared ∧
      s'.wal = s.wal ++ [.message (gcmEncrypt g iv (encodeFields [r.field])).2,
        .commit [oneField r.field.item]] := by
  have hrecord := materializeRecord_eq (f := r.field) kept.stored.get
  have hlen := length_walValueBytes_le r.field.val.1 r.field.val.2
  let item := r.field.item
  let payload := (gcmEncrypt g iv (encodeFields [r.field])).2
  let st (b : Backend) (w : List WalRecord) : Cluster ι :=
    { s with backend := Function.update s.backend i b, wal := s.wal ++ w }
  let tuple := oneField item
  have hst : s = st .init [] := by
    simp only [st, ← hbackend, Function.update_eq_self, List.append_nil]
  have hfields : tuple.fields = [item] := rfl
  have hitems : tuple.items = [item] := tuple.items_eq_fields
  have happend : step g (st .init []) (.append i tuple) =
      some (st ⟨[item], [], .filling, [tuple]⟩ []) := by
    have hmem : ∃ r ∈ s.shared.returned, r.field.item = item := ⟨r, hr, rfl⟩
    simp [step, call, st, hpc, Pc.isIdle, Backend.append, Backend.init, hfields, hitems, hmem]
  have hfill : step g (st ⟨[item], [], .filling, [tuple]⟩ []) (.fill i) =
      some (st ⟨[item], [], .idle, [tuple]⟩ []) := by
    simp [step, call, st, hpc, Pc.isIdle, Backend.fill, walMaterializeRidBatchSize]
  have hprepare : step g (st ⟨[item], [], .idle, [tuple]⟩ []) (.prepare i) =
      some (st ⟨[item], [], .batch ⟨1, [item], []⟩ true, [tuple]⟩ []) := by
    simp [step, call, st, hpc, Pc.isIdle, Backend.prepare, Backend.startBatch,
      walMaterializeRidBatchSize]
  have hread : step g (st ⟨[item], [], .batch ⟨1, [item], []⟩ true, [tuple]⟩ []) (.read i) =
      some (st ⟨[item], [], .batch ⟨1, [], r.field.encode⟩ true, [tuple]⟩ []) := by
    simp [step, call, st, hpc, Pc.isIdle, Backend.read, item, Field.item, hrecord]
  have hfinish : step g (st ⟨[item], [], .batch ⟨1, [], r.field.encode⟩ true, [tuple]⟩ [])
      (.finish i iv) = some (st ⟨[], [payload], .logging [payload], [tuple]⟩ []) := by
    have hroom : (payloadHeader 1 ++ r.field.encode).length + ivSize + tagSize ≤
        zenoPayloadCapacity := by
      simp only [payloadHeader, Field.encode, List.length_append, List.length_cons,
        Bytes.length_le, ivSize, tagSize, zenoPayloadCapacity, reqRegionSize,
        walMaterializeRidBatchSize,
        stringLength] at hlen ⊢
      omega
    have hseal : sealPayload g iv (payloadHeader 1 ++ r.field.encode) zenoPayloadCapacity =
        some (gcmEncrypt g iv (encodeFields [r.field])) := by
      rw [sealPayload, if_pos hroom]
      simp [encodeFields]
    simp [step, call, st, hpc, Pc.isIdle, Backend.finish, hseal, payload]
  have hlog : step g (st ⟨[], [payload], .logging [payload], [tuple]⟩ []) (.log i) =
      some (st ⟨[], [payload], .logging [], [tuple]⟩ [.message payload]) := by
    simp [step, st]
  have hcommit : step g (st ⟨[], [payload], .logging [], [tuple]⟩ [.message payload])
      (.commit i) = some (st .init [.message payload, .commit [tuple]]) := by
    simp [step, st, Backend.init]
  have hpath : Machine.Path (step g) ok (st .init [])
      (st .init [.message payload, .commit [tuple]]) :=
    .head ⟨_, other _ _ (by simp), happend⟩ <| .head ⟨_, other _ _ (by simp), hfill⟩ <|
      .head ⟨_, other _ _ (by simp), hprepare⟩ <| .head ⟨_, other _ _ (by simp), hread⟩ <|
      .head ⟨_, other _ _ (by simp), hfinish⟩ <| .head ⟨_, other _ _ (by simp), hlog⟩ <|
      .single ⟨_, other _ _ (by simp), hcommit⟩
  rw [← hst] at hpath
  exact ⟨_, hpath, rfl, rfl⟩

end Cluster

end Zeno
