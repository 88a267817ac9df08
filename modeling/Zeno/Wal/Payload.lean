import Zeno.Kv.FileMap
import Zeno.Tee.Crypto

/-!
# Payloads of the write-ahead log

A batch of field identifiers is turned into one encrypted payload
(`materializeBatch`, `wal.hpp`): a header with a magic number, a version and
the number of records, then for each field its type, the length of its value,
its RID and the value.  Recovery decrypts a payload and replaces each field by
the value it reads (`replayPayload`).

A text is logged without its tail past `STRING_LENGTH` bytes, and it is read
back into a buffer of `STRING_LENGTH` bytes whose last byte is then cleared.
So a text of `STRING_LENGTH` bytes or more comes back cut to one byte less
(`cut`), and every other value comes back as it was.  `replayPayload_seal` says what
recovery does with a payload: it replaces the fields in order by their cut values.
-/

namespace Zeno

/-- `WAL_MATERIALIZE_RID_BATCH_SIZE`. -/
def walMaterializeRidBatchSize : Nat := 3000

/-- `REQ_REGION_SIZE`. -/
def reqRegionSize : Nat := 1048576

/-- `ZenoPayloadCapacity`: a region without the fixed part of the request. -/
def zenoPayloadCapacity : Nat := reqRegionSize - (24 + walMaterializeRidBatchSize * 16)

/-- `WAL_PAYLOAD_MAGIC`. -/
def walPayloadMagic : Nat := 0x31564c57

/-- `WAL_PAYLOAD_VERSION`. -/
def walPayloadVersion : Nat := 1

/-- `UINT16_MAX`. -/
def uint16Max : Nat := 65535

/-- `ZenoWalTypeForOid`: the number of a type in the log. -/
def Ty.walType : Ty → UInt8
  | .num .int => 0
  | .num .float => 1
  | .text => 2
  | .num .timestamp => 3

/-- The type a number of the log stands for. -/
def Ty.ofWalType (b : UInt8) : Option Ty :=
  if b = 0 then some .int
  else if b = 1 then some .float
  else if b = 2 then some .text
  else if b = 3 then some .timestamp
  else none

theorem Ty.ofWalType_walType (t : Ty) : Ty.ofWalType t.walType = some t := by
  cases t with
  | num n => cases n <;> rfl
  | text => rfl

/-- `WalRidItem`: a field of a tuple that was written. -/
structure WalRidItem where
  /-- The type of the column. -/
  ty : Ty
  /-- The RID in the column. -/
  rid : RID
deriving DecidableEq

/-! ## Writing a payload -/

/-- The bytes logged for a value.  Of a text these are `strnlen(value, STRING_LENGTH - 1) + 1`
bytes from its start. -/
def walValueBytes : (t : Ty) → t.Val → List UInt8
  | .num n, value => Bytes.le n.size value.toNat
  | .text, value => value.terminated.take stringLength

/-- `append_record_value`. -/
def appendRecordValue (key : RID) (value : List UInt8) : Option (List UInt8) :=
  if value.length ≤ uint16Max then
    some (Bytes.le 2 value.length ++ Bytes.le 8 key.toNat ++ value)
  else none

/-- One turn of the loop of `materialize_payload`. -/
def materializeRecord (kv : KvMap) (item : WalRidItem) : Option (List UInt8) := do
  let value ← kv.get item.ty item.rid
  let record ← appendRecordValue item.rid (walValueBytes item.ty value)
  some (item.ty.walType :: record)

/-- `WALPayloadHeader`. -/
def payloadHeader (nitems : Nat) : List UInt8 :=
  Bytes.le 4 walPayloadMagic ++ Bytes.le 2 walPayloadVersion ++ Bytes.le 2 nitems

/-- `materialize_payload`. -/
def materializePayload (kv : KvMap) (items : List WalRidItem) : Option (List UInt8) :=
  if items.length ≤ uint16Max then
    (items.mapM (materializeRecord kv)).map fun records =>
      payloadHeader items.length ++ records.flatten
  else none

/-- The end of `materializeBatch`: the capacity check and the encryption. -/
def sealPayload (g : Gcm) (iv : Iv) (plaintext : List UInt8) (capacity : Nat) :
    Option (Iv × List UInt8) :=
  if plaintext.length + ivSize + tagSize ≤ capacity then some (gcmEncrypt g iv plaintext)
  else none

/-- `materializeBatch`. -/
def materializeBatch (g : Gcm) (iv : Iv) (kv : KvMap) (items : List WalRidItem)
    (capacity : Nat) : Option (Iv × List UInt8) :=
  if items = [] then some (iv, [])
  else if items.length ≤ walMaterializeRidBatchSize then do
    let plaintext ← materializePayload kv items
    sealPayload g iv plaintext capacity
  else none

/-- A batch with an item is encrypted once. -/
theorem materializeBatch_gcmEncrypt {g : Gcm} {iv : Iv} {kv : KvMap} {items : List WalRidItem}
    {capacity : Nat} {res : Iv × List UInt8} (hne : items ≠ [])
    (h : materializeBatch g iv kv items capacity = some res) :
    ∃ plaintext, res = gcmEncrypt g iv plaintext := by
  simp only [materializeBatch, hne, if_false, Option.ite_none_right_eq_some, Option.bind_eq_bind,
    Option.bind_eq_some_iff, sealPayload] at h
  obtain ⟨-, plaintext, -, -, heq⟩ := h
  exact ⟨plaintext, (Option.some.inj heq).symm⟩

/-! ## Reading a payload -/

/-- The value recovered from the bytes of a record.  A text is copied into a zeroed
buffer whose last byte is cleared. -/
def walValue : (t : Ty) → List UInt8 → Option t.Val
  | .num n, bytes =>
      if bytes.length = n.size then some (BitVec.ofNat n.width (Bytes.ofLe bytes)) else none
  | .text, bytes =>
      if 0 < bytes.length ∧ bytes.length ≤ stringLength then
        let buffer := bytes ++ List.replicate (stringLength - bytes.length) 0
        some (CStr.ofBytes (buffer.set (stringLength - 1) 0))
      else none

/-- One turn of the loop of `replay_payload`. -/
def replayRecord (kv : KvMap) (data : List UInt8) : Option (KvMap × List UInt8) := do
  let (type, data) ← Bytes.take? 1 data
  let (len, data) ← Bytes.take? 2 data
  let (key, data) ← Bytes.take? 8 data
  let (bytes, data) ← Bytes.take? (Bytes.ofLe len) data
  let t ← Ty.ofWalType (type.headD 0)
  let value ← walValue t bytes
  let kv ← kv.replace t (BitVec.ofNat 64 (Bytes.ofLe key)) value
  some (kv, data)

/-- The loop of `replay_payload` over `n` records. -/
def replayRecords : Nat → KvMap → List UInt8 → Option (KvMap × List UInt8)
  | 0, kv, data => some (kv, data)
  | n + 1, kv, data => (replayRecord kv data).bind fun (kv, data) => replayRecords n kv data

/-- `replay_payload`. -/
def replayPlaintext (kv : KvMap) (data : List UInt8) : Option KvMap := do
  let (magic, data) ← Bytes.take? 4 data
  let (version, data) ← Bytes.take? 2 data
  let (nitems, data) ← Bytes.take? 2 data
  if Bytes.ofLe magic = walPayloadMagic ∧ Bytes.ofLe version = walPayloadVersion then
    let (kv, data) ← replayRecords (Bytes.ofLe nitems) kv data
    if data = [] then some kv else none
  else none

/-- `replayPayload`. -/
def replayPayload (g : Gcm) (kv : KvMap) (payload : List UInt8) : Option KvMap :=
  if payload.length = 0 then some kv
  else if ivSize + tagSize ≤ payload.length then do
    let plaintextLen := payload.length - ivSize - tagSize
    let (plaintext, decryptLen) ← gcmDecrypt g payload
    if decryptLen = plaintextLen then replayPlaintext kv plaintext else none
  else none

/-! ## Fields in a payload -/

/-- A field as a record carries it. -/
structure Field where
  /-- The RID. -/
  rid : RID
  /-- The value, with its type. -/
  val : Value

/-- The item a field was logged for. -/
def Field.item (f : Field) : WalRidItem := ⟨f.val.1, f.rid⟩

/-- Replace fields in order. -/
def applyFields (kv : KvMap) (fs : List Field) : Option KvMap :=
  fs.foldlM (fun kv f => kv.replace f.val.1 f.rid f.val.2) kv

/-- Read one record off the front. -/
def readRecord (data : List UInt8) : Option (Field × List UInt8) := do
  let (type, data) ← Bytes.take? 1 data
  let (len, data) ← Bytes.take? 2 data
  let (key, data) ← Bytes.take? 8 data
  let (bytes, data) ← Bytes.take? (Bytes.ofLe len) data
  let t ← Ty.ofWalType (type.headD 0)
  let value ← walValue t bytes
  some (⟨BitVec.ofNat 64 (Bytes.ofLe key), ⟨t, value⟩⟩, data)

/-- Read `n` records off the front. -/
def readRecords : Nat → List UInt8 → Option (List Field × List UInt8)
  | 0, data => some ([], data)
  | n + 1, data => do
      let (f, data) ← readRecord data
      let (fs, data) ← readRecords n data
      some (f :: fs, data)

/-- The fields of a plaintext. -/
def readPlaintext (data : List UInt8) : Option (List Field) := do
  let (magic, data) ← Bytes.take? 4 data
  let (version, data) ← Bytes.take? 2 data
  let (nitems, data) ← Bytes.take? 2 data
  if Bytes.ofLe magic = walPayloadMagic ∧ Bytes.ofLe version = walPayloadVersion then
    let (fs, data) ← readRecords (Bytes.ofLe nitems) data
    if data = [] then some fs else none
  else none

/-- The fields of a payload. -/
def openPayload (g : Gcm) (payload : List UInt8) : Option (List Field) :=
  if payload.length = 0 then some []
  else if ivSize + tagSize ≤ payload.length then do
    let plaintextLen := payload.length - ivSize - tagSize
    let (plaintext, decryptLen) ← gcmDecrypt g payload
    if decryptLen = plaintextLen then readPlaintext plaintext else none
  else none

theorem replayRecord_eq (kv : KvMap) (data : List UInt8) :
    replayRecord kv data = (readRecord data).bind fun (f, data) =>
      (kv.replace f.val.1 f.rid f.val.2).map fun kv => (kv, data) := by
  simp only [replayRecord, readRecord, Option.bind_eq_bind, Option.bind_assoc, Option.bind_some,
    Option.map_eq_bind]
  rfl

theorem replayRecords_eq (n : Nat) (kv : KvMap) (data : List UInt8) :
    replayRecords n kv data = (readRecords n data).bind fun (fs, data) =>
      (applyFields kv fs).map fun kv => (kv, data) := by
  induction n generalizing kv data with
  | zero => rfl
  | succ n ih =>
      simp only [replayRecords, replayRecord_eq, readRecords, Option.bind_eq_bind]
      cases readRecord data with
      | none => rfl
      | some fd =>
          obtain ⟨f, data⟩ := fd
          -- a failed read and a failed `replace` give the same outcome in either order
          cases hr : kv.replace f.val.1 f.rid f.val.2 <;> cases hn : readRecords n data <;>
            simp [ih, hr, hn, applyFields]

theorem replayPlaintext_eq (kv : KvMap) (data : List UInt8) :
    replayPlaintext kv data = (readPlaintext data).bind (applyFields kv) := by
  simp only [replayPlaintext, readPlaintext, Option.bind_eq_bind, Option.bind_assoc]
  congr 1
  funext magic
  congr 1
  funext version
  congr 1
  funext nitems
  split
  next =>
    rw [replayRecords_eq]
    cases readRecords (Bytes.ofLe nitems.1) nitems.2 with
    | none => rfl
    | some fd =>
        obtain ⟨fs, data⟩ := fd
        by_cases hend : data = [] <;> cases happly : applyFields kv fs <;>
          simp [hend, happly]
  next => rfl

/-- Recovery reads the fields of a payload and replaces them in order. -/
theorem replayPayload_eq (g : Gcm) (kv : KvMap) (payload : List UInt8) :
    replayPayload g kv payload = (openPayload g payload).bind (applyFields kv) := by
  unfold replayPayload openPayload
  split
  next => rfl
  next =>
    split
    next =>
      cases gcmDecrypt g payload with
      | none => rfl
      | some out =>
          simp only [Option.bind_eq_bind, Option.bind_some]
          split
          next => exact replayPlaintext_eq kv out.1
          next => rfl
    next => rfl

/-! ## Replacing fields in order -/

theorem applyFields_append (kv : KvMap) (fs fs' : List Field) :
    applyFields kv (fs ++ fs') = (applyFields kv fs).bind (applyFields · fs') := by
  simp [applyFields, List.foldlM_append]

theorem applyFields_cons_eq_some {kv kv' : KvMap} {f : Field} {fs : List Field} :
    applyFields kv (f :: fs) = some kv' ↔
      ∃ kv₁, kv.replace f.val.1 f.rid f.val.2 = some kv₁ ∧ applyFields kv₁ fs = some kv' := by
  simp only [applyFields, List.foldlM_cons, Option.bind_eq_bind, Option.bind_eq_some_iff]

/-- A field that was stored, or that is replaced, is stored afterwards, with a value of a
kind that its records and its first value are of. -/
theorem applyFields_stored_of {kv kv' : KvMap} {fs : List Field} {t : Ty} {key : RID}
    (P : t.Val → Prop) (h : applyFields kv fs = some kv')
    (records : ∀ value, ⟨key, ⟨t, value⟩⟩ ∈ fs → P value)
    (start : (∃ value, P value ∧ kv.Stored t key value) ∨ ∃ f ∈ fs, f.item = ⟨t, key⟩) :
    ∃ value, P value ∧ kv'.Stored t key value := by
  induction fs generalizing kv with
  | nil =>
      cases h
      rcases start with hstored | ⟨f, hf, -⟩
      · exact hstored
      · cases hf
  | cons f fs ih =>
      obtain ⟨kv₁, hreplace, hrest⟩ := applyFields_cons_eq_some.mp h
      refine ih hrest (fun value hv => records value (List.mem_cons_of_mem _ hv)) ?_
      by_cases hitem : f.item = ⟨t, key⟩
      · obtain ⟨rid, val⟩ := f
        cases hitem
        exact .inl ⟨_, records _ List.mem_cons_self, KvMap.replace_stored hreplace⟩
      · rcases start with ⟨value, hP, hstored⟩ | ⟨f', hf', hitem'⟩
        · refine .inl ⟨value, hP, KvMap.replace_stored_ne hreplace (fun he => hitem ?_) hstored⟩
          obtain ⟨rfl, rfl⟩ := Prod.mk.inj he
          rfl
        · rcases List.mem_cons.mp hf' with rfl | hf'
          · exact absurd hitem' hitem
          · exact .inr ⟨f', hf', hitem'⟩

/-- A field that was stored, or that is replaced, is stored afterwards, provided its
records agree on the value. -/
theorem applyFields_stored {kv kv' : KvMap} {fs : List Field} {t : Ty} {key : RID}
    {value : t.Val} (h : applyFields kv fs = some kv')
    (agree : ∀ f ∈ fs, f.item = ⟨t, key⟩ → f = ⟨key, ⟨t, value⟩⟩)
    (start : kv.Stored t key value ∨ ∃ f ∈ fs, f.item = ⟨t, key⟩) :
    kv'.Stored t key value := by
  obtain ⟨_, rfl, hstored⟩ := applyFields_stored_of (· = value) h
    (fun value' hmem => by cases agree _ hmem rfl; rfl) (start.imp_left fun hs => ⟨value, rfl, hs⟩)
  exact hstored

/-- The bytes a replaced field takes in the text file of a partition. -/
def Field.bytesIn (p : RID) (f : Field) : Nat :=
  match f.val with
  | ⟨.num _, _⟩ => 0
  | ⟨.text, value⟩ => if ridPartition f.rid = p then value.length + 1 else 0

/-- The text files have room for the texts of some fields. -/
def KvMap.Room (kv : KvMap) (fs : List Field) : Prop :=
  ∀ p, (kv.text p).curStoreOffset + (fs.map (Field.bytesIn p)).sum ≤ storeSize

/-- What replacing a field does to the counters: it takes no slot, only bytes. -/
theorem replace_counters {kv kv' : KvMap} {f : Field}
    (h : kv.replace f.val.1 f.rid f.val.2 = some kv') :
    (∀ t p, kv'.curRid t p = kv.curRid t p) ∧
      ∀ p, (kv'.text p).curStoreOffset = (kv.text p).curStoreOffset + f.bytesIn p := by
  obtain ⟨rid, t, value⟩ := f
  cases t with
  | num n =>
      obtain ⟨-, rfl⟩ := KvMap.replace_num_eq_some.mp h
      refine ⟨fun t p => ?_, fun p => rfl⟩
      cases t with
      | num m =>
          by_cases hp : (m, p) = (n, ridPartition rid)
          · obtain ⟨rfl, rfl⟩ := Prod.mk.inj hp
            simp [KvMap.curRid]
          · simp [KvMap.curRid, KvMap.setNum_num_of_ne hp]
      | text => rfl
  | text =>
      obtain ⟨-, s, hs, rfl⟩ := KvMap.replace_text_eq_some.mp h
      obtain ⟨-, rfl⟩ := FileMapTextStore.place_eq_some.mp hs
      refine ⟨fun t p => ?_, fun p => ?_⟩
      · cases t with
        | num m => rfl
        | text =>
            by_cases hp : p = ridPartition rid
            · simp [KvMap.curRid, hp]
            · simp [KvMap.curRid, KvMap.setText_text_of_ne hp]
      · by_cases hp : ridPartition rid = p
        · subst hp
          simp [Field.bytesIn]
        · simp [Field.bytesIn, hp, KvMap.setText_text_of_ne (Ne.symm hp)]

/-- What replacing fields does to the counters. -/
theorem applyFields_counters {kv kv' : KvMap} {fs : List Field}
    (h : applyFields kv fs = some kv') :
    (∀ t p, kv'.curRid t p = kv.curRid t p) ∧
      ∀ p, (kv'.text p).curStoreOffset =
        (kv.text p).curStoreOffset + (fs.map (Field.bytesIn p)).sum := by
  induction fs generalizing kv with
  | nil =>
      cases h
      exact ⟨fun _ _ => rfl, fun _ => rfl⟩
  | cons f fs ih =>
      obtain ⟨kv₁, hreplace, hrest⟩ := applyFields_cons_eq_some.mp h
      obtain ⟨hrid, hoff⟩ := replace_counters hreplace
      obtain ⟨hrid', hoff'⟩ := ih hrest
      refine ⟨fun t p => (hrid' t p).trans (hrid t p), fun p => ?_⟩
      rw [hoff', hoff, List.map_cons, List.sum_cons, Nat.add_assoc]

/-- A valid field can be replaced where its text has room. -/
theorem replace_room {kv : KvMap} {f : Field} (valid : KvMap.ValidRid f.val.1 f.rid)
    (room : ∀ p, (kv.text p).curStoreOffset + f.bytesIn p ≤ storeSize) :
    ∃ kv', kv.replace f.val.1 f.rid f.val.2 = some kv' := by
  obtain ⟨rid, t, value⟩ := f
  cases t with
  | num n => exact ⟨_, KvMap.replace_num_eq_some.mpr ⟨valid, rfl⟩⟩
  | text =>
      have hroom := room (ridPartition rid)
      simp only [Field.bytesIn, if_true] at hroom
      exact ⟨_, KvMap.replace_text_eq_some.mpr
        ⟨valid, _, FileMapTextStore.place_eq_some.mpr ⟨hroom, rfl⟩, rfl⟩⟩

/-- Valid fields can be replaced where their texts have room. -/
theorem applyFields_room {kv : KvMap} {fs : List Field}
    (valid : ∀ f ∈ fs, KvMap.ValidRid f.val.1 f.rid)
    (room : ∀ p, (kv.text p).curStoreOffset + (fs.map (Field.bytesIn p)).sum ≤ storeSize) :
    ∃ kv', applyFields kv fs = some kv' := by
  induction fs generalizing kv with
  | nil => exact ⟨kv, rfl⟩
  | cons f fs ih =>
      simp only [List.map_cons, List.sum_cons] at room
      have hroom (p : RID) : (kv.text p).curStoreOffset + f.bytesIn p ≤ storeSize := by
        have := room p
        omega
      obtain ⟨kv₁, hreplace⟩ := replace_room (valid f List.mem_cons_self) hroom
      have hroom₁ (p : RID) :
          (kv₁.text p).curStoreOffset + (fs.map (Field.bytesIn p)).sum ≤ storeSize := by
        have := room p
        rw [(replace_counters hreplace).2 p]
        omega
      obtain ⟨kv', happly⟩ := ih (fun f' hf' => valid f' (List.mem_cons_of_mem _ hf')) hroom₁
      exact ⟨kv', applyFields_cons_eq_some.mpr ⟨kv₁, hreplace, happly⟩⟩

/-- Fields that could be replaced have valid RIDs. -/
theorem applyFields_valid {kv kv' : KvMap} {fs : List Field} (h : applyFields kv fs = some kv') :
    ∀ f ∈ fs, KvMap.ValidRid f.val.1 f.rid := by
  induction fs generalizing kv with
  | nil =>
      intro f hf
      cases hf
  | cons f fs ih =>
      obtain ⟨kv₁, hreplace, hrest⟩ := applyFields_cons_eq_some.mp h
      intro f' hf'
      rcases List.mem_cons.mp hf' with rfl | hf'
      · exact (KvMap.replace_stored hreplace).valid
      · exact ih hrest f' hf'

/-! ## What a payload carries -/

/-- What recovery makes of a value: a text is cut to the buffer it is read into. -/
def cut : (t : Ty) → t.Val → t.Val
  | .num _, value => value
  | .text, value => CStr.ofBytes (value.bytes.take (stringLength - 1))

/-- A field with its value cut. -/
def Field.cut (f : Field) : Field := ⟨f.rid, ⟨f.val.1, Zeno.cut f.val.1 f.val.2⟩⟩

/-- The bytes of a record. -/
def Field.encode (f : Field) : List UInt8 :=
  let value := walValueBytes f.val.1 f.val.2
  f.val.1.walType :: (Bytes.le 2 value.length ++ Bytes.le 8 f.rid.toNat ++ value)

/-- The plaintext of a payload. -/
def encodeFields (fs : List Field) : List UInt8 :=
  payloadHeader fs.length ++ (fs.map Field.encode).flatten

theorem bytes_cut (value : CStr) :
    (cut .text value).bytes = value.bytes.take (stringLength - 1) :=
  CStr.ofBytes_of_nulFree fun hmem => value.nulFree (List.mem_of_mem_take hmem)

theorem length_cut (value : CStr) :
    (cut .text value).length = min (stringLength - 1) value.length := by
  rw [CStr.length, bytes_cut, List.length_take]
  rfl

theorem cut_of_short {value : CStr} (h : value.length < stringLength) :
    cut .text value = value := by
  apply CStr.ext
  rw [bytes_cut, List.take_of_length_le (Nat.le_sub_one_of_lt h)]

theorem cut_ne_of_long {value : CStr} (h : stringLength ≤ value.length) :
    cut .text value ≠ value := by
  intro heq
  have hlen := length_cut value
  rw [heq] at hlen
  simp only [stringLength] at h hlen
  omega

/-- A text is shorter than `STRING_LENGTH`. -/
def Short : Value → Prop
  | ⟨.num _, _⟩ => True
  | ⟨.text, value⟩ => value.length < stringLength

/-- The values that come back as they were are the short ones. -/
theorem cut_eq_self_iff {f : Field} : f.cut = f ↔ Short f.val := by
  obtain ⟨rid, t, value⟩ := f
  cases t with
  | num n => exact ⟨fun _ => trivial, fun _ => rfl⟩
  | text =>
      constructor
      · intro h
        by_contra hlong
        refine cut_ne_of_long (Nat.le_of_not_lt hlong) ?_
        simp only [Field.cut, Field.mk.injEq, true_and] at h
        exact eq_of_heq (Sigma.mk.inj h).2
      · intro h
        simp only [Field.cut, cut_of_short h]

theorem cut_of_shortValue {f : Field} (h : Short f.val) : f.cut = f := cut_eq_self_iff.mpr h

@[simp] theorem Field.item_cut (f : Field) : f.cut.item = f.item := rfl

theorem length_walValueBytes_le (t : Ty) (value : t.Val) :
    (walValueBytes t value).length ≤ stringLength := by
  cases t with
  | num n => cases n <;> simp [walValueBytes, Num.size, Num.width, stringLength]
  | text => simp [walValueBytes]

/-- The buffer a text is copied into holds its first `STRING_LENGTH - 1` bytes, and zeros. -/
theorem ofBytes_buffer {bytes : List UInt8} (h : bytes.length ≤ stringLength) :
    CStr.ofBytes ((bytes ++ List.replicate (stringLength - bytes.length) 0).set
      (stringLength - 1) 0) = CStr.ofBytes (bytes.take (stringLength - 1)) := by
  simp only [stringLength] at h ⊢
  by_cases hfull : bytes.length = 540
  · -- the last byte of the text is cleared
    have hset : bytes.set 539 0 = bytes.take 539 ++ [0] := by
      rw [List.set_eq_take_append_cons_drop, if_pos (by omega),
        List.drop_eq_nil_of_le (by omega)]
    rw [hfull, Nat.sub_self, List.replicate_zero, List.append_nil, hset]
    exact CStr.ofBytes_append_zeros (by simp)
  · -- a zero is cleared
    rw [List.set_append_right _ _ (by omega), List.set_replicate_self,
      List.take_of_length_le (by omega)]
    exact CStr.ofBytes_append_zeros fun b hb => List.eq_of_mem_replicate hb

/-- A logged value comes back cut. -/
theorem walValue_walValueBytes (t : Ty) (value : t.Val) :
    walValue t (walValueBytes t value) = some (cut t value) := by
  cases t with
  | num n =>
      have hlt : value.toNat < 256 ^ n.size := by
        have hpow : 2 ^ n.width = 256 ^ n.size := by
          rw [n.width_eq, Nat.pow_mul]
        exact hpow ▸ value.isLt
      simp [walValue, walValueBytes, Bytes.ofLe_le_of_lt hlt, cut]
  | text =>
      have hle := length_walValueBytes_le .text value
      have hpos : 0 < (walValueBytes .text value).length := by
        simp [walValueBytes, stringLength]
      simp only [walValue, hpos, hle, and_self, if_true, ofBytes_buffer hle, Option.some.injEq]
      have htake : (walValueBytes .text value).take (stringLength - 1) =
          value.bytes.take (stringLength - 1) ++
            [0].take (stringLength - 1 - value.bytes.length) := by
        rw [walValueBytes, CStr.terminated, List.take_take, List.take_append]
        rfl
      rw [htake]
      exact CStr.ofBytes_append_zeros fun b hb => List.mem_singleton.mp (List.mem_of_mem_take hb)

theorem readRecord_encode (f : Field) (rest : List UInt8) :
    readRecord (f.encode ++ rest) = some (f.cut, rest) := by
  have hle := length_walValueBytes_le f.val.1 f.val.2
  simp only [stringLength] at hle
  have hlen : Bytes.ofLe (Bytes.le 2 (walValueBytes f.val.1 f.val.2).length) =
      (walValueBytes f.val.1 f.val.2).length :=
    Bytes.ofLe_le_of_lt (by omega)
  have hkey : Bytes.ofLe (Bytes.le 8 f.rid.toNat) = f.rid.toNat :=
    Bytes.ofLe_le_of_lt f.rid.isLt
  have hsplit : f.encode ++ rest =
      [f.val.1.walType] ++ (Bytes.le 2 (walValueBytes f.val.1 f.val.2).length ++
        (Bytes.le 8 f.rid.toNat ++ (walValueBytes f.val.1 f.val.2 ++ rest))) := by
    simp [Field.encode]
  rw [hsplit]
  simp only [readRecord, Bytes.take?_append (List.length_singleton),
    Bytes.take?_append (Bytes.length_le _ _), Option.bind_eq_bind, Option.bind_some, hlen,
    Bytes.take?_append rfl, hkey, List.headD_cons, Ty.ofWalType_walType, BitVec.ofNat_toNat,
    BitVec.setWidth_eq, walValue_walValueBytes, Field.cut]

theorem readRecords_encode (fs : List Field) (rest : List UInt8) :
    readRecords fs.length ((fs.map Field.encode).flatten ++ rest) =
      some (fs.map Field.cut, rest) := by
  induction fs with
  | nil => rfl
  | cons f fs ih =>
      simp only [List.length_cons, List.map_cons, List.flatten_cons, List.append_assoc,
        readRecords, readRecord_encode, Option.bind_eq_bind, Option.bind_some, ih]

theorem readPlaintext_encodeFields {fs : List Field}
    (h : fs.length ≤ walMaterializeRidBatchSize) :
    readPlaintext (encodeFields fs) = some (fs.map Field.cut) := by
  simp only [walMaterializeRidBatchSize] at h
  have hmagic : Bytes.ofLe (Bytes.le 4 walPayloadMagic) = walPayloadMagic :=
    Bytes.ofLe_le_of_lt (by decide)
  have hversion : Bytes.ofLe (Bytes.le 2 walPayloadVersion) = walPayloadVersion :=
    Bytes.ofLe_le_of_lt (by decide)
  have hcount : Bytes.ofLe (Bytes.le 2 fs.length) = fs.length :=
    Bytes.ofLe_le_of_lt (by omega)
  have hrecords := readRecords_encode fs []
  rw [List.append_nil] at hrecords
  simp only [readPlaintext, encodeFields, payloadHeader, List.append_assoc,
    Bytes.take?_append (Bytes.length_le _ _), Option.bind_eq_bind, Option.bind_some, hmagic,
    hversion, and_self, if_true, hcount, hrecords]

theorem length_encodeFields_lt {fs : List Field} (h : fs.length ≤ walMaterializeRidBatchSize) :
    (encodeFields fs).length < 2 ^ 32 := by
  have hrecord (f : Field) : f.encode.length ≤ stringLength + 11 := by
    have := length_walValueBytes_le f.val.1 f.val.2
    simp only [Field.encode, List.length_cons, List.length_append, Bytes.length_le]
    omega
  have hsum : ((fs.map Field.encode).flatten).length ≤ fs.length * (stringLength + 11) := by
    induction fs with
    | nil => simp
    | cons f fs ih =>
        have := hrecord f
        have := ih (by simp only [List.length_cons] at h; omega)
        simp only [List.map_cons, List.flatten_cons, List.length_append, List.length_cons,
          Nat.succ_mul]
        omega
  simp only [walMaterializeRidBatchSize, stringLength] at h hsum
  simp only [encodeFields, payloadHeader, List.length_append, Bytes.length_le]
  omega

/-- A sealed payload carries its fields, cut. -/
theorem openPayload_seal (g : Gcm) (iv : Iv) {fs : List Field}
    (h : fs.length ≤ walMaterializeRidBatchSize) :
    openPayload g (gcmEncrypt g iv (encodeFields fs)).2 = some (fs.map Field.cut) := by
  have hlen := length_gcmEncrypt g iv (encodeFields fs)
  have hne : ¬ ivSize + tagSize + (encodeFields fs).length = 0 := by
    simp only [ivSize, tagSize]
    omega
  have hsz : ivSize + tagSize + (encodeFields fs).length - ivSize - tagSize =
      (encodeFields fs).length := by
    omega
  simp only [openPayload, hne, if_false, hlen, Nat.le_add_right, if_true,
    gcmDecrypt_gcmEncrypt g iv (length_encodeFields_lt h), Option.bind_eq_bind, Option.bind_some,
    hsz, readPlaintext_encodeFields h]

/-- Recovery replaces the fields of a sealed payload by their cut values. -/
theorem replayPayload_seal (g : Gcm) (iv : Iv) (kv : KvMap) {fs : List Field}
    (h : fs.length ≤ walMaterializeRidBatchSize) :
    replayPayload g kv (gcmEncrypt g iv (encodeFields fs)).2 =
      applyFields kv (fs.map Field.cut) := by
  rw [replayPayload_eq, openPayload_seal g iv h, Option.bind_some]

/-! ## Materializing fields -/

/-- A field of the files is materialized as its record. -/
theorem materializeRecord_eq {kv : KvMap} {f : Field}
    (h : kv.get f.val.1 f.rid = some f.val.2) :
    materializeRecord kv ⟨f.val.1, f.rid⟩ = some f.encode := by
  have hle := length_walValueBytes_le f.val.1 f.val.2
  simp only [stringLength] at hle
  have hmax : (walValueBytes f.val.1 f.val.2).length ≤ uint16Max := by
    simp only [uint16Max]
    omega
  simp [materializeRecord, h, appendRecordValue, hmax, Field.encode]

theorem mapM_materializeRecord {kv : KvMap} {fs : List Field}
    (h : ∀ f ∈ fs, kv.get f.val.1 f.rid = some f.val.2) :
    (fs.map Field.item).mapM (materializeRecord kv) = some (fs.map Field.encode) := by
  induction fs with
  | nil => rfl
  | cons f fs ih =>
      have hf : materializeRecord kv f.item = some f.encode :=
        materializeRecord_eq (h f List.mem_cons_self)
      rw [List.map_cons, List.mapM_cons, hf, ih fun f' hf' => h f' (List.mem_cons_of_mem _ hf')]
      rfl

/-- A batch of fields of the files is sealed as their records. -/
theorem materializeBatch_eq (g : Gcm) (iv : Iv) {kv : KvMap} (fs : List Field) (capacity : Nat)
    (hne : fs ≠ []) (hle : fs.length ≤ walMaterializeRidBatchSize)
    (h : ∀ f ∈ fs, kv.get f.val.1 f.rid = some f.val.2) :
    materializeBatch g iv kv (fs.map Field.item) capacity =
      sealPayload g iv (encodeFields fs) capacity := by
  have hmax : fs.length ≤ uint16Max := hle.trans (by decide)
  simp only [materializeBatch, List.map_eq_nil_iff, hne, if_false, List.length_map, hle, if_true,
    materializePayload, hmax, mapM_materializeRecord h, Option.map_some, Option.bind_eq_bind,
    Option.bind_some, encodeFields]

end Zeno
