import Zeno.Kv.Local
import Zeno.Wal.Format

/-!
# Batches that can be logged

Two conditions that the logging path needs and does not get from its callers.

A batch is sealed into what is left of a region after the request, and the
number of items in a batch was chosen without regard to their size.  A legal
batch passes the checks on both sides exactly if its records fit
(`legal_batch_fits_iff`): 3000 texts of 540 bytes do not.

The payload is made from the mapped files alone, whereas a query reads a RID
from the local store of its worker or from the files.  A field that a query can
read is logged with its value exactly if its RID is a global one and the value
survives the cut (`logged_as_read_iff`).
-/

namespace Zeno

/-! ## Capacities -/

/-- The capacity of `CMD_WAL_MATERIALIZE_BATCH`: a region without the fixed part of
`WalMaterializeBatchRequestData`. -/
def materializeCapacity : Nat := reqRegionSize - (24 + walMaterializeRidBatchSize * 16)

/-- The capacity of `CMD_WAL_REPLAY_PAYLOAD`: a region without the fixed part of
`WalReplayPayloadRequestData`. -/
def replayCapacity : Nat := reqRegionSize - 24

/-- `ZenoReplayPayloadCapacity`. -/
def zenoReplayPayloadCapacity : Nat := reqRegionSize - 24

/-- The checks a payload meets on its way: the size check of `ZenoWalMaterializeBatch`, those
of `ZenoWalReplayPayload` and `CMD_WAL_REPLAY_PAYLOAD`, and the minimum of `replayPayload`. -/
structure PassesChecks (payload : List UInt8) : Prop where
  nonempty : payload.length ≠ 0
  materialized : payload.length ≤ zenoPayloadCapacity
  sent : payload.length ≤ zenoReplayPayloadCapacity
  received : payload.length ≤ replayCapacity
  minimum : ivSize + tagSize ≤ payload.length

theorem passesChecks_of_length {payload : List UInt8} (hmin : ivSize + tagSize ≤ payload.length)
    (hmax : payload.length ≤ materializeCapacity) : PassesChecks payload := by
  refine ⟨?_, hmax, hmax.trans (by decide), hmax.trans (by decide), hmin⟩
  simp only [ivSize, tagSize] at hmin
  omega

/-- The bytes of the value of an item in its record. -/
def WalRidItem.valueSize (kv : KvMap) (item : WalRidItem) : Nat :=
  match item.ty with
  | .num n => n.size
  | .text => (kv.get .text item.rid).elim 0 fun value => value.length + 1

/-- The bytes of a payload: the initialization vector and the tag, the header, and for each
item its type, length, RID and value. -/
def payloadSize (kv : KvMap) (items : List WalRidItem) : Nat :=
  ivSize + tagSize + 8 + (items.map fun item => 11 + item.valueSize kv).sum

theorem valueSize_text {kv : KvMap} {rid : RID} {value : CStr}
    (h : kv.get .text rid = some value) :
    WalRidItem.valueSize kv ⟨.text, rid⟩ = value.length + 1 := by
  simp [WalRidItem.valueSize, h]

/-- The bytes of a payload in which some items are repeated. -/
theorem payloadSize_repeated (kv : KvMap) (n : Nat) (items : List WalRidItem) :
    payloadSize kv (List.replicate n items).flatten =
      36 + n * (items.map fun item => 11 + item.valueSize kv).sum := by
  simp only [payloadSize, List.map_flatten, List.sum_flatten, List.map_replicate,
    List.sum_replicate_nat, ivSize, tagSize]

theorem payloadSize_replicate (kv : KvMap) (n : Nat) (item : WalRidItem) :
    payloadSize kv (List.replicate n item) = 36 + n * (11 + item.valueSize kv) := by
  simpa using payloadSize_repeated kv n [item]

theorem length_walValueBytes {kv : KvMap} {f : Field} (h : kv.get f.val.1 f.rid = some f.val.2)
    (hcut : f.cut = f) :
    (walValueBytes f.val.1 f.val.2).length = f.item.valueSize kv := by
  obtain ⟨rid, t, value⟩ := f
  cases t with
  | num n => exact Bytes.length_le _ _
  | text =>
      have hshort : value.length < stringLength := cut_eq_self_iff.mp hcut
      have hlen : value.terminated.length ≤ stringLength := by
        rw [CStr.length_terminated]
        exact hshort
      rw [walValueBytes, List.take_of_length_le hlen, CStr.length_terminated]
      exact (valueSize_text h).symm

/-- The length of the plaintext of some fields. -/
theorem length_encodeFields {kv : KvMap} {fs : List Field}
    (h : ∀ f ∈ fs, kv.get f.val.1 f.rid = some f.val.2) (hcut : fs.map Field.cut = fs) :
    ivSize + tagSize + (encodeFields fs).length = payloadSize kv (fs.map Field.item) := by
  have hrecords : ((fs.map Field.encode).flatten).length =
      ((fs.map Field.item).map fun item => 11 + item.valueSize kv).sum := by
    induction fs with
    | nil => rfl
    | cons f fs ih =>
        obtain ⟨hf, hfs⟩ := List.cons.inj hcut
        have hvalue := length_walValueBytes (h f List.mem_cons_self) hf
        have hrest := ih (fun f' hf' => h f' (List.mem_cons_of_mem _ hf')) hfs
        simp only [List.map_cons, List.flatten_cons, List.length_append, List.sum_cons, hrest,
          Field.encode, List.length_cons, Bytes.length_le, hvalue]
        omega
  simp only [payloadSize, encodeFields, payloadHeader, List.length_append, Bytes.length_le,
    hrecords]
  omega

/-- What `materializeBatch` makes of a legal batch. -/
theorem materializeBatch_legal (g : Gcm) (iv : Iv) {kv : KvMap} {items : List WalRidItem}
    (capacity : Nat) (hne : items ≠ []) (hle : items.length ≤ walMaterializeRidBatchSize)
    (legal : ∀ item ∈ items, item.Legal kv) :
    ∃ fs, ivSize + tagSize + (encodeFields fs).length = payloadSize kv items ∧
      materializeBatch g iv kv items capacity =
        if payloadSize kv items ≤ capacity then some (gcmEncrypt g iv (encodeFields fs))
        else none := by
  obtain ⟨fs, -, rfl, hgets, hcuts⟩ := exists_fields legal
  have hlen := length_encodeFields hgets hcuts
  have hfs : fs ≠ [] := by
    rintro rfl
    exact hne rfl
  refine ⟨fs, hlen, ?_⟩
  rw [List.length_map] at hle
  rw [materializeBatch_eq g iv fs capacity hfs hle hgets, sealPayload, ← hlen]
  have harrange : (encodeFields fs).length + ivSize + tagSize =
      ivSize + tagSize + (encodeFields fs).length := by omega
  rw [harrange]

/-- A legal batch is materialized, and its payload passes every check on its way, exactly if
its records fit what is left of a region. -/
theorem legal_batch_fits_iff (g : Gcm) (iv : Iv) {kv : KvMap} {items : List WalRidItem}
    (hne : items ≠ []) (hle : items.length ≤ walMaterializeRidBatchSize)
    (legal : ∀ item ∈ items, item.Legal kv) :
    (∃ iv' payload, materializeBatch g iv kv items materializeCapacity = some (iv', payload) ∧
        PassesChecks payload) ↔
      payloadSize kv items ≤ 1000552 := by
  have hcapacity : materializeCapacity = 1000552 := rfl
  obtain ⟨fs, hsize, hbatch⟩ := materializeBatch_legal g iv materializeCapacity hne hle legal
  rw [hbatch, hcapacity]
  constructor
  · rintro ⟨iv', payload, h, -⟩
    by_contra hbig
    rw [if_neg hbig] at h
    cases h
  · intro hfits
    have hlen := length_gcmEncrypt g iv (encodeFields fs)
    rw [hsize] at hlen
    have hmin : ivSize + tagSize ≤ payloadSize kv items := by
      simp only [payloadSize]
      omega
    refine ⟨_, (gcmEncrypt g iv (encodeFields fs)).2, if_pos hfits, ?_⟩
    refine passesChecks_of_length ?_ ?_
    · rw [hlen]
      exact hmin
    · rw [hlen]
      exact hfits

/-- A full batch of fields of every type. -/
def fullBatch : List WalRidItem := (List.replicate 600 sampleItems).flatten

theorem length_fullBatch : fullBatch.length = walMaterializeRidBatchSize := by
  rw [fullBatch, List.length_flatten, List.map_replicate, List.sum_replicate_nat]
  rfl

theorem legal_fullBatch : ∀ item ∈ fullBatch, item.Legal (.sample letterA) := by
  intro item hitem
  obtain ⟨items, hitems, hmem⟩ := List.mem_flatten.mp hitem
  rw [List.eq_of_mem_replicate hitems] at hmem
  exact legal_sampleItems (by decide) item hmem

theorem payloadSize_fullBatch : payloadSize (.sample letterA) fullBatch = 45036 := by
  have hget := @get_sample letterA (by decide)
  simp only [sampleItems, List.forall_mem_cons] at hget
  obtain ⟨-, htext, -, htext', -⟩ := hget
  rw [fullBatch, payloadSize_repeated]
  simp only [sampleItems, List.map_cons, List.map_nil, List.sum_cons, List.sum_nil,
    valueSize_text htext, valueSize_text htext']
  rfl

theorem legal_batch_fits_iff_fullBatch :
    fullBatch.length = walMaterializeRidBatchSize ∧
      ∃ iv' payload,
        materializeBatch .plain .zero (.sample letterA) fullBatch materializeCapacity =
          some (iv', payload) ∧ PassesChecks payload := by
  have hne : fullBatch ≠ [] := by
    intro h
    cases (congrArg List.length h).symm.trans length_fullBatch
  have hfits : payloadSize (.sample letterA) fullBatch ≤ 1000552 := by
    rw [payloadSize_fullBatch]
    decide
  exact ⟨length_fullBatch, (legal_batch_fits_iff .plain .zero hne
    (Nat.le_of_eq length_fullBatch) legal_fullBatch).mpr hfits⟩

/-- A text of `n` letters. -/
def lettersA (n : Nat) : CStr := .replicate n 97

theorem length_lettersA (n : Nat) : (lettersA n).length = n :=
  CStr.length_replicate (by decide) n

/-- A legal batch of 3000 texts of 539 bytes is refused. -/
theorem longest_texts_do_not_fit :
    (∀ item ∈ List.replicate 3000 fieldA.item, item.Legal (.oneText (lettersA 539))) ∧
      materializeBatch .plain .zero (.oneText (lettersA 539)) (List.replicate 3000 fieldA.item)
        materializeCapacity = none := by
  have hget : (KvMap.oneText (lettersA 539)).get .text 0 = some (lettersA 539) := by
    refine (KvMap.stored_oneText ?_).get
    rw [length_lettersA]
    decide
  have hlegal : ∀ item ∈ List.replicate 3000 fieldA.item,
      item.Legal (.oneText (lettersA 539)) := by
    intro item hitem
    rw [List.eq_of_mem_replicate hitem]
    refine ⟨by decide, fun _ => ⟨lettersA 539, hget, ?_⟩⟩
    rw [length_lettersA]
    decide
  have hsize : payloadSize (.oneText (lettersA 539)) (List.replicate 3000 fieldA.item) =
      1653036 := by
    have hvalue : fieldA.item.valueSize (.oneText (lettersA 539)) = 540 := by
      refine (valueSize_text hget).trans ?_
      rw [length_lettersA]
    rw [payloadSize_replicate, hvalue]
  have hne : List.replicate 3000 fieldA.item ≠ [] :=
    List.ne_nil_of_length_pos (by rw [List.length_replicate]; decide)
  have hle : (List.replicate 3000 fieldA.item).length ≤ walMaterializeRidBatchSize := by
    rw [List.length_replicate]
    decide
  obtain ⟨fs, -, hbatch⟩ :=
    materializeBatch_legal .plain .zero materializeCapacity hne hle hlegal
  refine ⟨hlegal, ?_⟩
  rw [hbatch, hsize, if_neg (by decide)]

/-! ## The two read paths -/

/-- `materialize_payload` completes for an item, and the record decodes to a value. -/
def LoggedAs (kv : KvMap) (item : WalRidItem) (value : item.ty.Val) : Prop :=
  ∃ bytes, materializePayload kv [item] = some bytes ∧
    readPlaintext bytes = some [⟨item.rid, ⟨item.ty, value⟩⟩]

theorem one_le_batchSize (f : Field) : [f].length ≤ walMaterializeRidBatchSize := by
  rw [List.length_singleton]
  decide

/-- The payload of one field. -/
theorem materializePayload_field {kv : KvMap} {f : Field}
    (h : kv.get f.val.1 f.rid = some f.val.2) :
    materializePayload kv [f.item] = some (encodeFields [f]) := by
  refine materializePayload_eq (one_le_batchSize f) fun f' hf' => ?_
  rw [List.mem_singleton.mp hf']
  exact h

theorem materializePayload_one {kv : KvMap} {item : WalRidItem} {bytes : List UInt8}
    (h : materializePayload kv [item] = some bytes) :
    ∃ value, kv.get item.ty item.rid = some value ∧
      bytes = encodeFields [⟨item.rid, ⟨item.ty, value⟩⟩] := by
  cases hget : kv.get item.ty item.rid with
  | none => simp [materializePayload, materializeRecord, hget, uint16Max] at h
  | some value =>
      have hfield := @materializePayload_field kv ⟨item.rid, ⟨item.ty, value⟩⟩ hget
      exact ⟨value, rfl, Option.some.inj (h.symm.trans hfield)⟩

/-- A field that a query of a worker reads is logged with the value it reads exactly if its
RID is global and, for a text, the value is shorter than `STRING_LENGTH`. -/
theorem logged_as_read_iff {st : Stores} {t : Ty} {rid : RID} {value : t.Val}
    (h : st.get t rid = some value) :
    LoggedAs st.kv ⟨t, rid⟩ value ↔ islocal rid = false ∧ Short ⟨t, value⟩ := by
  constructor
  · rintro ⟨bytes, hbytes, hread⟩
    obtain ⟨value', hget, rfl⟩ := materializePayload_one hbytes
    have hglobal : islocal rid = false := by
      by_contra hlocal
      have hpart : ridPartition rid = ridLocalPartition := by
        simpa [islocal] using hlocal
      have hvalid : ¬ KvMap.ValidRid t rid := fun valid => valid.1 hpart
      cases (KvMap.get_eq_none hvalid).symm.trans hget
    rw [Stores.get_global hglobal] at h
    obtain rfl : value' = value := Option.some.inj (hget.symm.trans h)
    rw [readPlaintext_encodeFields (one_le_batchSize _)] at hread
    exact ⟨hglobal, cut_eq_self_iff.mp (List.singleton_inj.mp (Option.some.inj hread))⟩
  · rintro ⟨hglobal, hshort⟩
    rw [Stores.get_global hglobal] at h
    have hcut : Field.cut ⟨rid, ⟨t, value⟩⟩ = ⟨rid, ⟨t, value⟩⟩ := cut_of_shortValue hshort
    refine ⟨_, @materializePayload_field st.kv ⟨rid, ⟨t, value⟩⟩ h, ?_⟩
    rw [readPlaintext_encodeFields (one_le_batchSize _), List.map_singleton, hcut]

theorem logged_as_read_iff_fieldA :
    (Stores.mk .empty (.oneText letterA)).get .text 0 = some letterA ∧
      LoggedAs (.oneText letterA) fieldA.item letterA := by
  have hget : (Stores.mk .empty (.oneText letterA)).get .text 0 = some letterA :=
    (Stores.get_global (by decide)).trans stored_fieldA.get
  have hshort : letterA.length < stringLength := by decide
  exact ⟨hget, (logged_as_read_iff hget).mpr ⟨by decide, hshort⟩⟩

/-- The RID that `CMD_INT_PUT_ENC` returns for 7 reads 7, and `materialize_payload` fails on
it. -/
theorem local_rid_is_not_logged :
    ∃ rid st', (Stores.mk .empty .fresh).put .int invalidRid 7 true Partition.default.val =
        some (rid, st') ∧
      st'.get .int rid = some 7 ∧ materializePayload st'.kv [⟨.int, rid⟩] = none := by
  have hroom : (Stores.mk .empty .fresh).slots .int < maxLocalSlots := Nat.two_pow_pos 47
  obtain ⟨rid, st', hput⟩ :=
    Stores.put_local_room _ .int invalidRid (7 : Num.int.Val) Partition.default.val hroom
  obtain ⟨hlocal, -, hdenotes⟩ := Stores.put_local_denotes hput
  refine ⟨rid, st', hput, hdenotes.get, ?_⟩
  have hpart : ridPartition rid = ridLocalPartition := by
    simpa [islocal] using hlocal
  have hnone : st'.kv.get .int rid = none := KvMap.get_eq_none fun valid => valid.1 hpart
  rw [Option.eq_none_iff_forall_ne_some]
  intro bytes hbytes
  obtain ⟨value, hget, -⟩ := materializePayload_one hbytes
  cases hnone.symm.trans hget

end Zeno
