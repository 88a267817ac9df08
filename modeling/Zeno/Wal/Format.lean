import Mathlib.Algebra.Order.BigOperators.Group.List
import Zeno.Lib.Scan
import Zeno.Wal.Payload

/-!
# The format of a payload

`replay_payload` walks the decrypted bytes with a cursor.  `replayPayloadAt` is
that walk over a memory, with a record of every read, and `IsPayload` says what
a well-formed payload is, without reference to the reader: a header with a
count, as many records, and nothing after them.

The walk never reads past the end it was given (`within_replayPayloadAt`), it gives
what `replayPlaintext` gives on the bytes (`result_replayPayloadAt`), and a string
reads as fields exactly if it is well formed (`readPlaintext_eq_some`).  From these
come what `replay_payload` accepts, and the round trip of `materialize_payload`.
-/

namespace Zeno

/-! ## The walk -/

/-- The check of `replay_payload` on the length of a value. -/
def walLenOk : Ty → Nat → Prop
  | .num n, len => len = n.size
  | .text, len => 0 < len ∧ len ≤ stringLength

instance : (t : Ty) → (len : Nat) → Decidable (walLenOk t len)
  | .num n, len => inferInstanceAs (Decidable (len = n.size))
  | .text, len => inferInstanceAs (Decidable (0 < len ∧ len ≤ stringLength))

/-- The number of bytes `replay_payload` copies for a value: the size of a number, the
length in the record of a text. -/
def walCopied : Ty → Nat → Nat
  | .num n, _ => n.size
  | .text, len => len

/-- One turn of the loop of `replay_payload`, from a cursor. -/
def replayRecordAt (mem : Mem) (stop : Nat) (kv : KvMap) (ptr : Nat) : Scan (KvMap × Nat) := do
  let (type, ptr) ← Scan.take mem stop 1 ptr
  let (len, ptr) ← Scan.take mem stop 2 ptr
  let (key, ptr) ← Scan.take mem stop 8 ptr
  Scan.check (ptr + Bytes.ofLe len ≤ stop)
  let t ← Scan.ofOption (Ty.ofWalType (type.headD 0))
  Scan.check (walLenOk t (Bytes.ofLe len))
  -- this copy is not checked against the end again
  let bytes ← Scan.load mem ptr (walCopied t (Bytes.ofLe len))
  let value ← Scan.ofOption (walValue t bytes)
  let kv ← Scan.ofOption (kv.replace t (BitVec.ofNat 64 (Bytes.ofLe key)) value)
  pure (kv, ptr + Bytes.ofLe len)

/-- The loop of `replay_payload`, from a cursor. -/
def replayRecordsAt (mem : Mem) (stop : Nat) : Nat → KvMap → Nat → Scan (KvMap × Nat)
  | 0, kv, ptr => pure (kv, ptr)
  | n + 1, kv, ptr => do
      let (kv, ptr) ← replayRecordAt mem stop kv ptr
      replayRecordsAt mem stop n kv ptr

/-- `replay_payload` on the `size` bytes at address zero of a memory. -/
def replayPayloadAt (kv : KvMap) (mem : Mem) (size : Nat) : Scan KvMap := do
  let (header, ptr) ← Scan.take mem size 8 0
  Scan.check (Bytes.ofLe (header.take 4) = walPayloadMagic ∧
    Bytes.ofLe ((header.drop 4).take 2) = walPayloadVersion)
  let (kv, ptr) ← replayRecordsAt mem size (Bytes.ofLe (header.drop 6)) kv ptr
  Scan.check (ptr = size)
  pure kv

/-! ## The walk stays inside -/

theorem walCopied_eq {t : Ty} {len : Nat} (h : walLenOk t len) : walCopied t len = len := by
  cases t with
  | num n => exact h.symm
  | text => rfl

theorem within_replayRecordAt (mem : Mem) (stop : Nat) (kv : KvMap) (ptr : Nat) :
    (replayRecordAt mem stop kv ptr).Within stop := by
  refine Scan.Within.take.bind fun (type, ptr₁) _ => ?_
  refine Scan.Within.take.bind fun (len, ptr₂) _ => ?_
  refine Scan.Within.take.bind fun (key, ptr₃) _ => ?_
  refine (Scan.Within.check _).bind fun _ hend => ?_
  refine (Scan.Within.ofOption _).bind fun t _ => ?_
  refine (Scan.Within.check _).bind fun _ hlen => ?_
  simp only [Scan.result_check, ite_eq_left_iff, reduceCtorEq, imp_false, not_not] at hend hlen
  -- the length check makes the copied bytes those of the record
  have hcopy : ptr₃ + walCopied t (Bytes.ofLe len) ≤ stop := by
    rw [walCopied_eq hlen]
    exact hend
  refine (Scan.Within.load hcopy).bind fun bytes _ => ?_
  refine (Scan.Within.ofOption _).bind fun value _ => ?_
  exact (Scan.Within.ofOption _).bind fun kv _ => Scan.Within.pure _

theorem within_replayRecordsAt (mem : Mem) (stop n : Nat) (kv : KvMap) (ptr : Nat) :
    (replayRecordsAt mem stop n kv ptr).Within stop := by
  induction n generalizing kv ptr with
  | zero => exact Scan.Within.pure _
  | succ n ih =>
      exact (within_replayRecordAt mem stop kv ptr).bind fun (kv, ptr) _ => ih kv ptr

/-- The walk reads no byte past the end. -/
theorem within_replayPayloadAt (kv : KvMap) (mem : Mem) (size : Nat) :
    (replayPayloadAt kv mem size).Within size := by
  refine Scan.Within.take.bind fun (header, ptr) _ => ?_
  refine (Scan.Within.check _).bind fun _ _ => ?_
  refine (within_replayRecordsAt _ _ _ _ _).bind fun (kv, ptr) _ => ?_
  exact (Scan.Within.check _).bind fun _ _ => Scan.Within.pure _

/-! ## What the walk gives -/

theorem walValue_isSome {t : Ty} {bytes : List UInt8} :
    (walValue t bytes).isSome ↔ walLenOk t bytes.length := by
  cases t with
  | num n =>
      simp only [walValue, walLenOk]
      split <;> simp [*]
  | text =>
      simp only [walValue, walLenOk]
      split <;> simp [*]

/-- A read of the walk is a read off the bytes that are left. -/
theorem bind_take (mem : Mem) {stop n ptr : Nat} {α β : Type} (h : ptr ≤ stop) (post : α → β)
    (f : List UInt8 × Nat → Scan α) (g : List UInt8 × List UInt8 → Option β)
    (next : ∀ bytes, bytes.length = n → ptr + n ≤ stop →
      (f (bytes, ptr + n)).result.map post =
        g (bytes, mem.read (ptr + n) (stop - (ptr + n)))) :
    (Scan.take mem stop n ptr >>= f).result.map post =
      (Bytes.take? n (mem.read ptr (stop - ptr))).bind g := by
  rw [Scan.result_take mem h, Scan.result_bind]
  cases htake : (Scan.take mem stop n ptr).result with
  | none => rfl
  | some out =>
      obtain ⟨bytes, ptr'⟩ := out
      obtain ⟨hle, rfl, rfl⟩ := Scan.take_eq_some.mp htake
      exact next _ (mem.length_read ptr n) hle

theorem result_replayRecordAt (mem : Mem) {stop ptr : Nat} (kv : KvMap) (h : ptr ≤ stop) :
    (replayRecordAt mem stop kv ptr).result.map
        (fun (kv, ptr) => (kv, mem.read ptr (stop - ptr))) =
      replayRecord kv (mem.read ptr (stop - ptr)) := by
  refine bind_take mem h _ _ _ fun type _ h => ?_
  refine bind_take mem h _ _ _ fun len _ h => ?_
  refine bind_take mem h _ _ _ fun key _ h => ?_
  generalize ptr + 1 + 2 + 8 = ptr at h ⊢
  generalize Bytes.ofLe len = n
  by_cases hend : ptr + n ≤ stop
  · have hsplit : mem.read ptr (stop - ptr) =
        mem.read ptr n ++ mem.read (ptr + n) (stop - (ptr + n)) := by
      rw [← mem.read_add]
      congr 1
      omega
    simp only [hend, hsplit, Scan.result_bind, Scan.result_check, Scan.result_ofOption,
      Scan.result_load, Scan.result_pure, if_true, Option.bind_some, Option.bind_eq_bind,
      Bytes.take?_append (mem.length_read ptr n)]
    cases Ty.ofWalType (type.headD 0) with
    | none => rfl
    | some t =>
        by_cases hlen : walLenOk t n
        · simp only [Option.bind_some, hlen, if_true, walCopied_eq hlen]
          cases walValue t (mem.read ptr n) with
          | none => rfl
          | some value =>
              simp only [Option.bind_some]
              cases kv.replace t (BitVec.ofNat 64 (Bytes.ofLe key)) value with
              | none => rfl
              | some kv => rfl
        · -- a value of a wrong length is refused by the one check or by the other
          have hnone : walValue t (mem.read ptr n) = none := by
            rw [← Option.not_isSome_iff_eq_none, walValue_isSome, mem.length_read]
            exact hlen
          simp [hlen, hnone]
  · have hnone : Bytes.take? n (mem.read ptr (stop - ptr)) = none := by
      have hshort : ¬ n ≤ stop - ptr := by omega
      simp [Bytes.take?, hshort]
    simp [hend, hnone]

/-- The cursor never passes the end. -/
theorem cursor_replayRecordAt {mem : Mem} {stop ptr ptr' : Nat} {kv kv' : KvMap}
    (h : (replayRecordAt mem stop kv ptr).result = some (kv', ptr')) : ptr' ≤ stop := by
  simp only [replayRecordAt, Scan.result_bind, Option.bind_eq_some_iff, Scan.result_check,
    Scan.result_pure, Option.some.injEq, Prod.mk.injEq, Prod.exists] at h
  obtain ⟨_, _, -, _, _, -, _, ptr₃, -, _, hend, _, -, _, -, _, -, _, -, _, -, -, rfl⟩ := h
  by_contra hnot
  simp [hnot] at hend

theorem result_replayRecordsAt (mem : Mem) {stop ptr : Nat} (n : Nat) (kv : KvMap)
    (h : ptr ≤ stop) :
    (replayRecordsAt mem stop n kv ptr).result.map
        (fun (kv, ptr) => (kv, mem.read ptr (stop - ptr))) =
      replayRecords n kv (mem.read ptr (stop - ptr)) := by
  induction n generalizing kv ptr with
  | zero => rfl
  | succ n ih =>
      simp only [replayRecordsAt, replayRecords, Scan.result_bind,
        ← result_replayRecordAt mem kv h]
      cases hrecord : (replayRecordAt mem stop kv ptr).result with
      | none => rfl
      | some out => exact ih out.1 (cursor_replayRecordAt hrecord)

theorem cursor_replayRecordsAt {mem : Mem} {stop ptr ptr' : Nat} (n : Nat) {kv kv' : KvMap}
    (hptr : ptr ≤ stop) (h : (replayRecordsAt mem stop n kv ptr).result = some (kv', ptr')) :
    ptr' ≤ stop := by
  induction n generalizing kv ptr with
  | zero =>
      cases h
      exact hptr
  | succ n ih =>
      simp only [replayRecordsAt, Scan.result_bind, Option.bind_eq_some_iff] at h
      obtain ⟨out, hrecord, hrest⟩ := h
      exact ih (cursor_replayRecordAt hrecord) hrest

/-- A string that is read has a header. -/
theorem length_of_readPlaintext {data : List UInt8} {fs : List Field}
    (h : readPlaintext data = some fs) : 8 ≤ data.length := by
  simp only [readPlaintext, Option.bind_eq_bind, Option.bind_eq_some_iff, Prod.exists,
    Bytes.take?_eq_some] at h
  obtain ⟨magic, _, ⟨hmagic, rfl⟩, version, _, ⟨hversion, rfl⟩, nitems, _, ⟨hnitems, rfl⟩, -⟩ := h
  simp only [List.length_append]
  omega

/-- The walk gives what the bytes give. -/
theorem result_replayPayloadAt (kv : KvMap) (mem : Mem) (size : Nat) :
    (replayPayloadAt kv mem size).result = replayPlaintext kv (mem.read 0 size) := by
  by_cases hsize : 8 ≤ size
  · have hsplit : mem.read 0 size =
        mem.read 0 4 ++ (mem.read 4 2 ++ (mem.read 6 2 ++ mem.read 8 (size - 8))) := by
      rw [← mem.read_add, ← mem.read_add, ← mem.read_add]
      congr 1
      omega
    have hheader : mem.read 0 8 = mem.read 0 4 ++ (mem.read 4 2 ++ mem.read 6 2) := by
      rw [← mem.read_add, ← mem.read_add]
    have htake : (Scan.take mem size 8 0).result = some (mem.read 0 8, 8) :=
      Scan.take_eq_some.mpr ⟨by omega, rfl, rfl⟩
    have hmagic : (mem.read 0 8).take 4 = mem.read 0 4 := by
      rw [hheader, List.take_left' (mem.length_read 0 4)]
    have hrest : (mem.read 0 8).drop 4 = mem.read 4 2 ++ mem.read 6 2 := by
      rw [hheader, List.drop_left' (mem.length_read 0 4)]
    have hversion : ((mem.read 0 8).drop 4).take 2 = mem.read 4 2 := by
      rw [hrest, List.take_left' (mem.length_read 4 2)]
    have hnitems : (mem.read 0 8).drop 6 = mem.read 6 2 := by
      rw [show 6 = 4 + 2 from rfl, ← List.drop_drop, hrest,
        List.drop_left' (mem.length_read 4 2)]
    simp only [replayPayloadAt, Scan.result_bind, htake, Option.bind_some, Scan.result_check,
      hmagic, hversion, hnitems, replayPlaintext, hsplit, Bytes.take?_append (mem.length_read _ _),
      Option.bind_eq_bind, Scan.result_pure, ← result_replayRecordsAt mem _ kv hsize]
    by_cases hok : Bytes.ofLe (mem.read 0 4) = walPayloadMagic ∧
        Bytes.ofLe (mem.read 4 2) = walPayloadVersion
    · simp only [hok, and_self, if_true, Option.bind_some]
      cases hrecords :
          (replayRecordsAt mem size (Bytes.ofLe (mem.read 6 2)) kv 8).result with
      | none => rfl
      | some out =>
          obtain ⟨kv', ptr⟩ := out
          have hptr := cursor_replayRecordsAt _ hsize hrecords
          have hend : mem.read ptr (size - ptr) = [] ↔ ptr = size := by
            rw [← List.length_eq_zero_iff, mem.length_read]
            omega
          simp only [Option.map_some, Option.bind_some, hend]
          split <;> rfl
    · simp [hok]
  · have hnone : readPlaintext (mem.read 0 size) = none := by
      rw [Option.eq_none_iff_forall_ne_some]
      intro fs hread
      have := length_of_readPlaintext hread
      rw [mem.length_read] at this
      exact hsize this
    have htake : (Scan.take mem size 8 0).result = none := by
      simp [Scan.take, hsize]
    rw [replayPlaintext_eq, hnone, replayPayloadAt, Scan.result_bind, htake]
    rfl

/-! ## Well-formed payloads -/

/-- A record of a payload. -/
structure Record where
  /-- The type. -/
  ty : Ty
  /-- The RID. -/
  rid : RID
  /-- The bytes of the value. -/
  value : List UInt8

namespace Record

/-- The bytes of a record. -/
def encode (r : Record) : List UInt8 :=
  r.ty.walType :: (Bytes.le 2 r.value.length ++ Bytes.le 8 r.rid.toNat ++ r.value)

/-- The length of the value is right for the type, and the RID names a slot of a file. -/
structure WellFormed (r : Record) : Prop where
  /-- Four, four or eight bytes, or 1 to `STRING_LENGTH` of a text. -/
  length : walLenOk r.ty r.value.length
  /-- A global RID, in range. -/
  rid : KvMap.ValidRid r.ty r.rid

/-- The value of a record.  A text ends at its first NUL, and after `STRING_LENGTH - 1`
bytes at the latest. -/
def decoded : (t : Ty) → List UInt8 → t.Val
  | .num n, bytes => BitVec.ofNat n.width (Bytes.ofLe bytes)
  | .text, bytes => CStr.ofBytes (bytes.take (stringLength - 1))

/-- The field a record writes. -/
def field (r : Record) : Field := ⟨r.rid, ⟨r.ty, decoded r.ty r.value⟩⟩

end Record

/-- A byte string is a header with a count, as many well-formed records, and nothing else. -/
structure IsPayload (data : List UInt8) (rs : List Record) : Prop where
  /-- The count fits its two bytes. -/
  count : rs.length ≤ uint16Max
  /-- The bytes. -/
  bytes : data = payloadHeader rs.length ++ (rs.map Record.encode).flatten
  /-- The records. -/
  records : ∀ r ∈ rs, r.WellFormed

/-! ## Reading is the inverse of the format -/

theorem Ty.ofWalType_eq_some {b : UInt8} {t : Ty} : Ty.ofWalType b = some t ↔ b = t.walType := by
  constructor
  · intro h
    simp only [Ty.ofWalType] at h
    split at h
    next hb => cases h; exact hb
    next =>
      split at h
      next hb => cases h; exact hb
      next =>
        split at h
        next hb => cases h; exact hb
        next =>
          split at h
          next hb => cases h; exact hb
          next => cases h
  · rintro rfl
    exact Ty.ofWalType_walType t

theorem walValue_eq_some {t : Ty} {bytes : List UInt8} {value : t.Val} :
    walValue t bytes = some value ↔
      walLenOk t bytes.length ∧ value = Record.decoded t bytes := by
  cases t with
  | num n =>
      simp only [walValue, walLenOk, Record.decoded]
      split
      next h => simp [h, eq_comm]
      next h => simp [h]
  | text =>
      simp only [walValue, walLenOk, Record.decoded]
      split
      next h => simp [h, ofBytes_buffer h.2, eq_comm]
      next h => simp [h]

theorem readRecord_record {r : Record} (h : walLenOk r.ty r.value.length) (rest : List UInt8) :
    readRecord (r.encode ++ rest) = some (r.field, rest) := by
  obtain ⟨t, rid, value⟩ := r
  have hmax : value.length < 256 ^ 2 := by
    cases t with
    | num n =>
        simp only [walLenOk] at h
        rw [h]
        cases n <;> decide
    | text =>
        simp only [walLenOk, stringLength] at h
        omega
  have hlen : Bytes.ofLe (Bytes.le 2 value.length) = value.length := Bytes.ofLe_le_of_lt hmax
  have hkey : Bytes.ofLe (Bytes.le 8 rid.toNat) = rid.toNat := Bytes.ofLe_le_of_lt rid.isLt
  have hvalue := walValue_eq_some.mpr ⟨h, rfl⟩
  have hsplit : Record.encode ⟨t, rid, value⟩ ++ rest =
      [t.walType] ++ (Bytes.le 2 value.length ++ (Bytes.le 8 rid.toNat ++ (value ++ rest))) := by
    simp [Record.encode]
  rw [hsplit]
  simp only [readRecord, Bytes.take?_append (List.length_singleton),
    Bytes.take?_append (Bytes.length_le _ _), Option.bind_eq_bind, Option.bind_some, hlen,
    Bytes.take?_append rfl, hkey, List.headD_cons, Ty.ofWalType_walType, BitVec.ofNat_toNat,
    BitVec.setWidth_eq, hvalue, Record.field]

/-- What is read off the front is a record. -/
theorem readRecord_eq_some {data rest : List UInt8} {f : Field} :
    readRecord data = some (f, rest) ↔
      ∃ r : Record, walLenOk r.ty r.value.length ∧ data = r.encode ++ rest ∧ f = r.field := by
  constructor
  · intro h
    simp only [readRecord, Option.bind_eq_bind, Option.bind_eq_some_iff, Prod.exists,
      Bytes.take?_eq_some, Ty.ofWalType_eq_some, walValue_eq_some, Option.some.injEq,
      Prod.mk.injEq] at h
    obtain ⟨type, _, ⟨htype, rfl⟩, len, _, ⟨hlen, rfl⟩, key, _, ⟨hkey, rfl⟩, value, _,
      ⟨hvalue, rfl⟩, t, ht, _, ⟨hok, rfl⟩, rfl, rfl⟩ := h
    obtain ⟨b, rfl⟩ := List.length_eq_one_iff.mp htype
    have hb : b = t.walType := ht
    have hrid : Bytes.le 8 (BitVec.ofNat 64 (Bytes.ofLe key)).toNat = key := by
      have hlt : Bytes.ofLe key < 2 ^ 64 := by
        have := Bytes.ofLe_lt key
        rwa [hkey] at this
      rw [BitVec.toNat_ofNat, Nat.mod_eq_of_lt hlt, Bytes.le_ofLe hkey]
    refine ⟨⟨t, BitVec.ofNat 64 (Bytes.ofLe key), value⟩, hok, ?_, rfl⟩
    simp only [Record.encode, hvalue, Bytes.le_ofLe hlen, hrid, hb]
    simp
  · rintro ⟨r, hok, rfl, rfl⟩
    exact readRecord_record hok rest

/-- Reading records off the front. -/
theorem readRecords_eq_some {n : Nat} {data rest : List UInt8} {fs : List Field} :
    readRecords n data = some (fs, rest) ↔
      ∃ rs : List Record, rs.length = n ∧ (∀ r ∈ rs, walLenOk r.ty r.value.length) ∧
        data = (rs.map Record.encode).flatten ++ rest ∧ fs = rs.map Record.field := by
  induction n generalizing data rest fs with
  | zero =>
      constructor
      · intro h
        cases h
        exact ⟨[], rfl, by simp, rfl, rfl⟩
      · rintro ⟨rs, hlen, -, rfl, rfl⟩
        obtain rfl := List.length_eq_zero_iff.mp hlen
        rfl
  | succ n ih =>
      simp only [readRecords, Option.bind_eq_bind, Option.bind_eq_some_iff, Prod.exists,
        readRecord_eq_some, ih, Option.some.injEq, Prod.mk.injEq]
      constructor
      · rintro ⟨_, _, ⟨r, hr, rfl, rfl⟩, _, _, ⟨rs, hlen, hrs, rfl, rfl⟩, rfl, rfl⟩
        refine ⟨r :: rs, by simp [hlen], ?_, by simp, rfl⟩
        intro r' hr'
        rcases List.mem_cons.mp hr' with rfl | hr'
        · exact hr
        · exact hrs r' hr'
      · rintro ⟨rs, hlen, hrs, rfl, rfl⟩
        cases rs with
        | nil => cases hlen
        | cons r rs =>
            refine ⟨_, _, ⟨r, hrs r List.mem_cons_self, ?_, rfl⟩, _, _, ⟨rs,
              Nat.succ.inj hlen, fun r' hr' => hrs r' (List.mem_cons_of_mem _ hr'), rfl, rfl⟩, rfl,
              rfl⟩
            simp

/-- A string reads as fields exactly if it is a header, as many records as the header
counts, and nothing else. -/
theorem readPlaintext_eq_some {data : List UInt8} {fs : List Field} :
    readPlaintext data = some fs ↔
      ∃ rs : List Record, rs.length ≤ uint16Max ∧ (∀ r ∈ rs, walLenOk r.ty r.value.length) ∧
        data = payloadHeader rs.length ++ (rs.map Record.encode).flatten ∧
        fs = rs.map Record.field := by
  constructor
  · intro h
    simp only [readPlaintext, Option.bind_eq_bind, Option.bind_eq_some_iff, Prod.exists,
      Bytes.take?_eq_some] at h
    obtain ⟨magic, _, ⟨hmagic, rfl⟩, version, _, ⟨hversion, rfl⟩, nitems, _, ⟨hnitems, rfl⟩, h⟩ := h
    split at h
    next hok =>
      simp only [Option.bind_eq_some_iff, Prod.exists, readRecords_eq_some] at h
      obtain ⟨_, _, ⟨rs, hlen, hrs, rfl, rfl⟩, h⟩ := h
      split at h
      next hend =>
        cases h
        subst hend
        have hlt := Bytes.ofLe_lt nitems
        rw [hnitems] at hlt
        refine ⟨rs, by simp only [uint16Max]; omega, hrs, ?_, rfl⟩
        rw [payloadHeader, ← hok.1, ← hok.2, hlen, Bytes.le_ofLe hmagic, Bytes.le_ofLe hversion,
          Bytes.le_ofLe hnitems]
        simp
      next => cases h
    next => cases h
  · rintro ⟨rs, hcount, hrs, rfl, rfl⟩
    simp only [uint16Max] at hcount
    have hmagic : Bytes.ofLe (Bytes.le 4 walPayloadMagic) = walPayloadMagic :=
      Bytes.ofLe_le_of_lt (by decide)
    have hversion : Bytes.ofLe (Bytes.le 2 walPayloadVersion) = walPayloadVersion :=
      Bytes.ofLe_le_of_lt (by decide)
    have hlen : Bytes.ofLe (Bytes.le 2 rs.length) = rs.length := Bytes.ofLe_le_of_lt (by omega)
    have hrecords : readRecords rs.length (rs.map Record.encode).flatten =
        some (rs.map Record.field, []) :=
      readRecords_eq_some.mpr ⟨rs, rfl, hrs, by simp, rfl⟩
    simp only [readPlaintext, payloadHeader, List.append_assoc,
      Bytes.take?_append (Bytes.length_le _ _), Option.bind_eq_bind, Option.bind_some, hmagic,
      hversion, and_self, if_true, hlen, hrecords]

theorem IsPayload.read {data : List UInt8} {rs : List Record} (h : IsPayload data rs) :
    readPlaintext data = some (rs.map Record.field) :=
  readPlaintext_eq_some.mpr ⟨rs, h.count, fun r hr => (h.records r hr).length, h.bytes, rfl⟩

/-! ## What is accepted -/

/-- `replay_payload` reads no byte outside its string.  Where the text files have room, it
ends without a failed check exactly on the well-formed strings, and its effect is to
replace the fields of the records in order. -/
theorem replay_accepts_format (kv : KvMap) (mem : Mem) (size : Nat)
    (room : ∀ rs, IsPayload (mem.read 0 size) rs → kv.Room (rs.map Record.field)) :
    (∀ r ∈ (replayPayloadAt kv mem size).reads, r.1 + r.2 ≤ size) ∧
      ((∃ kv', (replayPayloadAt kv mem size).result = some kv') ↔
        ∃ rs, IsPayload (mem.read 0 size) rs) ∧
      ∀ rs, IsPayload (mem.read 0 size) rs →
        (replayPayloadAt kv mem size).result = applyFields kv (rs.map Record.field) := by
  have heffect (rs : List Record) (h : IsPayload (mem.read 0 size) rs) :
      (replayPayloadAt kv mem size).result = applyFields kv (rs.map Record.field) := by
    rw [result_replayPayloadAt, replayPlaintext_eq, h.read, Option.bind_some]
  refine ⟨within_replayPayloadAt kv mem size, ⟨?_, ?_⟩, heffect⟩
  · rintro ⟨kv', h⟩
    rw [result_replayPayloadAt, replayPlaintext_eq, Option.bind_eq_some_iff] at h
    obtain ⟨fs, hread, happly⟩ := h
    obtain ⟨rs, hcount, hlen, hbytes, rfl⟩ := readPlaintext_eq_some.mp hread
    refine ⟨rs, hcount, hbytes, fun r hr => ⟨hlen r hr, ?_⟩⟩
    exact applyFields_valid happly r.field (List.mem_map_of_mem hr)
  · rintro ⟨rs, h⟩
    have hvalid : ∀ f ∈ rs.map Record.field, KvMap.ValidRid f.val.1 f.rid := by
      intro f hf
      obtain ⟨r, hr, rfl⟩ := List.mem_map.mp hf
      exact (h.records r hr).rid
    obtain ⟨kv', happly⟩ := applyFields_room hvalid (room rs h)
    exact ⟨kv', (heffect rs h).trans happly⟩

/-- Empty text files have room for fields of few bytes. -/
theorem KvMap.room_of_empty {kv : KvMap} {fs : List Field}
    (empty : ∀ p, (kv.text p).curStoreOffset = 0)
    (few : (fs.map fun f => f.bytesIn (ridPartition f.rid)).sum ≤ storeSize) : kv.Room fs := by
  intro p
  have hle (f : Field) : f.bytesIn p ≤ f.bytesIn (ridPartition f.rid) := by
    obtain ⟨rid, t, value⟩ := f
    cases t with
    | num n => exact Nat.le_refl 0
    | text =>
        simp only [Field.bytesIn, if_true]
        split
        · exact Nat.le_refl _
        · exact Nat.zero_le _
  rw [empty, Nat.zero_add]
  exact (List.sum_le_sum fun f _ => hle f).trans few

/-- What is written for fields of valid RIDs is a payload. -/
theorem isPayload_encodeFields {fs : List Field} (hle : fs.length ≤ walMaterializeRidBatchSize)
    (valid : ∀ f ∈ fs, KvMap.ValidRid f.val.1 f.rid) :
    ∃ rs, IsPayload (encodeFields fs) rs ∧ rs.map Record.field = fs.map Field.cut := by
  obtain ⟨rs, hcount, hlen, hbytes, hfields⟩ :=
    readPlaintext_eq_some.mp (readPlaintext_encodeFields hle)
  refine ⟨rs, ⟨hcount, hbytes, fun r hr => ⟨hlen r hr, ?_⟩⟩, hfields.symm⟩
  obtain ⟨f, hf, hcut⟩ := List.mem_map.mp (hfields ▸ List.mem_map_of_mem hr)
  have hvalid : KvMap.ValidRid f.cut.val.1 f.cut.rid := valid f hf
  rw [hcut] at hvalid
  exact hvalid

/-- The text of one letter. -/
def letterA : CStr := ⟨[97], by decide⟩

/-- Two letters. -/
def lettersBC : CStr := ⟨[98, 99], by decide⟩

/-- The value of each type in the files below. -/
def sampleValue (text : CStr) : (t : Ty) → t.Val
  | .num n => BitVec.ofNat n.width 7
  | .text => text

/-- Files in which every number is seven and every text is the same. -/
def KvMap.sample (text : CStr) : KvMap where
  num n _ := { curRid := 1, store := fun _ => sampleValue text (.num n) }
  text _ :=
    { curRid := 1, curStoreOffset := text.length + 1, offsets := fun _ => 0
      store := Mem.write (fun _ => 0) 0 text.terminated }

theorem KvMap.stored_sample {text : CStr} (h : text.length < storeSize) {t : Ty} {key : RID}
    (valid : ValidRid t key) : (sample text).Stored t key (sampleValue text t) := by
  refine ⟨valid, ?_⟩
  cases t with
  | num n => rfl
  | text =>
      refine ⟨Mem.holds_write (fun _ => 0) 0 text.terminated, ?_, ?_⟩
      · exact Nat.le_of_eq (Nat.zero_add _)
      · exact (Nat.le_of_eq (Nat.zero_add _)).trans h

/-- Fields of every type, in two partitions. -/
def sampleItems : List WalRidItem :=
  [⟨.int, 0⟩, ⟨.text, 0⟩, ⟨.float, 0x0005000000000000⟩, ⟨.text, 0x0005000000000000⟩,
    ⟨.timestamp, 1⟩]

/-- The field of an item, with its value. -/
def sampleField (text : CStr) (item : WalRidItem) : Field :=
  ⟨item.rid, ⟨item.ty, sampleValue text item.ty⟩⟩

/-- All of them. -/
def sampleFields (text : CStr) : List Field := sampleItems.map (sampleField text)

theorem valid_sampleItems : ∀ item ∈ sampleItems, KvMap.ValidRid item.ty item.rid := by decide

theorem cut_sampleFields : (sampleFields letterA).map Field.cut = sampleFields letterA := by
  have hshort : letterA.length < stringLength := by decide
  simp only [sampleFields, sampleItems, sampleField, List.map_cons, List.map_nil, Field.cut,
    sampleValue, cut_of_short hshort]
  rfl

theorem room_sampleFields : KvMap.fresh.Room (sampleFields letterA) :=
  KvMap.room_of_empty (fun _ => rfl) (by decide)

/-- A memory that starts with the payload of the fields. -/
def sampleMem : Mem := Mem.write (fun _ => 0) 0 (encodeFields (sampleFields letterA))

theorem read_sampleMem : sampleMem.read 0 83 = encodeFields (sampleFields letterA) :=
  Mem.read_of_holds (Mem.holds_write _ _ _)

theorem replay_accepts_format_sample :
    ∃ rs kv', IsPayload (sampleMem.read 0 83) rs ∧ rs.map Record.field = sampleFields letterA ∧
      (replayPayloadAt .fresh sampleMem 83).result = some kv' := by
  have hvalid : ∀ f ∈ sampleFields letterA, KvMap.ValidRid f.val.1 f.rid :=
    List.forall_mem_map.mpr valid_sampleItems
  obtain ⟨rs, hrs, hfields⟩ := isPayload_encodeFields (by decide) hvalid
  rw [← read_sampleMem] at hrs
  rw [cut_sampleFields] at hfields
  have room (rs' : List Record) (h : IsPayload (sampleMem.read 0 83) rs') :
      KvMap.fresh.Room (rs'.map Record.field) := by
    rw [Option.some.inj (h.read.symm.trans hrs.read), hfields]
    exact room_sampleFields
  obtain ⟨kv', hkv'⟩ := (replay_accepts_format .fresh sampleMem 83 room).2.1.mpr ⟨rs, hrs⟩
  exact ⟨rs, kv', hrs, hfields, hkv'⟩

/-! ## The round trip -/

/-- The field of an item, with the value that is read for it. -/
def WalRidItem.field? (kv : KvMap) (item : WalRidItem) : Option Field :=
  (kv.get item.ty item.rid).map fun value => ⟨item.rid, ⟨item.ty, value⟩⟩

/-- An item with a valid global RID and, for a text, a value shorter than `STRING_LENGTH`. -/
def WalRidItem.Legal (kv : KvMap) (item : WalRidItem) : Prop :=
  KvMap.ValidRid item.ty item.rid ∧
    (item.ty = .text → ∃ value, kv.get .text item.rid = some value ∧ value.length < stringLength)

/-- What `get` reads for a RID lies in bytes that were given out.  For a number this is
always so. -/
def KvMap.Settled (kv : KvMap) (t : Ty) (key : RID) : Prop :=
  KvMap.ValidRid t key → ∃ value, kv.Stored t key value

theorem KvMap.settled_num (kv : KvMap) (n : Num) (key : RID) : kv.Settled (.num n) key :=
  fun valid => ⟨_, valid, rfl⟩

/-- Replacing fields leaves what is read for every other settled RID. -/
theorem applyFields_get_other {kv kv' : KvMap} {fs : List Field} {t : Ty} {key : RID}
    (h : applyFields kv fs = some kv') (other : ⟨t, key⟩ ∉ fs.map Field.item)
    (settled : kv.Settled t key) : kv'.get t key = kv.get t key := by
  by_cases valid : KvMap.ValidRid t key
  · obtain ⟨value, hstored⟩ := settled valid
    have hagree : ∀ f ∈ fs, f.item = ⟨t, key⟩ → f = ⟨key, ⟨t, value⟩⟩ := by
      intro f hf hitem
      exact absurd (hitem ▸ List.mem_map_of_mem hf) other
    rw [(applyFields_stored h hagree (.inl hstored)).get, hstored.get]
  · rw [KvMap.get_eq_none valid, KvMap.get_eq_none valid]

theorem WalRidItem.Legal.field {kv : KvMap} {item : WalRidItem} (h : item.Legal kv) :
    ∃ f : Field, item.field? kv = some f ∧ f.item = item ∧
      kv.get f.val.1 f.rid = some f.val.2 ∧ f.cut = f := by
  obtain ⟨t, rid⟩ := item
  obtain ⟨valid, short⟩ := h
  cases t with
  | num n =>
      obtain ⟨value, hstored⟩ := kv.settled_num n rid valid
      refine ⟨⟨rid, ⟨.num n, value⟩⟩, ?_, rfl, hstored.get, rfl⟩
      simp [field?, hstored.get]
  | text =>
      obtain ⟨value, hget, hshort⟩ := short rfl
      refine ⟨⟨rid, ⟨.text, value⟩⟩, ?_, rfl, hget, ?_⟩
      · simp [field?, hget]
      · simp only [Field.cut, cut_of_short hshort]

/-- The fields of legal items. -/
theorem exists_fields {kv : KvMap} {items : List WalRidItem}
    (legal : ∀ item ∈ items, item.Legal kv) :
    ∃ fs : List Field, items.mapM (WalRidItem.field? kv) = some fs ∧ fs.map Field.item = items ∧
      (∀ f ∈ fs, kv.get f.val.1 f.rid = some f.val.2) ∧ fs.map Field.cut = fs := by
  induction items with
  | nil => exact ⟨[], rfl, rfl, fun f hf => (nomatch hf), rfl⟩
  | cons item items ih =>
      obtain ⟨f, hf, hitem, hget, hcut⟩ := (legal item List.mem_cons_self).field
      obtain ⟨fs, hfs, hitems, hgets, hcuts⟩ :=
        ih fun item' hmem => legal item' (List.mem_cons_of_mem _ hmem)
      refine ⟨f :: fs, ?_, ?_, ?_, ?_⟩
      · rw [List.mapM_cons, hf, hfs]
        rfl
      · rw [List.map_cons, hitem, hitems]
      · intro f' hf'
        rcases List.mem_cons.mp hf' with rfl | hf'
        · exact hget
        · exact hgets f' hf'
      · rw [List.map_cons, hcut, hcuts]

theorem materializePayload_eq {kv : KvMap} {fs : List Field}
    (hle : fs.length ≤ walMaterializeRidBatchSize)
    (h : ∀ f ∈ fs, kv.get f.val.1 f.rid = some f.val.2) :
    materializePayload kv (fs.map Field.item) = some (encodeFields fs) := by
  have hmax : fs.length ≤ uint16Max := hle.trans (by decide)
  simp only [materializePayload, List.length_map, hmax, if_true, mapM_materializeRecord h,
    Option.map_some, encodeFields]

theorem replayPlaintext_encodeFields (kv : KvMap) {fs : List Field}
    (hle : fs.length ≤ walMaterializeRidBatchSize) :
    replayPlaintext kv (encodeFields fs) = applyFields kv (fs.map Field.cut) := by
  rw [replayPlaintext_eq, readPlaintext_encodeFields hle, Option.bind_some]

/-- Decoding undoes encoding: `replay_payload` on what `materialize_payload` wrote for legal
items replaces each item in order by the value read at encoding.  In a store whose text
files have room it passes every check; each item then reads the value it had, and every
other settled RID reads what it read. -/
theorem payload_round_trip {kv : KvMap} {items : List WalRidItem}
    (hle : items.length ≤ walMaterializeRidBatchSize)
    (legal : ∀ item ∈ items, item.Legal kv) :
    ∃ fs bytes, items.mapM (WalRidItem.field? kv) = some fs ∧
      materializePayload kv items = some bytes ∧
      ∀ kv₀ : KvMap, replayPlaintext kv₀ bytes = applyFields kv₀ fs ∧
        (kv₀.Room fs → ∃ kv', replayPlaintext kv₀ bytes = some kv' ∧
          (∀ item ∈ items, kv'.get item.ty item.rid = kv.get item.ty item.rid) ∧
          ∀ t key, ⟨t, key⟩ ∉ items → kv₀.Settled t key → kv'.get t key = kv₀.get t key) := by
  obtain ⟨fs, hfs, hitems, hgets, hcuts⟩ := exists_fields legal
  have hlen : fs.length ≤ walMaterializeRidBatchSize := by
    rw [← hitems, List.length_map] at hle
    exact hle
  have hreplay (kv₀ : KvMap) : replayPlaintext kv₀ (encodeFields fs) = applyFields kv₀ fs := by
    rw [replayPlaintext_encodeFields kv₀ hlen, hcuts]
  refine ⟨fs, encodeFields fs, hfs, ?_, fun kv₀ => ⟨hreplay kv₀, fun room => ?_⟩⟩
  · rw [← hitems]
    exact materializePayload_eq hlen hgets
  · have hvalid : ∀ f ∈ fs, KvMap.ValidRid f.val.1 f.rid := by
      intro f hf
      exact (legal f.item (hitems ▸ List.mem_map_of_mem hf)).1
    obtain ⟨kv', happly⟩ := applyFields_room hvalid room
    refine ⟨kv', (hreplay kv₀).trans happly, ?_, ?_⟩
    · intro item hitem
      obtain ⟨f, hf, rfl⟩ := List.mem_map.mp (hitems ▸ hitem)
      -- all records of a RID carry the one value it had
      have hagree : ∀ f' ∈ fs, f'.item = f.item → f' = ⟨f.rid, ⟨f.val.1, f.val.2⟩⟩ := by
        intro f' hf' hsame
        have hget := hgets f hf
        have hget' := hgets f' hf'
        obtain ⟨rid, t, value⟩ := f
        obtain ⟨rid', t', value'⟩ := f'
        cases hsame
        have hvalue : value' = value := Option.some.inj (hget'.symm.trans hget)
        rw [hvalue]
      exact (applyFields_stored happly hagree (.inr ⟨f, hf, rfl⟩)).get.trans (hgets f hf).symm
    · intro t key hother settled
      exact applyFields_get_other happly (hitems ▸ hother) settled

/-- Files with one text in each partition, under the first RID. -/
def KvMap.oneText (value : CStr) : KvMap :=
  { KvMap.fresh with
    text := fun _ =>
      { curRid := 1, curStoreOffset := value.length + 1, offsets := fun _ => 0
        store := Mem.write (fun _ => 0) 0 value.terminated } }

theorem KvMap.stored_oneText {value : CStr} (h : value.length < storeSize) :
    (oneText value).Stored .text 0 value := by
  refine ⟨by decide, ?_, ?_, ?_⟩
  · exact Mem.holds_write (fun _ => 0) 0 value.terminated
  · exact Nat.le_of_eq (Nat.zero_add _)
  · exact (Nat.le_of_eq (Nat.zero_add _)).trans h

/-- The field of the first text. -/
def fieldA : Field := ⟨0, ⟨.text, letterA⟩⟩

theorem stored_fieldA : (KvMap.oneText letterA).Stored .text 0 letterA :=
  KvMap.stored_oneText (by decide)

theorem legal_fieldA : ∀ item ∈ [fieldA.item], item.Legal (.oneText letterA) := by
  intro item hitem
  rw [List.mem_singleton.mp hitem]
  exact ⟨by decide, fun _ => ⟨letterA, stored_fieldA.get, by decide⟩⟩

theorem materialize_fieldA :
    materializePayload (.oneText letterA) [fieldA.item] = some (encodeFields [fieldA]) := by
  show materializePayload (.oneText letterA) ([fieldA].map Field.item) = _
  refine materializePayload_eq (by decide) fun f hf => ?_
  rw [List.mem_singleton.mp hf]
  exact stored_fieldA.get

theorem cut_fieldA : [fieldA].map Field.cut = [fieldA] := by
  have hshort : letterA.length < stringLength := by decide
  simp only [fieldA, List.map_cons, List.map_nil, Field.cut, cut_of_short hshort]

theorem legal_sampleItems {text : CStr} (h : text.length < stringLength) :
    ∀ item ∈ sampleItems, item.Legal (.sample text) := by
  intro item hitem
  have hstore : text.length < storeSize := h.trans (by decide)
  refine ⟨valid_sampleItems item hitem, fun ht => ⟨text, ?_, h⟩⟩
  have hvalid := valid_sampleItems item hitem
  rw [ht] at hvalid
  exact (KvMap.stored_sample hstore hvalid).get

theorem get_sample {text : CStr} (h : text.length < stringLength) :
    ∀ item ∈ sampleItems,
      (KvMap.sample text).get item.ty item.rid = some (sampleValue text item.ty) := by
  intro item hitem
  exact (KvMap.stored_sample (h.trans (by decide)) (valid_sampleItems item hitem)).get

theorem mapM_sampleItems : sampleItems.mapM (WalRidItem.field? (.sample letterA)) =
    some (sampleFields letterA) := by
  have hget : ∀ item ∈ sampleItems,
      item.field? (.sample letterA) = some (sampleField letterA item) := by
    intro item hitem
    rw [WalRidItem.field?, get_sample (by decide) item hitem, Option.map_some, sampleField]
  simp only [sampleItems, List.forall_mem_cons] at hget
  obtain ⟨hint, htext, hfloat, htext', htimestamp, -⟩ := hget
  simp only [sampleItems, List.mapM_cons, List.mapM_nil, hint, htext, hfloat, htext', htimestamp,
    Option.pure_def, Option.bind_eq_bind, Option.bind_some]
  rfl

theorem payload_round_trip_sample :
    ∃ bytes kv', materializePayload (.sample letterA) sampleItems = some bytes ∧
      replayPlaintext .fresh bytes = some kv' ∧
      (∀ item ∈ sampleItems, kv'.get item.ty item.rid = some (sampleValue letterA item.ty)) ∧
      kv'.get .int 1 = KvMap.fresh.get .int 1 := by
  have hshort : letterA.length < stringLength := by decide
  obtain ⟨fs, bytes, hfs, hbytes, hreplay⟩ :=
    @payload_round_trip (.sample letterA) sampleItems (by decide) (legal_sampleItems hshort)
  obtain rfl := Option.some.inj (mapM_sampleItems.symm.trans hfs)
  obtain ⟨kv', hkv', hitems, hother⟩ := (hreplay .fresh).2 room_sampleFields
  refine ⟨bytes, kv', hbytes, hkv', fun item hitem => ?_, ?_⟩
  · exact (hitems item hitem).trans (get_sample hshort item hitem)
  · exact hother .int 1 (by decide) (KvMap.settled_num _ _ _)

/-- Files whose text files are full. -/
def fullTexts : KvMap :=
  { KvMap.fresh with text := fun p => { KvMap.fresh.text p with curStoreOffset := storeSize } }

/-- A payload of one legal item does not pass every check in files that are full, and in
empty files it changes what is read for another RID, whose slot was never written. -/
theorem replay_needs_room :
    (∀ item ∈ [fieldA.item], item.Legal (.oneText letterA)) ∧
      ∃ bytes, materializePayload (.oneText letterA) [fieldA.item] = some bytes ∧
        replayPlaintext fullTexts bytes = none ∧
        ∃ kv', replayPlaintext .fresh bytes = some kv' ∧ ⟨.text, 1⟩ ∉ [fieldA.item] ∧
          kv'.get .text 1 ≠ KvMap.fresh.get .text 1 := by
  refine ⟨legal_fieldA, encodeFields [fieldA], materialize_fieldA, ?_, ?_⟩
  · rw [replayPlaintext_encodeFields _ (by decide), cut_fieldA]
    have hfull : fullTexts.replace .text 0 letterA = none := by
      rw [Option.eq_none_iff_forall_ne_some]
      intro kv' h
      obtain ⟨-, s, hs, -⟩ := KvMap.replace_text_eq_some.mp h
      have hroom := (FileMapTextStore.place_eq_some.mp hs).1
      have hoff : (fullTexts.text (ridPartition 0)).curStoreOffset = storeSize := rfl
      omega
    exact congrArg (Option.bind · some) hfull
  · rw [replayPlaintext_encodeFields _ (by decide), cut_fieldA]
    have hplace : KvMap.fresh.replace .text 0 letterA = some
        (KvMap.fresh.setText (ridPartition 0)
          { curRid := 0, curStoreOffset := 2, offsets := Function.update (fun _ => 0) 0 0
            store := Mem.write (fun _ => 0) 0 letterA.terminated }) :=
      KvMap.replace_text_eq_some.mpr
        ⟨by decide, _, FileMapTextStore.place_eq_some.mpr ⟨by decide, rfl⟩, rfl⟩
    refine ⟨_, (congrArg (Option.bind · some) hplace), by decide, ?_⟩
    -- the slot of RID 1 still has offset zero, where the text now lies
    have hafter : (KvMap.fresh.setText (ridPartition 0)
        { curRid := 0, curStoreOffset := 2, offsets := Function.update (fun _ => 0) 0 0
          store := Mem.write (fun _ => 0) 0 letterA.terminated }).Stored .text 1 letterA := by
      refine ⟨by decide, ?_⟩
      show (FileMapTextStore.Holds _ _ _)
      have hpart : ridPartition 1 = ridPartition 0 := by decide
      rw [hpart, KvMap.setText_text_self]
      exact ⟨Mem.holds_write (fun _ => 0) 0 letterA.terminated, by decide, by decide⟩
    have hbefore : KvMap.fresh.get .text 1 = some .empty := by
      have hpart : ridPartition 1 ≠ ridLocalPartition := by decide
      have hidx : (ridIndex 1).toNat < textMaxArrayEleNum := by decide
      simp only [KvMap.get, hpart, if_false, FileMapTextStore.get, hidx, if_true]
      refine Mem.readCStr_of_holds (fun i hi => ?_) (by decide)
      have hi : i = 0 := Nat.lt_one_iff.mp hi
      subst hi
      rfl
    rw [hafter.get, hbefore]
    decide

end Zeno
