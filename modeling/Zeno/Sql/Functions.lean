import Zeno.Lib.Frame
import Zeno.Sql.Aggregates

/-!
# The functions of the SQL types

The 72 C functions that `kvdb--0.1.sql` declares for `kv_int4`, `kv_float4`,
`kv_timestamp` and `kv_text`: input and output, casts, operators, comparisons and
aggregates (`int.cpp`, `float.cpp`, `timestamp.cpp`, `text.cpp`).  Each sends a few
requests to the TEE.  `SqlCall` is a call of one of them, and `SqlCall.eval` is what
it does, one line for each function of the source.

Input functions and casts encrypt a plaintext with one request and put it with the
next, and the results of operators are put in the local store.  So evaluating a
query leaves the files as they are, but for the two averages.  They put their
divisor with `CMD_INT_PUT` and `CMD_FLOAT_PUT`, which give out a slot of the default
partition (`query_keeps_files_iff`).

The conversions of PostgreSQL and of the C library are the parameters `PgEnv`.
-/

namespace Zeno

open Frame (Keeps)

/-- The conversions the functions use. -/
structure PgEnv where
  /-- `atoi`. -/
  atoi : CStr → Num.int.Val
  /-- `pg_float4_in`, which rejects some strings. -/
  pgFloat4In : CStr → Option Num.float.Val
  /-- `pg_timestamp_in`, which rejects some strings. -/
  pgTimestampIn : CStr → Option Num.timestamp.Val
  /-- `numeric`. -/
  Numeric : Type
  /-- `numeric_out`. -/
  numericOut : Numeric → CStr
  /-- `float8out`. -/
  float8out : BitVec 64 → CStr
  /-- `int8out`. -/
  int8out : BitVec 64 → CStr
  /-- `int4out`. -/
  int4out : Num.int.Val → CStr
  /-- An `int` as a `float`. -/
  floatOfInt : Num.int.Val → Num.float.Val
  /-- `pq_getmsgint` of four bytes, which fails on a short message. -/
  pqGetmsgint : List UInt8 → Option Num.int.Val
  /-- `pq_getmsgstring`, which fails on a message without a string. -/
  pqGetmsgstring : List UInt8 → Option CStr
  /-- `sprintf` with `%d`. -/
  sprintfInt : Num.int.Val → CStr
  /-- `sprintf` with `%f`. -/
  sprintfFloat : Num.float.Val → CStr
  /-- `timestamp2tm` and `EncodeDateTime`, which is not called if the first one fails. -/
  encodeDateTime : Num.timestamp.Val → Option CStr

/-- Some conversions, to run the model with. -/
def PgEnv.trivial : PgEnv where
  atoi _ := 0
  pgFloat4In _ := none
  pgTimestampIn _ := none
  Numeric := Unit
  numericOut _ := .empty
  float8out _ := .empty
  int8out _ := .empty
  int4out _ := .empty
  floatOfInt n := n
  pqGetmsgint _ := none
  pqGetmsgstring _ := none
  sprintfInt _ := .empty
  sprintfFloat _ := .empty
  encodeDateTime _ := some .empty

/-- What a function returns to PostgreSQL. -/
inductive Datum where
  /-- A value of an encrypted type. -/
  | rid (id : RID)
  /-- A `boolean`. -/
  | bool (b : Bool)
  /-- An `integer`. -/
  | int32 (n : Int)
  /-- A `cstring`. -/
  | cstring (s : CStr)
  /-- A `bytea`. -/
  | bytea (bs : List UInt8)

/-- Send a request and take the bytes from its reply. -/
def askBytes (e : Env) (g : Gcm) (tee : Tee) (req : Request) : Option (List UInt8 × Tee) :=
  match handleOps e g tee req with
  | some (.bytes bs, tee) => some (bs, tee)
  | _ => none

theorem askBytes_eq_some {e : Env} {g : Gcm} {tee tee' : Tee} {req : Request} {bs : List UInt8} :
    askBytes e g tee req = some (bs, tee') ↔ handleOps e g tee req = some (.bytes bs, tee') := by
  unfold askBytes
  split
  next heq => simp [heq]
  next hne => exact ⟨nofun, fun h => absurd h (hne _ _)⟩

namespace Extension

/-- A function of the extension, while it runs: the worker that serves its requests, and the
errors it raises. -/
abbrev Client (α : Type) := StateT Tee Option α

section Definitions

variable (e : Env) (g : Gcm) (pg : PgEnv)

/-- `kv_int_calc` and its siblings. -/
def kvCalc (op : CalcOp) (left right : RID) : Client RID :=
  fun tee => askRid e g tee (.calculate op left right)

/-- `kv_int_cmp` of the extension and its siblings. -/
def kvCmp (op : CmpOp) (left right : RID) : Client Int :=
  fun tee => askCmp e g tee (.cmp op left right)

/-- `enc_int_encrypt` and `kv_int_put_enc`, and their siblings. -/
def putPlain (t : Ty) (value : t.Val) : Client Datum := do
  let cipher ← fun tee => askBytes e g tee (.enc t (plainBytes t value))
  let id ← fun tee => askRid e g tee (.putEnc t cipher)
  pure (.rid id)

/-- `kv_int_get_enc` and `enc_int_decrypt`, and their siblings. -/
def getPlain (t : Ty) (id : RID) : Client t.Val := do
  let cipher ← fun tee => askBytes e g tee (.getEnc t id)
  let plain ← fun tee => askBytes e g tee (.dec t cipher)
  pure (plainValue t plain)

/-- An operator with two operands. -/
def calcOf (op : CalcOp) (id1 id2 : RID) : Client Datum := Datum.rid <$> kvCalc e g op id1 id2

/-- A comparison, with the test made of its outcome. -/
def cmpOf (op : CmpOp) (test : Int → Bool) (id1 id2 : RID) : Client Datum :=
  (fun cmp => Datum.bool (test cmp)) <$> kvCmp e g op id1 id2

/-- A comparison that returns its outcome. -/
def cmpValueOf (op : CmpOp) (id1 id2 : RID) : Client Datum :=
  Datum.int32 <$> kvCmp e g op id1 id2

/-- A conversion that may raise an error. -/
def convert {α : Type} (value : Option α) : Client α := fun tee => value.map fun a => (a, tee)

/-- `numeric_to_kv_float4` and its siblings, by way of a string. -/
def floatFromText (text : CStr) : Client Datum := do
  let value ← convert (pg.pgFloat4In text)
  putPlain e g .float value

/-- The string that `int8_to_kv_float4` converts.  Its variable has the C type `int8`, which is
`signed char`, and `Int8GetDatum` extends it with its sign. -/
def int8CastText (num : BitVec 64) : CStr := pg.int8out ((num.setWidth 8).signExtend 64)

/-- The string that `int4_to_kv_float4` converts. -/
def int4CastText (num : Num.int.Val) : CStr := pg.int4out num

/-- A text that is written to a buffer of so many bytes, with its terminator. -/
def inBuffer (size : Nat) (s : CStr) : Option CStr := if s.length < size then some s else none

/-- `cstring_to_enctext_with_len` and `kv_text_put_enc`. -/
def putText (s : CStr) : Client Datum :=
  if stringLength ≤ s.length then failure else putPlain e g .text s

/-- `kv_float_sum_bulk` of the extension. -/
def kvFloatSumBulk (tee : Tee) (keys : List RID) : Option (RID × Tee) :=
  askRid e g tee (.floatSumBulk keys)

/-- `kv_float4_sum_bulk`. -/
def kvFloat4SumBulk := sumBulk (kvFloatSumBulk e g)

/-- `kv_float4_avg_bulk`. -/
def kvFloat4AvgBulk (tee : Tee) (vs : List (Option RID)) : Option (RID × Tee) := do
  let (sum, tee) ← kvFloat4SumBulk e g tee vs
  let count := pg.floatOfInt (BitVec.ofNat 32 vs.length)
  let (div, tee) ← askRid e g tee (.put ⟨.float, count⟩)
  kvCalc e g .floatDiv sum div tee

/-- `kv_float4_max_bulk`. -/
def kvFloat4MaxBulk := extremumBulk e g .floatCmp (-1)

/-- `kv_float4_min_bulk`. -/
def kvFloat4MinBulk := extremumBulk e g .floatCmp 1

/-- A call of one of the functions, with its arguments. -/
inductive SqlCall where
  | int4ToKvInt4 (num : Num.int.Val) | int8ToKvInt4 (num : BitVec 64)
  | kvInt4In (s : CStr) | kvInt4Out (id : RID)
  | kvInt4Recv (buf : List UInt8) | kvInt4Send (id : RID)
  | kvInt4Add (id1 id2 : RID) | kvInt4Sub (id1 id2 : RID) | kvInt4Mult (id1 id2 : RID)
  | kvInt4Div (id1 id2 : RID) | kvInt4Pow (id1 id2 : RID) | kvInt4Mod (id1 id2 : RID)
  | kvInt4Cmp (id1 id2 : RID) | kvInt4Eq (id1 id2 : RID) | kvInt4Ne (id1 id2 : RID)
  | kvInt4Lt (id1 id2 : RID) | kvInt4Le (id1 id2 : RID) | kvInt4Gt (id1 id2 : RID)
  | kvInt4Ge (id1 id2 : RID)
  | kvInt4SumBulk (vs : List (Option RID)) | kvInt4AvgBulk (vs : List (Option RID))
  | kvInt4MaxBulk (vs : List (Option RID)) | kvInt4MinBulk (vs : List (Option RID))
  | float4ToKvFloat4 (num : Num.float.Val) | numericToKvFloat4 (num : pg.Numeric)
  | doubleToKvFloat4 (num : BitVec 64) | int8ToKvFloat4 (num : BitVec 64)
  | int4ToKvFloat4 (num : Num.int.Val)
  | kvFloat4In (s : CStr) | kvFloat4Out (id : RID)
  | kvFloat4SumBulk (vs : List (Option RID)) | kvFloat4AvgBulk (vs : List (Option RID))
  | kvFloat4MinBulk (vs : List (Option RID)) | kvFloat4MaxBulk (vs : List (Option RID))
  | kvFloat4Add (id1 id2 : RID) | kvFloat4Sub (id1 id2 : RID) | kvFloat4Mult (id1 id2 : RID)
  | kvFloat4Div (id1 id2 : RID) | kvFloat4Pow (id1 id2 : RID) | kvFloat4Mod (id1 id2 : RID)
  | kvFloat4Eq (id1 id2 : RID) | kvFloat4Ne (id1 id2 : RID) | kvFloat4Lt (id1 id2 : RID)
  | kvFloat4Le (id1 id2 : RID) | kvFloat4Gt (id1 id2 : RID) | kvFloat4Ge (id1 id2 : RID)
  | kvFloat4Cmp (id1 id2 : RID)
  | kvTextOut (id : RID) | kvTextIn (s : CStr) | kvTextRecv (buf : List UInt8)
  | kvTextSend (id : RID)
  | kvTextCmp (id1 id2 : RID) | kvTextGt (id1 id2 : RID) | kvTextGe (id1 id2 : RID)
  | kvTextLt (id1 id2 : RID) | kvTextNe (id1 id2 : RID) | kvTextLe (id1 id2 : RID)
  | kvTextEq (id1 id2 : RID) | kvTextLike (id1 id2 : RID) | kvTextNotlike (id1 id2 : RID)
  | kvTextConcatenate (id1 id2 : RID) | substring (str start length : RID)
  | kvTimestampIn (s : CStr) | kvTimestampOut (id : RID)
  | kvTimestampEq (id1 id2 : RID) | kvTimestampNe (id1 id2 : RID) | kvTimestampLt (id1 id2 : RID)
  | kvTimestampLe (id1 id2 : RID) | kvTimestampGt (id1 id2 : RID) | kvTimestampGe (id1 id2 : RID)
  | kvTimestampCmp (id1 id2 : RID) | datePart (field : CStr) (id : RID)

/-- `PG_GETARG_INT32` of a RID: its low half, and back to a RID with its sign. -/
def getargInt32 (id : RID) : RID := (id.setWidth 32).signExtend 64

/-- `"year"`. -/
def yearField : CStr := ⟨[121, 101, 97, 114], by decide⟩

/-- What a call does. -/
def SqlCall.eval : SqlCall pg → Client Datum
  | .int4ToKvInt4 num => putPlain e g .int num
  | .int8ToKvInt4 num => putPlain e g .int (num.setWidth 32)
  | .kvInt4In s => putPlain e g .int (pg.atoi s)
  | .kvInt4Out id => do
      let num ← getPlain e g .int id
      -- the buffer has `sizeof(int)` bytes
      Datum.cstring <$> convert (inBuffer 4 (pg.sprintfInt num))
  | .kvInt4Recv buf => do
      let num ← convert (pg.pqGetmsgint buf)
      putPlain e g .int num
  | .kvInt4Send id => do
      let num ← getPlain e g .int id
      (Datum.bytea ∘ CStr.terminated) <$> convert (inBuffer 32 (pg.sprintfInt num))
  | .kvInt4Add id1 id2 => calcOf e g .intPlus id1 id2
  | .kvInt4Sub id1 id2 => calcOf e g .intMinus id1 id2
  | .kvInt4Mult id1 id2 => calcOf e g .intMult id1 id2
  | .kvInt4Div id1 id2 => calcOf e g .intDiv id1 id2
  | .kvInt4Pow id1 id2 => calcOf e g .intPow id1 id2
  | .kvInt4Mod id1 id2 => calcOf e g .intMod id1 id2
  | .kvInt4Cmp id1 id2 => cmpValueOf e g .intCmp id1 id2
  | .kvInt4Eq id1 id2 => cmpOf e g .intCmp (· = 0) id1 id2
  | .kvInt4Ne id1 id2 => cmpOf e g .intCmp (· ≠ 0) id1 id2
  | .kvInt4Lt id1 id2 => cmpOf e g .intCmp (· < 0) id1 id2
  | .kvInt4Le id1 id2 => cmpOf e g .intCmp (· ≤ 0) id1 id2
  | .kvInt4Gt id1 id2 => cmpOf e g .intCmp (· > 0) id1 id2
  | .kvInt4Ge id1 id2 => cmpOf e g .intCmp (· ≥ 0) id1 id2
  | .kvInt4SumBulk vs => Datum.rid <$> (Extension.kvInt4SumBulk e g · vs : Client RID)
  | .kvInt4AvgBulk vs => Datum.rid <$> (Extension.kvInt4AvgBulk e g · vs : Client RID)
  | .kvInt4MaxBulk vs => Datum.rid <$> (Extension.kvInt4MaxBulk e g · vs : Client RID)
  | .kvInt4MinBulk vs => Datum.rid <$> (Extension.kvInt4MinBulk e g · vs : Client RID)
  | .float4ToKvFloat4 num => putPlain e g .float num
  | .numericToKvFloat4 num => floatFromText e g pg (pg.numericOut num)
  | .doubleToKvFloat4 num => floatFromText e g pg (pg.float8out num)
  | .int8ToKvFloat4 num => floatFromText e g pg (int8CastText pg num)
  | .int4ToKvFloat4 num => floatFromText e g pg (int4CastText pg num)
  | .kvFloat4In s => floatFromText e g pg s
  | .kvFloat4Out id => do
      let num ← getPlain e g .float id
      Datum.cstring <$> convert (inBuffer 32 (pg.sprintfFloat num))
  | .kvFloat4SumBulk vs => Datum.rid <$> (Extension.kvFloat4SumBulk e g · vs : Client RID)
  | .kvFloat4AvgBulk vs => Datum.rid <$> (Extension.kvFloat4AvgBulk e g pg · vs : Client RID)
  | .kvFloat4MinBulk vs => Datum.rid <$> (Extension.kvFloat4MinBulk e g · vs : Client RID)
  | .kvFloat4MaxBulk vs => Datum.rid <$> (Extension.kvFloat4MaxBulk e g · vs : Client RID)
  | .kvFloat4Add id1 id2 => calcOf e g .floatPlus id1 id2
  | .kvFloat4Sub id1 id2 => calcOf e g .floatMinus id1 id2
  | .kvFloat4Mult id1 id2 => calcOf e g .floatMult id1 id2
  | .kvFloat4Div id1 id2 => calcOf e g .floatDiv id1 id2
  | .kvFloat4Pow id1 id2 => calcOf e g .floatPow id1 id2
  | .kvFloat4Mod id1 id2 => calcOf e g .floatMod id1 id2
  | .kvFloat4Eq id1 id2 => cmpOf e g .floatCmp (· = 0) id1 id2
  | .kvFloat4Ne id1 id2 => cmpOf e g .floatCmp (· ≠ 0) id1 id2
  | .kvFloat4Lt id1 id2 => cmpOf e g .floatCmp (· < 0) id1 id2
  | .kvFloat4Le id1 id2 => cmpOf e g .floatCmp (· ≤ 0) id1 id2
  | .kvFloat4Gt id1 id2 => cmpOf e g .floatCmp (· > 0) id1 id2
  | .kvFloat4Ge id1 id2 => cmpOf e g .floatCmp (· ≥ 0) id1 id2
  | .kvFloat4Cmp id1 id2 => cmpValueOf e g .floatCmp id1 id2
  | .kvTextOut id => Datum.cstring <$> getPlain e g .text id
  | .kvTextIn s => putText e g s
  | .kvTextRecv buf => do
      let s ← convert (pg.pqGetmsgstring buf)
      putText e g s
  | .kvTextSend id => (Datum.bytea ∘ CStr.terminated) <$> getPlain e g .text id
  | .kvTextCmp id1 id2 => cmpValueOf e g .textCmp id1 id2
  | .kvTextGt id1 id2 => cmpOf e g .textCmp (0 < ·) id1 id2
  | .kvTextGe id1 id2 => cmpOf e g .textCmp (0 ≤ ·) id1 id2
  | .kvTextLt id1 id2 => cmpOf e g .textCmp (0 > ·) id1 id2
  | .kvTextNe id1 id2 => cmpOf e g .textCmp (0 ≠ ·) id1 id2
  | .kvTextLe id1 id2 => cmpOf e g .textCmp (0 ≥ ·) id1 id2
  | .kvTextEq id1 id2 => cmpOf e g .textCmp (0 = ·) id1 id2
  | .kvTextLike id1 id2 => cmpOf e g .textLike (· ≠ 0) id1 id2
  | .kvTextNotlike id1 id2 => cmpOf e g .textLike (· = 0) id1 id2
  | .kvTextConcatenate id1 id2 => calcOf e g .textConcat id1 id2
  | .substring str start length => Datum.rid <$> (fun tee =>
      askRid e g tee (.substring str (getargInt32 start) (getargInt32 length)) : Client RID)
  | .kvTimestampIn s => do
      let value ← convert (pg.pgTimestampIn s)
      putPlain e g .timestamp value
  | .kvTimestampOut id => do
      let plain ← getPlain e g .timestamp id
      Datum.cstring <$> convert (pg.encodeDateTime plain)
  | .kvTimestampEq id1 id2 => cmpOf e g .timestampCmp (· = 0) id1 id2
  | .kvTimestampNe id1 id2 => cmpOf e g .timestampCmp (· ≠ 0) id1 id2
  | .kvTimestampLt id1 id2 => cmpOf e g .timestampCmp (· < 0) id1 id2
  | .kvTimestampLe id1 id2 => cmpOf e g .timestampCmp (· ≤ 0) id1 id2
  | .kvTimestampGt id1 id2 => cmpOf e g .timestampCmp (· > 0) id1 id2
  | .kvTimestampGe id1 id2 => cmpOf e g .timestampCmp (· ≥ 0) id1 id2
  | .kvTimestampCmp id1 id2 => cmpValueOf e g .timestampCmp id1 id2
  | .datePart field id =>
      if field ≠ yearField then failure
      else Datum.rid <$> (fun tee => askRid e g tee (.extractYear id) : Client RID)

/-- The two averages. -/
def SqlCall.isAverage : SqlCall pg → Bool
  | .kvInt4AvgBulk _ | .kvFloat4AvgBulk _ => true
  | _ => false

end Definitions

/-! ## What leaves the files alone -/

/-- The files of a worker's server: the contents of all stores, and their counters. -/
def files (tee : Tee) : KvMap := tee.stores.kv

section Frame

variable {e : Env} {g : Gcm} {pg : PgEnv}

theorem keeps_askRid {req : Request} (h : req.writesFiles = false) :
    Keeps files (askRid e g · req : Client RID) := by
  intro tee rid tee' hask
  exact handleOps_kv (askRid_eq_some.mp hask) h

theorem keeps_askCmp {req : Request} (h : req.writesFiles = false) :
    Keeps files (askCmp e g · req : Client Int) := by
  intro tee cmp tee' hask
  exact handleOps_kv (askCmp_eq_some.mp hask) h

theorem keeps_askBytes {req : Request} (h : req.writesFiles = false) :
    Keeps files (askBytes e g · req : Client (List UInt8)) := by
  intro tee bs tee' hask
  exact handleOps_kv (askBytes_eq_some.mp hask) h

theorem keeps_convert {α : Type} (value : Option α) : Keeps files (convert value) := by
  intro tee a tee' h
  obtain ⟨b, -, heq⟩ := Option.map_eq_some_iff.mp h
  cases heq
  rfl

theorem keeps_putPlain (t : Ty) (value : t.Val) : Keeps files (putPlain e g t value) := by
  refine (keeps_askBytes rfl).bind fun cipher => ?_
  refine (keeps_askRid rfl).bind fun id => ?_
  exact Keeps.pure _

theorem keeps_getPlain (t : Ty) (id : RID) : Keeps files (getPlain e g t id) := by
  refine (keeps_askBytes rfl).bind fun cipher => ?_
  refine (keeps_askBytes rfl).bind fun plain => ?_
  exact Keeps.pure _

theorem keeps_calcOf (op : CalcOp) (id1 id2 : RID) : Keeps files (calcOf e g op id1 id2) :=
  (keeps_askRid rfl).map _

theorem keeps_cmpOf (op : CmpOp) (test : Int → Bool) (id1 id2 : RID) :
    Keeps files (cmpOf e g op test id1 id2) :=
  (keeps_askCmp rfl).map _

theorem keeps_cmpValueOf (op : CmpOp) (id1 id2 : RID) :
    Keeps files (cmpValueOf e g op id1 id2) :=
  (keeps_askCmp rfl).map _

theorem keeps_floatFromText (text : CStr) : Keeps files (floatFromText e g pg text) :=
  (keeps_convert _).bind fun value => keeps_putPlain .float value

theorem keeps_putText (s : CStr) : Keeps files (putText e g s) :=
  Keeps.ite Keeps.failure (keeps_putPlain .text s)

theorem keeps_sumLoop {send : Tee → List RID → Option (RID × Tee)}
    (h : ∀ bulk, Keeps files (send · bulk : Client RID)) (bulk : List RID)
    (vs : List (Option RID)) : Keeps files (sumLoop send · bulk vs : Client RID) := by
  induction vs generalizing bulk with
  | nil => exact h bulk
  | cons v vs ih =>
      intro tee rid tee' hloop
      simp only [sumLoop] at hloop
      split at hloop
      next =>
        obtain ⟨⟨tmp, tee₁⟩, hsum, hrest⟩ := Option.bind_eq_some_iff.mp hloop
        rw [ih _ tee₁ rid tee' hrest, h bulk tee tmp tee₁ hsum]
      next => exact ih _ tee rid tee' hloop

theorem keeps_sumBulk {send : Tee → List RID → Option (RID × Tee)}
    (h : ∀ bulk, Keeps files (send · bulk : Client RID)) (vs : List (Option RID)) :
    Keeps files (sumBulk send · vs : Client RID) := by
  cases vs with
  | nil => exact Keeps.failure
  | cons v vs => exact keeps_sumLoop h [datum v] vs

theorem keeps_kvInt4SumBulk (vs : List (Option RID)) :
    Keeps files (kvInt4SumBulk e g · vs : Client RID) :=
  keeps_sumBulk (fun _ => keeps_askRid rfl) vs

theorem keeps_kvFloat4SumBulk (vs : List (Option RID)) :
    Keeps files (kvFloat4SumBulk e g · vs : Client RID) :=
  keeps_sumBulk (fun _ => keeps_askRid rfl) vs

theorem keeps_extremumLoop (op : CmpOp) (better : Int) (best : RID) (vs : List (Option RID)) :
    Keeps files (extremumLoop e g op better · best vs : Client RID) := by
  induction vs generalizing best with
  | nil => exact Keeps.pure best
  | cons v vs ih =>
      intro tee rid tee' h
      obtain ⟨⟨cmp, tee₁⟩, hcmp, hrest⟩ := Option.bind_eq_some_iff.mp h
      rw [ih _ tee₁ rid tee' hrest, keeps_askCmp rfl tee cmp tee₁ hcmp]

theorem keeps_extremumBulk (op : CmpOp) (better : Int) (vs : List (Option RID)) :
    Keeps files (extremumBulk e g op better · vs : Client RID) := by
  cases vs with
  | nil => exact Keeps.failure
  | cons v vs => exact keeps_extremumLoop op better (datum v) vs

/-- Every function but the averages leaves the files alone. -/
theorem SqlCall.keeps (call : SqlCall pg) (h : call.isAverage = false) :
    Keeps files (call.eval e g pg) := by
  cases call with
  | kvInt4AvgBulk vs | kvFloat4AvgBulk vs => cases h
  | int4ToKvInt4 | int8ToKvInt4 | kvInt4In | float4ToKvFloat4 => exact keeps_putPlain _ _
  | numericToKvFloat4 | doubleToKvFloat4 | int8ToKvFloat4 | int4ToKvFloat4 | kvFloat4In =>
      exact keeps_floatFromText _
  | kvInt4Out | kvInt4Send | kvFloat4Out | kvTimestampOut =>
      exact (keeps_getPlain _ _).bind fun _ => (keeps_convert _).map _
  | kvTextOut | kvTextSend => exact (keeps_getPlain _ _).map _
  | kvInt4Recv => exact (keeps_convert _).bind fun _ => keeps_putPlain _ _
  | kvTimestampIn => exact (keeps_convert _).bind fun _ => keeps_putPlain _ _
  | kvTextRecv => exact (keeps_convert _).bind fun _ => keeps_putText _
  | kvTextIn => exact keeps_putText _
  | kvInt4SumBulk vs => exact (keeps_kvInt4SumBulk vs).map _
  | kvFloat4SumBulk vs => exact (keeps_kvFloat4SumBulk vs).map _
  | kvInt4MaxBulk | kvInt4MinBulk | kvFloat4MinBulk | kvFloat4MaxBulk =>
      exact (keeps_extremumBulk _ _ _).map _
  | kvInt4Cmp | kvFloat4Cmp | kvTextCmp | kvTimestampCmp => exact keeps_cmpValueOf _ _ _
  | kvInt4Add | kvInt4Sub | kvInt4Mult | kvInt4Div | kvInt4Pow | kvInt4Mod | kvFloat4Add
  | kvFloat4Sub | kvFloat4Mult | kvFloat4Div | kvFloat4Pow | kvFloat4Mod | kvTextConcatenate =>
      exact keeps_calcOf _ _ _
  | substring => exact (keeps_askRid rfl).map _
  | datePart => exact Keeps.ite Keeps.failure ((keeps_askRid rfl).map _)
  | _ => exact keeps_cmpOf _ _ _ _

/-! ## The averages -/

/-- `CMD_INT_PUT` and its siblings give out a slot. -/
theorem put_changes_files {n : Num} {value : n.Val} {tee tee' : Tee} {rid : RID}
    (h : askRid e g tee (.put ⟨.num n, value⟩) = some (rid, tee')) :
    (files tee').curRid (.num n) Partition.default.val =
      (files tee).curRid (.num n) Partition.default.val + 1 := by
  obtain ⟨⟨rid', st⟩, hput, heq⟩ := Option.map_eq_some_iff.mp (askRid_eq_some.mp h)
  cases heq
  obtain ⟨kv, hkv, rfl⟩ := Stores.put_global_eq_some.mp hput
  exact KvMap.put_curRid hkv

theorem kvInt4AvgBulk_curRid {vs : List (Option RID)} {tee tee' : Tee} {rid : RID}
    (h : kvInt4AvgBulk e g tee vs = some (rid, tee')) :
    (files tee').curRid .int Partition.default.val =
      (files tee).curRid .int Partition.default.val + 1 := by
  obtain ⟨⟨⟨sum, div⟩, tee₂⟩, hops, hdiv⟩ := Option.bind_eq_some_iff.mp h
  obtain ⟨⟨sum', tee₁⟩, hsum, hops⟩ := Option.bind_eq_some_iff.mp hops
  obtain ⟨⟨div', tee₂'⟩, hput, heq⟩ := Option.bind_eq_some_iff.mp hops
  cases heq
  rw [keeps_askRid rfl tee₂ rid tee' hdiv, put_changes_files hput,
    keeps_kvInt4SumBulk vs tee sum tee₁ hsum]

theorem kvFloat4AvgBulk_curRid {vs : List (Option RID)} {tee tee' : Tee} {rid : RID}
    (h : kvFloat4AvgBulk e g pg tee vs = some (rid, tee')) :
    (files tee').curRid .float Partition.default.val =
      (files tee).curRid .float Partition.default.val + 1 := by
  obtain ⟨⟨sum, tee₁⟩, hsum, hops⟩ := Option.bind_eq_some_iff.mp h
  obtain ⟨⟨div, tee₂⟩, hput, hdiv⟩ := Option.bind_eq_some_iff.mp hops
  rw [keeps_askRid rfl tee₂ rid tee' hdiv, put_changes_files hput,
    keeps_kvFloat4SumBulk vs tee sum tee₁ hsum]

/-- A call that returns has left the contents and the counters of all files as they were if
and only if it is not one of the averages. -/
theorem query_keeps_files_iff {call : SqlCall pg} {tee tee' : Tee} {result : Datum}
    (h : call.eval e g pg tee = some (result, tee')) :
    tee'.stores.kv = tee.stores.kv ↔ call.isAverage = false := by
  constructor
  · intro hkv
    have hsame (t : Ty) : (files tee').curRid t Partition.default.val =
        (files tee).curRid t Partition.default.val := by
      rw [files, hkv]
      rfl
    cases call with
    | kvInt4AvgBulk vs =>
        obtain ⟨rid, havg, -⟩ := Frame.map_eq_some.mp h
        have hcount := kvInt4AvgBulk_curRid havg
        rw [hsame] at hcount
        omega
    | kvFloat4AvgBulk vs =>
        obtain ⟨rid, havg, -⟩ := Frame.map_eq_some.mp h
        have hcount := kvFloat4AvgBulk_curRid havg
        rw [hsame] at hcount
        omega
    | _ => rfl
  · intro hcall
    exact call.keeps hcall tee result tee' h

theorem query_keeps_files_iff_add :
    ∃ result tee', SqlCall.eval .trivial .plain .trivial (.kvInt4Add 1 2) threeFields =
      some (result, tee') ∧ tee'.stores.kv = threeFields.stores.kv := by
  have hsome : (SqlCall.eval .trivial .plain .trivial (.kvInt4Add 1 2) threeFields).isSome := by
    decide +kernel
  obtain ⟨⟨result, tee'⟩, heval⟩ := Option.isSome_iff_exists.mp hsome
  exact ⟨result, tee', heval, (query_keeps_files_iff heval).mpr rfl⟩

/-- An average over one field gives out a slot of the default partition. -/
theorem average_grows_files :
    ((SqlCall.eval .trivial .plain .trivial (.kvInt4AvgBulk [some 1]) threeFields).map
      fun (_, tee') => ((files threeFields).curRid .int Partition.default.val,
        (files tee').curRid .int Partition.default.val)) = some (3, 4) := by
  decide +kernel

end Frame

end Extension

end Zeno
