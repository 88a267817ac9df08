import Zeno.Kv.Local
import Zeno.Tee.Calc
import Zeno.Wal.Payload

/-!
# Requests and their handler

`handle_ops` runs one request on the stores of a worker.  The operators of
`tee.cpp` read their operands, compute, and put the result in the local store.
The bulk sums and `promote` then free the local operands they read.

What a request does to the local store is said once.  It reads its operands
(`Request.operands`) in the store it finds.  If it has a local result, that is
the value `Request.eval` computes from the operands, put in a fresh slot.  Then
its consumed operands (`Request.frees`) are freed (`handleOps_result`,
`handleOps_other`).  `CMD_LOCAL_CLEAR` alone does something else.  What a request
without a local result leaves alone is said once too (`handleOps_frame`).

Requests are typed here.  Their layout in a region and the batches of requests are in
`Rpc/Region`, `Rpc/KvBatch` and `Rpc/Wire`, and the log file of the TEE is in `Wal/LogFile`.
-/

namespace Zeno

/-! ## Operators -/

/-- The commands with two operands and a local result. -/
inductive CalcOp where
  | intPlus | intMinus | intMult | intDiv | intPow | intMod
  | floatPlus | floatMinus | floatMult | floatDiv | floatPow | floatMod
  | textConcat
deriving DecidableEq

namespace CalcOp

/-- The type of the operands and of the result. -/
def ty : CalcOp → Ty
  | .intPlus | .intMinus | .intMult | .intDiv | .intPow | .intMod => .int
  | .floatPlus | .floatMinus | .floatMult | .floatDiv | .floatPow | .floatMod => .float
  | .textConcat => .text

/-- What the operator computes. -/
def fn (e : Env) : (op : CalcOp) → op.ty.Val → op.ty.Val → Option op.ty.Val
  | .intPlus, l, r => some (BitVec.add l r)
  | .intMinus, l, r => some (BitVec.sub l r)
  | .intMult, l, r => some (BitVec.mul l r)
  | .intDiv, l, r => Zeno.intDiv l r
  | .intPow, l, r => some (e.intPow l r)
  | .intMod, l, r => Zeno.intMod l r
  | .floatPlus, l, r => some (e.floatAdd l r)
  | .floatMinus, l, r => some (e.floatSub l r)
  | .floatMult, l, r => some (e.floatMult l r)
  | .floatDiv, l, r => some (e.floatDiv l r)
  | .floatPow, l, r => some (e.floatPow l r)
  | .floatMod, l, r => some (e.floatMod l r)
  | .textConcat, l, r => some (Zeno.textConcat l r)

end CalcOp

/-- The commands that compare. -/
inductive CmpOp where
  | intCmp | floatCmp | timestampCmp | textLike | textCmp
deriving DecidableEq

namespace CmpOp

/-- The type of the operands. -/
def ty : CmpOp → Ty
  | .intCmp => .int
  | .floatCmp => .float
  | .timestampCmp => .timestamp
  | .textLike | .textCmp => .text

/-- What the operator returns. -/
def fn (e : Env) : (op : CmpOp) → op.ty.Val → op.ty.Val → Int
  | .intCmp, l, r => threeWay (BitVec.slt r l) (BitVec.slt l r)
  | .floatCmp, l, r => threeWay (e.floatLt r l) (e.floatLt l r)
  | .timestampCmp, l, r => threeWay (BitVec.slt r l) (BitVec.slt l r)
  | .textLike, t, p => if matchText t p then 1 else 0
  | .textCmp, l, r => strcmp l r

end CmpOp

/-- `putInt(INVALID_RID, value)` and its siblings, with their default arguments. -/
def Stores.putLocal (st : Stores) (t : Ty) (value : t.Val) : Option (RID × Stores) :=
  st.put t invalidRid value true Partition.default.val

section Operators

variable (e : Env) (st : Stores)

/-- `kv_int_add` and its siblings. -/
def kvCalc (op : CalcOp) (left right : RID) : Option (RID × Stores) := do
  let l ← st.get op.ty left
  let r ← st.get op.ty right
  let value ← op.fn e l r
  st.putLocal op.ty value

/-- `kv_int_add`. -/
def kvIntAdd := kvCalc e st .intPlus
/-- `kv_int_sub`. -/
def kvIntSub := kvCalc e st .intMinus
/-- `kv_int_mult`. -/
def kvIntMult := kvCalc e st .intMult
/-- `kv_int_div`. -/
def kvIntDiv := kvCalc e st .intDiv
/-- `kv_int_pow`. -/
def kvIntPow := kvCalc e st .intPow
/-- `kv_int_mod`. -/
def kvIntMod := kvCalc e st .intMod
/-- `kv_float_add`. -/
def kvFloatAdd := kvCalc e st .floatPlus
/-- `kv_float_sub`. -/
def kvFloatSub := kvCalc e st .floatMinus
/-- `kv_float_mult`. -/
def kvFloatMult := kvCalc e st .floatMult
/-- `kv_float_div`. -/
def kvFloatDiv := kvCalc e st .floatDiv
/-- `kv_float_pow`. -/
def kvFloatPow := kvCalc e st .floatPow
/-- `kv_float_mod`. -/
def kvFloatMod := kvCalc e st .floatMod
/-- `kv_text_concat`. -/
def kvTextConcat := kvCalc e st .textConcat

/-- `kv_int_cmp` and its siblings. -/
def kvCmp (op : CmpOp) (left right : RID) : Option Int := do
  let l ← st.get op.ty left
  let r ← st.get op.ty right
  some (op.fn e l r)

/-- `kv_int_cmp`. -/
def kvIntCmp := kvCmp e st .intCmp
/-- `kv_float_cmp`. -/
def kvFloatCmp := kvCmp e st .floatCmp
/-- `kv_timestamp_cmp`. -/
def kvTimestampCmp := kvCmp e st .timestampCmp
/-- `kv_text_like`. -/
def kvTextLike := kvCmp e st .textLike
/-- `kv_text_cmp`. -/
def kvTextCmp := kvCmp e st .textCmp

/-- `kv_int_sum_bulk` and its sibling: read and add, put the sum, free the operands. -/
def kvSumBulk (t : Ty) {σ : Type} (zero : σ) (add : σ → t.Val → σ) (result : σ → t.Val)
    (keys : List RID) : Option (RID × Stores) := do
  let sum ← keys.foldlM (fun sum key => (st.get t key).map (add sum)) zero
  let (key, st) ← st.putLocal t (result sum)
  some (key, keys.foldl (fun st key => st.freeLocal t key) st)

/-- `kv_int_sum_bulk`. -/
def kvIntSumBulk := kvSumBulk st .int (0 : Num.int.Val) BitVec.add id
/-- `kv_float_sum_bulk`. -/
def kvFloatSumBulk := kvSumBulk st .float e.doubleZero e.doubleAdd e.doubleToFloat

/-- `kv_timestamp_extract_year`. -/
def kvTimestampExtractYear (timestamp : RID) : Option (RID × Stores) := do
  let t ← st.get .timestamp timestamp
  st.putLocal .int (timestampExtractYear t)

/-- `kv_text_substr`. -/
def kvTextSubstr (text start length : RID) : Option (RID × Stores) := do
  let t ← st.get .text text
  let s ← st.get .int start
  let l ← st.get .int length
  let res ← textSubstr t s l
  st.putLocal .text res

end Operators

/-! ## Requests -/

/-- A request, with the data the client puts in it. -/
inductive Request where
  /-- `CMD_LOCAL_CLEAR`. -/
  | localClear
  /-- `CMD_CKPT`. -/
  | ckpt
  /-- `CMD_WAL_MATERIALIZE_BATCH`. -/
  | walMaterialize (items : List WalRidItem)
  /-- `CMD_WAL_REPLAY_PAYLOAD`. -/
  | walReplay (payload : List UInt8)
  /-- `CMD_INT_PLUS` to `CMD_TEXT_CONCAT`. -/
  | calculate (op : CalcOp) (left right : RID)
  /-- `CMD_INT_CMP` to `CMD_TEXT_CMP`. -/
  | cmp (op : CmpOp) (left right : RID)
  /-- `CMD_INT_SUM_BULK`. -/
  | intSumBulk (keys : List RID)
  /-- `CMD_FLOAT_SUM_BULK`. -/
  | floatSumBulk (keys : List RID)
  /-- `CMD_TIMESTAMP_EXTRACT_YEAR`. -/
  | extractYear (timestamp : RID)
  /-- `CMD_TEXT_SUBSTRING`. -/
  | substring (str start length : RID)
  /-- `CMD_INT_PUT_ENC` and its siblings. -/
  | putEnc (t : Ty) (cipher : List UInt8)
  /-- `CMD_INT_PUT` and its siblings. -/
  | put (val : Value)
  /-- `CMD_INT_GET_ENC` and its siblings. -/
  | getEnc (t : Ty) (key : RID)
  /-- `CMD_INT_GET`, `CMD_FLOAT_GET` and `CMD_TIMESTAMP_GET`. -/
  | getNum (n : Num) (key : RID)
  /-- `CMD_TEXT_GET`. -/
  | getText (key : RID)
  /-- `CMD_INT_ENC` and its siblings. -/
  | enc (t : Ty) (plaintext : List UInt8)
  /-- `CMD_INT_DEC` and its siblings. -/
  | dec (t : Ty) (ciphertext : List UInt8)
  /-- `CMD_PROMOTE_INT` and its siblings. -/
  | promote (t : Ty) (loc target partition : RID)

/-- What a request leaves for the client. -/
inductive Reply where
  /-- Nothing but the status. -/
  | done
  /-- A RID. -/
  | rid (id : RID)
  /-- The outcome of a comparison. -/
  | cmp (c : Int)
  /-- A number. -/
  | value (val : Value)
  /-- Bytes: a ciphertext, a plaintext, a payload or a stretch of memory. -/
  | bytes (bs : List UInt8)
deriving DecidableEq

/-- The state of a worker together with the files. -/
structure Tee where
  /-- The counter of the worker's cipher. -/
  iv : Iv
  /-- Its local stores, and the files. -/
  stores : Stores

/-! ## Plaintexts -/

/-- The length a plaintext of a type may have: that of the number, or one that leaves
room for the terminator in the buffer of a text. -/
def plainFits : Ty → Nat → Bool
  | .num n, len => len = n.size
  | .text, len => len < stringLength

/-- The plaintext of a value. -/
def plainBytes : (t : Ty) → t.Val → List UInt8
  | .num n, value => Bytes.le n.size value.toNat
  | .text, value => value.bytes

/-- The value in a decrypted buffer.  A text ends at its first NUL. -/
def plainValue : (t : Ty) → List UInt8 → t.Val
  | .num n, bytes => BitVec.ofNat n.width (Bytes.ofLe bytes)
  | .text, bytes => CStr.ofBytes bytes

/-- `decrypt_bytes`, with the expected length of the plaintext. -/
def decryptBytes (g : Gcm) (src : List UInt8) (expDstLen : Nat) : Option (List UInt8) :=
  if ivSize + tagSize ≤ src.length then do
    let (out, dstLen) ← gcmDecrypt g src
    if dstLen = expDstLen then some out else none
  else none

/-- The decryption of a value: a number has its own length, a text that of its ciphertext,
and it must fit its buffer. -/
def decryptPlain (g : Gcm) (t : Ty) (src : List UInt8) : Option (List UInt8) :=
  let len := src.length - ivSize - tagSize
  if plainFits t len then decryptBytes g src len else none

theorem length_plainBytes_num (n : Num) (value : n.Val) :
    (plainBytes (.num n) value).length = n.size :=
  Bytes.length_le _ _

theorem plainFits_num (n : Num) (value : n.Val) :
    plainFits (.num n) (plainBytes (.num n) value).length = true :=
  decide_eq_true (length_plainBytes_num n value)

/-- A plaintext reads back as the value. -/
theorem plainValue_plainBytes (t : Ty) (value : t.Val) :
    plainValue t (plainBytes t value) = value := by
  cases t with
  | num n =>
      have hpow : 2 ^ n.width = 256 ^ n.size := by
        rw [n.width_eq, Nat.pow_mul]
      have hlt : value.toNat < 256 ^ n.size := hpow ▸ value.isLt
      show BitVec.ofNat n.width (Bytes.ofLe (Bytes.le n.size value.toNat)) = value
      rw [Bytes.ofLe_le_of_lt hlt, BitVec.ofNat_toNat, BitVec.setWidth_eq]
  | text => exact CStr.ext (CStr.ofBytes_of_nulFree value.nulFree)

/-- A plaintext that fits is decrypted. -/
theorem decryptPlain_gcmEncrypt (g : Gcm) (iv : Iv) {t : Ty} {plain : List UInt8}
    (h : plainFits t plain.length = true) :
    decryptPlain g t (gcmEncrypt g iv plain).2 = some plain := by
  have hlt : plain.length < 2 ^ 32 := by
    cases t with
    | num n =>
        have heq : plain.length = n.size := of_decide_eq_true h
        rw [heq]
        cases n <;> decide
    | text =>
        have hlt : plain.length < stringLength := of_decide_eq_true h
        exact hlt.trans (by decide)
  have hlen := length_gcmEncrypt g iv plain
  have hsub : ivSize + tagSize + plain.length - ivSize - tagSize = plain.length := by omega
  simp only [decryptPlain, decryptBytes, hlen, hsub, h, gcmDecrypt_gcmEncrypt g iv hlt, if_true,
    if_pos (Nat.le_add_right _ _), Option.bind_eq_bind, Option.bind_some]

/-! ## The handler -/

/-- The `STRING_LENGTH` bytes from a text on, as `CMD_TEXT_GET` copies them.  Past the end
of the file they are undefined. -/
def Stores.textWindow (e : Env) (st : Stores) (key : RID) : Option (List UInt8) :=
  if islocal key then do
    let value ← st.get .text key
    let behind := (List.range stringLength).map (e.behind value)
    some ((value.terminated ++ behind).take stringLength)
  else if ridPartition key ≠ ridLocalPartition ∧ (ridIndex key).toNat < textMaxArrayEleNum then
    let s := st.kv.text (ridPartition key)
    let pos := s.offsets (ridIndex key).toNat
    if pos + stringLength ≤ storeSize then
      some ((List.range stringLength).map fun i => s.store (pos + i))
    else none
  else none

/-- The dispatch of `handle_ops` over the calculations. -/
def handleCalc (e : Env) (st : Stores) : CalcOp → RID → RID → Option (RID × Stores)
  | .intPlus => kvIntAdd e st
  | .intMinus => kvIntSub e st
  | .intMult => kvIntMult e st
  | .intDiv => kvIntDiv e st
  | .intPow => kvIntPow e st
  | .intMod => kvIntMod e st
  | .floatPlus => kvFloatAdd e st
  | .floatMinus => kvFloatSub e st
  | .floatMult => kvFloatMult e st
  | .floatDiv => kvFloatDiv e st
  | .floatPow => kvFloatPow e st
  | .floatMod => kvFloatMod e st
  | .textConcat => kvTextConcat e st

/-- The dispatch of `handle_ops` over the comparisons. -/
def handleCmp (e : Env) (st : Stores) : CmpOp → RID → RID → Option Int
  | .intCmp => kvIntCmp e st
  | .floatCmp => kvFloatCmp e st
  | .timestampCmp => kvTimestampCmp e st
  | .textLike => kvTextLike e st
  | .textCmp => kvTextCmp e st

/-- Store the RID an operation returned in the request. -/
def Tee.answer (tee : Tee) (out : Option (RID × Stores)) : Option (Reply × Tee) :=
  out.map fun (rid, st) => (.rid rid, { tee with stores := st })

/-- `handle_ops`. -/
def handleOps (e : Env) (g : Gcm) (tee : Tee) : Request → Option (Reply × Tee)
  | .localClear =>
      some (.done, { tee with stores := { tee.stores with loc := tee.stores.loc.clear } })
  | .ckpt => some (.done, tee)
  | .walMaterialize items =>
      (materializeBatch g tee.iv tee.stores.kv items zenoPayloadCapacity).map
        fun (iv, payload) => (.bytes payload, { tee with iv := iv })
  | .walReplay payload =>
      if payload.length ≤ reqRegionSize - 24 then
        (replayPayload g tee.stores.kv payload).map
          fun kv => (.done, { tee with stores := { tee.stores with kv := kv } })
      else none
  | .calculate op left right => tee.answer (handleCalc e tee.stores op left right)
  | .cmp op left right => (handleCmp e tee.stores op left right).map fun c => (.cmp c, tee)
  | .intSumBulk keys => tee.answer (kvIntSumBulk tee.stores keys)
  | .floatSumBulk keys => tee.answer (kvFloatSumBulk e tee.stores keys)
  | .extractYear timestamp => tee.answer (kvTimestampExtractYear tee.stores timestamp)
  | .substring str start length => tee.answer (kvTextSubstr tee.stores str start length)
  | .putEnc t cipher => do
      let plain ← decryptPlain g t cipher
      tee.answer (tee.stores.putLocal t (plainValue t plain))
  | .put ⟨t, value⟩ =>
      tee.answer (tee.stores.put t invalidRid value false Partition.default.val)
  | .getEnc t key => do
      let value ← tee.stores.get t key
      if plainFits t (plainBytes t value).length then
        let (iv, out) := gcmEncrypt g tee.iv (plainBytes t value)
        some (.bytes out, { tee with iv := iv })
      else none
  | .getNum n key => do
      let value ← tee.stores.get (.num n) key
      some (.value ⟨.num n, value⟩, tee)
  | .getText key => (tee.stores.textWindow e key).map fun bs => (.bytes bs, tee)
  | .enc t plaintext =>
      if plainFits t plaintext.length then
        let (iv, out) := gcmEncrypt g tee.iv plaintext
        some (.bytes out, { tee with iv := iv })
      else none
  | .dec t ciphertext => (decryptPlain g t ciphertext).map fun plain => (.bytes plain, tee)
  | .promote t loc target partition => do
      let value ← tee.stores.get t loc
      let (rid, st) ← tee.stores.put t target value false partition
      some (.rid rid, { tee with stores := st.freeLocal t loc })

/-! ## What a request does to the local store -/

/-- The RIDs a request reads, with their types. -/
def Request.operands : Request → List (Ty × RID)
  | .calculate op left right => [(op.ty, left), (op.ty, right)]
  | .cmp op left right => [(op.ty, left), (op.ty, right)]
  | .intSumBulk keys => keys.map (Ty.int, ·)
  | .floatSumBulk keys => keys.map (Ty.float, ·)
  | .extractYear timestamp => [(.timestamp, timestamp)]
  | .substring str start length => [(.text, str), (.int, start), (.int, length)]
  | .getEnc t key => [(t, key)]
  | .getNum n key => [(.num n, key)]
  | .getText key => [(.text, key)]
  | .promote t loc _ _ => [(t, loc)]
  | .localClear | .ckpt | .walMaterialize _ | .walReplay _ | .putEnc _ _ | .put _ | .enc _ _
  | .dec _ _ => []

/-- The operands a request frees if they are local. -/
def Request.frees : Request → List (Ty × RID)
  | .intSumBulk keys => keys.map (Ty.int, ·)
  | .floatSumBulk keys => keys.map (Ty.float, ·)
  | .promote t loc _ _ => [(t, loc)]
  | _ => []

/-- The type of the local result of a request. -/
def Request.result? : Request → Option Ty
  | .calculate op _ _ => some op.ty
  | .intSumBulk _ => some .int
  | .floatSumBulk _ => some .float
  | .extractYear _ => some .int
  | .substring _ _ _ => some .text
  | .putEnc t _ => some t
  | _ => none

/-- The value of a request with a local result, from the values it reads. -/
def Request.eval (e : Env) (g : Gcm) (st : Stores) : Request → Option Value
  | .calculate op left right => do
      let l ← st.get op.ty left
      let r ← st.get op.ty right
      let value ← op.fn e l r
      some ⟨op.ty, value⟩
  | .intSumBulk keys =>
      (keys.foldlM (fun sum key => (st.get .int key).map (BitVec.add sum)) 0).map (⟨.int, ·⟩)
  | .floatSumBulk keys =>
      (keys.foldlM (fun sum key => (st.get .float key).map (e.doubleAdd sum)) e.doubleZero).map
        fun sum => ⟨.float, e.doubleToFloat sum⟩
  | .extractYear timestamp =>
      (st.get .timestamp timestamp).map fun t => ⟨.int, timestampExtractYear t⟩
  | .substring str start length => do
      let t ← st.get .text str
      let s ← st.get .int start
      let l ← st.get .int length
      let res ← textSubstr t s l
      some ⟨.text, res⟩
  | .putEnc t cipher => (decryptPlain g t cipher).map fun plain => ⟨t, plainValue t plain⟩
  | _ => none

/-- Free a list of RIDs. -/
def Stores.freeAll (st : Stores) (xs : List (Ty × RID)) : Stores :=
  xs.foldl (fun st x => st.freeLocal x.1 x.2) st

theorem handleCalc_eq (e : Env) (st : Stores) (op : CalcOp) (left right : RID) :
    handleCalc e st op left right = kvCalc e st op left right := by
  cases op <;> rfl

theorem kvSumBulk_eq (st : Stores) (t : Ty) {σ : Type} (zero : σ) (add : σ → t.Val → σ)
    (result : σ → t.Val) (keys : List RID) :
    kvSumBulk st t zero add result keys =
      (keys.foldlM (fun sum key => (st.get t key).map (add sum)) zero).bind fun sum =>
        (st.putLocal t (result sum)).map fun (rid, st) => (rid, st.freeAll (keys.map (t, ·))) := by
  simp only [kvSumBulk, Option.bind_eq_bind, Option.map_eq_bind, Function.comp_def,
    Stores.freeAll, List.foldl_map]

/-- A request with a local result puts the value it computes and frees what it consumed. -/
theorem handleOps_result (e : Env) (g : Gcm) (tee : Tee) {req : Request} {t : Ty}
    (h : req.result? = some t) :
    handleOps e g tee req = (req.eval e g tee.stores).bind fun val =>
      (tee.stores.putLocal val.1 val.2).map fun (rid, st) =>
        (.rid rid, { tee with stores := st.freeAll req.frees }) := by
  cases req with
  | calculate op left right =>
      simp only [handleOps, Tee.answer, handleCalc_eq, kvCalc, Request.eval, Option.bind_eq_bind,
        Option.map_bind, Option.bind_assoc, Function.comp_def, Option.bind_some]
      rfl
  | intSumBulk keys =>
      simp only [handleOps, Tee.answer, kvIntSumBulk, kvSumBulk_eq, Request.eval, Option.map_bind,
        Function.comp_def, Option.bind_map, Option.map_map]
      rfl
  | floatSumBulk keys =>
      simp only [handleOps, Tee.answer, kvFloatSumBulk, kvSumBulk_eq, Request.eval,
        Option.map_bind, Function.comp_def, Option.bind_map, Option.map_map]
      rfl
  | extractYear timestamp =>
      simp only [handleOps, Tee.answer, kvTimestampExtractYear, Request.eval,
        Option.bind_eq_bind, Option.map_bind, Function.comp_def, Option.bind_map]
      rfl
  | substring str start length =>
      simp only [handleOps, Tee.answer, kvTextSubstr, Request.eval, Option.bind_eq_bind,
        Option.map_bind, Option.bind_assoc, Function.comp_def, Option.bind_some]
      rfl
  | putEnc t cipher =>
      simp only [handleOps, Tee.answer, Request.eval, Option.bind_eq_bind, Function.comp_def,
        Option.bind_map]
      rfl
  | _ => cases h

theorem handleOps_result_cases {e : Env} {g : Gcm} {tee tee' : Tee} {req : Request}
    {reply : Reply} {t : Ty} (h : handleOps e g tee req = some (reply, tee'))
    (hres : req.result? = some t) :
    ∃ val rid st, req.eval e g tee.stores = some val ∧
      tee.stores.putLocal val.1 val.2 = some (rid, st) ∧ reply = .rid rid ∧
        tee' = { tee with stores := st.freeAll req.frees } := by
  simp only [handleOps_result e g tee hres, Option.bind_eq_some_iff, Option.map_eq_some_iff] at h
  obtain ⟨val, hval, ⟨rid, st⟩, hput, heq⟩ := h
  obtain ⟨hreply, htee⟩ := Prod.mk.inj heq
  exact ⟨val, rid, st, hval, hput, hreply.symm, htee.symm⟩

theorem Request.eval_ty {e : Env} {g : Gcm} {st : Stores} {req : Request} {val : Value}
    (h : req.eval e g st = some val) : req.result? = some val.1 := by
  cases req with
  | calculate op left right =>
      simp only [Request.eval, Option.bind_eq_bind, Option.bind_eq_some_iff] at h
      obtain ⟨l, -, r, -, v, -, heq⟩ := h
      cases heq
      rfl
  | substring str start length =>
      simp only [Request.eval, Option.bind_eq_bind, Option.bind_eq_some_iff] at h
      obtain ⟨t, -, s, -, l, -, res, -, heq⟩ := h
      cases heq
      rfl
  | intSumBulk keys | floatSumBulk keys | extractYear timestamp | putEnc t cipher =>
      simp only [Request.eval, Option.map_eq_some_iff] at h
      obtain ⟨v, -, rfl⟩ := h
      rfl
  | _ => cases h

theorem Stores.put_global_loc {st st' : Stores} {t : Ty} {key rid : RID} {value : t.Val}
    {partition : RID} (h : st.put t key value false partition = some (rid, st')) :
    st'.loc = st.loc := by
  simp only [Stores.put, Bool.false_eq_true, if_false] at h
  split at h
  next =>
    obtain ⟨kv, -, heq⟩ := Option.map_eq_some_iff.mp h
    cases heq
    rfl
  next =>
    obtain ⟨out, -, heq⟩ := Option.map_eq_some_iff.mp h
    cases heq
    rfl

theorem Stores.freeLocal_loc {st st' : Stores} (h : st.loc = st'.loc) (t : Ty) (key : RID) :
    (st.freeLocal t key).loc = (st'.freeLocal t key).loc := by
  unfold Stores.freeLocal
  split
  next => simp only [h]
  next => exact h

/-- The requests that write to the files. -/
def Request.writesFiles : Request → Bool
  | .walReplay _ | .put _ | .promote _ _ _ _ => true
  | _ => false

/-- The requests that leave a message: `CMD_INT_GET_ENC`, `CMD_INT_ENC` and their siblings,
and a batch of the log that is not empty. -/
def Request.encrypts : Request → Bool
  | .walMaterialize items => !items.isEmpty
  | .getEnc _ _ | .enc _ _ => true
  | _ => false

/-- What a request without a local result leaves alone. -/
theorem handleOps_frame {e : Env} {g : Gcm} {tee tee' : Tee} {req : Request} {reply : Reply}
    (h : handleOps e g tee req = some (reply, tee')) (hres : req.result? = none) :
    (req ≠ .localClear → tee'.stores.loc = (tee.stores.freeAll req.frees).loc) ∧
      (req.writesFiles = false → tee'.stores.kv = tee.stores.kv) ∧
        (req.encrypts = false → tee'.iv = tee.iv) := by
  cases req with
  | localClear =>
      cases h
      exact ⟨fun hclear => absurd rfl hclear, fun _ => rfl, fun _ => rfl⟩
  | ckpt =>
      cases h
      exact ⟨fun _ => rfl, fun _ => rfl, fun _ => rfl⟩
  | walMaterialize items =>
      simp only [handleOps, Option.map_eq_some_iff] at h
      obtain ⟨out, hout, heq⟩ := h
      cases heq
      refine ⟨fun _ => rfl, fun _ => rfl, fun hempty => ?_⟩
      cases items with
      | nil =>
          cases hout
          rfl
      | cons item items => cases hempty
  | cmp op left right | getText key | dec t ciphertext =>
      simp only [handleOps, Option.map_eq_some_iff] at h
      obtain ⟨out, -, heq⟩ := h
      cases heq
      exact ⟨fun _ => rfl, fun _ => rfl, fun _ => rfl⟩
  | walReplay payload =>
      simp only [handleOps, Option.ite_none_right_eq_some, Option.map_eq_some_iff] at h
      obtain ⟨-, kv, -, heq⟩ := h
      cases heq
      exact ⟨fun _ => rfl, fun hfiles => absurd hfiles Bool.noConfusion,
        fun _ => rfl⟩
  | put val =>
      simp only [handleOps, Tee.answer, Option.map_eq_some_iff] at h
      obtain ⟨⟨rid, st⟩, hput, heq⟩ := h
      cases heq
      exact ⟨fun _ => Stores.put_global_loc hput,
        fun hfiles => absurd hfiles Bool.noConfusion, fun _ => rfl⟩
  | getEnc t key =>
      simp only [handleOps, Option.bind_eq_bind, Option.bind_eq_some_iff,
        Option.ite_none_right_eq_some] at h
      obtain ⟨value, -, -, heq⟩ := h
      cases heq
      exact ⟨fun _ => rfl, fun _ => rfl, fun hplain => absurd hplain Bool.noConfusion⟩
  | getNum n key =>
      simp only [handleOps, Option.bind_eq_bind, Option.bind_eq_some_iff] at h
      obtain ⟨value, -, heq⟩ := h
      cases heq
      exact ⟨fun _ => rfl, fun _ => rfl, fun _ => rfl⟩
  | enc t plaintext =>
      simp only [handleOps, Option.ite_none_right_eq_some] at h
      obtain ⟨-, heq⟩ := h
      cases heq
      exact ⟨fun _ => rfl, fun _ => rfl, fun hplain => absurd hplain Bool.noConfusion⟩
  | promote t loc target partition =>
      simp only [handleOps, Option.bind_eq_bind, Option.bind_eq_some_iff] at h
      obtain ⟨value, -, ⟨rid, st⟩, hput, heq⟩ := h
      cases heq
      exact ⟨fun _ => Stores.freeLocal_loc (Stores.put_global_loc hput) t loc,
        fun hfiles => absurd hfiles Bool.noConfusion, fun _ => rfl⟩
  | _ => cases hres

/-- A request without a local result only frees what it consumed. -/
theorem handleOps_other {e : Env} {g : Gcm} {tee tee' : Tee} {req : Request} {reply : Reply}
    (h : handleOps e g tee req = some (reply, tee')) (hres : req.result? = none)
    (hclear : req ≠ .localClear) : tee'.stores.loc = (tee.stores.freeAll req.frees).loc :=
  (handleOps_frame h hres).1 hclear

theorem Request.mem_operands_of_mem_frees {req : Request} {x : Ty × RID} (h : x ∈ req.frees) :
    x ∈ req.operands := by
  cases req with
  | intSumBulk keys | floatSumBulk keys | promote t loc target partition => exact h
  | _ => cases h

namespace Stores

/-- What a local RID denotes depends on the local store only. -/
theorem Denotes.of_loc {st st' : Stores} {t : Ty} {key : RID} {value : t.Val}
    (held : st.Denotes t key value) (hl : islocal key = true) (h : st'.loc = st.loc) :
    st'.Denotes t key value := by
  rw [denotes_local hl] at held ⊢
  rw [h]
  exact held

/-- Freeing RIDs keeps what every other RID denotes. -/
theorem Denotes.freeAll {st : Stores} {xs : List (Ty × RID)} {t : Ty} {key : RID} {value : t.Val}
    (held : st.Denotes t key value) (hne : ∀ x ∈ xs, islocal x.2 = true → x ≠ (t, key)) :
    (st.freeAll xs).Denotes t key value := by
  induction xs generalizing st with
  | nil => exact held
  | cons x xs ih =>
      show ((st.freeLocal x.1 x.2).freeAll xs).Denotes t key value
      refine ih ?_ fun y hy => hne y (List.mem_cons_of_mem _ hy)
      cases hl : islocal x.2 with
      | true => exact held.freeLocal (hne x List.mem_cons_self hl).symm
      | false =>
          rw [freeLocal_global hl]
          exact held

@[simp] theorem freeAll_slots (st : Stores) (xs : List (Ty × RID)) (t : Ty) :
    (st.freeAll xs).slots t = st.slots t := by
  induction xs generalizing st with
  | nil => rfl
  | cons x xs ih =>
      show ((st.freeLocal x.1 x.2).freeAll xs).slots t = _
      rw [ih, freeLocal_slots]

@[simp] theorem freeAll_kv (st : Stores) (xs : List (Ty × RID)) : (st.freeAll xs).kv = st.kv := by
  induction xs generalizing st with
  | nil => rfl
  | cons x xs ih =>
      show ((st.freeLocal x.1 x.2).freeAll xs).kv = _
      rw [ih, freeLocal_kv]

end Stores

/-- A request keeps what a local RID denotes, unless it frees it or clears the store. -/
theorem handleOps_keeps {e : Env} {g : Gcm} {tee tee' : Tee} {req : Request} {reply : Reply}
    {t : Ty} {key : RID} {value : t.Val} (h : handleOps e g tee req = some (reply, tee'))
    (hclear : req ≠ .localClear) (hl : islocal key = true)
    (hfrees : ∀ x ∈ req.frees, islocal x.2 = true → x ≠ (t, key))
    (held : tee.stores.Denotes t key value) : tee'.stores.Denotes t key value := by
  cases hres : req.result? with
  | none => exact (held.freeAll hfrees).of_loc hl (handleOps_other h hres hclear)
  | some t' =>
      obtain ⟨val, rid, st, -, hput, -, rfl⟩ := handleOps_result_cases h hres
      exact (held.put_local hput).freeAll hfrees

/-- A local result is a RID that denoted nothing, and it denotes the value the request
computed.  The operands freed must have denoted something. -/
theorem handleOps_returns {e : Env} {g : Gcm} {tee tee' : Tee} {req : Request} {reply : Reply}
    {val : Value} (h : handleOps e g tee req = some (reply, tee'))
    (hval : req.eval e g tee.stores = some val)
    (hfrees : ∀ x ∈ req.frees, islocal x.2 = true → ∃ v, tee.stores.Denotes x.1 x.2 v) :
    ∃ rid, reply = .rid rid ∧ islocal rid = true ∧ (∀ v, ¬ tee.stores.Denotes val.1 rid v) ∧
      tee'.stores.Denotes val.1 rid val.2 := by
  simp only [handleOps_result e g tee (Request.eval_ty hval), hval, Option.bind_some,
    Option.map_eq_some_iff] at h
  obtain ⟨⟨rid, st⟩, hput, heq⟩ := h
  cases heq
  obtain ⟨hl, hfresh, hdenotes⟩ := Stores.put_local_denotes hput
  refine ⟨rid, rfl, hl, hfresh, hdenotes.freeAll fun x hx hlx hxeq => ?_⟩
  obtain ⟨v, hv⟩ := hfrees x hx hlx
  subst hxeq
  exact hfresh v hv

/-! ## What a request does to the files, to the cipher and to the vectors -/

/-- A request that does not write to the files leaves them as they are. -/
theorem handleOps_kv {e : Env} {g : Gcm} {tee tee' : Tee} {req : Request} {reply : Reply}
    (h : handleOps e g tee req = some (reply, tee')) (hreq : req.writesFiles = false) :
    tee'.stores.kv = tee.stores.kv := by
  cases hres : req.result? with
  | some t =>
      obtain ⟨val, rid, st, -, hput, -, rfl⟩ := handleOps_result_cases h hres
      rw [Stores.freeAll_kv, Stores.put_local_kv hput]
  | none => exact (handleOps_frame h hres).2.1 hreq

/-- A request that leaves no message leaves the counter of the cipher as it is. -/
theorem handleOps_iv {e : Env} {g : Gcm} {tee tee' : Tee} {req : Request} {reply : Reply}
    (h : handleOps e g tee req = some (reply, tee')) (hreq : req.encrypts = false) :
    tee'.iv = tee.iv := by
  cases hres : req.result? with
  | some t =>
      obtain ⟨val, rid, st, -, -, -, rfl⟩ := handleOps_result_cases h hres
      rfl
  | none => exact (handleOps_frame h hres).2.2 hreq

/-- A request adds at most one slot to the local vector of a type. -/
theorem handleOps_slots {e : Env} {g : Gcm} {tee tee' : Tee} {req : Request} {reply : Reply}
    (h : handleOps e g tee req = some (reply, tee')) (t : Ty) :
    tee'.stores.slots t ≤ tee.stores.slots t + 1 := by
  cases hres : req.result? with
  | some t' =>
      obtain ⟨val, rid, st, -, hput, -, rfl⟩ := handleOps_result_cases h hres
      rw [Stores.freeAll_slots]
      exact (Stores.put_local_slots hput t).2
  | none =>
      by_cases hclear : req = .localClear
      · subst hclear
        cases h
        exact Nat.zero_le _
      · have hslots : tee'.stores.slots t = (tee.stores.freeAll req.frees).slots t := by
          unfold Stores.slots
          rw [handleOps_other h hres hclear]
        rw [hslots, Stores.freeAll_slots]
        exact Nat.le_succ _

/-! ## The server -/

/-- What a worker process keeps to itself. -/
structure Worker where
  /-- The counter of its cipher. -/
  iv : Iv
  /-- `localkv_ops`. -/
  loc : LocalKVStoreOperator

/-- The files and the workers. -/
structure Server where
  /-- The files. -/
  kv : KvMap
  /-- The workers. -/
  worker : Nat → Worker

/-- `fork_ops_worker`: a worker serves the regions from its number on, in steps of
`worker_count`. -/
def workerOf (workerCount region : Nat) : Nat := region % workerCount

namespace Server

/-- A server with empty files and new workers. -/
def new : Server := ⟨.fresh, fun _ => ⟨.zero, .empty⟩⟩

/-- What a worker works on. -/
def tee (s : Server) (w : Nat) : Tee := ⟨(s.worker w).iv, ⟨(s.worker w).loc, s.kv⟩⟩

/-- Back from a worker. -/
def setTee (s : Server) (w : Nat) (tee : Tee) : Server :=
  { kv := tee.stores.kv, worker := Function.update s.worker w ⟨tee.iv, tee.stores.loc⟩ }

/-- What a client does through one worker. -/
def on {α : Type} (s : Server) (w : Nat) (client : Tee → Option (α × Tee)) :
    Option (α × Server) :=
  (client (s.tee w)).map fun (a, tee) => (a, s.setTee w tee)

/-- A worker handles a request. -/
def handle (e : Env) (g : Gcm) (s : Server) (w : Nat) (req : Request) :
    Option (Reply × Server) :=
  s.on w (handleOps e g · req)

@[simp] theorem setTee_tee_self (s : Server) (w : Nat) (tee : Tee) :
    (s.setTee w tee).tee w = tee := by
  simp [setTee, Server.tee]

theorem setTee_tee_loc {s : Server} {w w' : Nat} (h : w' ≠ w) (tee : Tee) :
    ((s.setTee w tee).tee w').stores.loc = (s.tee w').stores.loc := by
  simp [setTee, Server.tee, h]

end Server

end Zeno
