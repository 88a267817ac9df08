import Zeno.Lib.Fields
import Zeno.Rpc.Calls
import Zeno.Rpc.KvRequest
import Zeno.Sql.Sum

/-!
# Every request as bytes

`Region` has the structs of the text requests and of the puts and gets of plain values.
Here are the others of `request_types.h`, so that every request a client of the repository
sends is laid out: calculations and comparisons, bulk sums, the year and the substring,
encryptions, decryptions, puts and gets of encrypted numbers, promotions, and the requests
of the log.

The client assigns the fields of a struct (`Request.fields`), the worker reads them where
`handle_ops` reads them (`handleFixed`) and assigns its results (`Request.results`), and the
client reads those (`Request.copyResultFrom`).  None of them looks at what an earlier
request has left in the region, and no result lies where a field is still to be read.  So a
request that is sent is the one that is handled.
-/

namespace Zeno

open Slice

/-! ## The commands -/

/-- The commands whose structs `Region` does not have. -/
inductive FixedCommand where
  /-- `CMD_LOCAL_CLEAR`. -/
  | localClear
  /-- `CMD_CKPT`. -/
  | ckpt
  /-- `CMD_WAL_MATERIALIZE_BATCH`. -/
  | walMaterialize
  /-- `CMD_WAL_REPLAY_PAYLOAD`. -/
  | walReplay
  /-- `CMD_INT_PLUS` to `CMD_TEXT_CONCAT`. -/
  | calculate (op : CalcOp)
  /-- `CMD_INT_CMP` to `CMD_TEXT_CMP`. -/
  | cmp (op : CmpOp)
  /-- `CMD_INT_SUM_BULK`. -/
  | intSumBulk
  /-- `CMD_FLOAT_SUM_BULK`. -/
  | floatSumBulk
  /-- `CMD_TIMESTAMP_EXTRACT_YEAR`. -/
  | extractYear
  /-- `CMD_TEXT_SUBSTRING`. -/
  | substring
  /-- `CMD_INT_ENC` and its siblings. -/
  | enc (n : Num)
  /-- `CMD_INT_DEC` and its siblings. -/
  | dec (n : Num)
  /-- `CMD_INT_PUT_ENC` and its siblings. -/
  | putEnc (n : Num)
  /-- `CMD_INT_GET_ENC` and its siblings. -/
  | getEnc (n : Num)
  /-- `CMD_PROMOTE_INT` and its siblings. -/
  | promote (t : Ty)

namespace FixedCommand

/-- The number of a command. -/
def code : FixedCommand → Nat
  | .localClear => 53
  | .ckpt => 60
  | .walMaterialize => 58
  | .walReplay => 59
  | .calculate op => op.cmd.toNat
  | .cmp op => op.cmd.toNat
  | .intSumBulk => 34
  | .floatSumBulk => 42
  | .extractYear => 48
  | .substring => 44
  | .enc n => (11 + 2 * (Ty.num n).cmdIndex).toNat
  | .dec n => (12 + 2 * (Ty.num n).cmdIndex).toNat
  | .putEnc n => (19 + 2 * (Ty.num n).cmdIndex).toNat
  | .getEnc n => (20 + 2 * (Ty.num n).cmdIndex).toNat
  | .promote t => (49 + t.cmdIndex).toNat

/-- The commands, one after the other. -/
def all : List FixedCommand :=
  [.localClear, .ckpt, .walMaterialize, .walReplay, .intSumBulk, .floatSumBulk, .extractYear,
    .substring] ++
  [CalcOp.intPlus, .intMinus, .intMult, .intDiv, .intMod, .intPow, .floatPlus, .floatMinus,
    .floatMult, .floatDiv, .floatMod, .floatPow, .textConcat].map .calculate ++
  [CmpOp.intCmp, .floatCmp, .timestampCmp, .textLike, .textCmp].map .cmp ++
  [Num.int, .float, .timestamp].flatMap (fun n => [.enc n, .dec n, .putEnc n, .getEnc n]) ++
  [Ty.int, .float, .text, .timestamp].map .promote

/-- The command with a number. -/
def ofCode (n : Nat) : Option FixedCommand := all.find? fun cmd => cmd.code == n

/-- Commands of one number are equal. -/
theorem ofCode_code (cmd : FixedCommand) : ofCode cmd.code = some cmd := by
  cases cmd with
  | calculate op => cases op <;> rfl
  | cmp op => cases op <;> rfl
  | enc n | dec n | putEnc n | getEnc n => cases n <;> rfl
  | promote t =>
      cases t with
      | num n => cases n <;> rfl
      | text => rfl
  | _ => rfl

theorem code_lt (cmd : FixedCommand) : cmd.code < 256 ^ 4 := by
  cases cmd with
  | calculate op => cases op <;> decide
  | cmp op => cases op <;> decide
  | enc n | dec n | putEnc n | getEnc n => cases n <;> decide
  | promote t =>
      cases t with
      | num n => cases n <;> decide
      | text => decide
  | _ => decide

end FixedCommand

/-- The other commands have other numbers. -/
theorem Command.fixed_none (cmd : Command) : FixedCommand.ofCode cmd.code = none := by
  cases cmd with
  | put t | get t =>
      cases t with
      | num n => cases n <;> rfl
      | text => rfl
  | _ => rfl

/-! ## Fields that the structs share -/

/-- A RID in a struct. -/
def getRid (pos : Nat) (buf : List UInt8) : Option RID := (getLe 8 pos buf).map (BitVec.ofNat 64)

/-- An `int` in a struct. -/
def getInt (pos : Nat) (buf : List UInt8) : Option Int :=
  (getLe 4 pos buf).map fun n => (BitVec.ofNat 32 n).toInt

/-- RIDs, one behind the other. -/
def getRids (pos : Nat) : Nat → List UInt8 → Option (List RID)
  | 0, _ => some []
  | n + 1, buf => do
      let rid ← getRid pos buf
      let rids ← getRids (pos + 8) n buf
      some (rid :: rids)

/-- The keys of a `BulkRequestData`.  A negative number of them is a huge `size_t`, so that the
reads leave the region. -/
def getKeys (buf : List UInt8) : Option (List RID) := do
  let size ← getInt 12 buf
  if 0 ≤ size then getRids 16 size.toNat buf else none

/-- `WalRidItem`s, one behind the other.  `materialize_payload` ends the worker where a type
has another number. -/
def getItems (pos : Nat) : Nat → List UInt8 → Option (List WalRidItem)
  | 0, _ => some []
  | n + 1, buf => do
      let type ← getLe 4 pos buf
      let ty ← if type < 256 then Ty.ofWalType (UInt8.ofNat type) else none
      let rid ← getRid (pos + 8) buf
      let items ← getItems (pos + 16) n buf
      some (⟨ty, rid⟩ :: items)

/-- A RID is stored. -/
def ridField (pos : Nat) (rid : RID) : Placed := (pos, Bytes.le 8 rid.toNat)

/-- RIDs are stored, one behind the other. -/
def ridFields (pos : Nat) : List RID → List Placed
  | [] => []
  | rid :: rids => ridField pos rid :: ridFields (pos + 8) rids

/-- `WalRidItem`s are stored, one behind the other.  Between the type and the RID there are
four bytes that nothing reads. -/
def itemFields (pos : Nat) : List WalRidItem → List Placed
  | [] => []
  | item :: items =>
      (pos, Bytes.le 4 item.ty.walType.toNat) :: ridField (pos + 8) item.rid ::
        itemFields (pos + 16) items

/-- A `Str` or an `EncStr` is stored. -/
def sizedFields (pos : Nat) (data : List UInt8) : List Placed :=
  [(pos, Bytes.le 4 data.length), (pos + 4, data)]

/-- The bytes of a `Str` or an `EncStr`. -/
def getSized (pos : Nat) (buf : List UInt8) : Option (List UInt8) := do
  let len ← getLe 4 pos buf
  get (pos + 4) len buf

/-- `sizeof(EncInt)` and its siblings. -/
def sizeofEnc (n : Num) : Nat := ivSize + tagSize + n.size

/-- The plaintext in an `EncIntEncRequestData` and its siblings. -/
def encPlainPos : Num → Nat
  | .int | .float => 12
  | .timestamp => 16

/-- The ciphertext behind it. -/
def encCipherPos (n : Num) : Nat := encPlainPos n + n.size

/-- The plaintext in an `EncIntDecRequestData` and its siblings, behind the ciphertext. -/
def decPlainPos (n : Num) : Nat := 12 + sizeofEnc n

/-- The payload in a `WalMaterializeBatchRequestData`. -/
def payloadPos : Nat := 24 + walMaterializeRidBatchSize * 16

/-! ## The worker -/

/-- The reply of a request that has no result. -/
def answerDone (buf : List UInt8) : Reply × Tee → Option (Tee × List UInt8)
  | (.done, tee) => some (tee, buf)
  | _ => none

/-- The outcome of a comparison, at its place in the struct. -/
def answerCmp (pos : Nat) (buf : List UInt8) : Reply × Tee → Option (Tee × List UInt8)
  | (.cmp c, tee) => (putLe 4 pos (BitVec.ofInt 32 c).toNat buf).map (tee, ·)
  | _ => none

/-- Bytes, at their place in the struct. -/
def answerBytes (pos : Nat) (buf : List UInt8) : Reply × Tee → Option (Tee × List UInt8)
  | (.bytes bs, tee) => (put pos bs buf).map (tee, ·)
  | _ => none

/-- `handle_ops` on one of these structs.  Behind `BaseRequest`, of 12 bytes, the RIDs of a
`CalcRequestData`, a `CmpRequestData`, a `TimestampExtractYearRequestData`, a
`SubstringRequestData` and a `PromoteRequestData` lie from 16 on, with the result behind
them.  A `BulkRequestData` has the number of its keys at 12, room for `BULK_SIZE` keys from
16 on and the result behind it. -/
def handleFixed (e : Env) (g : Gcm) (tee : Tee) (buf : List UInt8) :
    FixedCommand → Option (Tee × List UInt8)
  | .localClear => (handleOps e g tee .localClear).bind (answerDone buf)
  | .ckpt => (handleOps e g tee .ckpt).bind (answerDone buf)
  | .walMaterialize => do
      let nitems ← getInt 12 buf
      if 0 ≤ nitems ∧ nitems ≤ walMaterializeRidBatchSize then do
        let items ← getItems 24 nitems.toNat buf
        match ← handleOps e g tee (.walMaterialize items) with
        | (.bytes payload, tee) => do
            let buf ← put payloadPos payload buf
            (putLe 8 16 payload.length buf).map (tee, ·)
        | _ => none
      else none
  | .walReplay => do
      let len ← getLe 8 16 buf
      if len ≤ reqRegionSize - 24 then do
        let payload ← get 24 len buf
        (handleOps e g tee (.walReplay payload)).bind (answerDone buf)
      else none
  | .calculate op => do
      let left ← getRid 16 buf
      let right ← getRid 24 buf
      (handleOps e g tee (.calculate op left right)).bind (answerRid 32 buf)
  | .cmp op => do
      let left ← getRid 16 buf
      let right ← getRid 24 buf
      (handleOps e g tee (.cmp op left right)).bind (answerCmp 32 buf)
  | .intSumBulk => do
      let keys ← getKeys buf
      (handleOps e g tee (.intSumBulk keys)).bind (answerRid (16 + 8 * bulkSize) buf)
  | .floatSumBulk => do
      let keys ← getKeys buf
      (handleOps e g tee (.floatSumBulk keys)).bind (answerRid (16 + 8 * bulkSize) buf)
  | .extractYear => do
      let timestamp ← getRid 16 buf
      (handleOps e g tee (.extractYear timestamp)).bind (answerRid 24 buf)
  | .substring => do
      let str ← getRid 16 buf
      let start ← getRid 24 buf
      let length ← getRid 32 buf
      (handleOps e g tee (.substring str start length)).bind (answerRid 40 buf)
  | .enc n => do
      let plaintext ← get (encPlainPos n) n.size buf
      (handleOps e g tee (.enc (.num n) plaintext)).bind (answerBytes (encCipherPos n) buf)
  | .dec n => do
      let ciphertext ← get 12 (sizeofEnc n) buf
      (handleOps e g tee (.dec (.num n) ciphertext)).bind (answerBytes (decPlainPos n) buf)
  | .putEnc n => do
      let cipher ← get 24 (sizeofEnc n) buf
      (handleOps e g tee (.putEnc (.num n) cipher)).bind (answerRid 16 buf)
  | .getEnc n => do
      let key ← getRid 48 buf
      (handleOps e g tee (.getEnc (.num n) key)).bind (answerBytes 12 buf)
  | .promote t => do
      let loc ← getRid 16 buf
      let target ← getRid 24 buf
      let partition ← getRid 32 buf
      (handleOps e g tee (.promote t loc target partition)).bind (answerRid 40 buf)

/-- The commands of the log of the server itself: `CMD_FLUSH`, `CMD_TRUNCATE`, `CMD_REPLAY` and
`CMD_WAL_APPEND_BATCH`. -/
def ownLogCodes : List Nat := [54, 55, 56, 57]

/-- `handle_ops`, with batches nested up to a depth.  No client sends a command of the server's
own log, and it has no result here.  Any other number leaves all but the response. -/
def handleBytes (e : Env) (g : Gcm) (depth : Nat) (tee : Tee) (buf : List UInt8) :
    Option (Tee × List UInt8) := do
  let code ← getLe 4 4 buf
  match FixedCommand.ofCode code with
  | some cmd => do
      let (tee, buf) ← handleFixed e g tee buf cmd
      (putLe 4 8 0 buf).map (tee, ·)
  | none =>
      if (Command.ofCode code).isSome then handleRegion e g depth tee buf
      else if code ∈ ownLogCodes then none
      else (putLe 4 8 0 buf).map (tee, ·)

/-! ## The client -/

namespace Request

/-- What the client assigns behind the command, in its order. -/
def args : Request → List Placed
  | .localClear => []
  | .ckpt => [(8, Bytes.le 4 0)]
  | .walMaterialize items =>
      (8, Bytes.le 4 0) :: (12, Bytes.le 4 items.length) :: (16, Bytes.le 8 0) ::
        itemFields 24 items
  | .walReplay payload => [(8, Bytes.le 4 0), (16, Bytes.le 8 payload.length), (24, payload)]
  | .calculate _ left right => ridFields 16 [left, right]
  | .cmp _ left right => ridFields 16 [left, right]
  | .intSumBulk keys => (12, Bytes.le 4 keys.length) :: ridFields 16 keys
  | .floatSumBulk keys => (12, Bytes.le 4 keys.length) :: ridFields 16 keys
  | .extractYear timestamp => ridFields 16 [timestamp]
  | .substring str start length => ridFields 16 [str, start, length]
  | .putEnc (.num _) cipher => [(24, cipher)]
  | .putEnc .text cipher => sizedFields 24 cipher
  | .getEnc (.num _) key => [ridField 48 key]
  | .getEnc .text key => [ridField 584 key]
  | .enc (.num n) plaintext => [(encPlainPos n, plaintext)]
  | .enc .text plaintext => sizedFields 12 plaintext
  | .dec (.num _) ciphertext => [(12, ciphertext)]
  | .dec .text ciphertext => sizedFields 12 ciphertext
  | .promote _ loc target partition => ridFields 16 [loc, target, partition]
  | .put _ | .getNum _ _ | .getText _ => []

/-- The fields the client assigns. -/
def fields (req : Request) : List Placed := (4, Bytes.le 4 req.cmd.toNat) :: req.args

/-- `serializeTo`. -/
def serializeTo (req : Request) (buf : List UInt8) : Option (List UInt8) := assign req.fields buf

/-- A ciphertext that an `EncInt`, its siblings or an `EncStr` holds. -/
def CipherFits : Ty → Nat → Prop
  | .num n, len => len = sizeofEnc n
  | .text, len => len ≤ ivSize + tagSize + stringLength

/-- A plaintext that an `int`, its siblings or a `Str` holds. -/
def PlainFits : Ty → Nat → Prop
  | .num n, len => len = n.size
  | .text, len => len ≤ stringLength

/-- The data of a request fits its struct.  Puts and gets of plain values are `KvRequest`s. -/
def Fits : Request → Prop
  | .walMaterialize items => items.length ≤ walMaterializeRidBatchSize
  | .walReplay payload => payload.length ≤ reqRegionSize - 24
  | .intSumBulk keys | .floatSumBulk keys => keys.length ≤ bulkSize
  | .putEnc t cipher | .dec t cipher => CipherFits t cipher.length
  | .enc t plaintext => PlainFits t plaintext.length
  | .put _ | .getNum _ _ | .getText _ => False
  | _ => True

/-- What the worker assigns for a reply, in its order. -/
def results : Request → Reply → List Placed
  | .calculate _ _ _, .rid rid => [ridField 32 rid]
  | .cmp _ _ _, .cmp c => [(32, Bytes.le 4 (BitVec.ofInt 32 c).toNat)]
  | .intSumBulk _, .rid rid => [ridField (16 + 8 * bulkSize) rid]
  | .floatSumBulk _, .rid rid => [ridField (16 + 8 * bulkSize) rid]
  | .extractYear _, .rid rid => [ridField 24 rid]
  | .substring _ _ _, .rid rid => [ridField 40 rid]
  | .putEnc _ _, .rid rid => [ridField 16 rid]
  | .getEnc (.num _) _, .bytes bs => [(12, bs)]
  | .getEnc .text _, .bytes bs => sizedFields 12 bs
  | .enc (.num n) _, .bytes bs => [(encCipherPos n, bs)]
  | .enc .text _, .bytes bs => sizedFields 556 bs
  | .dec (.num n) _, .bytes bs => [(decPlainPos n, bs)]
  | .dec .text _, .bytes bs => sizedFields 584 bs ++ [(588 + bs.length, [0])]
  | .promote _ _ _ _, .rid rid => [ridField 40 rid]
  | .walMaterialize _, .bytes bs => [(payloadPos, bs), (16, Bytes.le 8 bs.length)]
  | _, _ => []

/-- `copyResultFrom`, and what the backend reads of a batch it had materialized. -/
def copyResultFrom (buf : List UInt8) : Request → Option Reply
  | .localClear | .ckpt | .walReplay _ => some .done
  | .walMaterialize _ => do
      let len ← getLe 8 16 buf
      (get payloadPos len buf).map .bytes
  | .calculate _ _ _ => (getRid 32 buf).map .rid
  | .cmp _ _ _ => (getInt 32 buf).map .cmp
  | .intSumBulk _ | .floatSumBulk _ => (getRid (16 + 8 * bulkSize) buf).map .rid
  | .extractYear _ => (getRid 24 buf).map .rid
  | .substring _ _ _ => (getRid 40 buf).map .rid
  | .putEnc _ _ => (getRid 16 buf).map .rid
  | .getEnc (.num n) _ => (get 12 (sizeofEnc n) buf).map .bytes
  | .getEnc .text _ => (getSized 12 buf).map .bytes
  | .enc (.num n) _ => (get (encCipherPos n) (sizeofEnc n) buf).map .bytes
  | .enc .text _ => (getSized 556 buf).map .bytes
  | .dec (.num n) _ => (get (decPlainPos n) n.size buf).map .bytes
  | .dec .text _ => (getSized 584 buf).map .bytes
  | .promote _ _ _ _ => (getRid 40 buf).map .rid
  | .put _ | .getNum _ _ | .getText _ => none

end Request

/-! ## What a reply can be -/

/-- Decryption keeps the length, as that of AES-GCM does. -/
def Gcm.KeepsLength (g : Gcm) : Prop :=
  ∀ iv tag data out, g.authDecrypt iv tag data = some out → out.length = data.length

/-- The replies to a request that is laid out here. -/
def Request.Answer : Request → Reply → Prop
  | .localClear, .done | .ckpt, .done | .walReplay _, .done => True
  | .walMaterialize _, .bytes bs => bs.length ≤ zenoPayloadCapacity
  | .calculate _ _ _, .rid _ | .intSumBulk _, .rid _ | .floatSumBulk _, .rid _ => True
  | .extractYear _, .rid _ | .substring _ _ _, .rid _ => True
  | .putEnc _ _, .rid _ | .promote _ _ _ _, .rid _ => True
  | .cmp _ _ _, .cmp c => -1 ≤ c ∧ c ≤ 1
  | .getEnc t _, .bytes bs =>
      ∃ len, plainFits t len = true ∧ bs.length = ivSize + tagSize + len
  | .enc t plaintext, .bytes bs =>
      plainFits t plaintext.length = true ∧ bs.length = ivSize + tagSize + plaintext.length
  | .dec t cipher, .bytes bs =>
      plainFits t bs.length = true ∧ cipher.length = ivSize + tagSize + bs.length
  | .put _, _ | .getNum _ _, _ | .getText _, _ => True
  | _, _ => False

variable {e : Env} {g : Gcm} {tee tee' : Tee} {reply : Reply}

theorem threeWay_bounds (gt lt : Bool) : -1 ≤ threeWay gt lt ∧ threeWay gt lt ≤ 1 := by
  cases gt <;> cases lt <;> decide

theorem CmpOp.fn_bounds (e : Env) (op : CmpOp) (l r : op.ty.Val) :
    -1 ≤ op.fn e l r ∧ op.fn e l r ≤ 1 := by
  cases op with
  | textLike =>
      show -1 ≤ (if matchText l r then 1 else 0 : Int) ∧ (if matchText l r then 1 else 0 : Int) ≤ 1
      split <;> decide
  | _ => exact threeWay_bounds _ _

theorem handleCmp_bounds {st : Stores} {op : CmpOp} {left right : RID} {c : Int}
    (h : handleCmp e st op left right = some c) : -1 ≤ c ∧ c ≤ 1 := by
  have heq : handleCmp e st op left right = kvCmp e st op left right := by cases op <;> rfl
  rw [heq] at h
  obtain ⟨l, -, h⟩ := Option.bind_eq_some_iff.mp h
  obtain ⟨r, -, h⟩ := Option.bind_eq_some_iff.mp h
  cases h
  exact op.fn_bounds e l r

/-- A decrypted plaintext has the length that was checked. -/
theorem length_decryptPlain (keeps : g.KeepsLength) {t : Ty} {src plain : List UInt8}
    (h : decryptPlain g t src = some plain) :
    plainFits t plain.length = true ∧ src.length = ivSize + tagSize + plain.length := by
  simp only [decryptPlain, decryptBytes, Option.ite_none_right_eq_some, gcmDecrypt,
    Option.bind_eq_bind, Option.bind_eq_some_iff, Option.map_eq_some_iff] at h
  obtain ⟨hfits, hle, x, ⟨out, hdec, rfl⟩, hlen, heq⟩ := h
  obtain rfl : out = plain := Option.some.inj heq
  have hout := keeps _ _ _ _ hdec
  rw [List.length_take, List.length_drop] at hout
  have hsame : out.length = src.length - ivSize - tagSize := by
    dsimp only at hlen
    omega
  rw [hsame]
  exact ⟨hfits, by omega⟩

/-- A payload has the room. -/
theorem length_materializeBatch {iv iv' : Iv} {kv : KvMap} {items : List WalRidItem}
    {capacity : Nat} {payload : List UInt8}
    (h : materializeBatch g iv kv items capacity = some (iv', payload)) :
    payload.length ≤ capacity := by
  unfold materializeBatch at h
  split at h
  · cases h
    exact Nat.zero_le _
  · simp only [Option.ite_none_right_eq_some, Option.bind_eq_bind, Option.bind_eq_some_iff,
      sealPayload, Option.some.injEq] at h
    obtain ⟨-, plaintext, -, hle, heq⟩ := h
    have hlen : payload.length = ivSize + tagSize + plaintext.length := by
      rw [← length_gcmEncrypt g iv plaintext, heq]
    omega

theorem Tee.answer_rid {out : Option (RID × Stores)} (h : tee.answer out = some (reply, tee')) :
    ∃ rid, reply = .rid rid := by
  obtain ⟨⟨rid, st⟩, -, heq⟩ := Option.map_eq_some_iff.mp h
  cases heq
  exact ⟨rid, rfl⟩

/-- Every reply is one of its request's. -/
theorem handleOps_answer (keeps : g.KeepsLength) {req : Request}
    (h : handleOps e g tee req = some (reply, tee')) : req.Answer reply := by
  cases req with
  | localClear | ckpt =>
      cases h
      trivial
  | walMaterialize items =>
      obtain ⟨⟨iv, payload⟩, hbatch, heq⟩ := Option.map_eq_some_iff.mp h
      cases heq
      exact length_materializeBatch hbatch
  | walReplay payload =>
      simp only [handleOps, Option.ite_none_right_eq_some, Option.map_eq_some_iff] at h
      obtain ⟨-, kv, -, heq⟩ := h
      cases heq
      trivial
  | calculate op left right | intSumBulk keys | floatSumBulk keys | extractYear timestamp
  | substring str start length =>
      obtain ⟨rid, rfl⟩ := Tee.answer_rid h
      trivial
  | cmp op left right =>
      obtain ⟨c, hcmp, heq⟩ := Option.map_eq_some_iff.mp h
      cases heq
      exact handleCmp_bounds hcmp
  | putEnc t cipher =>
      obtain ⟨plain, -, h⟩ := Option.bind_eq_some_iff.mp h
      obtain ⟨rid, rfl⟩ := Tee.answer_rid h
      trivial
  | getEnc t key =>
      simp only [handleOps, Option.bind_eq_bind, Option.bind_eq_some_iff,
        Option.ite_none_right_eq_some] at h
      obtain ⟨value, -, hfits, heq⟩ := h
      cases heq
      exact ⟨_, hfits, length_gcmEncrypt g _ _⟩
  | enc t plaintext =>
      simp only [handleOps, Option.ite_none_right_eq_some] at h
      obtain ⟨hfits, heq⟩ := h
      cases heq
      exact ⟨hfits, length_gcmEncrypt g _ _⟩
  | dec t ciphertext =>
      obtain ⟨plain, hdec, heq⟩ := Option.map_eq_some_iff.mp h
      cases heq
      exact length_decryptPlain keeps hdec
  | promote t loc target partition =>
      obtain ⟨value, -, h⟩ := Option.bind_eq_some_iff.mp h
      obtain ⟨⟨rid, st⟩, -, heq⟩ := Option.bind_eq_some_iff.mp h
      cases heq
      trivial
  | put _ | getNum _ _ | getText _ => trivial

/-! ## Reading the fields -/

section Reading

variable {fs : List Placed} {buf : List UInt8}

theorem getRid_of_holds {pos : Nat} {rid : RID} (h : Holds fs buf) (hmem : ridField pos rid ∈ fs) :
    getRid pos buf = some rid := by
  rw [getRid, h.getLe hmem rid.isLt, Option.map_some, BitVec.ofNat_toNat, BitVec.setWidth_eq]

theorem getInt_of_holds {pos n : Nat} (h : Holds fs buf) (hmem : (pos, Bytes.le 4 n) ∈ fs)
    (hn : n < 2 ^ 31) : getInt pos buf = some (n : Int) := by
  have hval : (BitVec.ofNat 32 n).toNat = n := by
    rw [BitVec.toNat_ofNat]
    omega
  rw [getInt, h.getLe hmem (by omega), Option.map_some, BitVec.toInt_eq_toNat_of_lt (by omega),
    hval]

/-- A RID is read at its place among others. -/
theorem getRid_of_ridFields {pos : Nat} {rids : List RID} (h : Holds (ridFields pos rids) buf)
    {i : Nat} {rid : RID} (hi : rids[i]? = some rid) : getRid (pos + 8 * i) buf = some rid := by
  induction rids generalizing pos i with
  | nil => cases hi
  | cons first rids ih =>
      cases i with
      | zero =>
          obtain rfl : first = rid := Option.some.inj hi
          exact getRid_of_holds h List.mem_cons_self
      | succ i =>
          rw [show pos + 8 * (i + 1) = pos + 8 + 8 * i by omega]
          exact ih h.of_cons hi

theorem getRids_of_holds {pos : Nat} {rids : List RID} (h : Holds (ridFields pos rids) buf) :
    getRids pos rids.length buf = some rids := by
  induction rids generalizing pos with
  | nil => rfl
  | cons rid rids ih =>
      have hrid := getRid_of_holds h List.mem_cons_self
      simp only [List.length_cons, getRids, hrid, ih h.of_cons, Option.bind_eq_bind,
        Option.bind_some]

theorem getKeys_of_holds {keys : List RID}
    (h : Holds ((12, Bytes.le 4 keys.length) :: ridFields 16 keys) buf)
    (hle : keys.length ≤ bulkSize) : getKeys buf = some keys := by
  have hsize : bulkSize = 256 := rfl
  have hn : getInt 12 buf = some (keys.length : Int) :=
    getInt_of_holds h List.mem_cons_self (by omega)
  simp only [getKeys, hn, Option.bind_eq_bind, Option.bind_some, Int.natCast_nonneg, if_true,
    Int.toNat_natCast, getRids_of_holds h.of_cons]

theorem getItems_of_holds {pos : Nat} {items : List WalRidItem}
    (h : Holds (itemFields pos items) buf) : getItems pos items.length buf = some items := by
  induction items generalizing pos with
  | nil => rfl
  | cons item items ih =>
      have hlt : item.ty.walType.toNat < 256 := UInt8.toNat_lt _
      have htype := h.getLe (w := 4) List.mem_cons_self (by omega)
      have hty : Ty.ofWalType (UInt8.ofNat item.ty.walType.toNat) = some item.ty := by
        rw [UInt8.ofNat_toNat, Ty.ofWalType_walType]
      have hrid := getRid_of_holds h.of_cons List.mem_cons_self
      simp only [List.length_cons, getItems, htype, if_pos hlt, hty, hrid, ih h.of_cons.of_cons,
        Option.bind_eq_bind, Option.bind_some]

theorem getSized_of_holds {pos : Nat} {data : List UInt8} (h : Holds (sizedFields pos data) buf)
    (hlt : data.length < 256 ^ 4) :
    getLe 4 pos buf = some data.length ∧ get (pos + 4) data.length buf = some data :=
  ⟨h.getLe List.mem_cons_self hlt, h.of_cons.head⟩

end Reading

/-! ## The worker handles what the client has sent -/

namespace Request

/-- The command of a request, if its struct is one of these. -/
def fixed? : Request → Option FixedCommand
  | .localClear => some .localClear
  | .ckpt => some .ckpt
  | .walMaterialize _ => some .walMaterialize
  | .walReplay _ => some .walReplay
  | .calculate op _ _ => some (.calculate op)
  | .cmp op _ _ => some (.cmp op)
  | .intSumBulk _ => some .intSumBulk
  | .floatSumBulk _ => some .floatSumBulk
  | .extractYear _ => some .extractYear
  | .substring _ _ _ => some .substring
  | .enc (.num n) _ => some (.enc n)
  | .dec (.num n) _ => some (.dec n)
  | .putEnc (.num n) _ => some (.putEnc n)
  | .getEnc (.num n) _ => some (.getEnc n)
  | .promote t _ _ _ => some (.promote t)
  | .enc .text _ | .dec .text _ | .putEnc .text _ | .getEnc .text _ => none
  | .put _ | .getNum _ _ | .getText _ => none

/-- The command of a text request. -/
def text? : Request → Option Command
  | .enc .text _ => some .stringEnc
  | .dec .text _ => some .stringDec
  | .putEnc .text _ => some .stringPutEnc
  | .getEnc .text _ => some .stringGetEnc
  | _ => none

theorem code_of_fixed {req : Request} {cmd : FixedCommand} (h : req.fixed? = some cmd) :
    cmd.code = req.cmd.toNat := by
  cases req with
  | enc t _ | dec t _ | putEnc t _ | getEnc t _ =>
      cases t with
      | num n =>
          cases h
          rfl
      | text => cases h
  | put _ | getNum _ _ | getText _ => cases h
  | _ =>
      cases h
      rfl

theorem code_of_text {req : Request} {cmd : Command} (h : req.text? = some cmd) :
    cmd.code = req.cmd.toNat ∧ cmd.isBatch = false := by
  cases req with
  | enc t _ | dec t _ | putEnc t _ | getEnc t _ =>
      cases t with
      | num n => cases h
      | text =>
          cases h
          exact ⟨rfl, rfl⟩
  | _ => cases h

/-- A request that fits has one of the two. -/
theorem fixed_or_text {req : Request} (fits : req.Fits) :
    (∃ cmd, req.fixed? = some cmd) ∨ ∃ cmd, req.text? = some cmd := by
  cases req with
  | enc t _ | dec t _ | putEnc t _ | getEnc t _ =>
      cases t with
      | num n => exact .inl ⟨_, rfl⟩
      | text => exact .inr ⟨_, rfl⟩
  | put _ | getNum _ _ | getText _ => exact fits.elim
  | _ => exact .inl ⟨_, rfl⟩

end Request

/-- What a worker does with a request: it handles it and assigns the results. -/
def serve (e : Env) (g : Gcm) (tee : Tee) (req : Request) (buf : List UInt8) :
    Option (Tee × List UInt8) :=
  (handleOps e g tee req).bind fun x => (assign (req.results x.1) buf).map (x.2, ·)

section Serve

variable {buf : List UInt8}

theorem assign_singleton (f : Placed) : assign [f] buf = put f.1 f.2 buf :=
  Option.bind_fun_some _

/-- It is enough to look at the replies there can be. -/
theorem serve_eq (keeps : g.KeepsLength) {req : Request}
    {answer : Reply × Tee → Option (Tee × List UInt8)}
    (h : ∀ reply tee', req.Answer reply →
      answer (reply, tee') = (assign (req.results reply) buf).map (tee', ·)) :
    (handleOps e g tee req).bind answer = serve e g tee req buf := by
  unfold serve
  cases hops : handleOps e g tee req with
  | none => rfl
  | some x => exact h x.1 x.2 (handleOps_answer keeps hops)

theorem Request.Answer.eq_rid {req : Request} {t : Ty} (hresult : req.result? = some t)
    {reply : Reply} (h : req.Answer reply) : ∃ rid, reply = .rid rid := by
  cases reply with
  | rid rid => exact ⟨rid, rfl⟩
  | _ => cases req <;> first | exact False.elim h | cases hresult

/-- The requests for a local result, of any type. -/
theorem serve_result (keeps : g.KeepsLength) {req : Request} {t : Ty} {pos : Nat}
    (hresult : req.result? = some t)
    (hresults : ∀ rid, req.results (.rid rid) = [ridField pos rid]) :
    (handleOps e g tee req).bind (answerRid pos buf) = serve e g tee req buf := by
  refine serve_eq keeps fun reply tee' h => ?_
  obtain ⟨rid, rfl⟩ := h.eq_rid hresult
  rw [hresults, assign_singleton]
  rfl

/-- The struct of a request is handled as the request. -/
theorem handleFixed_eq (keeps : g.KeepsLength) {req : Request} {cmd : FixedCommand}
    (hcmd : req.fixed? = some cmd) (fits : req.Fits) (h : Holds req.args buf) :
    handleFixed e g tee buf cmd = serve e g tee req buf := by
  cases req with
  | localClear =>
      cases hcmd
      rfl
  | ckpt =>
      cases hcmd
      rfl
  | walReplay payload =>
      cases hcmd
      have hlen : payload.length ≤ reqRegionSize - 24 := fits
      have hmax : reqRegionSize = 1048576 := rfl
      have hsize : getLe 8 16 buf = some payload.length :=
        h.of_cons.getLe List.mem_cons_self (by omega)
      have hget : get 24 payload.length buf = some payload := h.of_cons.of_cons.head
      simp only [handleFixed, hsize, hget, if_pos hlen, Option.bind_eq_bind, Option.bind_some]
      refine serve_eq keeps fun reply tee' h => ?_
      cases reply with
      | done => rfl
      | _ => cases h
  | walMaterialize items =>
      cases hcmd
      have hle : items.length ≤ 3000 := fits
      have hn : getInt 12 buf = some (items.length : Int) :=
        getInt_of_holds h.of_cons List.mem_cons_self (by omega)
      have hitems := getItems_of_holds h.of_cons.of_cons.of_cons
      have hok : (0 : Int) ≤ items.length ∧ (items.length : Int) ≤ walMaterializeRidBatchSize :=
        ⟨by omega, by exact_mod_cast hle⟩
      simp only [handleFixed, hn, hitems, if_pos hok, Int.toNat_natCast, Option.bind_eq_bind,
        Option.bind_some]
      refine serve_eq keeps fun reply tee' h => ?_
      cases reply with
      | bytes bs => simp [Request.results, assign, putLe, Option.map_eq_bind, Option.bind_assoc]
      | _ => cases h
  | calculate op left right =>
      cases hcmd
      have hleft : getRid 16 buf = some left := getRid_of_ridFields h (i := 0) rfl
      have hright : getRid 24 buf = some right := getRid_of_ridFields h (i := 1) rfl
      simp only [handleFixed, hleft, hright, Option.bind_eq_bind, Option.bind_some]
      exact serve_result keeps rfl fun _ => rfl
  | cmp op left right =>
      cases hcmd
      have hleft : getRid 16 buf = some left := getRid_of_ridFields h (i := 0) rfl
      have hright : getRid 24 buf = some right := getRid_of_ridFields h (i := 1) rfl
      simp only [handleFixed, hleft, hright, Option.bind_eq_bind, Option.bind_some]
      refine serve_eq keeps fun reply tee' h => ?_
      cases reply with
      | cmp c =>
          rw [Request.results, assign_singleton]
          rfl
      | _ => cases h
  | intSumBulk keys =>
      cases hcmd
      have hkeys : getKeys buf = some keys := getKeys_of_holds h fits
      simp only [handleFixed, hkeys, Option.bind_eq_bind, Option.bind_some]
      exact serve_result keeps rfl fun _ => rfl
  | floatSumBulk keys =>
      cases hcmd
      have hkeys : getKeys buf = some keys := getKeys_of_holds h fits
      simp only [handleFixed, hkeys, Option.bind_eq_bind, Option.bind_some]
      exact serve_result keeps rfl fun _ => rfl
  | extractYear timestamp =>
      cases hcmd
      have hin : getRid 16 buf = some timestamp := getRid_of_ridFields h (i := 0) rfl
      simp only [handleFixed, hin, Option.bind_eq_bind, Option.bind_some]
      exact serve_result keeps rfl fun _ => rfl
  | substring str start length =>
      cases hcmd
      have hstr : getRid 16 buf = some str := getRid_of_ridFields h (i := 0) rfl
      have hstart : getRid 24 buf = some start := getRid_of_ridFields h (i := 1) rfl
      have hlength : getRid 32 buf = some length := getRid_of_ridFields h (i := 2) rfl
      simp only [handleFixed, hstr, hstart, hlength, Option.bind_eq_bind, Option.bind_some]
      exact serve_result keeps rfl fun _ => rfl
  | promote t loc target partition =>
      cases hcmd
      have hloc : getRid 16 buf = some loc := getRid_of_ridFields h (i := 0) rfl
      have htarget : getRid 24 buf = some target := getRid_of_ridFields h (i := 1) rfl
      have hpartition : getRid 32 buf = some partition := getRid_of_ridFields h (i := 2) rfl
      simp only [handleFixed, hloc, htarget, hpartition, Option.bind_eq_bind, Option.bind_some]
      refine serve_eq keeps fun reply tee' h => ?_
      cases reply with
      | rid rid =>
          rw [Request.results, assign_singleton]
          rfl
      | _ => cases h
  | putEnc t cipher =>
      cases t with
      | num n =>
          cases hcmd
          have hget : get 24 cipher.length buf = some cipher := h.head
          rw [show cipher.length = sizeofEnc n from fits] at hget
          simp only [handleFixed, hget, Option.bind_eq_bind, Option.bind_some]
          exact serve_result keeps rfl fun _ => rfl
      | text => cases hcmd
  | getEnc t key =>
      cases t with
      | num n =>
          cases hcmd
          have hkey : getRid 48 buf = some key := getRid_of_holds h List.mem_cons_self
          simp only [handleFixed, hkey, Option.bind_eq_bind, Option.bind_some]
          refine serve_eq keeps fun reply tee' h => ?_
          cases reply with
          | bytes bs =>
              rw [Request.results, assign_singleton]
              rfl
          | _ => cases h
      | text => cases hcmd
  | enc t plaintext =>
      cases t with
      | num n =>
          cases hcmd
          have hget : get (encPlainPos n) plaintext.length buf = some plaintext := h.head
          rw [show plaintext.length = n.size from fits] at hget
          simp only [handleFixed, hget, Option.bind_eq_bind, Option.bind_some]
          refine serve_eq keeps fun reply tee' h => ?_
          cases reply with
          | bytes bs =>
              rw [Request.results, assign_singleton]
              rfl
          | _ => cases h
      | text => cases hcmd
  | dec t ciphertext =>
      cases t with
      | num n =>
          cases hcmd
          have hget : get 12 ciphertext.length buf = some ciphertext := h.head
          rw [show ciphertext.length = sizeofEnc n from fits] at hget
          simp only [handleFixed, hget, Option.bind_eq_bind, Option.bind_some]
          refine serve_eq keeps fun reply tee' h => ?_
          cases reply with
          | bytes bs =>
              rw [Request.results, assign_singleton]
              rfl
          | _ => cases h
      | text => cases hcmd
  | put _ | getNum _ _ | getText _ => cases hcmd

/-- The struct of a text request is handled as the request. -/
theorem handleStruct_eq (keeps : g.KeepsLength) {req : Request} {cmd : Command}
    (hcmd : req.text? = some cmd) (fits : req.Fits) (h : Holds req.args buf) :
    handleStruct e g tee buf cmd = serve e g tee req buf := by
  have hmax : stringLength = 540 := rfl
  have hover : ivSize + tagSize = 28 := rfl
  cases req with
  | enc t plaintext =>
      cases t with
      | num n => cases hcmd
      | text =>
          cases hcmd
          have hle : plaintext.length ≤ stringLength := fits
          obtain ⟨hlen, hget⟩ := getSized_of_holds h (by omega)
          simp only [handleStruct, hlen, hget, Option.bind_eq_bind, Option.bind_some]
          refine serve_eq keeps fun reply tee' ha => ?_
          cases reply with
          | bytes bs =>
              have hbs : plaintext.length + ivSize + tagSize = bs.length := by
                have := ha.2
                omega
              have hcap : bs.length ≤ ivSize + tagSize + stringLength := by omega
              simp only [hbs, putIn_of_le hcap, Request.results, sizedFields, assign, putLe,
                Option.map_eq_bind, Option.bind_assoc, Option.bind_fun_some]
          | _ => cases ha
  | dec t ciphertext =>
      cases t with
      | num n => cases hcmd
      | text =>
          cases hcmd
          have hle : ciphertext.length ≤ ivSize + tagSize + stringLength := fits
          obtain ⟨hlen, hget⟩ := getSized_of_holds h (by omega)
          simp only [handleStruct, hlen, hget, Option.bind_eq_bind, Option.bind_some]
          refine serve_eq keeps fun reply tee' ha => ?_
          cases reply with
          | bytes bs =>
              have hlt : bs.length < stringLength := of_decide_eq_true ha.1
              have hbs : ciphertext.length - ivSize - tagSize = bs.length := by
                have := ha.2
                omega
              have hone : [(0 : UInt8)].length ≤ stringLength - bs.length := Nat.sub_pos_of_lt hlt
              simp only [hbs, putIn_of_le hlt.le, putIn_of_le hone, Request.results, sizedFields,
                assign, putLe, Option.map_eq_bind, Option.bind_assoc, Option.bind_fun_some,
                List.cons_append, List.nil_append]
          | _ => cases ha
  | putEnc t cipher =>
      cases t with
      | num n => cases hcmd
      | text =>
          cases hcmd
          have hle : cipher.length ≤ ivSize + tagSize + stringLength := fits
          obtain ⟨hlen, hget⟩ := getSized_of_holds h (by omega)
          simp only [handleStruct, hlen, hget, Option.bind_eq_bind, Option.bind_some]
          exact serve_result keeps rfl fun _ => rfl
  | getEnc t key =>
      cases t with
      | num n => cases hcmd
      | text =>
          cases hcmd
          have hkey : getRid 584 buf = some key := getRid_of_holds h List.mem_cons_self
          obtain ⟨n, hn, hkey⟩ := Option.map_eq_some_iff.mp hkey
          simp only [handleStruct, hn, hkey, Option.bind_eq_bind, Option.bind_some]
          refine serve_eq keeps fun reply tee' ha => ?_
          cases reply with
          | bytes bs =>
              obtain ⟨len, hfits, hbs⟩ := ha
              have hlt : len < stringLength := of_decide_eq_true hfits
              have hcap : bs.length ≤ ivSize + tagSize + stringLength := by omega
              simp only [putIn_of_le hcap, Request.results, sizedFields, assign, putLe,
                Option.map_eq_bind, Option.bind_assoc, Option.bind_fun_some]
          | _ => cases ha
  | _ => cases hcmd

theorem assign_append (fs gs : List Placed) (m : List UInt8) :
    assign (fs ++ gs) m = (assign fs m).bind (assign gs) := by
  induction fs generalizing m with
  | nil => rfl
  | cons f fs ih => simp only [List.cons_append, assign, ih, Option.bind_assoc]

/-- The response of a request that was handled. -/
def respField : Placed := (8, Bytes.le 4 0)

/-- A request that fits is handled as itself, and the response is cleared. -/
theorem handleBytes_eq (keeps : g.KeepsLength) {req : Request} (fits : req.Fits)
    (h : Holds req.fields buf) (depth : Nat) :
    handleBytes e g (depth + 1) tee buf = (handleOps e g tee req).bind fun x =>
      (assign (req.results x.1 ++ [respField]) buf).map (x.2, ·) := by
  have hclear (m : List UInt8) : putLe 4 8 0 m = assign [respField] m :=
    (assign_singleton respField).symm
  have hserve : (serve e g tee req buf).bind (fun x => (putLe 4 8 0 x.2).map (x.1, ·)) =
      (handleOps e g tee req).bind fun x =>
        (assign (req.results x.1 ++ [respField]) buf).map (x.2, ·) := by
    simp only [serve, hclear, assign_append, Option.map_eq_bind, Option.bind_assoc,
      Function.comp_apply, Option.bind_some]
  rw [← hserve]
  rcases Request.fixed_or_text fits with ⟨cmd, hcmd⟩ | ⟨cmd, hcmd⟩
  · have hcode : getLe 4 4 buf = some cmd.code :=
      h.getLe (by rw [Request.code_of_fixed hcmd]; exact List.mem_cons_self) cmd.code_lt
    simp only [handleBytes, hcode, FixedCommand.ofCode_code, Option.bind_eq_bind,
      Option.bind_some, handleFixed_eq keeps hcmd fits h.of_cons]
  · obtain ⟨heq, hbatch⟩ := Request.code_of_text hcmd
    have hcode : getLe 4 4 buf = some cmd.code :=
      h.getLe (by rw [heq]; exact List.mem_cons_self) cmd.code_lt
    simp only [handleBytes, hcode, Command.fixed_none, Command.ofCode_code, Option.isSome_some,
      if_true, Option.bind_eq_bind, Option.bind_some, handleRegion_struct hcode hbatch,
      handleStruct_eq keeps hcmd fits h.of_cons]

end Serve

/-! ## The layout of the structs -/

theorem ascending_ridFields (pos : Nat) (rids : List RID) :
    Ascending pos (ridFields pos rids) (pos + 8 * rids.length) := by
  induction rids generalizing pos with
  | nil => exact Nat.le_refl _
  | cons rid rids ih =>
      have hstop : (ridField pos rid).stop = pos + 8 := by
        rw [Placed.stop, ridField, Bytes.length_le]
      refine ⟨Nat.le_refl _, ?_⟩
      rw [hstop]
      exact (ih (pos + 8)).mono (Nat.le_refl _) (by rw [List.length_cons]; omega)

theorem ascending_itemFields (pos : Nat) (items : List WalRidItem) :
    Ascending pos (itemFields pos items) (pos + 16 * items.length) := by
  induction items generalizing pos with
  | nil => exact Nat.le_refl _
  | cons item items ih =>
      refine ⟨Nat.le_refl _, ?_, ?_⟩
      · rw [Placed.stop, Bytes.length_le]
        show pos + 4 ≤ pos + 8
        omega
      · have hstop : (ridField (pos + 8) item.rid).stop = pos + 16 := by
          rw [Placed.stop, ridField, Bytes.length_le]
        rw [hstop]
        exact (ih (pos + 16)).mono (Nat.le_refl _) (by rw [List.length_cons]; omega)

/-- The client writes behind the status, into the region, and nothing twice. -/
theorem Request.ascending_fields {req : Request} (fits : req.Fits) :
    Ascending 4 req.fields reqRegionSize := by
  have hregion : reqRegionSize = 1048576 := rfl
  have hmax : stringLength = 540 := rfl
  have hover : ivSize + tagSize = 28 := rfl
  refine ⟨Nat.le_refl _, ?_⟩
  have hstop : Placed.stop (4, Bytes.le 4 req.cmd.toNat) = 8 := by
    rw [Placed.stop, Bytes.length_le]
  rw [hstop]
  -- RIDs from 16 on
  have hrids (rids : List RID) (hle : rids.length ≤ bulkSize) :
      Ascending 16 (ridFields 16 rids) reqRegionSize := by
    have hbulk : bulkSize = 256 := rfl
    exact (ascending_ridFields 16 rids).mono (Nat.le_refl _) (by omega)
  cases req with
  | walMaterialize items =>
      have hle : items.length ≤ 3000 := fits
      refine ⟨Nat.le_refl _, ?_, ?_, ?_⟩
      · exact Nat.le_refl _
      · exact Nat.le_refl _
      · exact (ascending_itemFields 24 items).mono (Nat.le_refl _) (by omega)
  | walReplay payload =>
      have hle : payload.length ≤ reqRegionSize - 24 := fits
      simp only [args, Ascending, Placed.stop, Bytes.length_le]
      omega
  | calculate _ _ _ | cmp _ _ _ | extractYear _ | substring _ _ _ | promote _ _ _ _ =>
      exact (hrids _ (Nat.le_of_ble_eq_true rfl)).mono (by omega) (Nat.le_refl _)
  | intSumBulk keys | floatSumBulk keys =>
      have hkeys : Ascending 16 (ridFields 16 keys) reqRegionSize := hrids keys fits
      exact ⟨by omega, hkeys.mono (Nat.le_refl _) (Nat.le_refl _)⟩
  | putEnc t cipher | dec t cipher =>
      cases t with
      | num n =>
          have hle : cipher.length = ivSize + tagSize + n.size := fits
          have hsize : n.size ≤ 8 := by cases n <;> decide
          simp only [args, Ascending, Placed.stop]
          omega
      | text =>
          have hle : cipher.length ≤ ivSize + tagSize + stringLength := fits
          simp only [args, sizedFields, Ascending, Placed.stop, Bytes.length_le]
          omega
  | enc t plaintext =>
      cases t with
      | num n =>
          have hle : plaintext.length = n.size := fits
          have hsize : n.size ≤ 8 ∧ 8 ≤ encPlainPos n ∧ encPlainPos n ≤ 16 := by
            cases n <;> decide
          simp only [args, Ascending, Placed.stop]
          omega
      | text =>
          have hle : plaintext.length ≤ stringLength := fits
          simp only [args, sizedFields, Ascending, Placed.stop, Bytes.length_le]
          omega
  | getEnc t key =>
      cases t <;>
      · simp only [args, ridField, Ascending, Placed.stop, Bytes.length_le]
        omega
  | put _ | getNum _ _ | getText _ => exact fits.elim
  | localClear | ckpt =>
      simp only [args, Ascending, Placed.stop, Bytes.length_le]
      omega

theorem Num.layout_bounds (n : Num) :
    n.size ≤ 8 ∧ 12 ≤ encPlainPos n ∧ encPlainPos n ≤ 16 := by
  cases n <;> decide

theorem size_of_plainFits {n : Num} {len : Nat} (h : plainFits (.num n) len = true) :
    len = n.size := of_decide_eq_true h

theorem lt_of_plainFits {len : Nat} (h : plainFits .text len = true) : len < stringLength :=
  of_decide_eq_true h

/-- The results lie behind `BaseRequest`, in the region, and none on another.  Only those of a
batch that was materialized are not in order. -/
theorem Request.results_layout {req : Request} (h : req.Answer reply) :
    (∀ f ∈ req.results reply, 12 ≤ f.1 ∧ f.stop ≤ reqRegionSize) ∧
      (req.results reply).Pairwise Placed.Apart := by
  have hregion : reqRegionSize = 1048576 := rfl
  have hmax : stringLength = 540 := rfl
  have hover : ivSize + tagSize = 28 := rfl
  have hascending {fs : List Placed} (hfs : Ascending 12 fs reqRegionSize) :
      (∀ f ∈ fs, 12 ≤ f.1 ∧ f.stop ≤ reqRegionSize) ∧ fs.Pairwise Placed.Apart :=
    ⟨fun _ hf => hfs.bounds hf, hfs.apart⟩
  have hnil : Ascending 12 [] reqRegionSize := by
    show 12 ≤ reqRegionSize
    omega
  have hrid (pos : Nat) (rid : RID) (hlo : 12 ≤ pos) (hhi : pos ≤ 4096) :
      Ascending 12 [ridField pos rid] reqRegionSize := by
    simp only [ridField, Ascending, Placed.stop, Bytes.length_le]
    omega
  cases req with
  | localClear | ckpt | walReplay _ =>
      cases reply with
      | done => exact hascending hnil
      | _ => exact False.elim h
  | walMaterialize items =>
      cases reply with
      | bytes bs =>
          have hle : bs.length ≤ reqRegionSize - 48024 := h
          have hpos : payloadPos = 48024 := rfl
          simp only [results, Placed.Apart, Placed.stop, Bytes.length_le, List.pairwise_cons,
            List.forall_mem_cons, List.not_mem_nil, List.Pairwise.nil, false_implies,
            implies_true, and_true]
          omega
      | _ => exact False.elim h
  | calculate _ _ _ | extractYear _ | substring _ _ _ | promote _ _ _ _ | putEnc _ _ =>
      cases reply with
      | rid rid => exact hascending (hrid _ rid (by decide) (by decide))
      | _ => exact False.elim h
  | intSumBulk _ | floatSumBulk _ =>
      cases reply with
      | rid rid => exact hascending (hrid _ rid (by decide) (by decide))
      | _ => exact False.elim h
  | cmp _ _ _ =>
      cases reply with
      | cmp c =>
          refine hascending ?_
          simp only [results, Ascending, Placed.stop, Bytes.length_le]
          omega
      | _ => exact False.elim h
  | enc t plaintext =>
      cases reply with
      | bytes bs =>
          obtain ⟨hfits, hlen⟩ := h
          refine hascending ?_
          cases t with
          | num n =>
              have hsize := size_of_plainFits hfits
              have hn := n.layout_bounds
              simp only [results, encCipherPos, Ascending, Placed.stop]
              omega
          | text =>
              have hlt := lt_of_plainFits hfits
              simp only [results, sizedFields, Ascending, Placed.stop, Bytes.length_le]
              omega
      | _ => exact False.elim h
  | dec t ciphertext =>
      cases reply with
      | bytes bs =>
          obtain ⟨hfits, hlen⟩ := h
          refine hascending ?_
          cases t with
          | num n =>
              have hsize := size_of_plainFits hfits
              have hn := n.layout_bounds
              simp only [results, decPlainPos, sizeofEnc, Ascending, Placed.stop]
              omega
          | text =>
              have hlt := lt_of_plainFits hfits
              simp only [results, sizedFields, List.cons_append, List.nil_append, Ascending,
                Placed.stop, Bytes.length_le, List.length_singleton]
              omega
      | _ => exact False.elim h
  | getEnc t key =>
      cases reply with
      | bytes bs =>
          obtain ⟨len, hfits, hlen⟩ := h
          refine hascending ?_
          cases t with
          | num n =>
              have hsize := size_of_plainFits hfits
              have hn := n.layout_bounds
              simp only [results, Ascending, Placed.stop]
              omega
          | text =>
              have hlt := lt_of_plainFits hfits
              simp only [results, sizedFields, Ascending, Placed.stop, Bytes.length_le]
              omega
      | _ => exact False.elim h
  | put _ | getNum _ _ | getText _ => exact hascending hnil

/-- The client reads the reply that was written. -/
theorem Request.copyResultFrom_eq {req : Request} (h : req.Answer reply) (fits : req.Fits)
    {m : List UInt8} (hold : Holds (req.results reply) m) :
    req.copyResultFrom m = some reply := by
  have hregion : reqRegionSize = 1048576 := rfl
  have hmax : stringLength = 540 := rfl
  have hover : ivSize + tagSize = 28 := rfl
  have hrid {pos : Nat} {rid : RID} (hold : Holds [ridField pos rid] m) :
      (getRid pos m).map Reply.rid = some (.rid rid) := by
    rw [getRid_of_holds hold List.mem_cons_self, Option.map_some]
  have hsized {pos : Nat} {bs : List UInt8} (hold : Holds (sizedFields pos bs) m)
      (hlt : bs.length < 256 ^ 4) : (getSized pos m).map Reply.bytes = some (.bytes bs) := by
    obtain ⟨hlen, hget⟩ := getSized_of_holds hold hlt
    simp only [getSized, hlen, hget, Option.bind_eq_bind, Option.bind_some, Option.map_some]
  cases req with
  | localClear | ckpt | walReplay _ =>
      cases reply with
      | done => rfl
      | _ => exact False.elim h
  | walMaterialize items =>
      cases reply with
      | bytes bs =>
          have hle : bs.length ≤ zenoPayloadCapacity := h
          have hcap : zenoPayloadCapacity = 1000552 := rfl
          have hlen : getLe 8 16 m = some bs.length :=
            hold.of_cons.getLe List.mem_cons_self (by omega)
          have hget : get payloadPos bs.length m = some bs := hold.head
          simp only [copyResultFrom, hlen, hget, Option.bind_eq_bind, Option.bind_some,
            Option.map_some]
      | _ => exact False.elim h
  | calculate _ _ _ | extractYear _ | substring _ _ _ | promote _ _ _ _ | putEnc _ _ =>
      cases reply with
      | rid rid => exact hrid hold
      | _ => exact False.elim h
  | intSumBulk _ | floatSumBulk _ =>
      cases reply with
      | rid rid => exact hrid hold
      | _ => exact False.elim h
  | cmp _ _ _ =>
      cases reply with
      | cmp c =>
          obtain ⟨hlo, hhi⟩ := h
          have hget : getLe 4 32 m = some (BitVec.ofInt 32 c).toNat :=
            hold.getLe List.mem_cons_self (BitVec.ofInt 32 c).isLt
          have hval : (BitVec.ofInt 32 c).toInt = c := by
            rw [BitVec.toInt_ofInt_eq_self (by decide)] <;> omega
          simp only [copyResultFrom, getInt, hget, Option.map_some, BitVec.ofNat_toNat,
            BitVec.setWidth_eq, hval]
      | _ => exact False.elim h
  | enc t plaintext =>
      cases reply with
      | bytes bs =>
          obtain ⟨hfits, hlen⟩ := h
          cases t with
          | num n =>
              have hget : get (encCipherPos n) bs.length m = some bs := hold.head
              rw [hlen, size_of_plainFits hfits] at hget
              exact congrArg (Option.map Reply.bytes) hget
          | text =>
              have hlt := lt_of_plainFits hfits
              exact hsized hold (by omega)
      | _ => exact False.elim h
  | dec t ciphertext =>
      cases reply with
      | bytes bs =>
          obtain ⟨hfits, hlen⟩ := h
          cases t with
          | num n =>
              have hget : get (decPlainPos n) bs.length m = some bs := hold.head
              rw [size_of_plainFits hfits] at hget
              exact congrArg (Option.map Reply.bytes) hget
          | text =>
              have hlt := lt_of_plainFits hfits
              exact hsized (fun f hf => hold f (List.mem_append_left _ hf)) (by omega)
      | _ => exact False.elim h
  | getEnc t key =>
      cases reply with
      | bytes bs =>
          obtain ⟨len, hfits, hlen⟩ := h
          cases t with
          | num n =>
              have hget : get 12 bs.length m = some bs := hold.head
              rw [hlen, size_of_plainFits hfits] at hget
              exact congrArg (Option.map Reply.bytes) hget
          | text =>
              have hlt := lt_of_plainFits hfits
              exact hsized hold (by omega)
      | _ => exact False.elim h
  | put _ | getNum _ _ | getText _ => exact fits.elim

/-! ## Sending -/

/-- What a client sends: a request whose data fits its struct, or a put or a get of a plain
value. -/
inductive ClientRequest where
  | request (req : Request) (fits : req.Fits)
  | kv (r : KvRequest)

namespace ClientRequest

/-- The request it is to the worker. -/
def toRequest : ClientRequest → Request
  | .request req _ => req
  | .kv r => r.request

/-- `serializeTo`. -/
def serializeTo : ClientRequest → List UInt8 → Option (List UInt8)
  | .request req _ => req.serializeTo
  | .kv r => r.serializeTo

/-- `copyResultFrom`. -/
def copyResultFrom (buf : List UInt8) : ClientRequest → Option Reply
  | .request req _ => req.copyResultFrom buf
  | .kv r => r.copyResultFrom buf

/-- A region as a client has left it to the worker. -/
structure Encoded (c : ClientRequest) (sent : List UInt8) : Prop where
  /-- It is a region. -/
  length : sent.length = reqRegionSize
  /-- The command is that of the request. -/
  code : getLe 4 4 sent = some c.toRequest.cmd.toNat
  /-- The fields of the struct stand at their places. -/
  fields : match c with
    | .request req _ => Holds req.fields sent
    | .kv r => r.Encoded sent

/-- A region as the worker has left it to the client. -/
structure Answered (c : ClientRequest) (reply : Reply) (out : List UInt8) : Prop where
  /-- It is a region. -/
  length : out.length = reqRegionSize
  /-- The response is cleared. -/
  resp : getLe 4 8 out = some 0
  /-- The result is the reply. -/
  result : c.copyResultFrom out = some reply

theorem code_lt (req : Request) : req.cmd.toNat < 256 ^ 4 := by
  have hty (t : Ty) : t.cmdIndex ≤ 3 := by
    cases t with
    | num n => cases n <;> decide
    | text => decide
  have hle : req.cmd ≤ 60 := by
    cases req with
    | put val =>
        have := hty val.1
        simp only [Request.cmd]
        omega
    | getNum n key =>
        have := hty (.num n)
        simp only [Request.cmd]
        omega
    | enc t _ | dec t _ | putEnc t _ | getEnc t _ | promote t _ _ _ =>
        have := hty t
        simp only [Request.cmd]
        omega
    | calculate op _ _ =>
        show op.cmd ≤ 60
        cases op <;> decide
    | cmp op _ _ =>
        show op.cmd ≤ 60
        cases op <;> decide
    | _ =>
        simp only [Request.cmd]
        decide
  omega

theorem kv_code (r : KvRequest) : r.command.code = r.request.cmd.toNat := by
  cases r with
  | put value =>
      cases value with
      | num n v => cases n <;> rfl
      | text buffer => rfl
  | get t key =>
      cases t with
      | num n => cases n <;> rfl
      | text => rfl

/-- The client writes its request into any region. -/
theorem exists_encoded (c : ClientRequest) {buf : List UInt8} (hlen : buf.length = reqRegionSize) :
    ∃ sent, c.serializeTo buf = some sent ∧ c.Encoded sent := by
  cases c with
  | request req fits =>
      have hfields := Request.ascending_fields fits
      obtain ⟨sent, hassign, hto, hholds⟩ := assign_holds (m := buf)
        (fun f hf => by rw [hlen]; exact (hfields.bounds hf).2) hfields.apart
      refine ⟨sent, hassign, hto.length.trans hlen, ?_, hholds⟩
      exact hholds.getLe List.mem_cons_self (code_lt req)
  | kv r =>
      have hroom : r.inputEnd ≤ buf.length := by
        have hend := r.inputEnd_bounds.2
        have hsize := r.getSize_bounds
        have hregion : reqRegionSize = 1048576 := rfl
        omega
      obtain ⟨sent, hserialize, hsent, hencoded⟩ := r.serializeTo_encoded [] hroom
      rw [List.append_nil, List.append_nil] at hserialize
      refine ⟨sent, hserialize, hsent.trans hlen, ?_, hencoded⟩
      rw [hencoded.code, kv_code]
      rfl

theorem encoded_of_serializeTo {c : ClientRequest} {buf sent : List UInt8}
    (hlen : buf.length = reqRegionSize) (h : c.serializeTo buf = some sent) : c.Encoded sent := by
  obtain ⟨sent', hserialize, hencoded⟩ := c.exists_encoded hlen
  cases h.symm.trans hserialize
  exact hencoded

/-- The worker handles the request that the client has written, or ends where it ends. -/
theorem Encoded.handle_none {c : ClientRequest} {sent : List UInt8} (h : c.Encoded sent)
    (keeps : g.KeepsLength) (depth : Nat) (hops : handleOps e g tee c.toRequest = none) :
    handleBytes e g (depth + 1) tee sent = none := by
  cases c with
  | request req fits =>
      rw [handleBytes_eq keeps fits h.fields, show handleOps e g tee req = none from hops]
      rfl
  | kv r =>
      have hencoded : r.Encoded sent := h.fields
      have hnone := hencoded.handle_none hops depth []
      rw [List.append_nil] at hnone
      simp only [handleBytes, hencoded.code, Command.fixed_none, Command.ofCode_code,
        Option.isSome_some, if_true, Option.bind_eq_bind, Option.bind_some, hnone]

/-- The worker leaves the reply of the request that the client has written. -/
theorem Encoded.handle {c : ClientRequest} {sent : List UInt8} (h : c.Encoded sent)
    (keeps : g.KeepsLength) (depth : Nat)
    (hops : handleOps e g tee c.toRequest = some (reply, tee')) :
    ∃ out, handleBytes e g (depth + 1) tee sent = some (tee', out) ∧ c.Answered reply out := by
  cases c with
  | request req fits =>
      have hops' : handleOps e g tee req = some (reply, tee') := hops
      have hanswer := handleOps_answer keeps hops'
      obtain ⟨hbounds, hapart⟩ := Request.results_layout hanswer
      have hregion : reqRegionSize = 1048576 := rfl
      have hresp : respField.stop = 12 := by
        rw [Placed.stop, respField, Bytes.length_le]
      have hroom : ∀ f ∈ req.results reply ++ [respField], f.stop ≤ sent.length := by
        intro f hf
        rw [h.length]
        rcases List.mem_append.mp hf with hf | hf
        · exact (hbounds f hf).2
        · rw [List.mem_singleton.mp hf, hresp]
          omega
      have hall : (req.results reply ++ [respField]).Pairwise Placed.Apart := by
        refine List.pairwise_append.mpr ⟨hapart, List.pairwise_singleton _ _, fun f hf f' hf' => ?_⟩
        rw [List.mem_singleton.mp hf']
        exact .inr (hresp ▸ (hbounds f hf).1)
      obtain ⟨out, hassign, hto, hholds⟩ := assign_holds hroom hall
      refine ⟨out, ?_, hto.length.trans h.length, ?_, ?_⟩
      · rw [handleBytes_eq keeps fits h.fields, hops', Option.bind_some, hassign, Option.map_some]
      · exact hholds.getLe (List.mem_append_right _ List.mem_cons_self) (by decide)
      · exact Request.copyResultFrom_eq hanswer fits
          fun f hf => hholds f (List.mem_append_left _ hf)
  | kv r =>
      have hencoded : r.Encoded sent := h.fields
      have hroom : r.valueEnd ≤ sent.length := by
        have hsize := r.getSize_bounds
        have hregion : reqRegionSize = 1048576 := rfl
        have hlen := h.length
        omega
      obtain ⟨out, hhandle, hlen, hanswered⟩ := hencoded.handle hops hroom depth []
      rw [List.append_nil, List.append_nil] at hhandle
      refine ⟨out, ?_, hlen.trans h.length, hanswered.resp, hanswered.result⟩
      simp only [handleBytes, hencoded.code, Command.fixed_none, Command.ofCode_code,
        Option.isSome_some, if_true, Option.bind_eq_bind, Option.bind_some, hhandle]

end ClientRequest

/-- `sendRequest`: the client writes, the worker handles, and the client reads the result and
checks the response.  The handshake over the status is that of the protocol. -/
def sendClient (e : Env) (g : Gcm) (depth : Nat) (tee : Tee) (region : List UInt8)
    (c : ClientRequest) : Option (Reply × Tee × List UInt8) := do
  let region ← c.serializeTo region
  let (tee, region) ← handleBytes e g depth tee region
  let res ← c.copyResultFrom region
  let resp ← getLe 4 8 region
  if resp = 0 then some (res, tee, region) else none

/-- A request that is sent through a region, whatever the region held, has the reply and the
effect of the request itself, and none if it has none. -/
theorem sent_as_handled (e : Env) (keeps : g.KeepsLength) (depth : Nat) (tee : Tee)
    (c : ClientRequest) {region : List UInt8} (hregion : region.length = reqRegionSize) :
    ∃ region', sendClient e g (depth + 1) tee region c =
        (handleOps e g tee c.toRequest).map (fun x => (x.1, x.2, region')) ∧
      region'.length = reqRegionSize := by
  obtain ⟨sent, hserialize, hencoded⟩ := c.exists_encoded hregion
  cases hops : handleOps e g tee c.toRequest with
  | none =>
      refine ⟨region, ?_, hregion⟩
      simp only [sendClient, hserialize, hencoded.handle_none keeps depth hops, Option.bind_eq_bind,
        Option.bind_some, Option.bind_none, Option.map_none]
  | some x =>
      obtain ⟨out, hhandle, hanswered⟩ := hencoded.handle keeps depth hops
      refine ⟨out, ?_, hanswered.length⟩
      simp only [sendClient, hserialize, hhandle, hanswered.result, hanswered.resp,
        Option.bind_eq_bind, Option.bind_some, if_true, Option.map_some]

theorem Gcm.keepsLength_plain : Gcm.plain.KeepsLength := by
  intro iv tag data out h
  cases h
  rfl

/-- An integer is encrypted through a region that is full of what was there before. -/
theorem sent_as_handled_encrypt :
    ∃ tee' region', sendClient .trivial .plain 1 ⟨.zero, ⟨.empty, .fresh⟩⟩
        (List.replicate reqRegionSize 255) (.request (.enc .int [7, 0, 0, 0]) rfl) =
      some (.bytes (Iv.zero.increment.bytes ++ List.replicate tagSize 0 ++ [7, 0, 0, 0]), tee',
        region') := by
  obtain ⟨region', hsend, -⟩ := sent_as_handled .trivial Gcm.keepsLength_plain 0
    ⟨.zero, ⟨.empty, .fresh⟩⟩ (.request (.enc .int [7, 0, 0, 0]) rfl)
    (List.length_replicate (n := reqRegionSize) (a := 255))
  exact ⟨_, region', hsend⟩

end Zeno
