import Zeno.Lib.Slice
import Zeno.Tee.Ops

/-!
# Requests as bytes

A client writes its request into a region of shared memory as a C struct, and
`handle_ops` reads it there and writes its results into the same struct.  Here are the
structs of the text requests, of the puts and gets of plain values, and of batches.  A
batch has its requests one behind the other, and each says how long it is.

`handleRegion` is `handle_ops` over the bytes: it reads a request, lets
`handleOps` handle it, and writes the reply.  A region keeps whatever earlier requests
left in it.
-/

namespace Zeno

/-! ## Commands -/

/-- The commands whose structs are laid out here. -/
inductive Command where
  /-- `CMD_INT_PUT` and its siblings. -/
  | put (t : Ty)
  /-- `CMD_INT_GET` and its siblings. -/
  | get (t : Ty)
  /-- `CMD_BATCH_PUT`. -/
  | batchPut
  /-- `CMD_BATCH_GET`. -/
  | batchGet
  /-- `CMD_STRING_ENC`. -/
  | stringEnc
  /-- `CMD_STRING_DEC`. -/
  | stringDec
  /-- `CMD_STRING_PUT_ENC`. -/
  | stringPutEnc
  /-- `CMD_STRING_GET_ENC`. -/
  | stringGetEnc
deriving DecidableEq

namespace Command

/-- The number of a command. -/
def code : Command → Nat
  | .put (.num .int) => 1
  | .get (.num .int) => 2
  | .put (.num .float) => 3
  | .get (.num .float) => 4
  | .put .text => 5
  | .get .text => 6
  | .put (.num .timestamp) => 7
  | .get (.num .timestamp) => 8
  | .batchPut => 9
  | .batchGet => 10
  | .stringEnc => 15
  | .stringDec => 16
  | .stringPutEnc => 23
  | .stringGetEnc => 24

/-- The command with a number. -/
def ofCode : Nat → Option Command
  | 1 => some (.put .int)
  | 2 => some (.get .int)
  | 3 => some (.put .float)
  | 4 => some (.get .float)
  | 5 => some (.put .text)
  | 6 => some (.get .text)
  | 7 => some (.put .timestamp)
  | 8 => some (.get .timestamp)
  | 9 => some .batchPut
  | 10 => some .batchGet
  | 15 => some .stringEnc
  | 16 => some .stringDec
  | 23 => some .stringPutEnc
  | 24 => some .stringGetEnc
  | _ => none

theorem ofCode_code (cmd : Command) : ofCode cmd.code = some cmd := by
  cases cmd with
  | put t =>
      cases t with
      | num n => cases n <;> rfl
      | text => rfl
  | get t =>
      cases t with
      | num n => cases n <;> rfl
      | text => rfl
  | _ => rfl

theorem code_lt (cmd : Command) : cmd.code < 256 ^ 4 := by
  cases cmd with
  | put t =>
      cases t with
      | num n => cases n <;> decide
      | text => decide
  | get t =>
      cases t with
      | num n => cases n <;> decide
      | text => decide
  | _ => decide

/-- The commands that hold other requests. -/
def isBatch : Command → Bool
  | .batchPut | .batchGet => true
  | _ => false

end Command

/-! ## The structs -/

/-- The C string at the front of some memory. -/
def readCString (m : List UInt8) : Option CStr := if 0 ∈ m then some (CStr.ofBytes m) else none

/-- A RID that is the result, at its place in the struct. -/
def answerRid (pos : Nat) (buf : List UInt8) : Reply × Tee → Option (Tee × List UInt8)
  | (.rid rid, tee) => (Slice.putLe 8 pos rid.toNat buf).map (tee, ·)
  | _ => none

/-- `handle_ops` on one struct.  Behind `BaseRequest`, of 12 bytes, lie: in a `KVRequestData`
the size at 16, the key at 24 and the value at 32; in an `EncStrEncRequestData` the
plaintext at 12 and the ciphertext at 556; in an `EncStrDecRequestData` the ciphertext
at 12 and the plaintext at 584; in an `EncStrPutEncIntoKVRequestData` the result at 16
and the ciphertext at 24; in an `EncStrGetEncFromKVRequestData` the result at 12 and
the key at 584.  A text and a ciphertext have their length in front, and their data has
the capacity of a `Str` or an `EncStr`. -/
def handleStruct (e : Env) (g : Gcm) (tee : Tee) (buf : List UInt8) :
    Command → Option (Tee × List UInt8)
  | .put (.num n) => do
      let value ← Slice.get 32 n.size buf
      let answer ← handleOps e g tee (.put ⟨.num n, plainValue (.num n) value⟩)
      answerRid 24 buf answer
  | .put .text => do
      let value ← readCString (buf.drop 32)
      let answer ← handleOps e g tee (.put ⟨.text, value⟩)
      answerRid 24 buf answer
  | .get (.num n) => do
      let key ← Slice.getLe 8 24 buf
      match ← handleOps e g tee (.getNum n (BitVec.ofNat 64 key)) with
      | (.value val, tee) => (Slice.put 32 (plainBytes val.1 val.2) buf).map (tee, ·)
      | _ => none
  | .get .text => do
      let key ← Slice.getLe 8 24 buf
      match ← handleOps e g tee (.getText (BitVec.ofNat 64 key)) with
      | (.bytes bs, tee) => (Slice.put 32 bs buf).map (tee, ·)
      | _ => none
  | .stringEnc => do
      let len ← Slice.getLe 4 12 buf
      let plaintext ← Slice.get 16 len buf
      match ← handleOps e g tee (.enc .text plaintext) with
      | (.bytes out, tee) => do
          let buf ← Slice.putLe 4 556 (len + ivSize + tagSize) buf
          (Slice.putIn (ivSize + tagSize + stringLength) 560 out buf).map (tee, ·)
      | _ => none
  | .stringDec => do
      let len ← Slice.getLe 4 12 buf
      let ciphertext ← Slice.get 16 len buf
      match ← handleOps e g tee (.dec .text ciphertext) with
      | (.bytes out, tee) => do
          let buf ← Slice.putLe 4 584 (len - ivSize - tagSize) buf
          let buf ← Slice.putIn stringLength 588 out buf
          -- the plaintext is terminated
          let pos := len - ivSize - tagSize
          (Slice.putIn (stringLength - pos) (588 + pos) [0] buf).map (tee, ·)
      | _ => none
  | .stringPutEnc => do
      let len ← Slice.getLe 4 24 buf
      let cipher ← Slice.get 28 len buf
      let answer ← handleOps e g tee (.putEnc .text cipher)
      answerRid 16 buf answer
  | .stringGetEnc => do
      let key ← Slice.getLe 8 584 buf
      match ← handleOps e g tee (.getEnc .text (BitVec.ofNat 64 key)) with
      | (.bytes out, tee) => do
          let buf ← Slice.putLe 4 12 out.length buf
          (Slice.putIn (ivSize + tagSize + stringLength) 16 out buf).map (tee, ·)
      | _ => none
  | .batchPut | .batchGet => none

/-- The loop of a batch.  The size of a request is read before it is handled, for the check,
and after it, for the step to the next one. -/
def handleBatch (handle : Tee → List UInt8 → Option (Tee × List UInt8)) :
    Nat → Tee → List UInt8 → Option (Tee × List UInt8)
  | 0, tee, buf => some (tee, buf)
  | n + 1, tee, buf => do
      let checked ← Slice.getLe 8 16 buf
      if checked = 0 then none
      else do
        let (tee, buf) ← handle tee buf
        let size ← Slice.getLe 8 16 buf
        let (tee, rest) ← handleBatch handle n tee (buf.drop size)
        some (tee, buf.take size ++ rest)

/-- `handle_ops` on the struct at the front of some memory, with batches nested up to a depth.
A `BatchRequestData` has its size at 16, the number of its requests at 24 and the requests
from 28 on. -/
def handleRegion (e : Env) (g : Gcm) : Nat → Tee → List UInt8 → Option (Tee × List UInt8)
  | 0, _, _ => none
  | depth + 1, tee, buf => do
      let code ← Slice.getLe 4 4 buf
      let cmd ← Command.ofCode code
      let (tee, buf) ←
        if cmd.isBatch then do
          let nreqs ← Slice.getLe 4 24 buf
          let (tee, rest) ← handleBatch (handleRegion e g depth)
            (BitVec.ofNat 32 nreqs).toInt.toNat tee (buf.drop 28)
          some (tee, buf.take 28 ++ rest)
        else handleStruct e g tee buf cmd
      let buf ← Slice.putLe 4 8 0 buf
      some (tee, buf)

/-- `sendRequest` of a request that holds no others.  The handshake over the status is that of
the protocol. -/
def sendRequest {α : Type} (e : Env) (g : Gcm) (tee : Tee) (region : List UInt8)
    (serializeTo : List UInt8 → Option (List UInt8))
    (copyResultFrom : List UInt8 → Option α) : Option (α × Tee × List UInt8) := do
  let region ← serializeTo region
  let (tee, region) ← handleRegion e g 1 tee region
  let res ← copyResultFrom region
  let resp ← Slice.getLe 4 8 region
  if resp = 0 then some (res, tee, region) else none

variable {e : Env} {g : Gcm} {tee tee' : Tee} {buf buf' : List UInt8}

/-- A struct is handled by its command, and the response is cleared. -/
theorem handleRegion_struct {cmd : Command} {depth : Nat}
    (hcode : Slice.getLe 4 4 buf = some cmd.code) (hcmd : cmd.isBatch = false) :
    handleRegion e g (depth + 1) tee buf =
      (handleStruct e g tee buf cmd).bind fun (tee, buf) =>
        (Slice.putLe 4 8 0 buf).map (tee, ·) := by
  simp only [handleRegion, hcode, Command.ofCode_code, hcmd, Option.bind_eq_bind, Option.bind_some,
    Option.map_eq_bind]
  rfl

end Zeno
