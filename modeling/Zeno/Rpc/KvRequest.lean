import Zeno.Rpc.Region

/-!
# Puts and gets of plain values

`PutPlainIntoKVRequest` and `GetPlainFromKVRequest` for numbers and for texts, over the
bytes of their struct.  One such request, serialized, handled and copied back at the front
of any memory, is the request `handleOps` handles: it touches no byte behind its struct
(`KvRequest.Encoded.handle`), and sent by itself it has the same reply
(`sendKv_eq`).
-/

namespace Zeno

open Slice

/-- A `char[STRING_LENGTH]` with a C string in it. -/
structure TextBuffer where
  /-- The bytes. -/
  bytes : List UInt8
  /-- There are `STRING_LENGTH`. -/
  length_eq : bytes.length = stringLength
  /-- The string ends in the buffer. -/
  ends : 0 ∈ bytes

/-- The value of a put. -/
inductive PutValue where
  /-- An `int`, a `float` or a `TIMESTAMP`. -/
  | num (n : Num) (value : n.Val)
  /-- A text. -/
  | text (buffer : TextBuffer)

namespace PutValue

/-- The type. -/
def ty : PutValue → Ty
  | .num n _ => .num n
  | .text _ => .text

/-- The value that is put. -/
def val : PutValue → Value
  | .num n value => ⟨.num n, value⟩
  | .text buffer => ⟨.text, CStr.ofBytes buffer.bytes⟩

/-- The bytes of the object. -/
def bytes : PutValue → List UInt8
  | .num n value => plainBytes (.num n) value
  | .text buffer => buffer.bytes

end PutValue

/-- `PutPlainIntoKVRequest` and `GetPlainFromKVRequest`. -/
inductive KvRequest where
  | put (value : PutValue)
  | get (t : Ty) (key : RID)

/-- `sizeof(ValueType)`. -/
def sizeofValue : Ty → Nat
  | .num n => n.size
  | .text => stringLength

theorem PutValue.length_bytes (value : PutValue) : value.bytes.length = sizeofValue value.ty := by
  cases value with
  | num n value => exact length_plainBytes_num n value
  | text buffer => exact buffer.length_eq

namespace KvRequest

/-- The command. -/
def command : KvRequest → Command
  | .put value => .put value.ty
  | .get t _ => .get t

/-- The type of the value. -/
def ty : KvRequest → Ty
  | .put value => value.ty
  | .get t _ => t

/-- The request it is to the worker. -/
def request : KvRequest → Request
  | .put value => .put value.val
  | .get (.num n) key => .getNum n key
  | .get .text key => .getText key

/-- `getSize`: the size of `FakeData`, whose value is padded to the alignment of the key. -/
def getSize (r : KvRequest) : Nat := 32 + (sizeofValue r.ty + 7) / 8 * 8

/-- `serializeTo`. -/
def serializeTo (r : KvRequest) (buf : List UInt8) : Option (List UInt8) := do
  let buf ← putLe 4 4 r.command.code buf
  match r with
  | .put value => do
      let buf ← putLe 8 16 r.getSize buf
      Slice.put 32 value.bytes buf
  | .get _ key => do
      let buf ← putLe 8 24 key.toNat buf
      putLe 8 16 r.getSize buf

/-- `copyResultFrom`. -/
def copyResultFrom (buf : List UInt8) : KvRequest → Option Reply
  | .put _ => (getLe 8 24 buf).map fun key => .rid (BitVec.ofNat 64 key)
  | .get (.num n) _ =>
      (Slice.get 32 n.size buf).map fun bs => .value ⟨.num n, plainValue (.num n) bs⟩
  | .get .text _ => (Slice.get 32 stringLength buf).map .bytes

/-- The end of the value in the struct, before the padding. -/
def valueEnd (r : KvRequest) : Nat := 32 + sizeofValue r.ty

/-- The end of what is serialized: a get leaves the value to the worker. -/
def inputEnd : KvRequest → Nat
  | .put value => 32 + sizeofValue value.ty
  | .get _ _ => 32

/-- The struct of a request that was serialized. -/
structure Encoded (r : KvRequest) (b : List UInt8) : Prop where
  room : r.inputEnd ≤ b.length
  code : getLe 4 4 b = some r.command.code
  size : getLe 8 16 b = some r.getSize
  input : match r with
    | .put value => Slice.get 32 value.bytes.length b = some value.bytes
    | .get _ key => getLe 8 24 b = some key.toNat

/-- The struct of a request that was handled. -/
structure Answered (r : KvRequest) (reply : Reply) (b : List UInt8) : Prop where
  size : getLe 8 16 b = some r.getSize
  resp : getLe 4 8 b = some 0
  result : r.copyResultFrom b = some reply

theorem sizeofValue_le (t : Ty) : sizeofValue t ≤ stringLength := by
  cases t with
  | num n => cases n <;> decide
  | text => exact Nat.le_refl _

theorem getSize_bounds (r : KvRequest) : r.valueEnd ≤ r.getSize ∧ r.getSize ≤ 576 := by
  have hle := sizeofValue_le r.ty
  have hmax : stringLength = 540 := rfl
  rw [getSize, valueEnd]
  omega

theorem getSize_lt (r : KvRequest) : r.getSize < 256 ^ 8 := by
  have := r.getSize_bounds
  omega

theorem inputEnd_bounds (r : KvRequest) : 32 ≤ r.inputEnd ∧ r.inputEnd ≤ r.valueEnd := by
  cases r with
  | put value => exact ⟨Nat.le_add_right _ _, Nat.le_refl _⟩
  | get t key => exact ⟨Nat.le_refl _, Nat.le_add_right _ _⟩

theorem inputEnd_pos (r : KvRequest) : 0 < r.inputEnd := by
  have := r.inputEnd_bounds
  omega

theorem valueEnd_pos (r : KvRequest) : 0 < r.valueEnd :=
  r.inputEnd_pos.trans_le r.inputEnd_bounds.2

/-- A request is serialized into its own struct. -/
theorem serializeTo_encoded (r : KvRequest) {front : List UInt8} (rest : List UInt8)
    (hroom : r.inputEnd ≤ front.length) :
    ∃ b, r.serializeTo (front ++ rest) = some (b ++ rest) ∧ b.length = front.length ∧
      r.Encoded b := by
  have hend := r.inputEnd_bounds.1
  obtain ⟨b₁, hput₁, hlen₁, hcode, -⟩ :=
    putLe_append rest (show 4 + 4 ≤ front.length by omega) r.command.code_lt
  cases r with
  | put value =>
      obtain ⟨b₂, hput₂, hlen₂, hsize, hother₂⟩ :=
        putLe_append rest (show 16 + 8 ≤ b₁.length by omega) (getSize_lt (.put value))
      have hvalue : 32 + value.bytes.length ≤ b₂.length := by
        rw [value.length_bytes, hlen₂, hlen₁]
        exact hroom
      obtain ⟨b₃, hput₃, hlen₃, hbytes, hother₃⟩ := put_append value.bytes rest hvalue
      refine ⟨b₃, ?_, by omega, by omega, ?_, ?_, hbytes⟩
      · simp only [serializeTo, hput₁, hput₂, Option.bind_eq_bind, Option.bind_some]
        exact hput₃
      · rw [getLe, hother₃ 4 4 (by omega), hother₂ 4 4 (by omega)]
        exact hcode
      · rw [getLe, hother₃ 16 8 (by omega)]
        exact hsize
  | get t key =>
      obtain ⟨b₂, hput₂, hlen₂, hkey, hother₂⟩ :=
        putLe_append rest (show 24 + 8 ≤ b₁.length by omega) key.isLt
      obtain ⟨b₃, hput₃, hlen₃, hsize, hother₃⟩ :=
        putLe_append rest (show 16 + 8 ≤ b₂.length by omega) (getSize_lt (.get t key))
      refine ⟨b₃, ?_, by omega, by omega, ?_, hsize, ?_⟩
      · simp only [serializeTo, hput₁, hput₂, Option.bind_eq_bind, Option.bind_some]
        exact hput₃
      · rw [getLe, hother₃ 4 4 (by omega), hother₂ 4 4 (by omega)]
        exact hcode
      · show getLe 8 24 b₃ = _
        rw [getLe, hother₃ 24 8 (by omega)]
        exact hkey

/-- What is behind the struct stays as it is. -/
theorem serializeTo_front (r : KvRequest) {buf : List UInt8} (hroom : r.inputEnd ≤ buf.length) :
    ∃ b, r.serializeTo buf = some (b ++ buf.drop r.getSize) ∧
      b.length = (buf.take r.getSize).length ∧ r.Encoded b := by
  have hfront : r.inputEnd ≤ (buf.take r.getSize).length := by
    have hend := r.inputEnd_bounds.2
    have hsize := r.getSize_bounds.1
    rw [List.length_take]
    omega
  have hserialize := r.serializeTo_encoded (buf.drop r.getSize) hfront
  rwa [List.take_append_drop] at hserialize

/-- There is no other room for it. -/
theorem inputEnd_le_of_serializeTo {r : KvRequest} {buf buf' : List UInt8}
    (h : r.serializeTo buf = some buf') : r.inputEnd ≤ buf.length := by
  obtain ⟨b₁, hput₁, h⟩ := Option.bind_eq_some_iff.mp h
  have hlen₁ := (ChangedIn.of_putLe hput₁).2.length
  cases r with
  | put value =>
      obtain ⟨b₂, hput₂, hput₃⟩ := Option.bind_eq_some_iff.mp h
      have hlen₂ := (ChangedIn.of_putLe hput₂).2.length
      have hroom := (ChangedIn.of_put hput₃).1
      rw [value.length_bytes] at hroom
      show 32 + sizeofValue value.ty ≤ buf.length
      omega
  | get t key =>
      obtain ⟨b₂, hput₂, -⟩ := Option.bind_eq_some_iff.mp h
      have hroom := (ChangedIn.of_putLe hput₂).1
      show 32 ≤ buf.length
      omega

variable {e : Env} {g : Gcm} {tee tee' : Tee} {reply : Reply}

/-- The memory from the value of a put on holds the value that is put. -/
theorem readCString_buffer (buffer : TextBuffer) (rest : List UInt8) :
    readCString (buffer.bytes ++ rest) = some (CStr.ofBytes buffer.bytes) := by
  have hmem : (0 : UInt8) ∈ buffer.bytes ++ rest := List.mem_append_left _ buffer.ends
  rw [readCString, if_pos hmem, CStr.ofBytes_append_of_mem buffer.ends]

/-- The handler of a put finds the value and answers with a RID. -/
theorem handleStruct_put {value : PutValue} {b rest : List UInt8}
    (h : (KvRequest.put value).Encoded b) :
    handleStruct e g tee (b ++ rest) (.put value.ty) =
      (handleOps e g tee (.put value.val)).bind (answerRid 24 (b ++ rest)) := by
  have hinput : Slice.get 32 value.bytes.length b = some value.bytes := h.input
  cases value with
  | num n v =>
      have hget : Slice.get 32 n.size (b ++ rest) = some (plainBytes (.num n) v) := by
        rw [← length_plainBytes_num n v]
        exact get_append_of_eq_some hinput rest
      simp only [handleStruct, PutValue.ty, PutValue.val, hget, plainValue_plainBytes,
        Option.bind_eq_bind, Option.bind_some]
  | text buffer =>
      have hread : readCString ((b ++ rest).drop 32) = some (CStr.ofBytes buffer.bytes) := by
        rw [drop_of_get (get_append_of_eq_some hinput rest)]
        exact readCString_buffer buffer _
      simp only [handleStruct, PutValue.ty, PutValue.val, hread, Option.bind_eq_bind,
        Option.bind_some]

theorem reply_put {val : Value} (h : handleOps e g tee (.put val) = some (reply, tee')) :
    ∃ rid, reply = .rid rid := by
  obtain ⟨⟨rid, st⟩, -, heq⟩ := Option.map_eq_some_iff.mp h
  cases heq
  exact ⟨rid, rfl⟩

theorem reply_getNum {n : Num} {key : RID}
    (h : handleOps e g tee (.getNum n key) = some (reply, tee')) :
    ∃ value, reply = .value ⟨.num n, value⟩ := by
  obtain ⟨value, -, heq⟩ := Option.bind_eq_some_iff.mp h
  cases heq
  exact ⟨value, rfl⟩

theorem length_textWindow {st : Stores} {key : RID} {bs : List UInt8}
    (h : st.textWindow e key = some bs) : bs.length = stringLength := by
  unfold Stores.textWindow at h
  split at h
  · obtain ⟨value, -, heq⟩ := Option.bind_eq_some_iff.mp h
    cases heq
    rw [List.length_take, List.length_append, List.length_map, List.length_range]
    omega
  · split at h
    · simp only [Option.ite_none_right_eq_some, Option.some.injEq] at h
      rw [← h.2, List.length_map, List.length_range]
    · cases h

theorem reply_getText {key : RID} (h : handleOps e g tee (.getText key) = some (reply, tee')) :
    ∃ bs, reply = .bytes bs ∧ bs.length = stringLength := by
  obtain ⟨bs, hwindow, heq⟩ := Option.map_eq_some_iff.mp h
  cases heq
  exact ⟨bs, rfl, length_textWindow hwindow⟩

/-- The bytes of a result, and where they go. -/
def resultBytes : Reply → Nat × List UInt8
  | .rid rid => (24, Bytes.le 8 rid.toNat)
  | .value val => (32, plainBytes val.1 val.2)
  | .bytes bs => (32, bs)
  | .done | .cmp _ => (32, [])

/-- The handler writes the result into the struct. -/
theorem Encoded.handleStruct {r : KvRequest} {b : List UInt8} (h : r.Encoded b)
    (hops : handleOps e g tee r.request = some (reply, tee')) (rest : List UInt8) :
    Zeno.handleStruct e g tee (b ++ rest) r.command =
        (Slice.put (resultBytes reply).1 (resultBytes reply).2 (b ++ rest)).map (tee', ·) ∧
      ∀ b', Slice.get (resultBytes reply).1 (resultBytes reply).2.length b' =
        some (resultBytes reply).2 → r.copyResultFrom b' = some reply := by
  cases r with
  | put value =>
      obtain ⟨rid, rfl⟩ := reply_put hops
      constructor
      · show Zeno.handleStruct e g tee (b ++ rest) (.put value.ty) = _
        rw [handleStruct_put h, show handleOps e g tee (.put value.val) = _ from hops]
        rfl
      · intro b' hb'
        have hkey : Slice.get 24 8 b' = some (Bytes.le 8 rid.toNat) := by
          rwa [resultBytes, Bytes.length_le] at hb'
        show (getLe 8 24 b').map _ = _
        rw [getLe, hkey, Option.map_some, Option.map_some, Bytes.ofLe_le_of_lt rid.isLt,
          BitVec.ofNat_toNat, BitVec.setWidth_eq]
  | get t key =>
      have hkey : getLe 8 24 (b ++ rest) = some key.toNat :=
        getLe_append_of_eq_some h.input rest
      have hrid : BitVec.ofNat 64 key.toNat = key := by
        rw [BitVec.ofNat_toNat, BitVec.setWidth_eq]
      cases t with
      | num n =>
          obtain ⟨value, rfl⟩ := reply_getNum hops
          have hops' : handleOps e g tee (.getNum n key) = _ := hops
          constructor
          · show Zeno.handleStruct e g tee (b ++ rest) (.get (.num n)) = _
            simp only [Zeno.handleStruct, hkey, hrid, hops', Option.bind_eq_bind, Option.bind_some]
            rfl
          · intro b' hb'
            have hget : Slice.get 32 n.size b' = some (plainBytes (.num n) value) := by
              rwa [resultBytes, length_plainBytes_num n value] at hb'
            show (Slice.get 32 n.size b').map _ = _
            rw [hget, Option.map_some, plainValue_plainBytes]
      | text =>
          obtain ⟨bs, rfl, hbs⟩ := reply_getText hops
          have hops' : handleOps e g tee (.getText key) = _ := hops
          constructor
          · show Zeno.handleStruct e g tee (b ++ rest) (.get .text) = _
            simp only [Zeno.handleStruct, hkey, hrid, hops', Option.bind_eq_bind, Option.bind_some]
            rfl
          · intro b' hb'
            have hget : Slice.get 32 stringLength b' = some bs := by
              rwa [resultBytes, hbs] at hb'
            show (Slice.get 32 stringLength b').map _ = _
            rw [hget, Option.map_some]

/-- The result of a put is the key, and the result of a get is the value. -/
theorem resultBytes_bounds {r : KvRequest}
    (hops : handleOps e g tee r.request = some (reply, tee')) :
    24 ≤ (resultBytes reply).1 ∧
      (resultBytes reply).1 + (resultBytes reply).2.length ≤ r.valueEnd ∧
      r.valueEnd ≤ max r.inputEnd ((resultBytes reply).1 + (resultBytes reply).2.length) := by
  cases r with
  | put value =>
      obtain ⟨rid, rfl⟩ := reply_put hops
      refine ⟨Nat.le_refl _, ?_, Nat.le_max_left _ _⟩
      show 24 + (Bytes.le 8 rid.toNat).length ≤ 32 + sizeofValue value.ty
      rw [Bytes.length_le]
      omega
  | get t key =>
      have hend (bs : List UInt8) (hbs : bs.length = sizeofValue t) :
          24 ≤ 32 ∧ 32 + bs.length ≤ 32 + sizeofValue t ∧
            32 + sizeofValue t ≤ max 32 (32 + bs.length) := by
        omega
      cases t with
      | num n =>
          obtain ⟨value, rfl⟩ := reply_getNum hops
          exact hend _ (length_plainBytes_num n value)
      | text =>
          obtain ⟨bs, rfl, hbs⟩ := reply_getText hops
          exact hend bs hbs

theorem isBatch_command (r : KvRequest) : r.command.isBatch = false := by
  cases r <;> rfl

/-- A request is handled in its own struct. -/
theorem Encoded.handle {r : KvRequest} {b : List UInt8} (h : r.Encoded b)
    (hops : handleOps e g tee r.request = some (reply, tee')) (hroom : r.valueEnd ≤ b.length)
    (depth : Nat) (rest : List UInt8) :
    ∃ b', handleRegion e g (depth + 1) tee (b ++ rest) = some (tee', b' ++ rest) ∧
      b'.length = b.length ∧ r.Answered reply b' := by
  have hend := r.inputEnd_bounds
  obtain ⟨hstruct, hcopy⟩ := h.handleStruct hops rest
  obtain ⟨hpos, hresult, -⟩ := resultBytes_bounds hops
  obtain ⟨b₁, hput₁, hlen₁, hget₁, hother₁⟩ :=
    put_append (resultBytes reply).2 rest (hresult.trans hroom)
  obtain ⟨b₂, hput₂, hlen₂, hresp, hother₂⟩ :=
    putLe_append rest (show 8 + 4 ≤ b₁.length by omega) (show 0 < 256 ^ 4 by decide)
  refine ⟨b₂, ?_, by omega, ?_, hresp, ?_⟩
  · rw [handleRegion_struct (getLe_append_of_eq_some h.code rest) r.isBatch_command, hstruct, hput₁]
    simp only [Option.map_some, Option.bind_some, hput₂]
  · rw [getLe, hother₂ 16 8 (by omega), hother₁ 16 8 (by omega)]
    exact h.size
  · apply hcopy
    rw [hother₂ _ _ (by omega)]
    exact hget₁

/-- What is behind the struct stays as it is. -/
theorem Encoded.handle_front {r : KvRequest} {buf : List UInt8}
    (h : r.Encoded (buf.take r.getSize))
    (hops : handleOps e g tee r.request = some (reply, tee')) (hroom : r.valueEnd ≤ buf.length)
    (depth : Nat) :
    ∃ b, handleRegion e g (depth + 1) tee buf = some (tee', b ++ buf.drop r.getSize) ∧
      b.length = (buf.take r.getSize).length ∧ r.Answered reply b := by
  have hfront : r.valueEnd ≤ (buf.take r.getSize).length := by
    have hsize := r.getSize_bounds.1
    rw [List.length_take]
    omega
  have hhandle := h.handle hops hfront depth (buf.drop r.getSize)
  rwa [List.take_append_drop] at hhandle

/-- There is no other room for the result. -/
theorem Encoded.valueEnd_le {r : KvRequest} {buf : List UInt8}
    (h : r.Encoded (buf.take r.getSize))
    (hops : handleOps e g tee r.request = some (reply, tee')) {depth : Nat}
    {x : Tee × List UInt8} (hhandle : handleRegion e g (depth + 1) tee buf = some x) :
    r.valueEnd ≤ buf.length := by
  have hroom : r.inputEnd ≤ buf.length := h.room.trans (List.length_take_le' _ _)
  have hcode := getLe_append_of_eq_some h.code (buf.drop r.getSize)
  have hstruct := (h.handleStruct hops (buf.drop r.getSize)).1
  rw [List.take_append_drop] at hcode hstruct
  obtain ⟨-, -, hmax⟩ := resultBytes_bounds hops
  rw [handleRegion_struct hcode r.isBatch_command, hstruct] at hhandle
  obtain ⟨y, hput, -⟩ := Option.bind_eq_some_iff.mp hhandle
  obtain ⟨m, hput, -⟩ := Option.map_eq_some_iff.mp hput
  have hresult := (ChangedIn.of_put hput).1
  omega

/-- A request that the worker does not survive. -/
theorem Encoded.handle_none {r : KvRequest} {b : List UInt8} (h : r.Encoded b)
    (hops : handleOps e g tee r.request = none) (depth : Nat) (rest : List UInt8) :
    handleRegion e g (depth + 1) tee (b ++ rest) = none := by
  have hstruct : Zeno.handleStruct e g tee (b ++ rest) r.command = none := by
    cases r with
    | put value =>
        show Zeno.handleStruct e g tee (b ++ rest) (.put value.ty) = none
        rw [handleStruct_put h, show handleOps e g tee (.put value.val) = none from hops]
        rfl
    | get t key =>
        have hkey : getLe 8 24 (b ++ rest) = some key.toNat :=
          getLe_append_of_eq_some h.input rest
        have hrid : BitVec.ofNat 64 key.toNat = key := by
          rw [BitVec.ofNat_toNat, BitVec.setWidth_eq]
        cases t with
        | num n =>
            have hops' : handleOps e g tee (.getNum n key) = none := hops
            show Zeno.handleStruct e g tee (b ++ rest) (.get (.num n)) = none
            simp only [Zeno.handleStruct, hkey, hrid, hops', Option.bind_eq_bind,
              Option.bind_some, Option.bind_none]
        | text =>
            have hops' : handleOps e g tee (.getText key) = none := hops
            show Zeno.handleStruct e g tee (b ++ rest) (.get .text) = none
            simp only [Zeno.handleStruct, hkey, hrid, hops', Option.bind_eq_bind,
              Option.bind_some, Option.bind_none]
  rw [handleRegion_struct (getLe_append_of_eq_some h.code rest) r.isBatch_command, hstruct,
    Option.bind_none]

/-- The result is read from the struct. -/
theorem Answered.copyResultFrom {r : KvRequest} {b : List UInt8} (h : r.Answered reply b)
    (rest : List UInt8) : r.copyResultFrom (b ++ rest) = some reply := by
  have hresult := h.result
  cases r with
  | put value =>
      obtain ⟨key, hkey, heq⟩ := Option.map_eq_some_iff.mp hresult
      show (getLe 8 24 (b ++ rest)).map _ = _
      rw [getLe_append_of_eq_some hkey, Option.map_some, heq]
  | get t key =>
      cases t with
      | num n =>
          obtain ⟨bs, hbs, heq⟩ := Option.map_eq_some_iff.mp hresult
          show (Slice.get 32 n.size (b ++ rest)).map _ = _
          rw [get_append_of_eq_some hbs, Option.map_some, heq]
      | text =>
          obtain ⟨bs, hbs, heq⟩ := Option.map_eq_some_iff.mp hresult
          show (Slice.get 32 stringLength (b ++ rest)).map _ = _
          rw [get_append_of_eq_some hbs, Option.map_some, heq]

end KvRequest

/-! ## One request by itself -/

/-- `sendRequest` of a put or a get. -/
def sendKv (e : Env) (g : Gcm) (tee : Tee) (region : List UInt8) (r : KvRequest) :
    Option (Reply × Tee × List UInt8) :=
  sendRequest e g tee region r.serializeTo r.copyResultFrom

variable {e : Env} {g : Gcm} {tee tee' : Tee} {region region' : List UInt8} {reply : Reply}

/-- Sent by itself, a request is the one the worker handles. -/
theorem sendKv_eq (r : KvRequest) (hregion : region.length = reqRegionSize) :
    ∃ region', sendKv e g tee region r =
        (handleOps e g tee r.request).map (fun x => (x.1, x.2, region')) ∧
      region'.length = reqRegionSize := by
  have hvalue : r.valueEnd ≤ region.length := by
    have hmax := r.getSize_bounds
    rw [hregion]
    exact (hmax.1.trans hmax.2).trans (by decide)
  obtain ⟨b, hserialize, hlen, hencoded⟩ :=
    r.serializeTo_encoded [] (r.inputEnd_bounds.2.trans hvalue)
  rw [List.append_nil, List.append_nil] at hserialize
  cases hops : handleOps e g tee r.request with
  | none =>
      have hnone := hencoded.handle_none hops 0 []
      rw [List.append_nil] at hnone
      refine ⟨region, ?_, hregion⟩
      simp only [sendKv, sendRequest, hserialize, hnone, Option.bind_eq_bind,
        Option.bind_some, Option.bind_none, Option.map_none]
  | some x =>
      obtain ⟨b', hhandle, hlen', hanswered⟩ := hencoded.handle hops (hlen ▸ hvalue) 0 []
      rw [List.append_nil, List.append_nil] at hhandle
      refine ⟨b', ?_, by omega⟩
      simp only [sendKv, sendRequest, hserialize, hhandle, hanswered.result, hanswered.resp,
        Option.bind_eq_bind, Option.bind_some, if_true, Option.map_some]

end Zeno
