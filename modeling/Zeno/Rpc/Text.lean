import Zeno.Rpc.Region
import Zeno.Tee.Safety

/-!
# A text on its way in and out

`kv_text_in` has a text encrypted and put, and `kv_text_out` has it encrypted again, and
decrypted.  The text crosses the region four times, under three conventions for its
length.  Each buffer on the way has its own size: the fields of the structs, a `Str`
on the stack with whatever was left there, and an `EncText` that is allocated to fit.  A
copy that leaves its destination fails here, as does a check.  None does, and the text
comes back (`text_survives`).
-/

namespace Zeno

open Slice

/-! ## The client -/

/-- `sizeof(Str)`. -/
def sizeofStr : Nat := 4 + stringLength

/-- `sizeof(EncStr)`. -/
def sizeofEncStr : Nat := 4 + (ivSize + tagSize + stringLength)

/-- `COPY_PLAIN` and `COPY_ENC`: the length, and as many bytes, into a struct whose data has a
capacity. -/
def copySized (cap toPos fromPos : Nat) (dest source : List UInt8) : Option (List UInt8) := do
  let len ← getLe 4 fromPos source
  let dest ← putLe 4 toPos len dest
  let data ← get (fromPos + 4) len source
  putIn cap (toPos + 4) data dest

/-- `COPY_PLAIN`. -/
def copyPlain := copySized stringLength

/-- `COPY_ENC`. -/
def copyEnc := copySized (ivSize + tagSize + stringLength)

section Client

variable (e : Env) (g : Gcm) (tee : Tee) (region : List UInt8)

/-- `enc_text_encrypt`. -/
def encTextEncrypt (plain out : List UInt8) : Option (List UInt8 × Tee × List UInt8) :=
  sendRequest e g tee region
    (fun region => do
      let region ← putLe 4 4 Command.stringEnc.code region
      copyPlain 12 0 region plain)
    (copyEnc 0 556 out)

/-- `enc_text_decrypt`. -/
def encTextDecrypt (cipher out : List UInt8) : Option (List UInt8 × Tee × List UInt8) :=
  sendRequest e g tee region
    (fun region => do
      let region ← putLe 4 4 Command.stringDec.code region
      copyEnc 12 0 region cipher)
    (copyPlain 0 584 out)

/-- `kv_text_put_enc`. -/
def kvTextPutEnc (cipher : List UInt8) : Option (RID × Tee × List UInt8) :=
  sendRequest e g tee region
    (fun region => do
      let region ← putLe 4 4 Command.stringPutEnc.code region
      copyEnc 24 0 region cipher)
    (fun region => (getLe 8 16 region).map (BitVec.ofNat 64))

/-- `kv_text_get_enc`. -/
def kvTextGetEnc (out : List UInt8) (key : RID) : Option (List UInt8 × Tee × List UInt8) :=
  sendRequest e g tee region
    (fun region => do
      let region ← putLe 4 4 Command.stringGetEnc.code region
      putLe 8 584 key.toNat region)
    (copyEnc 0 12 out)

/-- `cstring_to_enctext_with_len`, with what is on the stack where `str` will be. -/
def cstringToEnctextWithLen (stack : List UInt8) (s : CStr) :
    Option (List UInt8 × Tee × List UInt8) :=
  let len := s.length
  if len < stringLength then do
    let result := List.replicate (4 + ivSize + tagSize + len) 0
    let str ← putLe 4 0 len stack
    let str ← put 4 s.bytes str
    encTextEncrypt e g tee region str result
  else none

/-- `kv_text_in`. -/
def kvTextIn (stack : List UInt8) (sIn : CStr) : Option (RID × Tee × List UInt8) := do
  let (estr, tee, region) ← cstringToEnctextWithLen e g tee region stack sIn
  kvTextPutEnc e g tee region estr

/-- `kv_text_out`. -/
def kvTextOut (stack : List UInt8) (id : RID) : Option (CStr × Tee × List UInt8) := do
  let (estr, tee, region) ← kvTextGetEnc e g tee region (List.replicate sizeofEncStr 0) id
  let (str, tee, region) ← encTextDecrypt e g tee region estr stack
  let len ← getLe 4 0 str
  let data ← get 4 len str
  let pOut ← put 0 data (List.replicate stringLength 0)
  let text ← readCString pOut
  some (text, tee, region)

end Client

/-! ## Structs with a length -/

/-- A `Str` or an `EncStr` holds some bytes. -/
structure Sized (m : List UInt8) (pos : Nat) (data : List UInt8) : Prop where
  len : getLe 4 pos m = some data.length
  data : get (pos + 4) data.length m = some data

variable {e : Env} {g : Gcm} {tee tee' : Tee} {region : List UInt8}

/-- A struct stays when something is copied elsewhere. -/
theorem Sized.overwrite {pos pos' : Nat} {data bs m : List UInt8} (h : Sized m pos data)
    (room : pos' + bs.length ≤ m.length)
    (apart : pos + 4 + data.length ≤ pos' ∨ pos' + bs.length ≤ pos) :
    Sized (overwrite pos' bs m) pos data := by
  constructor
  · rw [getLe_overwrite_of_disjoint room (by omega)]
    exact h.len
  · rw [get_overwrite_of_disjoint room (by omega)]
    exact h.data

/-- A length and as many bytes are stored as a struct.  What lies outside stays. -/
theorem put_sized (pos : Nat) (m : List UInt8) {data : List UInt8} (hlt : data.length < 256 ^ 4)
    (room : pos + 4 + data.length ≤ m.length) :
    ∃ m', ((putLe 4 pos data.length m).bind fun m => put (pos + 4) data m) = some m' ∧
      m'.length = m.length ∧ Sized m' pos data ∧
      ∀ pos' n, pos' + n ≤ pos ∨ pos + 4 + data.length ≤ pos' → get pos' n m' = get pos' n m := by
  have hlen : pos + (Bytes.le 4 data.length).length ≤ m.length := by
    rw [Bytes.length_le]
    omega
  have hdata : pos + 4 + data.length ≤
      (Slice.overwrite pos (Bytes.le 4 data.length) m).length := by
    rw [length_overwrite hlen]
    exact room
  refine ⟨Slice.overwrite (pos + 4) data (Slice.overwrite pos (Bytes.le 4 data.length) m),
    ?_, ?_, ⟨?_, get_overwrite_self hdata⟩, ?_⟩
  · rw [putLe_of_le (by omega), Option.bind_some, put_of_le hdata]
  · rw [length_overwrite hdata, length_overwrite hlen]
  · rw [getLe_overwrite_of_disjoint hdata (.inl (Nat.le_refl _)),
      getLe_overwrite_self (by omega) hlt]
  · intro pos' n apart
    rw [get_overwrite_of_disjoint hdata (by omega),
      get_overwrite_of_disjoint hlen (by rw [Bytes.length_le]; omega)]

/-- A copy brings a struct over. -/
theorem copySized_holds {cap fromPos : Nat} {source data : List UInt8} (toPos : Nat)
    (dest : List UInt8) (h : Sized source fromPos data) (hcap : data.length ≤ cap)
    (hlt : data.length < 256 ^ 4) (room : toPos + 4 + data.length ≤ dest.length) :
    ∃ dest', copySized cap toPos fromPos dest source = some dest' ∧ dest'.length = dest.length ∧
      Sized dest' toPos data ∧
      ∀ pos n, pos + n ≤ toPos ∨ toPos + 4 + data.length ≤ pos →
        get pos n dest' = get pos n dest := by
  obtain ⟨dest', hput, hrest⟩ := put_sized toPos dest hlt room
  refine ⟨dest', ?_, hrest⟩
  simp only [copySized, h.len, h.data, Option.bind_eq_bind, Option.bind_some, putIn_of_le hcap]
  exact hput

/-! ## The four requests -/

/-- A request that is serialized, handled and copied back. -/
theorem sendRequest_of {α : Type} {serializeTo : List UInt8 → Option (List UInt8)}
    {copyResultFrom : List UInt8 → Option α} {cmd : Command} {region₁ region₂ : List UInt8}
    {res : α}
    (hserialize : serializeTo region = some region₁)
    (hcode : getLe 4 4 region₁ = some cmd.code) (hcmd : cmd.isBatch = false)
    (hhandle : handleStruct e g tee region₁ cmd = some (tee', region₂))
    (hlen : 12 ≤ region₂.length)
    (hcopy : copyResultFrom (overwrite 8 (Bytes.le 4 0) region₂) = some res) :
    sendRequest e g tee region serializeTo copyResultFrom =
      some (res, tee', overwrite 8 (Bytes.le 4 0) region₂) := by
  have hresp : getLe 4 8 (overwrite 8 (Bytes.le 4 0) region₂) = some 0 :=
    getLe_overwrite_self hlen (by decide)
  have hzero : putLe 4 8 0 region₂ = some (overwrite 8 (Bytes.le 4 0) region₂) :=
    putLe_of_le hlen 0
  simp only [sendRequest, hserialize, handleRegion_struct hcode hcmd, hhandle, hzero, hcopy, hresp,
    Option.bind_eq_bind, Option.bind_some, Option.map_some, if_true]

/-- A request whose result is a struct. -/
theorem sendRequest_sized {serializeTo : List UInt8 → Option (List UInt8)} {cmd : Command}
    {cap fromPos : Nat} {region₁ region₂ out data : List UInt8}
    (hserialize : serializeTo region = some region₁)
    (hcode : getLe 4 4 region₁ = some cmd.code) (hcmd : cmd.isBatch = false)
    (hhandle : handleStruct e g tee region₁ cmd = some (tee', region₂))
    (hlen : region₂.length = reqRegionSize) (h : Sized region₂ fromPos data) (hpos : 12 ≤ fromPos)
    (hcap : data.length ≤ cap) (hlt : data.length < 256 ^ 4)
    (room : 4 + data.length ≤ out.length) :
    ∃ out' region', sendRequest e g tee region serializeTo (copySized cap 0 fromPos out) =
        some (out', tee', region') ∧ region'.length = reqRegionSize ∧ Sized out' 0 data := by
  have hsize : reqRegionSize = 1048576 := rfl
  have hzero : 8 + (Bytes.le 4 0).length ≤ region₂.length := by
    rw [Bytes.length_le]
    omega
  have hkept : Sized (Slice.overwrite 8 (Bytes.le 4 0) region₂) fromPos data :=
    h.overwrite hzero (by rw [Bytes.length_le]; omega)
  obtain ⟨out', hcopy, -, hout, -⟩ := copySized_holds 0 out hkept hcap hlt (by omega)
  refine ⟨out', Slice.overwrite 8 (Bytes.le 4 0) region₂, ?_, ?_, hout⟩
  · exact sendRequest_of hserialize hcode hcmd hhandle (by omega) hcopy
  · rw [length_overwrite hzero, hlen]

/-- A request with a struct that is copied in behind the command. -/
theorem serialize_sized (cap pos : Nat) (cmd : Command) (region : List UInt8)
    {source data : List UInt8} (h : Sized source 0 data) (hcap : data.length ≤ cap)
    (hlt : data.length < 256 ^ 4) (hpos : 8 ≤ pos)
    (room : pos + 4 + data.length ≤ region.length) :
    ∃ region₁, ((putLe 4 4 cmd.code region).bind fun region =>
        copySized cap pos 0 region source) = some region₁ ∧
      region₁.length = region.length ∧ getLe 4 4 region₁ = some cmd.code ∧
      Sized region₁ pos data := by
  have hput := putLe_of_le (show 4 + 4 ≤ region.length by omega) cmd.code
  have hlen : (overwrite 4 (Bytes.le 4 cmd.code) region).length = region.length :=
    length_overwrite (by rw [Bytes.length_le]; omega)
  obtain ⟨region₁, hcopy, hlength, hsized, hframe⟩ :=
    copySized_holds pos (overwrite 4 (Bytes.le 4 cmd.code) region) h hcap hlt (by omega)
  refine ⟨region₁, ?_, hlength.trans hlen, ?_, hsized⟩
  · rw [hput, Option.bind_some]
    exact hcopy
  · rw [getLe, hframe 4 4 (by omega)]
    exact getLe_overwrite_self (by omega) cmd.code_lt

/-- The numbers of the layout. -/
theorem layout_sizes : reqRegionSize = 1048576 ∧ stringLength = 540 ∧ ivSize = 12 ∧ tagSize = 16 :=
  ⟨rfl, rfl, rfl, rfl⟩

/-- `CMD_STRING_ENC`. -/
theorem encTextEncrypt_holds (tee : Tee) (out : List UInt8) {plain data : List UInt8}
    (h : Sized plain 0 data)
    (hlt : data.length < stringLength) (hregion : region.length = reqRegionSize)
    (hout : 4 + (ivSize + tagSize + data.length) ≤ out.length) :
    ∃ out' region', encTextEncrypt e g tee region plain out =
        some (out', { tee with iv := (gcmEncrypt g tee.iv data).1 }, region') ∧
      region'.length = reqRegionSize ∧ Sized out' 0 (gcmEncrypt g tee.iv data).2 := by
  obtain ⟨hsize, hmax, hiv, htag⟩ := layout_sizes
  have hcipher := length_gcmEncrypt g tee.iv data
  have hops : handleOps e g tee (.enc .text data) =
      some (.bytes (gcmEncrypt g tee.iv data).2, { tee with iv := (gcmEncrypt g tee.iv data).1 }) :=
    if_pos (decide_eq_true hlt)
  obtain ⟨region₁, hserialize, hlen₁, hcode, hsized⟩ :=
    serialize_sized stringLength 12 .stringEnc region h (by omega) (by omega) (by omega) (by omega)
  obtain ⟨region₂, hput, hlen₂, hsized₂, -⟩ :=
    put_sized 556 region₁ (show (gcmEncrypt g tee.iv data).2.length < 256 ^ 4 by omega) (by omega)
  have hhandle : handleStruct e g tee region₁ .stringEnc =
      some ({ tee with iv := (gcmEncrypt g tee.iv data).1 }, region₂) := by
    have hdata : get 16 data.length region₁ = some data := hsized.data
    have hsum : data.length + ivSize + tagSize = (gcmEncrypt g tee.iv data).2.length := by omega
    have hcap : (gcmEncrypt g tee.iv data).2.length ≤ ivSize + tagSize + stringLength := by omega
    simp only [handleStruct, hsized.len, hdata, hops, hsum, putIn_of_le hcap, Option.bind_eq_bind,
      Option.bind_some, Option.map_eq_bind]
    rw [← Option.bind_assoc, hput]
    rfl
  exact sendRequest_sized hserialize hcode rfl hhandle (by omega) hsized₂ (by omega) (by omega)
    (by omega) (by omega)

/-- `CMD_STRING_PUT_ENC`. -/
theorem kvTextPutEnc_holds {cipher data : List UInt8} {rid : RID} (h : Sized cipher 0 data)
    (hlt : data.length < ivSize + tagSize + stringLength) (hregion : region.length = reqRegionSize)
    (hops : handleOps e g tee (.putEnc .text data) = some (.rid rid, tee')) :
    ∃ region', kvTextPutEnc e g tee region cipher = some (rid, tee', region') ∧
      region'.length = reqRegionSize := by
  obtain ⟨hsize, hmax, hiv, htag⟩ := layout_sizes
  obtain ⟨region₁, hserialize, hlen₁, hcode, hsized⟩ :=
    serialize_sized (ivSize + tagSize + stringLength) 24 .stringPutEnc region h (by omega)
      (by omega) (by omega) (by omega)
  have hroom : 16 + (Bytes.le 8 rid.toNat).length ≤ region₁.length := by
    rw [Bytes.length_le]
    omega
  have hlen₂ : (overwrite 16 (Bytes.le 8 rid.toNat) region₁).length = region₁.length :=
    length_overwrite hroom
  have hhandle : handleStruct e g tee region₁ .stringPutEnc =
      some (tee', overwrite 16 (Bytes.le 8 rid.toNat) region₁) := by
    have hdata : get 28 data.length region₁ = some data := hsized.data
    simp only [handleStruct, answerRid, hsized.len, hdata, hops, Option.bind_eq_bind,
      Option.bind_some, putLe_of_le (show 16 + 8 ≤ region₁.length by omega), Option.map_some]
  have hzero : 8 + (Bytes.le 4 0).length ≤
      (overwrite 16 (Bytes.le 8 rid.toNat) region₁).length := by
    rw [Bytes.length_le]
    omega
  refine ⟨_, sendRequest_of hserialize hcode rfl hhandle (by omega) ?_, ?_⟩
  · rw [getLe_overwrite_of_disjoint hzero (by rw [Bytes.length_le]; omega),
      getLe_overwrite_self (by omega) rid.isLt, Option.map_some, BitVec.ofNat_toNat,
      BitVec.setWidth_eq]
  · rw [length_overwrite hzero]
    omega

/-- `CMD_STRING_GET_ENC`. -/
theorem kvTextGetEnc_holds (out : List UInt8) {data : List UInt8} {key : RID}
    (hlt : data.length < ivSize + tagSize + stringLength) (hregion : region.length = reqRegionSize)
    (hops : handleOps e g tee (.getEnc .text key) = some (.bytes data, tee'))
    (hout : 4 + data.length ≤ out.length) :
    ∃ out' region', kvTextGetEnc e g tee region out key = some (out', tee', region') ∧
      region'.length = reqRegionSize ∧ Sized out' 0 data := by
  obtain ⟨hsize, hmax, hiv, htag⟩ := layout_sizes
  obtain ⟨region₁, hserialize, hlen₁, hcode, hkey⟩ : ∃ region₁,
      ((putLe 4 4 Command.stringGetEnc.code region).bind fun region =>
        putLe 8 584 key.toNat region) = some region₁ ∧ region₁.length = region.length ∧
      getLe 4 4 region₁ = some Command.stringGetEnc.code ∧
      getLe 8 584 region₁ = some key.toNat := by
    have hlen : (overwrite 4 (Bytes.le 4 Command.stringGetEnc.code) region).length =
        region.length := length_overwrite (by rw [Bytes.length_le]; omega)
    have hroom : 584 + (Bytes.le 8 key.toNat).length ≤
        (overwrite 4 (Bytes.le 4 Command.stringGetEnc.code) region).length := by
      rw [Bytes.length_le]
      omega
    refine ⟨overwrite 584 (Bytes.le 8 key.toNat)
      (overwrite 4 (Bytes.le 4 Command.stringGetEnc.code) region), ?_, ?_, ?_, ?_⟩
    · rw [putLe_of_le (by omega), Option.bind_some, putLe_of_le (by omega)]
    · rw [length_overwrite hroom, hlen]
    · rw [getLe_overwrite_of_disjoint hroom (by omega)]
      exact getLe_overwrite_self (by omega) (Command.code_lt _)
    · exact getLe_overwrite_self (by omega) key.isLt
  obtain ⟨region₂, hput, hlen₂, hsized₂, -⟩ :=
    put_sized 12 region₁ (show data.length < 256 ^ 4 by omega) (by omega)
  have hhandle : handleStruct e g tee region₁ .stringGetEnc = some (tee', region₂) := by
    simp only [handleStruct, hkey, BitVec.ofNat_toNat, BitVec.setWidth_eq, hops,
      putIn_of_le hlt.le, Option.bind_eq_bind, Option.bind_some, Option.map_eq_bind]
    rw [← Option.bind_assoc, hput]
    rfl
  exact sendRequest_sized hserialize hcode rfl hhandle (by omega) hsized₂ (by omega) (by omega)
    (by omega) hout

/-- `CMD_STRING_DEC`. -/
theorem encTextDecrypt_holds (out : List UInt8) {cipher data plain : List UInt8}
    (h : Sized cipher 0 data)
    (hlt : plain.length < stringLength) (hlen : data.length = ivSize + tagSize + plain.length)
    (hregion : region.length = reqRegionSize)
    (hops : handleOps e g tee (.dec .text data) = some (.bytes plain, tee'))
    (hout : 4 + plain.length ≤ out.length) :
    ∃ out' region', encTextDecrypt e g tee region cipher out = some (out', tee', region') ∧
      region'.length = reqRegionSize ∧ Sized out' 0 plain := by
  obtain ⟨hsize, hmax, hiv, htag⟩ := layout_sizes
  obtain ⟨region₁, hserialize, hlen₁, hcode, hsized⟩ :=
    serialize_sized (ivSize + tagSize + stringLength) 12 .stringDec region h (by omega) (by omega)
      (by omega) (by omega)
  obtain ⟨region₂, hput, hlen₂, hsized₂, -⟩ :=
    put_sized 584 region₁ (show plain.length < 256 ^ 4 by omega) (by omega)
  have hnul : 588 + plain.length + [(0 : UInt8)].length ≤ region₂.length := by
    rw [List.length_singleton]
    omega
  have hhandle : handleStruct e g tee region₁ .stringDec =
      some (tee', Slice.overwrite (588 + plain.length) [0] region₂) := by
    have hdata : get 16 data.length region₁ = some data := hsized.data
    have hsub : data.length - ivSize - tagSize = plain.length := by omega
    have hone : [(0 : UInt8)].length ≤ stringLength - plain.length := Nat.sub_pos_of_lt hlt
    simp only [handleStruct, hsized.len, hdata, hops, hsub, putIn_of_le hlt.le, putIn_of_le hone,
      Option.bind_eq_bind, Option.bind_some, Option.map_eq_bind]
    rw [← Option.bind_assoc, hput, Option.bind_some, put_of_le hnul]
    rfl
  refine sendRequest_sized hserialize hcode rfl hhandle ?_ (hsized₂.overwrite hnul (by omega))
    (by omega) (by omega) (by omega) hout
  rw [length_overwrite hnul]
  omega

/-! ## The way in and the way out -/

/-- The worker puts a text that the client had encrypted. -/
theorem handleOps_putEnc (tee : Tee) (iv : Iv) {s : CStr} (hlt : s.length < stringLength)
    (room : tee.stores.LocalRoom .text) :
    ∃ rid tee', handleOps e g tee (.putEnc .text (gcmEncrypt g iv s.bytes).2) =
      some (.rid rid, tee') ∧ tee'.stores.Denotes .text rid s := by
  have hplain : decryptPlain g .text (gcmEncrypt g iv s.bytes).2 = some s.bytes :=
    decryptPlain_gcmEncrypt g iv (decide_eq_true hlt)
  have hvalue : plainValue .text s.bytes = s := plainValue_plainBytes .text s
  obtain ⟨⟨rid, st⟩, hput⟩ :=
    Option.isSome_iff_exists.mp ((tee.stores.putLocal_isSome .text s).mpr room)
  refine ⟨rid, { tee with stores := st }, ?_, (Stores.put_local_denotes hput).2.2⟩
  simp only [handleOps, hplain, hvalue, hput, Option.bind_eq_bind, Option.bind_some]
  rfl

/-- `kv_text_in` leaves a RID that denotes the text. -/
theorem kvTextIn_holds {stack : List UInt8} {s : CStr} (hlt : s.length < stringLength)
    (hstack : stack.length = sizeofStr) (hregion : region.length = reqRegionSize)
    (room : tee.stores.LocalRoom .text) :
    ∃ id tee' region', kvTextIn e g tee region stack s = some (id, tee', region') ∧
      region'.length = reqRegionSize ∧ tee'.stores.Denotes .text id s := by
  obtain ⟨hsize, hmax, hiv, htag⟩ := layout_sizes
  have hbytes : s.bytes.length = s.length := rfl
  have hstr : sizeofStr = 544 := rfl
  have hcipher := length_gcmEncrypt g tee.iv s.bytes
  obtain ⟨str, hput, -, hsized, -⟩ :=
    put_sized 0 stack (show s.bytes.length < 256 ^ 4 by omega) (by omega)
  obtain ⟨estr, region₁, henc, hlen₁, hestr⟩ := encTextEncrypt_holds (e := e) (g := g) tee
    (List.replicate (4 + ivSize + tagSize + s.length) 0) hsized (by omega) hregion
    (by rw [List.length_replicate]; omega)
  obtain ⟨rid, tee', hops, hdenotes⟩ := handleOps_putEnc (e := e) (g := g)
    { tee with iv := (gcmEncrypt g tee.iv s.bytes).1 } tee.iv hlt room
  obtain ⟨region₂, hputEnc, hlen₂⟩ := kvTextPutEnc_holds hestr (by omega) hlen₁ hops
  refine ⟨rid, tee', region₂, ?_, hlen₂, hdenotes⟩
  have hstack : ((putLe 4 0 s.length stack).bind fun str => put 4 s.bytes str) = some str := hput
  simp only [kvTextIn, cstringToEnctextWithLen, if_pos hlt, Option.bind_eq_bind]
  rw [← Option.bind_assoc, hstack, Option.bind_some, henc]
  exact hputEnc

/-- The text returned ends at its NUL. -/
theorem readCString_padded {s : CStr} {m : List UInt8} (hlt : s.length < stringLength)
    (h : put 0 s.bytes (List.replicate stringLength 0) = some m) : readCString m = some s := by
  have hbytes : s.bytes.length = s.length := rfl
  rw [put_of_le (by rw [List.length_replicate]; omega), Option.some_inj] at h
  have hm : m = s.bytes ++ List.replicate (stringLength - s.length) 0 := by
    rw [← h, overwrite, List.take_zero, List.nil_append, List.drop_replicate, Nat.zero_add, hbytes]
  have hmem : (0 : UInt8) ∈ m := by
    rw [hm, List.mem_append, List.mem_replicate]
    exact .inr ⟨by omega, rfl⟩
  rw [readCString, if_pos hmem, hm,
    CStr.ofBytes_append_zeros fun b hb => List.eq_of_mem_replicate hb]
  exact congrArg some (CStr.ext (CStr.ofBytes_of_nulFree s.nulFree))

/-- `kv_text_out` returns the text a RID denotes. -/
theorem kvTextOut_holds {stack : List UInt8} {id : RID} {s : CStr} (hlt : s.length < stringLength)
    (hstack : stack.length = sizeofStr) (hregion : region.length = reqRegionSize)
    (h : tee.stores.Denotes .text id s) :
    ∃ tee' region', kvTextOut e g tee region stack id = some (s, tee', region') := by
  obtain ⟨hsize, hmax, hiv, htag⟩ := layout_sizes
  have hbytes : s.bytes.length = s.length := rfl
  have hstr : sizeofStr = 544 := rfl
  have hestr : sizeofEncStr = 572 := rfl
  have hcipher := length_gcmEncrypt g tee.iv s.bytes
  have hfits : plainFits .text s.bytes.length = true := decide_eq_true hlt
  have hget : handleOps e g tee (.getEnc .text id) =
      some (.bytes (gcmEncrypt g tee.iv s.bytes).2,
        { tee with iv := (gcmEncrypt g tee.iv s.bytes).1 }) := by
    simp only [handleOps, h.get, Option.bind_eq_bind, Option.bind_some]
    exact if_pos hfits
  have hdec : handleOps e g { tee with iv := (gcmEncrypt g tee.iv s.bytes).1 }
      (.dec .text (gcmEncrypt g tee.iv s.bytes).2) =
      some (.bytes s.bytes, { tee with iv := (gcmEncrypt g tee.iv s.bytes).1 }) := by
    simp only [handleOps, decryptPlain_gcmEncrypt g tee.iv hfits, Option.map_some]
  obtain ⟨estr, region₁, hgetEnc, hlen₁, hestr₁⟩ :=
    kvTextGetEnc_holds (List.replicate sizeofEncStr 0) (by omega) hregion hget
      (by rw [List.length_replicate]; omega)
  obtain ⟨str, region₂, hdecrypt, -, hstr₂⟩ :=
    encTextDecrypt_holds stack hestr₁ (by omega) hcipher hlen₁ hdec (by omega)
  have hroom : 0 + s.bytes.length ≤ (List.replicate stringLength (0 : UInt8)).length := by
    rw [List.length_replicate]
    omega
  have hdata : get 4 s.bytes.length str = some s.bytes := hstr₂.data
  refine ⟨{ tee with iv := (gcmEncrypt g tee.iv s.bytes).1 }, region₂, ?_⟩
  simp only [kvTextOut, hgetEnc, hdecrypt, hstr₂.len, hdata, put_of_le hroom,
    readCString_padded hlt (put_of_le hroom), Option.bind_eq_bind, Option.bind_some]

/-- Every text shorter than `STRING_LENGTH` goes in and comes out again, whatever is in the
region and on the stack.  Every check passes and every copy stays in its destination, or
there would be no result. -/
theorem text_survives (e : Env) (g : Gcm) (tee : Tee) {s : CStr} (hlt : s.length < stringLength)
    (room : tee.stores.LocalRoom .text) (region stack : List UInt8)
    (hregion : region.length = reqRegionSize) (hstack : stack.length = sizeofStr) :
    ∃ id tee₁ region₁, kvTextIn e g tee region stack s = some (id, tee₁, region₁) ∧
      region₁.length = reqRegionSize ∧
      ∀ region' stack', region'.length = reqRegionSize → stack'.length = sizeofStr →
        ∃ tee₂ region₂, kvTextOut e g tee₁ region' stack' id = some (s, tee₂, region₂) := by
  obtain ⟨id, tee₁, region₁, hin, hlen, hdenotes⟩ := kvTextIn_holds hlt hstack hregion room
  refine ⟨id, tee₁, region₁, hin, hlen, ?_⟩
  intro region' stack' hregion' hstack'
  exact kvTextOut_holds hlt hstack' hregion' hdenotes

/-- The longest text there may be. -/
def longestText : CStr := ⟨List.replicate 539 97, fun h => nomatch List.eq_of_mem_replicate h⟩

theorem text_survives_longest :
    ∃ id tee₁ region₁, kvTextIn .trivial .plain ⟨.zero, ⟨.empty, .fresh⟩⟩
        (List.replicate reqRegionSize 255) (List.replicate sizeofStr 255) longestText =
        some (id, tee₁, region₁) ∧
      ∃ tee₂ region₂, kvTextOut .trivial .plain tee₁ region₁ (List.replicate sizeofStr 255) id =
        some (longestText, tee₂, region₂) := by
  have hlt : longestText.length < stringLength := by
    show (List.replicate 539 (97 : UInt8)).length < 540
    rw [List.length_replicate]
    decide
  have room : (⟨.empty, .fresh⟩ : Stores).LocalRoom .text := .inr (by decide)
  obtain ⟨id, tee₁, region₁, hin, hlen, hout⟩ := text_survives .trivial .plain
    ⟨.zero, ⟨.empty, .fresh⟩⟩ hlt room (List.replicate reqRegionSize 255)
    (List.replicate sizeofStr 255) List.length_replicate List.length_replicate
  exact ⟨id, tee₁, region₁, hin, hout region₁ _ hlen List.length_replicate⟩

end Zeno
