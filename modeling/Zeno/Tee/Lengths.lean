import Zeno.Kv.Texts
import Zeno.Lib.Machine
import Zeno.Tee.Ops

/-!
# The length of texts

Several places copy a text into a buffer of `STRING_LENGTH` bytes: the handler of
`CMD_STRING_GET_ENC`, and the payload of the log, which cuts it.  The bound is tested
where a text comes in.  Substrings and promotions keep it, and so does a replay,
whose buffer is cut.  `kv_text_concat` does not test it.  In a run whose
concatenations stay below the bound no text ever exceeds it, so nothing is lost or
overrun (`texts_fit`).
-/

namespace Zeno

open Machine

/-- A text fits the buffers. -/
def ShortText (value : CStr) : Prop := value.length < stringLength

theorem shortText_empty : ShortText .empty := by
  show 0 < stringLength
  decide

/-- A worker handles a request. -/
def Tee.step (e : Env) (g : Gcm) (tee : Tee) (req : Request) : Option Tee :=
  (handleOps e g tee req).map Prod.snd

/-- The texts that come in are short: `cstring_to_enctext_with_len` tests those that are
encrypted, and the others come in a `char[STRING_LENGTH]`. -/
def ShortInput (g : Gcm) : Request → Prop
  | .putEnc .text cipher => ∀ plain, decryptPlain g .text cipher = some plain →
      plain.length < stringLength
  | .put ⟨.text, value⟩ => ShortText value
  | _ => True

/-- A concatenation stays below `STRING_LENGTH`. -/
def ShortConcat (tee : Tee) : Request → Prop
  | .calculate .textConcat left right =>
      ∀ l r, tee.stores.get .text left = some l → tee.stores.get .text right = some r →
        l.length + r.length < stringLength
  | _ => True

variable {e : Env} {g : Gcm} {tee tee' : Tee}

/-! ## What a request does to the texts -/

theorem Stores.AllTexts.freeAll {P : CStr → Prop} {st : Stores} (all : st.AllTexts P)
    (hempty : P .empty) (xs : List (Ty × RID)) : (st.freeAll xs).AllTexts P := by
  induction xs generalizing st with
  | nil => exact all
  | cons x xs ih => exact ih (all.freeLocal hempty x.1 x.2)

theorem KvMap.AllTexts.applyFields {P : CStr → Prop} {kv kv' : KvMap} (all : kv.AllTexts P)
    {fs : List Field} (h : applyFields kv fs = some kv') (hfs : ∀ f ∈ fs, TextIs P f.val) :
    kv'.AllTexts P := by
  induction fs generalizing kv with
  | nil =>
      cases h
      exact all
  | cons f fs ih =>
      obtain ⟨kv₁, hreplace, hrest⟩ := applyFields_cons_eq_some.mp h
      have hfirst := all.replace hreplace (hfs f List.mem_cons_self)
      exact ih hfirst hrest fun f' hf' => hfs f' (List.mem_cons_of_mem _ hf')

/-- A request keeps a property of all texts, if the text it computes, puts or replays has
it.  A text it promotes had it before. -/
theorem handleOps_allTexts {P : CStr → Prop} {req : Request} {reply : Reply}
    (all : tee.stores.AllTexts P) (hempty : P .empty)
    (h : handleOps e g tee req = some (reply, tee'))
    (computed : ∀ val, req.eval e g tee.stores = some val → TextIs P val)
    (put : ∀ val, req = .put val → TextIs P val)
    (replayed : ∀ payload fs, req = .walReplay payload → openPayload g payload = some fs →
      ∀ f ∈ fs, TextIs P f.val) : tee'.stores.AllTexts P := by
  cases hres : req.result? with
  | some t =>
      obtain ⟨val, rid, st, hval, hput, -, rfl⟩ := handleOps_result_cases h hres
      exact (all.put hput (computed val hval)).freeAll hempty _
  | none =>
      by_cases hfiles : req.writesFiles = false
      · -- the files are as they were, and the local store at most shrank
        have hkv := handleOps_kv h hfiles
        by_cases hclear : req = .localClear
        · subst hclear
          cases h
          exact ⟨fun v hv => absurd hv List.not_mem_nil, all.kv⟩
        · have hloc := handleOps_other h hres hclear
          have hfree := all.freeAll hempty req.frees
          refine ⟨?_, ?_⟩
          · rw [hloc]
            exact hfree.loc
          · rw [hkv]
            exact all.kv
      · cases req with
        | put val =>
            obtain ⟨⟨rid, st⟩, hput, heq⟩ := Option.map_eq_some_iff.mp h
            cases heq
            exact all.put hput (put val rfl)
        | promote t loc target partition =>
            simp only [handleOps, Option.bind_eq_bind, Option.bind_eq_some_iff] at h
            obtain ⟨value, hget, ⟨rid, st⟩, hput, heq⟩ := h
            cases heq
            have hvalue : TextIs P ⟨t, value⟩ := by
              cases t with
              | num n => trivial
              | text => exact all.of_get hget
            exact (all.put hput hvalue).freeLocal hempty t loc
        | walReplay payload =>
            simp only [handleOps, Option.ite_none_right_eq_some, Option.map_eq_some_iff,
              replayPayload_eq, Option.bind_eq_some_iff] at h
            obtain ⟨-, kv, ⟨fs, hopen, happly⟩, heq⟩ := h
            cases heq
            exact ⟨all.loc, all.kv.applyFields happly (replayed payload fs rfl hopen)⟩
        | _ => exact absurd rfl hfiles

/-! ## Short texts -/

theorem short_ofBytes {bytes : List UInt8} (h : bytes.length < stringLength) :
    ShortText (CStr.ofBytes bytes) :=
  Nat.lt_of_le_of_lt (List.takeWhile_sublist _).length_le h

/-- The bytes of a record are read into a buffer whose last byte is cleared. -/
theorem short_walValue {t : Ty} {bytes : List UInt8} {value : t.Val}
    (h : walValue t bytes = some value) : TextIs ShortText ⟨t, value⟩ := by
  cases t with
  | num n => trivial
  | text =>
      simp only [walValue, Option.ite_none_right_eq_some, Option.some.injEq] at h
      obtain ⟨⟨-, hle⟩, rfl⟩ := h
      rw [ofBytes_buffer hle]
      apply short_ofBytes
      rw [List.length_take]
      have hpos : 0 < stringLength := by decide
      omega

theorem short_readRecord {data rest : List UInt8} {f : Field}
    (h : readRecord data = some (f, rest)) : TextIs ShortText f.val := by
  simp only [readRecord, Option.bind_eq_bind, Option.bind_eq_some_iff, Option.some.injEq,
    Prod.mk.injEq] at h
  obtain ⟨_, -, _, -, _, -, _, -, t, -, value, hvalue, rfl, -⟩ := h
  exact short_walValue hvalue

theorem short_readRecords {n : Nat} {data rest : List UInt8} {fs : List Field}
    (h : readRecords n data = some (fs, rest)) : ∀ f ∈ fs, TextIs ShortText f.val := by
  induction n generalizing data fs with
  | zero =>
      cases h
      exact fun f hf => absurd hf List.not_mem_nil
  | succ n ih =>
      simp only [readRecords, Option.bind_eq_bind, Option.bind_eq_some_iff, Prod.exists,
        Option.some.injEq, Prod.mk.injEq] at h
      obtain ⟨f, data₁, hfirst, fs', data₂, hrest, rfl, rfl⟩ := h
      intro f' hf'
      rcases List.mem_cons.mp hf' with rfl | hf'
      · exact short_readRecord hfirst
      · exact ih hrest f' hf'

theorem short_openPayload {payload : List UInt8} {fs : List Field}
    (h : openPayload g payload = some fs) : ∀ f ∈ fs, TextIs ShortText f.val := by
  unfold openPayload at h
  split_ifs at h
  · cases h
    exact fun f hf => absurd hf List.not_mem_nil
  · simp only [readPlaintext, Option.bind_eq_bind, Option.bind_eq_some_iff,
      Option.ite_none_right_eq_some] at h
    obtain ⟨_, -, -, _, -, _, -, _, -, -, ⟨fs', rest⟩, hrecords, -, heq⟩ := h
    cases heq
    exact short_readRecords hrecords

theorem length_textConcat (l r : CStr) : (textConcat l r).length = l.length + r.length :=
  List.length_append

theorem length_textSubstr_le {t res : CStr} {start length : Num.int.Val}
    (h : textSubstr t start length = some res) : res.length ≤ t.length := by
  simp only [textSubstr, Option.ite_none_right_eq_some, Option.some.injEq] at h
  obtain ⟨-, rfl⟩ := h
  exact ((List.take_sublist _ _).trans (List.drop_sublist _ _)).length_le

/-- The text a request computes is short, if its inputs and its concatenation are. -/
theorem short_eval {req : Request} {val : Value} (all : tee.stores.AllTexts ShortText)
    (input : ShortInput g req) (concat : ShortConcat tee req)
    (h : req.eval e g tee.stores = some val) : TextIs ShortText val := by
  cases req with
  | calculate op left right =>
      simp only [Request.eval, Option.bind_eq_bind, Option.bind_eq_some_iff,
        Option.some.injEq] at h
      obtain ⟨l, hl, r, hr, value, hvalue, rfl⟩ := h
      cases op with
      | textConcat =>
          cases hvalue
          exact (length_textConcat l r).trans_lt (concat l r hl hr)
      | _ => trivial
  | intSumBulk keys =>
      obtain ⟨-, -, rfl⟩ := Option.map_eq_some_iff.mp h
      trivial
  | floatSumBulk keys =>
      obtain ⟨-, -, rfl⟩ := Option.map_eq_some_iff.mp h
      trivial
  | extractYear timestamp =>
      obtain ⟨-, -, rfl⟩ := Option.map_eq_some_iff.mp h
      trivial
  | substring str start length =>
      simp only [Request.eval, Option.bind_eq_bind, Option.bind_eq_some_iff,
        Option.some.injEq] at h
      obtain ⟨t, ht, _, -, _, -, res, hres, rfl⟩ := h
      exact Nat.lt_of_le_of_lt (length_textSubstr_le hres) (all.of_get ht)
  | putEnc t cipher =>
      obtain ⟨plain, hplain, rfl⟩ := Option.map_eq_some_iff.mp h
      cases t with
      | num n => trivial
      | text => exact short_ofBytes (input plain hplain)
  | _ => cases h

/-! ## Runs -/

/-- One request. -/
theorem step_shortTexts {req : Request} (all : tee.stores.AllTexts ShortText)
    (input : ShortInput g req) (concat : ShortConcat tee req)
    (h : tee.step e g req = some tee') : tee'.stores.AllTexts ShortText := by
  obtain ⟨⟨reply, tee''⟩, hops, heq⟩ := Option.map_eq_some_iff.mp h
  cases heq
  apply handleOps_allTexts all shortText_empty hops
  · intro val hval
    exact short_eval all input concat hval
  · rintro ⟨t, value⟩ rfl
    cases t with
    | num n => trivial
    | text => exact input
  · rintro payload fs rfl hopen
    exact short_openPayload hopen

/-- Every run. -/
theorem run_shortTexts {iv : Iv}
    (run : Path (Tee.step e g) (fun tee req => ShortInput g req ∧ ShortConcat tee req)
      ⟨iv, ⟨.empty, .fresh⟩⟩ tee) : tee.stores.AllTexts ShortText := by
  apply run.invariant (I := fun tee => tee.stores.AllTexts ShortText)
  · exact ⟨fun v hv => absurd hv List.not_mem_nil, KvMap.allTexts_fresh shortText_empty⟩
  · intro tee req tee' all hok hstep
    exact step_shortTexts all hok.1 hok.2 hstep

/-- A short text is encrypted whole. -/
theorem getEnc_shortText {key : RID} {v : CStr} (h : tee.stores.get .text key = some v)
    (hshort : ShortText v) : ∃ out tee', handleOps e g tee (.getEnc .text key) =
      some (.bytes out, tee') ∧ out.length = ivSize + tagSize + v.length ∧
      gcmDecrypt g out = some (v.bytes, v.length) := by
  have hfits : plainFits .text (plainBytes .text v).length = true := decide_eq_true hshort
  have hlt : v.bytes.length < 2 ^ 32 := Nat.lt_trans hshort (by decide)
  refine ⟨(gcmEncrypt g tee.iv v.bytes).2, { tee with iv := (gcmEncrypt g tee.iv v.bytes).1 },
    ?_, length_gcmEncrypt g tee.iv v.bytes, gcmDecrypt_gcmEncrypt g tee.iv hlt⟩
  simp only [handleOps, h, Option.bind_eq_bind, Option.bind_some]
  exact if_pos hfits

/-- The payload of the log has a short text whole. -/
theorem walValueBytes_shortText {v : CStr} (h : ShortText v) :
    walValueBytes .text v = v.terminated := by
  apply List.take_of_length_le
  rw [CStr.terminated, List.length_append]
  exact h

/-- In every run whose concatenations are short, every text a RID denotes fits the
buffers: it is encrypted whole, into the room of an `EncStr`, and it goes to the log
whole. -/
theorem texts_fit {iv : Iv}
    (run : Path (Tee.step e g) (fun tee req => ShortInput g req ∧ ShortConcat tee req)
      ⟨iv, ⟨.empty, .fresh⟩⟩ tee)
    {key : RID} {v : CStr} (h : tee.stores.get .text key = some v) :
    v.length < stringLength ∧
      (∃ out tee', handleOps e g tee (.getEnc .text key) = some (.bytes out, tee') ∧
        out.length < ivSize + tagSize + stringLength ∧
        gcmDecrypt g out = some (v.bytes, v.length)) ∧
      walValueBytes .text v = v.terminated := by
  have hshort : ShortText v := (run_shortTexts run).of_get h
  obtain ⟨out, tee', hops, hlen, hdec⟩ := getEnc_shortText (e := e) (g := g) h hshort
  have hroom : out.length < ivSize + tagSize + stringLength := by
    rw [hlen]
    exact Nat.add_lt_add_left hshort _
  exact ⟨hshort, ⟨out, tee', hops, hroom, hdec⟩, walValueBytes_shortText hshort⟩

/-- `CMD_STRING_PUT_ENC` of a text of a length. -/
def sealedText (n : Nat) : Request :=
  .putEnc .text (gcmEncrypt .plain .zero (List.replicate n 97)).2

theorem shortInput_sealedText : ShortInput .plain (sealedText 200) := by
  intro plain hplain
  have hlen : (decryptPlain .plain .text
      (gcmEncrypt .plain .zero (List.replicate 200 97)).2).map List.length = some 200 := by
    decide +kernel
  rw [hplain, Option.map_some, Option.some_inj] at hlen
  rw [hlen]
  decide

/-- A worker that has put two texts of a length, and a request for their concatenation. -/
def twoSealed (n : Nat) : Option Tee :=
  run (Tee.step .trivial .plain) ⟨.zero, ⟨.empty, .fresh⟩⟩ [sealedText n, sealedText n]

def concatTexts : Request := .calculate .textConcat (idx2local 0) (idx2local 1)

/-- The worker after two texts of 200 bytes and their concatenation. -/
def concatenated : Tee := ((twoSealed 200).bind (Tee.step .trivial .plain · concatTexts)).get
  (by decide +kernel)

theorem concatenated_run :
    Path (Tee.step .trivial .plain) (fun tee req => ShortInput .plain req ∧ ShortConcat tee req)
      ⟨.zero, ⟨.empty, .fresh⟩⟩ concatenated := by
  have hsome : ((twoSealed 200).bind (Tee.step .trivial .plain · concatTexts)) =
      some concatenated := (Option.some_get _).symm
  obtain ⟨tee, htwo, hconcat⟩ := Option.bind_eq_some_iff.mp hsome
  have hputs : Path (Tee.step .trivial .plain)
      (fun tee req => ShortInput .plain req ∧ ShortConcat tee req) ⟨.zero, ⟨.empty, .fresh⟩⟩ tee :=
    path_of_run (fun req hreq tee => by
      obtain rfl : req = sealedText 200 := by simpa using hreq
      exact ⟨shortInput_sealedText, trivial⟩) htwo
  refine hputs.tail ⟨concatTexts, ⟨trivial, fun l r hl hr => ?_⟩, hconcat⟩
  have hlens : (twoSealed 200).map (fun tee =>
      ((tee.stores.get .text (idx2local 0)).map CStr.length,
        (tee.stores.get .text (idx2local 1)).map CStr.length)) = some (some 200, some 200) := by
    decide +kernel
  rw [htwo, Option.map_some, hl, hr] at hlens
  simp only [Option.map_some, Option.some.injEq, Prod.mk.injEq] at hlens
  rw [hlens.1, hlens.2]
  decide

theorem texts_fit_concat : ∃ v, concatenated.stores.get .text (idx2local 2) = some v ∧
    v.length < stringLength := by
  have hsome : (concatenated.stores.get .text (idx2local 2)).isSome := by decide +kernel
  obtain ⟨v, hv⟩ := Option.isSome_iff_exists.mp hsome
  exact ⟨v, hv, (texts_fit concatenated_run hv).1⟩

/-- Two texts of 300 bytes are put, which is admitted, and their concatenation has 600.
It cannot be encrypted, and the log loses its end. -/
theorem concat_exceeds_buffers :
    ((twoSealed 300).bind (Tee.step .trivial .plain · concatTexts)).map (fun tee =>
      ((tee.stores.get .text (idx2local 2)).map fun v =>
          (v.length, (walValueBytes .text v).length),
        (handleOps .trivial .plain tee (.getEnc .text (idx2local 2))).isSome)) =
      some (some (600, 540), false) := by
  decide +kernel

end Zeno
