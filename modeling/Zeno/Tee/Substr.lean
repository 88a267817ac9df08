import Zeno.Lib.Substring
import Zeno.Tee.Safety

/-!
# The substring of the TEE

`kv_text_substr` takes a text, a start and a length from the stores, and neither number
is tested.  `substrCopy` is what it does in between: `malloc(l + 1)` and a `strncpy` from
`t + s` on, with `s` one less than the start.  `textSubstr`, which the handler is modelled
with, is that copy as long as it reads nothing but the text (`textSubstr_eq_some_iff`).

The substring of SQL is defined for every start, since positions before and behind the
text count but hold nothing (`sqlSubstring`).  A negative length is an error.  The two
agree if and only if the length is neither negative nor `INT_MAX`, and the start lies in
the text or the length is zero (`substr_standard_iff`).
-/

namespace Zeno

variable {e : Env} {g : Gcm} {tee : Tee} {t : CStr} {s l : Num.int.Val}

/-- The copy of `kv_text_substr`: the offsets it reads, and the bytes before the terminator.
`l + 1` is the size of the buffer, so there is none for `INT_MAX`, and none or one of no bytes
for a negative length, which `strncpy` takes for a huge one. -/
def substrCopy (byte : Int → UInt8) (start length : Num.int.Val) :
    Option (List Int × List UInt8) :=
  if 0 ≤ length.toInt ∧ length.toInt < 2 ^ 31 - 1 then
    some (CStr.strncpy byte (start.toInt - 1) length.toInt.toNat)
  else none

/-- An offset is that of a byte of a text or of its terminator. -/
def InText (t : CStr) (i : Int) : Prop := 0 ≤ i ∧ i ≤ t.length

/-- The bytes at the positions from `start` on that are before `start + length`, of those that
the text has. -/
def sqlSubstring (t : CStr) (start length : Int) : CStr :=
  ⟨t.bytes.atPositions fun i => max 1 start ≤ i ∧ i < start + length,
    fun h => t.nulFree (List.mem_of_mem_atPositions h)⟩

theorem sqlSubstring_bytes (t : CStr) (start length : Int) :
    (sqlSubstring t start length).bytes =
      (t.bytes.drop (max 1 start - 1).toNat).take (start + length - max 1 start).toNat :=
  List.atPositions_between (by omega) t.bytes

/-- With a length of zero, or a start in the text. -/
theorem sqlSubstring_inside (h : substrInside t s l) :
    (sqlSubstring t s.toInt l.toInt).bytes =
      (t.bytes.drop (s.toInt - 1).toNat).take l.toInt.toNat := by
  rw [sqlSubstring_bytes]
  rcases h.2.2 with hzero | ⟨hone, -⟩
  · have hlen : (s.toInt + l.toInt - max 1 s.toInt).toNat = 0 := by omega
    rw [hlen, hzero]
    rfl
  · have hmax : max 1 s.toInt = s.toInt := by omega
    have hlen : s.toInt + l.toInt - s.toInt = l.toInt := by omega
    rw [hmax, hlen]

/-- The operator computes the substring of SQL there. -/
theorem textSubstr_inside (h : substrInside t s l) :
    textSubstr t s l = some (sqlSubstring t s.toInt l.toInt) := by
  have hcond : 0 ≤ l.toInt ∧ l.toInt < 2 ^ 31 - 1 ∧
      (l.toInt = 0 ∨ 0 ≤ s.toInt - 1 ∧ s.toInt - 1 ≤ t.length) := by
    have hstart := h.2.2
    exact ⟨h.1, h.2.1, by omega⟩
  rw [textSubstr, if_pos hcond, Option.some.injEq]
  exact CStr.ext (sqlSubstring_inside h).symm

theorem textSubstr_eq_some {res : CStr} (h : textSubstr t s l = some res) :
    substrInside t s l ∧ res.bytes = (t.bytes.drop (s.toInt - 1).toNat).take l.toInt.toNat := by
  have inside : substrInside t s l := (textSubstr_isSome t s l).mp (Option.isSome_of_eq_some h)
  cases (textSubstr_inside inside).symm.trans h
  exact ⟨inside, sqlSubstring_inside inside⟩

/-- And its copy stays in the text. -/
theorem substrCopy_inside (mem : t.Around) (h : substrInside t s l) :
    ∃ reads, substrCopy mem.byte s l = some (reads, (sqlSubstring t s.toInt l.toInt).bytes) ∧
      ∀ i ∈ reads, InText t i := by
  rw [sqlSubstring_inside h, substrCopy, if_pos ⟨h.1, h.2.1⟩]
  rcases h.2.2 with hzero | ⟨hone, hlast⟩
  · rw [hzero]
    exact ⟨[], rfl, by simp⟩
  · obtain ⟨k, hk⟩ := Int.eq_ofNat_of_zero_le (show 0 ≤ s.toInt - 1 by omega)
    obtain ⟨hcopy, hreads⟩ := CStr.strncpy_inside mem (k := k) (by omega) l.toInt.toNat
    rw [hk, Int.toNat_natCast, ← hcopy]
    exact ⟨_, rfl, hreads⟩

/-- A copy that stays in the text starts in it. -/
theorem substrInside_of_copy (mem : t.Around) {reads : List Int} {copy : List UInt8}
    (h : substrCopy mem.byte s l = some (reads, copy)) (inside : ∀ i ∈ reads, InText t i) :
    substrInside t s l := by
  simp only [substrCopy, Option.ite_none_right_eq_some, Option.some.injEq] at h
  obtain ⟨⟨hlo, hhi⟩, hcopy⟩ := h
  refine ⟨hlo, hhi, ?_⟩
  by_cases hzero : l.toInt = 0
  · exact .inl hzero
  · have hmem := CStr.mem_strncpy mem.byte (s.toInt - 1) (show 0 < l.toInt.toNat by omega)
    rw [hcopy] at hmem
    have hin : 0 ≤ s.toInt - 1 ∧ s.toInt - 1 ≤ t.length := inside _ hmem
    omega

/-- The operator is the copy, as long as that stays in the text. -/
theorem textSubstr_eq_some_iff (mem : t.Around) {res : CStr} :
    textSubstr t s l = some res ↔
      ∃ reads, substrCopy mem.byte s l = some (reads, res.bytes) ∧ ∀ i ∈ reads, InText t i := by
  constructor
  · intro h
    have inside := (textSubstr_eq_some h).1
    cases (textSubstr_inside inside).symm.trans h
    exact substrCopy_inside mem inside
  · rintro ⟨reads, hcopy, hreads⟩
    have inside := substrInside_of_copy mem hcopy hreads
    obtain ⟨reads', hcopy', -⟩ := substrCopy_inside mem inside
    have heq := Option.some.inj (hcopy'.symm.trans hcopy)
    rw [textSubstr_inside inside, CStr.ext (Prod.mk.inj heq).2]

/-! ## The request -/

section Request

variable {str start length : RID}

/-- The request with operands that denote their values. -/
theorem handleOps_substring (ht : tee.stores.Denotes .text str t)
    (hs : tee.stores.Denotes .int start s) (hl : tee.stores.Denotes .int length l) :
    handleOps e g tee (.substring str start length) =
      (textSubstr t s l).bind fun res => tee.answer (tee.stores.putLocal .text res) := by
  simp only [handleOps, kvTextSubstr, ht.get, hs.get, hl.get, Option.bind_eq_bind,
    Option.bind_some, Tee.answer, Option.map_bind]
  rfl

/-- A reply is a RID of what the operator computes of the operands as they read. -/
theorem handleOps_substring_eq_some {rid : RID} {tee' : Tee}
    (h : handleOps e g tee (.substring str start length) = some (.rid rid, tee')) :
    ∃ t s l res, tee.stores.get .text str = some t ∧ tee.stores.get .int start = some s ∧
      tee.stores.get .int length = some l ∧ textSubstr t s l = some res ∧
      tee'.stores.Denotes .text rid res := by
  simp only [handleOps, kvTextSubstr, Tee.answer, Option.bind_eq_bind, Option.map_eq_some_iff,
    Option.bind_eq_some_iff] at h
  obtain ⟨⟨rid', st⟩, ⟨t, ht, s, hs, l, hl, res, hres, hput⟩, heq⟩ := h
  cases heq
  exact ⟨t, s, l, res, ht, hs, hl, hres, (Stores.put_local_denotes hput).2.2⟩

/-- With bounds inside the text, the reply is a RID of the substring. -/
theorem handleOps_substring_denotes (ht : tee.stores.Denotes .text str t)
    (hs : tee.stores.Denotes .int start s) (hl : tee.stores.Denotes .int length l)
    (room : tee.stores.LocalRoom .text) (inside : substrInside t s l) :
    ∃ rid tee', handleOps e g tee (.substring str start length) = some (.rid rid, tee') ∧
      tee'.stores.Denotes .text rid (sqlSubstring t s.toInt l.toInt) := by
  obtain ⟨⟨rid, st⟩, hput⟩ := Option.isSome_iff_exists.mp
    ((tee.stores.putLocal_isSome .text (sqlSubstring t s.toInt l.toInt)).mpr room)
  refine ⟨rid, { tee with stores := st }, ?_, (Stores.put_local_denotes hput).2.2⟩
  rw [handleOps_substring ht hs hl, textSubstr_inside inside, Option.bind_some, hput]
  rfl

/-- What SQL asks of a substring: it reads the text only and is the right part of it, and a
negative length is reported. -/
def SubstrStandard (e : Env) (g : Gcm) (tee : Tee) (str start length : RID) {t : CStr}
    (mem : t.Around) (s l : Num.int.Val) : Prop :=
  if l.toInt < 0 then
    ∃ reply tee', handleOps e g tee (.substring str start length) = some (reply, tee') ∧
      ∀ rid, reply ≠ .rid rid
  else
    (∃ reads copy, substrCopy mem.byte s l = some (reads, copy) ∧ ∀ i ∈ reads, InText t i) ∧
      ∃ rid tee', handleOps e g tee (.substring str start length) = some (.rid rid, tee') ∧
        tee'.stores.Denotes .text rid (sqlSubstring t s.toInt l.toInt)

theorem SubstrStandard.inside {mem : t.Around} (ht : tee.stores.Denotes .text str t)
    (hs : tee.stores.Denotes .int start s) (hl : tee.stores.Denotes .int length l)
    (standard : SubstrStandard e g tee str start length mem s l) : substrInside t s l := by
  unfold SubstrStandard at standard
  split at standard
  next hneg =>
    -- Without a buffer there is no reply at all.
    have hnone : textSubstr t s l = none := by
      rw [← Option.not_isSome_iff_eq_none, textSubstr_isSome]
      intro inside
      exact absurd inside.1 (by omega)
    obtain ⟨reply, tee', hops, -⟩ := standard
    rw [handleOps_substring ht hs hl, hnone] at hops
    cases hops
  next =>
    obtain ⟨⟨reads, copy, hcopy, hreads⟩, -⟩ := standard
    exact substrInside_of_copy mem hcopy hreads

/-- When the substring is that of SQL, whatever the memory around the text. -/
theorem substr_standard_iff (mem : t.Around) (ht : tee.stores.Denotes .text str t)
    (hs : tee.stores.Denotes .int start s) (hl : tee.stores.Denotes .int length l)
    (room : tee.stores.LocalRoom .text) :
    SubstrStandard e g tee str start length mem s l ↔
      0 ≤ l.toInt ∧ l.toInt < 2 ^ 31 - 1 ∧
        (l.toInt = 0 ∨ 1 ≤ s.toInt ∧ s.toInt ≤ t.length + 1) := by
  constructor
  · exact SubstrStandard.inside ht hs hl
  · intro inside
    rw [SubstrStandard, if_neg (by omega)]
    obtain ⟨reads, hcopy, hreads⟩ := substrCopy_inside mem inside
    exact ⟨⟨reads, _, hcopy, hreads⟩, handleOps_substring_denotes ht hs hl room inside⟩

/-- A worker with the operands of a substring. -/
theorem exists_operands (t : CStr) (s l : Num.int.Val) :
    ∃ (tee : Tee) (str start length : RID), tee.stores.Denotes .text str t ∧
      tee.stores.Denotes .int start s ∧ tee.stores.Denotes .int length l ∧
      tee.stores.LocalRoom .text := by
  have hroom : 3 < maxLocalSlots := by decide
  obtain ⟨st, rids, hputs, hslots⟩ :=
    Stores.exists_puts [⟨.text, t⟩, ⟨.int, s⟩, ⟨.int, l⟩] hroom.le
  obtain _ | @⟨_, str, _, _, ht, _ | @⟨_, start, _, _, hs, _ | @⟨_, length, _, _, hl, _⟩⟩⟩ := hputs
  exact ⟨⟨.zero, st⟩, str, start, length, ht, hs, hl,
    .inr (Nat.lt_of_le_of_lt (hslots .text) hroom)⟩

/-- `abc`. -/
def abc : CStr := ⟨[97, 98, 99], by decide⟩

/-- The one byte of `abc` from position 2 on. -/
theorem substr_standard_middle :
    ∃ tee str start length, tee.stores.Denotes .text str abc ∧
      tee.stores.Denotes .int start 2 ∧ tee.stores.Denotes .int length 1 ∧
      SubstrStandard .trivial .plain tee str start length abc.alone 2 1 ∧
      (sqlSubstring abc 2 1).bytes = [98] := by
  obtain ⟨tee, str, start, length, ht, hs, hl, room⟩ := exists_operands abc 2 1
  exact ⟨tee, str, start, length, ht, hs, hl,
    (substr_standard_iff abc.alone ht hs hl room).mpr (by decide), by decide⟩

/-- From position 0 on the first two positions hold `a`, but the copy begins before the text.
A length of -1 ends the worker. -/
theorem substring_before_text :
    (∃ tee str start length, tee.stores.Denotes .text str abc ∧
      tee.stores.Denotes .int start 0 ∧ tee.stores.Denotes .int length 2 ∧
      (sqlSubstring abc 0 2).bytes = [97] ∧
      (substrCopy abc.alone.byte 0 2).map (·.1.head?) = some (some (-1)) ∧
      ¬ SubstrStandard .trivial .plain tee str start length abc.alone 0 2) ∧
    ∃ tee str start length, tee.stores.Denotes .text str abc ∧
      tee.stores.Denotes .int start 1 ∧ tee.stores.Denotes .int length (-1) ∧
      handleOps .trivial .plain tee (.substring str start length) = none ∧
      ¬ SubstrStandard .trivial .plain tee str start length abc.alone 1 (-1) := by
  constructor
  · obtain ⟨tee, str, start, length, ht, hs, hl, room⟩ := exists_operands abc 0 2
    refine ⟨tee, str, start, length, ht, hs, hl, by decide, by decide, fun standard => ?_⟩
    have inside := standard.inside ht hs hl
    exact absurd inside.2.2 (by decide)
  · obtain ⟨tee, str, start, length, ht, hs, hl, room⟩ := exists_operands abc 1 (-1)
    have hnone : handleOps .trivial .plain tee (.substring str start length) = none := by
      rw [handleOps_substring ht hs hl]
      rfl
    refine ⟨tee, str, start, length, ht, hs, hl, hnone, fun standard => ?_⟩
    have inside := standard.inside ht hs hl
    exact absurd inside.1 (by decide)

end Request

end Zeno
