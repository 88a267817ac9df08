import Zeno.Lib.Numeral
import Zeno.Sql.Functions
import Zeno.Tee.Substr

/-!
# `substring` from SQL

`substring(kv_text, kv_int4, kv_int4)` takes three RIDs.  Its C function decodes the first
with `PG_GETARG_DATUM` and the other two with `PG_GETARG_INT32`, as if they were plain
integers, so of their 64 bits the low 32 are left and extended with a sign
(`getargInt32`).  Of the RIDs of integers, only the slots below `2 ^ 31` of the default
partition survive that: local RIDs and those of other partitions have high bits
(`getargInt32_eq_iff`).  Any other RID becomes the RID of another field, which the TEE
reads instead.

The function returns the substring in every state if and only if both RIDs survive and the
length is not `INT_MAX`, for which the TEE has no buffer (`substring_right_iff`).  That a
RID has to survive is shown by a worker in which its field is the only one with its value
(`oneOdd`).
-/

namespace Zeno

open KvMap (maxKey)

/-- The RIDs that a worker can return for an integer: a slot of its local store, or one of a
file. -/
def IntRid (id : RID) : Prop :=
  if islocal id then (local2idx id).toNat < maxLocalSlots else (ridIndex id).toNat < maxKey .int

instance (id : RID) : Decidable (IntRid id) :=
  inferInstanceAs (Decidable (if islocal id then (local2idx id).toNat < maxLocalSlots
    else (ridIndex id).toNat < maxKey .int))

theorem Stores.Denotes.intRid {st : Stores} {id : RID} {value : Num.int.Val}
    (h : st.Denotes .int id value) : IntRid id := by
  unfold IntRid
  split
  next hl =>
    have hlt := LocalStore.lt_of_map ((Stores.denotes_local hl).mp h)
    exact Nat.lt_of_lt_of_le hlt (st.loc .int).wf.small
  next hl => exact ((Stores.denotes_global (by simpa using hl)).mp h).stored.valid.2

namespace Extension

/-- The RIDs that `PG_GETARG_INT32` keeps. -/
theorem getargInt32_eq_iff {id : RID} (h : IntRid id) :
    getargInt32 id = id ↔ id.toNat < 2 ^ 31 := by
  rw [getargInt32, Narrow.signExtend_setWidth_eq_iff (by omega) (by omega)]
  have hlt := id.isLt
  by_cases hl : islocal id = true
  · -- The low end of the negative numbers is above the slots of a local store.
    rw [IntRid, if_pos hl, local2idx, toNat_ridIndex, maxLocalSlots] at h
    have hpart : id.toNat / 2 ^ 48 = 2 ^ 16 - 1 := by
      have hp : ridPartition id = ridLocalPartition := by simpa [islocal] using hl
      rw [← toNat_ridPartition, hp]
      decide
    rw [BitVec.toInt_eq_toNat_cond]
    split <;> omega
  · have hpart : id.toNat / 2 ^ 48 ≠ 2 ^ 16 - 1 := by
      intro hp
      apply hl
      rw [islocal, beq_iff_eq]
      apply BitVec.eq_of_toNat_eq
      rw [toNat_ridPartition, hp]
      decide
    rw [BitVec.toInt_eq_toNat_cond]
    split <;> omega

end Extension

/-! ## A field with a value of its own -/

namespace Stores

/-- One field has a value, all other integers have another one, and there is a text.  The local
store has `m` integers. -/
def oneOdd {m : Nat} (hm : m ≤ maxLocalSlots) (k : RID) (v w : Num.int.Val) (t : CStr) :
    Stores where
  loc := (LocalKVStoreOperator.empty.set .text (.full 1 (by decide) fun _ => t)).set .int
    (.full m hm fun i => if idx2local (BitVec.ofNat 64 i) = k then v else w)
  kv :=
    { KvMap.fresh with
      num := fun
        | .int, p =>
            { curRid := maxKey .int
              store := fun i => if makePartitionedRid p (BitVec.ofNat 64 i) = k then v else w }
        | n, p => KvMap.fresh.num n p }

variable {m : Nat} (hm : m ≤ maxLocalSlots) {k id : RID} {v w : Num.int.Val} {t : CStr}

theorem oneOdd_loc_int (k : RID) (v w : Num.int.Val) (t : CStr) :
    (oneOdd hm k v w t).loc .int =
      .full m hm fun i => if idx2local (BitVec.ofNat 64 i) = k then v else w := by
  simp [oneOdd, LocalKVStoreOperator.set]

theorem oneOdd_kv_int (k : RID) (v w : Num.int.Val) (t : CStr) (p : RID) :
    (oneOdd hm k v w t).kv.num .int p =
      { curRid := maxKey .int
        store := fun i => if makePartitionedRid p (BitVec.ofNat 64 i) = k then v else w } :=
  rfl

/-- Whatever is read of an integer is one of the two values. -/
theorem eq_of_get_oneOdd {x : Num.int.Val} (h : (oneOdd hm k v w t).get .int id = some x) :
    x = if id = k then v else w := by
  unfold Stores.get at h
  split at h
  next hl =>
    rw [oneOdd_loc_int] at h
    have hx := LocalStore.eq_of_get_full h
    rwa [idx2local_local2idx hl] at hx
  next =>
    simp only [KvMap.get, FileMapKVStore.get, oneOdd_kv_int, makePartitionedRid_ridPartition,
      Option.ite_none_left_eq_some, Option.ite_none_right_eq_some, Option.some.injEq] at h
    exact h.2.2.symm

theorem oneOdd_denotes (hall : m = maxLocalSlots) (h : IntRid id) :
    (oneOdd hm k v w t).Denotes .int id (if id = k then v else w) := by
  unfold IntRid at h
  split at h
  next hl =>
    rw [denotes_local hl, LocalKVStoreOperator.map, oneOdd_loc_int,
      LocalStore.map_full (hall ▸ h), idx2local_local2idx hl]
  next hl =>
    have hg : islocal id = false := by simpa using hl
    rw [denotes_global hg]
    refine ⟨⟨⟨by simpa [islocal] using hg, h⟩, ?_⟩, ?_⟩
    · simp only [KvMap.Holds, oneOdd_kv_int, makePartitionedRid_ridPartition]
    · rw [KvMap.curRid, oneOdd_kv_int]
      exact h

theorem oneOdd_loc_text (k : RID) (v w : Num.int.Val) (t : CStr) :
    (oneOdd hm k v w t).loc .text = .full 1 (by decide) fun _ => t := by
  simp [oneOdd, LocalKVStoreOperator.set]

theorem oneOdd_text (k : RID) (v w : Num.int.Val) (t : CStr) :
    (oneOdd hm k v w t).Denotes .text (idx2local 0) t ∧ (oneOdd hm k v w t).LocalRoom .text := by
  constructor
  · rw [denotes_local (islocal_idx2local 0), LocalKVStoreOperator.map, oneOdd_loc_text,
      LocalStore.map_full (by decide)]
  · refine .inr ?_
    rw [slots, oneOdd_loc_text]
    simp [LocalStore.full, maxLocalSlots]

/-- A worker with such stores. -/
theorem exists_oneOdd (k : RID) (v w : Num.int.Val) (t : CStr) :
    ∃ tee : Tee, (∀ id x, tee.stores.get .int id = some x → x = if id = k then v else w) ∧
      (∀ id, IntRid id → tee.stores.Denotes .int id (if id = k then v else w)) ∧
      tee.stores.Denotes .text (idx2local 0) t ∧ tee.stores.LocalRoom .text := by
  -- The number of slots stays a variable, since the list of them is not to be evaluated.
  obtain ⟨m, hall⟩ : ∃ m, m = maxLocalSlots := ⟨_, rfl⟩
  exact ⟨⟨.zero, oneOdd hall.le k v w t⟩, fun id x => eq_of_get_oneOdd hall.le,
    fun id => oneOdd_denotes hall.le hall, oneOdd_text hall.le k v w t⟩

/-- The RIDs that can be live. -/
theorem intRid_iff : IntRid id ↔ ∃ (tee : Tee) (value : Num.int.Val),
    tee.stores.Denotes .int id value := by
  constructor
  · intro h
    obtain ⟨tee, -, hlive, -⟩ := exists_oneOdd id 0 0 .empty
    exact ⟨tee, _, hlive id h⟩
  · rintro ⟨tee, value, h⟩
    exact h.intRid

end Stores

/-! ## The function -/

namespace Extension

variable {e : Env} {g : Gcm} {pg : PgEnv} {tee tee' : Tee} {str start length rid : RID}
  {n : Num.int.Val}

theorem substring_eq_some :
    (SqlCall.substring str start length).eval e g pg tee = some (.rid rid, tee') ↔
      handleOps e g tee (.substring str (getargInt32 start) (getargInt32 length)) =
        some (.rid rid, tee') := by
  rw [← askRid_eq_some]
  show ((askRid e g tee (.substring str (getargInt32 start) (getargInt32 length))).bind
    fun x => some (Datum.rid x.1, x.2)) = _ ↔ _
  cases askRid e g tee (.substring str (getargInt32 start) (getargInt32 length)) with
  | none => simp
  | some x => simp [Prod.ext_iff]

/-- In every state the function returns a RID of at most `n` bytes from a position on. -/
def SubstringRight (e : Env) (g : Gcm) (pg : PgEnv) (start length : RID) (n : Num.int.Val) :
    Prop :=
  ∀ (tee : Tee) (str : RID) (t : CStr) (s : Num.int.Val),
    tee.stores.Denotes .text str t → tee.stores.Denotes .int start s →
    tee.stores.Denotes .int length n → tee.stores.LocalRoom .text →
    1 ≤ s.toInt → s.toInt ≤ t.length + 1 →
    ∃ rid tee' res, (SqlCall.substring str start length).eval e g pg tee = some (.rid rid, tee') ∧
      tee'.stores.Denotes .text rid res ∧
      res.bytes = (t.bytes.drop (s.toInt - 1).toNat).take n.toInt.toNat

/-- With RIDs that survive and a length that has a buffer it does. -/
theorem substringRight_of_survive (hstart : getargInt32 start = start)
    (hlength : getargInt32 length = length) (hlo : 0 ≤ n.toInt) (hhi : n.toInt < 2 ^ 31 - 1) :
    SubstringRight e g pg start length n := by
  intro tee str t s ht hs hn room hone hlast
  have inside : substrInside t s n := ⟨hlo, hhi, .inr ⟨hone, hlast⟩⟩
  obtain ⟨rid, tee', hops, hdenotes⟩ := handleOps_substring_denotes ht hs hn room inside
  refine ⟨rid, tee', _, ?_, hdenotes, sqlSubstring_inside inside⟩
  rw [substring_eq_some, hstart, hlength]
  exact hops

/-- Where it does, the fields that the TEE reads give the same part of the text. -/
theorem SubstringRight.reads {t : CStr} {s : Num.int.Val}
    (right : SubstringRight e g pg start length n)
    (ht : tee.stores.Denotes .text str t) (hs : tee.stores.Denotes .int start s)
    (hn : tee.stores.Denotes .int length n) (room : tee.stores.LocalRoom .text)
    (hone : 1 ≤ s.toInt) (hlast : s.toInt ≤ t.length + 1) :
    ∃ s' n', tee.stores.get .int (getargInt32 start) = some s' ∧
      tee.stores.get .int (getargInt32 length) = some n' ∧ n'.toInt < 2 ^ 31 - 1 ∧
      (t.bytes.drop (s'.toInt - 1).toNat).take n'.toInt.toNat =
        (t.bytes.drop (s.toInt - 1).toNat).take n.toInt.toNat := by
  obtain ⟨rid, tee', res, heval, hres, hbytes⟩ := right tee str t s ht hs hn room hone hlast
  obtain ⟨t', s', n', res', ht', hs', hn', hsub, hres'⟩ :=
    handleOps_substring_eq_some (substring_eq_some.mp heval)
  cases ht.get.symm.trans ht'
  cases hres.unique hres'
  obtain ⟨inside, hpart⟩ := textSubstr_eq_some hsub
  exact ⟨s', n', hs', hn', inside.2.1, hpart.symm.trans hbytes⟩

/-- The RID of the start has to survive. -/
theorem start_survives (hstart : IntRid start) (hlength : IntRid length)
    (right : ∀ n : Num.int.Val, 0 ≤ n.toInt → n.toInt < 2 ^ 31 - 1 →
      SubstringRight e g pg start length n) : getargInt32 start = start := by
  by_contra hne
  -- The start is 1 and every other field is 2, so the text is read from its second byte on.
  obtain ⟨tee, hget, hlive, ht, room⟩ := Stores.exists_oneOdd start 1 2 abc
  have hs : tee.stores.Denotes .int start 1 := by
    have h := hlive start hstart
    rwa [if_pos rfl] at h
  obtain ⟨n, hn, hlo, hhi⟩ : ∃ n : Num.int.Val, tee.stores.Denotes .int length n ∧
      1 ≤ n.toInt ∧ n.toInt < 2 ^ 31 - 1 := by
    refine ⟨_, hlive length hlength, ?_⟩
    split <;> decide
  obtain ⟨s', n', hs', -, -, heq⟩ := (right n (by omega) hhi).reads ht hs hn room (by decide)
    (by decide)
  have htwo := hget _ _ hs'
  rw [if_neg hne] at htwo
  subst htwo
  have hmem : (97 : UInt8) ∈ (abc.bytes.drop 1).take n'.toInt.toNat := by
    obtain ⟨j, hj⟩ : ∃ j, n.toInt.toNat = j + 1 := ⟨n.toInt.toNat - 1, by omega⟩
    rw [hj] at heq
    exact heq ▸ List.mem_cons_self
  exact absurd (List.mem_of_mem_take hmem) (by decide)

/-- The RID of the length has to survive. -/
theorem length_survives (hstart : IntRid start) (hlength : IntRid length)
    (survives : getargInt32 start = start)
    (right : ∀ n : Num.int.Val, 0 ≤ n.toInt → n.toInt < 2 ^ 31 - 1 →
      SubstringRight e g pg start length n) : getargInt32 length = length := by
  by_contra hne
  -- The length is 1 and every other field is 2, so two bytes are taken from the second one on.
  obtain ⟨tee, hget, hlive, ht, room⟩ := Stores.exists_oneOdd length 1 2 abc
  have hother : start ≠ length := by
    rintro rfl
    exact hne survives
  have hs : tee.stores.Denotes .int start 2 := by
    have h := hlive start hstart
    rwa [if_neg hother] at h
  have hn : tee.stores.Denotes .int length 1 := by
    have h := hlive length hlength
    rwa [if_pos rfl] at h
  obtain ⟨s', n', hs', hn', -, heq⟩ := (right 1 (by decide) (by decide)).reads ht hs hn room
    (by decide) (by decide)
  rw [survives, hs.get] at hs'
  cases hs'
  have htwo := hget _ _ hn'
  rw [if_neg hne] at htwo
  subst htwo
  exact absurd heq (by decide)

/-- `INT_MAX`. -/
def intMax : Num.int.Val := BitVec.intMax 32

/-- There is no buffer for a length of `INT_MAX`. -/
theorem not_substringRight_intMax (hstart : IntRid start) (hlength : IntRid length) :
    ¬ SubstringRight e g pg start length intMax := by
  intro right
  -- Every field is `INT_MAX`, and a text is that long.
  obtain ⟨t, hlen⟩ : ∃ t : CStr, intMax.toInt ≤ t.length + 1 := by
    refine ⟨⟨List.replicate (2 ^ 31) 97, fun h => ?_⟩, ?_⟩
    · exact absurd (List.eq_of_mem_replicate h) (by decide)
    · rw [CStr.length, List.length_replicate]
      decide
  obtain ⟨tee, hget, hlive, ht, room⟩ :=
    Stores.exists_oneOdd start intMax intMax t
  have hmax (id : RID) (hid : IntRid id) : tee.stores.Denotes .int id intMax := by
    have h := hlive id hid
    rwa [ite_self] at h
  obtain ⟨s', n', -, hn', hlt, -⟩ := right.reads ht (hmax start hstart) (hmax length hlength)
    room (by decide) hlen
  rw [hget _ _ hn', ite_self] at hlt
  exact absurd hlt (by decide)

/-- When the function returns the substring in every state, for RIDs of integers that a worker
can return. -/
theorem substring_right_iff (hstart : IntRid start) (hlength : IntRid length) :
    ((∀ n : Num.int.Val, 0 ≤ n.toInt → n.toInt < 2 ^ 31 - 1 →
        SubstringRight e g pg start length n) ↔
      start.toNat < 2 ^ 31 ∧ length.toNat < 2 ^ 31) ∧
    ¬ SubstringRight e g pg start length intMax := by
  refine ⟨?_, not_substringRight_intMax hstart hlength⟩
  rw [← getargInt32_eq_iff hstart, ← getargInt32_eq_iff hlength]
  constructor
  · intro right
    have survives := start_survives hstart hlength right
    exact ⟨survives, length_survives hstart hlength survives right⟩
  · rintro ⟨hs, hl⟩ n hlo hhi
    exact substringRight_of_survive hs hl hlo hhi

/-- The first two slots of the default partition. -/
theorem substring_right_default :
    IntRid 0 ∧ IntRid 1 ∧ ∀ n : Num.int.Val, 0 ≤ n.toInt → n.toInt < 2 ^ 31 - 1 →
      SubstringRight .trivial .plain .trivial 0 1 n :=
  ⟨by decide, by decide,
    (substring_right_iff (by decide) (by decide)).1.mpr ⟨by decide, by decide⟩⟩

/-- A worker that has put 1 and 3 in the default partition, for one query, and `abc`, 2 and 1 in
its local store, for another one. -/
def twoQueries : Option (RID × RID × RID × Tee) := do
  let (_, st) ← (⟨.empty, .fresh⟩ : Stores).put .int invalidRid 1 false Partition.default.val
  let (_, st) ← st.put .int invalidRid 3 false Partition.default.val
  let (str, st) ← st.putLocal .text abc
  let (start, st) ← st.putLocal .int 2
  let (length, st) ← st.putLocal .int 1
  some (str, start, length, ⟨.zero, st⟩)

/-- The substring of one byte from position 2 on is the whole text: the bounds are taken from the
fields of the other query. -/
theorem substring_reads_other_fields :
    ∃ str start length tee rid tee', twoQueries = some (str, start, length, tee) ∧
      tee.stores.Denotes .text str abc ∧ tee.stores.Denotes .int start 2 ∧
      tee.stores.Denotes .int length 1 ∧
      (SqlCall.substring str start length).eval .trivial .plain .trivial tee =
        some (.rid rid, tee') ∧
      tee'.stores.Denotes .text rid abc ∧
      abc.bytes ≠ (abc.bytes.drop 1).take 1 := by
  have hrun : (twoQueries.bind fun x =>
      (askRid .trivial .plain x.2.2.2
        (.substring x.1 (getargInt32 x.2.1) (getargInt32 x.2.2.1))).map fun y =>
          ((islocal x.1, x.2.2.2.stores.loc.map .text (local2idx x.1).toNat),
            (islocal x.2.1, x.2.2.2.stores.loc.map .int (local2idx x.2.1).toNat),
            (islocal x.2.2.1, x.2.2.2.stores.loc.map .int (local2idx x.2.2.1).toNat),
            (islocal y.1, y.2.stores.loc.map .text (local2idx y.1).toNat))) =
      some ((true, some abc), (true, some 2), (true, some 1), (true, some abc)) := by
    decide +kernel
  obtain ⟨⟨str, start, length, tee⟩, htwo, hask⟩ := Option.bind_eq_some_iff.mp hrun
  obtain ⟨⟨rid, tee'⟩, hrid, heq⟩ := Option.map_eq_some_iff.mp hask
  simp only [Prod.mk.injEq] at heq
  obtain ⟨⟨hls, hstr⟩, ⟨hlstart, hstart⟩, ⟨hllen, hlen⟩, hlrid, hres⟩ := heq
  refine ⟨str, start, length, tee, rid, tee', htwo, (Stores.denotes_local hls).mpr hstr,
    (Stores.denotes_local hlstart).mpr hstart, (Stores.denotes_local hllen).mpr hlen, ?_,
    (Stores.denotes_local hlrid).mpr hres, by decide⟩
  exact substring_eq_some.mpr (askRid_eq_some.mp hrid)

end Extension

end Zeno
