import Zeno.Lib.Numeral
import Zeno.Sql.Functions
import Zeno.Tee.Safety

/-!
# The casts from integers

A cast from `bigint` takes its argument with `PG_GETARG_INT64`, all 64 bits of it, and
assigns it to a variable.  In `int8_to_kv_int4` the variable is an `int`, and in
`int8_to_kv_float4` it has the C type `int8`, which is `signed char` and not the SQL type
of that name.  Neither assignment is checked.  So the first cast stores another number
than the argument outside the range of an `int`, without an error, and the second one
converts the numeral of another number outside -128 to 127 (`integer_casts_exact_iff`).
-/

namespace Zeno

/-- `int8out` and `int4out` print their arguments. -/
structure PgEnv.PrintsExactly (pg : PgEnv) : Prop where
  int8out : ∀ num, Decimal.value (pg.int8out num).bytes = some num.toInt
  int4out : ∀ num, Decimal.value (pg.int4out num).bytes = some num.toInt

/-- The numeral of an integer, as a C string. -/
def decimalText (n : Int) : CStr := ⟨Decimal.print n, Decimal.zero_notMem_print n⟩

/-- Conversions that print integers, to run the model with. -/
def PgEnv.decimal : PgEnv :=
  { PgEnv.trivial with
    int8out := fun num => decimalText num.toInt
    int4out := fun num => decimalText num.toInt }

theorem PgEnv.decimal_spec : PgEnv.decimal.PrintsExactly where
  int8out num := Decimal.value_print num.toInt
  int4out num := Decimal.value_print num.toInt

namespace Extension

variable {e : Env} {g : Gcm} {pg : PgEnv} {tee : Tee}

/-- A plaintext is encrypted by one request, and the next one puts it in the local store. -/
theorem putPlain_denotes {t : Ty} (value : t.Val)
    (fits : plainFits t (plainBytes t value).length = true) (room : tee.stores.LocalRoom t) :
    ∃ rid tee', putPlain e g t value tee = some (.rid rid, tee') ∧
      tee'.stores.Denotes t rid value := by
  obtain ⟨⟨rid, st⟩, hput⟩ :=
    Option.isSome_iff_exists.mp ((tee.stores.putLocal_isSome t value).mpr room)
  have henc : askBytes e g tee (.enc t (plainBytes t value)) =
      some ((gcmEncrypt g tee.iv (plainBytes t value)).2,
        { tee with iv := (gcmEncrypt g tee.iv (plainBytes t value)).1 }) := by
    rw [askBytes_eq_some, handleOps, if_pos fits]
  have hputEnc : askRid e g { tee with iv := (gcmEncrypt g tee.iv (plainBytes t value)).1 }
      (.putEnc t (gcmEncrypt g tee.iv (plainBytes t value)).2) =
      some (rid, ⟨(gcmEncrypt g tee.iv (plainBytes t value)).1, st⟩) := by
    rw [askRid_eq_some, handleOps, decryptPlain_gcmEncrypt g tee.iv fits, Option.bind_eq_bind,
      Option.bind_some, plainValue_plainBytes, hput]
    rfl
  refine ⟨rid, ⟨(gcmEncrypt g tee.iv (plainBytes t value)).1, st⟩, ?_,
    (Stores.put_local_denotes hput).2.2⟩
  show ((askBytes e g tee (.enc t (plainBytes t value))).bind fun x =>
    (askRid e g x.2 (.putEnc t x.1)).bind fun y => some (Datum.rid y.1, y.2)) = _
  rw [henc, Option.bind_some, hputEnc, Option.bind_some]

/-- The cast from `bigint` to `kv_int4` stores its argument, or fails if that is not an `int`. -/
def CastStores (e : Env) (g : Gcm) (pg : PgEnv) (tee : Tee) (num : BitVec 64) : Prop :=
  (∃ rid tee' value, (SqlCall.int8ToKvInt4 num).eval e g pg tee = some (.rid rid, tee') ∧
    tee'.stores.Denotes .int rid value ∧ value.toInt = num.toInt) ∨
  (¬ (-2 ^ 31 ≤ num.toInt ∧ num.toInt < 2 ^ 31) ∧
    (SqlCall.int8ToKvInt4 num).eval e g pg tee = none)

theorem castStores_iff (room : tee.stores.LocalRoom .int) (num : BitVec 64) :
    CastStores e g pg tee num ↔ -2 ^ 31 ≤ num.toInt ∧ num.toInt < 2 ^ 31 := by
  obtain ⟨rid, tee', heval, hdenotes⟩ := putPlain_denotes (e := e) (g := g) (t := .int)
    (num.setWidth 32) (plainFits_num .int _) room
  have heval' : (SqlCall.int8ToKvInt4 num).eval e g pg tee = some (.rid rid, tee') := heval
  have hnarrow := Narrow.toInt_setWidth_eq_iff (v := 32) (by omega) (by omega) num
  constructor
  · rintro (⟨rid', tee'', value, h, hvalue, heq⟩ | ⟨-, hnone⟩)
    · cases heval'.symm.trans h
      have hsame : value = num.setWidth 32 := hvalue.unique hdenotes
      rw [hsame] at heq
      exact hnarrow.mp heq
    · cases heval'.symm.trans hnone
  · intro hrange
    exact .inl ⟨rid, tee', num.setWidth 32, heval', hdenotes, hnarrow.mpr hrange⟩

/-- When the casts of a `bigint` keep it, and that the cast of an `integer` always does. -/
theorem integer_casts_exact_iff (prints : pg.PrintsExactly) (room : tee.stores.LocalRoom .int)
    (num : BitVec 64) (num' : Num.int.Val) :
    (CastStores e g pg tee num ↔ -2 ^ 31 ≤ num.toInt ∧ num.toInt < 2 ^ 31) ∧
    ((SqlCall.int8ToKvFloat4 num).eval e g pg = floatFromText e g pg (int8CastText pg num) ∧
      (Decimal.value (int8CastText pg num).bytes = some num.toInt ↔
        -128 ≤ num.toInt ∧ num.toInt ≤ 127)) ∧
    ((SqlCall.int4ToKvFloat4 num').eval e g pg = floatFromText e g pg (int4CastText pg num') ∧
      Decimal.value (int4CastText pg num').bytes = some num'.toInt) := by
  refine ⟨castStores_iff room num, ⟨rfl, ?_⟩, rfl, prints.int4out num'⟩
  have hnarrow := Narrow.toInt_setWidth_eq_iff (v := 8) (by omega) (by omega) num
  rw [int8CastText, prints.int8out, BitVec.toInt_signExtend_of_le (by omega), Option.some.injEq,
    hnarrow]
  omega

/-- A worker that has put nothing, and 100. -/
theorem hundred_cast_exact :
    ∃ tee : Tee, tee.stores.LocalRoom .int ∧
      CastStores .trivial .plain .decimal tee 100 ∧
      Decimal.value (int8CastText .decimal 100).bytes = some 100 := by
  have room : (⟨.zero, ⟨.empty, .fresh⟩⟩ : Tee).stores.LocalRoom .int :=
    .inr (Nat.two_pow_pos 47)
  obtain ⟨hstores, ⟨-, htext⟩, -⟩ := integer_casts_exact_iff (e := .trivial) (g := .plain)
    PgEnv.decimal_spec room 100 100
  exact ⟨_, room, hstores.mpr (by decide), htext.mpr (by decide)⟩

/-- 128 is converted from the numeral of -128, and 2 ^ 31 is stored as - 2 ^ 31. -/
theorem bigint_casts_wrap :
    Decimal.value (int8CastText .decimal 128).bytes = some (-128) ∧
      ∃ tee : Tee, tee.stores.LocalRoom .int ∧
        (∃ rid tee', (SqlCall.int8ToKvInt4 (2 ^ 31)).eval .trivial .plain .decimal tee =
            some (.rid rid, tee') ∧
          tee'.stores.Denotes .int rid (BitVec.intMin 32)) ∧
        ¬ CastStores .trivial .plain .decimal tee (2 ^ 31) := by
  have room : (⟨.zero, ⟨.empty, .fresh⟩⟩ : Tee).stores.LocalRoom .int :=
    .inr (Nat.two_pow_pos 47)
  refine ⟨PgEnv.decimal_spec.int8out _, _, room, ?_, ?_⟩
  · exact putPlain_denotes (t := .int) (BitVec.intMin 32) (plainFits_num .int _) room
  · rw [castStores_iff room]
    decide

end Extension

end Zeno
