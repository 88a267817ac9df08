import Zeno.Lib.Binary32
import Zeno.Sql.Functions

/-!
# The order of floats

The operators `=`, `<`, `<=`, `>` and `>=` of `kv_float4` and its operator class for
btree indexes rest on `kv_float_cmp`, which tests `l > r` and then `l < r`.  Both are
false if one of the two is a NaN, and the outcome is 0: a NaN compares as equal to
every number.

So equality is not transitive where a NaN meets two different numbers.  On the fields
of a column the comparison is the total preorder an index needs if and only if no
field is a NaN, or all the others are equal (`float_order_iff`).
-/

namespace Zeno

/-- The comparison of floats is that of the format binary32. -/
def Env.Ieee (e : Env) : Prop := e.floatLt = Binary32.lt

/-- An environment with that comparison, to run the model with. -/
def Env.ieee : Env := { Env.trivial with floatLt := Binary32.lt }

theorem Env.ieee_spec : Env.ieee.Ieee := rfl

namespace Extension

/-- A predicate of SQL on the fields of a worker returns true. -/
def Returns (e : Env) (g : Gcm) (pg : PgEnv) (tee : Tee) (call : SqlCall pg) : Prop :=
  ∃ tee', call.eval e g pg tee = some (.bool true, tee')

/-- What the operator class promises of the comparison of the fields in a set, and the
operators that are defined by it. -/
structure FloatOrder (e : Env) (g : Gcm) (pg : PgEnv) (tee : Tee) (R : Set RID) : Prop where
  antisymm : ∀ a ∈ R, ∀ b ∈ R, ∃ c, kvFloatCmp e tee.stores a b = some c ∧
    kvFloatCmp e tee.stores b a = some (-c)
  le_trans : ∀ a ∈ R, ∀ b ∈ R, ∀ c ∈ R, Returns e g pg tee (.kvFloat4Le a b) →
    Returns e g pg tee (.kvFloat4Le b c) → Returns e g pg tee (.kvFloat4Le a c)
  eq_trans : ∀ a ∈ R, ∀ b ∈ R, ∀ c ∈ R, Returns e g pg tee (.kvFloat4Eq a b) →
    Returns e g pg tee (.kvFloat4Eq b c) → Returns e g pg tee (.kvFloat4Eq a c)
  /-- Of `<`, `=` and `>` one holds, and the other operators agree with them. -/
  partition : ∀ a ∈ R, ∀ b ∈ R,
    (Returns e g pg tee (.kvFloat4Lt a b) ∨ Returns e g pg tee (.kvFloat4Eq a b) ∨
      Returns e g pg tee (.kvFloat4Gt a b)) ∧
    (Returns e g pg tee (.kvFloat4Lt a b) → ¬ Returns e g pg tee (.kvFloat4Ge a b)) ∧
    (Returns e g pg tee (.kvFloat4Gt a b) → ¬ Returns e g pg tee (.kvFloat4Le a b)) ∧
    (Returns e g pg tee (.kvFloat4Eq a b) ↔ ¬ Returns e g pg tee (.kvFloat4Ne a b)) ∧
    (Returns e g pg tee (.kvFloat4Eq a b) ↔
      Returns e g pg tee (.kvFloat4Le a b) ∧ Returns e g pg tee (.kvFloat4Ge a b)) ∧
    (Returns e g pg tee (.kvFloat4Lt a b) ↔ Returns e g pg tee (.kvFloat4Gt b a)) ∧
    (Returns e g pg tee (.kvFloat4Eq a b) ↔ Returns e g pg tee (.kvFloat4Eq b a))

variable {e : Env} {g : Gcm} {pg : PgEnv} {tee : Tee} {R : Set RID} {val : RID → Num.float.Val}
  {a b : RID}

/-- The outcome of the comparison of two floats. -/
def floatCmp (e : Env) (x y : Num.float.Val) : Int := CmpOp.fn e .floatCmp x y

theorem kvFloatCmp_eq (ha : tee.stores.Denotes .float a (val a))
    (hb : tee.stores.Denotes .float b (val b)) :
    kvFloatCmp e tee.stores a b = some (floatCmp e (val a) (val b)) := by
  have ha' : tee.stores.get (CmpOp.floatCmp).ty a = some (val a) := ha.get
  have hb' : tee.stores.get (CmpOp.floatCmp).ty b = some (val b) := hb.get
  simp only [kvFloatCmp, Zeno.kvCmp, ha', hb', Option.bind_eq_bind]
  rfl

/-- An operator returns the test of the outcome. -/
theorem returns_iff {call : SqlCall pg} {test : Int → Bool}
    (hcall : call.eval e g pg = cmpOf e g .floatCmp test a b)
    (ha : tee.stores.Denotes .float a (val a)) (hb : tee.stores.Denotes .float b (val b)) :
    Returns e g pg tee call ↔ test (floatCmp e (val a) (val b)) = true := by
  have hops : handleOps e g tee (.cmp .floatCmp a b) =
      some (.cmp (floatCmp e (val a) (val b)), tee) := by
    simp only [handleOps, handleCmp, kvFloatCmp_eq ha hb, Option.map_some]
  have hcmp : kvCmp e g .floatCmp a b tee = some (floatCmp e (val a) (val b), tee) :=
    askCmp_eq_some.mpr hops
  have heval : call.eval e g pg tee =
      some (.bool (test (floatCmp e (val a) (val b))), tee) := by
    rw [hcall]
    show ((kvCmp e g .floatCmp a b tee).bind fun x => some (Datum.bool (test x.1), x.2)) = _
    rw [hcmp]
    rfl
  simp [Returns, heval]

/-- With the comparison of the format, the outcome is that of the values. -/
theorem compares_floatCmp (ieee : e.Ieee) :
    Partial.Compares (fun k => Binary32.value (val k)) fun k k' => floatCmp e (val k) (val k') := by
  have hcmp : floatCmp e =
      fun x y => if Binary32.lt y x then 1 else if Binary32.lt x y then -1 else 0 := by
    funext x y
    show threeWay (e.floatLt y x) (e.floatLt x y) = _
    rw [ieee]
    rfl
  rw [hcmp]
  exact Binary32.compares_lt.comap val

/-- The fields of a set are compared like a btree index requires if and only if none of them is
a NaN, or those that are not are all equal. -/
theorem float_order_iff (ieee : e.Ieee) (val : RID → Num.float.Val)
    (live : ∀ k ∈ R, tee.stores.Denotes .float k (val k)) :
    FloatOrder e g pg tee R ↔
      (∀ k ∈ R, Binary32.isNaN (val k) = false) ∨
        ∀ k ∈ R, ∀ k' ∈ R, Binary32.isNaN (val k) = false → Binary32.isNaN (val k') = false →
          Binary32.value (val k) = Binary32.value (val k') := by
  have compares : Partial.Compares (fun k => Binary32.value (val k))
      fun k k' => floatCmp e (val k) (val k') := compares_floatCmp ieee
  have hle {a b : RID} (ha : a ∈ R) (hb : b ∈ R) :
      Returns e g pg tee (.kvFloat4Le a b) ↔ floatCmp e (val a) (val b) ≤ 0 :=
    (returns_iff rfl (live a ha) (live b hb)).trans decide_eq_true_iff
  have heq {a b : RID} (ha : a ∈ R) (hb : b ∈ R) :
      Returns e g pg tee (.kvFloat4Eq a b) ↔ floatCmp e (val a) (val b) = 0 :=
    (returns_iff rfl (live a ha) (live b hb)).trans decide_eq_true_iff
  refine Iff.trans ?_ Binary32.comparable_iff
  constructor
  · intro order
    rw [← compares.le_trans_iff]
    intro a ha b hb c hc hab hbc
    exact (hle ha hc).mp (order.le_trans a ha b hb c hc ((hle ha hb).mpr hab) ((hle hb hc).mpr hbc))
  · intro hset
    refine ⟨fun a ha b hb => ?_, fun a ha b hb c hc hab hbc => ?_,
      fun a ha b hb c hc hab hbc => ?_, fun a ha b hb => ?_⟩
    · refine ⟨_, kvFloatCmp_eq (live a ha) (live b hb), ?_⟩
      rw [kvFloatCmp_eq (live b hb) (live a ha), compares.antisymm b a]
    · exact (hle ha hc).mpr ((compares.le_trans_iff R).mpr hset a ha b hb c hc
        ((hle ha hb).mp hab) ((hle hb hc).mp hbc))
    · exact (heq ha hc).mpr ((compares.eq_trans_iff R).mpr hset a ha b hb c hc
        ((heq ha hb).mp hab) ((heq hb hc).mp hbc))
    · have hlt : Returns e g pg tee (.kvFloat4Lt a b) ↔ floatCmp e (val a) (val b) < 0 :=
        (returns_iff rfl (live a ha) (live b hb)).trans decide_eq_true_iff
      have hgt {a b : RID} (ha : a ∈ R) (hb : b ∈ R) :
          Returns e g pg tee (.kvFloat4Gt a b) ↔ floatCmp e (val a) (val b) > 0 :=
        (returns_iff rfl (live a ha) (live b hb)).trans decide_eq_true_iff
      have hge : Returns e g pg tee (.kvFloat4Ge a b) ↔ floatCmp e (val a) (val b) ≥ 0 :=
        (returns_iff rfl (live a ha) (live b hb)).trans decide_eq_true_iff
      have hneq : Returns e g pg tee (.kvFloat4Ne a b) ↔ floatCmp e (val a) (val b) ≠ 0 :=
        (returns_iff rfl (live a ha) (live b hb)).trans decide_eq_true_iff
      have hswap := compares.antisymm a b
      rw [hlt, heq ha hb, hgt ha hb, hge, hle ha hb, hneq, hgt hb ha, heq hb ha]
      refine ⟨?_, ?_, ?_, ?_, ?_, ?_, ?_⟩ <;> omega

/-- A worker with three floats. -/
theorem exists_three_floats (x y z : Num.float.Val) :
    ∃ (tee : Tee) (val : RID → Num.float.Val) (a b c : RID), val a = x ∧ val b = y ∧ val c = z ∧
      ∀ k ∈ ({a, b, c} : Set RID), tee.stores.Denotes .float k (val k) := by
  have hroom : 3 ≤ maxLocalSlots := by decide
  obtain ⟨st, rids, hputs, -⟩ :=
    Stores.exists_puts [⟨.float, x⟩, ⟨.float, y⟩, ⟨.float, z⟩] hroom
  obtain _ | @⟨_, a, _, _, ha, _ | @⟨_, b, _, _, hb, _ | @⟨_, c, _, _, hc, _⟩⟩⟩ := hputs
  -- A RID reads as what it denotes.
  refine ⟨⟨.zero, st⟩, fun k => (st.get .float k).getD x, a, b, c, ?_, ?_, ?_, ?_⟩
  · simp [ha.get]
  · simp [hb.get]
  · simp [hc.get]
  · rintro k (rfl | rfl | rfl)
    · simpa [ha.get] using ha
    · simpa [hb.get] using hb
    · simpa [hc.get] using hc

/-- 1, 2 and infinity. -/
theorem float_order_numbers :
    ∃ tee a b c, (∃ val : RID → Num.float.Val, val a = 0x3f800000#32 ∧ val b = 0x40000000#32 ∧
        val c = 0x7f800000#32 ∧ ∀ k ∈ ({a, b, c} : Set RID), tee.stores.Denotes .float k (val k)) ∧
      FloatOrder Env.ieee .plain .trivial tee {a, b, c} := by
  obtain ⟨tee, val, a, b, c, ha, hb, hc, live⟩ :=
    exists_three_floats 0x3f800000#32 0x40000000#32 0x7f800000#32
  refine ⟨tee, a, b, c, ⟨val, ha, hb, hc, live⟩,
    (float_order_iff Env.ieee_spec val live).mpr (.inl ?_)⟩
  rintro k (rfl | rfl | rfl)
  · rw [ha]; decide
  · rw [hb]; decide
  · rw [hc]; decide

/-- 1 and 2 are both equal to a NaN, and 1 is less than 2. -/
theorem nan_breaks_order :
    ∃ tee a n b, (∃ val : RID → Num.float.Val, val a = 0x3f800000#32 ∧ val n = 0x7fc00000#32 ∧
        val b = 0x40000000#32 ∧ ∀ k ∈ ({a, n, b} : Set RID), tee.stores.Denotes .float k (val k)) ∧
      Returns Env.ieee .plain .trivial tee (.kvFloat4Eq a n) ∧
      Returns Env.ieee .plain .trivial tee (.kvFloat4Eq n b) ∧
      Returns Env.ieee .plain .trivial tee (.kvFloat4Lt a b) ∧
      ¬ FloatOrder Env.ieee .plain .trivial tee {a, n, b} := by
  obtain ⟨tee, val, a, n, b, ha, hn, hb, live⟩ :=
    exists_three_floats 0x3f800000#32 0x7fc00000#32 0x40000000#32
  have live_a := live a (by simp)
  have live_n := live n (by simp)
  have live_b := live b (by simp)
  have han : Returns Env.ieee .plain .trivial tee (.kvFloat4Eq a n) := by
    rw [returns_iff rfl live_a live_n, ha, hn]
    decide
  have hnb : Returns Env.ieee .plain .trivial tee (.kvFloat4Eq n b) := by
    rw [returns_iff rfl live_n live_b, hn, hb]
    decide
  have hab : ¬ Returns Env.ieee .plain .trivial tee (.kvFloat4Eq a b) := by
    rw [returns_iff rfl live_a live_b, ha, hb]
    decide
  refine ⟨tee, a, n, b, ⟨val, ha, hn, hb, live⟩, han, hnb, ?_, fun order => hab ?_⟩
  · rw [returns_iff rfl live_a live_b, ha, hb]
    decide
  · exact order.eq_trans a (by simp) n (by simp) b (by simp) han hnb

end Extension

end Zeno
