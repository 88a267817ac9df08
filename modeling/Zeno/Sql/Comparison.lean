import Mathlib.Data.List.Lex
import Zeno.Sql.FloatOrder

/-!
# The comparison operators

`=`, `<>`, `<`, `<=`, `>` and `>=` of the four encrypted types, with the commutators and
negators that `kvdb--0.1.sql` declares for them.  All 24 functions send one comparison to
the TEE and test the sign of its outcome.

Every type is compared through a rank in one linear order: a number by its value, a text by
its bytes, one after the other.  A NaN has no rank and compares as equal to everything.  So
the declared commutators and negators hold on all values, NaNs among them, and the classes
for btree indexes of `kv_int4`, `kv_timestamp` and `kv_text` order the plaintexts totally,
with `=` for equal plaintexts.  The class of `kv_float4` is another matter (`FloatOrder`).
-/

namespace Zeno

namespace Extension

/-! ## The operators -/

/-- The comparison operators of SQL. -/
inductive Relop where
  | eq | ne | lt | le | gt | ge
deriving DecidableEq

namespace Relop

/-- The function of an operator on a type. -/
def call (pg : PgEnv) : Relop → Ty → RID → RID → SqlCall pg
  | .eq, .int => .kvInt4Eq
  | .ne, .int => .kvInt4Ne
  | .lt, .int => .kvInt4Lt
  | .le, .int => .kvInt4Le
  | .gt, .int => .kvInt4Gt
  | .ge, .int => .kvInt4Ge
  | .eq, .float => .kvFloat4Eq
  | .ne, .float => .kvFloat4Ne
  | .lt, .float => .kvFloat4Lt
  | .le, .float => .kvFloat4Le
  | .gt, .float => .kvFloat4Gt
  | .ge, .float => .kvFloat4Ge
  | .eq, .timestamp => .kvTimestampEq
  | .ne, .timestamp => .kvTimestampNe
  | .lt, .timestamp => .kvTimestampLt
  | .le, .timestamp => .kvTimestampLe
  | .gt, .timestamp => .kvTimestampGt
  | .ge, .timestamp => .kvTimestampGe
  | .eq, .text => .kvTextEq
  | .ne, .text => .kvTextNe
  | .lt, .text => .kvTextLt
  | .le, .text => .kvTextLe
  | .gt, .text => .kvTextGt
  | .ge, .text => .kvTextGe

/-- The declared `COMMUTATOR`. -/
def commutator : Relop → Relop
  | .eq => .eq
  | .ne => .ne
  | .lt => .gt
  | .le => .ge
  | .gt => .lt
  | .ge => .le

/-- The declared `NEGATOR`. -/
def negator : Relop → Relop
  | .eq => .ne
  | .ne => .eq
  | .lt => .ge
  | .le => .gt
  | .gt => .le
  | .ge => .lt

/-- The test of the outcome of a comparison. -/
def test : Relop → Int → Bool
  | .eq, c => c = 0
  | .ne, c => c ≠ 0
  | .lt, c => c < 0
  | .le, c => c ≤ 0
  | .gt, c => c > 0
  | .ge, c => c ≥ 0

end Relop

/-- The outcome of a comparison, from the values. -/
def compareValues (e : Env) : (t : Ty) → t.Val → t.Val → Int
  | .int => CmpOp.fn e .intCmp
  | .float => CmpOp.fn e .floatCmp
  | .timestamp => CmpOp.fn e .timestampCmp
  | .text => CmpOp.fn e .textCmp

/-! ## Ranks -/

/-- The rank of a value in the order its type is compared by. -/
def rank : (t : Ty) → t.Val → Option (List Int)
  | .int, x => some [x.toInt]
  | .float, x => (Binary32.value x).map ([·])
  | .timestamp, x => some [x.toInt]
  | .text, s => some (s.bytes.map fun b => (b.toNat : Int))

/-- The lexicographic order. -/
def lexOrder : List Int → List Int → Ordering
  | [], [] => .eq
  | [], _ :: _ => .lt
  | _ :: _, [] => .gt
  | a :: as, b :: bs => if a < b then .lt else if b < a then .gt else lexOrder as bs

/-- The order of two values: that of their ranks, and equal where one has none. -/
def order (t : Ty) (x y : t.Val) : Ordering :=
  match rank t x, rank t y with
  | some a, some b => lexOrder a b
  | _, _ => .eq

/-- What an operator says of the order of its operands. -/
def Relop.holds : Relop → Ordering → Bool
  | .eq, o => o.isEq
  | .ne, o => o.isNe
  | .lt, o => o.isLT
  | .le, o => o.isLE
  | .gt, o => o.isGT
  | .ge, o => o.isGE

section Ranks

variable {a b : Int} {s s' : List UInt8}

theorem singleton_lt_iff : [a] < [b] ↔ a < b := by
  simp [List.cons_lt_cons_iff]

/-- Bytes are ordered as the numbers they are. -/
theorem ranks_lt_iff :
    s.map (fun b => (b.toNat : Int)) < s'.map (fun b => (b.toNat : Int)) ↔ s < s' := by
  induction s generalizing s' with
  | nil =>
      cases s' with
      | nil => simp
      | cons b s' => simp
  | cons b s ih =>
      cases s' with
      | nil => simp
      | cons b' s' =>
          have hlt : (b.toNat : Int) < b'.toNat ↔ b < b' := by
            rw [Nat.cast_lt, UInt8.lt_iff_toNat_lt]
          have heq : (b.toNat : Int) = b'.toNat ↔ b = b' := by
            rw [Nat.cast_inj, UInt8.toNat_inj]
          rw [List.map_cons, List.map_cons, List.cons_lt_cons_iff, List.cons_lt_cons_iff, hlt, heq,
            ih]

theorem lexOrder_self (as : List Int) : lexOrder as as = .eq := by
  induction as with
  | nil => rfl
  | cons a as ih => rw [lexOrder, if_neg (lt_irrefl a), if_neg (lt_irrefl a), ih]

theorem lexOrder_swap (as bs : List Int) : lexOrder bs as = (lexOrder as bs).swap := by
  induction as generalizing bs with
  | nil => cases bs <;> rfl
  | cons a as ih =>
      cases bs with
      | nil => rfl
      | cons b bs =>
          rw [lexOrder, lexOrder]
          rcases lt_trichotomy a b with hlt | rfl | hgt
          · rw [if_neg hlt.not_gt, if_pos hlt, if_pos hlt]
            rfl
          · rw [if_neg (lt_irrefl a), if_neg (lt_irrefl a), if_neg (lt_irrefl a),
              if_neg (lt_irrefl a), ih]
          · rw [if_pos hgt, if_neg hgt.not_gt, if_pos hgt]
            rfl

theorem lexOrder_of_lt {as bs : List Int} (h : as < bs) : lexOrder as bs = .lt := by
  induction as generalizing bs with
  | nil =>
      cases bs with
      | nil => exact absurd h (lt_irrefl _)
      | cons b bs => rfl
  | cons a as ih =>
      cases bs with
      | nil => exact absurd h (List.not_lt_nil _)
      | cons b bs =>
          rw [lexOrder]
          rcases List.cons_lt_cons_iff.mp h with hlt | ⟨rfl, hrest⟩
          · rw [if_pos hlt]
          · rw [if_neg (lt_irrefl a), if_neg (lt_irrefl a), ih hrest]

theorem lexOrder_of_gt {as bs : List Int} (h : bs < as) : lexOrder as bs = .gt := by
  rw [lexOrder_swap bs as, lexOrder_of_lt h]
  rfl

/-- The outcome of two tests is that of the ranks they compare. -/
theorem compares_threeWay {β : Type} (value : β → List Int) (lt : β → β → Bool)
    (h : ∀ x y, lt x y = true ↔ value x < value y) :
    Partial.Compares (fun x => some (value x)) fun x y => threeWay (lt y x) (lt x y) where
  gt x y a b hx hy hlt := by
    cases hx
    cases hy
    rw [threeWay, if_pos ((h y x).mpr hlt)]
  lt x y a b hx hy hlt := by
    cases hx
    cases hy
    rw [threeWay, if_neg (fun hgt => hlt.not_gt ((h y x).mp hgt)), if_pos ((h x y).mpr hlt)]
  eq x y a hx hy := by
    cases hx
    have heq : value y = value x := Option.some.inj hy
    rw [threeWay, if_neg (fun hgt => ((h y x).mp hgt).ne heq),
      if_neg (fun hlt => ((h x y).mp hlt).ne heq.symm)]
  left x y hx := by cases hx
  right x y hy := by cases hy

/-- A comparison of partial values is one of any monotone image of them. -/
theorem compares_singleton {β : Type} {value : β → Option Int} {f : β → β → Int}
    (h : Partial.Compares value f) : Partial.Compares (fun x => (value x).map ([·])) f where
  gt x y a b hx hy hlt := by
    obtain ⟨a, ha, rfl⟩ := Option.map_eq_some_iff.mp hx
    obtain ⟨b, hb, rfl⟩ := Option.map_eq_some_iff.mp hy
    exact h.gt x y a b ha hb (singleton_lt_iff.mp hlt)
  lt x y a b hx hy hlt := by
    obtain ⟨a, ha, rfl⟩ := Option.map_eq_some_iff.mp hx
    obtain ⟨b, hb, rfl⟩ := Option.map_eq_some_iff.mp hy
    exact h.lt x y a b ha hb (singleton_lt_iff.mp hlt)
  eq x y a hx hy := by
    obtain ⟨a, ha, rfl⟩ := Option.map_eq_some_iff.mp hx
    obtain ⟨b, hb, heq⟩ := Option.map_eq_some_iff.mp hy
    exact h.eq x y a ha (hb.trans (congrArg some (List.singleton_inj.mp heq)))
  left x y hx := h.left x y (Option.map_eq_none_iff.mp hx)
  right x y hy := h.right x y (Option.map_eq_none_iff.mp hy)

end Ranks

variable {e : Env} {g : Gcm} {pg : PgEnv} {tee : Tee} {t : Ty}

/-- The values of each type are compared through their ranks. -/
theorem compares_rank (ieee : e.Ieee) (t : Ty) :
    Partial.Compares (rank t) (compareValues e t) := by
  have hslt {w : Nat} (x y : BitVec w) : BitVec.slt x y = true ↔ [x.toInt] < [y.toInt] := by
    rw [singleton_lt_iff, BitVec.slt_iff_toInt_lt]
  cases t with
  | num n =>
      cases n with
      | int => exact compares_threeWay _ _ hslt
      | float =>
          have hcmp : compareValues e .float =
              fun x y => if Binary32.lt y x then 1 else if Binary32.lt x y then -1 else 0 := by
            funext x y
            show threeWay (e.floatLt y x) (e.floatLt x y) = _
            rw [ieee]
            rfl
          rw [hcmp]
          exact compares_singleton Binary32.compares_lt
      | timestamp => exact compares_threeWay _ _ hslt
  | text =>
      refine compares_threeWay (fun s : CStr => s.bytes.map fun b => (b.toNat : Int))
        (fun s s' => decide (s.bytes < s'.bytes)) fun s s' => ?_
      rw [decide_eq_true_iff, ranks_lt_iff]

theorem order_of_ranks {x y : t.Val} {a b : List Int} (hx : rank t x = some a)
    (hy : rank t y = some b) : order t x y = lexOrder a b := by
  rw [order, hx, hy]

theorem order_of_none {x y : t.Val} (h : rank t x = none ∨ rank t y = none) :
    order t x y = .eq := by
  rcases h with hx | hy
  · rw [order, hx]
  · cases hx : rank t x with
    | none => rw [order, hx]
    | some a => rw [order, hx, hy]

/-- The test of the outcome is what the operator says of the order. -/
theorem test_compareValues (ieee : e.Ieee) (op : Relop) (t : Ty) (x y : t.Val) :
    op.test (compareValues e t x y) = op.holds (order t x y) := by
  have compares := compares_rank ieee t
  have hzero : op.test 0 = op.holds .eq := by cases op <;> rfl
  cases hx : rank t x with
  | none => rw [compares.left x y hx, order_of_none (.inl hx), hzero]
  | some a =>
      cases hy : rank t y with
      | none => rw [compares.right x y hy, order_of_none (.inr hy), hzero]
      | some b =>
          rw [order_of_ranks hx hy]
          rcases lt_trichotomy a b with hlt | rfl | hgt
          · rw [compares.lt x y a b hx hy hlt, lexOrder_of_lt hlt]
            cases op <;> rfl
          · rw [compares.eq x y a hx hy, hzero, lexOrder_self]
          · rw [compares.gt x y a b hx hy hgt, lexOrder_of_gt hgt]
            cases op <;> rfl

theorem order_swap (t : Ty) (x y : t.Val) : order t y x = (order t x y).swap := by
  cases hx : rank t x with
  | none => rw [order_of_none (.inr hx), order_of_none (.inl hx), Ordering.swap_eq]
  | some a =>
      cases hy : rank t y with
      | none => rw [order_of_none (.inl hy), order_of_none (.inr hy), Ordering.swap_eq]
      | some b =>
          rw [order_of_ranks hx hy, order_of_ranks hy hx, lexOrder_swap a b]

/-- Apart from floats, every value has a rank of its own. -/
theorem exists_rank (ht : t ≠ .float) : ∃ key : t.Val → List Int,
    Function.Injective key ∧ ∀ x, rank t x = some (key x) := by
  have hnum {w : Nat} : Function.Injective fun x : BitVec w => [x.toInt] := by
    intro x y h
    exact BitVec.eq_of_toInt_eq (List.singleton_inj.mp h)
  cases t with
  | num n =>
      cases n with
      | int => exact ⟨_, hnum, fun _ => rfl⟩
      | float => exact absurd rfl ht
      | timestamp => exact ⟨_, hnum, fun _ => rfl⟩
  | text =>
      refine ⟨_, fun s s' h => CStr.ext ?_, fun _ => rfl⟩
      refine List.map_injective_iff.mpr (fun b b' hb => ?_) h
      exact UInt8.toNat_inj.mp (Int.ofNat.inj hb)

/-! ## The functions -/

/-- A comparison tests the outcome, and leaves the worker as it is. -/
theorem cmpOf_eval (op : CmpOp) (test : Int → Bool) {a b : RID} {x y : op.ty.Val}
    (ha : tee.stores.get op.ty a = some x) (hb : tee.stores.get op.ty b = some y) :
    cmpOf e g op test a b tee = some (.bool (test (op.fn e x y)), tee) := by
  have hops : handleOps e g tee (.cmp op a b) = some (.cmp (op.fn e x y), tee) := by
    have hcmp : handleCmp e tee.stores op a b = Zeno.kvCmp e tee.stores op a b := by
      cases op <;> rfl
    simp only [handleOps, hcmp, Zeno.kvCmp, ha, hb, Option.bind_eq_bind, Option.bind_some,
      Option.map_some]
  exact Frame.map_eq_some.mpr ⟨_, askCmp_eq_some.mpr hops, rfl⟩

/-- An operator returns what it says of the values of its operands. -/
theorem Relop.call_eval (op : Relop) {a b : RID} {x y : t.Val}
    (ha : tee.stores.get t a = some x) (hb : tee.stores.get t b = some y) :
    (op.call pg t a b).eval e g pg tee = some (.bool (op.test (compareValues e t x y)), tee) := by
  cases t with
  | num n =>
      cases n with
      | int =>
          cases op <;> exact cmpOf_eval .intCmp _ ha hb
      | float =>
          cases op <;> exact cmpOf_eval .floatCmp _ ha hb
      | timestamp =>
          cases op <;> exact cmpOf_eval .timestampCmp _ ha hb
  | text =>
      have heval (test : Int → Bool) :
          cmpOf e g .textCmp test a b tee = some (.bool (test (compareValues e .text x y)), tee) :=
        cmpOf_eval .textCmp test ha hb
      cases op with
      | eq | ne =>
          simp only [Relop.call, SqlCall.eval, heval, Relop.test, ne_eq, eq_comm (a := (0 : Int))]
      | lt | le | gt | ge => exact heval _

/-- What the operators of a type do on a set of fields. -/
structure Operators (e : Env) (g : Gcm) (pg : PgEnv) (tee : Tee) (t : Ty) (R : Set RID)
    (val : RID → t.Val) : Prop where
  /-- An operator returns what it says of the order of the plaintexts, and the worker is as it
  was. -/
  returns : ∀ op : Relop, ∀ a ∈ R, ∀ b ∈ R, (op.call pg t a b).eval e g pg tee =
    some (.bool (op.holds (order t (val a) (val b))), tee)
  commutes : ∀ op : Relop, ∀ a ∈ R, ∀ b ∈ R, Returns e g pg tee (op.call pg t a b) ↔
    Returns e g pg tee (op.commutator.call pg t b a)
  negates : ∀ op : Relop, ∀ a ∈ R, ∀ b ∈ R, Returns e g pg tee (op.call pg t a b) ↔
    ¬ Returns e g pg tee (op.negator.call pg t a b)
  /-- Apart from floats, `=` is the equality of the plaintexts and `<=` a total order. -/
  equal : t ≠ .float → ∀ a ∈ R, ∀ b ∈ R,
    (Returns e g pg tee (Relop.eq.call pg t a b) ↔ val a = val b)
  antisymm : t ≠ .float → ∀ a ∈ R, ∀ b ∈ R, Returns e g pg tee (Relop.le.call pg t a b) →
    Returns e g pg tee (Relop.le.call pg t b a) → val a = val b
  total : t ≠ .float → ∀ a ∈ R, ∀ b ∈ R, Returns e g pg tee (Relop.le.call pg t a b) ∨
    Returns e g pg tee (Relop.le.call pg t b a)
  trans : t ≠ .float → ∀ a ∈ R, ∀ b ∈ R, ∀ c ∈ R, Returns e g pg tee (Relop.le.call pg t a b) →
    Returns e g pg tee (Relop.le.call pg t b c) → Returns e g pg tee (Relop.le.call pg t a c)

theorem Relop.holds_commutator (op : Relop) (o : Ordering) :
    op.commutator.holds o.swap = op.holds o := by
  cases op <;> cases o <;> rfl

theorem Relop.holds_negator (op : Relop) (o : Ordering) : op.negator.holds o = !op.holds o := by
  cases op <;> cases o <;> rfl

/-- The operators that an order class rests on, on ranked values. -/
theorem holds_le_iff {key : t.Val → List Int} (hkey : ∀ x, rank t x = some (key x)) (x y : t.Val) :
    (Relop.le.holds (order t x y) = true ↔ key x ≤ key y) ∧
      (Relop.eq.holds (order t x y) = true ↔ key x = key y) := by
  rw [order_of_ranks (hkey x) (hkey y)]
  rcases lt_trichotomy (key x) (key y) with hlt | heq | hgt
  · rw [lexOrder_of_lt hlt]
    exact ⟨iff_of_true rfl hlt.le, iff_of_false Bool.noConfusion hlt.ne⟩
  · rw [heq, lexOrder_self]
    exact ⟨iff_of_true rfl le_rfl, iff_of_true rfl rfl⟩
  · rw [lexOrder_of_gt hgt]
    exact ⟨iff_of_false Bool.noConfusion hgt.not_ge, iff_of_false Bool.noConfusion hgt.ne'⟩

/-- On the fields of any set the operators of a type agree with the order of the plaintexts and
with the commutators and negators declared for them.  Apart from floats they are a total
order of the plaintexts. -/
theorem comparisons_order_plaintexts (ieee : e.Ieee) {R : Set RID} (val : RID → t.Val)
    (live : ∀ k ∈ R, tee.stores.Denotes t k (val k)) : Operators e g pg tee t R val := by
  have hcall (op : Relop) {a b : RID} (ha : a ∈ R) (hb : b ∈ R) :
      (op.call pg t a b).eval e g pg tee =
        some (.bool (op.holds (order t (val a) (val b))), tee) := by
    rw [← test_compareValues ieee op t]
    exact op.call_eval (live a ha).get (live b hb).get
  have hreturns (op : Relop) {a b : RID} (ha : a ∈ R) (hb : b ∈ R) :
      Returns e g pg tee (op.call pg t a b) ↔ op.holds (order t (val a) (val b)) = true := by
    simp [Returns, hcall op ha hb]
  refine ⟨fun op a ha b hb => hcall op ha hb, fun op a ha b hb => ?_, fun op a ha b hb => ?_,
    fun ht a ha b hb => ?_, fun ht a ha b hb => ?_, fun ht a ha b hb => ?_,
    fun ht a ha b hb c hc => ?_⟩
  · rw [hreturns op ha hb, hreturns _ hb ha, order_swap t (val a), op.holds_commutator]
  · rw [hreturns op ha hb, hreturns _ ha hb, op.holds_negator]
    simp
  all_goals
    obtain ⟨key, hinj, hkey⟩ := exists_rank ht
  · rw [hreturns .eq ha hb, (holds_le_iff hkey _ _).2]
    exact hinj.eq_iff
  · rw [hreturns .le ha hb, hreturns .le hb ha, (holds_le_iff hkey _ _).1,
      (holds_le_iff hkey _ _).1]
    intro hab hba
    exact hinj (le_antisymm hab hba)
  · rw [hreturns .le ha hb, hreturns .le hb ha, (holds_le_iff hkey _ _).1,
      (holds_le_iff hkey _ _).1]
    exact le_total _ _
  · rw [hreturns .le ha hb, hreturns .le hb hc, hreturns .le ha hc, (holds_le_iff hkey _ _).1,
      (holds_le_iff hkey _ _).1, (holds_le_iff hkey _ _).1]
    exact le_trans

/-- The texts `a` and `ab`, and a third field with the first of them. -/
theorem comparisons_order_plaintexts_texts :
    ∃ (tee : Tee) (val : RID → CStr) (a b c : RID), val a = ⟨[97], by decide⟩ ∧
      val b = ⟨[97, 98], by decide⟩ ∧ val c = ⟨[97], by decide⟩ ∧
        Operators Env.ieee .plain .trivial tee .text {a, b, c} val := by
  have hroom : 3 ≤ maxLocalSlots := by decide
  obtain ⟨st, rids, hputs, -⟩ := Stores.exists_puts [⟨.text, ⟨[97], by decide⟩⟩,
    ⟨.text, ⟨[97, 98], by decide⟩⟩, ⟨.text, ⟨[97], by decide⟩⟩] hroom
  obtain _ | @⟨_, a, _, _, ha, _ | @⟨_, b, _, _, hb, _ | @⟨_, c, _, _, hc, _⟩⟩⟩ := hputs
  refine ⟨⟨.zero, st⟩, fun k => (st.get .text k).getD .empty, a, b, c, ?_, ?_, ?_,
    comparisons_order_plaintexts Env.ieee_spec _ ?_⟩
  · simp [ha.get]
  · simp [hb.get]
  · simp [hc.get]
  · rintro k (rfl | rfl | rfl)
    · simpa [ha.get] using ha
    · simpa [hb.get] using hb
    · simpa [hc.get] using hc

end Extension

end Zeno
