import Zeno.Lib.Refine
import Zeno.Sql.Comparison

/-!
# Terms over encrypted fields

The terms and conditions of SQL statements, built from the operators of the encrypted
types.  A term is evaluated by calls of the functions of the extension, one request after
the other, and what it leaves is a RID.  Its meaning is a function of the plaintexts.

The operators are strict, so that they are not called on a NULL.  A condition is true, false or
unknown.  The right side of an AND or an OR is not evaluated if the left side decides.

Evaluation through the TEE and evaluation on plaintexts agree (`Term.computes`,
`Cond.computes`).  Where the first returns, the RID denotes the value of the second, no other
RID has changed its meaning and the files are as they were.  Where the second has a value and
there is memory for the temporaries, the first returns.

The function `substring` is not among the operators: it is called on the low halves of two
of its RIDs, which is the subject of `substring_right_iff`.
-/

namespace Zeno

open Refine (Computes)

namespace Extension

/-! ## Syntax -/

/-- What a term can name: a column of the row at hand, or a constant of the plan. -/
inductive Var where
  | col (i : Nat)
  | const (k : Nat)
deriving DecidableEq

/-- A term of an encrypted type. -/
inductive Term : Ty → Type where
  /-- A column or a constant. -/
  | var (t : Ty) (x : Var) : Term t
  /-- An operator on two operands. -/
  | binary (op : CalcOp) (l r : Term op.ty) : Term op.ty
  /-- `date_part('year', x)`. -/
  | year (x : Term .timestamp) : Term .int

/-- A condition. -/
inductive Cond where
  /-- A missing WHERE. -/
  | always
  | rel (op : Relop) {t : Ty} (l r : Term t)
  | like (l r : Term .text)
  | notlike (l r : Term .text)
  | isNull {t : Ty} (x : Term t)
  | not (c : Cond)
  | and (c d : Cond)
  | or (c d : Cond)

/-- The columns and constants of a term. -/
def Term.vars : {t : Ty} → Term t → List (Ty × Var)
  | t, .var _ x => [(t, x)]
  | _, .binary _ l r => l.vars ++ r.vars
  | _, .year x => x.vars

/-- The columns and constants of a condition. -/
def Cond.vars : Cond → List (Ty × Var)
  | .always => []
  | .rel _ l r => l.vars ++ r.vars
  | .like l r | .notlike l r => l.vars ++ r.vars
  | .isNull x => x.vars
  | .not c => c.vars
  | .and c d | .or c d => c.vars ++ d.vars

/-- How many temporaries a term makes. -/
def Term.size : {t : Ty} → Term t → Nat
  | _, .var _ _ => 0
  | _, .binary _ l r => l.size + r.size + 1
  | _, .year x => x.size + 1

/-- How many temporaries a condition makes, at most. -/
def Cond.size : Cond → Nat
  | .always => 0
  | .rel _ l r => l.size + r.size
  | .like l r | .notlike l r => l.size + r.size
  | .isNull x => x.size
  | .not c => c.size
  | .and c d | .or c d => c.size + d.size

/-- A bare column or constant. -/
def Term.isVar : {t : Ty} → Term t → Bool
  | _, .var _ _ => true
  | _, _ => false

/-! ## Evaluation -/

/-- The function of an operator. -/
def callOf (pg : PgEnv) : CalcOp → RID → RID → SqlCall pg
  | .intPlus => .kvInt4Add
  | .intMinus => .kvInt4Sub
  | .intMult => .kvInt4Mult
  | .intDiv => .kvInt4Div
  | .intPow => .kvInt4Pow
  | .intMod => .kvInt4Mod
  | .floatPlus => .kvFloat4Add
  | .floatMinus => .kvFloat4Sub
  | .floatMult => .kvFloat4Mult
  | .floatDiv => .kvFloat4Div
  | .floatPow => .kvFloat4Pow
  | .floatMod => .kvFloat4Mod
  | .textConcat => .kvTextConcatenate

/-- An AND of SQL, where `none` is unknown. -/
def and3 : Option Bool → Option Bool → Option Bool
  | some false, _ | _, some false => some false
  | some true, some true => some true
  | _, _ => none

/-- An OR of SQL. -/
def or3 : Option Bool → Option Bool → Option Bool
  | some true, _ | _, some true => some true
  | some false, some false => some false
  | _, _ => none

section Definitions

variable (e : Env) (g : Gcm) (pg : PgEnv)

/-- Call a function that returns a value of an encrypted type. -/
def callRid (call : SqlCall pg) : Client RID := do
  match ← call.eval e g pg with
  | .rid id => pure id
  | _ => failure

/-- Call a function that returns a `boolean`. -/
def callBool (call : SqlCall pg) : Client Bool := do
  match ← call.eval e g pg with
  | .bool b => pure b
  | _ => failure

/-- A strict function of one argument. -/
def strict {α : Type} (f : RID → Client α) : Option RID → Client (Option α)
  | some id => some <$> f id
  | none => pure none

/-- A strict function of two arguments. -/
def strict₂ {α : Type} (f : RID → RID → Client α) : Option RID → Option RID → Client (Option α)
  | some id1, some id2 => some <$> f id1 id2
  | _, _ => pure none

/-- Evaluate a term, with the RIDs of the columns and constants. -/
def Term.eval (scope : Ty → Var → Option RID) : {t : Ty} → Term t → Client (Option RID)
  | t, .var _ x => pure (scope t x)
  | _, .binary op l r => do
      let x ← l.eval scope
      let y ← r.eval scope
      strict₂ (fun id1 id2 => callRid e g pg (callOf pg op id1 id2)) x y
  | _, .year x => do
      let x ← x.eval scope
      strict (fun id => callRid e g pg (.datePart yearField id)) x

/-- Evaluate two terms and call a predicate on them. -/
def compareTerms (scope : Ty → Var → Option RID) {t : Ty} (l r : Term t)
    (call : RID → RID → SqlCall pg) : Client (Option Bool) := do
  let x ← l.eval e g pg scope
  let y ← r.eval e g pg scope
  strict₂ (fun id1 id2 => callBool e g pg (call id1 id2)) x y

/-- Evaluate the second condition unless the first one decides. -/
def shortCircuit (stop : Bool) (join : Option Bool → Option Bool → Option Bool)
    (first second : Client (Option Bool)) : Client (Option Bool) := do
  let p ← first
  if p = some stop then pure (some stop) else join p <$> second

/-- Evaluate a condition. -/
def Cond.eval (scope : Ty → Var → Option RID) : Cond → Client (Option Bool)
  | .always => pure (some true)
  | .rel (t := t) op l r => compareTerms e g pg scope l r (op.call pg t)
  | .like l r => compareTerms e g pg scope l r .kvTextLike
  | .notlike l r => compareTerms e g pg scope l r .kvTextNotlike
  | .isNull x => (fun x => some x.isNone) <$> x.eval e g pg scope
  | .not c => Option.map (!·) <$> c.eval scope
  | .and c d => shortCircuit false and3 (c.eval scope) (d.eval scope)
  | .or c d => shortCircuit true or3 (c.eval scope) (d.eval scope)

end Definitions

/-! ## Meaning -/

/-- A strict function of a value that may be NULL. -/
def strictValue {α β : Type} (f : α → Option β) : Option α → Option (Option β)
  | some x => (f x).map some
  | none => some none

/-- A strict function of two values. -/
def strictValue₂ {α β : Type} (f : α → α → Option β) : Option α → Option α → Option (Option β)
  | some x, some y => (f x y).map some
  | _, _ => some none

/-- The value of a term, where the outer `none` is a term that traps. -/
def Term.value (e : Env) (plain : (t : Ty) → Var → Option t.Val) :
    {t : Ty} → Term t → Option (Option t.Val)
  | t, .var _ x => some (plain t x)
  | _, .binary op l r => do
      let x ← l.value e plain
      let y ← r.value e plain
      strictValue₂ (op.fn e) x y
  | _, .year x => do
      let x ← x.value e plain
      strictValue (fun x => some (timestampExtractYear x)) x

/-- A relation between the values of two terms. -/
def relateTerms (e : Env) (plain : (t : Ty) → Var → Option t.Val) {t : Ty} (l r : Term t)
    (holds : t.Val → t.Val → Bool) : Option (Option Bool) := do
  let x ← l.value e plain
  let y ← r.value e plain
  strictValue₂ (fun x y => some (holds x y)) x y

/-- The second value is not asked for if the first one decides. -/
def shortCircuitValue (stop : Bool) (join : Option Bool → Option Bool → Option Bool)
    (first second : Option (Option Bool)) : Option (Option Bool) := do
  let p ← first
  if p = some stop then some (some stop) else second.map (join p)

/-- The value of a condition. -/
def Cond.value (e : Env) (plain : (t : Ty) → Var → Option t.Val) : Cond → Option (Option Bool)
  | .always => some (some true)
  | .rel (t := t) op l r => relateTerms e plain l r fun x y => op.holds (order t x y)
  | .like l r => relateTerms e plain l r matchText
  | .notlike l r => relateTerms e plain l r fun x y => !matchText x y
  | .isNull x => (x.value e plain).map fun x => some x.isNone
  | .not c => (c.value e plain).map (Option.map (!·))
  | .and c d => shortCircuitValue false and3 (c.value e plain) (d.value e plain)
  | .or c d => shortCircuitValue true or3 (c.value e plain) (d.value e plain)

/-- What a RID or a NULL stands for. -/
abbrev Means (st : Stores) (t : Ty) : Option RID → Option t.Val → Prop :=
  Option.Rel (st.Denotes t)

theorem denotes_of_means {st : Stores} {t : Ty} {x : Option RID} {v : Option t.Val} {id : RID}
    (h : Means st t x v) (hid : x = some id) : ∃ w, st.Denotes t id w := by
  cases h with
  | none => cases hid
  | some hd =>
      cases hid
      exact ⟨_, hd⟩

/-- Stores that have only gained temporaries. -/
structure Extends (st st' : Stores) : Prop where
  /-- The files are as before. -/
  kv : st'.kv = st.kv
  /-- What a RID denoted it still denotes. -/
  keeps : ∀ {t : Ty} {key : RID} {v : t.Val}, st.Denotes t key v → st'.Denotes t key v

namespace Extends

variable {st st' st'' : Stores}

theorem refl (st : Stores) : Extends st st := ⟨rfl, id⟩

theorem trans (h : Extends st st') (h' : Extends st' st'') : Extends st st'' :=
  ⟨h'.kv.trans h.kv, fun held => h'.keeps (h.keeps held)⟩

theorem means (h : Extends st st') {t : Ty} {x : Option RID} {v : Option t.Val}
    (held : Means st t x v) : Means st' t x v := by
  cases held with
  | none => exact .none
  | some held => exact .some (h.keeps held)

end Extends

/-- A new temporary: a local RID that denoted nothing. -/
def IsFresh (st : Stores) (t : Ty) (id : RID) : Prop :=
  islocal id = true ∧ ∀ v, ¬ st.Denotes t id v

theorem IsFresh.of_extends {st st' : Stores} {t : Ty} {id : RID} (h : IsFresh st' t id)
    (hext : Extends st st') : IsFresh st t id :=
  ⟨h.1, fun v held => h.2 v (hext.keeps held)⟩

/-- The local store, as what evaluation allocates from. -/
def memory : Refine.Memory Tee where
  later tee tee' := Extends tee.stores tee'.stores
  refl tee := .refl tee.stores
  trans := Extends.trans
  fits tee n := ∀ t, tee.stores.slots t + n ≤ maxLocalSlots
  mono hle hfits t := (Nat.add_le_add_left hle _).trans (hfits t)

/-- The RIDs of some columns and constants stand for some values. -/
def Scoped (st : Stores) (scope : Ty → Var → Option RID) (plain : (t : Ty) → Var → Option t.Val)
    (xs : List (Ty × Var)) : Prop :=
  ∀ x ∈ xs, Means st x.1 (scope x.1 x.2) (plain x.1 x.2)

section Scoped

variable {st st' : Stores} {scope : Ty → Var → Option RID}
  {plain : (t : Ty) → Var → Option t.Val} {xs ys : List (Ty × Var)}

theorem Scoped.left (h : Scoped st scope plain (xs ++ ys)) : Scoped st scope plain xs :=
  fun x hx => h x (List.mem_append_left _ hx)

theorem Scoped.right (h : Scoped st scope plain (xs ++ ys)) : Scoped st scope plain ys :=
  fun x hx => h x (List.mem_append_right _ hx)

theorem Scoped.mono (h : Scoped st scope plain xs) (hext : Extends st st') :
    Scoped st' scope plain xs :=
  fun x hx => hext.means (h x hx)

end Scoped

/-! ## One call -/

section Calls

variable {e : Env} {g : Gcm} {pg : PgEnv} {tee : Tee} {t : Ty}

/-- A request with a local result that frees nothing computes its value. -/
theorem computes_askRid (req : Request) {v : Option t.Val} (hres : req.result? = some t)
    (hfrees : req.frees = []) (hval : req.eval e g tee.stores = v.map (Sigma.mk t)) :
    Computes memory tee (fun tee => askRid e g tee req) v 1 fun id v tee' =>
      IsFresh tee.stores t id ∧ tee'.stores.Denotes t id v where
  sound h := by
    obtain ⟨val, rid, st, hreq, hput, heq, rfl⟩ :=
      handleOps_result_cases (askRid_eq_some.mp h) hres
    cases heq
    obtain ⟨v, rfl, rfl⟩ := Option.map_eq_some_iff.mp (hval.symm.trans hreq)
    rw [hfrees]
    obtain ⟨hl, hfresh, hdenotes⟩ := Stores.put_local_denotes hput
    exact ⟨v, rfl, ⟨Stores.put_local_kv hput, fun held => held.put_local hput⟩, ⟨hl, hfresh⟩,
      hdenotes⟩
  complete {v n} hv hfits := by
    subst hv
    have hroom : tee.stores.slots t < maxLocalSlots := by
      have := hfits t
      omega
    obtain ⟨rid, st, hput⟩ :=
      tee.stores.put_local_room t invalidRid v Partition.default.val hroom
    have hops : handleOps e g tee req =
        some (.rid rid, { tee with stores := st.freeAll req.frees }) := by
      rw [handleOps_result e g tee hres, hval, Option.map_some, Option.bind_some,
        Stores.putLocal, hput, Option.map_some]
    refine ⟨rid, _, askRid_eq_some.mpr hops, fun t' => ?_⟩
    have := handleOps_slots hops t'
    have := hfits t'
    omega

/-- A function that returns the reply to a request. -/
theorem callRid_of_eval {call : SqlCall pg} {p : Client RID}
    (h : call.eval e g pg = Datum.rid <$> p) : callRid e g pg call = p := by
  rw [callRid, h, bind_map_left]
  exact bind_pure p

/-- An operator on RIDs that denote values. -/
theorem computes_callOf {op : CalcOp} {id1 id2 : RID} {x y : op.ty.Val}
    (hx : tee.stores.Denotes op.ty id1 x) (hy : tee.stores.Denotes op.ty id2 y) :
    Computes memory tee (callRid e g pg (callOf pg op id1 id2)) (op.fn e x y) 1 fun id v tee' =>
      IsFresh tee.stores op.ty id ∧ tee'.stores.Denotes op.ty id v := by
  have heval : (callOf pg op id1 id2).eval e g pg =
      Datum.rid <$> (fun tee => askRid e g tee (.calculate op id1 id2) : Client RID) := by
    cases op <;> rfl
  rw [callRid_of_eval heval]
  refine computes_askRid (.calculate op id1 id2) rfl rfl ?_
  simp only [Request.eval, hx.get, hy.get, Option.bind_eq_bind, Option.bind_some,
    Option.map_eq_bind, Function.comp_def]

/-- The year of a timestamp. -/
theorem computes_datePart {id : RID} {x : Num.timestamp.Val}
    (hx : tee.stores.Denotes .timestamp id x) :
    Computes memory tee (callRid e g pg (.datePart yearField id)) (some (timestampExtractYear x)) 1
      fun id v tee' => IsFresh tee.stores .int id ∧ tee'.stores.Denotes .int id v := by
  have heval : (SqlCall.datePart yearField id).eval e g pg =
      Datum.rid <$> (fun tee => askRid e g tee (.extractYear id) : Client RID) := by
    simp only [SqlCall.eval, ne_eq, not_true_eq_false, if_false]
  rw [callRid_of_eval heval]
  refine computes_askRid (.extractYear id) rfl rfl ?_
  rw [Request.eval, hx.get, Option.map_some, Option.map_some]

section Strict

variable {α β : Type} {cost : Nat} {post : α → β → Tee → Prop}

/-- A strict function is called only on a value. -/
theorem computes_strict {f : RID → Client α} {k : t.Val → Option β} {x : Option RID}
    {v : Option t.Val} (hx : Means tee.stores t x v)
    (h : ∀ id a, tee.stores.Denotes t id a → Computes memory tee (f id) (k a) cost post) :
    Computes memory tee (strict f x) (strictValue k v) cost fun a b tee' =>
      Option.Rel (fun a b => post a b tee') a b := by
  cases hx with
  | none => exact (Computes.pure .none).more (Nat.zero_le _)
  | some hid => exact (h _ _ hid).map fun _ _ _ _ hpost => .some hpost

theorem computes_strict₂ {f : RID → RID → Client α} {k : t.Val → t.Val → Option β}
    {x y : Option RID} {v w : Option t.Val} (hx : Means tee.stores t x v)
    (hy : Means tee.stores t y w)
    (h : ∀ id1 id2 a b, tee.stores.Denotes t id1 a → tee.stores.Denotes t id2 b →
      Computes memory tee (f id1 id2) (k a b) cost post) :
    Computes memory tee (strict₂ f x y) (strictValue₂ k v w) cost fun a b tee' =>
      Option.Rel (fun a b => post a b tee') a b := by
  cases hx with
  | none => exact (Computes.pure .none).more (Nat.zero_le _)
  | some hx =>
      cases hy with
      | none => exact (Computes.pure .none).more (Nat.zero_le _)
      | some hy => exact (h _ _ _ _ hx hy).map fun _ _ _ _ hpost => .some hpost

end Strict

end Calls

/-! ## Terms -/

section Terms

variable {e : Env} {g : Gcm} {pg : PgEnv} {scope : Ty → Var → Option RID}
  {plain : (t : Ty) → Var → Option t.Val}

/-- What the evaluation of a term left: a RID of its value, which is a new temporary unless the
term is a bare variable. -/
def Term.Post {t : Ty} (term : Term t) (tee : Tee) (x : Option RID) (v : Option t.Val)
    (tee' : Tee) : Prop :=
  Means tee'.stores t x v ∧ (term.isVar = false → ∀ id ∈ x, IsFresh tee.stores t id)

/-- The result of an operator, put after its operands. -/
theorem post_of_made {t : Ty} {term : Term t} {tee₀ tee tee' : Tee} {x : Option RID}
    {v : Option t.Val} (hext : Extends tee₀.stores tee.stores)
    (h : Option.Rel (fun id v => IsFresh tee.stores t id ∧ tee'.stores.Denotes t id v) x v) :
    term.Post tee₀ x v tee' := by
  cases h with
  | none => exact ⟨.none, fun _ id hid => absurd hid (by simp)⟩
  | some made =>
      refine ⟨.some made.2, fun _ id hid => ?_⟩
      cases hid
      exact made.1.of_extends hext

/-- Evaluation computes the value of the term. -/
theorem Term.computes {t : Ty} (term : Term t) {tee : Tee}
    (bound : Scoped tee.stores scope plain term.vars) :
    Computes memory tee (term.eval e g pg scope) (term.value e plain) term.size
      (term.Post tee) := by
  induction term generalizing tee with
  | var t y => exact .pure ⟨bound (t, y) List.mem_cons_self, nofun⟩
  | binary op l r ihl ihr =>
      show Computes memory tee _ _ (l.size + (r.size + 1)) _
      refine (ihl bound.left).bind fun x v tee₁ hext₁ hx => ?_
      refine (ihr (bound.right.mono hext₁)).bind fun y w tee₂ hext₂ hy => ?_
      refine (computes_strict₂ (hext₂.means hx.1) hy.1 fun id1 id2 a b ha hb =>
        computes_callOf ha hb).weaken le_rfl fun z u tee₃ _ hz => ?_
      exact post_of_made (hext₁.trans hext₂) hz
  | year y ih =>
      refine (ih bound).bind fun x v tee₁ hext hx => ?_
      refine (computes_strict hx.1 fun id a ha => computes_datePart ha).weaken le_rfl
        fun z u tee₂ _ hz => ?_
      exact post_of_made hext hz

end Terms

/-! ## Conditions -/

section Conditions

variable {e : Env} {g : Gcm} {pg : PgEnv} {scope : Ty → Var → Option RID}
  {plain : (t : Ty) → Var → Option t.Val} {t : Ty}

/-- A function of SQL decides a relation between the plaintexts, and leaves the worker as it
is. -/
def Decides (e : Env) (g : Gcm) (pg : PgEnv) (call : RID → RID → SqlCall pg)
    (holds : t.Val → t.Val → Bool) : Prop :=
  ∀ (tee : Tee) (id1 id2 : RID) (x y : t.Val), tee.stores.Denotes t id1 x →
    tee.stores.Denotes t id2 y → (call id1 id2).eval e g pg tee = some (.bool (holds x y), tee)

theorem decides_rel (ieee : e.Ieee) (op : Relop) (t : Ty) :
    Decides e g pg (op.call pg t) fun x y => op.holds (order t x y) := by
  intro tee id1 id2 x y hx hy
  rw [op.call_eval hx.get hy.get, test_compareValues ieee]

theorem decides_like : Decides (t := .text) e g pg .kvTextLike matchText := by
  intro tee id1 id2 x y hx hy
  show cmpOf e g .textLike (· ≠ 0) id1 id2 tee = _
  rw [cmpOf_eval .textLike _ hx.get hy.get]
  show some (Datum.bool (decide ((if matchText x y then (1 : Int) else 0) ≠ 0)), tee) = _
  cases matchText x y <;> rfl

theorem decides_notlike :
    Decides (t := .text) e g pg .kvTextNotlike fun x y => !matchText x y := by
  intro tee id1 id2 x y hx hy
  show cmpOf e g .textLike (· = 0) id1 id2 tee = _
  rw [cmpOf_eval .textLike _ hx.get hy.get]
  show some (Datum.bool (decide ((if matchText x y then (1 : Int) else 0) = 0)), tee) =
    some (Datum.bool (!matchText x y), tee)
  cases matchText x y <;> rfl

/-- Where the outcome is known, and the stores are left alone, the program computes it. -/
theorem computes_of_eq {α β : Type} {p : Client α} {tee tee' : Tee} {a : α} {b : β}
    {post : α → β → Tee → Prop} (h : p tee = some (a, tee')) (hstores : tee'.stores = tee.stores)
    (hpost : post a b tee') : Computes memory tee p (some b) 0 post where
  sound heq := by
    cases h.symm.trans heq
    refine ⟨b, rfl, ?_, hpost⟩
    show Extends tee.stores tee'.stores
    rw [hstores]
    exact .refl _
  complete _ hfits := by
    refine ⟨a, tee', h, fun t => ?_⟩
    rw [hstores]
    exact (Nat.add_le_add_left (Nat.le_add_left _ _) _).trans (hfits t)

theorem rel_eq {α : Type} {x y : Option α} (h : Option.Rel (· = ·) x y) : x = y := by
  cases h with
  | none => rfl
  | some h => rw [h]

theorem computes_compareTerms {l r : Term t} {call : RID → RID → SqlCall pg}
    {holds : t.Val → t.Val → Bool} {tee : Tee} (decides : Decides e g pg call holds)
    (bound : Scoped tee.stores scope plain (l.vars ++ r.vars)) :
    Computes memory tee (compareTerms e g pg scope l r call) (relateTerms e plain l r holds)
      (l.size + r.size) fun b c _ => b = c := by
  show Computes memory tee _ _ (l.size + (r.size + 0)) _
  refine (l.computes bound.left).bind fun x v tee₁ hext₁ hx => ?_
  refine (r.computes (bound.right.mono hext₁)).bind fun y w tee₂ hext₂ hy => ?_
  refine (computes_strict₂ (hext₂.means hx.1) hy.1 fun id1 id2 a b ha hb => ?_).weaken le_rfl
    fun _ _ _ _ hb => rel_eq hb
  exact computes_of_eq
    (Frame.bind_eq_some.mpr ⟨_, _, decides tee₂ id1 id2 a b ha hb, rfl⟩) rfl rfl

theorem computes_shortCircuit {stop : Bool} {join : Option Bool → Option Bool → Option Bool}
    {p q : Client (Option Bool)} {v w : Option (Option Bool)} {cost cost' : Nat} {tee : Tee}
    (hp : Computes memory tee p v cost fun b c _ => b = c)
    (hq : ∀ tee', Extends tee.stores tee'.stores →
      Computes memory tee' q w cost' fun b c _ => b = c) :
    Computes memory tee (shortCircuit stop join p q) (shortCircuitValue stop join v w)
      (cost + cost') fun b c _ => b = c := by
  refine hp.bind fun b c tee₁ hext hbc => ?_
  subst hbc
  by_cases hstop : b = some stop
  · rw [if_pos hstop, if_pos hstop]
    exact (Computes.pure rfl).more (Nat.zero_le _)
  · rw [if_neg hstop, if_neg hstop]
    exact (hq tee₁ hext).map fun _ _ _ _ h => congrArg (join b) h

/-- Evaluation computes the value of the condition. -/
theorem Cond.computes (ieee : e.Ieee) (cond : Cond) {tee : Tee}
    (bound : Scoped tee.stores scope plain cond.vars) :
    Computes memory tee (cond.eval e g pg scope) (cond.value e plain) cond.size
      fun b c _ => b = c := by
  induction cond generalizing tee with
  | always => exact .pure rfl
  | rel op l r => exact computes_compareTerms (decides_rel ieee op _) bound
  | like l r => exact computes_compareTerms decides_like bound
  | notlike l r => exact computes_compareTerms decides_notlike bound
  | isNull x =>
      refine (x.computes bound).map fun y v _ _ hy => ?_
      cases hy.1 <;> rfl
  | not c ih => exact (ih bound).map fun _ _ _ _ h => congrArg (Option.map (!·)) h
  | and c d ihc ihd =>
      exact computes_shortCircuit (ihc bound.left) fun _ hext => ihd (bound.right.mono hext)
  | or c d ihc ihd =>
      exact computes_shortCircuit (ihc bound.left) fun _ hext => ihd (bound.right.mono hext)

end Conditions

end Extension

end Zeno
