import Zeno.Sql.Casts
import Zeno.Sql.Terms

/-!
# Queries over encrypted tables

`SELECT targets FROM tables WHERE condition`.  The constants of a plan are made first, by
the input functions and casts and by folding terms of constants, since all functions are
declared `IMMUTABLE`.  Then the plan looks at the rows of the joined tables one by one.  Where
the condition is true the targets are evaluated and sent through the output functions.

A table holds RIDs.  With the plaintexts they denote it is a table of values, and a query
has an answer over that.  The two answers are one.
-/

namespace Zeno

open Refine (Computes)

namespace Extension

/-! ## Input and output -/

/-- A call of an input function or of a cast, by the type of its result. -/
inductive Input (pg : PgEnv) : Ty → Type where
  | int4In (s : CStr) : Input pg .int
  | int4Recv (buf : List UInt8) : Input pg .int
  | int4ToInt4 (num : Num.int.Val) : Input pg .int
  | int8ToInt4 (num : BitVec 64) : Input pg .int
  | float4In (s : CStr) : Input pg .float
  | float4ToFloat4 (num : Num.float.Val) : Input pg .float
  | numericToFloat4 (num : pg.Numeric) : Input pg .float
  | doubleToFloat4 (num : BitVec 64) : Input pg .float
  | int8ToFloat4 (num : BitVec 64) : Input pg .float
  | int4ToFloat4 (num : Num.int.Val) : Input pg .float
  | timestampIn (s : CStr) : Input pg .timestamp
  | textIn (s : CStr) : Input pg .text
  | textRecv (buf : List UInt8) : Input pg .text

namespace Input

/-- The call. -/
def call {pg : PgEnv} : {t : Ty} → Input pg t → SqlCall pg
  | _, .int4In s => .kvInt4In s
  | _, .int4Recv buf => .kvInt4Recv buf
  | _, .int4ToInt4 num => .int4ToKvInt4 num
  | _, .int8ToInt4 num => .int8ToKvInt4 num
  | _, .float4In s => .kvFloat4In s
  | _, .float4ToFloat4 num => .float4ToKvFloat4 num
  | _, .numericToFloat4 num => .numericToKvFloat4 num
  | _, .doubleToFloat4 num => .doubleToKvFloat4 num
  | _, .int8ToFloat4 num => .int8ToKvFloat4 num
  | _, .int4ToFloat4 num => .int4ToKvFloat4 num
  | _, .timestampIn s => .kvTimestampIn s
  | _, .textIn s => .kvTextIn s
  | _, .textRecv buf => .kvTextRecv buf

/-- The value that is put, unless the call raises an error. -/
def value {pg : PgEnv} : {t : Ty} → Input pg t → Option t.Val
  | _, .int4In s => some (pg.atoi s)
  | _, .int4Recv buf => pg.pqGetmsgint buf
  | _, .int4ToInt4 num => some num
  | _, .int8ToInt4 num => some (num.setWidth 32)
  | _, .float4In s => pg.pgFloat4In s
  | _, .float4ToFloat4 num => some num
  | _, .numericToFloat4 num => pg.pgFloat4In (pg.numericOut num)
  | _, .doubleToFloat4 num => pg.pgFloat4In (pg.float8out num)
  | _, .int8ToFloat4 num => pg.pgFloat4In (int8CastText pg num)
  | _, .int4ToFloat4 num => pg.pgFloat4In (int4CastText pg num)
  | _, .timestampIn s => pg.pgTimestampIn s
  | _, .textIn s => inBuffer stringLength s
  | _, .textRecv buf => (pg.pqGetmsgstring buf).bind (inBuffer stringLength)

end Input

/-- The output function of a type. -/
def outCall (pg : PgEnv) : Ty → RID → SqlCall pg
  | .int => .kvInt4Out
  | .float => .kvFloat4Out
  | .timestamp => .kvTimestampOut
  | .text => .kvTextOut

/-- What a value is shown as.  It has no meaning if it does not fit the buffer of the output
function, which for an integer has four bytes. -/
def outText (pg : PgEnv) : (t : Ty) → t.Val → Option CStr
  | .int, v => inBuffer 4 (pg.sprintfInt v)
  | .float, v => inBuffer 32 (pg.sprintfFloat v)
  | .timestamp, v => pg.encodeDateTime v
  | .text, s => inBuffer stringLength s

/-! ## Rows -/

/-- A column of a row: a RID or a NULL. -/
abbrev Cell := Ty × Option RID

/-- A column of a row of plaintexts. -/
abbrev PlainCell := (t : Ty) × Option t.Val

/-- The column at a position, if it has the type asked for. -/
def cellAt (cells : List Cell) (t : Ty) (i : Nat) : Option RID := do
  let cell ← cells[i]?
  if cell.1 = t then cell.2 else none

/-- The same for a row of plaintexts. -/
def plainAt (cells : List PlainCell) (t : Ty) (i : Nat) : Option t.Val := do
  let cell ← cells[i]?
  if h : cell.1 = t then h ▸ cell.2 else none

/-- What a term can name: the columns of a row, and the constants. -/
def scopeOf (row consts : List Cell) : Ty → Var → Option RID
  | t, .col i => cellAt row t i
  | t, .const k => cellAt consts t k

/-- The same for plaintexts. -/
def plainScope (row consts : List PlainCell) : (t : Ty) → Var → Option t.Val
  | t, .col i => plainAt row t i
  | t, .const k => plainAt consts t k

/-- The rows of joined tables. -/
def product {α : Type} : List (List (List α)) → List (List α)
  | [] => [[]]
  | table :: tables => table.flatMap fun row => (product tables).map (row ++ ·)

/-! ## Queries -/

/-- A constant of a plan. -/
inductive Const (pg : PgEnv) where
  /-- NULL. -/
  | null (t : Ty)
  /-- A literal, or a cast. -/
  | input {t : Ty} (call : Input pg t)
  /-- A term of constants made before it. -/
  | fold {t : Ty} (term : Term t) (compound : term.isVar = false)

/-- How many temporaries a constant makes. -/
def Const.size {pg : PgEnv} : Const pg → Nat
  | .null _ => 0
  | .input _ => 1
  | .fold term _ => term.size

/-- The targets of a query. -/
abbrev Targets := List ((t : Ty) × Term t)

/-- How many temporaries the targets make for a row. -/
def targetsSize (targets : Targets) : Nat := (targets.map fun x => x.2.size).sum

/-- What is done with the rows of a plan. -/
structure Plan (pg : PgEnv) where
  consts : List (Const pg)
  cond : Cond
  targets : Targets

/-- A query. -/
structure Query (pg : PgEnv) extends Plan pg where
  /-- The tables, by number. -/
  sources : List Nat

section Definitions

variable (e : Env) (g : Gcm) (pg : PgEnv)

/-- Call a function that returns a `cstring`. -/
def callText (call : SqlCall pg) : Client CStr := do
  match ← call.eval e g pg with
  | .cstring s => pure s
  | _ => failure

/-- Make a constant. -/
def Const.eval (made : List Cell) : Const pg → Client Cell
  | .null t => pure (t, none)
  | .input (t := t) call => (fun id => (t, some id)) <$> callRid e g pg call.call
  | .fold (t := t) term _ => (fun x => (t, x)) <$> term.eval e g pg (scopeOf [] made)

/-- Make the constants in order. -/
def evalConsts : List Cell → List (Const pg) → Client (List Cell)
  | made, [] => pure made
  | made, c :: cs => do
      let cell ← c.eval e g pg made
      evalConsts (made ++ [cell]) cs

/-- Evaluate the targets for a row. -/
def evalTargets (scope : Ty → Var → Option RID) : Targets → Client (List Cell)
  | [] => pure []
  | ⟨t, term⟩ :: targets => do
      let x ← term.eval e g pg scope
      let cells ← evalTargets scope targets
      pure ((t, x) :: cells)

/-- Send a row through the output functions. -/
def outCells : List Cell → Client (List (Option CStr))
  | [] => pure []
  | (t, x) :: cells => do
      let s ← strict (fun id => callText e g pg (outCall pg t id)) x
      let ss ← outCells cells
      pure (s :: ss)

/-- Do something where a condition is true. -/
def whenTrue {α : Type} (b : Option Bool) (p : Client α) : Client (Option α) :=
  if b = some true then some <$> p else pure none

/-- The loop over the rows of a plan, with what is done where the condition is true. -/
def scan {α : Type} (cond : Cond) (consts : List Cell) (body : List Cell → Client α) :
    List (List Cell) → Client (List (Option α))
  | [] => pure []
  | row :: rows => do
      let b ← cond.eval e g pg (scopeOf row consts)
      let x ← whenTrue b (body row)
      let xs ← scan cond consts body rows
      pure (x :: xs)

/-- Evaluate the targets for a row and send the outcome. -/
def answerRow (targets : Targets) (consts row : List Cell) : Client (List (Option CStr)) := do
  let cells ← evalTargets e g pg (scopeOf row consts) targets
  outCells e g pg cells

/-- The answer to a query. -/
def Query.answer (q : Query pg) (tables : Nat → List (List Cell)) :
    Client (List (List (Option CStr))) := do
  let consts ← evalConsts e g pg [] q.consts
  let rows ← scan e g pg q.cond consts (answerRow e g pg q.targets consts)
    (product (q.sources.map tables))
  pure rows.reduceOption

end Definitions

/-! ## Answers over plaintexts -/

section Values

variable (e : Env) {pg : PgEnv}

/-- The value of a constant. -/
def Const.value (made : List PlainCell) : Const pg → Option PlainCell
  | .null t => some ⟨t, none⟩
  | .input (t := t) call => call.value.map fun v => ⟨t, some v⟩
  | .fold (t := t) term _ => (term.value e (plainScope [] made)).map fun v => ⟨t, v⟩

/-- The values of the constants. -/
def constValues : List PlainCell → List (Const pg) → Option (List PlainCell)
  | made, [] => some made
  | made, c :: cs => do
      let cell ← c.value e made
      constValues (made ++ [cell]) cs

/-- The values of the targets. -/
def targetValues (plain : (t : Ty) → Var → Option t.Val) : Targets → Option (List PlainCell)
  | [] => some []
  | ⟨t, term⟩ :: targets => do
      let v ← term.value e plain
      let cells ← targetValues plain targets
      some (⟨t, v⟩ :: cells)

/-- A row of values as it is shown. -/
def outTexts (pg : PgEnv) : List PlainCell → Option (List (Option CStr))
  | [] => some []
  | ⟨t, v⟩ :: cells => do
      let s ← strictValue (outText pg t) v
      let ss ← outTexts pg cells
      some (s :: ss)

/-- A value where a condition is true. -/
def whenTrueValue {β : Type} (b : Option Bool) (v : Option β) : Option (Option β) :=
  if b = some true then v.map some else some none

/-- The loop over rows of plaintexts. -/
def scanValues {β : Type} (cond : Cond) (consts : List PlainCell)
    (body : List PlainCell → Option β) : List (List PlainCell) → Option (List (Option β))
  | [] => some []
  | row :: rows => do
      let b ← cond.value e (plainScope row consts)
      let x ← whenTrueValue b (body row)
      let xs ← scanValues cond consts body rows
      some (x :: xs)

/-- The targets of a row, as they are shown. -/
def rowTexts (pg : PgEnv) (targets : Targets) (consts row : List PlainCell) :
    Option (List (Option CStr)) := do
  let cells ← targetValues e (plainScope row consts) targets
  outTexts pg cells

/-- The answer to a query over plaintexts. -/
def Query.value (q : Query pg) (tables : Nat → List (List PlainCell)) :
    Option (List (List (Option CStr))) := do
  let consts ← constValues e [] q.consts
  let rows ← scanValues e q.cond consts (rowTexts e pg q.targets consts)
    (product (q.sources.map tables))
  some rows.reduceOption

end Values

/-- How many temporaries a query makes, at most, over some rows. -/
def Query.cost {pg : PgEnv} (q : Query pg) (rows : Nat) : Nat :=
  (q.consts.map Const.size).sum + rows * (q.cond.size + targetsSize q.targets)

/-! ## Rows that stand for plaintexts -/

/-- A column that stands for a value. -/
inductive Entry (st : Stores) : Cell → PlainCell → Prop
  | mk {t : Ty} {x : Option RID} {v : Option t.Val} (h : Means st t x v) : Entry st (t, x) ⟨t, v⟩

/-- A row that stands for a row of plaintexts. -/
abbrev RowMeans (st : Stores) : List Cell → List PlainCell → Prop := List.Forall₂ (Entry st)

section Rows

variable {st st' : Stores}

theorem Entry.mono {cell : Cell} {plain : PlainCell} (h : Entry st cell plain)
    (hext : Extends st st') : Entry st' cell plain := by
  cases h with
  | mk h => exact .mk (hext.means h)

theorem RowMeans.mono {cells : List Cell} {plains : List PlainCell} (h : RowMeans st cells plains)
    (hext : Extends st st') : RowMeans st' cells plains :=
  List.Forall₂.imp (fun _ _ he => he.mono hext) h

/-- What a row has at a position. -/
theorem RowMeans.at {cells : List Cell} {plains : List PlainCell} (h : RowMeans st cells plains)
    (t : Ty) (i : Nat) : Means st t (cellAt cells t i) (plainAt plains t i) := by
  induction h generalizing i with
  | nil => exact .none
  | @cons cell plain cells plains he _ ih =>
      cases i with
      | zero =>
          cases he with
          | @mk t' x v hx =>
              by_cases ht : t' = t
              · subst ht
                simpa [cellAt, plainAt] using hx
              · simp [cellAt, plainAt, ht]
      | succ i => exact ih i

theorem scoped_of_rowMeans {row consts : List Cell} {plains values : List PlainCell}
    (hrow : RowMeans st row plains) (hconsts : RowMeans st consts values)
    (xs : List (Ty × Var)) : Scoped st (scopeOf row consts) (plainScope plains values) xs := by
  rintro ⟨t, x⟩ -
  cases x with
  | col i => exact hrow.at t i
  | const k => exact hconsts.at t k

/-- The rows of joined tables are related as the columns of the tables are. -/
theorem forall₂_product {α β : Type} {R : α → β → Prop} {tables : List (List (List α))}
    {plains : List (List (List β))}
    (h : List.Forall₂ (List.Forall₂ (List.Forall₂ R)) tables plains) :
    List.Forall₂ (List.Forall₂ R) (product tables) (product plains) := by
  induction h with
  | nil => exact .cons .nil .nil
  | @cons table plain tables plains hrows _ ih =>
      refine List.rel_flatMap hrows fun row plainRow hrow => ?_
      refine List.rel_map (fun rest plainRest hrest => ?_) ih
      exact List.rel_append hrow hrest

/-- The joined tables of a query. -/
theorem forall₂_sources {α β : Type} {R : α → β → Prop} {sources : List Nat}
    {tables : Nat → List (List α)} {plains : Nat → List (List β)}
    (h : ∀ k ∈ sources, List.Forall₂ (List.Forall₂ R) (tables k) (plains k)) :
    List.Forall₂ (List.Forall₂ R) (product (sources.map tables))
      (product (sources.map plains)) := by
  refine forall₂_product ?_
  rw [List.forall₂_map_left_iff, List.forall₂_map_right_iff]
  exact List.forall₂_same.mpr h

end Rows

/-! ## Constants, targets and outputs -/

section Computes

variable {e : Env} {g : Gcm} {pg : PgEnv} {tee : Tee} {t : Ty}

/-- Put a plaintext and return the RID. -/
def putRid (e : Env) (g : Gcm) (t : Ty) (value : t.Val) : Client RID := do
  let cipher ← fun tee => askBytes e g tee (.enc t (plainBytes t value))
  fun tee => askRid e g tee (.putEnc t cipher)

theorem putPlain_eq (value : t.Val) : putPlain e g t value = Datum.rid <$> putRid e g t value := by
  rw [putRid, map_bind]
  simp only [map_eq_pure_bind]
  rfl

theorem Input.eval_call (call : Input pg t) :
    call.call.eval e g pg = Datum.rid <$> (convert call.value >>= putRid e g t) := by
  have htext (s : CStr) :
      putText e g s = convert (inBuffer stringLength s) >>= putPlain e g .text := by
    rw [putText, inBuffer]
    by_cases hlt : s.length < stringLength
    · rw [if_pos hlt, if_neg (Nat.not_le.mpr hlt)]
      rfl
    · rw [if_neg hlt, if_pos (Nat.not_lt.mp hlt)]
      rfl
  rw [map_bind]
  simp only [← putPlain_eq]
  cases call with
  | textIn s => exact htext s
  | textRecv buf =>
      show convert (pg.pqGetmsgstring buf) >>= putText e g = convert (Option.bind _ _) >>= _
      cases pg.pqGetmsgstring buf with
      | none => rfl
      | some s => exact htext s
  | _ => rfl

theorem computes_convert {α : Type} (value : Option α) :
    Computes memory tee (convert value) value 0 fun a b _ => a = b ∧ value = some b := by
  cases value with
  | none => exact .failure
  | some a => exact .pure ⟨rfl, rfl⟩

/-- A plaintext that fits its buffer is encrypted, sent and put. -/
theorem computes_putRid {value : t.Val} (fits : plainFits t (plainBytes t value).length = true) :
    Computes memory tee (putRid e g t value) (some value) 1 fun id v tee' =>
      IsFresh tee.stores t id ∧ tee'.stores.Denotes t id v := by
  have henc : askBytes e g tee (.enc t (plainBytes t value)) =
      some ((gcmEncrypt g tee.iv (plainBytes t value)).2,
        { tee with iv := (gcmEncrypt g tee.iv (plainBytes t value)).1 }) := by
    rw [askBytes_eq_some, handleOps, if_pos fits]
  have hput : (Request.putEnc t (gcmEncrypt g tee.iv (plainBytes t value)).2).eval e g tee.stores =
      some ⟨t, value⟩ := by
    rw [Request.eval, decryptPlain_gcmEncrypt g tee.iv fits, Option.map_some,
      plainValue_plainBytes]
  have hcipher : Computes memory tee (fun tee => askBytes e g tee (.enc t (plainBytes t value)))
      (some value) 0 fun cipher v tee' => v = value ∧
        cipher = (gcmEncrypt g tee.iv (plainBytes t value)).2 ∧ tee'.stores = tee.stores :=
    computes_of_eq henc rfl ⟨rfl, rfl, rfl⟩
  show Computes memory tee (_ >>= _) (some value >>= some) (0 + 1) _
  refine hcipher.bind fun cipher v tee₁ _ h => ?_
  obtain ⟨rfl, rfl, hstores⟩ := h
  rw [← hstores] at hput ⊢
  exact computes_askRid _ rfl rfl hput

/-- The value of an input fits its buffer. -/
theorem Input.fits {call : Input pg t} {value : t.Val} (h : call.value = some value) :
    plainFits t (plainBytes t value).length = true := by
  have htext {s s' : CStr} (hs : inBuffer stringLength s = some s') :
      plainFits .text (plainBytes .text s').length = true := by
    rw [inBuffer, Option.ite_none_right_eq_some] at hs
    obtain ⟨hlt, heq⟩ := hs
    cases heq
    exact decide_eq_true hlt
  cases call with
  | textIn s => exact htext h
  | textRecv buf =>
      obtain ⟨s, -, hs⟩ := Option.bind_eq_some_iff.mp h
      exact htext hs
  | _ => exact plainFits_num _ value

/-- An input function or a cast puts its value. -/
theorem Input.computes (call : Input pg t) :
    Computes memory tee (callRid e g pg call.call) call.value 1 fun id v tee' =>
      IsFresh tee.stores t id ∧ tee'.stores.Denotes t id v := by
  rw [callRid_of_eval call.eval_call]
  have hbind : Computes memory tee (convert call.value >>= putRid e g t) (call.value >>= some)
      (0 + 1) fun id v tee' => IsFresh tee.stores t id ∧ tee'.stores.Denotes t id v := by
    refine (computes_convert call.value).bind fun a b tee₁ hext h => ?_
    obtain ⟨rfl, hvalue⟩ := h
    refine (computes_putRid (Input.fits hvalue)).weaken le_rfl fun id v _ _ hput => ?_
    exact ⟨hput.1.of_extends hext, hput.2⟩
  rwa [Option.bind_eq_bind, Option.bind_fun_some] at hbind

/-- A RID is read, encrypted, sent and decrypted. -/
theorem getPlain_eq {id : RID} {value : t.Val} (h : tee.stores.Denotes t id value) :
    getPlain e g t id tee = if plainFits t (plainBytes t value).length then
      some (value, { tee with iv := (gcmEncrypt g tee.iv (plainBytes t value)).1 }) else none := by
  have hget : handleOps e g tee (.getEnc t id) = if plainFits t (plainBytes t value).length then
      some (.bytes (gcmEncrypt g tee.iv (plainBytes t value)).2,
        { tee with iv := (gcmEncrypt g tee.iv (plainBytes t value)).1 }) else none := by
    rw [handleOps, h.get, Option.bind_eq_bind, Option.bind_some]
  show (askBytes e g tee (.getEnc t id)).bind _ = _
  rw [askBytes, hget]
  by_cases fits : plainFits t (plainBytes t value).length = true
  · rw [if_pos fits, if_pos fits]
    show (askBytes e g _ (.dec t _)).bind _ = _
    rw [askBytes, handleOps, decryptPlain_gcmEncrypt g tee.iv fits, Option.map_some]
    show some (plainValue t (plainBytes t value), _) = _
    rw [plainValue_plainBytes]
  · rw [if_neg fits, if_neg fits]
    rfl

/-- The text that a value is shown as is made from the plaintext. -/
theorem outCall_eval (e : Env) (g : Gcm) (pg : PgEnv) (t : Ty) (id : RID) :
    ∃ shown : t.Val → Option CStr,
      (outCall pg t id).eval e g pg =
        (getPlain e g t id >>= fun v => Datum.cstring <$> convert (shown v)) ∧
      ∀ v, outText pg t v = if plainFits t (plainBytes t v).length then shown v else none := by
  cases t with
  | num n =>
      have hfits (v : n.Val) := plainFits_num n v
      cases n with
      | int => exact ⟨outText pg .int, rfl, fun v => (if_pos (hfits v)).symm⟩
      | float => exact ⟨outText pg .float, rfl, fun v => (if_pos (hfits v)).symm⟩
      | timestamp => exact ⟨outText pg .timestamp, rfl, fun v => (if_pos (hfits v)).symm⟩
  | text =>
      refine ⟨some, map_eq_pure_bind _ _, fun s => ?_⟩
      show (if s.bytes.length < stringLength then some s else none) =
        if decide (s.bytes.length < stringLength) = true then some s else none
      simp only [decide_eq_true_eq]

/-- An output function shows the plaintext. -/
theorem computes_outCall {id : RID} {value : t.Val} (h : tee.stores.Denotes t id value) :
    Computes memory tee (callText e g pg (outCall pg t id)) (outText pg t value) 0
      fun s s' _ => s = s' := by
  obtain ⟨shown, heval, hout⟩ := outCall_eval e g pg t id
  have hcall : callText e g pg (outCall pg t id) =
      getPlain e g t id >>= fun v => convert (shown v) := by
    rw [callText, heval, bind_assoc]
    refine bind_congr fun v => ?_
    rw [bind_map_left]
    exact bind_pure _
  rw [hcall, hout]
  by_cases fits : plainFits t (plainBytes t value).length = true
  · rw [if_pos fits]
    have hget := getPlain_eq (e := e) (g := g) h
    rw [if_pos fits] at hget
    have hplain : Computes memory tee (getPlain e g t id) (some value) 0
        fun v v' _ => v = v' := computes_of_eq hget rfl rfl
    show Computes memory tee _ (some value >>= shown) (0 + 0) _
    refine hplain.bind fun v v' tee' _ heq => ?_
    subst heq
    exact (computes_convert (shown v)).weaken le_rfl fun _ _ _ _ hpost => hpost.1
  · rw [if_neg fits]
    constructor
    · intro s tee' hrun
      obtain ⟨v, tee₁, hget, -⟩ := Frame.bind_eq_some.mp hrun
      rw [getPlain_eq h, if_neg fits] at hget
      cases hget
    · intro b n hb
      cases hb

/-- Two columns that do not hold the same RID. -/
def Separate (c c' : Cell) : Prop := ∀ id ∈ c.2, ∀ id' ∈ c'.2, c.1 = c'.1 → id ≠ id'

/-- A new temporary is none of the RIDs in use. -/
theorem separate_of_fresh {st : Stores} {cells : List Cell} {plains : List PlainCell}
    (h : RowMeans st cells plains) {cell : Cell} (hfresh : ∀ id ∈ cell.2, IsFresh st cell.1 id) :
    ∀ c ∈ cells, Separate c cell := by
  induction h with
  | nil => exact fun c hc => absurd hc List.not_mem_nil
  | @cons c plain cells plains hentry _ ih =>
      rintro c' hc'
      rcases List.mem_cons.mp hc' with rfl | hrest
      · rintro id hid id' hid' ht rfl
        obtain ⟨t, x⟩ := c'
        obtain ⟨t', x'⟩ := cell
        cases hentry with
        | mk hx =>
            cases hx with
            | none => cases hid
            | some hd =>
                cases hid
                cases ht
                exact (hfresh _ hid').2 _ hd
      · exact ih c' hrest

/-- A constant is made as a new temporary, unless it is NULL. -/
theorem Const.computes {made : List Cell} {values : List PlainCell}
    (hmade : RowMeans tee.stores made values) (c : Const pg) :
    Computes memory tee (c.eval e g pg made) (c.value e values) c.size fun cell plain tee' =>
      Entry tee'.stores cell plain ∧ ∀ id ∈ cell.2, IsFresh tee.stores cell.1 id := by
  cases c with
  | null t => exact .pure ⟨.mk .none, fun id hid => absurd hid (by simp)⟩
  | input call =>
      refine call.computes.map fun id v tee' _ h => ⟨.mk (.some h.2), fun id' hid' => ?_⟩
      cases hid'
      exact h.1
  | fold term compound =>
      refine (term.computes (scoped_of_rowMeans .nil hmade _)).map fun x v tee' _ h => ?_
      exact ⟨.mk h.1, h.2 compound⟩

/-- The constants are made one after the other, each as a RID of its own. -/
theorem computes_evalConsts {cs : List (Const pg)} {made : List Cell} {values : List PlainCell}
    (hmade : RowMeans tee.stores made values) (hapart : made.Pairwise Separate) :
    Computes memory tee (evalConsts e g pg made cs) (constValues e values cs)
      (cs.map Const.size).sum fun cells plains tee' =>
        RowMeans tee'.stores cells plains ∧ cells.Pairwise Separate := by
  induction cs generalizing tee made values with
  | nil => exact .pure ⟨hmade, hapart⟩
  | cons c cs ih =>
      rw [List.map_cons, List.sum_cons]
      refine (c.computes hmade).bind fun cell plain tee₁ hext h => ?_
      refine ih (List.rel_append (hmade.mono hext) (.cons h.1 .nil)) ?_
      refine List.pairwise_append.mpr ⟨hapart, List.pairwise_singleton _ _, fun c' hc' d hd => ?_⟩
      rw [List.mem_singleton.mp hd]
      exact separate_of_fresh hmade h.2 c' hc'

theorem computes_evalTargets {scope : Ty → Var → Option RID}
    {plain : (t : Ty) → Var → Option t.Val} {targets : Targets}
    (bound : ∀ xs, Scoped tee.stores scope plain xs) :
    Computes memory tee (evalTargets e g pg scope targets) (targetValues e plain targets)
      (targetsSize targets) fun cells plains tee' => RowMeans tee'.stores cells plains := by
  induction targets generalizing tee with
  | nil => exact .pure .nil
  | cons target targets ih =>
      show Computes memory tee _ _ (target.2.size + (targetsSize targets + 0)) _
      refine (target.2.computes (bound _)).bind fun x v tee₁ hext₁ hx => ?_
      refine (ih fun xs => (bound xs).mono hext₁).bind fun cells plains tee₂ hext₂ hcells => ?_
      exact .pure (.cons (.mk (hext₂.means hx.1)) hcells)

theorem computes_outCells {cells : List Cell} {plains : List PlainCell}
    (h : RowMeans tee.stores cells plains) :
    Computes memory tee (outCells e g pg cells) (outTexts pg plains) 0
      fun ss ss' _ => ss = ss' := by
  induction cells generalizing tee plains with
  | nil =>
      cases h
      exact .pure rfl
  | cons cell cells ih =>
      cases h with
      | cons hentry hrest =>
          cases hentry with
          | mk hx =>
              show Computes memory tee _ _ (0 + (0 + 0)) _
              refine (computes_strict hx fun id v hv => computes_outCall hv).bind
                fun s s' tee₁ hext hs => ?_
              refine (ih (RowMeans.mono hrest hext)).bind fun ss ss' tee₂ _ hss => ?_
              exact .pure (by rw [rel_eq hs, hss])

theorem computes_whenTrue {α β : Type} {p : Client α} {v : Option β} {cost : Nat}
    {post : α → β → Prop} (b : Option Bool)
    (h : Computes memory tee p v cost fun a b _ => post a b) :
    Computes memory tee (whenTrue b p) (whenTrueValue b v) cost
      fun x v _ => Option.Rel post x v := by
  rw [whenTrue, whenTrueValue]
  split
  · exact h.map fun _ _ _ _ hpost => .some hpost
  · exact (Computes.pure .none).more (Nat.zero_le _)

/-- The loop over the rows does what it should, if its body does. -/
theorem computes_scan (ieee : e.Ieee) {α β : Type} {cond : Cond} {consts : List Cell}
    {values : List PlainCell} {body : List Cell → Client α} {value : List PlainCell → Option β}
    {cost : Nat} {post : α → β → Prop} {rows : List (List Cell)} {plains : List (List PlainCell)}
    (hconsts : RowMeans tee.stores consts values)
    (hrows : List.Forall₂ (RowMeans tee.stores) rows plains)
    (hbody : ∀ tee' row plain, RowMeans tee'.stores consts values →
      RowMeans tee'.stores row plain →
        Computes memory tee' (body row) (value plain) cost fun a b _ => post a b) :
    Computes memory tee (scan e g pg cond consts body rows) (scanValues e cond values value plains)
      (rows.length * (cond.size + cost)) fun xs vs _ => List.Forall₂ (Option.Rel post) xs vs := by
  induction rows generalizing tee plains with
  | nil =>
      cases hrows
      exact (Computes.pure .nil).more (Nat.zero_le _)
  | cons row rows ih =>
      cases hrows with
      | @cons _ plain _ plains hrow hrest =>
          have hcost : (row :: rows).length * (cond.size + cost) =
              cond.size + (cost + (rows.length * (cond.size + cost) + 0)) := by
            rw [List.length_cons, Nat.succ_mul]
            omega
          rw [hcost]
          refine (cond.computes ieee (scoped_of_rowMeans hrow hconsts _)).bind
            fun b b' tee₁ hext₁ hb => ?_
          subst hb
          refine (computes_whenTrue b (hbody tee₁ row plain (hconsts.mono hext₁)
            (hrow.mono hext₁))).bind fun x v tee₂ hext₂ hx => ?_
          have hext := hext₁.trans hext₂
          refine (ih (hconsts.mono hext) (hrest.imp fun _ _ h => h.mono hext)).bind
            fun xs vs tee₃ _ hxs => ?_
          exact .pure (.cons hx hxs)

theorem rowAnswer_computes {consts row : List Cell} {values plain : List PlainCell}
    (targets : Targets) (hconsts : RowMeans tee.stores consts values)
    (hrow : RowMeans tee.stores row plain) :
    Computes memory tee (answerRow e g pg targets consts row)
      (rowTexts e pg targets values plain) (targetsSize targets) fun ss ss' _ => ss = ss' := by
  show Computes memory tee _ _ (targetsSize targets + 0) _
  refine (computes_evalTargets (scoped_of_rowMeans hrow hconsts)).bind
    fun cells plains tee₁ _ hcells => ?_
  exact computes_outCells hcells

theorem forall₂_rel_eq {α : Type} {xs ys : List (Option α)}
    (h : List.Forall₂ (Option.Rel (· = ·)) xs ys) : xs = ys := by
  induction h with
  | nil => rfl
  | cons hx _ ih => rw [rel_eq hx, ih]

/-- A query over rows that stand for plaintexts computes the answer over the plaintexts. -/
theorem Query.computes (ieee : e.Ieee) (q : Query pg) {tables : Nat → List (List Cell)}
    {plains : Nat → List (List PlainCell)}
    (stored : ∀ k ∈ q.sources, List.Forall₂ (RowMeans tee.stores) (tables k) (plains k)) :
    Computes memory tee (q.answer e g pg tables) (q.value e plains)
      (q.cost (product (q.sources.map tables)).length) fun a a' _ => a = a' := by
  refine (computes_evalConsts .nil .nil).bind fun consts values tee₁ hext h => ?_
  rw [← Nat.add_zero (_ * _)]
  have hrows := (forall₂_sources stored).imp fun _ _ hrow => RowMeans.mono hrow hext
  refine (computes_scan ieee h.1 hrows fun tee' row plain hconsts hrow =>
    rowAnswer_computes q.targets hconsts hrow).bind fun rows rows' tee₂ _ hrel => ?_
  exact .pure (by rw [forall₂_rel_eq hrel])

/-- Over tables whose RIDs stand for plaintexts a query returns the answer over the plaintexts.
It does return, where there is an answer and memory for its temporaries, and it leaves all RIDs
and the files as they were. -/
theorem queries_answer_plaintexts (ieee : e.Ieee) (q : Query pg)
    {tables : Nat → List (List Cell)} {plains : Nat → List (List PlainCell)}
    (stored : ∀ k ∈ q.sources, List.Forall₂ (RowMeans tee.stores) (tables k) (plains k)) :
    (∀ a tee', q.answer e g pg tables tee = some (a, tee') →
      q.value e plains = some a ∧ Extends tee.stores tee'.stores) ∧
    (∀ a, q.value e plains = some a →
      (∀ t, tee.stores.slots t + q.cost (product (q.sources.map tables)).length ≤
        maxLocalSlots) →
      ∃ tee', q.answer e g pg tables tee = some (a, tee')) := by
  have hq := q.computes (g := g) ieee stored
  constructor
  · intro a tee' hrun
    obtain ⟨a', hvalue, hext, rfl⟩ := hq.sound hrun
    exact ⟨hvalue, hext⟩
  · intro a hvalue room
    obtain ⟨a', tee', hrun, -⟩ := hq.complete (n := 0) hvalue room
    obtain ⟨b, hb, -, rfl⟩ := hq.sound hrun
    cases hvalue.symm.trans hb
    exact ⟨tee', hrun⟩

end Computes

/-- Numbers are shown in decimal. -/
def shownDecimal : PgEnv := { PgEnv.trivial with sprintfInt := fun n => decimalText n.toInt }

/-- The first column. -/
def column : Term .int := .var .int (.col 0)

/-- The first constant. -/
def constant : Term .int := .var .int (.const 0)

/-- `SELECT c0 + 1 FROM t WHERE c0 < 7`. -/
def addBelowSeven : Query shownDecimal where
  consts := [.input (.int4ToInt4 1), .input (.int4ToInt4 7)]
  sources := [0]
  cond := .rel .lt column (.var .int (.const 1))
  targets := [⟨.int, .binary .intPlus column constant⟩]

/-- Over the fields 5, 7 and NULL. -/
theorem queries_answer_plaintexts_addBelowSeven :
    ∃ (tee tee' : Tee) (a b : RID), addBelowSeven.answer Env.ieee .plain _
      (fun _ => [[(.int, some a)], [(.int, some b)], [(.int, none)]]) tee =
        some ([[some (decimalText 6)]], tee') := by
  have hroom : 2 ≤ maxLocalSlots := by decide
  obtain ⟨st, rids, hputs, hslots⟩ := Stores.exists_puts [⟨.int, (5 : Num.int.Val)⟩,
    ⟨.int, (7 : Num.int.Val)⟩] hroom
  obtain _ | @⟨_, a, _, _, ha, _ | @⟨_, b, _, _, hb, _⟩⟩ := hputs
  have stored : ∀ k ∈ addBelowSeven.sources, List.Forall₂ (RowMeans (⟨.zero, st⟩ : Tee).stores)
      [[(.int, some a)], [(.int, some b)], [(.int, none)]]
      [[⟨.int, some (5 : Num.int.Val)⟩], [⟨.int, some (7 : Num.int.Val)⟩], [⟨.int, none⟩]] := by
    intro k _
    exact .cons (.cons (.mk (.some ha)) .nil) (.cons (.cons (.mk (.some hb)) .nil)
      (.cons (.cons (.mk .none) .nil) .nil))
  obtain ⟨-, hanswer⟩ :=
    queries_answer_plaintexts (g := .plain) Env.ieee_spec addBelowSeven stored
  obtain ⟨tee', hrun⟩ := hanswer [[some (decimalText 6)]] (by decide +kernel) fun t =>
    (Nat.add_le_add_right (hslots t) _).trans (show 2 + 5 ≤ maxLocalSlots by decide)
  exact ⟨_, tee', a, b, hrun⟩

end Extension

end Zeno
