import Zeno.Lib.Machine
import Zeno.Sql.Executor
import Zeno.Sql.Query
import Zeno.Sql.Trigger

/-!
# Sessions over encrypted tables

A session runs queries, inserts, updates and deletes, in transactions.  The rows that an
INSERT or an UPDATE makes go through the trigger, which promotes their fields to the
partition of the table.  A query ends with `CMD_LOCAL_CLEAR`, and so does a transaction that
aborts.  These are the clears that the hooks of the executor send when no executor is nested
(`Session.run_hooked`).  A table of RIDs with what they denote is a table of plaintexts, and
the same statements have a meaning there.

A constant is one RID for the whole statement, and a promotion frees it.  So a constant
that is assigned to two columns, or to a column of two rows, or compared in the condition of
a later row, is read after it was freed, unless it is NULL.  A session is *careful* if none of
its statements does that.  Then it cannot be told from a session over the plaintexts.

A statement that raises an error is not a step here.
-/

namespace Zeno

open Refine (Computes)

namespace Extension

/-! ## Sessions -/

/-- A statement of SQL. -/
inductive Statement (pg : PgEnv) where
  /-- `SELECT`. -/
  | select (q : Query pg)
  /-- `INSERT` of the rows of a query.  One without tables has a single row, as `VALUES`. -/
  | insert (table : Nat) (q : Query pg)
  /-- `UPDATE`, with a target for every column. -/
  | update (table : Nat) (plan : Plan pg)
  /-- `DELETE`. -/
  | delete (table : Nat) (consts : List (Const pg)) (cond : Cond)
  | commit
  | abort

/-- The tables of a database, by number. -/
abbrev Tables (α : Type) := Nat → List (List α)

/-- A session, alone on its worker. -/
structure Session where
  tee : Tee
  /-- The tables as the session sees them. -/
  tables : Tables Cell
  /-- The tables when the transaction began. -/
  saved : Tables Cell
  /-- What its queries returned. -/
  answers : List (List (List (Option CStr)))

/-- A session over plaintexts. -/
structure PlainSession where
  tables : Tables PlainCell
  saved : Tables PlainCell
  answers : List (List (List (Option CStr)))

/-- The rows of a table after an UPDATE. -/
def updatedRows {α : Type} (rows : List α) (new : List (Option α)) : List α :=
  List.zipWith (fun row x => x.getD row) rows new

/-- The rows of a table after a DELETE. -/
def remainingRows {α : Type} (rows : List α) (deleted : List (Option Unit)) : List α :=
  (List.zipWith (fun row x => if x.isSome then none else some row) rows deleted).reduceOption

section Definitions

variable (e : Env) (g : Gcm) (pg : PgEnv)

/-- The tuple that the trigger is called with. -/
def columnsOf (cells : List Cell) : List Zeno.Column := cells.map fun c => ⟨false, some c.1, c.2⟩

/-- The trigger, for a row. -/
def fireRow (event : TriggerEvent) (p : Partition) (cells : List Cell) : Client (List Cell) :=
  fun tee => (fireColumns event p tee.stores (columnsOf cells)).map fun (columns, st) =>
    (List.zipWith (fun c column => (c.1, column.datum)) cells columns, { tee with stores := st })

/-- Make a row and put it in a table. -/
def writeRow (event : TriggerEvent) (p : Partition) (targets : Targets) (consts row : List Cell) :
    Client (List Cell) := do
  let cells ← evalTargets e g pg (scopeOf row consts) targets
  fireRow event p cells

/-- The rows that an INSERT or an UPDATE writes. -/
def Plan.writes (plan : Plan pg) (event : TriggerEvent) (p : Partition) (rows : List (List Cell)) :
    Client (List (Option (List Cell))) := do
  let consts ← evalConsts e g pg [] plan.consts
  scan e g pg plan.cond consts (writeRow e g pg event p plan.targets consts) rows

/-- Which rows a DELETE removes. -/
def deletes (consts : List (Const pg)) (cond : Cond) (rows : List (List Cell)) :
    Client (List (Option Unit)) := do
  let consts ← evalConsts e g pg [] consts
  scan e g pg cond consts (fun _ => pure ()) rows

/-- `CMD_LOCAL_CLEAR`. -/
def clearLocals (tee : Tee) : Option Tee := (handleOps e g tee .localClear).map Prod.snd

/-- One statement, with the partitions of the tables. -/
def Session.step (partitions : Nat → Partition) (s : Session) : Statement pg → Option Session
  | .select q => do
      let (a, tee) ← q.answer e g pg s.tables s.tee
      let tee ← clearLocals e g tee
      some { s with tee := tee, answers := s.answers ++ [a] }
  | .insert table q => do
      let (new, tee) ← q.writes e g pg .insert (partitions table)
        (product (q.sources.map s.tables)) s.tee
      some { s with
        tee := tee
        tables := Function.update s.tables table (s.tables table ++ new.reduceOption) }
  | .update table plan => do
      let (new, tee) ← plan.writes e g pg .update (partitions table) (s.tables table) s.tee
      some { s with
        tee := tee
        tables := Function.update s.tables table (updatedRows (s.tables table) new) }
  | .delete table consts cond => do
      let (deleted, tee) ← deletes e g pg consts cond (s.tables table) s.tee
      some { s with
        tee := tee
        tables := Function.update s.tables table (remainingRows (s.tables table) deleted) }
  | .commit => some { s with saved := s.tables }
  | .abort => do
      let tee ← clearLocals e g s.tee
      some { s with tee := tee, tables := s.saved }

end Definitions

section Values

variable (e : Env) {pg : PgEnv}

/-- The rows that an INSERT or an UPDATE writes, over plaintexts. -/
def Plan.values (plan : Plan pg) (rows : List (List PlainCell)) :
    Option (List (Option (List PlainCell))) := do
  let consts ← constValues e [] plan.consts
  scanValues e plan.cond consts
    (fun row => targetValues e (plainScope row consts) plan.targets) rows

/-- Which rows a DELETE removes, over plaintexts. -/
def deleteValues (consts : List (Const pg)) (cond : Cond) (rows : List (List PlainCell)) :
    Option (List (Option Unit)) := do
  let consts ← constValues e [] consts
  scanValues e cond consts (fun _ => some ()) rows

/-- One statement over plaintexts. -/
def PlainSession.step (s : PlainSession) : Statement pg → Option PlainSession
  | .select q => do
      let a ← q.value e s.tables
      some { s with answers := s.answers ++ [a] }
  | .insert table q => do
      let new ← q.values e (product (q.sources.map s.tables))
      some { s with
        tables := Function.update s.tables table (s.tables table ++ new.reduceOption) }
  | .update table plan => do
      let new ← plan.values e (s.tables table)
      some { s with
        tables := Function.update s.tables table (updatedRows (s.tables table) new) }
  | .delete table consts cond => do
      let deleted ← deleteValues e consts cond (s.tables table)
      some { s with
        tables := Function.update s.tables table (remainingRows (s.tables table) deleted) }
  | .commit => some { s with saved := s.tables }
  | .abort => some { s with tables := s.saved }

end Values

/-! ## Careful statements -/

/-- The constant that a variable names. -/
def Var.const? : Var → Option Nat
  | .col _ => none
  | .const k => some k

/-- The constant that a term is. -/
def Term.const? : {t : Ty} → Term t → Option Nat
  | _, .var _ x => x.const?
  | _, .binary _ _ _ => none
  | _, .year _ => none

/-- The constants that are assigned as they are, of those that are not NULL. -/
def bareConsts (nonNull : Ty → Nat → Bool) (targets : Targets) : List Nat :=
  targets.filterMap fun x => x.2.const?.filter (nonNull x.1)

/-- The constants among some variables. -/
def constsOf (xs : List (Ty × Var)) : List Nat := xs.filterMap fun x => x.2.const?

/-- How many rows were written. -/
def written {α : Type} (new : List (Option α)) : Nat := new.countP Option.isSome

/-- The constants of a plan that a promotion frees. -/
def Plan.freedConsts {pg : PgEnv} (plan : Plan pg) (values : List PlainCell) : List Nat :=
  bareConsts (fun t k => (plainAt values t k).isSome) plan.targets

/-- No constant is read after a promotion has freed it: those assigned as they are are
assigned once, to one row, and are not part of the condition. -/
def Plan.Careful (e : Env) (g : Gcm) (pg : PgEnv) (plan : Plan pg) (event : TriggerEvent)
    (p : Partition) (rows : List (List Cell)) (tee : Tee) : Prop :=
  ∀ values ∈ constValues e [] plan.consts, (plan.freedConsts values).Nodup ∧
    (∀ k ∈ plan.freedConsts values, k ∉ constsOf plan.cond.vars) ∧
    (plan.freedConsts values = [] ∨
      ∀ r ∈ plan.writes e g pg event p rows tee, written r.1 ≤ 1)

/-- A session that is careful with its constants. -/
def Session.Careful (e : Env) (g : Gcm) (pg : PgEnv) (partitions : Nat → Partition) (s : Session) :
    Statement pg → Prop
  | .insert table q => q.toPlan.Careful e g pg .insert (partitions table)
      (product (q.sources.map s.tables)) s.tee
  | .update table plan => plan.Careful e g pg .update (partitions table) (s.tables table) s.tee
  | _ => True

instance (e : Env) (g : Gcm) (pg : PgEnv) (plan : Plan pg) (event : TriggerEvent) (p : Partition)
    (rows : List (List Cell)) (tee : Tee) : Decidable (plan.Careful e g pg event p rows tee) :=
  inferInstanceAs (Decidable (∀ values ∈ constValues e [] plan.consts, _ ∧ _ ∧ _))

instance (e : Env) (g : Gcm) (pg : PgEnv) (partitions : Nat → Partition) (s : Session) :
    ∀ stmt, Decidable (s.Careful e g pg partitions stmt)
  | .insert _ _ => inferInstanceAs (Decidable (Plan.Careful ..))
  | .update _ _ => inferInstanceAs (Decidable (Plan.Careful ..))
  | .select _ | .delete _ _ _ | .commit | .abort => inferInstanceAs (Decidable True)

/-! ## The fields of a new row -/

/-- A column that stands for a value and whose RID is not local. -/
structure Filed (st : Stores) (cell : Cell) (plain : PlainCell) : Prop where
  entry : Entry st cell plain
  global : ∀ id ∈ cell.2, islocal id = false

/-- A column of a table: its RID is in the partition. -/
structure Stored (p : Partition) (st : Stores) (cell : Cell) (plain : PlainCell) : Prop where
  entry : Entry st cell plain
  inPartition : ∀ id ∈ cell.2, ridInPartition id p = true

/-- The rows of some tables. -/
abbrev FiledRow (st : Stores) : List Cell → List PlainCell → Prop := List.Forall₂ (Filed st)

/-- A row of a table. -/
abbrev StoredRow (p : Partition) (st : Stores) : List Cell → List PlainCell → Prop :=
  List.Forall₂ (Stored p st)

section Fields

variable {e : Env} {g : Gcm} {pg : PgEnv} {p : Partition} {st st' : Stores}

theorem Stored.filed {cell : Cell} {plain : PlainCell} (h : Stored p st cell plain) :
    Filed st cell plain := by
  refine ⟨h.entry, fun id hid => ?_⟩
  have hin := h.inPartition id hid
  simp only [ridInPartition, Bool.and_eq_true, Bool.not_eq_true'] at hin
  exact hin.1

theorem Filed.files {cell : Cell} {plain : PlainCell} (h : Filed st cell plain)
    (hfiles : FilesKept st st') : Filed st' cell plain := by
  refine ⟨?_, h.global⟩
  have hglobal := h.global
  cases h.entry with
  | mk hx =>
      cases hx with
      | none => exact .mk .none
      | some hd => exact .mk (.some (hfiles _ _ _ (hglobal _ rfl) hd))

theorem FiledRow.files {cells : List Cell} {plains : List PlainCell}
    (h : FiledRow st cells plains) (hfiles : FilesKept st st') : FiledRow st' cells plains :=
  List.Forall₂.imp (fun _ _ hf => hf.files hfiles) h

theorem FiledRow.means {cells : List Cell} {plains : List PlainCell}
    (h : FiledRow st cells plains) : RowMeans st cells plains :=
  List.Forall₂.imp (fun _ _ hf => hf.entry) h

theorem StoredRow.files {cells : List Cell} {plains : List PlainCell}
    (h : StoredRow p st cells plains) (hfiles : FilesKept st st') : StoredRow p st' cells plains :=
  List.Forall₂.imp (fun _ _ hs => ⟨(hs.filed.files hfiles).entry, hs.inPartition⟩) h

/-- What a row of some tables has at a position is not local. -/
theorem FiledRow.global_at {cells : List Cell} {plains : List PlainCell}
    (h : FiledRow st cells plains) {t : Ty} {i : Nat} {id : RID}
    (hid : cellAt cells t i = some id) : islocal id = false := by
  induction h generalizing i with
  | nil => cases hid
  | @cons cell plain cells plains hf _ ih =>
      cases i with
      | zero =>
          simp only [cellAt, List.getElem?_cons_zero, Option.bind_eq_bind, Option.bind_some,
            Option.ite_none_right_eq_some] at hid
          exact hf.global id hid.2
      | succ i => exact ih hid

theorem Extends.files (h : Extends st st') : FilesKept st st' :=
  fun _ _ _ _ hd => h.keeps hd

/-- The constants at these positions stand for their values. -/
def LiveOn (K : Nat → Prop) (st : Stores) (consts : List Cell) (values : List PlainCell) : Prop :=
  ∀ k, K k → ∀ t, Means st t (cellAt consts t k) (plainAt values t k)

theorem LiveOn.mono {K : Nat → Prop} {consts : List Cell} {values : List PlainCell}
    (h : LiveOn K st consts values) (hext : Extends st st') : LiveOn K st' consts values :=
  fun k hk t => hext.means (h k hk t)

/-- What a term may name, where only some of the constants are live. -/
theorem scoped_of_liveOn {K : Nat → Prop} {row consts : List Cell} {plains values : List PlainCell}
    {xs : List (Ty × Var)} (hrow : RowMeans st row plains) (hlive : LiveOn K st consts values)
    (hxs : ∀ k ∈ constsOf xs, K k) :
    Scoped st (scopeOf row consts) (plainScope plains values) xs := by
  rintro ⟨t, x⟩ hx
  cases x with
  | col i => exact hrow.at t i
  | const k => exact hlive k (hxs k (List.mem_filterMap.mpr ⟨_, hx, rfl⟩)) t

/-- Constants with RIDs of their own are told apart by them. -/
theorem cellAt_inj {consts : List Cell} (hapart : consts.Pairwise Separate) {t : Ty} {k k' : Nat}
    {id : RID} (hk : cellAt consts t k = some id) (hk' : cellAt consts t k' = some id) :
    k = k' := by
  simp only [cellAt, Option.bind_eq_bind, Option.bind_eq_some_iff,
    Option.ite_none_right_eq_some] at hk hk'
  obtain ⟨c, hc, ht, hid⟩ := hk
  obtain ⟨c', hc', ht', hid'⟩ := hk'
  obtain ⟨hlt, rfl⟩ := List.getElem?_eq_some_iff.mp hc
  obtain ⟨hlt', rfl⟩ := List.getElem?_eq_some_iff.mp hc'
  have hpairs := List.pairwise_iff_getElem.mp hapart
  rcases Nat.lt_trichotomy k k' with hless | heq | hmore
  · exact absurd rfl (hpairs k k' hlt hlt' hless id hid id hid' (ht.trans ht'.symm))
  · exact heq
  · exact absurd rfl (hpairs k' k hlt' hlt hmore id hid' id hid (ht'.trans ht.symm))

/-- The RID of a new row: of the old row, of a constant assigned as it is, or a new
temporary. -/
def Source (st : Stores) (consts : List Cell) (bare : List Nat) (f : WalRidItem) : Prop :=
  islocal f.rid = false ∨ (∃ k ∈ bare, cellAt consts f.ty k = some f.rid) ∨
    IsFresh st f.ty f.rid

theorem fieldsOf_cons (c : Cell) (cells : List Cell) :
    fieldsOf (columnsOf (c :: cells)) =
      (c.2.map fun id => (⟨c.1, id⟩ : WalRidItem)).toList ++ fieldsOf (columnsOf cells) := by
  obtain ⟨t, x⟩ := c
  cases x <;> rfl

/-- Whether a constant that was made is not NULL. -/
def heldBy (consts : List Cell) (t : Ty) (k : Nat) : Bool := (cellAt consts t k).isSome

theorem heldBy_eq {consts : List Cell} {values : List PlainCell}
    (h : RowMeans st consts values) : heldBy consts = fun t k => (plainAt values t k).isSome := by
  funext t k
  have hat := h.at t k
  rw [heldBy]
  generalize cellAt consts t k = x at hat ⊢
  generalize plainAt values t k = v at hat ⊢
  cases hat <;> rfl

/-- Where the RID of a target comes from. -/
theorem Term.source {t : Ty} {term : Term t} {tee tee' : Tee} {row consts : List Cell}
    {plain : List PlainCell} {x : Option RID} {id : RID} (hrow : FiledRow tee.stores row plain)
    (heval : term.eval e g pg (scopeOf row consts) tee = some (x, tee'))
    (hfresh : term.isVar = false → ∀ id ∈ x, IsFresh tee.stores t id) (hid : id ∈ x) :
    Source tee.stores consts (term.const?.filter (heldBy consts t)).toList ⟨t, id⟩ := by
  cases term with
  | var t y =>
      cases heval
      cases y with
      | col i => exact .inl (hrow.global_at hid)
      | const k =>
          have hcell : cellAt consts t k = some id := hid
          have hheld : heldBy consts t k = true := Option.isSome_iff_exists.mpr ⟨id, hcell⟩
          refine .inr (.inl ⟨k, ?_, hcell⟩)
          simp [Term.const?, Var.const?, hheld]
  | binary op l r => exact .inr (.inr (hfresh rfl id hid))
  | year y => exact .inr (.inr (hfresh rfl id hid))

/-- What the evaluation of the targets left. -/
structure Evaluated (st st' : Stores) (consts : List Cell) (targets : Targets) (cells : List Cell)
    (plains : List PlainCell) : Prop where
  extended : Extends st st'
  means : RowMeans st' cells plains
  source : ∀ f ∈ fieldsOf (columnsOf cells),
    Source st consts (bareConsts (heldBy consts) targets) f
  /-- No local RID is in two columns. -/
  distinct : (fieldsOf (columnsOf cells)).Pairwise fun f f' => f = f' → islocal f'.rid = false

/-- The constants of a plan, all live and with RIDs of their own. -/
structure Ready (st : Stores) (consts : List Cell) (values : List PlainCell) : Prop where
  live : LiveOn (fun _ => True) st consts values
  apart : consts.Pairwise Separate

theorem Ready.mono {consts : List Cell} {values : List PlainCell} (h : Ready st consts values)
    (hext : Extends st st') : Ready st' consts values :=
  ⟨h.live.mono hext, h.apart⟩

/-- Of two targets, the second does not hold a local RID that the first holds. -/
theorem source_distinct {st₁ : Stores} {consts : List Cell} {values : List PlainCell} {t : Ty}
    {id : RID} {v : t.Val} {first rest : List Nat} {f : WalRidItem} (ready : Ready st consts values)
    (hnodup : (first ++ rest).Nodup) (hdenotes : st₁.Denotes t id v)
    (hfirst : Source st consts first ⟨t, id⟩) (hrest : Source st₁ consts rest f)
    (heq : (⟨t, id⟩ : WalRidItem) = f) : islocal f.rid = false := by
  subst heq
  rcases hrest with hglobal | ⟨k, hk, hcell⟩ | hfresh
  · exact hglobal
  · rcases hfirst with hglobal | ⟨k', hk', hcell'⟩ | hfresh
    · exact hglobal
    · obtain rfl := cellAt_inj ready.apart hcell hcell'
      exact absurd hk (List.disjoint_of_nodup_append hnodup hk')
    · obtain ⟨w, hw⟩ := denotes_of_means (ready.live k trivial t) hcell
      exact absurd hw (hfresh.2 w)
  · exact absurd hdenotes (hfresh.2 v)

theorem evalTargets_sound {tee tee' : Tee} {targets : Targets} {row consts cells : List Cell}
    {plain values : List PlainCell} (hrow : FiledRow tee.stores row plain)
    (ready : Ready tee.stores consts values)
    (hnodup : (bareConsts (heldBy consts) targets).Nodup)
    (h : evalTargets e g pg (scopeOf row consts) targets tee = some (cells, tee')) :
    ∃ plains, targetValues e (plainScope plain values) targets = some plains ∧
      Evaluated tee.stores tee'.stores consts targets cells plains := by
  induction targets generalizing tee cells with
  | nil =>
      cases h
      exact ⟨[], rfl, .refl _, .nil, fun f hf => absurd hf List.not_mem_nil, .nil⟩
  | cons target targets ih =>
      obtain ⟨t, term⟩ := target
      obtain ⟨x, tee₁, hterm, h⟩ := Frame.bind_eq_some.mp h
      obtain ⟨rest, tee₂, hrest, h⟩ := Frame.bind_eq_some.mp h
      cases h
      have hbare : bareConsts (heldBy consts) (⟨t, term⟩ :: targets) =
          (term.const?.filter (heldBy consts t)).toList ++
            bareConsts (heldBy consts) targets := by
        simp only [bareConsts, List.filterMap_cons]
        cases term.const?.filter (heldBy consts t) <;> rfl
      rw [hbare] at hnodup
      obtain ⟨v, hv, hext₁, hx, hfresh⟩ :=
        (term.computes (scoped_of_liveOn hrow.means ready.live fun _ _ => trivial)).sound hterm
      obtain ⟨plains, hplains, left⟩ := ih (hrow.files hext₁.files) (ready.mono hext₁)
        (List.Nodup.of_append_right hnodup) hrest
      have hsource {id : RID} (hid : id ∈ x) := Term.source hrow hterm hfresh hid
      refine ⟨⟨t, v⟩ :: plains, ?_, hext₁.trans left.extended,
        .cons (.mk (left.extended.means hx)) left.means, ?_, ?_⟩
      · simp only [targetValues, hv, hplains, Option.bind_eq_bind, Option.bind_some]
      · intro f hf
        rw [hbare]
        rw [fieldsOf_cons] at hf
        rcases List.mem_append.mp hf with hhead | htail
        · obtain ⟨id, hid, rfl⟩ := Option.map_eq_some_iff.mp (Option.mem_toList.mp hhead)
          rcases hsource hid with hfile | ⟨k, hk, hcell⟩ | hnew
          · exact .inl hfile
          · exact .inr (.inl ⟨k, List.mem_append_left _ hk, hcell⟩)
          · exact .inr (.inr hnew)
        · rcases left.source f htail with hfile | ⟨k, hk, hcell⟩ | hnew
          · exact .inl hfile
          · exact .inr (.inl ⟨k, List.mem_append_right _ hk, hcell⟩)
          · exact .inr (.inr (hnew.of_extends hext₁))
      · rw [fieldsOf_cons]
        refine List.pairwise_append.mpr ⟨?_, left.distinct, fun f hf f' hf' => ?_⟩
        · cases x with
          | none => exact .nil
          | some id => exact List.pairwise_singleton _ _
        · obtain ⟨id, hid, rfl⟩ := Option.map_eq_some_iff.mp (Option.mem_toList.mp hf)
          obtain ⟨w, hw⟩ := denotes_of_means hx hid
          exact source_distinct ready hnodup hw (hsource hid) (left.source f' hf')

/-! ## The trigger -/

/-- The stores after the trigger: what the files denote is kept, and of the local RIDs only
those of the row are freed. -/
structure Fired (st st' : Stores) (cells : List Cell) : Prop where
  files : FilesKept st st'
  held : ∀ f : WalRidItem, (islocal f.rid = true → f ∉ fieldsOf (columnsOf cells)) →
    ∀ v, st.Denotes f.ty f.rid v → st'.Denotes f.ty f.rid v

theorem denotes_of_mem_fieldsOf {cells : List Cell} {plains : List PlainCell}
    (h : RowMeans st cells plains) :
    ∀ f ∈ fieldsOf (columnsOf cells), ∃ v, st.Denotes f.ty f.rid v := by
  induction h with
  | nil => exact fun f hf => absurd hf List.not_mem_nil
  | @cons cell plain cells plains hentry _ ih =>
      intro f hf
      rw [fieldsOf_cons] at hf
      rcases List.mem_append.mp hf with hhead | htail
      · obtain ⟨id, hid, rfl⟩ := Option.map_eq_some_iff.mp (Option.mem_toList.mp hhead)
        cases hentry with
        | mk hx => exact denotes_of_means hx hid
      · exact ih f htail

theorem storedRow_of_kept {cells : List Cell} {plains : List PlainCell} {columns : List Zeno.Column}
    (hmeans : RowMeans st cells plains)
    (hkept : List.Forall₂ (Kept st st' p) (columnsOf cells) columns) :
    StoredRow p st' (List.zipWith (fun c column => (c.1, column.datum)) cells columns) plains := by
  induction hmeans generalizing columns with
  | nil =>
      cases hkept
      exact .nil
  | @cons cell plain cells plains hentry _ ih =>
      rw [columnsOf, List.map_cons] at hkept
      obtain _ | ⟨hfirst, hrest⟩ := hkept
      refine .cons ?_ (ih hrest)
      cases hentry with
      | mk hx =>
          cases hx with
          | none =>
              cases show _ = _ from hfirst
              exact ⟨.mk .none, fun id hid => absurd hid (by simp)⟩
          | some hd =>
              obtain ⟨rid, rfl, hglobal, hpart, hkeeps⟩ := hfirst
              refine ⟨.mk (.some (hkeeps _ hd)), fun id hid => ?_⟩
              cases hid
              simp only [ridInPartition, hglobal, hpart, Bool.not_false, Bool.true_and,
                beq_self_eq_true]

theorem fireRow_sound {tee tee' : Tee} {event : TriggerEvent} {cells cells' : List Cell}
    {plains : List PlainCell} (hmeans : RowMeans tee.stores cells plains)
    (distinct : (fieldsOf (columnsOf cells)).Pairwise fun f f' => f = f' → islocal f'.rid = false)
    (h : fireRow event p cells tee = some (cells', tee')) :
    StoredRow p tee'.stores cells' plains ∧ Fired tee.stores tee'.stores cells := by
  obtain ⟨⟨columns, st⟩, hfire, heq⟩ := Option.map_eq_some_iff.mp h
  cases heq
  have typed : ∀ c ∈ columnsOf cells, c.dropped = true → c.kvType = none := by
    intro c hc hdropped
    obtain ⟨cell, -, rfl⟩ := List.mem_map.mp hc
    cases hdropped
  obtain ⟨hmid, hfiles, hkept⟩ :=
    fireColumns_spec (midway_start _) typed (denotes_of_mem_fieldsOf hmeans) hfire
  have happart : Zeno.Apart (Shareable tee.stores) [] (fieldsOf (columnsOf cells)) := by
    refine ⟨fun a ha => absurd ha List.not_mem_nil, distinct.imp fun hff heq hlocal => ?_⟩
    rw [hff heq] at hlocal
    cases hlocal
  refine ⟨storedRow_of_kept hmeans ((hkept st fun _ _ _ _ hd => hd).mpr happart), hfiles, ?_⟩
  simpa using hmid.held

/-- A row is written as it should, and only constants assigned as they are are freed. -/
theorem writeRow_sound {tee tee' : Tee} {event : TriggerEvent} {targets : Targets}
    {row consts cells : List Cell} {plain values : List PlainCell}
    (hrow : FiledRow tee.stores row plain) (ready : Ready tee.stores consts values)
    (hnodup : (bareConsts (heldBy consts) targets).Nodup)
    (h : writeRow e g pg event p targets consts row tee = some (cells, tee')) :
    ∃ plains, targetValues e (plainScope plain values) targets = some plains ∧
      StoredRow p tee'.stores cells plains ∧ FilesKept tee.stores tee'.stores ∧
        LiveOn (· ∉ bareConsts (heldBy consts) targets) tee'.stores consts values := by
  obtain ⟨new, tee₁, hnew, hfire⟩ := Frame.bind_eq_some.mp h
  obtain ⟨plains, hplains, left⟩ := evalTargets_sound hrow ready hnodup hnew
  obtain ⟨hstored, fired⟩ := fireRow_sound left.means left.distinct hfire
  refine ⟨plains, hplains, hstored, fun t key v hg hd =>
    fired.files t key v hg (left.extended.keeps hd), fun k hk t => ?_⟩
  have hmeans := ready.live k trivial t
  cases hcell : cellAt consts t k with
  | none =>
      rw [hcell] at hmeans
      generalize plainAt values t k = v at hmeans
      cases hmeans
      exact .none
  | some id =>
      rw [hcell] at hmeans
      generalize plainAt values t k = v at hmeans
      cases hmeans with
      | some hd =>
          refine .some (fired.held ⟨t, id⟩ (fun hlocal hmem => ?_) _ (left.extended.keeps hd))
          rcases left.source _ hmem with hglobal | ⟨k', hk', hcell'⟩ | hfresh
          · rw [hglobal] at hlocal
            cases hlocal
          · obtain rfl := cellAt_inj ready.apart hcell hcell'
            exact hk hk'
          · exact hfresh.2 _ hd

/-! ## The loop -/

/-- What the loop over the rows does, from what its body does.  The constants of the condition
must stay live throughout, and all of them unless no more rows are written. -/
theorem scan_sound (ieee : e.Ieee) {α β : Type} {cond : Cond} {consts : List Cell}
    {values : List PlainCell} {body : List Cell → Client α} (value : List PlainCell → Option β)
    (Out : Stores → α → β → Prop) (again : Prop) {tee tee' : Tee} {rows : List (List Cell)}
    {plains : List (List PlainCell)} {xs : List (Option α)}
    (hout : ∀ st st' a b, FilesKept st st' → Out st a b → Out st' a b)
    (hbody : ∀ tee tee' row plain a, FiledRow tee.stores row plain →
      Ready tee.stores consts values → body row tee = some (a, tee') →
        ∃ b, value plain = some b ∧ Out tee'.stores a b ∧ FilesKept tee.stores tee'.stores ∧
          LiveOn (· ∈ constsOf cond.vars) tee'.stores consts values ∧
            (again → Ready tee'.stores consts values))
    (hrows : List.Forall₂ (FiledRow tee.stores) rows plains)
    (hlive : LiveOn (· ∈ constsOf cond.vars) tee.stores consts values)
    (hready : Ready tee.stores consts values ∧ (again ∨ written xs ≤ 1) ∨ written xs = 0)
    (h : scan e g pg cond consts body rows tee = some (xs, tee')) :
    ∃ vs, scanValues e cond values value plains = some vs ∧
      List.Forall₂ (Option.Rel (Out tee'.stores)) xs vs ∧ FilesKept tee.stores tee'.stores := by
  induction rows generalizing tee plains xs with
  | nil =>
      cases hrows
      cases h
      exact ⟨[], rfl, .nil, fun _ _ _ _ hd => hd⟩
  | cons row rows ih =>
      obtain _ | @⟨_, plain, _, plains, hrow, hrest⟩ := hrows
      obtain ⟨b, tee₁, hcond, h⟩ := Frame.bind_eq_some.mp h
      obtain ⟨x, tee₂, hx, h⟩ := Frame.bind_eq_some.mp h
      obtain ⟨ys, tee₃, hys, h⟩ := Frame.bind_eq_some.mp h
      cases h
      obtain ⟨b', hb', hext, rfl⟩ := (cond.computes ieee
        (scoped_of_liveOn hrow.means hlive fun _ hk => hk)).sound hcond
      simp only [scanValues, hb', Option.bind_eq_bind, Option.bind_some]
      rw [whenTrue] at hx
      rw [whenTrueValue]
      by_cases htrue : b = some true
      · rw [if_pos htrue] at hx ⊢
        obtain ⟨a, hrun, rfl⟩ := Frame.map_eq_some.mp hx
        have hcount : written (some a :: ys) = written ys + 1 := List.countP_cons_of_pos rfl
        rw [hcount] at hready
        obtain ⟨ready, hfew⟩ : Ready tee.stores consts values ∧ (again ∨ written ys = 0) := by
          rcases hready with ⟨ready, hagain | hle⟩ | hzero
          · exact ⟨ready, .inl hagain⟩
          · exact ⟨ready, .inr (by omega)⟩
          · omega
        obtain ⟨v, hv, hav, hfiles, hlive', hagain⟩ := hbody tee₁ tee₂ row plain a
          (hrow.files hext.files) (ready.mono hext) hrun
        have hfiles' := hext.files.trans hfiles
        obtain ⟨vs, hvs, hrel, hfiles''⟩ := ih (hrest.imp fun _ _ hr => hr.files hfiles') hlive'
          (hfew.imp (fun ha => ⟨hagain ha, .inl ha⟩) id) hys
        refine ⟨some v :: vs, ?_, .cons (.some (hout _ _ a v hfiles'' hav)) hrel,
          hfiles'.trans hfiles''⟩
        simp only [hv, hvs, Option.map_some, Option.bind_some]
      · rw [if_neg htrue] at hx ⊢
        cases hx
        have hcount : written (none :: ys) = written ys := List.countP_cons_of_neg (by simp)
        rw [hcount] at hready
        obtain ⟨vs, hvs, hrel, hfiles⟩ := ih (hrest.imp fun _ _ hr => hr.files hext.files)
          (hlive.mono hext) (hready.imp (fun hr => ⟨hr.1.mono hext, hr.2⟩) id) hys
        refine ⟨none :: vs, ?_, .cons .none hrel, hext.files.trans hfiles⟩
        simp only [hvs, Option.bind_some]

/-- The rows that a careful INSERT or UPDATE writes. -/
theorem Plan.writes_sound (ieee : e.Ieee) {plan : Plan pg} {event : TriggerEvent}
    {tee tee' : Tee} {rows : List (List Cell)} {plains : List (List PlainCell)}
    {new : List (Option (List Cell))} (careful : plan.Careful e g pg event p rows tee)
    (hrows : List.Forall₂ (FiledRow tee.stores) rows plains)
    (h : plan.writes e g pg event p rows tee = some (new, tee')) :
    ∃ vs, plan.values e plains = some vs ∧
      List.Forall₂ (Option.Rel (StoredRow p tee'.stores)) new vs ∧
        FilesKept tee.stores tee'.stores := by
  obtain ⟨consts, tee₁, hconsts, hscan⟩ := Frame.bind_eq_some.mp h
  obtain ⟨values, hvalues, hext, hmeans, hapart⟩ :=
    (computes_evalConsts .nil .nil).sound hconsts
  obtain ⟨hnodup, hcond, hfew⟩ := careful values hvalues
  rw [Plan.freedConsts, ← heldBy_eq hmeans] at hnodup hcond hfew
  have hfew' : bareConsts (heldBy consts) plan.targets = [] ∨ written new ≤ 1 :=
    hfew.imp id fun hall => hall (new, tee') h
  have ready : Ready tee₁.stores consts values := ⟨fun k _ t => hmeans.at t k, hapart⟩
  obtain ⟨vs, hvs, hrel, hfiles⟩ := scan_sound ieee
    (fun row => targetValues e (plainScope row values) plan.targets) (StoredRow p)
    (bareConsts (heldBy consts) plan.targets = [])
    (fun _ _ _ _ hfiles hrow => StoredRow.files hrow hfiles)
    (fun tee tee' row plain cells hrow ready hrun => by
      obtain ⟨plains, hplains, hstored, hfiles, hlive⟩ := writeRow_sound hrow ready hnodup hrun
      refine ⟨plains, hplains, hstored, hfiles, fun k hk => hlive k fun hbare => hcond k hbare hk,
        fun hnone => ⟨fun k _ => hlive k ?_, ready.apart⟩⟩
      rw [hnone]
      exact List.not_mem_nil)
    (hrows.imp fun _ _ hrow => hrow.files hext.files) (fun k _ => ready.live k trivial)
    (.inl ⟨ready, hfew'⟩) hscan
  refine ⟨vs, ?_, hrel, hext.files.trans hfiles⟩
  simp only [Plan.values, hvalues, Option.bind_eq_bind, Option.bind_some, hvs]

/-- The rows that a DELETE removes. -/
theorem deletes_sound (ieee : e.Ieee) {consts : List (Const pg)} {cond : Cond} {tee tee' : Tee}
    {rows : List (List Cell)} {plains : List (List PlainCell)} {deleted : List (Option Unit)}
    (hrows : List.Forall₂ (FiledRow tee.stores) rows plains)
    (h : deletes e g pg consts cond rows tee = some (deleted, tee')) :
    deleteValues e consts cond plains = some deleted ∧ FilesKept tee.stores tee'.stores := by
  obtain ⟨cells, tee₁, hconsts, hscan⟩ := Frame.bind_eq_some.mp h
  obtain ⟨values, hvalues, hext, hmeans, hapart⟩ :=
    (computes_evalConsts .nil .nil).sound hconsts
  have ready : Ready tee₁.stores cells values := ⟨fun k _ t => hmeans.at t k, hapart⟩
  obtain ⟨vs, hvs, hrel, hfiles⟩ := scan_sound ieee (fun _ => some ()) (fun _ a b => a = b) True
    (fun _ _ _ _ _ h => h)
    (fun tee tee' row plain u _ ready hrun => by
      cases hrun
      exact ⟨(), rfl, rfl, fun _ _ _ _ hd => hd, fun k _ => ready.live k trivial, fun _ => ready⟩)
    (hrows.imp fun _ _ hrow => hrow.files hext.files) (fun k _ => ready.live k trivial)
    (.inl ⟨ready, .inl trivial⟩) hscan
  obtain rfl := forall₂_rel_eq hrel
  refine ⟨?_, hext.files.trans hfiles⟩
  simp only [deleteValues, hvalues, Option.bind_eq_bind, Option.bind_some, hvs]

end Fields

/-! ## Sessions over plaintexts -/

section Lists

variable {α β : Type} {R : α → β → Prop}

theorem forall₂_reduceOption {xs : List (Option α)} {ys : List (Option β)}
    (h : List.Forall₂ (Option.Rel R) xs ys) : List.Forall₂ R xs.reduceOption ys.reduceOption := by
  induction h with
  | nil => exact .nil
  | cons hx _ ih =>
      cases hx with
      | none => simpa only [List.reduceOption_cons_of_none] using ih
      | some hab => simpa only [List.reduceOption_cons_of_some] using .cons hab ih

theorem forall₂_updatedRows {rows : List α} {plains : List β} {new : List (Option α)}
    {vs : List (Option β)} (hrows : List.Forall₂ R rows plains)
    (hnew : List.Forall₂ (Option.Rel R) new vs) :
    List.Forall₂ R (updatedRows rows new) (updatedRows plains vs) := by
  induction hrows generalizing new vs with
  | nil => exact .nil
  | cons hrow _ ih =>
      cases hnew with
      | nil => exact .nil
      | cons hx hrest =>
          refine .cons ?_ (ih hrest)
          cases hx with
          | none => exact hrow
          | some hab => exact hab

theorem forall₂_remainingRows {rows : List α} {plains : List β} (deleted : List (Option Unit))
    (hrows : List.Forall₂ R rows plains) :
    List.Forall₂ R (remainingRows rows deleted) (remainingRows plains deleted) := by
  refine forall₂_reduceOption ?_
  induction hrows generalizing deleted with
  | nil => exact .nil
  | cons hrow _ ih =>
      cases deleted with
      | nil => exact .nil
      | cons x deleted =>
          refine .cons ?_ (ih deleted)
          cases x with
          | none => exact .some hrow
          | some _ => exact .none

end Lists

/-- The RIDs of the tables are in their partitions and stand for the plaintexts. -/
def TablesStored (partitions : Nat → Partition) (st : Stores) (tables : Tables Cell)
    (plains : Tables PlainCell) : Prop :=
  ∀ k, List.Forall₂ (StoredRow (partitions k) st) (tables k) (plains k)

/-- A session and a session over the plaintexts. -/
structure Related (partitions : Nat → Partition) (s : Session) (p : PlainSession) : Prop where
  tables : TablesStored partitions s.tee.stores s.tables p.tables
  saved : TablesStored partitions s.tee.stores s.saved p.saved
  answers : s.answers = p.answers

section Sessions

variable {e : Env} {g : Gcm} {pg : PgEnv} {partitions : Nat → Partition} {st st' : Stores}
  {tables : Tables Cell} {plains : Tables PlainCell} {s s' : Session} {p : PlainSession}

theorem TablesStored.files (h : TablesStored partitions st tables plains)
    (hfiles : FilesKept st st') : TablesStored partitions st' tables plains :=
  fun k => (h k).imp fun _ _ hrow => StoredRow.files hrow hfiles

theorem TablesStored.filed (h : TablesStored partitions st tables plains) (k : Nat) :
    List.Forall₂ (FiledRow st) (tables k) (plains k) :=
  (h k).imp fun _ _ hrow => List.Forall₂.imp (fun _ _ hs => hs.filed) hrow

theorem TablesStored.update (h : TablesStored partitions st tables plains) {k : Nat}
    {rows : List (List Cell)} {rows' : List (List PlainCell)}
    (hrows : List.Forall₂ (StoredRow (partitions k) st) rows rows') :
    TablesStored partitions st (Function.update tables k rows)
      (Function.update plains k rows') := by
  intro j
  rcases eq_or_ne j k with rfl | hj
  · rw [Function.update_self, Function.update_self]
    exact hrows
  · rw [Function.update_of_ne hj, Function.update_of_ne hj]
    exact h j

/-- `CMD_LOCAL_CLEAR` leaves the files. -/
theorem filesKept_clearLocals (tee : Tee) {tee' : Tee} (h : clearLocals e g tee = some tee') :
    FilesKept tee.stores tee'.stores := by
  cases h
  intro t key v hg hd
  rw [Stores.denotes_global hg] at hd ⊢
  exact hd

/-- A careful statement does to the tables what it does to the plaintexts. -/
theorem Related.step (ieee : e.Ieee) {stmt : Statement pg} (h : Related partitions s p)
    (careful : s.Careful e g pg partitions stmt) (hstep : s.step e g pg partitions stmt = some s') :
    ∃ p', p.step e stmt = some p' ∧ Related partitions s' p' := by
  cases stmt with
  | select q =>
      obtain ⟨⟨a, tee₁⟩, hanswer, hrest⟩ := Option.bind_eq_some_iff.mp hstep
      obtain ⟨tee₂, hclear, heq⟩ := Option.bind_eq_some_iff.mp hrest
      cases heq
      obtain ⟨b, hvalue, hext, rfl⟩ := (q.computes ieee fun k _ =>
        (h.tables.filed k).imp fun _ _ hrow => hrow.means).sound hanswer
      have hfiles := hext.files.trans (filesKept_clearLocals tee₁ hclear)
      refine ⟨_, Option.bind_eq_some_iff.mpr ⟨a, hvalue, rfl⟩, h.tables.files hfiles,
        h.saved.files hfiles, ?_⟩
      rw [h.answers]
  | insert table q =>
      obtain ⟨⟨new, tee₁⟩, hwrites, heq⟩ := Option.bind_eq_some_iff.mp hstep
      cases heq
      obtain ⟨vs, hvs, hrel, hfiles⟩ := Plan.writes_sound ieee careful
        (forall₂_sources fun k _ => h.tables.filed k) hwrites
      have htables := h.tables.files hfiles
      refine ⟨_, Option.bind_eq_some_iff.mpr ⟨vs, hvs, rfl⟩, htables.update ?_,
        h.saved.files hfiles, h.answers⟩
      exact List.rel_append (htables table) (forall₂_reduceOption hrel)
  | update table plan =>
      obtain ⟨⟨new, tee₁⟩, hwrites, heq⟩ := Option.bind_eq_some_iff.mp hstep
      cases heq
      obtain ⟨vs, hvs, hrel, hfiles⟩ :=
        Plan.writes_sound ieee careful (h.tables.filed table) hwrites
      have htables := h.tables.files hfiles
      refine ⟨_, Option.bind_eq_some_iff.mpr ⟨vs, hvs, rfl⟩, htables.update ?_,
        h.saved.files hfiles, h.answers⟩
      exact forall₂_updatedRows (htables table) hrel
  | delete table consts cond =>
      obtain ⟨⟨deleted, tee₁⟩, hdeletes, heq⟩ := Option.bind_eq_some_iff.mp hstep
      cases heq
      obtain ⟨hvalue, hfiles⟩ := deletes_sound ieee (h.tables.filed table) hdeletes
      have htables := h.tables.files hfiles
      refine ⟨_, Option.bind_eq_some_iff.mpr ⟨deleted, hvalue, rfl⟩, htables.update ?_,
        h.saved.files hfiles, h.answers⟩
      exact forall₂_remainingRows deleted (htables table)
  | commit =>
      cases hstep
      exact ⟨_, rfl, h.tables, h.tables, h.answers⟩
  | abort =>
      cases hstep
      have hfiles := filesKept_clearLocals (e := e) (g := g) s.tee rfl
      exact ⟨_, rfl, h.saved.files hfiles, h.saved.files hfiles, h.answers⟩

/-- In every careful session the tables stand for those of the same session over plaintexts,
and the queries return the same answers.  At any time a query with an answer over the
plaintexts returns it, if there is memory for its temporaries. -/
theorem sessions_refine_plaintexts (ieee : e.Ieee) (start : Related partitions s p)
    {stmts : List (Statement pg)}
    (trace : Machine.Trace (Session.step e g pg partitions) (Session.Careful e g pg partitions)
      s stmts s') :
    ∃ p', Machine.run (PlainSession.step e) p stmts = some p' ∧ Related partitions s' p' ∧
      ∀ (q : Query pg) a, q.value e p'.tables = some a →
        (∀ t, s'.tee.stores.slots t + q.cost (product (q.sources.map s'.tables)).length ≤
          maxLocalSlots) →
        ∃ tee, q.answer e g pg s'.tables s'.tee = some (a, tee) := by
  obtain ⟨p', hrun, hrel⟩ := trace.simulates start fun s p stmt s' hrel careful hstep =>
    hrel.step ieee careful hstep
  refine ⟨p', hrun, hrel, fun q a hvalue room => ?_⟩
  have hq := q.computes (g := g) ieee fun k _ =>
    (hrel.tables.filed k).imp fun _ _ hrow => hrow.means
  obtain ⟨a', tee, hanswer, -⟩ := hq.complete (n := 0) hvalue room
  obtain ⟨b, hb, -, rfl⟩ := hq.sound hanswer
  cases hvalue.symm.trans hb
  exact ⟨tee, hanswer⟩

end Sessions

/-! ## The hooks of the executor -/

section Hooks

variable (e : Env) (g : Gcm) (pg : PgEnv)

/-- A plan is a SELECT. -/
def Statement.isSelect {pg : PgEnv} : Statement pg → Bool
  | .select _ => true
  | _ => false

/-- What a statement does through the TEE between the start and the end of its executor. -/
def Session.execute (partitions : Nat → Partition) (tables : Tables Cell) :
    Statement pg → Client Unit
  | .select q => (fun _ => ()) <$> q.answer e g pg tables
  | .insert table q => (fun _ => ()) <$> q.writes e g pg .insert (partitions table)
      (product (q.sources.map tables))
  | .update table plan => (fun _ => ()) <$> plan.writes e g pg .update (partitions table)
      (tables table)
  | .delete table consts cond => (fun _ => ()) <$> deletes e g pg consts cond (tables table)
  | .commit | .abort => pure ()

/-- What runs between `kvdb_ExecutorStart` and `kvdb_ExecutorEnd`. -/
def withHooks (select : Bool) (body : Client Unit) (x : ExecSession) : Option ExecSession := do
  let x ← x.step e g (.executorStart select)
  let (_, tee) ← body x.tee
  ExecSession.step e g { x with tee := tee } .executorEnd

/-- A statement with the hooks that are called for it. -/
def Session.hooked (partitions : Nat → Partition) (tables : Tables Cell) (x : ExecSession) :
    Statement pg → Option ExecSession
  | .commit => x.step e g .commit
  | .abort => x.step e g .abort
  | stmt => withHooks e g stmt.isSelect (Session.execute e g pg partitions tables stmt) x

variable {e g pg} {partitions : Nat → Partition} {s s' : Session} {x : ExecSession}

/-- With no executor open before, the hooks clear the local store just after a SELECT. -/
theorem withHooks_eq (select : Bool) {body : Client Unit} {tee : Tee}
    (hdepth : x.executorDepth = 0) (hbody : body x.tee = some ((), tee)) :
    ∃ x', withHooks e g select body x = some x' ∧ x'.executorDepth = 0 ∧
      some x'.tee = if select then clearLocals e g tee else some tee := by
  obtain ⟨tee₀, depth, flag, clears, literals, uses⟩ := x
  cases hdepth
  simp only [withHooks, ExecSession.step, Option.bind_eq_bind, Option.bind_some, hbody]
  cases select with
  | true => exact ⟨_, rfl, rfl, rfl⟩
  | false => exact ⟨_, rfl, rfl, rfl⟩

/-- With no executor open before, the hooks send what a step of the session sends. -/
theorem Session.step_hooked {stmt : Statement pg} (hdepth : x.executorDepth = 0)
    (htee : x.tee = s.tee) (h : s.step e g pg partitions stmt = some s') :
    ∃ x', Session.hooked e g pg partitions s.tables x stmt = some x' ∧
      x'.executorDepth = 0 ∧ x'.tee = s'.tee := by
  have hplan {α : Type} {p : Client α} {a : α} {tee : Tee} (hp : p s.tee = some (a, tee)) :
      ((fun _ => ()) <$> p : Client Unit) x.tee = some ((), tee) := by
    rw [htee]
    exact Frame.map_eq_some.mpr ⟨a, hp, rfl⟩
  have hkeeps {α : Type} {p : Client α} {a : α} {tee : Tee} (hp : p s.tee = some (a, tee)) :
      ∃ x', withHooks e g false ((fun _ => ()) <$> p) x = some x' ∧ x'.executorDepth = 0 ∧
        x'.tee = tee := by
    obtain ⟨x', hrun, hdepth', hlast⟩ := withHooks_eq (e := e) (g := g) false hdepth (hplan hp)
    exact ⟨x', hrun, hdepth', Option.some.inj hlast⟩
  cases stmt with
  | select q =>
      obtain ⟨⟨a, tee₁⟩, hanswer, h⟩ := Option.bind_eq_some_iff.mp h
      obtain ⟨tee₂, hclear, heq⟩ := Option.bind_eq_some_iff.mp h
      cases heq
      obtain ⟨x', hrun, hdepth', hlast⟩ :=
        withHooks_eq (e := e) (g := g) true hdepth (hplan hanswer)
      rw [if_pos rfl, hclear, Option.some.injEq] at hlast
      exact ⟨x', hrun, hdepth', hlast⟩
  | insert table q =>
      obtain ⟨⟨new, tee₁⟩, hwrites, heq⟩ := Option.bind_eq_some_iff.mp h
      cases heq
      exact hkeeps hwrites
  | update table plan =>
      obtain ⟨⟨new, tee₁⟩, hwrites, heq⟩ := Option.bind_eq_some_iff.mp h
      cases heq
      exact hkeeps hwrites
  | delete table consts cond =>
      obtain ⟨⟨deleted, tee₁⟩, hdeletes, heq⟩ := Option.bind_eq_some_iff.mp h
      cases heq
      exact hkeeps hdeletes
  | commit =>
      cases h
      exact ⟨_, rfl, hdepth, htee⟩
  | abort =>
      cases h
      refine ⟨_, rfl, rfl, ?_⟩
      rw [← htee]

variable (e g pg) in
/-- A session together with the state that the hooks keep. -/
def Session.hookedStep (partitions : Nat → Partition) (u : Session × ExecSession)
    (stmt : Statement pg) : Option (Session × ExecSession) := do
  let s ← u.1.step e g pg partitions stmt
  let x ← Session.hooked e g pg partitions u.1.tables u.2 stmt
  some (s, x)

/-- The hooks have left the worker as the session has, and no executor is open. -/
def HooksFollow (s : Session) (u : Session × ExecSession) : Prop :=
  u.1 = s ∧ u.2.executorDepth = 0 ∧ u.2.tee = s.tee

/-- In every session the hooks leave the worker as the session does, and no executor open. -/
theorem Session.run_hooked {ok : Session → Statement pg → Prop} {stmts : List (Statement pg)}
    (trace : Machine.Trace (Session.step e g pg partitions) ok s stmts s')
    (hdepth : x.executorDepth = 0) (htee : x.tee = s.tee) :
    ∃ u, Machine.run (Session.hookedStep e g pg partitions) (s, x) stmts = some u ∧
      HooksFollow s' u := by
  have one (s : Session) (u : Session × ExecSession) (stmt : Statement pg) (s' : Session)
      (follow : HooksFollow s u) (_ : ok s stmt) (h : s.step e g pg partitions stmt = some s') :
      ∃ u', Session.hookedStep e g pg partitions u stmt = some u' ∧ HooksFollow s' u' := by
    obtain ⟨rfl, hdepth, htee⟩ := follow
    obtain ⟨x', hhooked, hdepth', htee'⟩ := Session.step_hooked hdepth htee h
    refine ⟨(s', x'), ?_, rfl, hdepth', htee'⟩
    simp only [Session.hookedStep, h, hhooked, Option.bind_eq_bind, Option.bind_some]
  exact trace.simulates (show HooksFollow s (s, x) from ⟨rfl, hdepth, htee⟩) one

end Hooks

/-- A session of a new server. -/
def emptySession : Session := ⟨⟨.zero, ⟨.empty, .fresh⟩⟩, fun _ => [], fun _ => [], []⟩

/-- The same over plaintexts. -/
def emptyPlain : PlainSession := ⟨fun _ => [], fun _ => [], []⟩

/-- `INSERT INTO t VALUES (n)`. -/
def insertValue (table : Nat) (n : Num.int.Val) : Statement shownDecimal :=
  .insert table ⟨⟨[.input (.int4ToInt4 n)], .always, [⟨.int, constant⟩]⟩, []⟩

/-- `INSERT INTO t SELECT c0 + c0 FROM t'`. -/
def insertDoubled (table source : Nat) : Statement shownDecimal :=
  .insert table ⟨⟨[], .always, [⟨.int, .binary .intPlus column column⟩]⟩, [source]⟩

/-- `UPDATE t SET c0 = c0 + n WHERE c0 < n`. -/
def addWhereLess (table : Nat) (n : Num.int.Val) : Statement shownDecimal :=
  .update table ⟨[.input (.int4ToInt4 n)], .rel .lt column constant,
    [⟨.int, .binary .intPlus column constant⟩]⟩

/-- `UPDATE t SET c0 = n`. -/
def assign (table : Nat) (n : Num.int.Val) : Statement shownDecimal :=
  .update table ⟨[.input (.int4ToInt4 n)], .always, [⟨.int, constant⟩]⟩

/-- `SELECT c0 FROM t`. -/
def selectAll (table : Nat) : Statement shownDecimal :=
  .select ⟨⟨[], .always, [⟨.int, column⟩]⟩, [table]⟩

/-- `UPDATE t SET c0 = NULL`. -/
def clearColumn (table : Nat) : Statement shownDecimal :=
  .update table ⟨[.null .int], .always, [⟨.int, constant⟩]⟩

/-- One partition for each table. -/
def twoPartitions : Nat → Partition
  | 0 => .default
  | _ => ⟨1, by decide, by decide⟩

/-- Two rows are inserted, one is updated, both are copied to a second table and the copies
are doubled.  Then the first table is emptied, but that is undone, and the copies are set to
NULL. -/
def copyAndAbort : List (Statement shownDecimal) :=
  [insertValue 0 5, insertValue 0 9, addWhereLess 0 7, insertDoubled 1 0, .commit,
    .delete 0 [] .always, selectAll 0, .abort, selectAll 0, selectAll 1, clearColumn 1,
    selectAll 1]

theorem sessions_refine_plaintexts_copyAndAbort :
    ∃ s p, s.answers = [[], [[some (decimalText 12)], [some (decimalText 9)]],
        [[some (decimalText 24)], [some (decimalText 18)]], [[none], [none]]] ∧
      Machine.run (PlainSession.step Env.ieee) emptyPlain copyAndAbort = some p ∧
        Related twoPartitions s p := by
  have start : Related twoPartitions emptySession emptyPlain :=
    ⟨fun _ => .nil, fun _ => .nil, rfl⟩
  have hrun : (Machine.runOk (Session.step Env.ieee .plain shownDecimal twoPartitions)
      (Session.Careful Env.ieee .plain shownDecimal twoPartitions) emptySession copyAndAbort).map
        Session.answers = some [[], [[some (decimalText 12)], [some (decimalText 9)]],
          [[some (decimalText 24)], [some (decimalText 18)]], [[none], [none]]] := by
    decide +kernel
  obtain ⟨s, hs, hanswers⟩ := Option.map_eq_some_iff.mp hrun
  obtain ⟨p, hp, hrel, -⟩ :=
    sessions_refine_plaintexts Env.ieee_spec start (Machine.trace_of_runOk hs)
  exact ⟨s, p, hanswers, hp, hrel⟩

/-- A constant that is assigned to two rows is the default in the second. -/
example : (Machine.run (Session.step Env.ieee .plain shownDecimal twoPartitions) emptySession
    [insertValue 0 5, insertValue 0 9, assign 0 7, selectAll 0]).map Session.answers =
      some [[[some (decimalText 7)], [some (decimalText 0)]]] := by
  decide +kernel

end Extension

end Zeno
