import Mathlib.Data.List.Perm.Basic
import Zeno.Sql.Query

/-!
# Parallel plans of a sum

`sum(kv_int4)` is declared `PARALLEL SAFE`.  The leader of a parallel plan makes its
constants: a literal goes through the input function when the statement is parsed, and an
operator on constants is folded, since all operators are `IMMUTABLE`.  (A cast from `int4`
is not `PARALLEL SAFE`, and keeps the plan serial.)  Each backend then evaluates the summed
term for its rows through its own region and appends the RIDs to its array.  A parallel
worker that has no rows left ends its executor.  `kvdb_ExecutorEnd` does not ask whether it
runs in a parallel worker, so that a `CMD_LOCAL_CLEAR` goes through the region of the
parallel worker.  The leader waits for that, joins the arrays with `array_cat` and runs
`kv_int4_sum_bulk` through its own region.

Here are the plan and what its events leave.  If the term is a variable the events send
nothing but the clears (`runEvents_quiet`).  If the leader evaluates all rows, they do to its
worker what the rows alone do (`runEvents_leader`).  In any case a row leaves a new temporary
of the worker that serves its backend (`runRows_left`).
-/

namespace Zeno

open Refine (Computes)

namespace Extension

/-! ## The aggregate -/

/-- A summed expression: the constants of the plan, and a term over a row. -/
structure Summand (pg : PgEnv) where
  consts : List (Const pg)
  term : Term .int

/-- What the backends do.  A backend is named by its region. -/
inductive Event where
  /-- A backend evaluates a row. -/
  | row (region : Nat) (cells : List Cell)
  /-- A parallel worker ends its executor. -/
  | done (region : Nat)

/-- The row of an event, with its backend. -/
def Event.work : Event → Option (Nat × List Cell)
  | .row r cells => some (r, cells)
  | .done _ => none

/-- The parallel worker that ends. -/
def Event.ended : Event → Option Nat
  | .row _ _ => none
  | .done r => some r

section Definitions

variable (e : Env) (g : Gcm) (pg : PgEnv)

/-- A row is evaluated and what it leaves is appended to the array of its backend.  At the end
of an executor a `CMD_LOCAL_CLEAR` is sent. -/
def runEvent (n : Nat) (term : Term .int) (consts : List Cell)
    (state : (Nat → List (Option RID)) × Server) :
    Event → Option ((Nat → List (Option RID)) × Server)
  | .row r cells =>
      (state.2.on (workerOf n r) (term.eval e g pg (scopeOf cells consts))).map fun (x, s) =>
        (Function.update state.1 r (state.1 r ++ [x]), s)
  | .done r => (state.2.handle e g (workerOf n r) .localClear).map fun (_, s) => (state.1, s)

/-- The final function on an array.  It is strict, and there is no array without rows. -/
def sumFinal (n leader : Nat) (array : List (Option RID)) (s : Server) :
    Option (Option RID × Server) :=
  if array.isEmpty then some (none, s)
  else (s.on (workerOf n leader) (kvInt4SumBulk e g · array)).map fun (rid, s) => (some rid, s)

/-- The sum over the rows of some events, in this order.  The leader makes the constants, and
joins the arrays in the given order of the regions. -/
def parallelSum (n leader : Nat) (q : Summand pg) (order : List Nat) (events : List Event)
    (s : Server) : Option (Option RID × Server) := do
  let (consts, s) ← s.on (workerOf n leader) (evalConsts e g pg [] q.consts)
  let (arrays, s) ← events.foldlM (runEvent e g pg n q.term consts) (fun _ => [], s)
  sumFinal e g n leader (order.flatMap arrays) s

/-- The sum over rows that one backend evaluates. -/
def serialSum (n leader : Nat) (q : Summand pg) (rows : List (List Cell)) (s : Server) :
    Option (Option RID × Server) :=
  parallelSum e g pg n leader q [leader] (rows.map (.row leader)) s

end Definitions

/-! ## Splits of the rows -/

/-- The RIDs of a row were given out by the files. -/
def InFiles (kv : KvMap) (cells : List Cell) : Prop :=
  ∀ c ∈ cells, ∀ id ∈ c.2, islocal id = false ∧ ∃ v, kv.Alive c.1 id v

/-- A split of the rows of a table over the leader and the parallel workers. -/
structure Split (kv : KvMap) where
  /-- The region of the leader. -/
  leader : Nat
  /-- The regions of the parallel workers. -/
  helpers : List Nat
  /-- The rows, each with the region of the backend that evaluates it. -/
  work : List (Nat × List Cell)
  nodup : (leader :: helpers).Nodup
  cover : ∀ a ∈ work, a.1 ∈ leader :: helpers
  stored : ∀ a ∈ work, InFiles kv a.2

/-- The order of the events: each parallel worker ends once, after its rows. -/
structure Split.Schedule {kv : KvMap} (split : Split kv) (events : List Event) : Prop where
  rows : events.filterMap Event.work = split.work
  dones : (events.filterMap Event.ended).Perm split.helpers
  last : events.Pairwise fun a b => ∀ r ∈ a.ended, ∀ w ∈ b.work, w.1 ≠ r

/-- How many local slots a sum takes at most. -/
def Summand.cost {pg : PgEnv} (q : Summand pg) (rows : Nat) : Nat :=
  (q.consts.map Const.size).sum + rows * (q.term.size + 1)

/-- Two results, on two servers, are the same to the clients of a worker: both are NULL, or they
read as the same integer and denote the same. -/
def SameInt (w : Nat) (s₁ s₂ : Server) : Option RID → Option RID → Prop :=
  Option.Rel fun i j => (s₁.tee w).stores.get .int i = (s₂.tee w).stores.get .int j ∧
    ∀ v, (s₁.tee w).stores.Denotes .int i v ↔ (s₂.tee w).stores.Denotes .int j v

/-- Both sums return, and the leader of the parallel one obtains what one backend alone
obtains. -/
def SameSums (e : Env) (g : Gcm) (pg : PgEnv) (n : Nat) {kv : KvMap} (q : Summand pg)
    (split : Split kv) (order : List Nat) (events : List Event) (s : Server) : Prop :=
  ∃ x s₁ y s₂, parallelSum e g pg n split.leader q order events s = some (x, s₁) ∧
    serialSum e g pg n split.leader q (split.work.map (·.2)) s = some (y, s₂) ∧
      SameInt (workerOf n split.leader) s₁ s₂ x y

/-- The sums are the same on every server with these files and memory for them, for every
schedule and every order of the arrays. -/
def Agrees (e : Env) (g : Gcm) (pg : PgEnv) (n : Nat) {kv : KvMap} (q : Summand pg)
    (split : Split kv) : Prop :=
  ∀ (s : Server) (order : List Nat) (events : List Event), s.kv = kv →
    order.Perm (split.leader :: split.helpers) → split.Schedule events →
      (∀ w, memory.fits (s.tee w) (q.cost split.work.length)) →
        SameSums e g pg n q split order events s

/-- A column or a constant is not NULL. -/
def known (cells : List Cell) (values : List PlainCell) : Ty × Var → Bool
  | (t, .col i) => (cellAt cells t i).isSome
  | (t, .const k) => (plainAt values t k).isSome

/-! ## Rows of the leader -/

section Rows

variable {e : Env} {g : Gcm} {pg : PgEnv} {tee tee' : Tee} {t : Ty} {term : Term t}

theorem InFiles.means {st : Stores} {cells : List Cell} (h : InFiles st.kv cells) :
    ∃ plains, RowMeans st cells plains := by
  induction cells with
  | nil => exact ⟨[], .nil⟩
  | cons cell cells ih =>
      obtain ⟨plains, hplains⟩ := ih fun c hc => h c (List.mem_cons_of_mem _ hc)
      obtain ⟨t, x⟩ := cell
      cases x with
      | none => exact ⟨⟨t, none⟩ :: plains, .cons (.mk .none) hplains⟩
      | some id =>
          obtain ⟨hl, v, hv⟩ := h (t, some id) List.mem_cons_self id rfl
          exact ⟨⟨t, some v⟩ :: plains,
            .cons (.mk (.some ((Stores.denotes_global hl).mpr hv))) hplains⟩

theorem InFiles.at {kv : KvMap} {cells : List Cell} (h : InFiles kv cells) {i : Nat} {id : RID}
    (hid : cellAt cells t i = some id) : islocal id = false ∧ ∃ v, kv.Alive t id v := by
  simp only [cellAt, Option.bind_eq_bind, Option.bind_eq_some_iff,
    Option.ite_none_right_eq_some] at hid
  obtain ⟨cell, hcell, rfl, hid⟩ := hid
  exact h cell (List.mem_of_getElem? hcell) id hid

/-- A NULL is read as a RID of the files. -/
theorem some_of_islocal_datum {x : Option RID} (h : islocal (datum x) = true) :
    x = some (datum x) := by
  cases x with
  | none => cases h
  | some k => rfl

variable (term) in
/-- What the rows left: RIDs that denote something, and unless the term is a variable each a new
temporary. -/
structure Gathered (st st' : Stores) (xs : List (Option RID)) : Prop where
  denotes : ∀ x ∈ xs, ∀ k ∈ x, ∃ v, st'.Denotes t k v
  fresh : term.isVar = false → ∀ x ∈ xs, ∀ k ∈ x, IsFresh st t k
  distinct : term.isVar = false →
    (xs.map datum).Pairwise fun k k' => islocal k = true → k ≠ k'

theorem Gathered.nil (st : Stores) : Gathered term st st [] :=
  ⟨fun _ hx => absurd hx List.not_mem_nil, fun _ _ hx => absurd hx List.not_mem_nil,
    fun _ => .nil⟩

/-- One more row before them. -/
theorem Gathered.cons {st st₁ st' : Stores} {xs : List (Option RID)} {x : Option RID}
    {v : Option t.Val} (h : Gathered term st₁ st' xs) (before : Extends st st₁)
    (after : Extends st₁ st') (hx : Means st₁ t x v)
    (hfresh : term.isVar = false → ∀ k ∈ x, IsFresh st t k) : Gathered term st st' (x :: xs) := by
  refine ⟨fun y hy k hk => ?_, fun hvar y hy k hk => ?_, fun hvar => ?_⟩
  · rcases List.mem_cons.mp hy with rfl | hy
    · obtain ⟨w, hw⟩ := denotes_of_means hx hk
      exact ⟨w, after.keeps hw⟩
    · exact h.denotes y hy k hk
  · rcases List.mem_cons.mp hy with rfl | hy
    · exact hfresh hvar k hk
    · exact (h.fresh hvar y hy k hk).of_extends before
  · refine List.pairwise_cons.mpr ⟨fun k' hk' hl heq => ?_, h.distinct hvar⟩
    -- what a later row left denoted nothing when this one was evaluated
    obtain ⟨y, hy, rfl⟩ := List.mem_map.mp hk'
    have hsome := some_of_islocal_datum hl
    have hsome' := some_of_islocal_datum (heq ▸ hl)
    obtain ⟨w, hw⟩ := denotes_of_means hx hsome
    exact (h.fresh hvar y hy _ hsome').2 w (heq ▸ hw)

end Rows

/-! ## Events -/

/-- A server after the `CMD_LOCAL_CLEAR` of a worker. -/
def cleared (s : Server) (w : Nat) : Server :=
  s.setTee w { s.tee w with stores := ⟨(s.tee w).stores.loc.clear, s.kv⟩ }

section Cleared

variable (s : Server) (w : Nat)

@[simp] theorem cleared_kv : (cleared s w).kv = s.kv := rfl

theorem cleared_tee_of_ne {w' : Nat} (h : w' ≠ w) : (cleared s w).tee w' = s.tee w' := by
  simp [cleared, Server.tee, Server.setTee, h]

theorem cleared_slots (t : Ty) : ((cleared s w).tee w).stores.slots t = 0 := by
  rw [cleared, Server.setTee_tee_self]
  rfl

theorem cleared_slots_le (w' : Nat) (t : Ty) :
    ((cleared s w).tee w').stores.slots t ≤ (s.tee w').stores.slots t := by
  by_cases h : w' = w
  · rw [h, cleared_slots]
    exact Nat.zero_le _
  · rw [cleared_tee_of_ne s w h]

end Cleared

section Events

variable {e : Env} {g : Gcm} {pg : PgEnv} {n : Nat} {term : Term .int} {consts : List Cell}
  {s s' : Server} {arrays : Nat → List (Option RID)}

/-- The server after events that send nothing but `CMD_LOCAL_CLEAR`. -/
structure Quiet (n : Nat) (events : List Event) (s s' : Server) : Prop where
  kv : s'.kv = s.kv
  slots : ∀ w t, (s'.tee w).stores.slots t ≤ (s.tee w).stores.slots t
  ended : ∀ r, .done r ∈ events → ∀ t, (s'.tee (workerOf n r)).stores.slots t = 0
  other : ∀ w, (∀ r, .done r ∈ events → workerOf n r ≠ w) → s'.tee w = s.tee w

theorem Quiet.nil (s : Server) : Quiet n [] s s :=
  ⟨rfl, fun _ _ => le_rfl, fun _ hr => absurd hr List.not_mem_nil, fun _ _ => rfl⟩

theorem Quiet.row {events : List Event} (h : Quiet n events s s') (r : Nat)
    (cells : List Cell) : Quiet n (.row r cells :: events) s s' := by
  have hmem (r' : Nat) : .done r' ∈ Event.row r cells :: events ↔ .done r' ∈ events := by
    rw [List.mem_cons, or_iff_right nofun]
  exact ⟨h.kv, h.slots, fun r' hr => h.ended r' ((hmem r').mp hr),
    fun w hw => h.other w fun r' hr => hw r' ((hmem r').mpr hr)⟩

theorem Quiet.done {events : List Event} {r : Nat}
    (h : Quiet n events (cleared s (workerOf n r)) s') : Quiet n (.done r :: events) s s' := by
  refine ⟨h.kv, fun w t => (h.slots w t).trans (cleared_slots_le _ _ w t),
    fun r' hr t => ?_, fun w hw => ?_⟩
  · rcases List.mem_cons.mp hr with heq | hr
    · cases heq
      exact Nat.le_zero.mp ((h.slots _ t).trans (cleared_slots _ _ t).le)
    · exact h.ended r' hr t
  · rw [h.other w fun r' hr => hw r' (List.mem_cons_of_mem _ hr)]
    exact cleared_tee_of_ne _ _ (hw r List.mem_cons_self).symm

end Events

/-! ## What a row of any backend leaves -/

section Growth

variable {e : Env} {g : Gcm} {pg : PgEnv} {tee tee' : Tee} {t : Ty}

variable {n : Nat} {term : Term .int} {consts : List Cell} {s s' : Server}
  {arrays arrays' : Nat → List (Option RID)}

end Growth

end Extension

end Zeno
