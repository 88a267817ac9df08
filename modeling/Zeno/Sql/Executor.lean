import Zeno.Lib.Machine
import Zeno.Tee.Clients

/-!
# Query boundaries and the local store

The extension clears the local store of its worker when a query ends.  It counts
how deep executors are nested.  `kvdb_ExecutorStart` notes at depth 0 whether the
plan is a SELECT, and `kvdb_ExecutorEnd` sends `CMD_LOCAL_CLEAR` when the depth is
back at 0 and the plan was one.  An abort clears the store too.

Nothing in that asks who still holds a local RID.  A literal read before a SELECT
and used after it, as a PL/pgSQL variable may be, has lost its slot, and the slot
may have been given to another literal.  In every run in which a literal is used
only while no outermost SELECT has ended since it was read, each use obtains the
value of the literal (`literals_outlive_uses`).
-/

namespace Zeno

/-- A local RID that a literal input of the running transaction returned. -/
structure Literal where
  /-- The value of the literal. -/
  val : Value
  /-- The RID. -/
  rid : RID
  /-- How often the local store had been cleared before. -/
  since : Nat
  /-- The session has freed the RID. -/
  freed : Bool

/-- The operand a session would send for it. -/
def Literal.item (l : Literal) : Ty × RID := (l.val.1, l.rid)

/-- Note that a RID was freed. -/
def Literal.free (x : Ty × RID) (l : Literal) : Literal :=
  if l.item = x then { l with freed := true } else l

/-- A use of a literal whose RID was not freed. -/
structure LiteralUse where
  /-- The value of the literal. -/
  val : Value
  /-- The value obtained; none if the read was past the end of the store. -/
  got : Option val.1.Val

/-- A session, alone on its worker. -/
structure ExecSession where
  /-- The worker. -/
  tee : Tee
  /-- `executor_depth`. -/
  executorDepth : Int
  /-- `clear_outer_executor`. -/
  clearOuterExecutor : Bool
  /-- How often the local store was cleared. -/
  clears : Nat
  /-- The literals of the transaction, in the order they were read. -/
  literals : List Literal
  /-- The uses so far. -/
  uses : List LiteralUse

/-- An event of a session. -/
inductive ExecEvent where
  /-- The input of a literal, or a cast. -/
  | literal (t : Ty) (cipher : List UInt8)
  /-- `kvdb_ExecutorStart`, of a SELECT or of another plan. -/
  | executorStart (select : Bool)
  /-- `kvdb_ExecutorEnd`. -/
  | executorEnd
  /-- A read of a literal of the transaction, by its number. -/
  | read (k : Nat)
  /-- A promotion of a literal of the transaction. -/
  | promote (k : Nat) (p : Partition)
  /-- The transaction aborts. -/
  | abort
  /-- The transaction commits. -/
  | commit

namespace ExecSession

/-- A session that begins its first transaction. -/
def start (tee : Tee) : ExecSession := ⟨tee, 0, false, 0, [], []⟩

/-- What is noted of a use: nothing, if the RID was freed. -/
def useOf (s : ExecSession) (l : Literal) : List LiteralUse :=
  if l.freed then [] else [⟨l.val, s.tee.stores.get l.val.1 l.rid⟩]

/-- A literal is used while the store is the one it was put in. -/
def UsesCurrent (s : ExecSession) : ExecEvent → Prop
  | .read k | .promote k _ => ∀ l ∈ s.literals[k]?, l.freed = true ∨ l.since = s.clears
  | _ => True

section Machine

variable (e : Env) (g : Gcm)

/-- `send_local_clear_req`. -/
def sendLocalClearReq (s : ExecSession) : Option ExecSession :=
  (handleOps e g s.tee .localClear).map fun (_, tee) =>
    { s with tee := tee, clears := s.clears + 1 }

/-- One event. -/
def step (s : ExecSession) : ExecEvent → Option ExecSession
  | .literal t cipher => do
      let val ← (Request.putEnc t cipher).eval e g s.tee.stores
      match ← handleOps e g s.tee (.putEnc t cipher) with
      | (.rid rid, tee) =>
          some { s with tee := tee, literals := s.literals ++ [⟨val, rid, s.clears, false⟩] }
      | _ => none
  | .executorStart select =>
      some { s with
        clearOuterExecutor := if s.executorDepth = 0 then select else s.clearOuterExecutor
        executorDepth := s.executorDepth + 1 }
  | .executorEnd =>
      let s' := { s with executorDepth := s.executorDepth - 1 }
      if s'.executorDepth = 0 ∧ s'.clearOuterExecutor = true then
        (s'.sendLocalClearReq e g).map fun u => { u with clearOuterExecutor := false }
      else some s'
  | .read k => do
      let l ← s.literals[k]?
      some { s with uses := s.uses ++ s.useOf l }
  | .promote k p => do
      let l ← s.literals[k]?
      let noted := { s with uses := s.uses ++ s.useOf l }
      -- where the read is past the end of the store the worker's answer is undefined
      match handleOps e g s.tee (.promote l.val.1 l.rid invalidRid p.val) with
      | some (_, tee) =>
          some { noted with tee := tee, literals := s.literals.map (Literal.free l.item) }
      | none => some noted
  | .abort =>
      (sendLocalClearReq e g { s with executorDepth := 0, clearOuterExecutor := false }).map
        fun u => { u with literals := [] }
  | .commit => some { s with literals := [] }

end Machine

variable {e : Env} {g : Gcm}

/-- The literals put in the store as it is now denote their values. -/
structure Inv (s : ExecSession) : Prop where
  bounded : ∀ l ∈ s.literals, l.since ≤ s.clears
  denotes : ∀ l ∈ s.literals, l.freed = false → l.since = s.clears →
    islocal l.rid = true ∧ s.tee.stores.Denotes l.val.1 l.rid l.val.2
  obtained : ∀ u ∈ s.uses, u.got = some u.val.2

theorem inv_start (tee : Tee) : (start tee).Inv where
  bounded _ h := nomatch h
  denotes _ h := nomatch h
  obtained _ h := nomatch h

/-- A current use obtains the literal's value. -/
theorem Inv.use {s : ExecSession} (inv : s.Inv) {l : Literal} (hl : l ∈ s.literals)
    (hcurrent : l.freed = true ∨ l.since = s.clears) :
    ∀ u ∈ s.uses ++ s.useOf l, u.got = some u.val.2 := by
  intro u hu
  rcases List.mem_append.mp hu with hold | hnew
  · exact inv.obtained u hold
  · cases hfreed : l.freed with
    | true =>
        simp only [useOf, hfreed, if_true] at hnew
        cases hnew
    | false =>
        simp only [useOf, hfreed, Bool.false_eq_true, if_false] at hnew
        obtain rfl := List.mem_singleton.mp hnew
        have hsince := hcurrent.resolve_left (by rw [hfreed]; decide)
        exact (inv.denotes l hl hfreed hsince).2.get

/-- After a clear no literal is of the store as it is now. -/
theorem Inv.clear {s t : ExecSession} (inv : s.Inv) (hclears : t.clears = s.clears + 1)
    (hliterals : ∀ l ∈ t.literals, l ∈ s.literals) (huses : t.uses = s.uses) : t.Inv := by
  refine ⟨fun l hl => ?_, fun l hl _ hsince => ?_, huses ▸ inv.obtained⟩
  · have := inv.bounded l (hliterals l hl)
    omega
  · have := inv.bounded l (hliterals l hl)
    omega

/-- Events that leave the worker and the literals. -/
theorem Inv.same {s t : ExecSession} (inv : s.Inv) (htee : t.tee = s.tee)
    (hclears : t.clears = s.clears) (hliterals : ∀ l ∈ t.literals, l ∈ s.literals)
    (huses : ∀ u ∈ t.uses, u.got = some u.val.2) : t.Inv := by
  refine ⟨fun l hl => ?_, fun l hl hfreed hsince => ?_, huses⟩
  · rw [hclears]
    exact inv.bounded l (hliterals l hl)
  · rw [htee]
    exact inv.denotes l (hliterals l hl) hfreed (hsince.trans hclears)

theorem Inv.literal {s t : ExecSession} (inv : s.Inv) {ty : Ty} {cipher : List UInt8}
    (h : s.step e g (.literal ty cipher) = some t) : t.Inv := by
  obtain ⟨val, hval, h⟩ := Option.bind_eq_some_iff.mp h
  obtain ⟨⟨reply, tee⟩, hops, h⟩ := Option.bind_eq_some_iff.mp h
  obtain ⟨rid, rfl, hlocal, -, hnew⟩ :=
    handleOps_returns hops hval fun x hx => nomatch hx
  cases h
  refine ⟨fun l hl => ?_, fun l hl hfreed hsince => ?_, inv.obtained⟩
  · rcases List.mem_append.mp hl with hold | hlast
    · exact inv.bounded l hold
    · rw [List.mem_singleton.mp hlast]
  · rcases List.mem_append.mp hl with hold | hlast
    · obtain ⟨hl', hd⟩ := inv.denotes l hold hfreed hsince
      exact ⟨hl', handleOps_keeps hops (by simp) hl' (fun x hx => nomatch hx) hd⟩
    · rw [List.mem_singleton.mp hlast]
      exact ⟨hlocal, hnew⟩

theorem Inv.promote {s t : ExecSession} (inv : s.Inv) {k : Nat} {p : Partition}
    (hok : s.UsesCurrent (.promote k p)) (h : s.step e g (.promote k p) = some t) : t.Inv := by
  obtain ⟨l, hk, h⟩ := Option.bind_eq_some_iff.mp h
  have huses := inv.use (List.mem_of_getElem? hk) (hok l hk)
  simp only at h
  split at h
  next reply tee hops =>
    cases h
    have horigin {m : Literal} (hm : m ∈ s.literals.map (Literal.free l.item)) :
        ∃ m' ∈ s.literals, m.since = m'.since ∧
          (m.freed = false → m = m' ∧ m'.item ≠ l.item) := by
      obtain ⟨m', hm', rfl⟩ := List.mem_map.mp hm
      refine ⟨m', hm', ?_⟩
      unfold Literal.free
      split
      next => exact ⟨rfl, fun hf => nomatch hf⟩
      next hne => exact ⟨rfl, fun _ => ⟨rfl, hne⟩⟩
    refine ⟨fun m hm => ?_, fun m hm hfreed hsince => ?_, huses⟩
    · obtain ⟨m', hm', hsince, -⟩ := horigin hm
      rw [hsince]
      exact inv.bounded m' hm'
    · obtain ⟨m', hm', -, hsame⟩ := horigin hm
      obtain ⟨rfl, hne⟩ := hsame hfreed
      obtain ⟨hlocal, hd⟩ := inv.denotes m hm' hfreed hsince
      refine ⟨hlocal, handleOps_keeps hops (by simp) hlocal (fun x hx _ he => ?_) hd⟩
      -- the RID freed is that of the literal promoted
      obtain rfl := List.mem_singleton.mp hx
      exact hne he.symm
  next =>
    cases h
    exact inv.same rfl rfl (fun _ hm => hm) huses

theorem Inv.step {s t : ExecSession} (inv : s.Inv) {event : ExecEvent}
    (hok : s.UsesCurrent event) (h : s.step e g event = some t) : t.Inv := by
  cases event with
  | literal ty cipher => exact inv.literal h
  | promote k p => exact inv.promote hok h
  | executorStart select =>
      cases h
      exact inv.same rfl rfl (fun _ hl => hl) inv.obtained
  | executorEnd =>
      simp only [ExecSession.step] at h
      split at h
      next =>
        obtain ⟨u, hu, rfl⟩ := Option.map_eq_some_iff.mp h
        cases hu
        exact inv.clear rfl (fun _ hl => hl) rfl
      next =>
        cases h
        exact inv.same rfl rfl (fun _ hl => hl) inv.obtained
  | read k =>
      obtain ⟨l, hk, h⟩ := Option.bind_eq_some_iff.mp h
      cases h
      exact inv.same rfl rfl (fun _ hl => hl) (inv.use (List.mem_of_getElem? hk) (hok l hk))
  | abort =>
      cases h
      exact inv.clear rfl (fun _ hl => (nomatch hl)) rfl
  | commit =>
      cases h
      exact inv.same rfl rfl (fun _ hl => (nomatch hl)) inv.obtained

/-- **Local RIDs and clears.**  In every run in which a literal is used only while the
local store was not cleared since it was read, each use of a literal whose RID is not
freed obtains the value of the literal. -/
theorem literals_outlive_uses {tee : Tee} {s : ExecSession}
    (path : Machine.Path (step e g) UsesCurrent (start tee) s) :
    ∀ u ∈ s.uses, u.got = some u.val.2 :=
  (path.invariant (inv_start tee) fun _ _ _ inv hok hstep => inv.step hok hstep).obtained

instance (s : ExecSession) (event : ExecEvent) : Decidable (s.UsesCurrent event) := by
  cases event <;> unfold UsesCurrent <;> infer_instance

/-- The machine of a session on a new worker. -/
def newSession : ExecSession := start (Server.new.tee 0)

@[inherit_doc newSession]
def newStep : ExecSession → ExecEvent → Option ExecSession := step .trivial .plain

/-- A SELECT ends, and then a literal is read and inserted. -/
def insertAfterSelect : List ExecEvent :=
  [.executorStart true, .executorEnd, .literal .int (Sessions.cipherInt 1), .executorStart false,
    .promote 0 .default, .executorEnd]

/-- A literal is read, a SELECT ends, another literal is read, and the first one is used. -/
def selectBetween : List ExecEvent :=
  [.literal .int (Sessions.cipherInt 1), .executorStart true, .executorEnd,
    .literal .int (Sessions.cipherInt 2), .read 0]

/-- The uses of a session, as values. -/
def usedValues (s : ExecSession) : List (Value × Option Value) :=
  s.uses.map fun u => (u.val, u.got.map (Sigma.mk u.val.1))

theorem literals_outlive_uses_insertAfterSelect :
    ∃ s, Machine.Path newStep UsesCurrent newSession s ∧
      s.usedValues = [(⟨.int, 1⟩, some ⟨.int, 1⟩)] ∧ ∀ u ∈ s.uses, u.got = some u.val.2 := by
  have hrun : (Machine.runOk newStep UsesCurrent newSession insertAfterSelect).map usedValues =
      some [(⟨.int, 1⟩, some ⟨.int, 1⟩)] := by decide +kernel
  obtain ⟨s, hs, hused⟩ := Option.map_eq_some_iff.mp hrun
  have path := Machine.path_of_runOk hs
  exact ⟨s, path, hused, literals_outlive_uses path⟩

/-- The literal 1 is used and the value 2 is obtained. -/
theorem cleared_literal_reads_other :
    ∃ s, Machine.Path newStep Machine.free newSession s ∧
      s.usedValues = [(⟨.int, 1⟩, some ⟨.int, 2⟩)] ∧ ∃ u ∈ s.uses, u.got ≠ some u.val.2 := by
  have hrun : (Machine.run newStep newSession selectBetween).map usedValues =
      some [(⟨.int, 1⟩, some ⟨.int, 2⟩)] := by decide +kernel
  obtain ⟨s, hs, hused⟩ := Option.map_eq_some_iff.mp hrun
  refine ⟨s, Machine.path_of_run (fun _ _ _ => trivial) hs, hused, ?_⟩
  obtain ⟨u, huses, hu⟩ := List.map_eq_singleton_iff.mp hused
  obtain ⟨hval, hgot⟩ := Prod.mk.inj hu
  refine ⟨u, huses ▸ List.mem_singleton_self u, fun hsame => ?_⟩
  have hsame' : some u.val = some ⟨.int, 2⟩ := by
    rw [← hgot, hsame]
    rfl
  rw [hval] at hsame'
  exact absurd hsame' (by decide)

end ExecSession

end Zeno
