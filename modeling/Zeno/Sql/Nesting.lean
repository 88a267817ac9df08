import Zeno.Sql.Executor

/-!
# Nested executors and subtransactions

`executor_depth` is raised by `kvdb_ExecutorStart` and lowered by
`kvdb_ExecutorEnd`.  PostgreSQL does not call `ExecutorEnd` for an executor that an
error discards.  If the whole transaction aborts, the hook of the extension sets the
depth to 0.  If the error is caught, as in a block of PL/pgSQL with an `EXCEPTION`
clause, only a subtransaction aborts, and no hook is called.

`NestedSession` follows a session together with the executors that are open in each
subtransaction.  In every run the depth is the number of open executors and of those
that aborted subtransactions discarded since the last abort of a whole transaction
(`depth_eq`).  So it counts the open ones as long as none is discarded
(`executor_depth_counts_open`).  After that no outermost SELECT is seen to end.
-/

namespace Zeno

/-- The events at which the depth changes. -/
def ExecEvent.boundary : ExecEvent → Bool
  | .executorStart _ | .executorEnd | .abort => true
  | .literal _ _ | .read _ | .promote _ _ | .commit => false

namespace ExecSession

variable {e : Env} {g : Gcm} {s t : ExecSession}

/-- Every other event leaves the depth and the flag. -/
theorem step_other {event : ExecEvent} (hevent : event.boundary = false)
    (h : s.step e g event = some t) :
    t.executorDepth = s.executorDepth ∧ t.clearOuterExecutor = s.clearOuterExecutor := by
  cases event with
  | literal ty cipher =>
      obtain ⟨val, -, h⟩ := Option.bind_eq_some_iff.mp h
      obtain ⟨⟨reply, tee⟩, -, h⟩ := Option.bind_eq_some_iff.mp h
      cases reply <;> cases h
      exact ⟨rfl, rfl⟩
  | read k =>
      obtain ⟨l, -, h⟩ := Option.bind_eq_some_iff.mp h
      cases h
      exact ⟨rfl, rfl⟩
  | promote k p =>
      obtain ⟨l, -, h⟩ := Option.bind_eq_some_iff.mp h
      simp only at h
      split at h <;> cases h <;> exact ⟨rfl, rfl⟩
  | commit =>
      cases h
      exact ⟨rfl, rfl⟩
  | executorStart select => cases hevent
  | executorEnd => cases hevent
  | abort => cases hevent

/-- The last end of a SELECT clears the local store. -/
theorem step_executorEnd_clears (hdepth : s.executorDepth = 1)
    (hselect : s.clearOuterExecutor = true) (h : s.step e g .executorEnd = some t) :
    t.executorDepth = 0 ∧ t.clears = s.clears + 1 ∧ ∀ ty k, t.tee.stores.loc.map ty k = none := by
  have hcond : s.executorDepth - 1 = 0 ∧ s.clearOuterExecutor = true := ⟨by omega, hselect⟩
  simp only [step, if_pos hcond, sendLocalClearReq, handleOps, Option.map_some] at h
  cases h
  exact ⟨hcond.1, rfl, fun ty k => LocalStore.map_clear _ k⟩

/-- Any other end lowers the depth only. -/
theorem step_executorEnd_keeps (hne : ¬ (s.executorDepth = 1 ∧ s.clearOuterExecutor = true))
    (h : s.step e g .executorEnd = some t) :
    t = { s with executorDepth := s.executorDepth - 1 } := by
  have hcond : ¬ (s.executorDepth - 1 = 0 ∧ s.clearOuterExecutor = true) :=
    fun hc => hne ⟨by omega, hc.2⟩
  simp only [step, if_neg hcond] at h
  cases h
  rfl

end ExecSession

/-- A session and what is open in it. -/
structure NestedSession where
  session : ExecSession
  /-- The executors open in each subtransaction, the innermost first, and last those outside
  of all of them. -/
  scopes : List Nat
  /-- The first executor that was started when none was open is a SELECT. -/
  outerSelect : Bool
  /-- The executors discarded since the last abort of a whole transaction. -/
  discarded : Nat

/-- An event of a session with subtransactions. -/
inductive NestedEvent where
  | executorStart (select : Bool)
  /-- The end of an executor that was started in a subtransaction, counted from within. -/
  | executorEnd (level : Nat)
  /-- The whole transaction aborts. -/
  | abort
  | subStart
  | subCommit
  | subAbort
  /-- Anything else. -/
  | other (event : ExecEvent)

namespace NestedSession

/-- The number of open executors. -/
def openCount (s : NestedSession) : Nat := s.scopes.sum

/-- A session that begins its first transaction. -/
def start (tee : Tee) : NestedSession := ⟨.start tee, [0], false, 0⟩

/-- One event. -/
def step (e : Env) (g : Gcm) (s : NestedSession) : NestedEvent → Option NestedSession
  | .executorStart select =>
      match s.scopes with
      | [] => none
      | n :: outer =>
          (s.session.step e g (.executorStart select)).map fun t =>
            { s with
              session := t
              scopes := (n + 1) :: outer
              outerSelect := if s.openCount = 0 then select else s.outerSelect }
  | .executorEnd level =>
      match s.scopes[level]? with
      | some (n + 1) =>
          (s.session.step e g .executorEnd).map fun t =>
            { s with session := t, scopes := s.scopes.set level n }
      | _ => none
  | .abort =>
      (s.session.step e g .abort).map fun t =>
        { s with session := t, scopes := [0], discarded := 0 }
  | .subStart => some { s with scopes := 0 :: s.scopes }
  | .subCommit =>
      match s.scopes with
      | n :: m :: outer => some { s with scopes := (n + m) :: outer }
      | _ => none
  | .subAbort =>
      -- the executors of the subtransaction are gone, and no hook is called
      match s.scopes with
      | n :: m :: outer => some { s with scopes := m :: outer, discarded := s.discarded + n }
      | _ => none
  | .other event =>
      if event.boundary then none
      else (s.session.step e g event).map fun t => { s with session := t }

/-- No subtransaction aborts in which an executor is open. -/
def DiscardsNothing (s : NestedSession) : NestedEvent → Prop
  | .subAbort => s.scopes.head? = some 0
  | _ => True

instance (s : NestedSession) (event : NestedEvent) : Decidable (s.DiscardsNothing event) :=
  match event with
  | .subAbort => inferInstanceAs (Decidable (_ = _))
  | .executorStart _ | .executorEnd _ | .abort | .subStart | .subCommit | .other _ =>
      inferInstanceAs (Decidable True)

variable {e : Env} {g : Gcm} {s s' : NestedSession}

/-! ## What the hooks do to the depth -/

/-- One executor fewer in a scope. -/
theorem sum_set_pred {scopes : List Nat} {level n : Nat} (h : scopes[level]? = some (n + 1)) :
    (scopes.set level n).sum + 1 = scopes.sum := by
  induction scopes generalizing level with
  | nil => cases h
  | cons m scopes ih =>
      cases level with
      | zero =>
          rw [List.getElem?_cons_zero, Option.some.injEq] at h
          rw [List.set_cons_zero, List.sum_cons, List.sum_cons, h]
          omega
      | succ level =>
          rw [List.getElem?_cons_succ] at h
          have hrest := ih h
          rw [List.set_cons_succ, List.sum_cons, List.sum_cons]
          omega

/-- The depth counts the open and the discarded executors. -/
def Counted (s : NestedSession) : Prop :=
  s.session.executorDepth = s.openCount + s.discarded

theorem Counted.executorStart {select : Bool} (h : s.Counted)
    (hstep : s.step e g (.executorStart select) = some s') : s'.Counted := by
  simp only [step] at hstep
  split at hstep
  next => cases hstep
  next n outer hscopes =>
    cases hstep
    have hdepth : s.session.executorDepth = s.scopes.sum + s.discarded := h
    show s.session.executorDepth + 1 = ((n + 1) :: outer).sum + s.discarded
    rw [hscopes, List.sum_cons] at hdepth
    rw [List.sum_cons]
    push_cast at hdepth ⊢
    omega

/-- An end lowers the depth and the number of open executors. -/
theorem executorEnd_counts {level : Nat} (hstep : s.step e g (.executorEnd level) = some s') :
    s'.session.executorDepth = s.session.executorDepth - 1 ∧ s'.openCount + 1 = s.openCount ∧
      s'.discarded = s.discarded ∧ s'.outerSelect = s.outerSelect ∧
      s.session.step e g .executorEnd = some s'.session := by
  simp only [step] at hstep
  split at hstep
  next n hlevel =>
    obtain ⟨t, ht, rfl⟩ := Option.map_eq_some_iff.mp hstep
    refine ⟨?_, sum_set_pred hlevel, rfl, rfl, ht⟩
    by_cases hlast : s.session.executorDepth = 1 ∧ s.session.clearOuterExecutor = true
    · show t.executorDepth = _
      rw [(ExecSession.step_executorEnd_clears hlast.1 hlast.2 ht).1, hlast.1]
      rfl
    · rw [ExecSession.step_executorEnd_keeps hlast ht]
  next => cases hstep

/-- Every event keeps the count. -/
theorem Counted.step {event : NestedEvent} (h : s.Counted) (hstep : s.step e g event = some s') :
    s'.Counted := by
  have hdepth : s.session.executorDepth = s.scopes.sum + s.discarded := h
  cases event with
  | executorStart select => exact h.executorStart hstep
  | executorEnd level =>
      obtain ⟨hd, hopen, hdisc, -⟩ := executorEnd_counts hstep
      have hcount : s.session.executorDepth = s.openCount + s.discarded := h
      show s'.session.executorDepth = s'.openCount + s'.discarded
      omega
  | abort =>
      cases hstep
      rfl
  | subStart =>
      cases hstep
      show s.session.executorDepth = (0 :: s.scopes).sum + s.discarded
      rw [List.sum_cons, Nat.zero_add]
      exact hdepth
  | subCommit =>
      simp only [NestedSession.step] at hstep
      split at hstep
      next n m outer hscopes =>
        cases hstep
        show s.session.executorDepth = ((n + m) :: outer).sum + s.discarded
        rw [hdepth, hscopes, List.sum_cons, List.sum_cons, List.sum_cons, Nat.add_assoc]
      next => cases hstep
  | subAbort =>
      simp only [NestedSession.step] at hstep
      split at hstep
      next n m outer hscopes =>
        cases hstep
        show s.session.executorDepth = (m :: outer).sum + (s.discarded + n : Nat)
        rw [hdepth, hscopes, List.sum_cons (a := n)]
        push_cast
        omega
      next => cases hstep
  | other event =>
      simp only [NestedSession.step] at hstep
      split at hstep
      next => cases hstep
      next hevent =>
        obtain ⟨t, ht, rfl⟩ := Option.map_eq_some_iff.mp hstep
        have hsame := (ExecSession.step_other (by simpa using hevent) ht).1
        exact hsame.trans h

/-- In every run the depth is the number of the open executors and of those discarded since the
last abort of a whole transaction. -/
theorem depth_eq {tee : Tee} (path : Machine.Path (step e g) Machine.free (start tee) s) :
    s.session.executorDepth = s.openCount + s.discarded :=
  path.invariant (I := Counted) rfl fun _ _ _ h _ hstep => h.step hstep

/-! ## Runs that discard no executor -/

/-- What such a run keeps. -/
structure Tracked (s : NestedSession) : Prop where
  counted : s.Counted
  none : s.discarded = 0
  /-- While an executor is open, the flag of the extension tells what the outermost one is. -/
  flag : 0 < s.openCount → s.session.clearOuterExecutor = s.outerSelect

theorem Tracked.depth (h : s.Tracked) : s.session.executorDepth = s.openCount := by
  have hcount : s.session.executorDepth = s.openCount + s.discarded := h.counted
  rw [hcount, h.none]
  rfl

theorem tracked_start (tee : Tee) : (start tee).Tracked :=
  ⟨rfl, rfl, fun h => absurd h (Nat.lt_irrefl 0)⟩

theorem Tracked.step {event : NestedEvent} (h : s.Tracked) (ok : s.DiscardsNothing event)
    (hstep : s.step e g event = some s') : s'.Tracked := by
  have hcounted := h.counted.step hstep
  have hdepth := h.depth
  cases event with
  | executorStart select =>
      simp only [NestedSession.step] at hstep
      split at hstep
      next => cases hstep
      next n outer hscopes =>
        cases hstep
        refine ⟨hcounted, h.none, fun _ => ?_⟩
        show (if s.session.executorDepth = 0 then select else s.session.clearOuterExecutor) =
          if s.openCount = 0 then select else s.outerSelect
        by_cases hzero : s.openCount = 0
        · rw [if_pos hzero, if_pos (by omega)]
        · rw [if_neg hzero, if_neg (by omega)]
          exact h.flag (Nat.pos_of_ne_zero hzero)
  | executorEnd level =>
      obtain ⟨hd, hopen, hdisc, houter, hend⟩ := executorEnd_counts hstep
      refine ⟨hcounted, hdisc.trans h.none, fun hpos => ?_⟩
      have hkeep := ExecSession.step_executorEnd_keeps (fun hlast => by omega) hend
      rw [houter, hkeep]
      exact h.flag (by omega)
  | abort =>
      cases hstep
      exact ⟨hcounted, rfl, fun hpos => absurd hpos (Nat.lt_irrefl 0)⟩
  | subStart =>
      cases hstep
      exact ⟨hcounted, h.none, fun hpos => h.flag (by simpa [openCount] using hpos)⟩
  | subCommit =>
      simp only [NestedSession.step] at hstep
      split at hstep
      next n m outer hscopes =>
        cases hstep
        refine ⟨hcounted, h.none, fun hpos => h.flag ?_⟩
        simpa [openCount, hscopes, Nat.add_assoc] using hpos
      next => cases hstep
  | subAbort =>
      simp only [NestedSession.step] at hstep
      split at hstep
      next n m outer hscopes =>
        cases hstep
        have hzero : n = 0 := by
          have : s.scopes.head? = some 0 := ok
          simpa [hscopes] using this
        refine ⟨hcounted, ?_, fun hpos => h.flag ?_⟩
        · show s.discarded + n = 0
          rw [h.none, hzero]
        · simpa [openCount, hscopes, hzero] using hpos
      next => cases hstep
  | other event =>
      simp only [NestedSession.step] at hstep
      split at hstep
      next => cases hstep
      next hevent =>
        obtain ⟨t, ht, rfl⟩ := Option.map_eq_some_iff.mp hstep
        have hsame := (ExecSession.step_other (by simpa using hevent) ht).2
        exact ⟨hcounted, h.none, fun hpos => hsame.trans (h.flag hpos)⟩

/-- As long as no aborted subtransaction discards an executor, the depth is the number of open
ones, and the end of the last one clears the local store if the outermost was a SELECT. -/
theorem executor_depth_counts_open {tee : Tee}
    (path : Machine.Path (step e g) DiscardsNothing (start tee) s) :
    s.session.executorDepth = s.openCount ∧
      ∀ level s', s.step e g (.executorEnd level) = some s' → s.openCount = 1 →
        s.outerSelect = true → s'.session.clears = s.session.clears + 1 ∧
          ∀ ty k, s'.session.tee.stores.loc.map ty k = none := by
  have tracked : s.Tracked :=
    path.invariant (tracked_start tee) fun _ _ _ h hok hstep => h.step hok hstep
  refine ⟨tracked.depth, fun level s' hstep hone houter => ?_⟩
  obtain ⟨-, -, -, -, hend⟩ := executorEnd_counts hstep
  have hdepth : s.session.executorDepth = 1 := by rw [tracked.depth, hone]; rfl
  have hflag := (tracked.flag (by omega)).trans houter
  exact (ExecSession.step_executorEnd_clears hdepth hflag hend).2

/-- A SELECT with a caught error before the inner query, which then runs. -/
theorem executor_depth_counts_open_run :
    ∃ s s', Machine.Path (step .trivial .plain) DiscardsNothing (start (Server.new.tee 0)) s ∧
      s.step .trivial .plain (.executorEnd 0) = some s' ∧ s.session.executorDepth = s.openCount ∧
      s'.session.clears = s.session.clears + 1 := by
  have hrun : ((Machine.runOk (step .trivial .plain) DiscardsNothing (start (Server.new.tee 0))
      [.executorStart true, .subStart, .subAbort, .executorStart false, .executorEnd 0]).bind
      fun s => (s.step .trivial .plain (.executorEnd 0)).map fun _ =>
        (s.openCount, s.outerSelect)) = some (1, true) := by decide +kernel
  obtain ⟨s, hs, hrest⟩ := Option.bind_eq_some_iff.mp hrun
  obtain ⟨s', hs', heq⟩ := Option.map_eq_some_iff.mp hrest
  obtain ⟨hone, houter⟩ := Prod.mk.inj heq
  have hcounts := executor_depth_counts_open (Machine.path_of_runOk hs)
  exact ⟨s, s', Machine.path_of_runOk hs, hs', hcounts.1, (hcounts.2 0 s' hs' hone houter).1⟩

/-- A query inside a block that catches an error is discarded.  When the SELECT around it ends no
executor is open, but the depth is 1 and nothing was cleared. -/
theorem discarded_executor_counted :
    ∃ s, Machine.Path (step .trivial .plain) Machine.free (start (Server.new.tee 0)) s ∧
      s.openCount = 0 ∧ s.session.executorDepth = 1 ∧ s.session.clears = 0 ∧
      s.outerSelect = true := by
  have hrun : (Machine.run (step .trivial .plain) (start (Server.new.tee 0))
      [.executorStart true, .subStart, .executorStart true, .subAbort, .executorEnd 0]).map
      (fun s => (s.openCount, s.session.executorDepth, s.session.clears, s.outerSelect)) =
      some (0, 1, 0, true) := by decide +kernel
  obtain ⟨s, hs, heq⟩ := Option.map_eq_some_iff.mp hrun
  simp only [Prod.mk.injEq] at heq
  exact ⟨s, Machine.path_of_run (fun _ _ _ => trivial) hs, heq⟩

end NestedSession

end Zeno
