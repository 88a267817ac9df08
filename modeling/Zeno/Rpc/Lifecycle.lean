import Zeno.Rpc.Calls

/-!
# The server from its start to its end

The main process of the server forks the workers and waits.  When a worker has ended, or a
signal has come, it stores `SHM_EXIT` and waits for the workers.  A worker tests for
`SHM_EXIT` after each pass over its regions, and a pass ends with the first request that was
handled.  A check that fails in `handle_ops` ends the worker where it stands.

The machine is that of the RPC with these two processes around it.  A worker has one more
place, at the test for `SHM_EXIT`.  A signal can come at any time, and a `waitpid` that it
interrupts may also start again.  A client tests for `SHM_EXIT` before its first walk over the
regions and after each walk that found none.

A shutdown is orderly: the main process ends last, each worker runs
`handle_ops` at most once after `SHM_EXIT` was stored, and a worker that has ended leaves no
request half done.  A call that it has not seen is never answered, and since nothing but
`DONE` ends the wait of `sendRequest`, its client waits forever.
-/

namespace Zeno

namespace Rpc

/-! ## The processes -/

/-- Where a worker is in its loop. -/
inductive Phase where
  /-- In a pass over its regions. -/
  | serving
  /-- At the test for `SHM_EXIT`. -/
  | testing
  /-- It has ended. -/
  | ended
  /-- A check has failed. -/
  | died
deriving DecidableEq

/-- A worker process that is no more. -/
def Phase.Gone (p : Phase) : Prop := p = .ended ∨ p = .died

instance (p : Phase) : Decidable p.Gone := inferInstanceAs (Decidable (_ ∨ _))

/-- Where `main` is. -/
inductive MainPc where
  /-- In the first loop. -/
  | watching
  /-- At `req->status = SHM_EXIT`. -/
  | storing
  /-- In the second loop. -/
  | draining
  /-- It has returned. -/
  | returned
deriving DecidableEq

/-- The server and its clients. -/
structure Site (ι Body σ : Type) where
  /-- The regions, the clients and the workers' passes. -/
  rpc : State ι Body σ
  /-- `SHM_EXIT` is stored. -/
  exit : Bool
  /-- `shutdown_requested`, of the main process. -/
  requested : Bool
  /-- A signal has come. -/
  signaled : Bool
  /-- The main process. -/
  main : MainPc
  /-- The worker processes. -/
  phase : Nat → Phase
  /-- The workers that `waitpid` has returned. -/
  reaped : Nat → Bool
  /-- How often each worker has run `handle_ops` since `SHM_EXIT` was stored. -/
  late : Nat → Nat
  /-- The clients that have passed the first test of `getSharedBuffer`. -/
  entered : ι → Bool

/-- One step of the whole. -/
inductive SiteLabel (ι Body : Type) where
  /-- A client comes to the first test of `getSharedBuffer`. -/
  | enter (i : ι)
  /-- A client does something. -/
  | client (l : Label ι Body)
  /-- A worker goes on. -/
  | worker (w : Nat)
  /-- A check fails in a worker. -/
  | fatal (w : Nat)
  /-- The main process goes on. -/
  | main
  /-- `waitpid` returns a worker. -/
  | reap (w : Nat)
  /-- A signal comes. -/
  | signal

/-- The pass of a worker ends with the step from here. -/
def WorkerPc.EndsPass : WorkerPc → Prop
  | .scan r => ¬ r < maxRegionNum
  | .reply _ => True
  | _ => False

instance : (pc : WorkerPc) → Decidable pc.EndsPass
  | .scan r => inferInstanceAs (Decidable (¬ r < maxRegionNum))
  | .reply _ => .isTrue trivial
  | .test _ | .handle _ => .isFalse id

/-- A worker is at `handle_ops`. -/
def WorkerPc.AtHandle : WorkerPc → Prop
  | .handle _ => True
  | _ => False

instance : (pc : WorkerPc) → Decidable pc.AtHandle
  | .handle _ => .isTrue trivial
  | .scan _ | .test _ | .reply _ => .isFalse id

theorem WorkerPc.AtHandle.eq_handle {pc : WorkerPc} (h : pc.AtHandle) : ∃ r, pc = .handle r := by
  cases pc with
  | handle r => exact ⟨r, rfl⟩
  | scan _ | test _ | reply _ => exact h.elim

/-- The client of a step. -/
def Label.client? {ι Body : Type} : Label ι Body → Option ι
  | .client i | .call i _ | .giveUp i | .timeout i | .exit i => some i
  | .worker _ => none

/-- A client has looked at all regions, and tests for `SHM_EXIT` again. -/
def Pc.AtTest {Body : Type} : Pc Body → Prop
  | .claim r => ¬ r < maxRegionNum
  | _ => False

instance {Body : Type} : (pc : Pc Body) → Decidable pc.AtTest
  | .claim r => inferInstanceAs (Decidable (¬ r < maxRegionNum))
  | .cas _ _ | .zero _ | .init _ | .idle _ | .ready _ _ _ | .send _ _ _ | .wait _ _ _
  | .copy _ _ _ | .finish _ _ _ _ | .timedOut _ _ _ | .drain _ | .clear _ | .release _
  | .gone | .failed => .isFalse id

namespace Site

variable {ι Body σ : Type} [DecidableEq ι]

/-- What the tests for `SHM_EXIT` let a client do.  Behind a test that fails it can only give
up. -/
def Admits (s : Site ι Body σ) : Label ι Body → Prop
  | .client i => s.entered i = true ∧ ¬ (s.exit = true ∧ (s.rpc.client i).AtTest)
  | .call i _ | .giveUp i | .timeout i | .exit i => s.entered i = true
  | .worker _ => False

instance (s : Site ι Body σ) : (l : Label ι Body) → Decidable (s.Admits l)
  | .client _ => inferInstanceAs (Decidable (_ ∧ ¬ (_ ∧ _)))
  | .call _ _ | .giveUp _ | .timeout _ | .exit _ => inferInstanceAs (Decidable (_ = true))
  | .worker _ => .isFalse id

/-- A worker that serves: it tests for `SHM_EXIT` when its pass is over. -/
def serve (ops : Ops Body σ) (kind : ι → Kind) (n : Nat) (s : Site ι Body σ) (w : Nat) :
    Option (Site ι Body σ) :=
  (s.rpc.step ops kind n (.worker w)).map fun rpc =>
    { s with
      rpc := rpc
      phase := if (s.rpc.worker w).EndsPass then Function.update s.phase w .testing else s.phase
      late := if (s.rpc.worker w).AtHandle ∧ s.exit then
          Function.update s.late w (s.late w + 1) else s.late }

/-- One step of the whole, with `n` workers. -/
def step (ops : Ops Body σ) (kind : ι → Kind) (n : Nat) (s : Site ι Body σ) :
    SiteLabel ι Body → Option (Site ι Body σ)
  | .enter i =>
      if s.exit then none else some { s with entered := Function.update s.entered i true }
  | .client l =>
      if s.Admits l then (s.rpc.step ops kind n l).map fun rpc => { s with rpc := rpc } else none
  | .worker w =>
      match s.phase w with
      | .serving => s.serve ops kind n w
      | .testing =>
          some { s with phase := Function.update s.phase w (if s.exit then .ended else .serving) }
      | .ended | .died => none
  | .fatal w =>
      match s.phase w, s.rpc.worker w with
      | .serving, .handle r =>
          if w < n ∧ 0 < ops.reqType (s.rpc.body r) ∧
              (ops.handleOps w s.rpc.tee (s.rpc.body r)).isNone then
            some { s with phase := Function.update s.phase w .died }
          else none
      | _, _ => none
  | .main =>
      match s.main with
      | .watching =>
          -- the test of the first loop, or `ECHILD`
          if s.requested = true ∨ ∀ w < n, s.reaped w = true then some { s with main := .storing }
          else none
      | .storing => some { s with exit := true, main := .draining }
      | .draining =>
          if ∀ w < n, s.reaped w = true then some { s with main := .returned } else none
      | .returned => none
  | .reap w =>
      if w < n ∧ (s.phase w).Gone ∧ s.reaped w = false then
        match s.main with
        | .watching => some { s with
            reaped := Function.update s.reaped w true, requested := true, main := .storing }
        | .draining => some { s with reaped := Function.update s.reaped w true }
        | .storing | .returned => none
      else none
  | .signal => some { s with requested := true, signaled := true }

/-- The server has set up the shared memory and forked its workers. -/
def start (ops : Ops Body σ) (tee : σ) : Site ι Body σ where
  rpc := State.start ops tee
  exit := false
  requested := false
  signaled := false
  main := .watching
  phase _ := .serving
  reaped _ := false
  late _ := 0
  entered _ := false

/-- No call is taken back from a worker. -/
def Safe (n : Nat) (s : Site ι Body σ) : SiteLabel ι Body → Prop
  | .client l => SafeTimeout n s.rpc l
  | _ => True

instance (n : Nat) (s : Site ι Body σ) : (l : SiteLabel ι Body) → Decidable (s.Safe n l)
  | .client l => inferInstanceAs (Decidable (SafeTimeout n s.rpc l))
  | .enter _ | .worker _ | .fatal _ | .main | .reap _ | .signal => .isTrue trivial

omit [DecidableEq ι] in
/-- It is a step of a client that has entered. -/
theorem Admits.client {s : Site ι Body σ} {l : Label ι Body} (h : s.Admits l) :
    ∃ i, l.client? = some i ∧ s.entered i = true := by
  cases l with
  | client i => exact ⟨i, rfl, h.1⟩
  | call i _ | giveUp i | timeout i | exit i => exact ⟨i, rfl, h⟩
  | worker w => exact h.elim

end Site

/-! ## Who changes what -/

section Frames

variable {ι Body σ : Type} {ops : Ops Body σ} {kind : ι → Kind} {n : Nat} {s s' : State ι Body σ}
  {i : ι} {r w : Nat}

/-- A step of a worker moves it, and it sets the status of a region only where it replies. -/
structure WorkerMoves (s s' : State ι Body σ) (w : Nat) (pc : WorkerPc) : Prop where
  worker : s'.worker = Function.update s.worker w pc
  client : s'.client = s.client
  returned : s'.returned = s.returned
  status : ∀ r, s'.status r = s.status r ∨ s.worker w = .reply r
  ends : (s.worker w).EndsPass → pc = .scan w
  handles : ∀ r, s.worker w = .handle r → pc = .reply r
  handled : s'.handled = s.handled ∨ ∃ x, x.worker = w ∧ s.worker w = .handle x.region ∧
    x.call = s.tag x.region ∧ pc = .reply x.region ∧ s'.handled = x :: s.handled

theorem workerStep_moves (h : s.workerStep ops n w = some s') :
    ∃ pc, WorkerMoves s s' w pc := by
  have hclient := workerStep_client h
  have hother {pc pc' : WorkerPc} (hpc : s.worker w = pc) (hat : ¬ pc.AtHandle) (r : Nat)
      (hhandle : s.worker w = .handle r) : pc' = .reply r := by
    cases hpc.symm.trans hhandle
    exact absurd trivial hat
  cases hpc : s.worker w with
  | scan r =>
      simp only [State.workerStep, hpc] at h
      split at h
      next hlt =>
        have hends : ¬ (s.worker w).EndsPass := by rw [hpc]; exact not_not_intro hlt
        split at h <;> cases h <;>
          exact ⟨_, rfl, hclient, rfl, fun _ => .inl rfl, hends.elim, hother hpc id, .inl rfl⟩
      next =>
        cases h
        exact ⟨_, rfl, hclient, rfl, fun _ => .inl rfl, fun _ => rfl, hother hpc id, .inl rfl⟩
  | test r =>
      have hends : ¬ (s.worker w).EndsPass := by rw [hpc]; exact id
      simp only [State.workerStep, hpc] at h
      split at h <;> cases h <;>
        exact ⟨_, rfl, hclient, rfl, fun _ => .inl rfl, hends.elim, hother hpc id, .inl rfl⟩
  | handle r =>
      have hends : ¬ (s.worker w).EndsPass := by rw [hpc]; exact id
      have hreplies (r' : Nat) (hr : s.worker w = .handle r') :
          WorkerPc.reply r = .reply r' := by
        cases hpc.symm.trans hr
        rfl
      simp only [State.workerStep, hpc] at h
      split at h
      next =>
        obtain ⟨out, -, rfl⟩ := Option.map_eq_some_iff.mp h
        exact ⟨_, rfl, hclient, rfl, fun _ => .inl rfl, hends.elim, hreplies,
          .inr ⟨_, rfl, hpc, rfl, rfl, rfl⟩⟩
      next =>
        cases h
        exact ⟨_, rfl, hclient, rfl, fun _ => .inl rfl, hends.elim, hreplies, .inl rfl⟩
  | reply r =>
      simp only [State.workerStep, hpc, Option.some.injEq] at h
      subst h
      refine ⟨_, rfl, hclient, rfl, fun r' => ?_, fun _ => rfl, hother hpc id, .inl rfl⟩
      rcases eq_or_ne r' r with rfl | hne
      · exact .inr hpc
      · exact .inl (Function.update_of_ne hne _ _)

/-- A step of a client moves no worker, and it sets the status only of its own region. -/
structure ClientMoves (s s' : State ι Body σ) (i : ι) : Prop where
  worker : s'.worker = s.worker
  handled : s'.handled = s.handled
  others : ∀ j, j ≠ i → s'.client j = s.client j
  status : ∀ r, s'.status r = s.status r ∨ (s.client i).region? = some r

theorem status_update (hr : (s.client i).region? = some r) (st : Status) (r' : Nat) :
    Function.update s.status r st r' = s.status r' ∨ (s.client i).region? = some r' := by
  rcases eq_or_ne r' r with rfl | hne
  · exact .inr hr
  · exact .inl (Function.update_of_ne hne _ _)

/-- A client of the extension that waits is at the test for `DONE`. -/
theorem Inv.eq_wait (inv : Inv ops kind n s) (hkind : kind i = .extension)
    (hwaits : (s.client i).waits? = some r) : ∃ c sent, s.client i = .wait r c sent := by
  obtain ⟨c, sent, hpc | hpc⟩ := Pc.waits?_eq_some.mp hwaits
  · exact ⟨c, sent, hpc⟩
  · cases (inv.timed i r c sent hpc).symm.trans hkind

variable [DecidableEq ι]

theorem clientMoves_goto {pc : Pc Body} (hworker : s'.worker = s.worker)
    (hhandled : s'.handled = s.handled)
    (hclient : s'.client = Function.update s.client i pc)
    (hstatus : ∀ r, s'.status r = s.status r ∨ (s.client i).region? = some r) :
    ClientMoves s s' i := by
  refine ⟨hworker, hhandled, fun j hj => ?_, hstatus⟩
  rw [hclient, Function.update_of_ne hj]

theorem clientStep_moves (h : s.clientStep ops kind i = some s') : ClientMoves s s' i := by
  have hsame (r : Nat) : s.status r = s.status r ∨ (s.client i).region? = some r := .inl rfl
  have hrefl : ClientMoves s s i := ⟨rfl, rfl, fun _ _ => rfl, hsame⟩
  cases hpc : s.client i with
  | claim r =>
      simp only [State.clientStep, hpc] at h
      split at h
      next =>
        split at h <;> cases h <;> exact clientMoves_goto rfl rfl rfl hsame
      next =>
        cases h
        exact clientMoves_goto rfl rfl rfl hsame
  | cas r old =>
      simp only [State.clientStep, hpc] at h
      split at h <;> cases h <;> exact clientMoves_goto rfl rfl rfl hsame
  | zero r | init r | clear r | send r call sent | finish r call sent got
  | timedOut r call sent =>
      simp only [State.clientStep, hpc, Option.some.injEq] at h
      subst h
      exact clientMoves_goto rfl rfl rfl (status_update (congrArg Pc.region? hpc) _)
  | ready r call sent =>
      simp only [State.clientStep, hpc] at h
      split at h <;> cases h <;> exact clientMoves_goto rfl rfl rfl hsame
  | wait r call sent =>
      simp only [State.clientStep, hpc] at h
      split at h
      next => split at h <;> cases h <;> exact clientMoves_goto rfl rfl rfl hsame
      next =>
        cases h
        exact hrefl
  | copy r call sent | release r =>
      simp only [State.clientStep, hpc, Option.some.injEq] at h
      subst h
      exact clientMoves_goto rfl rfl rfl hsame
  | drain r =>
      simp only [State.clientStep, hpc] at h
      split at h <;> cases h
      · exact hrefl
      · exact clientMoves_goto rfl rfl rfl hsame
  | idle r | gone | failed =>
      simp only [State.clientStep, hpc] at h
      cases h

theorem workerStep_of_step (h : s.step ops kind n (.worker w) = some s') :
    w < n ∧ s.workerStep ops n w = some s' := by
  simpa only [State.step, Option.ite_none_right_eq_some] using h

/-- Every step of a client is one of these. -/
theorem step_clientMoves {l : Label ι Body} (hl : l.client? = some i)
    (h : s.step ops kind n l = some s') : ClientMoves s s' i := by
  have hsame (r : Nat) : s.status r = s.status r ∨ (s.client i).region? = some r := .inl rfl
  cases l with
  | client j =>
      obtain rfl : j = i := Option.some.inj hl
      exact clientStep_moves h
  | call j b =>
      obtain rfl : j = i := Option.some.inj hl
      simp only [State.step] at h
      split at h
      next =>
        simp only [Option.ite_none_right_eq_some, Option.some.injEq] at h
        obtain ⟨-, rfl⟩ := h
        exact clientMoves_goto rfl rfl rfl hsame
      next => cases h
  | giveUp j | timeout j =>
      obtain rfl : j = i := Option.some.inj hl
      simp only [State.step] at h
      split at h
      next =>
        split at h <;> cases h
        exact clientMoves_goto rfl rfl rfl hsame
      next => cases h
  | exit j =>
      obtain rfl : j = i := Option.some.inj hl
      simp only [State.step] at h
      split at h
      next =>
        cases h
        exact clientMoves_goto rfl rfl rfl hsame
      next => cases h
  | worker w => cases hl

/-- A call that waits for its worker is left alone by every client, its own included: only a
call of the WAL can time out. -/
theorem wait_kept {l : Label ι Body} {j : ι} (hj : l.client? = some j)
    (inv : Inv ops kind n s) {c : Nat} {sent : Body}
    (hwait : s.client i = .wait r c sent) (hsent : s.status r = .sent)
    (hkind : kind i = .extension) (h : s.step ops kind n l = some s') :
    s'.client i = .wait r c sent ∧ s'.status r = .sent := by
  have hmoves := step_clientMoves hj h
  rcases eq_or_ne i j with rfl | hne
  · cases l with
    | client k =>
        obtain rfl : k = i := Option.some.inj hj
        have hne : s.status r ≠ .done := by rw [hsent]; nofun
        simp only [State.step, State.clientStep, hwait, if_neg hne, Option.some.injEq] at h
        subst h
        exact ⟨hwait, hsent⟩
    | call k b | giveUp k | exit k =>
        obtain rfl : k = i := Option.some.inj hj
        simp only [State.step, hwait] at h
        cases h
    | timeout k =>
        obtain rfl : k = i := Option.some.inj hj
        simp only [State.step, hwait, hkind] at h
        cases h
    | worker w => cases hj
  · refine ⟨(hmoves.others i hne).trans hwait, ?_⟩
    rcases hmoves.status r with hst | hheld
    · exact hst.trans hsent
    · exact absurd (inv.holder_unique (congrArg Pc.region? hwait) hheld) hne

end Frames

/-! ## The invariant -/

section Lifecycle

variable {ι Body σ : Type} {ops : Ops Body σ} {kind : ι → Kind} {n : Nat}
  {s s' : Site ι Body σ} {i : ι} {w : Nat}

/-- What holds of each worker. -/
structure WorkerInv (exit : Bool) (w : Nat) (phase : Phase) (pc : WorkerPc) (late : Nat)
    (reaped : Bool) : Prop where
  /-- `waitpid` returns workers that are gone. -/
  reaped : reaped = true → phase.Gone
  /-- A worker that tests for `SHM_EXIT` or has ended is not in a pass. -/
  between : phase = .testing ∨ phase = .ended → pc = .scan w
  /-- A worker dies in `handle_ops`. -/
  died : phase = .died → pc.AtHandle
  /-- Nothing is late before `SHM_EXIT` is stored. -/
  early : exit = false → late = 0
  /-- After a late run of `handle_ops` the worker replies, and its pass is over. -/
  late : late = 0 ∨ late = 1 ∧ ((∃ r, pc = .reply r) ∨ phase = .testing ∨ phase = .ended)

/-- What holds in every state of the server. -/
structure SiteInv (ops : Ops Body σ) (kind : ι → Kind) (n : Nat) (s : Site ι Body σ) : Prop where
  /-- The RPC is as it should be. -/
  rpc : Inv ops kind n s.rpc
  /-- The workers are. -/
  worker : ∀ w, WorkerInv s.exit w (s.phase w) (s.rpc.worker w) (s.late w) (s.reaped w)
  /-- `main` returns when `waitpid` has returned all of them. -/
  returned : s.main = .returned → ∀ w < n, s.reaped w = true
  /-- The first loop is left for a reason. -/
  cause : s.main ≠ .watching → s.requested = true ∨ ∀ w < n, s.reaped w = true
  /-- A shutdown is requested by a signal, or for a worker that is gone. -/
  asked : s.requested = true → s.signaled = true ∨ ∃ w < n, (s.phase w).Gone
  /-- `SHM_EXIT` is stored behind it. -/
  stored : s.exit = true → s.main ≠ .watching
  /-- A client that has not passed the test is where it started. -/
  outside : ∀ i, s.entered i = false → s.rpc.client i = .claim 0

theorem siteInv_start (ops : Ops Body σ) (kind : ι → Kind) (n : Nat) (tee : σ) :
    SiteInv ops kind n (Site.start ops tee : Site ι Body σ) where
  rpc := inv_start ops kind n tee
  worker _ := by
    refine ⟨nofun, fun h => ?_, nofun, fun _ => rfl, .inl rfl⟩
    rcases h with h | h <;> cases h
  returned := nofun
  cause h := absurd rfl h
  asked := nofun
  stored := nofun
  outside _ _ := rfl

/-- What is gone stays so. -/
theorem exists_gone_update {phase : Nat → Phase} {p : Phase} (hw : ¬ (phase w).Gone ∨ p.Gone)
    (h : ∃ v < n, (phase v).Gone) : ∃ v < n, (Function.update phase w p v).Gone := by
  obtain ⟨v, hv, hgone⟩ := h
  refine ⟨v, hv, ?_⟩
  rcases eq_or_ne v w with rfl | hne
  · rw [Function.update_self]
    exact hw.resolve_left (not_not_intro hgone)
  · rw [Function.update_of_ne hne]
    exact hgone

namespace WorkerInv

variable {exit reaped : Bool} {pc pc' : WorkerPc} {late : Nat}

/-- A worker whose pass is over. -/
theorem testing (h : WorkerInv exit w .serving pc late reaped) :
    WorkerInv exit w .testing (.scan w) late reaped := by
  refine ⟨fun hr => ?_, fun _ => rfl, nofun, h.early, ?_⟩
  · rcases h.reaped hr with he | he <;> cases he
  · exact h.late.imp_right fun hl => ⟨hl.1, .inr (.inl rfl)⟩

/-- A worker in its pass has run `handle_ops` late only if it replies. -/
theorem late_eq_zero (h : WorkerInv exit w .serving pc late reaped) (hends : ¬ pc.EndsPass) :
    late = 0 := by
  rcases h.late with hz | ⟨-, ⟨r, rfl⟩ | hp | hp⟩
  · exact hz
  · exact absurd trivial hends
  · cases hp
  · cases hp

theorem serving (h : WorkerInv exit w .serving pc late reaped) (pc' : WorkerPc)
    (hends : ¬ pc.EndsPass) : WorkerInv exit w .serving pc' late reaped := by
  refine ⟨h.reaped, fun hp => ?_, nofun, h.early, .inl (h.late_eq_zero hends)⟩
  rcases hp with hp | hp <;> cases hp

/-- A late run of `handle_ops`. -/
theorem handled (h : WorkerInv exit w .serving pc late reaped) (hat : pc.AtHandle)
    (hexit : exit = true) (r : Nat) : WorkerInv exit w .serving (.reply r) (late + 1) reaped := by
  obtain ⟨q, rfl⟩ := hat.eq_handle
  refine ⟨h.reaped, fun hp => ?_, nofun, fun hf => ?_, .inr ⟨?_, .inl ⟨r, rfl⟩⟩⟩
  · rcases hp with hp | hp <;> cases hp
  · cases hf.symm.trans hexit
  · rw [h.late_eq_zero id]

end WorkerInv

variable [DecidableEq ι]

namespace SiteInv

/-- A client does something. -/
theorem client {l : Label ι Body} {rpc : State ι Body σ} (inv : SiteInv ops kind n s)
    (hl : s.Admits l) (safe : SafeTimeout n s.rpc l) (h : s.rpc.step ops kind n l = some rpc) :
    SiteInv ops kind n { s with rpc := rpc } := by
  obtain ⟨j, hj, hentered⟩ := hl.client
  have hmoves := step_clientMoves hj h
  refine { inv with rpc := inv.rpc.step safe h, worker := fun w => ?_, outside := fun i hi => ?_ }
  · rw [hmoves.worker]
    exact inv.worker w
  · have hne : i ≠ j := by
      rintro rfl
      cases hi.symm.trans hentered
    exact (hmoves.others i hne).trans (inv.outside i hi)

/-- A worker serves. -/
theorem serve (inv : SiteInv ops kind n s) (hphase : s.phase w = .serving)
    (h : s.serve ops kind n w = some s') : SiteInv ops kind n s' := by
  obtain ⟨rpc, hstep, rfl⟩ := Option.map_eq_some_iff.mp h
  have hinv : Inv ops kind n rpc := inv.rpc.step (l := .worker w) trivial hstep
  obtain ⟨-, hmove⟩ := workerStep_of_step hstep
  obtain ⟨pc, hpc⟩ := workerStep_moves hmove
  have hw := inv.worker w
  rw [hphase] at hw
  refine { inv with rpc := hinv, worker := fun w' => ?_, asked := fun hr => ?_,
                    outside := fun i hi => ?_ }
  rotate_left
  · refine (inv.asked hr).imp_right fun hgone => ?_
    dsimp only
    split
    · exact exists_gone_update (.inl (by rw [hphase]; decide)) hgone
    · exact hgone
  · rw [hpc.client]
    exact inv.outside i hi
  dsimp only
  rw [hpc.worker]
  rcases eq_or_ne w' w with rfl | hne
  · rw [Function.update_self]
    by_cases hends : (s.rpc.worker w').EndsPass
    · have hat : ¬ (s.rpc.worker w').AtHandle := by
        intro hat
        obtain ⟨r, hr⟩ := hat.eq_handle
        exact (hr ▸ hends : WorkerPc.EndsPass (.handle r))
      rw [if_pos hends, if_neg (fun h => hat h.1), Function.update_self, hpc.ends hends]
      exact hw.testing
    · rw [if_neg hends, hphase]
      by_cases hlate : (s.rpc.worker w').AtHandle ∧ s.exit = true
      · rw [if_pos hlate, Function.update_self]
        obtain ⟨r, hr⟩ := hlate.1.eq_handle
        rw [hpc.handles r hr]
        exact hw.handled hlate.1 hlate.2 r
      · rw [if_neg hlate]
        exact hw.serving pc hends
  · have hold := inv.worker w'
    have hphases : (if (s.rpc.worker w).EndsPass then Function.update s.phase w .testing
        else s.phase) w' = s.phase w' := by
      split
      · exact Function.update_of_ne hne _ _
      · rfl
    have hlates : (if (s.rpc.worker w).AtHandle ∧ s.exit = true then
        Function.update s.late w (s.late w + 1) else s.late) w' = s.late w' := by
      split
      · exact Function.update_of_ne hne _ _
      · rfl
    rw [Function.update_of_ne hne, hphases, hlates]
    exact hold

/-- Every step keeps the invariant. -/
theorem step {l : SiteLabel ι Body} (inv : SiteInv ops kind n s) (safe : s.Safe n l)
    (h : s.step ops kind n l = some s') : SiteInv ops kind n s' := by
  cases l with
  | enter i =>
      simp only [Site.step] at h
      split at h <;> cases h
      refine { inv with outside := fun j hj => inv.outside j ?_ }
      rcases eq_or_ne j i with rfl | hne
      · cases (Function.update_self _ _ _).symm.trans hj
      · exact (Function.update_of_ne hne _ _).symm.trans hj
  | client l =>
      simp only [Site.step, Option.ite_none_right_eq_some, Option.map_eq_some_iff] at h
      obtain ⟨hl, rpc, hstep, rfl⟩ := h
      exact inv.client hl safe hstep
  | worker w =>
      cases hphase : s.phase w with
      | serving =>
          simp only [Site.step, hphase] at h
          exact inv.serve hphase h
      | testing =>
          simp only [Site.step, hphase, Option.some.injEq] at h
          subst h
          have hw := inv.worker w
          rw [hphase] at hw
          have hscan := hw.between (.inl rfl)
          have hserving : ¬ (s.phase w).Gone := by rw [hphase]; decide
          refine { inv with
            worker := fun w' => ?_
            asked := fun hr => (inv.asked hr).imp_right (exists_gone_update (.inl hserving)) }
          rcases eq_or_ne w' w with rfl | hne
          · dsimp only
            rw [Function.update_self]
            cases hexit : s.exit with
            | true =>
                refine ⟨fun _ => .inl rfl, fun _ => hscan, nofun, nofun, ?_⟩
                exact hw.late.imp_right fun hl => ⟨hl.1, .inr (.inr rfl)⟩
            | false =>
                refine ⟨fun hr => ?_, fun hp => ?_, nofun, fun _ => hw.early hexit,
                  .inl (hw.early hexit)⟩
                · rcases hw.reaped hr with hp | hp <;> cases hp
                · rcases hp with hp | hp <;> cases hp
          · dsimp only
            rw [Function.update_of_ne hne]
            exact inv.worker w'
      | ended | died =>
          simp only [Site.step, hphase] at h
          cases h
  | fatal w =>
      simp only [Site.step] at h
      split at h
      next r hphase hpc =>
        simp only [Option.ite_none_right_eq_some, Option.some.injEq] at h
        obtain ⟨-, rfl⟩ := h
        have hw := inv.worker w
        rw [hphase, hpc] at hw
        refine { inv with
          worker := fun w' => ?_
          asked := fun hr => (inv.asked hr).imp_right (exists_gone_update (.inr (.inr rfl))) }
        rcases eq_or_ne w' w with rfl | hne
        · dsimp only
          rw [Function.update_self, hpc]
          refine ⟨fun _ => .inr rfl, fun hp => ?_, fun _ => trivial, hw.early,
            .inl (hw.late_eq_zero id)⟩
          rcases hp with hp | hp <;> cases hp
        · dsimp only
          rw [Function.update_of_ne hne]
          exact inv.worker w'
      next => cases h
  | main =>
      simp only [Site.step] at h
      split at h
      next hmain =>
        simp only [Option.ite_none_right_eq_some, Option.some.injEq] at h
        obtain ⟨hcause, rfl⟩ := h
        exact { inv with returned := nofun, cause := fun _ => hcause, stored := fun _ => nofun }
      next hmain =>
        cases h
        refine { inv with worker := fun w => ?_, returned := nofun, cause := fun _ => ?_,
                          stored := fun _ => nofun }
        · exact { inv.worker w with early := nofun }
        · exact inv.cause (by rw [hmain]; nofun)
      next hmain =>
        simp only [Option.ite_none_right_eq_some, Option.some.injEq] at h
        obtain ⟨hall, rfl⟩ := h
        exact { inv with returned := fun _ => hall, cause := fun _ => .inr hall,
                         stored := fun _ => nofun }
      next => cases h
  | reap w =>
      simp only [Site.step, Option.ite_none_right_eq_some] at h
      obtain ⟨⟨hlt, hgone, -⟩, h⟩ := h
      have hworkers (w' : Nat) : WorkerInv s.exit w' (s.phase w') (s.rpc.worker w') (s.late w')
          (Function.update s.reaped w true w') := by
        rcases eq_or_ne w' w with rfl | hne
        · rw [Function.update_self]
          exact { inv.worker w' with reaped := fun _ => hgone }
        · rw [Function.update_of_ne hne]
          exact inv.worker w'
      split at h
      next hmain =>
        cases h
        exact { inv with worker := hworkers, returned := nofun, cause := fun _ => .inl rfl,
                         asked := fun _ => .inr ⟨w, hlt, hgone⟩, stored := fun _ => nofun }
      next hmain =>
        cases h
        refine { inv with worker := hworkers, returned := fun hr => ?_, cause := fun _ => ?_ }
        · cases hmain.symm.trans hr
        · rcases inv.cause (by rw [hmain]; nofun) with hreq | hall
          · exact .inl hreq
          · refine .inr fun w' hw' => ?_
            rcases eq_or_ne w' w with rfl | hne
            · exact Function.update_self _ _ _
            · exact (Function.update_of_ne hne _ _).trans (hall w' hw')
      next => cases h
      next => cases h
  | signal =>
      cases h
      exact { inv with cause := fun _ => .inl rfl, asked := fun _ => .inl rfl }

theorem of_path {tee : σ} (path : Machine.Path (Site.step ops kind n) (Site.Safe n)
    (Site.start ops tee) s) : SiteInv ops kind n s :=
  path.invariant (I := SiteInv ops kind n) (siteInv_start ops kind n tee)
    fun _ _ _ inv safe h => inv.step safe h

end SiteInv

/-! ## Shutting down -/

/-- What a shutdown leaves. -/
structure Orderly (n : Nat) (s : Site ι Body σ) : Prop where
  /-- `main` ends last. -/
  last : s.main = .returned → ∀ w < n, (s.phase w).Gone
  /-- `SHM_EXIT` is stored for a reason: a signal, or a worker that is gone. -/
  cause : s.exit = true → s.signaled = true ∨ ∃ w < n, (s.phase w).Gone
  /-- A worker runs `handle_ops` at most once after that. -/
  drained : ∀ w, s.late w ≤ 1
  /-- A call whose worker has ended was not handled at all, or it was and is answered. -/
  whole : ∀ i r c sent, s.rpc.client i = .wait r c sent → s.phase (r % n) = .ended →
    s.rpc.status r = .sent ∧ s.rpc.body r = sent ∧ Unhandled s.rpc.handled c ∨
      s.rpc.status r = .done ∧ Answered s.rpc.handled r c sent (s.rpc.body r)
  /-- A client that did not pass the test for `SHM_EXIT` has no region. -/
  closed : ∀ i, s.entered i = false → (s.rpc.client i).region? = none

omit [DecidableEq ι] in
/-- A call that waits, and whose worker does not reply. -/
theorem SiteInv.waits (inv : SiteInv ops kind n s) {r c : Nat} {sent : Body}
    (hwait : s.rpc.client i = .wait r c sent) (hreply : s.rpc.worker (r % n) ≠ .reply r) :
    s.rpc.status r = .sent ∧ s.rpc.body r = sent ∧ Unhandled s.rpc.handled c ∨
      s.rpc.status r = .done ∧ Answered s.rpc.handled r c sent (s.rpc.body r) := by
  obtain ⟨-, hcase⟩ := inv.rpc.fits_of hwait rfl
  rcases hcase with ⟨hsent, -, hwritten⟩ | ⟨hdone | hreplying, hanswered⟩
  · exact .inl ⟨hsent, hwritten.body, hwritten.unhandled⟩
  · exact .inr ⟨hdone, hanswered⟩
  · exact absurd hreplying hreply

/-- In every run of the server and its clients in which no call is taken back from a worker, a
shutdown is orderly. -/
theorem shutdown_orderly {tee : σ} (hn : 0 < n)
    (path : Machine.Path (Site.step ops kind n) (Site.Safe n) (Site.start ops tee) s) :
    Orderly n s := by
  have inv := SiteInv.of_path path
  have hgone (hall : ∀ w < n, s.reaped w = true) (w : Nat) (hw : w < n) : (s.phase w).Gone :=
    (inv.worker w).reaped (hall w hw)
  refine ⟨fun hr => hgone (inv.returned hr), fun he => ?_, fun w => ?_, ?_, fun i hi => ?_⟩
  · rcases inv.cause (inv.stored he) with hreq | hall
    · exact inv.asked hreq
    · exact .inr ⟨0, hn, hgone hall 0 hn⟩
  · rcases (inv.worker w).late with hz | ⟨ho, -⟩ <;> omega
  · intro i r c sent hwait hended
    refine inv.waits hwait ?_
    rw [(inv.worker (r % n)).between (.inr hended)]
    nofun
  · rw [inv.outside i hi]
    rfl

/-- One worker, and two clients of the extension. -/
def oneWorker : Site Bool Message Server → SiteLabel Bool Message →
    Option (Site Bool Message Server) :=
  Site.step (serverOps .trivial .plain) (fun _ => .extension) 1

/-- The start of it. -/
def oneWorkerStart : Site Bool Message Server := Site.start (serverOps .trivial .plain) .new

/-- A client with a region sends the integer 7. -/
def putSeven (i : Bool) : List (SiteLabel Bool Message) :=
  [.client (.call i (.of (.put ⟨.int, (7 : Num.int.Val)⟩))), .client (.client i)]

/-- A client comes and claims the first region that is free, behind so many that are not. -/
def claimAfter (i : Bool) (held : Nat) : List (SiteLabel Bool Message) :=
  .enter i :: List.replicate (held + 4) (.client (.client i))

/-- Both clients have a region.  A signal comes after the first has sent a request.  The worker
handles it and ends. -/
def lastRequest : List (SiteLabel Bool Message) :=
  claimAfter false 0 ++ claimAfter true 1 ++ putSeven false ++ [.signal, .main, .main] ++
    [.worker 0, .worker 0, .worker 0, .worker 0, .worker 0]

/-- The request is answered, the worker is reaped and `main` returns. -/
theorem shutdown_orderly_lastRequest :
    ∃ s, Machine.Path oneWorker (Site.Safe 1) oneWorkerStart s ∧
      (s.main = .returned ∧ s.late 0 = 1 ∧ s.rpc.returned.map (·.call) = [0]) ∧ Orderly 1 s := by
  have hrun : ((Machine.runOk oneWorker (Site.Safe 1) oneWorkerStart
      (lastRequest ++ [.reap 0, .main] ++ List.replicate 3 (.client (.client false)))).map fun s =>
        (s.main, s.late 0, s.rpc.returned.map (·.call))) = some (.returned, 1, [0]) := by
    decide +kernel
  obtain ⟨s, hs, heq⟩ := Option.map_eq_some_iff.mp hrun
  simp only [Prod.mk.injEq] at heq
  have path := Machine.path_of_runOk hs
  exact ⟨s, path, heq, shutdown_orderly Nat.one_pos path⟩

/-- A call that waits for a worker that is gone. -/
structure Abandoned (n : Nat) (s : Site ι Body σ) (i : ι) (r c : Nat) (sent : Body) : Prop where
  wait : s.rpc.client i = .wait r c sent
  sent : s.rpc.status r = .sent
  gone : (s.phase (r % n)).Gone

omit [DecidableEq ι] in
/-- Its worker does not reply. -/
theorem WorkerInv.not_reply {exit reaped : Bool} {phase : Phase} {pc : WorkerPc} {late : Nat}
    (h : WorkerInv exit w phase pc late reaped) (hgone : phase.Gone) (r : Nat) :
    pc ≠ .reply r := by
  rintro rfl
  rcases hgone with rfl | rfl
  · cases h.between (.inr rfl)
  · exact h.died rfl

/-- No step changes that. -/
theorem Abandoned.step {l : SiteLabel ι Body} {r c : Nat} {sent : Body}
    (ab : Abandoned n s i r c sent) (inv : SiteInv ops kind n s) (hkind : kind i = .extension)
    (h : s.step ops kind n l = some s') : Abandoned n s' i r c sent := by
  have hne {w : Nat} (hw : ¬ (s.phase w).Gone) : r % n ≠ w := by
    rintro rfl
    exact hw ab.gone
  cases l with
  | enter j =>
      simp only [Site.step] at h
      split at h <;> cases h
      exact ⟨ab.wait, ab.sent, ab.gone⟩
  | client l =>
      simp only [Site.step, Option.ite_none_right_eq_some, Option.map_eq_some_iff] at h
      obtain ⟨hl, rpc, hstep, rfl⟩ := h
      obtain ⟨j, hj, -⟩ := hl.client
      obtain ⟨hwait, hsent⟩ := wait_kept hj inv.rpc ab.wait ab.sent hkind hstep
      exact ⟨hwait, hsent, ab.gone⟩
  | worker w =>
      cases hphase : s.phase w with
      | serving =>
          have hother : r % n ≠ w := hne (by rw [hphase]; decide)
          simp only [Site.step, hphase] at h
          obtain ⟨rpc, hstep, rfl⟩ := Option.map_eq_some_iff.mp h
          obtain ⟨-, hmove⟩ := workerStep_of_step hstep
          obtain ⟨pc, hpc⟩ := workerStep_moves hmove
          refine ⟨?_, ?_, ?_⟩
          · show rpc.client i = _
            rw [hpc.client]
            exact ab.wait
          · rcases hpc.status r with hst | hreply
            · exact hst.trans ab.sent
            · exact absurd (inv.rpc.busy w r (.inr hreply)).1.symm hother
          · dsimp only
            split
            · rw [Function.update_of_ne hother]
              exact ab.gone
            · exact ab.gone
      | testing =>
          have hother : r % n ≠ w := hne (by rw [hphase]; decide)
          simp only [Site.step, hphase, Option.some.injEq] at h
          subst h
          refine ⟨ab.wait, ab.sent, ?_⟩
          dsimp only
          rw [Function.update_of_ne hother]
          exact ab.gone
      | ended | died =>
          simp only [Site.step, hphase] at h
          cases h
  | fatal w =>
      simp only [Site.step] at h
      split at h
      next r' hphase hpc =>
        have hother : r % n ≠ w := hne (by rw [hphase]; decide)
        simp only [Option.ite_none_right_eq_some, Option.some.injEq] at h
        obtain ⟨-, rfl⟩ := h
        refine ⟨ab.wait, ab.sent, ?_⟩
        dsimp only
        rw [Function.update_of_ne hother]
        exact ab.gone
      next => cases h
  | main =>
      simp only [Site.step] at h
      split at h
      next =>
        simp only [Option.ite_none_right_eq_some, Option.some.injEq] at h
        obtain ⟨-, rfl⟩ := h
        exact ⟨ab.wait, ab.sent, ab.gone⟩
      next =>
        cases h
        exact ⟨ab.wait, ab.sent, ab.gone⟩
      next =>
        simp only [Option.ite_none_right_eq_some, Option.some.injEq] at h
        obtain ⟨-, rfl⟩ := h
        exact ⟨ab.wait, ab.sent, ab.gone⟩
      next => cases h
  | reap w =>
      simp only [Site.step, Option.ite_none_right_eq_some] at h
      obtain ⟨-, h⟩ := h
      split at h <;> cases h <;> exact ⟨ab.wait, ab.sent, ab.gone⟩
  | signal =>
      cases h
      exact ⟨ab.wait, ab.sent, ab.gone⟩

/-- A call of the extension that is sent to a worker that is gone is never handled, and its
client never gets beyond the wait for `DONE`. -/
theorem abandoned_call_waits {tee : σ}
    (path : Machine.Path (Site.step ops kind n) (Site.Safe n) (Site.start ops tee) s)
    (later : Machine.Path (Site.step ops kind n) (Site.Safe n) s s') {r c : Nat} {sent : Body}
    (hkind : kind i = .extension) (ab : Abandoned n s i r c sent) :
    s'.rpc.client i = .wait r c sent ∧ Unhandled s'.rpc.handled c := by
  have hboth : SiteInv ops kind n s' ∧ Abandoned n s' i r c sent :=
    later.invariant (I := fun s => SiteInv ops kind n s ∧ Abandoned n s i r c sent)
      ⟨SiteInv.of_path path, ab⟩
      fun _ _ _ both safe h => ⟨both.1.step safe h, both.2.step both.1 hkind h⟩
  obtain ⟨inv, ab'⟩ := hboth
  refine ⟨ab'.wait, ?_⟩
  rcases inv.waits ab'.wait ((inv.worker _).not_reply ab'.gone r) with ⟨-, -, hun⟩ | ⟨hdone, -⟩
  · exact hun
  · cases hdone.symm.trans ab'.sent

/-- The second client sends a request after the worker has ended. -/
theorem abandoned_call_waits_lateRequest :
    ∃ s, Machine.Path oneWorker (Site.Safe 1) oneWorkerStart s ∧
      ∃ r c sent, s.rpc.client true = .wait r c sent ∧
        ∀ s', Machine.Path oneWorker (Site.Safe 1) s s' →
          s'.rpc.client true = .wait r c sent ∧ Unhandled s'.rpc.handled c := by
  have hrun : ((Machine.runOk oneWorker (Site.Safe 1) oneWorkerStart
      (lastRequest ++ putSeven true)).map fun s =>
        ((s.rpc.client true).waits?, s.rpc.status 1, s.phase 0)) =
      some (some 1, .sent, .ended) := by
    decide +kernel
  obtain ⟨s, hs, heq⟩ := Option.map_eq_some_iff.mp hrun
  simp only [Prod.mk.injEq] at heq
  obtain ⟨hwaits, hsent, hended⟩ := heq
  have path := Machine.path_of_runOk hs
  obtain ⟨c, sent, hpc⟩ := (SiteInv.of_path path).rpc.eq_wait rfl hwaits
  refine ⟨s, path, 1, c, sent, hpc, fun s' later => ?_⟩
  exact abandoned_call_waits path later rfl ⟨hpc, hsent, .inl hended⟩

end Lifecycle

end Rpc

end Zeno
