import Zeno.Rpc.Progress
import Zeno.Rpc.Lifecycle

/-!
# Who is served first

A worker breaks off its pass with the first request that it has served, and starts again from
its first region.  So regions have priorities.  While a call waits, its worker serves at most
one request from the pass that it is in, and after that only requests in lower regions.  In the
first region of a worker nothing else overtakes it.

There is no bound for the others.  As long as a client with a lower region of the same worker
goes on calling, the worker can serve it every time before it comes to a call above it.
-/

namespace Zeno

namespace Rpc

variable {ι Body σ : Type} {ops : Ops Body σ} {kind : ι → Kind} {n : Nat}
  {s s' : State ι Body σ} {i j : ι} {l : Label ι Body} {r r' w c : Nat} {sent : Body}

/-! ## The place of a worker -/

/-- A worker has not passed a region in its pass, and has not served it. -/
def WorkerPc.Below (r : Nat) : WorkerPc → Prop
  | .scan r' | .test r' | .handle r' => r' ≤ r
  | .reply r' => r' < r

/-- A worker goes on to its next region below. -/
theorem next_below (hmod : r' % n = r % n) (hlt : r' < r) : r' + n ≤ r := by
  have hdvd := (Nat.modEq_iff_dvd' hlt.le).mp hmod
  have := Nat.le_of_dvd (by omega) hdvd
  omega

@[simp] theorem worker_workerGoto (s : State ι Body σ) (w : Nat) (pc : WorkerPc) :
    (s.workerGoto w pc).worker w = pc :=
  Function.update_self ..

/-- A worker stops at a claimed region. -/
theorem workerStep_scan (hpc : s.worker w = .scan r) (hmax : r < maxRegionNum)
    (hbit : Bitmap.test s.bitmap r = true) :
    s.workerStep ops n w = some (s.workerGoto w (.test r)) := by
  simp only [State.workerStep, hpc, if_pos hmax, hbit, if_true]

/-- A call that waits and is not handled is a request. -/
theorem Inv.pending (inv : Inv ops kind n s) (hwait : s.client i = .wait r c sent)
    (hun : Unhandled s.handled c) : s.status r = .sent := by
  rcases (inv.fits_of hwait rfl).2 with ⟨hsent, -⟩ | ⟨-, x, hx, hcall, -⟩
  · exact hsent
  · exact absurd hcall (hun x hx)

/-- A worker that runs `handle_ops` in the region in which a call waits handles the call. -/
theorem ne_of_unhandled (inv : Inv ops kind n s) (hwait : s.client i = .wait r c sent)
    (hpc : s.worker w = .handle r') (h : s.workerStep ops n w = some s')
    (hun : Unhandled s'.handled c) : r' ≠ r := by
  rintro rfl
  obtain ⟨htag, -⟩ := inv.fits_of hwait rfl
  have hwritten := (inv.written hpc (.inl hwait) (congrArg Pc.region? hwait)).2
  have hcommand : 0 < ops.reqType (s.body r') := by
    rw [show s.body r' = sent from hwritten.body]
    exact hwritten.command
  simp only [State.workerStep, hpc, if_pos hcommand] at h
  obtain ⟨out, -, rfl⟩ := Option.map_eq_some_iff.mp h
  exact hun _ List.mem_cons_self htag

/-- The worker of a region in which a call waits does not leave it behind. -/
theorem below_step (inv : Inv ops kind n s) (hwait : s.client i = .wait r c sent)
    (hbelow : (s.worker (r % n)).Below r) (h : s.workerStep ops n (r % n) = some s')
    (hlt : r % n < n) (hun : Unhandled s'.handled c) :
    (s'.worker (r % n)).Below r ∧ (s'.handled = s.handled ∨
      ∃ x, x.worker = r % n ∧ x.region < r ∧ s'.handled = x :: s.handled) := by
  obtain ⟨hmax, hbit⟩ := inv.bit i r (congrArg Pc.region? hwait)
  have hserves := inv.serves _ hlt
  cases hpc : s.worker (r % n) with
  | scan r' =>
      rw [hpc] at hbelow hserves
      have hle : r' ≤ r := hbelow
      simp only [State.workerStep, hpc, if_pos (hle.trans_lt hmax)] at h
      split at h
      next =>
        cases h
        exact ⟨by rw [worker_workerGoto]; exact hle, .inl rfl⟩
      next hclear =>
        cases h
        have hne : r' ≠ r := fun heq => hclear (heq ▸ hbit)
        refine ⟨?_, .inl rfl⟩
        rw [worker_workerGoto]
        exact next_below hserves (lt_of_le_of_ne hle hne)
  | test r' =>
      rw [hpc] at hbelow hserves
      have hle : r' ≤ r := hbelow
      simp only [State.workerStep, hpc] at h
      split at h
      next =>
        cases h
        exact ⟨by rw [worker_workerGoto]; exact hle, .inl rfl⟩
      next hstatus =>
        cases h
        have hne : r' ≠ r := fun heq => hstatus (heq ▸ inv.pending hwait hun)
        refine ⟨?_, .inl rfl⟩
        rw [worker_workerGoto]
        exact next_below hserves (lt_of_le_of_ne hle hne)
  | handle r' =>
      rw [hpc] at hbelow
      have hle : r' ≤ r := hbelow
      have hbelow' : r' < r := lt_of_le_of_ne hle (ne_of_unhandled inv hwait hpc h hun)
      obtain ⟨pc, hmoves⟩ := workerStep_moves h
      rw [hmoves.worker, Function.update_self, hmoves.handles r' hpc]
      refine ⟨hbelow', ?_⟩
      rcases hmoves.handled with hsame | ⟨x, hx, hat, -, -, hlog⟩
      · exact .inl hsame
      · cases hat.symm.trans hpc
        exact .inr ⟨x, hx, hbelow', hlog⟩
  | reply r' =>
      simp only [State.workerStep, hpc, Option.some.injEq] at h
      subst h
      refine ⟨?_, .inl rfl⟩
      rw [worker_workerGoto]
      exact Nat.mod_le r n

variable [DecidableEq ι]

theorem step_handled (h : s.step ops kind n l = some s') :
    s'.handled = s.handled ∨ ∃ x, s'.handled = x :: s.handled := by
  cases l with
  | worker w =>
      obtain ⟨pc, hpc⟩ := workerStep_moves (workerStep_of_step h).2
      rcases hpc.handled with hsame | ⟨x, -, -, -, -, hlog⟩
      · exact .inl hsame
      · exact .inr ⟨x, hlog⟩
  | client i | call i _ | giveUp i | timeout i | exit i =>
      exact .inl (step_clientMoves rfl h).handled

/-- What a step does to a worker and to its part of the log. -/
theorem step_worker (w : Nat) (h : s.step ops kind n l = some s') :
    (w < n ∧ s.workerStep ops n w = some s') ∨
      s'.worker w = s.worker w ∧ ∃ new, s'.handled = new ++ s.handled ∧
        new.filter (·.worker = w) = [] := by
  cases l with
  | worker w' =>
      obtain ⟨hlt, hmove⟩ := workerStep_of_step h
      rcases eq_or_ne w w' with rfl | hne
      · exact .inl ⟨hlt, hmove⟩
      · obtain ⟨pc, hpc⟩ := workerStep_moves hmove
        refine .inr ⟨?_, ?_⟩
        · rw [hpc.worker, Function.update_of_ne hne]
        · rcases hpc.handled with hsame | ⟨x, hx, -, -, -, hlog⟩
          · exact ⟨[], hsame, rfl⟩
          · refine ⟨[x], hlog, ?_⟩
            rw [List.filter_singleton, hx, decide_eq_false hne.symm]
            rfl
  | client i | call i _ | giveUp i | timeout i | exit i =>
      have hmoves := step_clientMoves rfl h
      exact .inr ⟨congrFun hmoves.worker w, [], hmoves.handled, rfl⟩

theorem unhandled_of_step (h : s.step ops kind n l = some s') (hun : Unhandled s'.handled c) :
    Unhandled s.handled c := by
  rcases step_handled h with hsame | ⟨x, hlog⟩
  · exact hsame ▸ hun
  · exact fun y hy => hun y (hlog ▸ List.mem_cons_of_mem _ hy)

/-! ## While a call waits -/

/-- A call waits, and what its worker has served since. -/
structure Overtaken (n : Nat) (s t : State ι Body σ) (i : ι) (r c : Nat) (sent : Body) : Prop where
  /-- It still waits. -/
  wait : t.client i = .wait r c sent
  /-- The worker has served nothing, or one request that it replies to, or it is below. -/
  served : ∃ new, t.handled = new ++ s.handled ∧
    (∀ x ∈ (new.filter (·.worker = r % n)).dropLast, x.region < r) ∧
    (new.filter (·.worker = r % n) = [] ∨
      (∃ x r', new.filter (·.worker = r % n) = [x] ∧ t.worker (r % n) = .reply r') ∨
      (t.worker (r % n)).Below r)

omit [DecidableEq ι] in
/-- One more request in a lower region. -/
theorem lower_cons {x : Handled Body} {xs : List (Handled Body)} (hx : x.region < r)
    (hxs : ∀ y ∈ xs.dropLast, y.region < r) : ∀ y ∈ (x :: xs).dropLast, y.region < r := by
  intro y hy
  cases xs with
  | nil => exact absurd hy List.not_mem_nil
  | cons z zs =>
      rw [List.dropLast_cons_cons] at hy
      rcases List.mem_cons.mp hy with rfl | hy
      · exact hx
      · exact hxs y hy

theorem Overtaken.step {t t' : State ι Body σ} (inv : Inv ops kind n t)
    (overtaken : Overtaken n s t i r c sent) (hkind : kind i = .extension)
    (h : t.step ops kind n l = some t') (hun : Unhandled t'.handled c) :
    Overtaken n s t' i r c sent := by
  have hsent := inv.pending overtaken.wait (unhandled_of_step h hun)
  obtain ⟨new, hnew, hlower, hplace⟩ := overtaken.served
  have hwait : t'.client i = .wait r c sent := by
    cases l with
    | worker w' =>
        rw [workerStep_client (workerStep_of_step h).2]
        exact overtaken.wait
    | client j | call j _ | giveUp j | timeout j | exit j =>
        exact (wait_kept rfl inv overtaken.wait hsent hkind h).1
  refine ⟨hwait, ?_⟩
  rcases step_worker (r % n) h with ⟨hlt, hmove⟩ | ⟨hpc, more, hmore, hnone⟩
  · rcases hplace with hempty | ⟨x, r', hone, hreply⟩ | hbelow
    · -- nothing served yet: the first request may be anywhere
      obtain ⟨pc, hpc⟩ := workerStep_moves hmove
      rcases hpc.handled with hsame | ⟨x, hx, -, -, hpcx, hlog⟩
      · exact ⟨new, hsame.trans hnew, hlower, .inl hempty⟩
      · have hfilter : (x :: new).filter (·.worker = r % n) = [x] := by
          rw [List.filter_cons_of_pos (by simp [hx]), hempty]
        refine ⟨x :: new, by rw [hlog, hnew]; rfl, ?_, .inr (.inl ⟨x, ?_⟩)⟩
        · rw [hfilter]
          exact fun y hy => absurd hy List.not_mem_nil
        · exact ⟨x.region, hfilter, by rw [hpc.worker, Function.update_self, hpcx]⟩
    · -- it replies, and starts again
      simp only [State.workerStep, hreply, Option.some.injEq] at hmove
      subst hmove
      refine ⟨new, hnew, hlower, .inr (.inr ?_)⟩
      rw [worker_workerGoto]
      exact Nat.mod_le r n
    · obtain ⟨hbelow', hsame | ⟨x, hx, hregion, hlog⟩⟩ :=
        below_step inv overtaken.wait hbelow hmove hlt hun
      · exact ⟨new, hsame.trans hnew, hlower, .inr (.inr hbelow')⟩
      · have hfilter : (x :: new).filter (·.worker = r % n) =
            x :: new.filter (·.worker = r % n) := List.filter_cons_of_pos (by simp [hx])
        refine ⟨x :: new, by rw [hlog, hnew]; rfl, ?_, .inr (.inr hbelow')⟩
        rw [hfilter]
        exact lower_cons hregion hlower
  · have hfilter : (more ++ new).filter (·.worker = r % n) = new.filter (·.worker = r % n) := by
      rw [List.filter_append, hnone, List.nil_append]
    refine ⟨more ++ new, by rw [hmore, hnew, List.append_assoc], ?_, ?_⟩
    · rw [hfilter]
      exact hlower
    · rw [hfilter, hpc]
      exact hplace

/-- In every run while a call of the extension waits, its worker serves at most one request of
the pass that it was in, and then none but in lower regions.  In the first region of a worker
a call is overtaken by at most one. -/
theorem overtaken_from_below {tee : σ}
    (before : Machine.Path (State.step ops kind n) (SafeTimeout n) (State.start ops tee) s)
    (since : Machine.Path (State.step ops kind n) (SafeTimeout n) s s')
    (hkind : kind i = .extension) (hwait : s.client i = .wait r c sent)
    (hun : Unhandled s'.handled c) :
    ∃ new, s'.handled = new ++ s.handled ∧
      (∀ x ∈ (new.filter (·.worker = r % n)).dropLast, x.region < r) ∧
      (r < n → (new.filter (·.worker = r % n)).length ≤ 1) := by
  have hover : Inv ops kind n s' ∧ (Unhandled s'.handled c → Overtaken n s s' i r c sent) := by
    refine since.invariant
      (I := fun t => Inv ops kind n t ∧ (Unhandled t.handled c → Overtaken n s t i r c sent))
      ⟨inv_of_path before, fun _ => ?_⟩ fun t l t' ih safe h => ⟨ih.1.step safe h, fun hun => ?_⟩
    · exact ⟨hwait, [], rfl, fun _ h => absurd h List.not_mem_nil, .inl rfl⟩
    · exact (ih.2 (unhandled_of_step h hun)).step ih.1 hkind h hun
  obtain ⟨new, hnew, hlower, -⟩ := (hover.2 hun).served
  refine ⟨new, hnew, hlower, fun hfirst => ?_⟩
  -- a lower region of the same worker there is not
  have hnone : (new.filter (·.worker = r % n)).dropLast = [] := by
    refine List.eq_nil_iff_forall_not_mem.mpr fun x hx => ?_
    have hmem := List.mem_filter.mp (List.mem_of_mem_dropLast hx)
    have hran := (hover.1.log.ran x (hnew ▸ List.mem_append_left _ hmem.1)).1
    have hsame : x.worker = r % n := of_decide_eq_true hmem.2
    have hlt := hlower x hx
    rw [hran, Nat.mod_eq_of_lt hfirst, Nat.mod_eq_of_lt (hlt.trans hfirst)] at hsame
    omega
  have hlen := congrArg List.length hnone
  rw [List.length_dropLast, List.length_nil] at hlen
  omega

/-- Two clients of the extension, and one worker. -/
def oneForTwo : State Bool Message Server → Label Bool Message →
    Option (State Bool Message Server) :=
  State.step (serverOps .trivial .plain) (fun _ => .extension) 1

/-- The start of it. -/
def oneForTwoStart : State Bool Message Server := State.start (serverOps .trivial .plain) .new

/-- A request that the worker handles in every state. -/
def encryptSeven : Message := .of (.enc .int [7, 0, 0, 0])

/-- Both claim a region, and the second sends a request. -/
def secondWaits : List (Label Bool Message) :=
  List.replicate 4 (.client false) ++ List.replicate 5 (.client true) ++
    [.call true encryptSeven, .client true]

/-- The worker is at the request of the second client, and the first sends one. -/
def firstWaits : List (Label Bool Message) :=
  secondWaits ++ List.replicate 4 (.worker 0) ++ [.call false encryptSeven, .client false]

/-- The first client sends a request, the worker serves it and the call returns. -/
def firstServed : List (Label Bool Message) :=
  [.call false encryptSeven, .client false] ++ List.replicate 4 (.worker 0) ++
    List.replicate 3 (.client false)

/-- The steps of a list are a run to a state in which a call waits. -/
theorem path_waits (ls : List (Label Bool Message)) (i : Bool) {r c : Nat}
    (hrun : ((Machine.runOk oneForTwo (SafeTimeout 1) oneForTwoStart ls).map fun s =>
      ((s.client i).waits?, (s.client i).call?)) = some (some r, some c)) :
    ∃ s, Machine.Path oneForTwo (SafeTimeout 1) oneForTwoStart s ∧
      Machine.runOk oneForTwo (SafeTimeout 1) oneForTwoStart ls = some s ∧
      ∃ sent, s.client i = .wait r c sent := by
  obtain ⟨s, hs, heq⟩ := Option.map_eq_some_iff.mp hrun
  obtain ⟨hwaits, hcall⟩ := Prod.mk.inj heq
  have path := Machine.path_of_runOk hs
  obtain ⟨c', sent, hpc⟩ := (inv_of_path path).eq_wait rfl hwaits
  obtain rfl : c' = c := Option.some.inj ((congrArg Pc.call? hpc).symm.trans hcall)
  exact ⟨s, path, hs, sent, hpc⟩

theorem path_secondWaits :
    ∃ s, Machine.Path oneForTwo (SafeTimeout 1) oneForTwoStart s ∧
      Machine.runOk oneForTwo (SafeTimeout 1) oneForTwoStart secondWaits = some s ∧
      ∃ sent, s.client true = .wait 1 0 sent :=
  path_waits secondWaits true (by decide +kernel)

/-- And then on, to a state with a log. -/
theorem path_served {s : State Bool Message Server} {ls : List (Label Bool Message)}
    (more : List (Label Bool Message)) (log : List (Nat × Option Nat))
    (hs : Machine.runOk oneForTwo (SafeTimeout 1) oneForTwoStart ls = some s)
    (hrun : ((Machine.runOk oneForTwo (SafeTimeout 1) oneForTwoStart ls).bind fun s =>
      (Machine.runOk oneForTwo (SafeTimeout 1) s more).map fun s =>
        s.handled.map fun x => (x.region, x.call)) = some log) :
    ∃ s', Machine.Path oneForTwo (SafeTimeout 1) s s' ∧
      s'.handled.map (fun x => (x.region, x.call)) = log ∧
      ∀ c, some c ∉ log.map Prod.snd → Unhandled s'.handled c := by
  rw [hs, Option.bind_some] at hrun
  obtain ⟨s', hs', hlog⟩ := Option.map_eq_some_iff.mp hrun
  refine ⟨s', Machine.path_of_runOk hs', hlog, fun c hc x hx hcall => hc ?_⟩
  rw [← hlog, List.map_map, ← hcall]
  exact List.mem_map_of_mem hx

/-- While the call in the second region waits, the first client is served twice.  While a call in
the first region waits, the worker serves the one that it was at. -/
theorem overtaken_from_below_twice :
    (∃ s s', Machine.Path oneForTwo (SafeTimeout 1) oneForTwoStart s ∧
      Machine.Path oneForTwo (SafeTimeout 1) s s' ∧
      s'.handled.map (fun x => (x.region, x.call)) = [(0, some 2), (0, some 1)] ∧
      ∃ new, s'.handled = new ++ s.handled ∧
        ∀ x ∈ (new.filter (·.worker = 1 % 1)).dropLast, x.region < 1) ∧
    ∃ s s', Machine.Path oneForTwo (SafeTimeout 1) oneForTwoStart s ∧
      Machine.Path oneForTwo (SafeTimeout 1) s s' ∧
      s'.handled.map (fun x => (x.region, x.call)) = [(1, some 0)] ∧
      ∃ new, s'.handled = new ++ s.handled ∧ (new.filter (·.worker = 0 % 1)).length ≤ 1 := by
  constructor
  · obtain ⟨s, path, hs, sent, hpc⟩ := path_secondWaits
    obtain ⟨s', since, hlog, hun⟩ := path_served (firstServed ++ firstServed)
      [(0, some 2), (0, some 1)] hs (by decide +kernel)
    obtain ⟨new, hnew, hlower, -⟩ :=
      overtaken_from_below path since rfl hpc (hun 0 (by decide))
    exact ⟨s, s', path, since, hlog, new, hnew, hlower⟩
  · obtain ⟨s, path, hs, sent, hpc⟩ :=
      path_waits firstWaits false (r := 0) (c := 1) (by decide +kernel)
    obtain ⟨s', since, hlog, hun⟩ := path_served [.worker 0] [(1, some 0)] hs (by decide +kernel)
    obtain ⟨new, hnew, -, hfirst⟩ :=
      overtaken_from_below path since rfl hpc (hun 1 (by decide))
    exact ⟨s, s', path, since, hlog, new, hnew, hfirst Nat.one_pos⟩

/-! ## Without end -/

/-- A worker passes a region that has no request. -/
theorem exists_skipped (kind : ι → Kind) (hlt : w < n) (hpc : s.worker w = .scan r)
    (hmax : r < maxRegionNum) (hnone : s.status r ≠ .sent) :
    ∃ s', Works ops kind n w s s' ∧ s'.worker w = .scan (r + n) ∧ s'.status = s.status ∧
      s'.body = s.body := by
  cases hbit : Bitmap.test s.bitmap r with
  | false =>
      have hstep : s.workerStep ops n w = some (s.workerGoto w (.scan (r + n))) := by
        simp only [State.workerStep, hpc, if_pos hmax, hbit, Bool.false_eq_true, if_false]
      exact ⟨_, works_step kind hlt hstep, worker_workerGoto .., rfl, rfl⟩
  | true =>
      have htest : s.workerStep ops n w = some (s.workerGoto w (.test r)) :=
        workerStep_scan hpc hmax hbit
      have hstep : (s.workerGoto w (.test r)).workerStep ops n w =
          some ((s.workerGoto w (.test r)).workerGoto w (.scan (r + n))) := by
        simp only [State.workerStep, worker_workerGoto]
        exact if_neg hnone
      exact ⟨_, (works_step kind hlt htest).trans (works_step kind hlt hstep),
        worker_workerGoto .., rfl, rfl⟩

/-- A worker serves the request in the region that it is at, if no check ends it. -/
theorem exists_served_here (kind : ι → Kind) (hlt : w < n) (hpc : s.worker w = .scan r)
    (hmax : r < maxRegionNum) (hbit : Bitmap.test s.bitmap r = true) (hsent : s.status r = .sent)
    (hrun : (ops.handleOps w s.tee (s.body r)).isSome) :
    ∃ s', Works ops kind n w s s' ∧ s'.worker w = .scan w ∧
      s'.status = Function.update s.status r .done := by
  have hscan : s.workerStep ops n w = some (s.workerGoto w (.test r)) :=
    workerStep_scan hpc hmax hbit
  have htest : (s.workerGoto w (.test r)).workerStep ops n w =
      some ((s.workerGoto w (.test r)).workerGoto w (.handle r)) := by
    simp only [State.workerStep, worker_workerGoto]
    exact if_pos hsent
  have hfound := (works_step kind hlt hscan).trans (works_step kind hlt htest)
  obtain ⟨s₁, hhandle, hpc₁, hstatus₁⟩ : ∃ s₁ : State ι Body σ,
      ((s.workerGoto w (.test r)).workerGoto w (.handle r)).workerStep ops n w = some s₁ ∧
        s₁.worker w = .reply r ∧ s₁.status = s.status := by
    obtain ⟨⟨b, tee⟩, hout⟩ := Option.isSome_iff_exists.mp hrun
    simp only [State.workerStep, worker_workerGoto]
    split
    next =>
      refine ⟨_, congrArg (Option.map _) hout, ?_, rfl⟩
      exact worker_workerGoto ..
    next => exact ⟨_, rfl, worker_workerGoto .., rfl⟩
  have hreply : s₁.workerStep ops n w = some ((s₁.setStatus r .done).workerGoto w (.scan w)) := by
    simp only [State.workerStep, hpc₁]
  refine ⟨_, (hfound.trans (works_step kind hlt hhandle)).trans (works_step kind hlt hreply),
    worker_workerGoto .., ?_⟩
  show Function.update s₁.status r .done = _
  rw [hstatus₁]

/-- From below, a worker comes to the lowest of its requests and serves it. -/
theorem exists_served_below {s : State ι Body σ} {r₀ : Nat} (inv : Inv ops kind n s) (hn : 0 < n)
    (held : (s.client i).region? = some r) (hsent : s.status r = .sent)
    (hrun : ∀ t, (ops.handleOps (r % n) t (s.body r)).isSome)
    (hnone : ∀ q < r, q % n = r % n → s.status q ≠ .sent)
    (hpc : s.worker (r % n) = .scan r₀) (hle : r₀ ≤ r) :
    ∃ s', Works ops kind n (r % n) s s' ∧ s'.worker (r % n) = .scan (r % n) ∧
      s'.status = Function.update s.status r .done := by
  have hlt := Nat.mod_lt r hn
  obtain ⟨hmax, hbit⟩ := inv.bit i r held
  rcases eq_or_ne r₀ r with rfl | hne
  · exact exists_served_here kind hlt hpc hmax hbit hsent (hrun _)
  · have hbelow : r₀ < r := lt_of_le_of_ne hle hne
    have hmod : r₀ % n = r % n := by
      have hserves := inv.serves _ hlt
      rw [hpc] at hserves
      exact hserves
    obtain ⟨s₁, works, hscan, hstatus, hbody⟩ :=
      exists_skipped kind hlt hpc (hbelow.trans hmax) (hnone r₀ hbelow hmod)
    obtain ⟨s', works', hscan', hdone⟩ := exists_served_below (inv.works works) hn
      (by rw [works_client works]; exact held) (by rw [hstatus]; exact hsent)
      (by rw [hbody]; exact hrun) (by rw [hstatus]; exact hnone) hscan (next_below hmod hbelow)
    refine ⟨s', works.trans works', hscan', ?_⟩
    rw [hdone, hstatus]
termination_by r - r₀

theorem works_returned (h : Works ops kind n w s s') : s'.returned = s.returned := by
  refine h.invariant (I := fun t => t.returned = s.returned) rfl fun a l b ha hl hstep => ?_
  subst hl
  obtain ⟨pc, hpc⟩ := workerStep_moves (workerStep_of_step hstep).2
  exact hpc.returned.trans ha

/-- A client between its calls sends a request. -/
theorem exists_called {b : Body} (hpc : s.client j = .idle r) (hkind : kind j = .extension)
    (hcmd : 0 < ops.reqType b) :
    ∃ s', Machine.Path (State.step ops kind n) (SafeTimeout n) s s' ∧
      s'.client = Function.update s.client j (.wait r s.calls b) ∧
      s'.status = Function.update s.status r .sent ∧ s'.body = Function.update s.body r b ∧
      s'.worker = s.worker ∧ s'.returned = s.returned := by
  let s₁ : State ι Body σ :=
    { (s.setBody r b (some s.calls)).goto j (.send r s.calls b) with calls := s.calls + 1 }
  have hcall : s.step ops kind n (.call j b) = some s₁ := by
    simp only [State.step, hpc, if_pos hcmd, hkind]
    rfl
  have hpc₁ : s₁.client j = .send r s.calls b := Function.update_self ..
  have hsafe : SafeTimeout n s₁ (.client j) := by simp only [SafeTimeout, hpc₁]
  have hsend : s₁.step ops kind n (.client j) =
      some ((s₁.setStatus r .sent).goto j (.wait r s.calls b)) := by
    simp only [State.step, State.clientStep, hpc₁]
  refine ⟨_, .tail (.single ⟨.call j b, trivial, hcall⟩) ⟨_, hsafe, hsend⟩, ?_, rfl, rfl, rfl,
    rfl⟩
  exact Function.update_idem ..

/-- A client whose call is answered returns from it. -/
theorem exists_returned {b : Body} (hpc : s.client j = .wait r c b) (hkind : kind j = .extension)
    (hdone : s.status r = .done) :
    ∃ s', Machine.Path (State.step ops kind n) (SafeTimeout n) s s' ∧
      s'.client = Function.update s.client j (.idle r) ∧
      s'.status = Function.update s.status r .none ∧ s'.worker = s.worker ∧
      s'.returned = ⟨j, r, c, b, s.body r⟩ :: s.returned := by
  let s₁ := s.goto j (.copy r c b)
  have hseen : s.step ops kind n (.client j) = some s₁ := by
    simp only [State.step, State.clientStep, hpc, hdone, if_true, hkind]
    rfl
  have hpc₁ : s₁.client j = .copy r c b := Function.update_self ..
  let s₂ := s₁.goto j (.finish r c b (s.body r))
  have hcopied : s₁.step ops kind n (.client j) = some s₂ := by
    simp only [State.step, State.clientStep, hpc₁]
    rfl
  have hpc₂ : s₂.client j = .finish r c b (s.body r) := Function.update_self ..
  let s₃ : State ι Body σ := { (s₂.setStatus r .none).goto j (.idle r) with
    returned := ⟨j, r, c, b, s.body r⟩ :: s.returned }
  have hfinished : s₂.step ops kind n (.client j) = some s₃ := by
    simp only [State.step, State.clientStep, hpc₂, hkind]
    rfl
  have hsafe : SafeTimeout n s (.client j) := by simp only [SafeTimeout, hpc]
  have hsafe₁ : SafeTimeout n s₁ (.client j) := by simp only [SafeTimeout, hpc₁]
  have hsafe₂ : SafeTimeout n s₂ (.client j) := by simp only [SafeTimeout, hpc₂]
  refine ⟨s₃, .tail (.tail (.single ⟨_, hsafe, hseen⟩) ⟨_, hsafe₁, hcopied⟩)
    ⟨_, hsafe₂, hfinished⟩, ?_, rfl, rfl, rfl⟩
  show Function.update (Function.update (Function.update _ _ _) _ _) _ _ = _
  rw [Function.update_idem, Function.update_idem]

/-- A call waits in a region, its worker begins a pass, and another client has a lower region.
In the lower regions there is no request. -/
structure Crowded (n : Nat) (s : State ι Body σ) (i : ι) (r c : Nat) (sent : Body) (j : ι)
    (r' : Nat) : Prop where
  wait : s.client i = .wait r c sent
  sent : s.status r = .sent
  scan : s.worker (r % n) = .scan (r % n)
  idle : s.client j = .idle r'
  lower : r' < r
  same : r' % n = r % n
  alone : ∀ q < r', q % n = r % n → s.status q ≠ .sent

/-- The other client calls, and the call returns. -/
theorem Crowded.round {b : Body} (crowded : Crowded n s i r c sent j r') (inv : Inv ops kind n s)
    (hn : 0 < n) (hkind : kind j = .extension) (hcmd : 0 < ops.reqType b)
    (hrun : ∀ t, (ops.handleOps (r % n) t b).isSome) :
    ∃ s' x, Machine.Path (State.step ops kind n) (SafeTimeout n) s s' ∧
      Crowded n s' i r c sent j r' ∧ s'.returned = x :: s.returned ∧
      x.client = j ∧ x.region = r' ∧ x.sent = b := by
  have hne : i ≠ j := by
    rintro rfl
    cases crowded.wait.symm.trans crowded.idle
  obtain ⟨s₁, path₁, hclient₁, hstatus₁, hbody₁, hworker₁, hreturned₁⟩ :=
    exists_called (n := n) crowded.idle hkind hcmd
  have inv₁ : Inv ops kind n s₁ :=
    path₁.invariant (I := Inv ops kind n) inv fun _ _ _ inv safe h => inv.step safe h
  have hpc₁ : s₁.client j = .wait r' s.calls b := by rw [hclient₁, Function.update_self]
  obtain ⟨s₂, works, hscan, hstatus₂⟩ := exists_served_below (r := r') inv₁ hn
    (congrArg Pc.region? hpc₁) (by rw [hstatus₁, Function.update_self])
    (by rw [hbody₁, Function.update_self, crowded.same]; exact hrun)
    (fun q hq hmod => by
      rw [hstatus₁, Function.update_of_ne hq.ne]
      exact crowded.alone q hq (hmod.trans crowded.same))
    (by rw [hworker₁, crowded.same]; exact crowded.scan)
    (by rw [← crowded.same]; exact Nat.mod_le r' n)
  have path₂ := path₁.trans (works.mono fun _ l hl => by rw [hl]; trivial)
  have hpc₂ : s₂.client j = .wait r' s.calls b := by rw [works_client works]; exact hpc₁
  obtain ⟨s₃, path₃, hclient₃, hstatus₃, hworker₃, hreturned₃⟩ :=
    exists_returned (n := n) hpc₂ hkind (by rw [hstatus₂, Function.update_self])
  have hstatus (q : Nat) (hq : q ≠ r') : s₃.status q = s.status q := by
    rw [hstatus₃, Function.update_of_ne hq, hstatus₂, Function.update_of_ne hq, hstatus₁,
      Function.update_of_ne hq]
  refine ⟨s₃, ⟨j, r', s.calls, b, s₂.body r'⟩, path₂.trans path₃,
    ⟨?_, ?_, ?_, ?_, crowded.lower, crowded.same, ?_⟩, ?_, rfl, rfl, rfl⟩
  · rw [hclient₃, Function.update_of_ne hne, works_client works, hclient₁,
      Function.update_of_ne hne]
    exact crowded.wait
  · rw [hstatus r crowded.lower.ne']
    exact crowded.sent
  · rw [hworker₃, ← crowded.same]
    exact hscan
  · rw [hclient₃, Function.update_self]
  · intro q hq hmod
    rw [hstatus q hq.ne]
    exact crowded.alone q hq hmod
  · rw [hreturned₃, works_returned works, hreturned₁]

/-- However often a client with a lower region of the same worker calls, all of its calls may be
handled and return before a call that has waited all the time is handled. -/
theorem overtaken_forever {tee : σ} {b : Body}
    (path : Machine.Path (State.step ops kind n) (SafeTimeout n) (State.start ops tee) s)
    (crowded : Crowded n s i r c sent j r') (hn : 0 < n) (hkind : kind j = .extension)
    (hcmd : 0 < ops.reqType b) (hrun : ∀ t, (ops.handleOps (r % n) t b).isSome) (k : Nat) :
    ∃ s', Machine.Path (State.step ops kind n) (SafeTimeout n) s s' ∧
      s'.client i = .wait r c sent ∧ Unhandled s'.handled c ∧
      ∃ new, s'.returned = new ++ s.returned ∧ new.length = k ∧
        ∀ x ∈ new, x.client = j ∧ x.region = r' ∧ x.sent = b ∧
          Answered s'.handled r' x.call b x.got := by
  have inv_since {s' : State ι Body σ}
      (since : Machine.Path (State.step ops kind n) (SafeTimeout n) s s') : Inv ops kind n s' :=
    inv_of_path (path.trans since)
  have hrounds : ∃ s', Machine.Path (State.step ops kind n) (SafeTimeout n) s s' ∧
      Crowded n s' i r c sent j r' ∧ ∃ new, s'.returned = new ++ s.returned ∧ new.length = k ∧
        ∀ x ∈ new, x.client = j ∧ x.region = r' ∧ x.sent = b := by
    induction k with
    | zero => exact ⟨s, .refl, crowded, [], rfl, rfl, fun x hx => absurd hx List.not_mem_nil⟩
    | succ k ih =>
        obtain ⟨s₁, since, crowded₁, new, hnew, hlen, hown⟩ := ih
        obtain ⟨s₂, x, round, crowded₂, hone, hx⟩ :=
          crowded₁.round (inv_since since) hn hkind hcmd hrun
        refine ⟨s₂, since.trans round, crowded₂, x :: new, ?_, ?_, ?_⟩
        · rw [hone, hnew, List.cons_append]
        · rw [List.length_cons, hlen]
        · exact List.forall_mem_cons.mpr ⟨hx, hown⟩
  obtain ⟨s', since, crowded', new, hnew, hlen, hown⟩ := hrounds
  have inv' := inv_since since
  refine ⟨s', since, crowded'.wait, ?_, new, hnew, hlen, fun x hx => ?_⟩
  · rcases (inv'.fits_of crowded'.wait rfl).2 with ⟨-, -, hwritten⟩ | ⟨hdone | hreply, -⟩
    · exact hwritten.unhandled
    · cases hdone.symm.trans crowded'.sent
    · cases hreply.symm.trans crowded'.scan
  · obtain ⟨hclient, hregion, hsent⟩ := hown x hx
    have hanswered := inv'.returned x (hnew ▸ List.mem_append_left _ hx)
    rw [hregion, hsent] at hanswered
    exact ⟨hclient, hregion, hsent, hanswered⟩

/-- The region of a client that is between its calls. -/
def Pc.idle? {Body : Type} : Pc Body → Option Nat
  | .idle r => some r
  | .claim _ | .cas _ _ | .zero _ | .init _ | .ready _ _ _ | .send _ _ _ | .wait _ _ _
  | .copy _ _ _ | .finish _ _ _ _ | .timedOut _ _ _ | .drain _ | .clear _ | .release _
  | .gone | .failed => none

theorem Pc.eq_idle {Body : Type} {pc : Pc Body} {r : Nat} (h : pc.idle? = some r) :
    pc = .idle r := by
  cases pc with
  | idle r' =>
      cases h
      rfl
  | _ => cases h

/-- The first client calls a hundred times while the second waits. -/
theorem overtaken_forever_hundred :
    ∃ s s' sent, Machine.Path oneForTwo (SafeTimeout 1) oneForTwoStart s ∧
      Machine.Path oneForTwo (SafeTimeout 1) s s' ∧ s'.client true = .wait 1 0 sent ∧
      Unhandled s'.handled 0 ∧
      ∃ new, s'.returned = new ++ s.returned ∧ new.length = 100 ∧
        ∀ x ∈ new, x.client = false ∧ x.region = 0 ∧ x.sent = encryptSeven ∧
          Answered s'.handled 0 x.call encryptSeven x.got := by
  obtain ⟨s, path, hs, sent, hpc⟩ := path_secondWaits
  have hrun : ((Machine.runOk oneForTwo (SafeTimeout 1) oneForTwoStart secondWaits).map fun s =>
      (s.status 1, s.worker 0, (s.client false).idle?)) = some (.sent, .scan 0, some 0) := by
    decide +kernel
  rw [hs, Option.map_some, Option.some.injEq, Prod.mk.injEq, Prod.mk.injEq] at hrun
  obtain ⟨hsent, hscan, hidle⟩ := hrun
  have crowded : Crowded 1 s true 1 0 sent false 0 :=
    ⟨hpc, hsent, hscan, Pc.eq_idle hidle, Nat.one_pos, rfl,
      fun q hq => absurd hq (Nat.not_lt_zero q)⟩
  obtain ⟨s', since, hwait, hun, hcalls⟩ := overtaken_forever (b := encryptSeven) path crowded
    Nat.one_pos rfl (by decide) (fun t => rfl) 100
  exact ⟨s, s', sent, path, since, hwait, hun, hcalls⟩

end Rpc

end Zeno
