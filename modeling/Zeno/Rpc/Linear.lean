import Zeno.Rpc.Wire

/-!
# The calls in one order

Clients and workers interleave in any way, a worker handles one region while clients write
to others, and a region goes from one client to the next.  Seen from the requests, all this
is one server that handles them one after the other (`Linear`): the runs of `handle_ops` so
far, in their order, take the server from its first state to the one it is in, each client
reads the reply of its own request, and a call that had returned before another was made
comes before it.

What a body means is the parameter `Service`: how a client writes a request over whatever
the region held, and how it reads the reply.  The service of the repository is the one on
the bytes of a region (`wireService`).
-/

namespace Zeno

namespace Rpc

/-! ## Services -/

section Service

variable {ι Body σ Req Rep : Type}

/-- The body that a client has written for its call. -/
def Pc.sent? : Pc Body → Option Body
  | .ready _ _ sent | .send _ _ sent | .wait _ _ sent | .copy _ _ sent => some sent
  | .finish _ _ sent _ | .timedOut _ _ sent => some sent
  | _ => none

/-- Requests and replies, and how bodies carry them. -/
structure Service (ops : Ops Body σ) (Req Rep : Type) where
  /-- A worker handles a request. -/
  handle : Nat → σ → Req → Option (Rep × σ)
  /-- A body that can be written to. -/
  WellFormed : Body → Prop
  /-- A client writes a request over a body. -/
  Writes : Req → Body → Body → Prop
  /-- A body carries a request. -/
  Encodes : Req → Body → Prop
  /-- A client reads the reply to its request. -/
  reads : Req → Body → Option Rep
  /-- A region can be written to at first. -/
  zeroed : WellFormed ops.zeroed
  /-- What is written is carried. -/
  written : ∀ {req b b'}, WellFormed b → Writes req b b' → WellFormed b' ∧ Encodes req b'
  /-- What is carried is handled, and the reply is left in the body. -/
  handled : ∀ {req w s b b' s'}, Encodes req b → ops.handleOps w s b = some (b', s') →
    ∃ rep, handle w s req = some (rep, s') ∧ reads req b' = some rep ∧ WellFormed b'

/-- A request that was handled. -/
structure Entry (Req Rep : Type) where
  /-- The worker. -/
  worker : Nat
  /-- The call. -/
  call : Nat
  /-- The request. -/
  req : Req
  /-- The reply. -/
  rep : Rep

variable {ops : Ops Body σ}

namespace Service

/-- The requests of a log, newest first, take the server from one state to another. -/
def Runs (svc : Service ops Req Rep) (start : σ) : List (Entry Req Rep) → σ → Prop
  | [], t => t = start
  | x :: older, t => ∃ u, svc.Runs start older u ∧ svc.handle x.worker u x.req = some (x.rep, t)

/-- A run of `handle_ops` is that of a request. -/
structure Matches (svc : Service ops Req Rep) (h : Handled Body) (x : Entry Req Rep) : Prop where
  worker : h.worker = x.worker
  call : h.call = some x.call
  input : svc.Encodes x.req h.input
  output : svc.reads x.req h.output = some x.rep

/-- The bodies are as the service needs them. -/
structure Carried (svc : Service ops Req Rep) (s : State ι Body σ) : Prop where
  /-- Every region can be written to. -/
  body : ∀ r, svc.WellFormed (s.body r)
  /-- What a client has written carries a request. -/
  sent : ∀ i b, (s.client i).sent? = some b → ∃ req, svc.Encodes req b

/-- The runs of `handle_ops` are those of requests, one after the other. -/
structure Linear (svc : Service ops Req Rep) (start : σ) (s : State ι Body σ)
    (log : List (Entry Req Rep)) : Prop where
  /-- Each run is one request. -/
  runs : List.Forall₂ svc.Matches s.handled log
  /-- Together they have made the server what it is. -/
  state : svc.Runs start log s.tee

/-- A client that calls writes a request. -/
def Calls (svc : Service ops Req Rep) (s : State ι Body σ) : Label ι Body → Prop
  | .call i b => ∀ r, s.client i = .idle r → ∃ req, svc.Writes req (s.body r) b
  | _ => True

end Service

/-! ## What a step does to the bodies -/

/-- A step that writes no request and handles none. -/
structure Quiet (ops : Ops Body σ) (s s' : State ι Body σ) : Prop where
  body : ∀ r, s'.body r = s.body r ∨ s'.body r = ops.zeroed
  sent : ∀ i b, (s'.client i).sent? = some b → (s.client i).sent? = some b
  tee : s'.tee = s.tee
  handled : s'.handled = s.handled

variable {kind : ι → Kind} {n : Nat} {s s' : State ι Body σ} {i : ι} {w : Nat}

theorem Quiet.refl (ops : Ops Body σ) (s : State ι Body σ) : Quiet ops s s :=
  ⟨fun _ => .inl rfl, fun _ _ h => h, rfl, rfl⟩

theorem body_update_zeroed (s : State ι Body σ) (r r' : Nat) :
    Function.update s.body r ops.zeroed r' = s.body r' ∨
      Function.update s.body r ops.zeroed r' = ops.zeroed := by
  rcases eq_or_ne r' r with rfl | hne
  · exact .inr (Function.update_self _ _ _)
  · exact .inl (Function.update_of_ne hne _ _)

/-- A client writes a request. -/
structure WritesTo (s s' : State ι Body σ) (i : ι) (r : Nat) (b : Body) : Prop where
  idle : s.client i = .idle r
  body : s'.body = Function.update s.body r b
  sent : ∀ j b', (s'.client j).sent? = some b' → b' = b ∨ (s.client j).sent? = some b'
  tee : s'.tee = s.tee
  handled : s'.handled = s.handled

/-- A worker runs `handle_ops`. -/
structure HandledAt (ops : Ops Body σ) (s s' : State ι Body σ) (w r : Nat) (b : Body) : Prop where
  at_ : s.worker w = .handle r
  ran : ops.handleOps w s.tee (s.body r) = some (b, s'.tee)
  body : s'.body = Function.update s.body r b
  client : s'.client = s.client
  handled : s'.handled = ⟨w, r, s.tag r, s.body r, b⟩ :: s.handled

theorem workerStep_cases (h : s.workerStep ops n w = some s') :
    Quiet ops s s' ∨ ∃ r b, HandledAt ops s s' w r b := by
  have hquiet (wpc : WorkerPc) : Quiet ops s (s.workerGoto w wpc) :=
    ⟨fun _ => .inl rfl, fun _ _ h => h, rfl, rfl⟩
  cases hpc : s.worker w with
  | scan r =>
      simp only [State.workerStep, hpc] at h
      split at h
      next => split at h <;> cases h <;> exact .inl (hquiet _)
      next =>
        cases h
        exact .inl (hquiet _)
  | test r =>
      simp only [State.workerStep, hpc] at h
      split at h <;> cases h <;> exact .inl (hquiet _)
  | handle r =>
      simp only [State.workerStep, hpc] at h
      split at h
      next =>
        obtain ⟨⟨b, tee⟩, hran, rfl⟩ := Option.map_eq_some_iff.mp h
        exact .inr ⟨r, b, hpc, hran, rfl, rfl, rfl⟩
      next =>
        cases h
        exact .inl (hquiet _)
  | reply r =>
      simp only [State.workerStep, hpc, Option.some.injEq] at h
      subst h
      exact .inl ⟨fun _ => .inl rfl, fun _ _ h => h, rfl, rfl⟩

variable [DecidableEq ι]

/-- A client moves on in its call, or out of it. -/
theorem quiet_goto {pc : Pc Body} (hbody : ∀ r, s'.body r = s.body r ∨ s'.body r = ops.zeroed)
    (hclient : s'.client = Function.update s.client i pc)
    (hsent : ∀ b, pc.sent? = some b → (s.client i).sent? = some b) (htee : s'.tee = s.tee)
    (hhandled : s'.handled = s.handled) : Quiet ops s s' := by
  refine ⟨hbody, ?_, htee, hhandled⟩
  rw [hclient]
  exact Function.forall_update_iff s.client (fun j pc => ∀ b, pc.sent? = some b →
    (s.client j).sent? = some b) |>.mpr ⟨hsent, fun _ _ _ h => h⟩

/-- A client moves where it has sent nothing. -/
theorem quiet_leave {pc : Pc Body} (hbody : ∀ r, s'.body r = s.body r ∨ s'.body r = ops.zeroed)
    (hclient : s'.client = Function.update s.client i pc) (hsent : pc.sent? = none)
    (htee : s'.tee = s.tee) (hhandled : s'.handled = s.handled) : Quiet ops s s' := by
  refine quiet_goto hbody hclient (fun b hb => ?_) htee hhandled
  cases hsent.symm.trans hb

theorem clientStep_quiet (h : s.clientStep ops kind i = some s') : Quiet ops s s' := by
  have hsame (r : Nat) : s.body r = s.body r ∨ s.body r = ops.zeroed := .inl rfl
  cases hpc : s.client i with
  | claim r =>
      simp only [State.clientStep, hpc] at h
      split at h
      next =>
        split at h <;> cases h <;> exact quiet_leave hsame rfl rfl rfl rfl
      next =>
        cases h
        exact quiet_leave hsame rfl rfl rfl rfl
  | cas r old =>
      simp only [State.clientStep, hpc] at h
      split at h <;> cases h <;> exact quiet_leave hsame rfl rfl rfl rfl
  | zero r =>
      simp only [State.clientStep, hpc, Option.some.injEq] at h
      subst h
      refine quiet_leave (body_update_zeroed s r) rfl ?_ rfl rfl
      cases kind i <;> rfl
  | init r | clear r =>
      simp only [State.clientStep, hpc, Option.some.injEq] at h
      subst h
      exact quiet_leave hsame rfl rfl rfl rfl
  | ready r call sent =>
      simp only [State.clientStep, hpc] at h
      split at h <;> cases h
      · exact quiet_goto hsame rfl (fun b hb => (congrArg Pc.sent? hpc).trans hb) rfl rfl
      · exact quiet_leave hsame rfl rfl rfl rfl
  | send r call sent =>
      simp only [State.clientStep, hpc, Option.some.injEq] at h
      subst h
      exact quiet_goto hsame rfl (fun b hb => (congrArg Pc.sent? hpc).trans hb) rfl rfl
  | wait r call sent =>
      simp only [State.clientStep, hpc] at h
      split at h
      next =>
        split at h <;> cases h <;>
          exact quiet_goto hsame rfl (fun b hb => (congrArg Pc.sent? hpc).trans hb) rfl rfl
      next =>
        cases h
        exact .refl ops s
  | copy r call sent =>
      simp only [State.clientStep, hpc, Option.some.injEq] at h
      subst h
      exact quiet_goto hsame rfl (fun b hb => (congrArg Pc.sent? hpc).trans hb) rfl rfl
  | finish r call sent got | timedOut r call sent =>
      simp only [State.clientStep, hpc, Option.some.injEq] at h
      subst h
      exact quiet_leave hsame rfl rfl rfl rfl
  | drain r =>
      simp only [State.clientStep, hpc] at h
      split at h <;> cases h
      · exact .refl ops s
      · exact quiet_leave hsame rfl rfl rfl rfl
  | release r =>
      simp only [State.clientStep, hpc, Option.some.injEq] at h
      subst h
      refine quiet_leave hsame rfl ?_ rfl rfl
      split <;> rfl
  | idle r | gone | failed =>
      simp only [State.clientStep, hpc] at h
      cases h

/-- Every step is one of the three. -/
theorem step_cases {l : Label ι Body} (h : s.step ops kind n l = some s') :
    Quiet ops s s' ∨ (∃ i r b, l = .call i b ∧ WritesTo s s' i r b) ∨
      ∃ w r b, HandledAt ops s s' w r b := by
  have hsame (r : Nat) : s.body r = s.body r ∨ s.body r = ops.zeroed := .inl rfl
  cases l with
  | client i => exact .inl (clientStep_quiet h)
  | call i b =>
      simp only [State.step] at h
      split at h
      next r hpc =>
        simp only [Option.ite_none_right_eq_some, Option.some.injEq] at h
        obtain ⟨-, rfl⟩ := h
        refine .inr (.inl ⟨i, r, b, rfl, hpc, rfl, ?_, rfl, rfl⟩)
        refine Function.forall_update_iff s.client (fun j pc => ∀ b', pc.sent? = some b' →
          b' = b ∨ (s.client j).sent? = some b') |>.mpr ⟨fun b' hb' => ?_, fun _ _ _ h => .inr h⟩
        cases hkind : kind i <;> rw [hkind] at hb' <;> exact .inl (Option.some.inj hb').symm
      next => cases h
  | giveUp i =>
      simp only [State.step] at h
      split at h
      next =>
        split at h <;> cases h
        exact .inl (quiet_leave hsame rfl rfl rfl rfl)
      next => cases h
  | timeout i =>
      simp only [State.step] at h
      split at h
      next r call sent hpc =>
        simp only [Option.ite_none_right_eq_some, Option.some.injEq] at h
        obtain ⟨-, rfl⟩ := h
        exact .inl (quiet_goto hsame rfl (fun b hb => (congrArg Pc.sent? hpc).trans hb) rfl rfl)
      next => cases h
  | exit i =>
      simp only [State.step] at h
      split at h
      next =>
        cases h
        exact .inl (quiet_leave hsame rfl rfl rfl rfl)
      next => cases h
  | worker w =>
      simp only [State.step, Option.ite_none_right_eq_some] at h
      rcases workerStep_cases h.2 with hquiet | ⟨r, b, hhandled⟩
      · exact .inl hquiet
      · exact .inr (.inr ⟨w, r, b, hhandled⟩)

/-! ## Steps and runs -/

namespace Service

variable {svc : Service ops Req Rep} {start : σ} {log : List (Entry Req Rep)} {l : Label ι Body}

omit [DecidableEq ι] in
theorem carried_start (svc : Service ops Req Rep) (tee : σ) :
    svc.Carried (State.start ops tee : State ι Body σ) :=
  ⟨fun _ => svc.zeroed, nofun⟩

omit [DecidableEq ι] in
theorem linear_start (svc : Service ops Req Rep) (tee : σ) :
    svc.Linear tee (State.start ops tee : State ι Body σ) [] :=
  ⟨.nil, rfl⟩

omit [DecidableEq ι] in
/-- A worker at `handle_ops` has the request of a call before it. -/
theorem Carried.request (carried : svc.Carried s) (inv : Inv ops kind n s) {r : Nat}
    (hw : s.worker w = .handle r) :
    ∃ req call, svc.Encodes req (s.body r) ∧ s.tag r = some call := by
  obtain ⟨i, call, sent, hwaits, held⟩ := inv.request (.inl hw)
  obtain ⟨htag, hwritten⟩ := inv.written hw hwaits held
  have hsent : (s.client i).sent? = some sent := by
    rcases hwaits with hpc | hpc <;> rw [hpc] <;> rfl
  obtain ⟨req, hreq⟩ := carried.sent i sent hsent
  refine ⟨req, call, ?_, htag⟩
  rw [show s.body r = sent from hwritten.body]
  exact hreq

/-- One step keeps the bodies as the service needs them. -/
theorem Carried.step (carried : svc.Carried s) (inv : Inv ops kind n s) (calls : svc.Calls s l)
    (h : s.step ops kind n l = some s') : svc.Carried s' := by
  have hwrite {r : Nat} {b : Body} (hb : svc.WellFormed b)
      (hbody : s'.body = Function.update s.body r b) (r' : Nat) : svc.WellFormed (s'.body r') := by
    rw [hbody]
    exact Function.forall_update_iff s.body (fun _ b => svc.WellFormed b) |>.mpr
      ⟨hb, fun r _ => carried.body r⟩ r'
  rcases step_cases h with hquiet | ⟨i, r, b, rfl, hto⟩ | ⟨w, r, b, hat⟩
  · refine ⟨fun r => ?_, fun i b hb => carried.sent i b (hquiet.sent i b hb)⟩
    rcases hquiet.body r with hr | hr <;> rw [hr]
    · exact carried.body r
    · exact svc.zeroed
  · obtain ⟨req, hreq⟩ := calls r hto.idle
    obtain ⟨hformed, hencodes⟩ := svc.written (carried.body r) hreq
    refine ⟨hwrite hformed hto.body, fun j b' hb' => ?_⟩
    rcases hto.sent j b' hb' with rfl | hold
    · exact ⟨req, hencodes⟩
    · exact carried.sent j b' hold
  · obtain ⟨req, call, hreq, -⟩ := carried.request inv hat.at_
    obtain ⟨rep, -, -, hformed⟩ := svc.handled hreq hat.ran
    refine ⟨hwrite hformed hat.body, fun j b' hb' => carried.sent j b' ?_⟩
    rwa [hat.client] at hb'

/-- One step handles one more request, or none. -/
theorem Linear.step (linear : svc.Linear start s log) (carried : svc.Carried s)
    (inv : Inv ops kind n s) (h : s.step ops kind n l = some s') :
    ∃ new, svc.Linear start s' (new ++ log) := by
  rcases step_cases h with hquiet | ⟨i, r, b, rfl, hto⟩ | ⟨w, r, b, hat⟩
  · refine ⟨[], ?_, ?_⟩
    · rw [hquiet.handled]
      exact linear.runs
    · rw [hquiet.tee]
      exact linear.state
  · refine ⟨[], ?_, ?_⟩
    · rw [hto.handled]
      exact linear.runs
    · rw [hto.tee]
      exact linear.state
  · obtain ⟨req, call, hreq, htag⟩ := carried.request inv hat.at_
    obtain ⟨rep, hhandle, hreads, -⟩ := svc.handled hreq hat.ran
    refine ⟨[⟨w, call, req, rep⟩], ?_, s.tee, linear.state, hhandle⟩
    rw [hat.handled]
    exact .cons ⟨rfl, htag, hreq, hreads⟩ linear.runs

/-- The guard of the runs: no call is taken back from a worker, and who calls writes a request. -/
def Guard (svc : Service ops Req Rep) (n : Nat) (s : State ι Body σ) (l : Label ι Body) : Prop :=
  SafeTimeout n s l ∧ svc.Calls s l

/-- What every state of a run has. -/
structure Sound (svc : Service ops Req Rep) (kind : ι → Kind) (n : Nat) (s : State ι Body σ) :
    Prop where
  inv : Inv ops kind n s
  carried : svc.Carried s

theorem Sound.step (sound : svc.Sound kind n s) (guard : svc.Guard n s l)
    (h : s.step ops kind n l = some s') : svc.Sound kind n s' :=
  ⟨sound.inv.step guard.1 h, sound.carried.step sound.inv guard.2 h⟩

/-- A run handles more requests after those that were handled. -/
theorem Linear.path (linear : svc.Linear start s log) (sound : svc.Sound kind n s)
    (path : Machine.Path (State.step ops kind n) (svc.Guard n) s s') :
    svc.Sound kind n s' ∧ ∃ new, svc.Linear start s' (new ++ log) := by
  induction path with
  | refl => exact ⟨sound, [], linear⟩
  | tail _ hstep ih =>
      obtain ⟨l, guard, hs⟩ := hstep
      obtain ⟨sound', new, linear'⟩ := ih
      obtain ⟨more, linear''⟩ := linear'.step sound'.carried sound'.inv hs
      refine ⟨sound'.step guard hs, more ++ new, ?_⟩
      rw [List.append_assoc]
      exact linear''

omit [DecidableEq ι] in
/-- A call that has returned is in the log, with the reply that the client reads. -/
theorem Linear.returned (linear : svc.Linear start s log) (inv : Inv ops kind n s)
    {x : Returned ι Body} (hx : x ∈ s.returned) :
    ∃ y ∈ log, y.call = x.call ∧ y.worker = x.region % n ∧ svc.Encodes y.req x.sent ∧
      svc.reads y.req x.got = some y.rep := by
  obtain ⟨h, hh, hcall, hregion, hinput, houtput⟩ := inv.returned x hx
  obtain ⟨k, hk, heq⟩ := List.getElem_of_mem hh
  have hlen := linear.runs.length_eq
  have hmatch : svc.Matches h log[k] := heq ▸ linear.runs.get hk (hlen ▸ hk)
  refine ⟨log[k], List.getElem_mem _, ?_, ?_, ?_, ?_⟩
  · exact Option.some.inj (hmatch.call.symm.trans hcall)
  · rw [← hmatch.worker, ← hregion]
    exact (inv.log.ran h hh).1
  · rw [← hinput]
    exact hmatch.input
  · rw [← houtput]
    exact hmatch.output

omit [DecidableEq ι] in
/-- The log has the calls that were handled. -/
theorem Linear.calls (linear : svc.Linear start s log) (inv : Inv ops kind n s) :
    (log.map Entry.call).Nodup ∧ ∀ y ∈ log, y.call < s.calls := by
  have heq : s.handled.map (·.call) = (log.map Entry.call).map some := by
    rw [List.map_map]
    exact List.forall₂_eq_eq_eq ▸ List.forall₂_map_left_iff.mpr
      (List.forall₂_map_right_iff.mpr (linear.runs.imp fun _ _ hm => hm.call))
  constructor
  · exact List.Nodup.of_map some (heq ▸ inv.log.once)
  · intro y hy
    have hmem : some y.call ∈ s.handled.map (·.call) :=
      heq ▸ List.mem_map_of_mem (List.mem_map_of_mem hy)
    obtain ⟨h, hh, hcall⟩ := List.mem_map.mp hmem
    obtain ⟨c, hlt, hc⟩ := inv.log.tagged h hh
    obtain rfl := Option.some.inj (hc.symm.trans hcall)
    exact hlt

end Service

end Service

/-! ## The service on the bytes of a region -/

/-- The bytes of a region, and the object whose request the client has written there.  The
object stays with the client, and no worker looks at it. -/
structure RegionBody where
  /-- The bytes. -/
  bytes : List UInt8
  /-- The object. -/
  object : Option ClientRequest

/-- The server of the repository, on bytes, with batches nested up to a depth. -/
def wireOps (e : Env) (g : Gcm) (depth : Nat) : Ops RegionBody Server where
  zeroed := ⟨List.replicate reqRegionSize 0, none⟩
  reqType m := (getInt 4 m.bytes).getD 0
  handleOps w s m := (handleBytes e g depth (s.tee w) m.bytes).map fun (tee, out) =>
    (⟨out, m.object⟩, s.setTee w tee)

/-- Requests in the bytes of regions. -/
def wireService (e : Env) {g : Gcm} (keeps : g.KeepsLength) (depth : Nat) :
    Service (wireOps e g (depth + 1)) ClientRequest Reply where
  handle w s c := s.handle e g w c.toRequest
  WellFormed m := m.bytes.length = reqRegionSize
  Writes c m m' := m'.object = some c ∧ c.serializeTo m.bytes = some m'.bytes
  Encodes c m := m.object = some c ∧ c.Encoded m.bytes
  reads c m := c.copyResultFrom m.bytes
  zeroed := List.length_replicate
  written := by
    rintro c m m' hlen ⟨hobject, hserialize⟩
    have hencoded := ClientRequest.encoded_of_serializeTo hlen hserialize
    exact ⟨hencoded.length, hobject, hencoded⟩
  handled := by
    rintro c w s m m' s' ⟨-, hencoded⟩ hrun
    obtain ⟨⟨tee, out⟩, hhandle, heq⟩ := Option.map_eq_some_iff.mp hrun
    cases heq
    cases hops : handleOps e g (s.tee w) c.toRequest with
    | none =>
        rw [hencoded.handle_none keeps depth hops] at hhandle
        cases hhandle
    | some x =>
        obtain ⟨out', hhandle', hanswered⟩ := hencoded.handle keeps depth hops
        cases hhandle.symm.trans hhandle'
        refine ⟨x.1, ?_, hanswered.result, hanswered.length⟩
        rw [Server.handle, Server.on, hops, Option.map_some]

/-- The calls up to a state, and those up to a later one. -/
structure Linearized (e : Env) {g : Gcm} (keeps : g.KeepsLength) (depth n : Nat) (start : Server)
    {ι : Type} (s₁ s₂ : State ι RegionBody Server) (log new : List (Entry ClientRequest Reply)) :
    Prop where
  /-- The requests that were handled, newest first, have made the server what it was. -/
  early : (wireService e keeps depth).Linear start s₁ log
  /-- Those that were handled since have made it what it is. -/
  late : (wireService e keeps depth).Linear start s₂ (new ++ log)
  /-- No call was handled twice. -/
  once : ((new ++ log).map Entry.call).Nodup
  /-- A call that returned by then was handled by then, and all that were handled by then had
  been made by then: those that were made later are among the new ones. -/
  order : (∀ x ∈ s₁.returned, x.call ∈ log.map Entry.call) ∧ ∀ y ∈ log, y.call < s₁.calls
  /-- A call that returned was handled as the request of its object, by the worker of its
  region, and the object reads the reply to it. -/
  returned : ∀ x ∈ s₂.returned, ∃ y ∈ new ++ log, y.call = x.call ∧ y.worker = x.region % n ∧
    x.sent.object = some y.req ∧ y.req.copyResultFrom x.got.bytes = some y.rep

/-- In every run in which who calls writes a request over what its region holds, and no call is
taken back from a worker, the requests are handled one after the other, in an order that
keeps to that of the calls, and each client reads the reply to its own. -/
theorem calls_linearize (e : Env) {g : Gcm} (keeps : g.KeepsLength) (depth : Nat) {ι : Type}
    [DecidableEq ι] {kind : ι → Kind} {n : Nat} {start : Server}
    {s₁ s₂ : State ι RegionBody Server}
    (before : Machine.Path (State.step (wireOps e g (depth + 1)) kind n)
      ((wireService e keeps depth).Guard n) (State.start (wireOps e g (depth + 1)) start) s₁)
    (since : Machine.Path (State.step (wireOps e g (depth + 1)) kind n)
      ((wireService e keeps depth).Guard n) s₁ s₂) :
    ∃ log new, Linearized e keeps depth n start s₁ s₂ log new := by
  have hstart : (wireService e keeps depth).Sound kind n
      (State.start (wireOps e g (depth + 1)) start) :=
    ⟨inv_start _ _ _ _, Service.carried_start _ _⟩
  obtain ⟨sound₁, log, early⟩ := (Service.linear_start _ start).path hstart before
  obtain ⟨sound₂, new, late⟩ := early.path sound₁ since
  refine ⟨log ++ [], new, early, late, (late.calls sound₂.inv).1, ⟨fun x hx => ?_, ?_⟩, ?_⟩
  · obtain ⟨y, hy, hcall, -⟩ := early.returned sound₁.inv hx
    exact List.mem_map.mpr ⟨y, hy, hcall⟩
  · exact (early.calls sound₁.inv).2
  · intro x hx
    obtain ⟨y, hy, hcall, hworker, hencodes, hreads⟩ := late.returned sound₂.inv hx
    exact ⟨y, hy, hcall, hworker, hencodes.1, hreads⟩

/-! ## One client -/

section OneClient

variable {Body σ : Type} (ops : Ops Body σ) (tee tee' : σ) (b b' : Body)

/-- One client of the extension, and the workers. -/
def oneClient : State Unit Body σ → Label Unit Body → Option (State Unit Body σ) :=
  State.step ops (fun _ => .extension) 15

/-- The client has claimed the first region. -/
def claimed : State Unit Body σ :=
  let cas := (State.start ops tee).goto () (.cas 0 0)
  let zero := (cas.setWord 0 (Bitmap.setIn 0 0)).goto () (.zero 0)
  let init := ((zero.setStatus 0 .none).setBody 0 ops.zeroed none).goto () (.init 0)
  (init.setStatus 0 .none).goto () (.idle 0)

/-- It has written a request. -/
def called : State Unit Body σ :=
  { ((claimed ops tee).setBody 0 b (some 0)).goto () (.send 0 0 b) with calls := 1 }

/-- The worker has come to it. -/
def found : State Unit Body σ :=
  let wait := ((called ops tee b).setStatus 0 .sent).goto () (.wait 0 0 b)
  (wait.workerGoto 0 (.test 0)).workerGoto 0 (.handle 0)

/-- The worker has handled it. -/
def answered : State Unit Body σ :=
  { (found ops tee b).workerGoto 0 (.reply 0) with
    body := Function.update (found ops tee b).body 0 b'
    tee := tee'
    handled := [⟨0, 0, some 0, b, b'⟩] }

/-- The call has returned. -/
def finished : State Unit Body σ :=
  let done := ((answered ops tee tee' b b').setStatus 0 .done).workerGoto 0 (.scan 0)
  let finish := (done.goto () (.copy 0 0 b)).goto () (.finish 0 0 b b')
  { (finish.setStatus 0 .none).goto () (.idle 0) with returned := [⟨(), 0, 0, b, b'⟩] }

variable {ops tee tee' b b'}

theorem run_claimed : Machine.run (oneClient ops) (State.start ops tee)
    [.client (), .client (), .client (), .client ()] = some (claimed ops tee) := by
  with_unfolding_all rfl

theorem step_called (hcmd : 0 < ops.reqType b) :
    oneClient ops (claimed ops tee) (.call () b) = some (called ops tee b) := by
  with_unfolding_all exact if_pos hcmd

theorem run_found : Machine.run (oneClient ops) (called ops tee b)
    [.client (), .worker 0, .worker 0] = some (found ops tee b) := by
  with_unfolding_all rfl

theorem step_answered (hcmd : 0 < ops.reqType b)
    (hrun : ops.handleOps 0 tee b = some (b', tee')) :
    oneClient ops (found ops tee b) (.worker 0) = some (answered ops tee tee' b b') := by
  have hstep : oneClient ops (found ops tee b) (.worker 0) =
      if 0 < ops.reqType b then
        (ops.handleOps 0 tee b).map fun x => answered ops tee x.2 b x.1
      else some ((found ops tee b).workerGoto 0 (.reply 0)) := by
    with_unfolding_all rfl
  rw [hstep, if_pos hcmd, hrun, Option.map_some]

theorem run_finished : Machine.run (oneClient ops) (answered ops tee tee' b b')
    [.worker 0, .client (), .client (), .client ()] = some (finished ops tee tee' b b') := by
  with_unfolding_all rfl

/-- The client calls, and the call returns, if its request is admitted. -/
theorem path_finished {Req Rep : Type} (svc : Service ops Req Rep) (hcmd : 0 < ops.reqType b)
    (hrun : ops.handleOps 0 tee b = some (b', tee'))
    (hcalls : svc.Calls (claimed ops tee) (.call () b)) :
    Machine.Path (oneClient ops) (svc.Guard 15) (State.start ops tee)
      (finished ops tee tee' b b') := by
  -- an extension's call has no timeout
  have safe {s : State Unit Body σ} (inv : Inv ops (fun _ => .extension) 15 s)
      (l : Label Unit Body) : SafeTimeout 15 s l := by
    cases l with
    | client i =>
        simp only [SafeTimeout]
        split
        next r c sent hpc => cases inv.timed i r c sent hpc
        next => trivial
    | _ => trivial
  have inv_step {s t : State Unit Body σ} {l : Label Unit Body}
      (inv : Inv ops (fun _ => .extension) 15 s) (h : oneClient ops s l = some t) :
      Inv ops (fun _ => .extension) 15 t := inv.step (safe inv l) h
  have segment {s t : State Unit Body σ} {ls : List (Label Unit Body)}
      (inv : Inv ops (fun _ => .extension) 15 s) (hcall : ∀ i b, .call i b ∉ ls)
      (h : Machine.run (oneClient ops) s ls = some t) :
      Machine.Path (oneClient ops) (svc.Guard 15) s t ∧ Inv ops (fun _ => .extension) 15 t := by
    have path : Machine.Path (oneClient ops) (svc.Guard 15) s t := by
      refine Machine.path_of_run_invariant inv (fun _ _ _ inv _ hs => inv_step inv hs)
        (fun s l inv hl => ⟨safe inv l, ?_⟩) h
      cases l with
      | call i b => exact absurd hl (hcall i b)
      | _ => trivial
    exact ⟨path, path.invariant (I := Inv ops (fun _ => .extension) 15) inv
      fun _ _ _ inv _ hs => inv_step inv hs⟩
  obtain ⟨path₁, inv₁⟩ := segment (inv_start ops _ 15 tee) (by simp) run_claimed
  have hcalled : oneClient ops (claimed ops tee) (.call () b) = some (called ops tee b) :=
    step_called hcmd
  obtain ⟨path₂, inv₂⟩ := segment (inv_step inv₁ hcalled) (by simp) run_found
  have hanswered := step_answered hcmd hrun
  obtain ⟨path₃, -⟩ := segment (inv_step inv₂ hanswered) (by simp) run_finished
  have path₁' := path₁.tail ⟨_, ⟨safe inv₁ _, hcalls⟩, hcalled⟩
  have path₂' := (path₁'.trans path₂).tail ⟨.worker 0, ⟨safe inv₂ _, trivial⟩, hanswered⟩
  exact path₂'.trans path₃

end OneClient

/-- A client has an integer encrypted. -/
theorem calls_linearize_encrypt :
    ∃ s : State Unit RegionBody Server, s.returned.map (·.call) = [0] ∧
      ∃ log new, Linearized .trivial Gcm.keepsLength_plain 0 15 .new s s log new := by
  have hfits : (Request.enc .int [7, 0, 0, 0]).Fits := rfl
  obtain ⟨sent, hserialize, hencoded⟩ :=
    (ClientRequest.request _ hfits).exists_encoded
      (List.length_replicate : (List.replicate reqRegionSize (0 : UInt8)).length = _)
  obtain ⟨⟨reply, tee⟩, hops⟩ := Option.isSome_iff_exists.mp
    (show (handleOps .trivial .plain (Server.new.tee 0) (.enc .int [7, 0, 0, 0])).isSome by
      decide +kernel)
  obtain ⟨out, hhandle, -⟩ := hencoded.handle Gcm.keepsLength_plain 0 hops
  have hcmd : 0 < (wireOps .trivial .plain 1).reqType ⟨sent, some (.request _ hfits)⟩ := by
    show 0 < (getInt 4 sent).getD 0
    rw [getInt, hencoded.code]
    show (0 : Int) < 11
    decide
  have hrun : (wireOps .trivial .plain 1).handleOps 0 .new ⟨sent, some (.request _ hfits)⟩ =
      some (⟨out, some (.request _ hfits)⟩, Server.new.setTee 0 tee) :=
    Option.map_eq_some_iff.mpr ⟨_, hhandle, rfl⟩
  have path := path_finished (wireService .trivial Gcm.keepsLength_plain 0) hcmd hrun
    (fun r hr => by
      cases hr
      exact ⟨.request _ hfits, rfl, hserialize⟩)
  exact ⟨_, rfl, calls_linearize .trivial Gcm.keepsLength_plain 0 path .refl⟩

end Rpc

end Zeno
