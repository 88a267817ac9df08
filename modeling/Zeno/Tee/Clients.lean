import Zeno.Lib.Machine
import Zeno.Tee.Ops

/-!
# Clients that share a worker

The machine of any number of client sessions whose requests interleave.  A
client sends its requests through its region, and the worker of that region
keeps the results in its local store, together with those of every other client
it serves.  A client only uses local RIDs that were returned to it and that it
has not given up since.

As long as nobody clears a store that holds something of another client, the
clients of a worker hold different slots, and each slot keeps the value of the
request that returned it (`Inv`).  `CMD_LOCAL_CLEAR` does not check that: it
drops the slots of every client of the worker, and hands them out again.
-/

namespace Zeno

/-- A local RID that was returned to a client, with the value of the request that
returned it. -/
structure Held where
  /-- The value. -/
  val : Value
  /-- The RID. -/
  rid : RID

/-- The operand a client would send for it. -/
def Held.item (h : Held) : Ty × RID := (h.val.1, h.rid)

/-- The server with the sessions of its clients. -/
structure Sessions (ι : Type) where
  /-- The server. -/
  server : Server
  /-- The local RIDs each client was given and has not given up. -/
  held : ι → List Held

/-- A step of the machine. -/
inductive SessionLabel (ι : Type) where
  /-- A client sends a request and gets its reply. -/
  | request (i : ι) (req : Request)
  /-- A client goes away. -/
  | leave (i : ι)

/-- The local operands of a request are among the RIDs a client holds. -/
def MaySend (held : List Held) (req : Request) : Prop :=
  ∀ x ∈ req.operands, islocal x.2 = true → ∃ h ∈ held, h.item = x

instance (held : List Held) (req : Request) : Decidable (MaySend held req) :=
  inferInstanceAs (Decidable (∀ x ∈ _, _))

/-- The RIDs a client holds after a request: not those it gave up, and the result. -/
def heldAfter (held : List Held) (req : Request) (val : Option Value) (reply : Reply) :
    List Held :=
  match req with
  | .localClear => []
  | _ =>
      held.filter (fun h => h.item ∉ req.frees) ++
        match val, reply with
        | some val, .rid rid => [⟨val, rid⟩]
        | _, _ => []

namespace Sessions

section Machine

variable {ι : Type} (e : Env) (g : Gcm) (workerCount : Nat) (region : ι → Nat)

/-- The worker that serves a client. -/
def worker (i : ι) : Nat := workerOf workerCount (region i)

/-- The state of the worker that serves a client. -/
def tee (s : Sessions ι) (i : ι) : Tee := s.server.tee (worker workerCount region i)

/-- A client clears the store of its worker only when no other client of that worker holds
a local RID. -/
def clearAlone (s : Sessions ι) : SessionLabel ι → Prop
  | .request i .localClear =>
      ∀ j, j ≠ i → worker workerCount region j = worker workerCount region i → s.held j = []
  | _ => True

variable [DecidableEq ι]

/-- One step of one client. -/
def step (s : Sessions ι) : SessionLabel ι → Option (Sessions ι)
  | .request i req =>
      if MaySend (s.held i) req then
        let val := req.eval e g (s.tee workerCount region i).stores
        (s.server.handle e g (worker workerCount region i) req).map fun (reply, server) =>
          { server := server
            held := Function.update s.held i (heldAfter (s.held i) req val reply) }
      else none
  | .leave i => some { s with held := Function.update s.held i [] }

end Machine

variable {ι : Type} {e : Env} {g : Gcm} {workerCount : Nat} {region : ι → Nat}

/-- What a client holds denotes the value it was returned for, and clients of one worker
hold different RIDs. -/
structure Inv (workerCount : Nat) (region : ι → Nat) (s : Sessions ι) : Prop where
  isLocal : ∀ i, ∀ h ∈ s.held i, islocal h.rid = true
  denotes : ∀ i, ∀ h ∈ s.held i,
    (s.tee workerCount region i).stores.Denotes h.val.1 h.rid h.val.2
  apart : ∀ i j, i ≠ j → worker workerCount region i = worker workerCount region j →
    ∀ h ∈ s.held i, ∀ h' ∈ s.held j, h.item ≠ h'.item

theorem inv_start {s : Sessions ι} (h : ∀ i, s.held i = []) : s.Inv workerCount region where
  isLocal i x hx := by rw [h i] at hx; cases hx
  denotes i x hx := by rw [h i] at hx; cases hx
  apart i j _ _ x hx := by rw [h i] at hx; cases hx

/-! ## What a step keeps -/

theorem mem_heldAfter {held : List Held} {req : Request} {val : Option Value} {reply : Reply}
    {h : Held} (hmem : h ∈ heldAfter held req val reply) :
    req ≠ .localClear ∧ (h ∈ held ∧ h.item ∉ req.frees ∨
      ∃ v rid, val = some v ∧ reply = .rid rid ∧ h = ⟨v, rid⟩) := by
  unfold heldAfter at hmem
  split at hmem
  next => cases hmem
  next hclear =>
    refine ⟨fun heq => hclear heq, ?_⟩
    rcases List.mem_append.mp hmem with hold | hnew
    · left
      simpa using hold
    · right
      split at hnew
      next v rid => exact ⟨v, rid, rfl, rfl, List.mem_singleton.mp hnew⟩
      next => cases hnew

variable {s s' : Sessions ι} {i : ι} {req : Request}

/-- A request of one client keeps what a RID of any client denotes, unless it frees it or
clears the store it is in. -/
theorem request_keeps {tee' : Tee} {reply : Reply} {j : ι} {h : Held}
    (hops : handleOps e g (s.tee workerCount region i) req = some (reply, tee'))
    (hl : islocal h.rid = true)
    (hclear : worker workerCount region j = worker workerCount region i → req ≠ .localClear)
    (hfrees : worker workerCount region j = worker workerCount region i →
      ∀ x ∈ req.frees, islocal x.2 = true → x ≠ h.item)
    (held : (s.tee workerCount region j).stores.Denotes h.val.1 h.rid h.val.2) :
    ((s.server.setTee (worker workerCount region i) tee').tee
      (worker workerCount region j)).stores.Denotes h.val.1 h.rid h.val.2 := by
  by_cases hw : worker workerCount region j = worker workerCount region i
  · rw [tee, hw] at held
    rw [hw, Server.setTee_tee_self]
    exact handleOps_keeps hops (hclear hw) hl (hfrees hw) held
  · exact held.of_loc hl (Server.setTee_tee_loc hw tee')

/-- What the sending client gave up is not what another client of the worker holds. -/
theorem Inv.frees_ne {j : ι} {h : Held} (inv : s.Inv workerCount region)
    (hmay : MaySend (s.held i) req) (hij : i ≠ j)
    (hw : worker workerCount region i = worker workerCount region j) (hh : h ∈ s.held j) :
    ∀ x ∈ req.frees, islocal x.2 = true → x ≠ h.item := by
  intro x hx hl
  obtain ⟨h₀, hh₀, rfl⟩ := hmay x (Request.mem_operands_of_mem_frees hx) hl
  exact inv.apart i j hij hw h₀ hh₀ h hh

variable [DecidableEq ι]

theorem step_request (h : s.step e g workerCount region (.request i req) = some s') :
    MaySend (s.held i) req ∧ ∃ reply tee',
      handleOps e g (s.tee workerCount region i) req = some (reply, tee') ∧
        s' = { server := s.server.setTee (worker workerCount region i) tee'
               held := Function.update s.held i (heldAfter (s.held i) req
                 (req.eval e g (s.tee workerCount region i).stores) reply) } := by
  simp only [step, Option.ite_none_right_eq_some, Server.handle, Server.on, Option.map_map,
    Option.map_eq_some_iff, Function.comp_def] at h
  obtain ⟨hmay, ⟨reply, tee'⟩, hops, rfl⟩ := h
  exact ⟨hmay, reply, tee', hops, rfl⟩

theorem Inv.request (inv : s.Inv workerCount region)
    (ok : s.clearAlone workerCount region (.request i req))
    (h : s.step e g workerCount region (.request i req) = some s') :
    s'.Inv workerCount region := by
  obtain ⟨hmay, reply, tee', hops, rfl⟩ := step_request h
  have hnew (v : Value) (rid : RID)
      (hv : req.eval e g (s.tee workerCount region i).stores = some v) (hr : reply = .rid rid) :
      islocal rid = true ∧ (∀ x, ¬ (s.tee workerCount region i).stores.Denotes v.1 rid x) ∧
        tee'.stores.Denotes v.1 rid v.2 := by
    obtain ⟨rid', hr', hspec⟩ := handleOps_returns hops hv fun x hx hl => by
      obtain ⟨h₀, hh₀, rfl⟩ := hmay x (Request.mem_operands_of_mem_frees hx) hl
      exact ⟨_, inv.denotes i h₀ hh₀⟩
    cases hr.symm.trans hr'
    exact hspec
  -- a result is apart from what other clients of the worker hold
  have hapart (j : ι) (hij : i ≠ j)
      (hw : worker workerCount region i = worker workerCount region j) (h : Held)
      (hh : h ∈ heldAfter (s.held i) req (req.eval e g (s.tee workerCount region i).stores) reply)
      (h' : Held) (hh' : h' ∈ s.held j) : h.item ≠ h'.item := by
    obtain ⟨-, ⟨hold, -⟩ | ⟨v, rid, hv, hr, rfl⟩⟩ := mem_heldAfter hh
    · exact inv.apart i j hij hw h hold h' hh'
    · intro heq
      obtain ⟨⟨t, v'⟩, rid'⟩ := h'
      cases heq
      have hdenotes := inv.denotes j _ hh'
      rw [tee, ← hw] at hdenotes
      exact (hnew v rid hv hr).2.1 _ hdenotes
  refine ⟨?_, ?_, ?_⟩
  · refine (Function.forall_update_iff s.held fun _ l => ∀ h ∈ l, islocal h.rid = true).mpr
      ⟨fun h hh => ?_, fun j _ => inv.isLocal j⟩
    obtain ⟨-, ⟨hold, -⟩ | ⟨v, rid, hv, hr, rfl⟩⟩ := mem_heldAfter hh
    · exact inv.isLocal i h hold
    · exact (hnew v rid hv hr).1
  · refine (Function.forall_update_iff s.held fun j l => ∀ h ∈ l,
      ((s.server.setTee (worker workerCount region i) tee').tee
        (worker workerCount region j)).stores.Denotes h.val.1 h.rid h.val.2).mpr
      ⟨fun h hh => ?_, fun j hj h hh => ?_⟩
    · obtain ⟨hclear, ⟨hold, hkept⟩ | ⟨v, rid, hv, hr, rfl⟩⟩ := mem_heldAfter hh
      · refine request_keeps hops (inv.isLocal i h hold) (fun _ => hclear) (fun _ x hx _ => ?_)
          (inv.denotes i h hold)
        rintro rfl
        exact hkept hx
      · rw [Server.setTee_tee_self]
        exact (hnew v rid hv hr).2.2
    · refine request_keeps hops (inv.isLocal j h hh) (fun hw heq => ?_)
        (fun hw => inv.frees_ne hmay hj.symm hw.symm hh) (inv.denotes j h hh)
      subst heq
      rw [ok j hj hw] at hh
      cases hh
  · refine Machine.pairwise_update (fun j k (l l' : List Held) => worker workerCount region j =
      worker workerCount region k → ∀ h ∈ l, ∀ h' ∈ l', h.item ≠ h'.item) ?_ inv.apart hapart
    intro j k l l' hR hw h hh h' hh'
    exact (hR hw.symm h' hh' h hh).symm

theorem Inv.leave (inv : s.Inv workerCount region)
    (h : s.step e g workerCount region (.leave i) = some s') : s'.Inv workerCount region := by
  cases h
  have hsub (j : ι) : ∀ h ∈ Function.update s.held i [] j, h ∈ s.held j :=
    (Function.forall_update_iff s.held fun j l => ∀ h ∈ l, h ∈ s.held j).mpr
      ⟨fun h hh => absurd hh List.not_mem_nil, fun _ _ _ hh => hh⟩ j
  exact ⟨fun j h hh => inv.isLocal j h (hsub j h hh), fun j h hh => inv.denotes j h (hsub j h hh),
    fun j k hjk hw h hh h' hh' => inv.apart j k hjk hw h (hsub j h hh) h' (hsub k h' hh')⟩

theorem Inv.step {l : SessionLabel ι} (inv : s.Inv workerCount region)
    (ok : s.clearAlone workerCount region l) (h : s.step e g workerCount region l = some s') :
    s'.Inv workerCount region := by
  cases l with
  | request i req => exact inv.request ok h
  | leave i => exact inv.leave h

/-- In every run in which no client clears a store that holds something of another client,
each local RID a client sends reads as the value of the request that returned it to that
client. -/
theorem clients_keep_temporaries {s u : Sessions ι} (start : ∀ i, s.held i = [])
    (path : Machine.Path (Sessions.step e g workerCount region) (clearAlone workerCount region) s u)
    {u' : Sessions ι} {i : ι} {req : Request}
    (next : u.step e g workerCount region (.request i req) = some u') :
    ∀ x ∈ req.operands, islocal x.2 = true →
      ∃ h ∈ u.held i, h.item = x ∧
        (u.tee workerCount region i).stores.get h.val.1 h.rid = some h.val.2 := by
  have inv : u.Inv workerCount region :=
    path.invariant (I := Inv workerCount region) (inv_start start) fun _ _ _ hI hok hs =>
      hI.step hok hs
  intro x hx hl
  obtain ⟨h, hh, hitem⟩ := (step_request next).1 x hx hl
  exact ⟨h, hh, hitem, (inv.denotes i h hh).get⟩

/-! ## Two clients of one worker -/

/-- A ciphertext of an integer. -/
def cipherInt (value : Num.int.Val) : List UInt8 :=
  (gcmEncrypt .plain .zero (plainBytes .int value)).2

/-- Regions 0 and 15, which 15 workers leave to worker 0. -/
def twoRegions : Bool → Nat
  | false => 0
  | true => 15

/-- A new server with two clients. -/
def twoClients : Sessions Bool where
  server := .new
  held _ := []

/-- The first local RID of a worker. -/
def firstLocal : RID := idx2local 0

/-- The machine of the two clients. -/
def twoStep : Sessions Bool → SessionLabel Bool → Option (Sessions Bool) :=
  step .trivial .plain 15 twoRegions

theorem clients_keep_temporaries_twoClients :
    ∃ u u', Machine.Path twoStep (clearAlone 15 twoRegions) twoClients u ∧
      twoStep u (.request false (.getNum .int firstLocal)) = some u' ∧
        ∃ h ∈ u.held false, h.item = (.int, firstLocal) ∧
          (u.tee 15 twoRegions false).stores.get h.val.1 h.rid = some h.val.2 := by
  let trace : List (SessionLabel Bool) :=
    [.request false (.putEnc .int (cipherInt 1)), .request true (.putEnc .int (cipherInt 2))]
  have hrun : ((Machine.run twoStep twoClients trace).bind fun u =>
      (twoStep u (.request false (.getNum .int firstLocal))).map fun _ => ()) = some () := by
    decide +kernel
  obtain ⟨u, hu, hnext⟩ := Option.bind_eq_some_iff.mp hrun
  obtain ⟨u', hu', -⟩ := Option.map_eq_some_iff.mp hnext
  have path : Machine.Path twoStep (clearAlone 15 twoRegions) twoClients u :=
    Machine.path_of_run (by simp [trace, clearAlone]) hu
  exact ⟨u, u', path, hu', clients_keep_temporaries (fun _ => rfl) path hu' _
    List.mem_cons_self rfl⟩

/-- The second client clears the store of the worker and puts 2.  The first client then reads
2 under the RID that was returned to it for 1. -/
theorem clear_drops_temporaries :
    ∃ u : Sessions Bool, Machine.Path twoStep Machine.free twoClients u ∧
      (u.held false).map (fun h => (h.val, h.rid)) = [(⟨.int, 1⟩, firstLocal)] ∧
        (u.server.handle .trivial .plain (worker 15 twoRegions false)
          (.getNum .int firstLocal)).map Prod.fst = some (.value ⟨.int, 2⟩) := by
  let trace : List (SessionLabel Bool) :=
    [.request false (.putEnc .int (cipherInt 1)), .request true .localClear,
      .request true (.putEnc .int (cipherInt 2))]
  have hrun : ((Machine.run twoStep twoClients trace).map fun u =>
      ((u.held false).map fun h => (h.val, h.rid), (u.server.handle .trivial .plain
        (worker 15 twoRegions false) (.getNum .int firstLocal)).map Prod.fst)) =
      some ([(⟨.int, 1⟩, firstLocal)], some (.value ⟨.int, 2⟩)) := by
    decide +kernel
  obtain ⟨u, hu, heq⟩ := Option.map_eq_some_iff.mp hrun
  obtain ⟨hheld, hread⟩ := Prod.mk.inj heq
  exact ⟨u, Machine.path_of_run (fun _ _ _ => trivial) hu, hheld, hread⟩

end Sessions

end Zeno
