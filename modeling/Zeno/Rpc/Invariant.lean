import Zeno.Rpc.Machine

/-!
# The invariant of the RPC

A region that a client holds has its bit set, and no other client holds it.  A
status `SENT` belongs to a client that waits, and a worker between its test for
`SENT` and its `DONE` is at such a region.  So the holder of a region knows what
to find in it: its own body, not handled yet, or what `handle_ops` made of that
body (`Fits`).

All steps keep the invariant but one: a client whose call timed out sets the
status to `NONE`.  If the worker of the region is between its test and its
`DONE` at that moment, the worker goes on with a region that it no longer has.
`SafeTimeout` is the guard that excludes this.
-/

namespace Zeno

namespace Rpc

variable {ι Body σ : Type}

/-! ## What the holder of a region knows -/

/-- A region, as far as its holder depends on it. -/
structure View (Body : Type) where
  /-- Its status. -/
  status : Status
  /-- Its body. -/
  body : Body
  /-- The call that has written it. -/
  tag : Option Nat
  /-- Its worker has handled the body and not yet set the status. -/
  replying : Prop

/-- The view of a region. -/
def State.view (n : Nat) (s : State ι Body σ) (r : Nat) : View Body :=
  ⟨s.status r, s.body r, s.tag r, s.worker (r % n) = .reply r⟩

/-- A call has not been handled. -/
def Unhandled (log : List (Handled Body)) (call : Nat) : Prop := ∀ h ∈ log, h.call ≠ some call

/-- A call has been handled, from one body to another. -/
def Answered (log : List (Handled Body)) (r call : Nat) (sent got : Body) : Prop :=
  ∃ h ∈ log, h.call = some call ∧ h.region = r ∧ h.input = sent ∧ h.output = got

/-- A call has written its body, and it has not been handled. -/
structure Written (ops : Ops Body σ) (log : List (Handled Body)) (v : View Body) (call : Nat)
    (sent : Body) : Prop where
  /-- The body is that of the call. -/
  body : v.body = sent
  /-- It is not handled. -/
  unhandled : Unhandled log call
  /-- It is a command. -/
  command : 0 < ops.reqType sent

/-- What a client knows about the region it holds. -/
def Fits (ops : Ops Body σ) (log : List (Handled Body)) (r : Nat) (v : View Body) :
    Pc Body → Prop
  | .ready _ call sent | .send _ call sent => v.tag = some call ∧ Written ops log v call sent
  | .wait _ call sent | .timedOut _ call sent =>
      v.tag = some call ∧
        (v.status = .sent ∧ ¬ v.replying ∧ Written ops log v call sent ∨
          (v.status = .done ∨ v.replying) ∧ Answered log r call sent v.body)
  | .copy _ call sent => Answered log r call sent v.body
  | .finish _ call sent got => got = v.body ∧ Answered log r call sent v.body
  | _ => True

/-- The region in which a client has a request that it has not taken back. -/
def Pc.waits? : Pc Body → Option Nat
  | .wait r _ _ | .timedOut r _ _ => some r
  | _ => none

/-- A call waits in a region. -/
def Pc.Waits (pc : Pc Body) (r call : Nat) (sent : Body) : Prop :=
  pc = .wait r call sent ∨ pc = .timedOut r call sent

theorem Pc.waits?_eq_some {pc : Pc Body} {r : Nat} :
    pc.waits? = some r ↔ ∃ call sent, pc.Waits r call sent := by
  cases pc with
  | wait | timedOut => simp [Pc.waits?, Pc.Waits]
  | _ => simp [Pc.waits?, Pc.Waits]

theorem Fits.of_waits {ops : Ops Body σ} {log : List (Handled Body)} {r call : Nat}
    {v : View Body} {pc : Pc Body} {sent : Body} (h : pc.Waits r call sent) :
    Fits ops log r v pc ↔ v.tag = some call ∧
      (v.status = .sent ∧ ¬ v.replying ∧ Written ops log v call sent ∨
        (v.status = .done ∨ v.replying) ∧ Answered log r call sent v.body) := by
  rcases h with rfl | rfl
  · exact Iff.rfl
  · exact Iff.rfl

theorem Pc.Waits.call? {pc : Pc Body} {r call : Nat} {sent : Body} (h : pc.Waits r call sent) :
    pc.call? = some call := by
  rcases h with rfl | rfl
  · rfl
  · rfl

theorem Pc.region?_of_waits? {pc : Pc Body} {r : Nat} (h : pc.waits? = some r) :
    pc.region? = some r := by
  cases pc with
  | wait | timedOut => exact h
  | _ => cases h

/-- Two clients hold different regions and are in different calls. -/
structure Pc.Apart (pc pc' : Pc Body) : Prop where
  /-- The regions differ. -/
  region : ∀ r, pc.region? = some r → pc'.region? ≠ some r
  /-- The calls differ. -/
  call : ∀ c, pc.call? = some c → pc'.call? ≠ some c

theorem Pc.Apart.symm {pc pc' : Pc Body} (h : pc.Apart pc') : pc'.Apart pc :=
  ⟨fun r hr hr' => h.region r hr' hr, fun c hc hc' => h.call c hc' hc⟩

/-! ## The logs -/

theorem Answered.cons {log : List (Handled Body)} {r call : Nat} {sent got : Body}
    (h : Answered log r call sent got) (x : Handled Body) :
    Answered (x :: log) r call sent got := by
  obtain ⟨y, hy, heq⟩ := h
  exact ⟨y, List.mem_cons_of_mem _ hy, heq⟩

/-- A run of `handle_ops` for one call changes nothing for the others. -/
theorem Fits.cons {ops : Ops Body σ} {log : List (Handled Body)} {r : Nat} {v : View Body}
    {pc : Pc Body} {x : Handled Body} (h : Fits ops log r v pc)
    (hne : ∀ c, pc.call? = some c → x.call ≠ some c) : Fits ops (x :: log) r v pc := by
  have written {call : Nat} {sent : Body} (hcall : pc.call? = some call)
      (hw : Written ops log v call sent) : Written ops (x :: log) v call sent := by
    refine ⟨hw.body, fun y hy => ?_, hw.command⟩
    rcases List.mem_cons.mp hy with rfl | hy
    · exact hne call hcall
    · exact hw.unhandled y hy
  cases pc with
  | ready | send => exact ⟨h.1, written rfl h.2⟩
  | wait | timedOut =>
      refine ⟨h.1, ?_⟩
      rcases h.2 with ⟨hst, hr, hw⟩ | ⟨hst, ha⟩
      · exact .inl ⟨hst, hr, written rfl hw⟩
      · exact .inr ⟨hst, ha.cons x⟩
  | copy => exact Answered.cons h x
  | finish => exact ⟨h.1, h.2.cons x⟩
  | _ => trivial

/-- What the log of the handled calls keeps. -/
structure LogInv (ops : Ops Body σ) (n calls : Nat) (log : List (Handled Body)) : Prop where
  /-- Each entry is a call that was made. -/
  tagged : ∀ h ∈ log, ∃ c, c < calls ∧ h.call = some c
  /-- No call is handled twice. -/
  once : (log.map (·.call)).Nodup
  /-- Each entry is a run of `handle_ops` by the worker of the region. -/
  ran : ∀ h ∈ log, h.worker = h.region % n ∧
    ∃ t t', ops.handleOps h.worker t h.input = some (h.output, t')

theorem LogInv.mono {ops : Ops Body σ} {n calls calls' : Nat} {log : List (Handled Body)}
    (h : LogInv ops n calls log) (hle : calls ≤ calls') : LogInv ops n calls' log := by
  refine ⟨fun x hx => ?_, h.once, h.ran⟩
  obtain ⟨c, hlt, hc⟩ := h.tagged x hx
  exact ⟨c, hlt.trans_le hle, hc⟩

/-! ## The invariant -/

/-- The invariant of `n` workers and their clients. -/
structure Inv (ops : Ops Body σ) (kind : ι → Kind) (n : Nat) (s : State ι Body σ) : Prop where
  /-- A region that is held exists, and its bit is set. -/
  bit : ∀ i r, (s.client i).region? = some r →
    r < maxRegionNum ∧ Bitmap.test s.bitmap r = true
  /-- A word is swapped only if the bit was clear in it. -/
  looked : ∀ i r old, s.client i = .cas r old → r < maxRegionNum ∧ Bitmap.testIn old r = false
  /-- Clients do not share regions or calls. -/
  apart : ∀ i j, i ≠ j → (s.client i).Apart (s.client j)
  /-- Each region is as its holder expects it. -/
  fits : ∀ i r, (s.client i).region? = some r →
    Fits ops s.handled r (s.view n r) (s.client i)
  /-- A request belongs to a client that waits. -/
  sent : ∀ r, s.status r = .sent → ∃ i, (s.client i).waits? = some r
  /-- A worker is at its own regions. -/
  serves : ∀ w, w < n → (s.worker w).region % n = w
  /-- A worker handles requests only, in its own regions. -/
  busy : ∀ w r, s.worker w = .handle r ∨ s.worker w = .reply r →
    w = r % n ∧ s.status r = .sent
  /-- Calls are numbered. -/
  fresh : ∀ i c, (s.client i).call? = some c → c < s.calls
  /-- Only calls of the WAL time out. -/
  timed : ∀ i r c sent, s.client i = .timedOut r c sent → kind i = .wal
  /-- The check of `release_shm_region` has not failed. -/
  alive : ∀ i, s.client i ≠ .failed
  /-- The log of the handled calls. -/
  log : LogInv ops n s.calls s.handled
  /-- What was returned was handled. -/
  returned : ∀ x ∈ s.returned, Answered s.handled x.region x.call x.sent x.got

theorem inv_start (ops : Ops Body σ) (kind : ι → Kind) (n : Nat) (tee : σ) :
    Inv ops kind n (State.start ops tee : State ι Body σ) where
  bit _ _ h := nomatch h
  looked _ _ _ h := nomatch h
  apart _ _ _ := ⟨nofun, nofun⟩
  fits _ _ h := nomatch h
  sent _ h := nomatch h
  serves w h := Nat.mod_eq_of_lt h
  busy _ _ h := by
    rcases h with h | h
    · cases h
    · cases h
  fresh _ _ h := nomatch h
  timed _ _ _ _ h := nomatch h
  alive _ h := nomatch h
  log := ⟨nofun, List.nodup_nil, nofun⟩
  returned _ h := nomatch h

namespace Inv

variable {ops : Ops Body σ} {kind : ι → Kind} {n : Nat} {s : State ι Body σ} {i j : ι} {r : Nat}

/-- A region has one holder. -/
theorem holder_unique (inv : Inv ops kind n s) (hi : (s.client i).region? = some r)
    (hj : (s.client j).region? = some r) : i = j := by
  by_contra hne
  exact (inv.apart i j hne).region r hi hj

/-- If its holder does not wait, there is no request in a region. -/
theorem status_ne_sent (inv : Inv ops kind n s) (hi : (s.client i).region? = some r)
    (hwait : (s.client i).waits? = none) : s.status r ≠ .sent := by
  intro hsent
  obtain ⟨j, hj⟩ := inv.sent r hsent
  obtain rfl := inv.holder_unique hi (Pc.region?_of_waits? hj)
  rw [hwait] at hj
  cases hj

/-- If its holder does not wait, no worker handles a region. -/
theorem not_busy (inv : Inv ops kind n s) (held : (s.client i).region? = some r)
    (hwait : (s.client i).waits? = none) (w : Nat) :
    ¬ (s.worker w = .handle r ∨ s.worker w = .reply r) :=
  fun hb => inv.status_ne_sent held hwait (inv.busy w r hb).2

/-- What the holder knows. -/
theorem fits_of (inv : Inv ops kind n s) {pc : Pc Body} (hpc : s.client i = pc)
    (hr : pc.region? = some r) : Fits ops s.handled r (s.view n r) pc :=
  hpc ▸ inv.fits i r (hpc ▸ hr)

/-- A client that waits and finds the status changed has its call answered. -/
theorem answered (inv : Inv ops kind n s) {call : Nat} {sent : Body}
    (hpc : s.client i = .wait r call sent) (hne : s.status r ≠ .sent) :
    Answered s.handled r call sent (s.body r) := by
  rcases (inv.fits_of hpc rfl).2 with ⟨hsent, -⟩ | ⟨-, hanswered⟩
  · exact absurd hsent hne
  · exact hanswered

/-- The call of a client is its own. -/
theorem call_fresh (inv : Inv ops kind n s) {c : Nat} (h : (s.client i).call? = some c) :
    c < s.calls ∧ ∀ j, i ≠ j → (s.client j).call? ≠ some c :=
  ⟨inv.fresh i c h, fun j hj => (inv.apart i j hj).call c h⟩

end Inv

/-! ## Steps of clients -/

section Clients

variable [DecidableEq ι] {ops : Ops Body σ} {kind : ι → Kind} {n : Nat} {s s' : State ι Body σ}
  {i : ι} {r : Nat} {pc : Pc Body}

/-- A client moves and writes to its region. -/
def State.write (s : State ι Body σ) (i : ι) (pc : Pc Body) (r : Nat) (st : Status) (b : Body)
    (tag : Option Nat) : State ι Body σ :=
  ((s.setStatus r st).setBody r b tag).goto i pc

theorem State.goto_eq_write (s : State ι Body σ) (i : ι) (pc : Pc Body) (r : Nat) :
    s.goto i pc = s.write i pc r (s.status r) (s.body r) (s.tag r) := by
  simp only [State.write, State.goto, State.setStatus, State.setBody, Function.update_eq_self]

theorem State.setStatus_goto_eq_write (s : State ι Body σ) (i : ι) (pc : Pc Body) (r : Nat)
    (st : Status) :
    (s.setStatus r st).goto i pc = s.write i pc r st (s.body r) (s.tag r) := by
  simp only [State.write, State.goto, State.setStatus, State.setBody, Function.update_eq_self]

theorem State.setBody_goto_eq_write (s : State ι Body σ) (i : ι) (pc : Pc Body) (r : Nat)
    (b : Body) (tag : Option Nat) :
    (s.setBody r b tag).goto i pc = s.write i pc r (s.status r) b tag := by
  simp only [State.write, State.goto, State.setStatus, State.setBody, Function.update_eq_self]

theorem State.view_write_of_ne {r' : Nat} (h : r' ≠ r) (st : Status) (b : Body)
    (tag : Option Nat) : (s.write i pc r st b tag).view n r' = s.view n r' := by
  simp [State.view, State.write, State.goto, State.setStatus, State.setBody, h]

theorem State.view_write_self (st : Status) (b : Body) (tag : Option Nat) :
    (s.write i pc r st b tag).view n r =
      ⟨st, b, tag, s.worker (r % n) = .reply r⟩ := by
  simp [State.view, State.write, State.goto, State.setStatus, State.setBody]

namespace Inv

/-- The holder of a region moves, and writes to the region. -/
theorem write {st : Status} {b : Body} {tag : Option Nat} {calls : Nat}
    {ret : List (Returned ι Body)} (inv : Inv ops kind n s)
    (held : (s.client i).region? = some r) (held' : pc.region? = some r)
    (busy : ∀ w, s.worker w = .handle r ∨ s.worker w = .reply r → st = .sent)
    (sent : st = .sent → pc.waits? = some r)
    (fits : Fits ops s.handled r ⟨st, b, tag, s.worker (r % n) = .reply r⟩ pc)
    (fresh : ∀ c, pc.call? = some c → c < calls ∧ ∀ j, i ≠ j → (s.client j).call? ≠ some c)
    (timed : ∀ r c sent, pc = .timedOut r c sent → kind i = .wal) (hcalls : s.calls ≤ calls)
    (hret : ∀ x ∈ ret, Answered s.handled x.region x.call x.sent x.got) :
    Inv ops kind n { s.write i pc r st b tag with calls := calls, returned := ret } where
  bit := by
    refine Function.forall_update_iff s.client (fun j pc => ∀ r, pc.region? = some r →
      r < maxRegionNum ∧ Bitmap.test s.bitmap r = true) |>.mpr
      ⟨fun r' hr' => ?_, fun j _ => inv.bit j⟩
    obtain rfl := Option.some.inj (held'.symm.trans hr')
    exact inv.bit i r held
  looked := by
    refine Function.forall_update_iff s.client (fun j pc => ∀ r old, pc = .cas r old →
      r < maxRegionNum ∧ Bitmap.testIn old r = false) |>.mpr
      ⟨fun r' old hpc => ?_, fun j _ => inv.looked j⟩
    subst hpc
    cases held'
  apart := by
    refine Machine.pairwise_update (fun _ _ => Pc.Apart) (fun _ _ _ _ h => h.symm)
      inv.apart fun j hj => ⟨fun r' hr' => ?_, fun c hc => (fresh c hc).2 j hj⟩
    obtain rfl := Option.some.inj (held'.symm.trans hr')
    exact (inv.apart i j hj).region r held
  fits := by
    refine Function.forall_update_iff s.client (fun _ pc' => ∀ r', pc'.region? = some r' →
      Fits ops s.handled r' ((s.write i pc r st b tag).view n r') pc') |>.mpr
      ⟨fun r' hr' => ?_, fun j hj r' hr' => ?_⟩
    · obtain rfl := Option.some.inj (held'.symm.trans hr')
      rw [State.view_write_self]
      exact fits
    · have hne : r' ≠ r := fun he => (inv.apart i j hj.symm).region r held (he ▸ hr')
      rw [State.view_write_of_ne hne]
      exact inv.fits j r' hr'
  sent := by
    intro r' hr'
    by_cases hne : r' = r
    · subst hne
      refine ⟨i, ?_⟩
      rw [show (s.write i pc r' st b tag).client i = pc from Function.update_self ..]
      exact sent ((Function.update_self ..).symm.trans hr')
    · obtain ⟨j, hj⟩ := inv.sent r' ((Function.update_of_ne hne ..).symm.trans hr')
      have hji : j ≠ i := by
        rintro rfl
        exact hne (Option.some.inj ((Pc.region?_of_waits? hj).symm.trans held))
      exact ⟨j, (congrArg Pc.waits? (Function.update_of_ne hji ..)).trans hj⟩
  serves := inv.serves
  busy := by
    intro w r' hr'
    refine ⟨(inv.busy w r' hr').1, ?_⟩
    by_cases hne : r' = r
    · subst hne
      exact (Function.update_self ..).trans (busy w hr')
    · exact (Function.update_of_ne hne ..).trans (inv.busy w r' hr').2
  fresh := by
    refine Function.forall_update_iff s.client (fun j pc => ∀ c, pc.call? = some c →
      c < calls) |>.mpr ⟨fun c hc => (fresh c hc).1, fun j _ c hc => ?_⟩
    exact (inv.fresh j c hc).trans_le hcalls
  timed := Function.forall_update_iff s.client (fun j pc => ∀ r c sent,
    pc = .timedOut r c sent → kind j = .wal) |>.mpr ⟨timed, fun j _ => inv.timed j⟩
  alive := by
    refine Function.forall_update_iff s.client (fun _ pc => pc ≠ .failed) |>.mpr
      ⟨?_, fun j _ => inv.alive j⟩
    rintro rfl
    cases held'
  log := inv.log.mono hcalls
  returned := hret

/-- The holder of a region moves. -/
theorem move (inv : Inv ops kind n s) (held : (s.client i).region? = some r)
    (held' : pc.region? = some r) (sent : s.status r = .sent → pc.waits? = some r)
    (fits : Fits ops s.handled r (s.view n r) pc)
    (call : ∀ c, pc.call? = some c → (s.client i).call? = some c)
    (timed : ∀ r c sent, pc = .timedOut r c sent → kind i = .wal) :
    Inv ops kind n (s.goto i pc) := by
  rw [s.goto_eq_write i pc r]
  exact inv.write held held' (fun w hb => (inv.busy w r hb).2) sent fits
    (fun c hc => inv.call_fresh (call c hc)) timed (Nat.le_refl _) inv.returned

/-- The holder of a region sets its status to `NONE`, ends its call and moves. -/
theorem reset {ret : List (Returned ι Body)} (inv : Inv ops kind n s)
    (held : (s.client i).region? = some r) (held' : pc.region? = some r)
    (busy : ∀ w, ¬ (s.worker w = .handle r ∨ s.worker w = .reply r))
    (fits : ∀ v, Fits ops s.handled r v pc) (call : pc.call? = none)
    (hret : ∀ x ∈ ret, Answered s.handled x.region x.call x.sent x.got) :
    Inv ops kind n { (s.setStatus r .none).goto i pc with returned := ret } := by
  rw [State.setStatus_goto_eq_write]
  refine inv.write held held' (fun w hb => absurd hb (busy w)) nofun (fits _)
    (fun c hc => ?_) (fun r c sent hpc => ?_) (Nat.le_refl _) hret
  · rw [call] at hc
    cases hc
  · subst hpc
    cases call

section Idle

variable {pc₀ : Pc Body} (inv : Inv ops kind n s) (hpc : s.client i = pc₀)
  (held : pc₀.region? = some r) (held' : pc.region? = some r) (hwait : pc₀.waits? = none)

include inv hpc held held' hwait

/-- The holder of a region moves, and did not wait. -/
theorem advance (fits : Fits ops s.handled r (s.view n r) pc)
    (call : ∀ c, pc.call? = some c → pc₀.call? = some c)
    (timed : ∀ r c sent, pc = .timedOut r c sent → kind i = .wal) :
    Inv ops kind n (s.goto i pc) := by
  subst hpc
  exact inv.move held held' (fun hsent => absurd hsent (inv.status_ne_sent held hwait)) fits call
    timed

/-- The holder of a region sets its status to `NONE` and moves, and did not wait. -/
theorem endCall {ret : List (Returned ι Body)} (fits : ∀ v, Fits ops s.handled r v pc)
    (call : pc.call? = none)
    (hret : ∀ x ∈ ret, Answered s.handled x.region x.call x.sent x.got) :
    Inv ops kind n { (s.setStatus r .none).goto i pc with returned := ret } := by
  subst hpc
  exact inv.reset held held' (inv.not_busy held hwait) fits call hret

end Idle

/-- A client claims a region, or gives one up, or neither, and is not in a call. -/
theorem rebind {bitmap : Nat → BitVec bitmapBits} (inv : Inv ops kind n s)
    (hwait : (s.client i).waits? = none) (call : pc.call? = none) (hfailed : pc ≠ .failed)
    (looked : ∀ r old, pc = .cas r old → r < maxRegionNum ∧ Bitmap.testIn old r = false)
    (own : ∀ r, pc.region? = some r → (r < maxRegionNum ∧ Bitmap.test bitmap r = true) ∧
      ∀ v, Fits ops s.handled r v pc)
    (others : ∀ j, j ≠ i → ∀ r, (s.client j).region? = some r →
      Bitmap.test bitmap r = Bitmap.test s.bitmap r ∧ pc.region? ≠ some r) :
    Inv ops kind n { s.goto i pc with bitmap := bitmap } where
  bit := by
    refine Function.forall_update_iff s.client (fun j pc => ∀ r, pc.region? = some r →
      r < maxRegionNum ∧ Bitmap.test bitmap r = true) |>.mpr
      ⟨fun r hr => (own r hr).1, fun j hj r hr => ?_⟩
    rw [(others j hj r hr).1]
    exact inv.bit j r hr
  looked := Function.forall_update_iff s.client (fun j pc => ∀ r old, pc = .cas r old →
    r < maxRegionNum ∧ Bitmap.testIn old r = false) |>.mpr ⟨looked, fun j _ => inv.looked j⟩
  apart := by
    refine Machine.pairwise_update (fun _ _ => Pc.Apart) (fun _ _ _ _ h => h.symm) inv.apart
      fun j hj => ⟨fun r hr hr' => (others j hj.symm r hr').2 hr, fun c hc => ?_⟩
    rw [call] at hc
    cases hc
  fits := Function.forall_update_iff s.client (fun _ pc => ∀ r, pc.region? = some r →
    Fits ops s.handled r (s.view n r) pc) |>.mpr
    ⟨fun r hr => (own r hr).2 _, fun j _ => inv.fits j⟩
  sent r hr := by
    obtain ⟨j, hj⟩ := inv.sent r hr
    have hji : j ≠ i := by
      rintro rfl
      cases hwait.symm.trans hj
    exact ⟨j, (congrArg Pc.waits? (Function.update_of_ne hji ..)).trans hj⟩
  serves := inv.serves
  busy := inv.busy
  fresh := Function.forall_update_iff s.client (fun _ pc => ∀ c, pc.call? = some c →
    c < s.calls) |>.mpr ⟨fun c hc => (nomatch call.symm.trans hc), fun j _ => inv.fresh j⟩
  timed := by
    refine Function.forall_update_iff s.client (fun j pc => ∀ r c sent,
      pc = .timedOut r c sent → kind j = .wal) |>.mpr
      ⟨fun r c sent hpc => ?_, fun j _ => inv.timed j⟩
    subst hpc
    cases call
  alive := Function.forall_update_iff s.client (fun _ pc => pc ≠ .failed) |>.mpr
    ⟨hfailed, fun j _ => inv.alive j⟩
  log := inv.log
  returned := inv.returned

/-- A client that holds no region moves, and still holds none. -/
theorem outside (inv : Inv ops kind n s) (hwait : (s.client i).waits? = none)
    (held : pc.region? = none) (call : pc.call? = none) (hfailed : pc ≠ .failed)
    (looked : ∀ r old, pc = .cas r old → r < maxRegionNum ∧ Bitmap.testIn old r = false) :
    Inv ops kind n (s.goto i pc) := by
  show Inv ops kind n { s.goto i pc with bitmap := s.bitmap }
  refine inv.rebind hwait call hfailed looked (fun r hr => ?_) fun j _ r _ => ⟨rfl, ?_⟩
  · rw [held] at hr
    cases hr
  · rw [held]
    nofun

/-- The compare-and-swap succeeds. -/
theorem claimed {old : BitVec bitmapBits} (inv : Inv ops kind n s)
    (hpc : s.client i = .cas r old) (hold : s.bitmap (r / bitmapBits) = old) :
    Inv ops kind n ((s.setWord r (Bitmap.setIn old r)).goto i (.zero r)) := by
  obtain ⟨hlt, hclear⟩ := inv.looked i r old hpc
  subst hold
  refine inv.rebind (congrArg Pc.waits? hpc) rfl nofun nofun (fun r' hr' => ?_) fun j _ r' hr' => ?_
  · cases hr'
    exact ⟨⟨hlt, Bitmap.test_set_self (by decide) _ _⟩, fun _ => trivial⟩
  · have hne : r' ≠ r := by
      rintro rfl
      exact absurd ((inv.bit j r' hr').2.symm.trans hclear) (by decide)
    exact ⟨Bitmap.test_set_of_ne (by decide) _ hne, fun h => hne (Option.some.inj h).symm⟩

/-- A region is released, and the check passes. -/
theorem released (inv : Inv ops kind n s) (hpc : s.client i = .release r) :
    Bitmap.testIn (s.bitmap (r / bitmapBits)) r = true ∧
      Inv ops kind n
        ((s.setWord r (Bitmap.clearIn (s.bitmap (r / bitmapBits)) r)).goto i .gone) := by
  have held : (s.client i).region? = some r := by rw [hpc]; rfl
  refine ⟨(inv.bit i r held).2, ?_⟩
  refine inv.rebind (congrArg Pc.waits? hpc) rfl nofun nofun nofun fun j hj r' hr' => ⟨?_, nofun⟩
  have hne : r' ≠ r := by
    rintro rfl
    exact hj (inv.holder_unique hr' held)
  exact Bitmap.test_clear_of_ne (by decide) _ hne

end Inv

/-- A call that timed out is taken back only while the worker of the region is not between
its test for `SENT` and its `DONE`. -/
def SafeTimeout (n : Nat) (s : State ι Body σ) : Label ι Body → Prop
  | .client i =>
      match s.client i with
      | .timedOut r _ _ => ¬ (s.worker (r % n) = .handle r ∨ s.worker (r % n) = .reply r)
      | _ => True
  | _ => True

instance (n : Nat) (s : State ι Body σ) (l : Label ι Body) : Decidable (SafeTimeout n s l) :=
  match l with
  | .client i =>
      match h : s.client i with
      | .timedOut r _ _ => decidable_of_iff
          (¬ (s.worker (r % n) = .handle r ∨ s.worker (r % n) = .reply r))
          (by simp [SafeTimeout, h])
      | .claim _ | .cas _ _ | .zero _ | .init _ | .idle _ | .ready _ _ _ | .send _ _ _
      | .wait _ _ _ | .copy _ _ _ | .finish _ _ _ _ | .drain _ | .clear _ | .release _ | .gone
      | .failed => .isTrue (by simp [SafeTimeout, h])
  | .call _ _ | .giveUp _ | .timeout _ | .exit _ | .worker _ => .isTrue trivial

namespace Inv

theorem clientStep (inv : Inv ops kind n s) (safe : SafeTimeout n s (.client i))
    (h : s.clientStep ops kind i = some s') : Inv ops kind n s' := by
  cases hpc : s.client i with
  | claim r =>
      simp only [State.clientStep, hpc] at h
      split at h
      next hlt =>
        split at h
        next =>
          cases h
          exact inv.outside (congrArg Pc.waits? hpc) rfl rfl nofun nofun
        next hclear =>
          cases h
          refine inv.outside (congrArg Pc.waits? hpc) rfl rfl nofun fun r' old heq => ?_
          cases heq
          exact ⟨hlt, Bool.eq_false_iff.mpr hclear⟩
      next =>
        cases h
        exact inv.outside (congrArg Pc.waits? hpc) rfl rfl nofun nofun
  | cas r old =>
      simp only [State.clientStep, hpc] at h
      split at h
      next hold =>
        cases h
        exact inv.claimed hpc hold
      next =>
        cases h
        exact inv.outside (congrArg Pc.waits? hpc) rfl rfl nofun nofun
  | zero r =>
      have held : (s.client i).region? = some r := congrArg Pc.region? hpc
      have hidle := inv.not_busy held (congrArg Pc.waits? hpc)
      simp only [State.clientStep, hpc, Option.some.injEq] at h
      subst h
      cases kind i with
      | extension =>
          exact inv.write held rfl (fun w hb => absurd hb (hidle w)) nofun trivial nofun nofun
            (Nat.le_refl _) inv.returned
      | wal =>
          exact inv.write held rfl (fun w hb => absurd hb (hidle w)) nofun trivial nofun nofun
            (Nat.le_refl _) inv.returned
  | init r =>
      simp only [State.clientStep, hpc, Option.some.injEq] at h
      subst h
      exact inv.endCall hpc rfl rfl rfl (fun _ => trivial) rfl inv.returned
  | idle r =>
      simp only [State.clientStep, hpc] at h
      cases h
  | ready r call sent =>
      have hfits := inv.fits_of hpc rfl
      simp only [State.clientStep, hpc] at h
      split at h
      next =>
        cases h
        exact inv.advance hpc rfl rfl rfl hfits (fun _ hc => hc) nofun
      next =>
        cases h
        exact inv.advance hpc rfl rfl rfl trivial nofun nofun
  | send r call sent =>
      have held : (s.client i).region? = some r := congrArg Pc.region? hpc
      obtain ⟨htag, hwritten⟩ := inv.fits_of hpc rfl
      have hreply : ¬ s.worker (r % n) = .reply r := fun hr =>
        inv.not_busy held (congrArg Pc.waits? hpc) _ (.inr hr)
      simp only [State.clientStep, hpc, Option.some.injEq] at h
      subst h
      rw [State.setStatus_goto_eq_write]
      exact inv.write held rfl (fun _ _ => rfl) (fun _ => rfl)
        ⟨htag, .inl ⟨rfl, hreply, hwritten.body, hwritten.unhandled, hwritten.command⟩⟩
        (fun c hc => inv.call_fresh ((congrArg Pc.call? hpc).trans hc)) nofun (Nat.le_refl _)
        inv.returned
  | wait r call sent =>
      have held : (s.client i).region? = some r := congrArg Pc.region? hpc
      have hcall := congrArg Pc.call? hpc
      simp only [State.clientStep, hpc] at h
      split at h
      next hdone =>
        have hne : s.status r ≠ .sent := by rw [hdone]; nofun
        have hanswered := inv.answered hpc hne
        split at h
        next =>
          cases h
          exact inv.move held rfl (fun hsent => absurd hsent hne) hanswered
            (fun c hc => hcall.trans hc) nofun
        next =>
          cases h
          exact inv.move held rfl (fun hsent => absurd hsent hne) ⟨rfl, hanswered⟩
            (fun c hc => hcall.trans hc) nofun
      next =>
        cases h
        exact inv
  | copy r call sent =>
      have hfits := inv.fits_of hpc rfl
      simp only [State.clientStep, hpc, Option.some.injEq] at h
      subst h
      exact inv.advance hpc rfl rfl rfl ⟨rfl, hfits⟩ (fun _ hc => hc) nofun
  | finish r call sent got =>
      obtain ⟨hgot, hanswered⟩ := inv.fits_of hpc rfl
      simp only [State.clientStep, hpc, Option.some.injEq] at h
      subst h
      refine inv.endCall hpc rfl rfl rfl (fun _ => trivial) rfl fun x hx => ?_
      rcases List.mem_cons.mp hx with rfl | hx
      · cases kind i with
        | extension =>
            subst hgot
            exact hanswered
        | wal => exact hanswered
      · exact inv.returned x hx
  | timedOut r call sent =>
      have held : (s.client i).region? = some r := congrArg Pc.region? hpc
      simp only [State.clientStep, hpc, Option.some.injEq] at h
      subst h
      refine inv.reset held rfl (fun w hb => ?_) (fun _ => trivial) rfl inv.returned
      have hw := (inv.busy w r hb).1
      subst hw
      simp only [SafeTimeout, hpc] at safe
      exact safe hb
  | drain r =>
      have held : (s.client i).region? = some r := congrArg Pc.region? hpc
      have hne := inv.status_ne_sent held (congrArg Pc.waits? hpc)
      simp only [State.clientStep, hpc, if_neg hne, Option.some.injEq] at h
      subst h
      exact inv.advance hpc rfl rfl rfl trivial nofun nofun
  | clear r =>
      simp only [State.clientStep, hpc, Option.some.injEq] at h
      subst h
      exact inv.endCall hpc rfl rfl rfl (fun _ => trivial) rfl inv.returned
  | release r =>
      obtain ⟨hbit, hinv⟩ := inv.released hpc
      simp only [State.clientStep, hpc, hbit, if_true, Option.some.injEq] at h
      subst h
      exact hinv
  | gone | failed =>
      simp only [State.clientStep, hpc] at h
      cases h

end Inv

end Clients

/-! ## Steps of workers -/

section Workers

variable {ops : Ops Body σ} {kind : ι → Kind} {n : Nat} {s s' : State ι Body σ} {i : ι}
  {r w : Nat} {wpc : WorkerPc}

/-- A worker that moves changes the view of a region only if it replies to it. -/
theorem replying_update (s : State ι Body σ) (w : Nat) (wpc : WorkerPc) (r' : Nat)
    (hold : s.worker w ≠ .reply r') (hnew : wpc ≠ .reply r') :
    (Function.update s.worker w wpc (r' % n) = .reply r') = (s.worker (r' % n) = .reply r') := by
  by_cases hw : r' % n = w
  · rw [hw, Function.update_self]
    exact propext ⟨fun h => absurd h hnew, fun h => absurd h hold⟩
  · rw [Function.update_of_ne hw]

namespace Inv

/-- A worker moves on, to its next region or to a request. -/
theorem workerMove (inv : Inv ops kind n s) (hold : ∀ r, s.worker w ≠ .reply r)
    (hnew : ∀ r, wpc ≠ .reply r) (serves : wpc.region % n = w)
    (busy : ∀ r, wpc = .handle r → s.status r = .sent) :
    Inv ops kind n (s.workerGoto w wpc) where
  bit := inv.bit
  looked := inv.looked
  apart := inv.apart
  fits i r hr := by
    have hview : (s.workerGoto w wpc).view n r = s.view n r := by
      simp only [State.view, State.workerGoto, replying_update s w wpc r (hold r) (hnew r)]
    rw [hview]
    exact inv.fits i r hr
  sent := inv.sent
  serves := Function.forall_update_iff s.worker (fun w pc => w < n → pc.region % n = w) |>.mpr
    ⟨fun _ => serves, fun w' _ => inv.serves w'⟩
  busy := by
    refine Function.forall_update_iff s.worker (fun w pc => ∀ r, pc = .handle r ∨ pc = .reply r →
      w = r % n ∧ s.status r = .sent) |>.mpr ⟨fun r hr => ?_, fun w' _ => inv.busy w'⟩
    rcases hr with rfl | hr
    · exact ⟨serves.symm, busy r rfl⟩
    · exact absurd hr (hnew r)
  fresh := inv.fresh
  timed := inv.timed
  alive := inv.alive
  log := inv.log
  returned := inv.returned

/-- A worker past its test for `SENT` is at a region whose holder waits. -/
theorem request (inv : Inv ops kind n s) (hw : s.worker w = .handle r ∨ s.worker w = .reply r) :
    ∃ i call sent, (s.client i).Waits r call sent ∧ (s.client i).region? = some r := by
  obtain ⟨i, hi⟩ := inv.sent r (inv.busy w r hw).2
  obtain ⟨call, sent, hwaits⟩ := Pc.waits?_eq_some.mp hi
  exact ⟨i, call, sent, hwaits, Pc.region?_of_waits? hi⟩

/-- At `handle_ops` it finds the body of the call there, not handled yet. -/
theorem written {call : Nat} {sent : Body} (inv : Inv ops kind n s) (hw : s.worker w = .handle r)
    (hwaits : (s.client i).Waits r call sent) (held : (s.client i).region? = some r) :
    s.tag r = some call ∧ Written ops s.handled (s.view n r) call sent := by
  obtain ⟨hwr, hsent⟩ := inv.busy w r (.inl hw)
  obtain ⟨htag, hfits⟩ := (Fits.of_waits hwaits).mp (inv.fits i r held)
  refine ⟨htag, ?_⟩
  rcases hfits with ⟨-, -, hwritten⟩ | ⟨hdone | hreplying, -⟩
  · exact hwritten
  · cases hsent.symm.trans hdone
  · rw [hwr] at hw
    cases hw.symm.trans hreplying

/-- The regions of the other clients are as they were. -/
theorem fits_other {log : List (Handled Body)} {x : Handled Body} {j : ι} {r' : Nat} {v : View Body}
    (inv : Inv ops kind n s) (held : (s.client i).region? = some r)
    (hcall : ∀ c, x.call = some c → (s.client i).call? = some c)
    (hj : (s.client j).region? = some r')
    (hne : r' ≠ r) (hview : v = s.view n r') (hlog : log = x :: s.handled) :
    Fits ops log r' v (s.client j) := by
  subst hview hlog
  refine (inv.fits j r' hj).cons fun c hc hx => ?_
  have hji : i ≠ j := by
    rintro rfl
    exact hne (Option.some.inj (hj.symm.trans held))
  exact (inv.apart i j hji).call c (hcall c hx) hc

/-- A worker runs `handle_ops`. -/
theorem handle {b : Body} {tee : σ} (inv : Inv ops kind n s) (hw : s.worker w = .handle r)
    (hrun : ops.handleOps w s.tee (s.body r) = some (b, tee)) :
    Inv ops kind n { s.workerGoto w (.reply r) with
      body := Function.update s.body r b
      tee := tee
      handled := ⟨w, r, s.tag r, s.body r, b⟩ :: s.handled } := by
  obtain ⟨hwr, hsent⟩ := inv.busy w r (.inl hw)
  obtain ⟨i, call, sent, hwaits, held⟩ := inv.request (.inl hw)
  obtain ⟨htag, hwritten⟩ := inv.written hw hwaits held
  have hbody : s.body r = sent := hwritten.body
  have hself : Function.update s.worker w (.reply r) (r % n) = .reply r := by
    rw [← hwr, Function.update_self]
  exact {
    bit := inv.bit
    looked := inv.looked
    apart := inv.apart
    fits := by
      intro j r' hj
      by_cases hne : r' = r
      · subst hne
        obtain rfl := inv.holder_unique held hj
        refine (Fits.of_waits hwaits).mpr ⟨htag, .inr ⟨.inr hself, ?_⟩⟩
        refine ⟨_, List.mem_cons_self, htag, rfl, hbody, ?_⟩
        show b = Function.update s.body r' b r'
        rw [Function.update_self]
      · refine inv.fits_other (x := ⟨w, r, s.tag r, s.body r, b⟩) held (fun c hc => ?_) hj hne ?_
          rfl
        · rw [hwaits.call?]
          exact htag.symm.trans hc
        · have hreply := replying_update (n := n) s w (.reply r) r'
            (by rw [hw]; nofun) fun h => hne (WorkerPc.reply.inj h).symm
          simp only [State.view, State.workerGoto, hreply, Function.update_of_ne hne]
    sent := inv.sent
    serves := Function.forall_update_iff s.worker (fun w pc => w < n → pc.region % n = w) |>.mpr
      ⟨fun _ => hwr.symm, fun w' _ => inv.serves w'⟩
    busy := by
      refine Function.forall_update_iff s.worker (fun w pc => ∀ r, pc = .handle r ∨ pc = .reply r →
        w = r % n ∧ s.status r = .sent) |>.mpr ⟨fun r' hr' => ?_, fun w' _ => inv.busy w'⟩
      rcases hr' with hr' | hr'
      · cases hr'
      · cases hr'
        exact ⟨hwr, hsent⟩
    fresh := inv.fresh
    timed := inv.timed
    alive := inv.alive
    log := by
      refine ⟨fun h hh => ?_, ?_, fun h hh => ?_⟩
      · rcases List.mem_cons.mp hh with rfl | hh
        · exact ⟨call, inv.fresh i call hwaits.call?, htag⟩
        · exact inv.log.tagged h hh
      · rw [List.map_cons]
        refine List.nodup_cons.mpr ⟨fun hmem => ?_, inv.log.once⟩
        obtain ⟨h, hh, heq⟩ := List.mem_map.mp hmem
        exact hwritten.unhandled h hh (heq.trans htag)
      · rcases List.mem_cons.mp hh with rfl | hh
        · exact ⟨hwr, s.tee, tee, hrun⟩
        · exact inv.log.ran h hh
    returned := fun x hx => (inv.returned x hx).cons _ }

/-- A worker sets `DONE`. -/
theorem reply (inv : Inv ops kind n s) (hw : s.worker w = .reply r) (hlt : w < n) :
    Inv ops kind n ((s.setStatus r .done).workerGoto w (.scan w)) := by
  obtain ⟨hwr, hsent⟩ := inv.busy w r (.inr hw)
  obtain ⟨i, call, sent, hwaits, held⟩ := inv.request (.inr hw)
  have hreplying : (s.view n r).replying := by
    show s.worker (r % n) = .reply r
    rw [← hwr, hw]
  obtain ⟨htag, hanswered⟩ : s.tag r = some call ∧ Answered s.handled r call sent (s.body r) := by
    obtain ⟨htag, ⟨-, hnot, -⟩ | ⟨-, hanswered⟩⟩ := (Fits.of_waits hwaits).mp (inv.fits i r held)
    · exact absurd hreplying hnot
    · exact ⟨htag, hanswered⟩
  exact {
    bit := inv.bit
    looked := inv.looked
    apart := inv.apart
    fits := by
      intro j r' hj
      by_cases hne : r' = r
      · subst hne
        obtain rfl := inv.holder_unique held hj
        exact (Fits.of_waits hwaits).mpr ⟨htag, .inr ⟨.inl (Function.update_self ..), hanswered⟩⟩
      · have hview : ((s.setStatus r .done).workerGoto w (.scan w)).view n r' = s.view n r' := by
          have hreply := replying_update (n := n) s w (.scan w) r'
            (by rw [hw]; exact fun h => hne (WorkerPc.reply.inj h).symm) nofun
          simp only [State.view, State.workerGoto, State.setStatus, hreply,
            Function.update_of_ne hne]
        rw [hview]
        exact inv.fits j r' hj
    sent := by
      intro r' hr'
      by_cases hne : r' = r
      · subst hne
        cases (Function.update_self ..).symm.trans hr'
      · exact inv.sent r' ((Function.update_of_ne hne ..).symm.trans hr')
    serves := Function.forall_update_iff s.worker (fun w pc => w < n → pc.region % n = w) |>.mpr
      ⟨fun _ => Nat.mod_eq_of_lt hlt, fun w' _ => inv.serves w'⟩
    busy := by
      refine Function.forall_update_iff s.worker
        (fun w pc => ∀ r', pc = .handle r' ∨ pc = .reply r' →
          w = r' % n ∧ Function.update s.status r .done r' = .sent) |>.mpr
        ⟨fun r' hr' => ?_, fun w' hw' r' hr' => ?_⟩
      · rcases hr' with hr' | hr'
        · cases hr'
        · cases hr'
      · obtain ⟨hw'r, hsent'⟩ := inv.busy w' r' hr'
        have hne : r' ≠ r := by
          rintro rfl
          exact hw' (hw'r.trans hwr.symm)
        rw [Function.update_of_ne hne]
        exact ⟨hw'r, hsent'⟩
    fresh := inv.fresh
    timed := inv.timed
    alive := inv.alive
    log := inv.log
    returned := inv.returned }

theorem workerStep (inv : Inv ops kind n s) (hlt : w < n)
    (h : s.workerStep ops n w = some s') : Inv ops kind n s' := by
  have hserves := inv.serves w hlt
  have hown : w % n = w := Nat.mod_eq_of_lt hlt
  have hmove {wpc : WorkerPc} (hold : ∀ r, s.worker w ≠ .reply r) (hnew : ∀ r, wpc ≠ .reply r)
      (hhandle : ∀ r, wpc ≠ .handle r) (hregion : wpc.region % n = w) :
      Inv ops kind n (s.workerGoto w wpc) :=
    inv.workerMove hold hnew hregion fun r hr => absurd hr (hhandle r)
  cases hpc : s.worker w with
  | scan r =>
      have hr : r % n = w := by
        rw [hpc] at hserves
        exact hserves
      have hold : ∀ r, s.worker w ≠ .reply r := by
        rw [hpc]
        nofun
      simp only [State.workerStep, hpc] at h
      split at h
      next =>
        split at h
        next =>
          cases h
          exact hmove hold nofun nofun hr
        next =>
          cases h
          exact hmove hold nofun nofun ((Nat.add_mod_right r n).trans hr)
      next =>
        cases h
        exact hmove hold nofun nofun hown
  | test r =>
      have hr : r % n = w := by
        rw [hpc] at hserves
        exact hserves
      have hold : ∀ r, s.worker w ≠ .reply r := by
        rw [hpc]
        nofun
      simp only [State.workerStep, hpc] at h
      split at h
      next hsent =>
        cases h
        refine inv.workerMove hold nofun hr fun r' hr' => ?_
        cases hr'
        exact hsent
      next =>
        cases h
        exact hmove hold nofun nofun ((Nat.add_mod_right r n).trans hr)
  | handle r =>
      obtain ⟨i, call, sent, hwaits, held⟩ := inv.request (.inl hpc)
      have hwritten := (inv.written hpc hwaits held).2
      have hcommand : 0 < ops.reqType (s.body r) := by
        rw [show s.body r = sent from hwritten.body]
        exact hwritten.command
      simp only [State.workerStep, hpc, if_pos hcommand, Option.map_eq_some_iff] at h
      obtain ⟨⟨b, tee⟩, hrun, rfl⟩ := h
      exact inv.handle hpc hrun
  | reply r =>
      simp only [State.workerStep, hpc, Option.some.injEq] at h
      subst h
      exact inv.reply hpc hlt

end Inv

end Workers

/-! ## All steps -/

section All

variable [DecidableEq ι] {ops : Ops Body σ} {kind : ι → Kind} {n : Nat} {s s' : State ι Body σ}
  {l : Label ι Body}

theorem Inv.step (inv : Inv ops kind n s) (safe : SafeTimeout n s l)
    (h : s.step ops kind n l = some s') : Inv ops kind n s' := by
  cases l with
  | client i => exact inv.clientStep safe h
  | call i b =>
      simp only [State.step] at h
      split at h
      next r hpc =>
        simp only [Option.ite_none_right_eq_some, Option.some.injEq] at h
        obtain ⟨hcommand, rfl⟩ := h
        have held : (s.client i).region? = some r := congrArg Pc.region? hpc
        have hne := inv.status_ne_sent held (congrArg Pc.waits? hpc)
        have hunhandled : Unhandled s.handled s.calls := fun h hh hcall => by
          obtain ⟨c, hlt, hc⟩ := inv.log.tagged h hh
          cases hc.symm.trans hcall
          exact Nat.lt_irrefl _ hlt
        have hnew (j : ι) (_ : i ≠ j) : (s.client j).call? ≠ some s.calls := fun hj =>
          Nat.lt_irrefl _ (inv.fresh j _ hj)
        rw [State.setBody_goto_eq_write]
        cases kind i with
        | extension | wal =>
            refine inv.write held rfl (fun w hb => (inv.busy w r hb).2)
              (fun hsent => absurd hsent hne) ⟨rfl, rfl, hunhandled, hcommand⟩
              (fun c hc => ?_) nofun
              (Nat.le_succ _) inv.returned
            cases hc
            exact ⟨Nat.lt_succ_self _, hnew⟩
      next => cases h
  | giveUp i =>
      simp only [State.step] at h
      split at h
      next r hpc =>
        split at h
        next => cases h
        next =>
          cases h
          exact inv.outside (congrArg Pc.waits? hpc) rfl rfl nofun nofun
      next => cases h
  | timeout i =>
      simp only [State.step] at h
      split at h
      next r call sent hpc =>
        simp only [Option.ite_none_right_eq_some, Option.some.injEq] at h
        obtain ⟨⟨hkind, -⟩, rfl⟩ := h
        have hfits := inv.fits_of hpc rfl
        exact inv.move (congrArg Pc.region? hpc) rfl (fun _ => rfl) hfits
          (fun c hc => (congrArg Pc.call? hpc).trans hc) fun _ _ _ _ => hkind
      next => cases h
  | exit i =>
      simp only [State.step] at h
      split at h
      next r hpc =>
        have held : (s.client i).region? = some r := congrArg Pc.region? hpc
        have hne := inv.status_ne_sent held (congrArg Pc.waits? hpc)
        cases h
        exact inv.move held rfl (fun hsent => absurd hsent hne) trivial nofun nofun
      next => cases h
  | worker w =>
      simp only [State.step, Option.ite_none_right_eq_some] at h
      exact inv.workerStep h.1 h.2

/-- The invariant holds along every run in which no call is taken back from a worker. -/
theorem inv_of_path {tee : σ}
    (path : Machine.Path (State.step ops kind n) (SafeTimeout n) (State.start ops tee) s) :
    Inv ops kind n s :=
  path.invariant (I := Inv ops kind n) (inv_start ops kind n tee)
    fun _ _ _ inv safe h => inv.step safe h

end All

end Rpc

end Zeno
