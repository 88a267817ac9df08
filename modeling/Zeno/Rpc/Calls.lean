import Zeno.Rpc.Progress
import Zeno.Tee.Ops
import Zeno.Wal.Restart

/-!
# Calls of the server

The calls of the extension are exclusive and handled exactly once
(`extension_calls_exactly_once`): a `TEEInvoker` never takes a request back, so
nothing in its runs needs a guard.

The WAL client takes a request back when it times out.  If the worker has tested
for `SENT` by then and not yet set `DONE`, the `DONE` comes late: the region may
have been released and claimed again, and the next client takes it for its own
(`late_done_completes_next_call`).  In the runs that exclude this, a call
returns only what was handled for it (`wal_calls_own_completion`).

The theorems are about any server.  The server of the repository is the one that
runs `handle_ops` on its stores (`serverOps`).
-/

namespace Zeno

/-! ## The commands -/

/-- The command of a calculation. -/
def CalcOp.cmd : CalcOp → Int
  | .intPlus => 27
  | .intMinus => 28
  | .intMult => 29
  | .intDiv => 30
  | .intMod => 31
  | .intPow => 32
  | .floatPlus => 35
  | .floatMinus => 36
  | .floatMult => 37
  | .floatDiv => 38
  | .floatMod => 39
  | .floatPow => 40
  | .textConcat => 45

/-- The command of a comparison. -/
def CmpOp.cmd : CmpOp → Int
  | .intCmp => 33
  | .floatCmp => 41
  | .textCmp => 43
  | .textLike => 46
  | .timestampCmp => 47

/-- The place of a type in the tables of commands that have one for each type. -/
def Ty.cmdIndex : Ty → Int
  | .int => 0
  | .float => 1
  | .text => 2
  | .timestamp => 3

/-- The command of a request, `defs.h`. -/
def Request.cmd : Request → Int
  | .put val => 1 + 2 * val.1.cmdIndex
  | .getNum n _ => 2 + 2 * (Ty.num n).cmdIndex
  | .getText _ => 2 + 2 * Ty.text.cmdIndex
  | .enc t _ => 11 + 2 * t.cmdIndex
  | .dec t _ => 12 + 2 * t.cmdIndex
  | .putEnc t _ => 19 + 2 * t.cmdIndex
  | .getEnc t _ => 20 + 2 * t.cmdIndex
  | .calculate op _ _ => op.cmd
  | .cmp op _ _ => op.cmd
  | .intSumBulk _ => 34
  | .floatSumBulk _ => 42
  | .substring _ _ _ => 44
  | .extractYear _ => 48
  | .promote t _ _ _ => 49 + t.cmdIndex
  | .localClear => 53
  | .walMaterialize _ => 58
  | .walReplay _ => 59
  | .ckpt => 60

namespace Rpc

/-- The body of a region: a request, and the reply to it. -/
structure Message where
  /-- The request. -/
  req : Option Request
  /-- The reply. -/
  reply : Option Reply

/-- A request as a client writes it. -/
def Message.of (req : Request) : Message := ⟨some req, none⟩

/-- The server of the repository. -/
def serverOps (e : Env) (g : Gcm) : Ops Message Server where
  zeroed := ⟨none, none⟩
  reqType m := (m.req.map Request.cmd).getD 0
  handleOps w s m := do
    let req ← m.req
    let (reply, s) ← s.handle e g w req
    some (⟨some req, some reply⟩, s)

variable {ι Body σ : Type} [DecidableEq ι] {ops : Ops Body σ} {kind : ι → Kind} {n : Nat}
  {tee : σ} {s : State ι Body σ}

/-! ## Calls of the extension -/

/-- Calls are exclusive, and handled once. -/
structure ExactlyOnce (ops : Ops Body σ) (kind : ι → Kind) (n : Nat) (s : State ι Body σ) :
    Prop where
  /-- No two clients hold the same region. -/
  exclusive : ∀ i j r, (s.client i).region? = some r → (s.client j).region? = some r → i = j
  /-- A worker handles requests only in regions that a client holds. -/
  held : ∀ w r, s.worker w = .handle r ∨ s.worker w = .reply r →
    ∃ i, (s.client i).region? = some r
  /-- What is handled is a call, handled by the worker of the region. -/
  handled : ∀ h ∈ s.handled, h.worker = h.region % n ∧ ∃ c, c < s.calls ∧ h.call = some c
  /-- No call is handled twice. -/
  atMostOnce : ∀ c, (s.handled.map (·.call)).count (some c) ≤ 1
  /-- A call that has returned was handled once, and what it copied is what `handle_ops`
  produced, in the worker of the region, for the body that it had written. -/
  returned : ∀ x ∈ s.returned, (s.handled.map (·.call)).count (some x.call) = 1 ∧
    ∃ h ∈ s.handled, h.call = some x.call ∧ h.region = x.region ∧ h.worker = x.region % n ∧
      h.input = x.sent ∧ h.output = x.got ∧
        ∃ t t', ops.handleOps h.worker t h.input = some (h.output, t')
  /-- A call that waits comes to be handled, if the worker of its region goes on and no check
  ends it. -/
  comes : ∀ i r c sent, s.client i = .wait r c sent → 0 < n → ops.Total →
    ∃ s', Works ops kind n (r % n) s s' ∧ ¬ Unhandled s'.handled c
  /-- The check of `release_shm_region` never fails. -/
  released : ∀ i, s.client i ≠ .failed

theorem Inv.exactlyOnce (inv : Inv ops kind n s) : ExactlyOnce ops kind n s where
  exclusive _ _ _ hi hj := inv.holder_unique hi hj
  held _ _ hw := by
    obtain ⟨i, -, -, -, hi⟩ := inv.request hw
    exact ⟨i, hi⟩
  handled h hh := ⟨(inv.log.ran h hh).1, inv.log.tagged h hh⟩
  atMostOnce c := List.nodup_iff_count_le_one.mp inv.log.once (some c)
  returned x hx := by
    obtain ⟨h, hh, hcall, hregion, hinput, houtput⟩ := inv.returned x hx
    obtain ⟨hworker, hran⟩ := inv.log.ran h hh
    refine ⟨List.count_eq_one_of_mem inv.log.once ?_, h, hh, hcall, hregion, ?_, hinput, houtput,
      hran⟩
    · rw [← hcall]
      exact List.mem_map_of_mem hh
    · rw [← hregion]
      exact hworker
  comes i r c sent hpc hn total :=
    exists_handled inv total hn (i := i) (.inl hpc) (congrArg Pc.region? hpc)
  released := inv.alive

/-- In every run of the extension's clients and the workers, calls are exclusive and handled
exactly once. -/
theorem extension_calls_exactly_once
    (path : Machine.Path (State.step ops (fun _ : ι => .extension) n) Machine.free
      (State.start ops tee) s) : ExactlyOnce ops (fun _ => .extension) n s := by
  have inv : Inv ops (fun _ => .extension) n s := by
    refine path.invariant (I := Inv ops (fun _ => .extension) n) (inv_start ops _ n tee)
      fun a l b inv _ hstep => inv.step ?_ hstep
    cases l with
    | client i =>
        -- an extension's call has no timeout
        simp only [SafeTimeout]
        split
        next r c sent hpc => cases inv.timed i r c sent hpc
        next => trivial
    | _ => trivial
  exact inv.exactlyOnce

/-- One client claims the first region, puts the integer 7 and returns. -/
def onePut : List (Label Unit Message) :=
  [.client (), .client (), .client (), .client (), .call () (.of (.put ⟨.int, (7 : Num.int.Val)⟩)),
    .client (), .worker 0, .worker 0, .worker 0, .worker 0, .client (), .client (), .client ()]

theorem extension_calls_exactly_once_onePut :
    ∃ s : State Unit Message Server,
      Machine.Path (State.step (serverOps .trivial .plain) (fun _ => .extension) 15) Machine.free
          (State.start (serverOps .trivial .plain) .new) s ∧
        s.returned.map (fun x => (x.call, x.got.reply)) = [(0, some (.rid 0))] ∧
          ExactlyOnce (serverOps .trivial .plain) (fun _ => .extension) 15 s := by
  have hrun : ((Machine.run (State.step (serverOps .trivial .plain) (fun _ => .extension) 15)
      (State.start (serverOps .trivial .plain) .new) onePut).map fun s =>
        s.returned.map fun x => (x.call, x.got.reply)) = some [(0, some (.rid 0))] := by
    decide +kernel
  obtain ⟨s, hs, hreturned⟩ := Option.map_eq_some_iff.mp hrun
  have path : Machine.Path _ Machine.free _ s := Machine.path_of_run (fun _ _ _ => trivial) hs
  exact ⟨s, path, hreturned, extension_calls_exactly_once path⟩

/-! ## Calls of the WAL -/

/-- In every run in which no call is taken back from a worker, a call of the WAL returns only
after it was handled itself, and its region then holds what `handle_ops` produced for the
body that it had written. -/
theorem wal_calls_own_completion
    (path : Machine.Path (State.step ops kind n) (SafeTimeout n) (State.start ops tee) s) :
    (∀ i r c sent got, kind i = .wal → s.client i = .finish r c sent got →
      Answered s.handled r c sent (s.body r)) ∧
    ∀ x ∈ s.returned, kind x.client = .wal → Answered s.handled x.region x.call x.sent x.got := by
  have inv := inv_of_path path
  refine ⟨fun i r c sent got _ hpc => ?_, fun x hx _ => inv.returned x hx⟩
  exact (inv.fits_of hpc rfl).2

/-- A client claims the first region. -/
def claimRegion (i : Bool) : List (Label Bool Message) := [.client i, .client i, .client i]

/-- A client calls, and waits. -/
def sendRequest (i : Bool) (req : Request) : List (Label Bool Message) :=
  [.call i (.of req), .client i, .client i]

/-- A call times out, and the client releases its region. -/
def timeOut (i : Bool) : List (Label Bool Message) :=
  [.timeout i, .client i, .client i, .client i, .client i]

/-- The machine of two WAL clients. -/
def twoWal : State Bool Message Server → Label Bool Message → Option (State Bool Message Server) :=
  State.step (serverOps .trivial .plain) (fun _ => .wal) 15

/-- The start of it. -/
def twoWalStart : State Bool Message Server := State.start (serverOps .trivial .plain) .new

/-- A checkpoint times out before the worker has seen it.  The next client claims the region
and replays a payload. -/
theorem wal_calls_own_completion_timeOut :
    ∃ s, Machine.Path twoWal (SafeTimeout 15) twoWalStart s ∧
      s.returned.map (fun x => (x.client, x.call, x.got.reply)) = [(true, 1, some .done)] ∧
        ∀ x ∈ s.returned, Answered s.handled x.region x.call x.sent x.got := by
  have hrun : ((Machine.runOk twoWal (SafeTimeout 15) twoWalStart
      (claimRegion false ++ sendRequest false .ckpt ++ timeOut false ++
        claimRegion true ++ sendRequest true (.walReplay sevenPayload) ++
          [.worker 0, .worker 0, .worker 0, .worker 0, .client true, .client true])).map fun s =>
        s.returned.map fun x => (x.client, x.call, x.got.reply)) =
      some [(true, 1, some .done)] := by
    decide +kernel
  obtain ⟨s, hs, hreturned⟩ := Option.map_eq_some_iff.mp hrun
  have path := Machine.path_of_runOk hs
  exact ⟨s, path, hreturned, fun x hx => (wal_calls_own_completion path).2 x hx rfl⟩

/-- A checkpoint times out after the worker has handled it and before it sets `DONE`.  The
next client claims the region and sends a payload to replay, and the late `DONE` completes
that call: it returns, and the payload was not replayed. -/
theorem late_done_completes_next_call :
    ∃ s, Machine.Path twoWal Machine.free twoWalStart s ∧
      s.returned.map (fun x => (x.client, x.call)) = [(true, 1)] ∧
        s.handled.map (·.call) = [some 0] ∧ s.tee.kv.get .int seven.rid = some 0 := by
  have hrun : ((Machine.run twoWal twoWalStart
      (claimRegion false ++ sendRequest false .ckpt ++ [.worker 0, .worker 0, .worker 0] ++
        timeOut false ++ claimRegion true ++ sendRequest true (.walReplay sevenPayload) ++
          [.worker 0, .client true, .client true])).map fun s =>
        (s.returned.map fun x => (x.client, x.call), s.handled.map (·.call),
          s.tee.kv.get .int seven.rid)) =
      some ([(true, 1)], [some 0], some 0) := by
    decide +kernel
  obtain ⟨s, hs, heq⟩ := Option.map_eq_some_iff.mp hrun
  simp only [Prod.mk.injEq] at heq
  obtain ⟨hreturned, hhandled, hread⟩ := heq
  exact ⟨s, Machine.path_of_run (fun _ _ _ => trivial) hs, hreturned, hhandled, hread⟩

end Rpc

end Zeno
