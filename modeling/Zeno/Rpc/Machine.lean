import Zeno.Lib.Bitmap
import Zeno.Lib.Machine
import Zeno.Wal.Payload

/-!
# The shared-memory RPC

Clients and workers meet in regions of shared memory.  A client claims a region
by setting its bit in a bitmap (`claim_shm_region`), writes a request, sets the
status to `SENT` and waits for `DONE`.  A worker serves every `worker_count`-th
region.  It tests the bit and the status, runs `handle_ops` on the region and
sets `DONE`.

There are two kinds of clients: the `TEEInvoker` of the extension, and the RPC
client of the WAL (`ZenoSendRequest`), which gives up when a request takes too
long.  The machine has one step for each access to the shared memory, and the
steps interleave in any order.

A region is a status and a body.  What `handle_ops` does to a body is a
parameter.  Numbers of calls, the tag of a region and the two logs are not in
the source: they record which call wrote a region, which bodies were handled
and what the calls returned.
-/

namespace Zeno

namespace Rpc

/-! ## Shared memory -/

/-- `SHM_SIZE`. -/
def shmSize : Nat := 540 * 1024 * 1024

/-- `META_REQ_SIZE`. -/
def metaReqSize : Nat := 1024

/-- `MAX_REGION_NUM`. -/
def maxRegionNum : Nat := (shmSize - metaReqSize) / reqRegionSize

/-- `BITMAP_BITS`. -/
def bitmapBits : Nat := 64

/-- `ReqStatus`. -/
inductive Status where
  | none | sent | done | exit
deriving DecidableEq

/-- What the server does with the body of a region. -/
structure Ops (Body σ : Type) where
  /-- A region that was set to zero. -/
  zeroed : Body
  /-- The command in a region. -/
  reqType : Body → Int
  /-- `handle_ops` in a worker.  It is undefined where a check ends the worker. -/
  handleOps : Nat → σ → Body → Option (Body × σ)

/-! ## Clients and workers -/

/-- The two clients. -/
inductive Kind where
  /-- `TEEInvoker`. -/
  | extension
  /-- `ZenoSendRequest` and the functions around it. -/
  | wal
deriving DecidableEq

/-- Where a client stands.  From `zero` to `release` it holds the region `r`. -/
inductive Pc (Body : Type) where
  /-- In `claim_shm_region`, at the load of the word of a region. -/
  | claim (r : Nat)
  /-- At the compare-and-swap, with the word it loaded. -/
  | cas (r : Nat) (old : BitVec bitmapBits)
  /-- At the `memset` of the region. -/
  | zero (r : Nat)
  /-- At `status = NONE` of the constructor. -/
  | init (r : Nat)
  /-- Between requests. -/
  | idle (r : Nat)
  /-- At the test for a busy buffer, with the body of this call. -/
  | ready (r call : Nat) (sent : Body)
  /-- At `status = SENT`. -/
  | send (r call : Nat) (sent : Body)
  /-- At the test for `DONE`. -/
  | wait (r call : Nat) (sent : Body)
  /-- At `copyResultFrom`. -/
  | copy (r call : Nat) (sent : Body)
  /-- At `status = NONE` of a call that succeeded. -/
  | finish (r call : Nat) (sent got : Body)
  /-- At `status = NONE` of a call that timed out. -/
  | timedOut (r call : Nat) (sent : Body)
  /-- In `freeBuffer`, at the test for `SENT`. -/
  | drain (r : Nat)
  /-- At its `status = NONE`. -/
  | clear (r : Nat)
  /-- At `release_shm_region`. -/
  | release (r : Nat)
  /-- The process has ended. -/
  | gone
  /-- The check of `release_shm_region` has failed. -/
  | failed

namespace Pc

variable {Body : Type}

/-- The region a client holds. -/
def region? : Pc Body → Option Nat
  | .claim _ | .cas _ _ | .gone | .failed => none
  | .zero r | .init r | .idle r | .drain r | .clear r | .release r => some r
  | .ready r _ _ | .send r _ _ | .wait r _ _ | .copy r _ _ | .timedOut r _ _ => some r
  | .finish r _ _ _ => some r

/-- The call a client is in. -/
def call? : Pc Body → Option Nat
  | .ready _ c _ | .send _ c _ | .wait _ c _ | .copy _ c _ | .timedOut _ c _ => some c
  | .finish _ c _ _ => some c
  | _ => none

end Pc

/-- Where a worker stands in `fork_ops_worker` and `handle_request`. -/
inductive WorkerPc where
  /-- At the test of the bit of a region. -/
  | scan (r : Nat)
  /-- At the test for `SENT`. -/
  | test (r : Nat)
  /-- At `handle_ops`. -/
  | handle (r : Nat)
  /-- At `status = DONE`. -/
  | reply (r : Nat)
deriving DecidableEq

/-- The region a worker is at. -/
def WorkerPc.region : WorkerPc → Nat
  | .scan r | .test r | .handle r | .reply r => r

/-- A record of a run of `handle_ops`. -/
structure Handled (Body : Type) where
  /-- The worker. -/
  worker : Nat
  /-- The region. -/
  region : Nat
  /-- The call that had written it. -/
  call : Option Nat
  /-- The body before. -/
  input : Body
  /-- The body after. -/
  output : Body

/-- A record of a call that returned. -/
structure Returned (ι Body : Type) where
  /-- The client. -/
  client : ι
  /-- Its region. -/
  region : Nat
  /-- The number of the call. -/
  call : Nat
  /-- The body it had written. -/
  sent : Body
  /-- The body it copied its result from. -/
  got : Body

/-- The state of the system. -/
structure State (ι Body σ : Type) where
  /-- The bitmap of the claimed regions. -/
  bitmap : Nat → BitVec bitmapBits
  /-- The status of each region. -/
  status : Nat → Status
  /-- The body of each region. -/
  body : Nat → Body
  /-- The state of the server. -/
  tee : σ
  /-- The clients. -/
  client : ι → Pc Body
  /-- The workers. -/
  worker : Nat → WorkerPc
  /-- The call that has written each region. -/
  tag : Nat → Option Nat
  /-- The calls so far. -/
  calls : Nat
  /-- The runs of `handle_ops` so far. -/
  handled : List (Handled Body)
  /-- The calls that returned. -/
  returned : List (Returned ι Body)

/-- One step of the system. -/
inductive Label (ι Body : Type) where
  /-- A client goes on. -/
  | client (i : ι)
  /-- A client calls, and writes a body to its region. -/
  | call (i : ι) (body : Body)
  /-- A client that has looked at all regions gives up. -/
  | giveUp (i : ι)
  /-- The time of a call is over. -/
  | timeout (i : ι)
  /-- A client ends between calls. -/
  | exit (i : ι)
  /-- A worker goes on. -/
  | worker (w : Nat)

namespace State

variable {ι Body σ : Type} [DecidableEq ι]

/-- A client moves. -/
def goto (s : State ι Body σ) (i : ι) (pc : Pc Body) : State ι Body σ :=
  { s with client := Function.update s.client i pc }

/-- A worker moves. -/
def workerGoto (s : State ι Body σ) (w : Nat) (pc : WorkerPc) : State ι Body σ :=
  { s with worker := Function.update s.worker w pc }

/-- The status of a region is stored. -/
def setStatus (s : State ι Body σ) (r : Nat) (st : Status) : State ι Body σ :=
  { s with status := Function.update s.status r st }

/-- The body of a region is stored, by a call. -/
def setBody (s : State ι Body σ) (r : Nat) (b : Body) (tag : Option Nat) : State ι Body σ :=
  { s with body := Function.update s.body r b, tag := Function.update s.tag r tag }

/-- The word of a region in the bitmap is stored. -/
def setWord (s : State ι Body σ) (r : Nat) (x : BitVec bitmapBits) : State ι Body σ :=
  { s with bitmap := Function.update s.bitmap (r / bitmapBits) x }

/-- The next step of a client. -/
def clientStep (ops : Ops Body σ) (kind : ι → Kind) (s : State ι Body σ) (i : ι) :
    Option (State ι Body σ) :=
  match s.client i with
  | .claim r =>
      if r < maxRegionNum then
        let old := s.bitmap (r / bitmapBits)
        if Bitmap.testIn old r then some (s.goto i (.claim (r + 1)))
        else some (s.goto i (.cas r old))
      else some (s.goto i (.claim 0))
  | .cas r old =>
      if s.bitmap (r / bitmapBits) = old then
        some ((s.setWord r (Bitmap.setIn old r)).goto i (.zero r))
      else some (s.goto i (.claim r))
  | .zero r =>
      let next := match kind i with
        | .extension => .init r
        | .wal => .idle r
      some (((s.setStatus r .none).setBody r ops.zeroed none).goto i next)
  | .init r => some ((s.setStatus r .none).goto i (.idle r))
  | .idle _ => none
  | .ready r call sent =>
      if s.status r = .none then some (s.goto i (.send r call sent)) else some (s.goto i (.drain r))
  | .send r call sent => some ((s.setStatus r .sent).goto i (.wait r call sent))
  | .wait r call sent =>
      if s.status r = .done then
        match kind i with
        | .extension => some (s.goto i (.copy r call sent))
        | .wal => some (s.goto i (.finish r call sent (s.body r)))
      else some s
  | .copy r call sent => some (s.goto i (.finish r call sent (s.body r)))
  | .finish r call sent got =>
      let record : Returned ι Body := ⟨i, r, call, sent, match kind i with
        | .extension => got
        | .wal => s.body r⟩
      some { (s.setStatus r .none).goto i (.idle r) with returned := record :: s.returned }
  | .timedOut r _ _ => some ((s.setStatus r .none).goto i (.drain r))
  | .drain r => if s.status r = .sent then some s else some (s.goto i (.clear r))
  | .clear r => some ((s.setStatus r .none).goto i (.release r))
  | .release r =>
      let old := s.bitmap (r / bitmapBits)
      let next := if Bitmap.testIn old r then .gone else .failed
      some ((s.setWord r (Bitmap.clearIn old r)).goto i next)
  | .gone | .failed => none

/-- The next step of a worker. -/
def workerStep (ops : Ops Body σ) (n : Nat) (s : State ι Body σ) (w : Nat) :
    Option (State ι Body σ) :=
  match s.worker w with
  | .scan r =>
      if r < maxRegionNum then
        if Bitmap.test s.bitmap r then some (s.workerGoto w (.test r))
        else some (s.workerGoto w (.scan (r + n)))
      else some (s.workerGoto w (.scan w))
  | .test r =>
      if s.status r = .sent then some (s.workerGoto w (.handle r))
      else some (s.workerGoto w (.scan (r + n)))
  | .handle r =>
      if 0 < ops.reqType (s.body r) then
        (ops.handleOps w s.tee (s.body r)).map fun (b, tee) =>
          { s.workerGoto w (.reply r) with
            body := Function.update s.body r b
            tee := tee
            handled := ⟨w, r, s.tag r, s.body r, b⟩ :: s.handled }
      else some (s.workerGoto w (.reply r))
  | .reply r => some ((s.setStatus r .done).workerGoto w (.scan w))

/-- One step of `n` workers and their clients. -/
def step (ops : Ops Body σ) (kind : ι → Kind) (n : Nat) (s : State ι Body σ) :
    Label ι Body → Option (State ι Body σ)
  | .client i => s.clientStep ops kind i
  | .call i b =>
      match s.client i with
      | .idle r =>
          if 0 < ops.reqType b then
            let next := match kind i with
              | .extension => .send r s.calls b
              | .wal => .ready r s.calls b
            some { (s.setBody r b (some s.calls)).goto i next with calls := s.calls + 1 }
          else none
      | _ => none
  | .giveUp i =>
      match s.client i with
      | .claim r => if r < maxRegionNum then none else some (s.goto i .gone)
      | _ => none
  | .timeout i =>
      match s.client i with
      | .wait r call sent =>
          if kind i = .wal ∧ s.status r ≠ .done then some (s.goto i (.timedOut r call sent))
          else none
      | _ => none
  | .exit i =>
      match s.client i with
      | .idle r => some (s.goto i (.drain r))
      | _ => none
  | .worker w => if w < n then s.workerStep ops n w else none

/-- The shared memory as the server sets it up, before any client has come. -/
def start (ops : Ops Body σ) (tee : σ) : State ι Body σ where
  bitmap _ := 0
  status _ := .none
  body _ := ops.zeroed
  tee := tee
  client _ := .claim 0
  worker w := .scan w
  tag _ := none
  calls := 0
  handled := []
  returned := []

end State

end Rpc

end Zeno
