import Zeno.Lib.Machine
import Zeno.Lib.Ring
import Zeno.Tee.Ops

/-!
# The vectors of a worker

AES-GCM must never see two messages under one vector.  A worker draws its vector at
random once (`gcm_init`), and every message it writes takes the next one.  Messages are
written in two places, `encrypt_bytes` and `materializeBatch`, and both go through
`gcm_encrypt`.

A `CipherRun` is a worker process seen from its cipher.  The vectors in the messages it
has written are consecutive places of a ring of `256 ^ IV_SIZE` (`CountedFrom`), so they
are pairwise distinct as long as the ring has not gone round.  An encryption that fails
has placed its vector all the same, and it is the last of its process.

The requests of a server are such calls (`ServerLog.process_step`), whatever the other
workers do in between (`ServerLog.ivs_nodup`).
-/

namespace Zeno

/-! ## The cipher of a process -/

/-- A call through which a worker encrypts. -/
inductive CipherCall where
  /-- `encrypt_bytes`. -/
  | encryptBytes (src : List UInt8) (expDstLen : Nat)
  /-- `materializeBatch`, with the files as the call finds them. -/
  | materializeBatch (kv : KvMap) (items : List WalRidItem) (capacity : Nat)

/-- A worker process and what it has encrypted. -/
structure CipherRun where
  /-- The vector. -/
  iv : Iv
  /-- The messages `gcm_encrypt` has written, in order. -/
  outputs : List (List UInt8)
  /-- A check failed and the process has exited. -/
  ended : Bool

/-- The vector at the front of a message. -/
def messageIv (message : List UInt8) : List UInt8 := message.take ivSize

namespace CipherRun

/-- A process after `gcm_init` has drawn a vector. -/
def gcmInit (iv : Iv) : CipherRun := ⟨iv, [], false⟩

/-- One call.  The length `encrypt_bytes` expects is checked when the message is already
written.  The checks of `materializeBatch` come before the encryption, and an empty batch
is not encrypted. -/
def step (g : Gcm) (r : CipherRun) (call : CipherCall) : Option CipherRun :=
  if r.ended then none
  else
    match call with
    | .encryptBytes src expDstLen =>
        let res := Zeno.encryptBytes g r.iv src expDstLen
        some { iv := res.1.1, outputs := r.outputs ++ [res.1.2], ended := !res.2 }
    | .materializeBatch kv items capacity =>
        (Zeno.materializeBatch g r.iv kv items capacity).map fun res =>
          { iv := res.1
            outputs := if items = [] then r.outputs else r.outputs ++ [res.2]
            ended := false }

/-- The vectors in the messages. -/
def ivs (r : CipherRun) : List (List UInt8) := r.outputs.map messageIv

variable {g : Gcm} {start : Iv} {r r' : CipherRun} {call : CipherCall}

/-- A call encrypts once, or it is the empty batch and changes nothing. -/
theorem step_cases (h : r.step g call = some r') :
    (r'.iv = r.iv ∧ r'.outputs = r.outputs) ∨
      ∃ input, r'.iv = (gcmEncrypt g r.iv input).1 ∧
        r'.outputs = r.outputs ++ [(gcmEncrypt g r.iv input).2] := by
  simp only [step, Option.ite_none_left_eq_some] at h
  obtain ⟨-, h⟩ := h
  cases call with
  | encryptBytes src expDstLen =>
      cases h
      exact .inr ⟨src, rfl, rfl⟩
  | materializeBatch kv items capacity =>
      obtain ⟨res, hres, heq⟩ := Option.map_eq_some_iff.mp h
      cases heq
      by_cases hitems : items = []
      · subst hitems
        cases hres
        exact .inl ⟨rfl, rfl⟩
      · obtain ⟨plaintext, rfl⟩ := materializeBatch_gcmEncrypt hitems hres
        exact .inr ⟨plaintext, rfl, if_neg hitems⟩

/-! ## The vectors are counted -/

/-- The vector has moved on by one for each message, and the messages hold the vectors it
went through. -/
structure CountedFrom (start : Iv) (r : CipherRun) : Prop where
  iv : r.iv.value = (start.value + r.outputs.length) % 256 ^ ivSize
  ivs : r.ivs.map Bytes.ofBe =
    Ring.segment id (256 ^ ivSize) (start.value + 1) r.outputs.length

theorem countedFrom_gcmInit (start : Iv) : CountedFrom start (gcmInit start) where
  iv := by
    have hlt : start.value < 256 ^ ivSize := start.length_eq ▸ Bytes.ofBe_lt start.bytes
    exact (Nat.mod_eq_of_lt hlt).symm
  ivs := rfl

theorem CountedFrom.step (counted : CountedFrom start r) (h : r.step g call = some r') :
    CountedFrom start r' := by
  rcases step_cases h with ⟨hiv, hout⟩ | ⟨input, hiv, hout⟩
  · constructor
    · rw [hiv, hout]
      exact counted.iv
    · rw [CipherRun.ivs, hout]
      exact counted.ivs
  · -- the next vector is both the counter and what the new message starts with
    have hnext : r.iv.increment.value =
        (start.value + (r.outputs.length + 1)) % 256 ^ ivSize := by
      rw [Iv.value_increment, counted.iv, Nat.mod_add_mod, Nat.add_assoc]
    have hmessage : Bytes.ofBe (messageIv (gcmEncrypt g r.iv input).2) =
        (start.value + 1 + r.outputs.length) % 256 ^ ivSize := by
      rw [messageIv, take_gcmEncrypt, Nat.add_assoc, Nat.add_comm 1]
      exact hnext
    constructor
    · rw [hiv, hout, List.length_append, List.length_singleton]
      exact hnext
    · rw [hout, List.length_append, List.length_singleton, Ring.segment_succ, ← counted.ivs,
        CipherRun.ivs, hout, List.map_append, List.map_append]
      simp only [List.map_cons, List.map_nil, hmessage]
      rfl

theorem countedFrom (path : Machine.Path (step g) Machine.free (gcmInit start) r) :
    CountedFrom start r :=
  path.invariant (countedFrom_gcmInit start) fun _ _ _ counted _ h => counted.step h

/-- Before the ring has gone round, no vector comes twice. -/
theorem CountedFrom.nodup (counted : CountedFrom start r)
    (h : r.outputs.length ≤ 256 ^ ivSize) : r.ivs.Nodup := by
  apply List.Nodup.of_map Bytes.ofBe
  rw [counted.ivs]
  exact Ring.nodup_segment Function.injective_id _ h

end CipherRun

/-- `increment` counts, so the messages of a worker have distinct vectors. -/
theorem worker_never_reuses_iv (g : Gcm) :
    (∀ (size : Nat) (buf : List UInt8), buf.length = size →
      (increment buf size).length = size ∧
        Bytes.ofBe (increment buf size) = (Bytes.ofBe buf + 1) % 256 ^ size) ∧
      ∀ (start : Iv) (r : CipherRun),
        Machine.Path (CipherRun.step g) Machine.free (.gcmInit start) r →
          r.outputs.length < 2 ^ 96 → r.ivs.Nodup := by
  constructor
  · intro size buf hsize
    exact ⟨length_increment hsize, ofBe_increment hsize⟩
  · intro start r path hlt
    exact (CipherRun.countedFrom path).nodup hlt.le

/-- The largest vector: the first message of a process that draws it goes round to zero. -/
def Iv.last : Iv := ⟨List.replicate ivSize 0xFF, rfl⟩

/-- A number, an empty batch, a batch of one field, and a number with a wrong length. -/
def mixedCalls : List CipherCall :=
  [.encryptBytes [7, 0, 0, 0] 32,
    .materializeBatch .fresh [] zenoPayloadCapacity,
    .materializeBatch .fresh [⟨.int, Partition.default.rid 0⟩] zenoPayloadCapacity,
    .encryptBytes [7, 0, 0, 0] 31]

theorem worker_never_reuses_iv_mixed :
    Bytes.ofBe (increment Iv.last.bytes ivSize) =
        (Bytes.ofBe Iv.last.bytes + 1) % 256 ^ ivSize ∧
      ∃ r, Machine.run (CipherRun.step .plain) (.gcmInit .last) mixedCalls = some r ∧
        r.outputs.length = 3 ∧ r.ended = true ∧ r.ivs.Nodup := by
  have never := worker_never_reuses_iv .plain
  have hobs : (Machine.run (CipherRun.step .plain) (.gcmInit .last) mixedCalls).map
      (fun r => (r.outputs.length, r.ended)) = some (3, true) := by decide +kernel
  obtain ⟨r, hrun, hr⟩ := Option.map_eq_some_iff.mp hobs
  obtain ⟨hlen, hended⟩ := Prod.mk.inj hr
  have path : Machine.Path (CipherRun.step .plain) Machine.free (.gcmInit .last) r :=
    Machine.path_of_run (fun _ _ _ => trivial) hrun
  have hlt : r.outputs.length < 2 ^ 96 := by
    rw [hlen]
    decide
  exact ⟨(never.1 ivSize Iv.last.bytes rfl).2, r, hrun, hlen, hended, never.2 .last r path hlt⟩

/-! ## The requests of a server

A worker encrypts only in `handle_ops`, and a request encrypts at most once.  So what a
server does, seen from the cipher of one worker, is a run of the calls above. -/

/-- The bytes of a reply. -/
def Reply.message : Reply → List UInt8
  | .bytes bs => bs
  | _ => []

section

variable {e : Env} {g : Gcm} {tee tee' : Tee} {req : Request} {reply : Reply}

theorem CipherRun.step_encryptBytes (g : Gcm) (iv : Iv) (outputs : List (List UInt8))
    (src : List UInt8) :
    CipherRun.step g ⟨iv, outputs, false⟩ (.encryptBytes src (src.length + ivSize + tagSize)) =
      some ⟨(gcmEncrypt g iv src).1, outputs ++ [(gcmEncrypt g iv src).2], false⟩ := by
  simp [CipherRun.step, encryptBytes]

/-- A request that leaves a message is one call of the cipher. -/
theorem handleOps_encrypts (h : handleOps e g tee req = some (reply, tee'))
    (hreq : req.encrypts = true) (outputs : List (List UInt8)) :
    ∃ call, CipherRun.step g ⟨tee.iv, outputs, false⟩ call =
      some ⟨tee'.iv, outputs ++ [reply.message], false⟩ := by
  cases req with
  | walMaterialize items =>
      have hne : items ≠ [] := by
        rintro rfl
        cases hreq
      simp only [handleOps, Option.map_eq_some_iff] at h
      obtain ⟨res, hres, heq⟩ := h
      cases heq
      refine ⟨.materializeBatch tee.stores.kv items zenoPayloadCapacity, ?_⟩
      simp [CipherRun.step, hres, hne, Reply.message]
  | getEnc t key =>
      simp only [handleOps, Option.bind_eq_bind, Option.bind_eq_some_iff,
        Option.ite_none_right_eq_some] at h
      obtain ⟨value, -, -, heq⟩ := h
      cases heq
      exact ⟨_, CipherRun.step_encryptBytes g tee.iv outputs (plainBytes t value)⟩
  | enc t plaintext =>
      simp only [handleOps, Option.ite_none_right_eq_some] at h
      obtain ⟨-, heq⟩ := h
      cases heq
      exact ⟨_, CipherRun.step_encryptBytes g tee.iv outputs plaintext⟩
  | _ => cases hreq

end

/-- A server, and the messages its workers have left in the regions. -/
structure ServerLog where
  /-- The server. -/
  server : Server
  /-- The messages in order, each with the worker that wrote it. -/
  messages : List (Nat × List UInt8)

namespace ServerLog

/-- A worker handles a request. -/
def step (e : Env) (g : Gcm) (l : ServerLog) (call : Nat × Request) : Option ServerLog :=
  (l.server.handle e g call.1 call.2).map fun res =>
    { server := res.2
      messages :=
        if call.2.encrypts then l.messages ++ [(call.1, res.1.message)] else l.messages }

/-- The messages of one worker. -/
def messagesOf (l : ServerLog) (w : Nat) : List (List UInt8) :=
  (l.messages.filter fun m => m.1 == w).map Prod.snd

/-- A worker as its cipher sees it. -/
def process (l : ServerLog) (w : Nat) : CipherRun :=
  ⟨(l.server.worker w).iv, l.messagesOf w, false⟩

variable {e : Env} {g : Gcm} {l l' : ServerLog}

/-- A request is at most one call of the cipher of the worker that handles it, and nothing
for the other workers. -/
theorem process_step {call : Nat × Request} (h : l.step e g call = some l') (w : Nat) :
    l'.process w = l.process w ∨
      Machine.Next (CipherRun.step g) Machine.free (l.process w) (l'.process w) := by
  obtain ⟨v, req⟩ := call
  simp only [step, Server.handle, Server.on, Option.map_map, Option.map_eq_some_iff] at h
  obtain ⟨⟨reply, tee'⟩, hops, rfl⟩ := h
  rcases eq_or_ne w v with rfl | hne
  · cases hreq : req.encrypts with
    | false =>
        left
        have hiv := handleOps_iv hops hreq
        simp [process, messagesOf, Server.setTee, hiv, Server.tee]
    | true =>
        right
        obtain ⟨call, hcall⟩ := handleOps_encrypts hops hreq (l.messagesOf w)
        refine ⟨call, trivial, hcall.trans ?_⟩
        simp [process, messagesOf, Server.setTee]
  · left
    cases hreq : req.encrypts <;>
      simp [process, messagesOf, Server.setTee, hne, hne.symm]

/-- However the requests of the workers are interleaved, no worker reuses a vector before
it has written `256 ^ IV_SIZE` messages. -/
theorem ivs_nodup {s : Server} (path : Machine.Path (step e g) Machine.free ⟨s, []⟩ l) (w : Nat)
    (h : (l.messagesOf w).length ≤ 256 ^ ivSize) : ((l.messagesOf w).map messageIv).Nodup := by
  have hprocess : Machine.Path (CipherRun.step g) Machine.free
      (.gcmInit (s.worker w).iv) (l.process w) :=
    path.simulates (fun l => l.process w) fun _ _ _ _ hstep => process_step hstep w
  exact (CipherRun.countedFrom hprocess).nodup h

end ServerLog

end Zeno
