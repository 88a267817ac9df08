import Zeno.Lib.Refine
import Zeno.Wal.Pending

/-!
# The arrays of a backend refine its lists

`Backend` has the pending items and the payloads of a backend as lists, and takes its steps
one field at a time.  `Logger` has them in arrays and counters, and takes a call at a time.
Both are models of the functions of the PostgreSQL patch.  Here every call of a `Logger` that
does not end it is matched by steps of the backend that it represents (`Refines.append`,
`Refines.commit`, `Refines.abort`), provided that the server answers a batch with the payload
that it makes of the batch from the files (`Answers`).

So every run of the arrays is a run of a cluster in which one backend is at work, with the
same log (`arrays_refine_lists`).  What a cluster can rely on its log for holds of the log of
the arrays (`committed_fields_carried`).
-/

namespace Zeno

open Machine

/-! ## Backends that move on their own -/

/-- A step that a backend and the server take for it, which changes neither the files nor the
log. -/
inductive Backend.Moves (g : Gcm) (kv : KvMap) : Backend → Backend → Prop where
  | fill {b b' : Backend} : b.fill = some b' → Moves g kv b b'
  | prepare {b b' : Backend} : b.prepare = some b' → Moves g kv b b'
  | read {b b' : Backend} : b.read kv = some b' → Moves g kv b b'
  | finish {b b' : Backend} (iv : Iv) : b.finish g iv = some b' → Moves g kv b b'

section Moves

variable {g : Gcm} {kv : KvMap}

/-- The server reads the items that are left of a batch. -/
theorem moves_read (b : Backend) (n : Nat) (commit : Bool) {items : List WalRidItem}
    {records : List (List UInt8)} (h : items.mapM (materializeRecord kv) = some records)
    (out : List UInt8) :
    Relation.ReflTransGen (Backend.Moves g kv) { b with phase := .batch ⟨n, items, out⟩ commit }
      { b with phase := .batch ⟨n, [], out ++ records.flatten⟩ commit } := by
  induction items generalizing records out with
  | nil =>
      obtain rfl : [] = records := Option.some.inj h
      rw [List.flatten_nil, List.append_nil]
  | cons item items ih =>
      simp only [List.mapM_cons, Option.pure_def, Option.bind_eq_bind, Option.bind_eq_some_iff,
        Option.some.injEq] at h
      obtain ⟨record, hrecord, records', hrecords, rfl⟩ := h
      have hread : Backend.read kv { b with phase := .batch ⟨n, item :: items, out⟩ commit } =
          some { b with phase := .batch ⟨n, items, out ++ record⟩ commit } := by
        simp only [Backend.read, hrecord, Option.map_some]
      rw [List.flatten_cons, ← List.append_assoc]
      exact .head (.read hread) (ih hrecords _)

/-- A batch is read, sealed and saved. -/
theorem moves_batch (b : Backend) (commit : Bool) {items : List WalRidItem} {iv iv' : Iv}
    {payload : List UInt8} (hne : items ≠ [])
    (h : materializeBatch g iv kv items zenoPayloadCapacity = some (iv', payload)) :
    Relation.ReflTransGen (Backend.Moves g kv)
      { b with phase := .batch ⟨items.length, items, []⟩ commit }
      (if commit then
        { b with
          chunks := b.chunks ++ [payload], pending := []
          phase := .logging (b.chunks ++ [payload]) }
      else
        { b with
          chunks := b.chunks ++ [payload]
          pending := b.pending.drop walMaterializeRidBatchSize
          phase := .filling }) := by
  simp only [materializeBatch, hne, if_false, Option.ite_none_right_eq_some, Option.bind_eq_bind,
    Option.bind_eq_some_iff, materializePayload, Option.map_eq_some_iff] at h
  obtain ⟨-, _, ⟨-, records, hrecords, rfl⟩, hseal⟩ := h
  refine (moves_read b items.length commit hrecords []).tail (.finish iv ?_)
  simp only [Backend.finish, List.nil_append, hseal, Option.map_some]

end Moves

namespace Cluster

variable {ι : Type} [DecidableEq ι] {g : Gcm} {c : Cluster ι} {i : ι}

/-- A cluster in which one backend is at work, and its log. -/
def working (c : Cluster ι) (i : ι) (b : Backend) (w : List WalRecord) : Cluster ι :=
  { c with backend := Function.update c.backend i b, wal := w }

theorem call_working {f : Backend → Option Backend} {b b' : Backend} (w : List WalRecord)
    (hpc : c.shared.pc i = .idle) (h : f b = some b') :
    (c.working i b w).call i f = some (c.working i b' w) := by
  simp [call, working, hpc, Pc.isIdle, h]

theorem path_of_moves {b b' : Backend} (w : List WalRecord) (hpc : c.shared.pc i = .idle)
    (h : Relation.ReflTransGen (Backend.Moves g c.shared.kv) b b') :
    Path (step g) free (c.working i b w) (c.working i b' w) := by
  induction h with
  | refl => exact .refl
  | tail _ hmove ih =>
      refine ih.tail ?_
      cases hmove with
      | fill h => exact ⟨.fill i, trivial, call_working w hpc h⟩
      | prepare h => exact ⟨.prepare i, trivial, call_working w hpc h⟩
      | read h => exact ⟨.read i, trivial, call_working w hpc h⟩
      | finish iv h => exact ⟨.finish i iv, trivial, call_working w hpc h⟩

/-- A backend logs the payloads that are left. -/
theorem path_log (b : Backend) (left : List (List UInt8)) (w : List WalRecord) :
    Path (step g) free (c.working i { b with phase := .logging left } w)
      (c.working i { b with phase := .logging [] } (w ++ left.map .message)) := by
  induction left generalizing w with
  | nil =>
      rw [List.map_nil, List.append_nil]
  | cons payload left ih =>
      have hlog : step g (c.working i { b with phase := .logging (payload :: left) } w) (.log i) =
          some (c.working i { b with phase := .logging left } (w ++ [.message payload])) := by
        simp [step, working]
      have hrest := ih (w ++ [.message payload])
      rw [List.append_assoc, List.singleton_append] at hrest
      exact .head ⟨.log i, trivial, hlog⟩ hrest

end Cluster

/-! ## What a logger represents -/

namespace Logger

/-- The lists that the arrays stand for, and where the backend stands. -/
structure Represents (s : Logger) (b : Backend) (phase : Phase) : Prop where
  pending : b.pending = s.pending
  chunks : b.chunks = s.chunks.map Chunk.payload
  written : b.written.flatMap HeapTuple.fields = s.appended
  phase : b.phase = phase

/-- A server that answers a batch with the payload it makes of it from the files. -/
def Answers (g : Gcm) (kv : KvMap) (tee : List (List WalRidItem) → Option (List UInt8)) : Prop :=
  ∀ batches batch payload, tee (batches ++ [batch]) = some payload →
    ∃ iv iv', Zeno.materializeBatch g iv kv batch zenoPayloadCapacity = some (iv', payload)

/-- The server does so as long as the files stay as they are. -/
theorem answers_files (g : Gcm) (iv : Iv) (kv : KvMap) :
    Answers g kv fun batches => batches.getLast?.bind fun batch =>
      (Zeno.materializeBatch g iv kv batch zenoPayloadCapacity).map Prod.snd := by
  intro batches batch payload h
  simp only [List.getLast?_concat, Option.bind_some] at h
  obtain ⟨⟨iv', _⟩, hbatch, rfl⟩ := Option.map_eq_some_iff.mp h
  exact ⟨iv, iv', hbatch⟩

section Represents

variable {g : Gcm} {kv : KvMap} {tee : List (List WalRidItem) → Option (List UInt8)}
  {s : Logger} {b : Backend}

/-- Adding items writes them behind those in the buffer. -/
theorem addItems_eq (items : List WalRidItem) (s : Logger) :
    ∃ capacity writes, s.addItems items = { s with
      items := s.items.write s.count items
      count := s.count + items.length
      capacity := capacity
      writes := writes } := by
  unfold addItems ensurePendingCapacity
  split <;> exact ⟨_, _, rfl⟩

theorem Represents.addItems {items : List WalRidItem} {phase : Phase}
    (h : s.Represents b phase) :
    (s.addItems items).Represents { b with pending := b.pending ++ items } phase := by
  obtain ⟨capacity, writes, heq⟩ := addItems_eq items s
  rw [heq]
  refine ⟨?_, h.chunks, h.written, h.phase⟩
  show b.pending ++ items = (s.items.write s.count items).read 0 (s.count + items.length)
  rw [Buffer.read_write, h.pending]
  rfl

/-- The first items in the buffer. -/
theorem take_pending {n : Nat} (h : n ≤ s.count) : s.pending.take n = s.items.read 0 n := by
  have hsplit := s.items.read_add 0 n (s.count - n)
  rw [Nat.add_sub_cancel' h] at hsplit
  rw [pending, hsplit, List.take_left' (Buffer.length_read _ _ _)]

theorem pending_shiftDown (h : walMaterializeRidBatchSize ≤ s.count) :
    s.shiftDown.pending = s.pending.drop walMaterializeRidBatchSize := by
  have hsplit := s.items.read_add 0 walMaterializeRidBatchSize
    (s.count - walMaterializeRidBatchSize)
  rw [Nat.add_sub_cancel' h] at hsplit
  rw [pending, pending, hsplit, List.drop_left' (Buffer.length_read _ _ _), Nat.zero_add]
  simp only [shiftDown]
  split
  next => simp only [Buffer.read_move]
  next hnone =>
    have hzero : s.count - walMaterializeRidBatchSize = 0 := by omega
    simp only [hzero, Buffer.read_zero]

/-- Of the rest, a shift changes the count only. -/
theorem shiftDown_same (s : Logger) :
    s.shiftDown.count = s.count - walMaterializeRidBatchSize ∧ s.shiftDown.chunks = s.chunks ∧
      s.shiftDown.appended = s.appended := by
  simp only [shiftDown]
  split <;> exact ⟨rfl, rfl, rfl⟩

theorem Represents.length_pending {phase : Phase} (h : s.Represents b phase) :
    b.pending.length = s.count := by
  rw [h.pending, Logger.pending, Buffer.length_read]

/-- A batch that was sent without ending the backend. -/
theorem sent_of_alive {n : Nat} (hn : n ≠ 0) (answers : Answers g kv tee)
    (alive : (s.materializeBatch tee n).panicked = false) :
    ∃ payload iv iv',
      Zeno.materializeBatch g iv kv (s.items.read 0 n) zenoPayloadCapacity = some (iv', payload) ∧
      s.materializeBatch tee n =
        { s with
          batches := s.batches ++ [s.items.read 0 n]
          chunks := s.chunks ++ [⟨s.items.read 0 n, payload⟩] } := by
  rcases s.materializeBatch_eq tee hn with heq | ⟨payload, htee, heq⟩
  · rw [heq] at alive
    cases alive
  · obtain ⟨iv, iv', hbatch⟩ := answers _ _ _ htee
    exact ⟨payload, iv, iv', hbatch, heq⟩

/-- At the end of the loop there is less than a batch left. -/
theorem Represents.stop (h : s.Represents b .filling)
    (hless : ¬ walMaterializeRidBatchSize ≤ s.count) :
    ∃ b', Relation.ReflTransGen (Backend.Moves g kv) b b' ∧ s.Represents b' .idle := by
  have hfill : b.fill = some { b with phase := .idle } := by
    simp only [Backend.fill, h.phase, h.length_pending, hless, if_false]
  exact ⟨_, .single (.fill hfill), h.pending, h.chunks, h.written, rfl⟩

/-- A round of the loop. -/
theorem Represents.round {payload : List UInt8} {iv iv' : Iv} (h : s.Represents b .filling)
    (hfull : walMaterializeRidBatchSize ≤ s.count)
    (hbatch : Zeno.materializeBatch g iv kv (s.items.read 0 walMaterializeRidBatchSize)
      zenoPayloadCapacity = some (iv', payload)) (batches : List (List WalRidItem)) :
    ∃ b', Relation.ReflTransGen (Backend.Moves g kv) b b' ∧
      (shiftDown
        { s with
          batches := batches
          chunks := s.chunks ++ [⟨s.items.read 0 walMaterializeRidBatchSize, payload⟩] }).Represents
        b' .filling := by
  have hne : s.items.read 0 walMaterializeRidBatchSize ≠ [] := by
    intro hnil
    have hlen := congrArg List.length hnil
    rw [Buffer.length_read] at hlen
    cases hlen
  have hfill : b.fill = some { b with
      phase := .batch ⟨(s.items.read 0 walMaterializeRidBatchSize).length,
        s.items.read 0 walMaterializeRidBatchSize, []⟩ false } := by
    have htake : b.pending.take walMaterializeRidBatchSize =
        s.items.read 0 walMaterializeRidBatchSize := by
      rw [h.pending, take_pending hfull]
    simp only [Backend.fill, h.phase, h.length_pending, hfull, if_true, Backend.startBatch, htake,
      Buffer.length_read, Nat.le_refl]
  have hmoves := moves_batch b false hne hbatch
  refine ⟨_, .head (.fill hfill) hmoves, ?_, ?_, ?_, rfl⟩
  · rw [pending_shiftDown (by exact hfull)]
    exact congrArg _ h.pending
  · rw [(shiftDown_same _).2.1, List.map_append, ← h.chunks]
    rfl
  · rw [(shiftDown_same _).2.2]
    exact h.written

/-- The loop that sends full batches. -/
theorem Represents.fill (answers : Answers g kv tee) (fuel : Nat) (hfuel : s.count ≤ fuel)
    (alive : (s.materializeFullBatches tee fuel).panicked = false)
    (h : s.Represents b .filling) :
    ∃ b', Relation.ReflTransGen (Backend.Moves g kv) b b' ∧
      (s.materializeFullBatches tee fuel).Represents b' .idle := by
  induction fuel generalizing s b with
  | zero =>
      refine h.stop fun hle => ?_
      have hzero : s.count = 0 := Nat.le_zero.mp hfuel
      rw [hzero] at hle
      exact absurd hle (by decide)
  | succ fuel ih =>
      simp only [materializeFullBatches] at alive ⊢
      split at alive
      next hfull =>
        rw [if_pos hfull]
        obtain ⟨halive, heq⟩ := andThen_alive alive
        rw [heq] at alive ⊢
        obtain ⟨payload, iv, iv', hbatch, hsent⟩ := sent_of_alive (by decide) answers halive
        rw [hsent] at alive ⊢
        obtain ⟨b₁, hround, hb₁⟩ := h.round hfull hbatch _
        have hcount : s.count - walMaterializeRidBatchSize ≤ fuel := by
          simp only [walMaterializeRidBatchSize] at hfull ⊢
          omega
        obtain ⟨b₂, hrest, hb₂⟩ := ih (by rw [(shiftDown_same _).1]; exact hcount) alive hb₁
        exact ⟨b₂, hround.trans hrest, hb₂⟩
      next hless =>
        rw [if_neg hless]
        exact h.stop hless

/-- The items that are left are sent before commit. -/
theorem Represents.prepare (answers : Answers g kv tee)
    (hcount : s.count ≤ walMaterializeRidBatchSize)
    (alive : (s.materializePending tee).panicked = false) (h : s.Represents b .idle) :
    ∃ b', Relation.ReflTransGen (Backend.Moves g kv) b b' ∧
      (s.materializePending tee).Represents b' (.logging b'.chunks) := by
  unfold materializePending at alive ⊢
  split at alive
  next hzero =>
    have hnil : b.pending = [] := by
      rw [← List.length_eq_zero_iff, h.length_pending, hzero]
    have hprepare : b.prepare = some { b with phase := .logging b.chunks } := by
      simp only [Backend.prepare, h.phase, hnil, if_true]
    rw [if_pos hzero]
    exact ⟨_, .single (.prepare hprepare), h.pending, h.chunks, h.written, rfl⟩
  next hn =>
    rw [if_neg hn]
    obtain ⟨halive, heq⟩ := andThen_alive alive
    rw [heq]
    obtain ⟨payload, iv, iv', hbatch, hsent⟩ := sent_of_alive hn answers halive
    have hne : s.items.read 0 s.count ≠ [] := by
      intro hnil
      exact hn ((Buffer.length_read _ _ _).symm.trans (congrArg List.length hnil))
    have hprepare : b.prepare = some { b with
        phase := .batch ⟨(s.items.read 0 s.count).length, s.items.read 0 s.count, []⟩ true } := by
      have hpending : b.pending = s.items.read 0 s.count := h.pending
      simp only [Backend.prepare, h.phase, hpending, hne, if_false, Backend.startBatch,
        Buffer.length_read, hcount, if_true]
    refine ⟨_, .head (.prepare hprepare) (moves_batch b true hne hbatch), ?_⟩
    rw [hsent]
    refine ⟨rfl, ?_, h.written, rfl⟩
    rw [if_pos rfl, List.map_append, ← h.chunks]
    rfl

end Represents

/-! ## Calls and runs -/

end Logger

/-- A record that the arrays log, and the record of the cluster that it stands for. -/
def LogRecord.Stands : LogRecord → WalRecord → Prop
  | .message chunk, .message payload => payload = chunk.payload
  | .commit fields, .commit tuples => tuples.flatMap HeapTuple.fields = fields
  | _, _ => False

namespace Logger

variable {ι : Type} [DecidableEq ι] {g : Gcm}
  {tee : List (List WalRidItem) → Option (List UInt8)} {c : Cluster ι} {i : ι}

/-- A cluster that has come from `c` by the work of one backend is where the arrays of that
backend are. -/
structure Refines (c : Cluster ι) (i : ι) (s : Logger) (c' : Cluster ι) : Prop where
  idle : s.Idle
  state : ∃ b w, c' = c.working i b (c.wal ++ w) ∧ s.Represents b .idle ∧
    List.Forall₂ LogRecord.Stands s.wal w

/-- Every field of a tuple that is appended was promoted. -/
def Promoted (c : Cluster ι) : Logger → Label → Prop
  | _, .append tuple => ∀ item ∈ tuple.fields, item ∈ c.shared.returned.map fun r => r.field.item
  | _, _ => True

variable {s : Logger} {c₁ : Cluster ι}

/-- `ZenoWalAppendTuple`. -/
theorem Refines.append {tuple : HeapTuple} (h : s.Refines c i c₁)
    (answers : Answers g c.shared.kv tee) (hpc : c.shared.pc i = .idle)
    (known : ∀ item ∈ tuple.fields, item ∈ c.shared.returned.map fun r => r.field.item)
    (alive : (s.appendTuple tee tuple).panicked = false) :
    ∃ c₂, Path (Cluster.step g) free c₁ c₂ ∧ (s.appendTuple tee tuple).Refines c i c₂ := by
  obtain ⟨hidle, b, w, rfl, hb, hw⟩ := h
  obtain ⟨hwal, -, -, hspec⟩ := appendTuple_spec tee tuple hidle
  have hstep {b' : Backend} (happend : b.append tuple = some b') :
      Next (Cluster.step g) free (c.working i b (c.wal ++ w)) (c.working i b' (c.wal ++ w)) := by
    refine ⟨.append i tuple, trivial, ?_⟩
    have hall : tuple.fields.all (· ∈ c.shared.returned.map fun r => r.field.item) = true :=
      List.all_eq_true.mpr fun item hitem => decide_eq_true (known item hitem)
    exact (if_pos hall).trans (Cluster.call_working (c.wal ++ w) hpc happend)
  have hwritten : (b.written ++ [tuple]).flatMap HeapTuple.fields =
      s.appended ++ tuple.fields := by
    rw [List.flatMap_append, hb.written, List.flatMap_singleton]
  suffices ∃ b', Path (Cluster.step g) free (c.working i b (c.wal ++ w))
      (c.working i b' (c.wal ++ w)) ∧ (s.appendTuple tee tuple).Represents b' .idle by
    obtain ⟨b', hpath, hb'⟩ := this
    exact ⟨_, hpath, (hspec alive).1, b', w, rfl, hb', hwal ▸ hw⟩
  unfold appendTuple at alive ⊢
  by_cases hnone : tuple.items = []
  · have happend : b.append tuple = some { b with written := b.written ++ [tuple] } := by
      simp only [Backend.append, hb.phase, hnone, if_true]
    rw [if_pos hnone]
    exact ⟨_, .single (hstep happend), hb.pending, hb.chunks, hwritten, hb.phase⟩
  · have happend : b.append tuple = some { b with
        pending := b.pending ++ tuple.items
        written := b.written ++ [tuple]
        phase := .filling } := by
      simp only [Backend.append, hb.phase, hnone, if_false]
    rw [if_neg hnone] at alive ⊢
    have hfilling : Represents { s with appended := s.appended ++ tuple.fields }
        { b with written := b.written ++ [tuple], phase := .filling } .filling :=
      ⟨hb.pending, hb.chunks, hwritten, rfl⟩
    obtain ⟨b', hmoves, hb'⟩ := hfilling.addItems.fill answers _ (Nat.le_refl _) alive
    exact ⟨b', .head (hstep happend) (Cluster.path_of_moves _ hpc hmoves), hb'⟩

/-- `RecordTransactionCommit`. -/
theorem Refines.commit (h : s.Refines c i c₁) (answers : Answers g c.shared.kv tee)
    (hpc : c.shared.pc i = .idle) (alive : (s.commit tee).panicked = false) :
    ∃ c₂, Path (Cluster.step g) free c₁ c₂ ∧ (s.commit tee).Refines c i c₂ := by
  obtain ⟨hidle, b, w, rfl, hb, hw⟩ := h
  have hidle' := ((commit_spec tee hidle).2.2 alive).1
  unfold Logger.commit at alive hidle' ⊢
  obtain ⟨halive, heq⟩ := andThen_alive alive
  rw [heq] at hidle' ⊢
  obtain ⟨b₁, hmoves, hb₁⟩ := hb.prepare answers (Nat.le_of_lt hidle.count) halive
  obtain ⟨hpending, -⟩ := batched_materializePending tee (Nat.le_of_lt hidle.count)
  have hprepared := Cluster.path_of_moves (c.wal ++ w) hpc hmoves
  have hlogged := @Cluster.path_log _ _ g c i b₁ b₁.chunks (c.wal ++ w)
  have hphase : { b₁ with phase := .logging b₁.chunks } = b₁ := by
    rw [← hb₁.phase]
  rw [hphase] at hlogged
  let b₂ : Backend := { b₁ with chunks := [], written := [], phase := .idle }
  let w' : List WalRecord := w ++ (b₁.chunks.map .message ++ [.commit b₁.written])
  have hcommit : Cluster.step g (c.working i { b₁ with phase := .logging [] }
      (c.wal ++ w ++ b₁.chunks.map .message)) (.commit i) =
        some (c.working i b₂ (c.wal ++ w')) := by
    simp [Cluster.step, Cluster.working, b₂, w']
  have hmessages : List.Forall₂ LogRecord.Stands
      ((s.materializePending tee).chunks.map .message) (b₁.chunks.map .message) := by
    rw [hb₁.chunks, List.map_map, List.forall₂_map_left_iff, List.forall₂_map_right_iff,
      List.forall₂_same]
    exact fun _ _ => rfl
  have hrecords : List.Forall₂ LogRecord.Stands
      ((s.materializePending tee).wal ++ (s.materializePending tee).chunks.map .message ++
        [.commit (s.materializePending tee).appended]) w' := by
    rw [hpending.wal, List.append_assoc]
    exact List.rel_append hw (List.rel_append hmessages (.cons hb₁.written .nil))
  refine ⟨_, (hprepared.trans hlogged).tail ⟨.commit i, trivial, hcommit⟩, hidle', b₂, w', rfl, ?_,
    hrecords⟩
  exact ⟨hb₁.pending, rfl, rfl, rfl⟩

theorem Refines.abort (h : s.Refines c i c₁) (hpc : c.shared.pc i = .idle) :
    ∃ c₂, Path (Cluster.step g) free c₁ c₂ ∧ s.abort.Refines c i c₂ := by
  obtain ⟨hidle, b, w, rfl, hb, hw⟩ := h
  have habort : b.abort = some { b with written := [] } := by
    simp only [Backend.abort, hb.phase]
  have hnext : Next (Cluster.step g) free (c.working i b (c.wal ++ w))
      (c.working i { b with written := [] } (c.wal ++ w)) :=
    ⟨.abort i, trivial, Cluster.call_working _ hpc habort⟩
  exact ⟨_, .single hnext, ⟨hidle.alive, hidle.count, hidle.capacity⟩, _, w, rfl,
    ⟨hb.pending, hb.chunks, rfl, hb.phase⟩, hw⟩

/-- One call that does not end the backend. -/
theorem Refines.step {t : Logger} {l : Label} (h : s.Refines c i c₁)
    (answers : Answers g c.shared.kv tee) (hpc : c.shared.pc i = .idle) (hok : Promoted c s l)
    (hstep : s.step tee l = some t) (alive : t.panicked = false) :
    ∃ c₂, Path (Cluster.step g) free c₁ c₂ ∧ t.Refines c i c₂ := by
  simp only [Logger.step, h.idle.alive, Bool.false_eq_true, if_false] at hstep
  cases l with
  | append tuple =>
      cases hstep
      exact h.append answers hpc hok alive
  | commit =>
      cases hstep
      exact h.commit answers hpc alive
  | abort =>
      cases hstep
      exact h.abort hpc

/-- **The arrays refine the lists.**  Take a cluster with a new backend, and a run of its
arrays that append tuples of promoted fields and that have not ended in a `PANIC`.  If the
server answers each batch with the payload it makes of it from the files, then the cluster has
a run to where the lists of the backend are those in the arrays, and it has logged what the
arrays have logged. -/
theorem arrays_refine_lists {items : Buffer WalRidItem} (answers : Answers g c.shared.kv tee)
    (hbackend : c.backend i = .init) (hpc : c.shared.pc i = .idle)
    (path : Path (step tee) (Promoted c) (init items) s) (alive : s.panicked = false) :
    ∃ c', Path (Cluster.step g) free c c' ∧ s.Refines c i c' := by
  have hinit : (init items).Refines c i c := by
    refine ⟨⟨rfl, by show 0 < walMaterializeRidBatchSize; decide, Nat.le_refl _⟩, .init, [], ?_,
      ⟨rfl, rfl, rfl, rfl⟩, .nil⟩
    rw [Cluster.working, ← hbackend, Function.update_eq_self, List.append_nil]
  have hmatched : ∃ c', Path (Cluster.step g) free c c' ∧
      (s.panicked = false → s.Refines c i c') := by
    refine path.matched (R := fun s c' => s.panicked = false → s.Refines c i c')
      (fun _ => hinit) ?_
    intro a l b u ha hok hstep
    cases hb : b.panicked with
    | true => exact ⟨u, .refl, fun h => nomatch h⟩
    | false =>
        have halive : a.panicked = false := by
          unfold Logger.step at hstep
          split at hstep
          next => cases hstep
          next hp => simpa using hp
        obtain ⟨v, hv, hrefines⟩ := (ha halive).step answers hpc hok hstep hb
        exact ⟨v, hv, fun _ => hrefines⟩
  obtain ⟨c', hpath, hc'⟩ := hmatched
  exact ⟨c', hpath, hc' alive⟩

/-- In such a run, from a new log, the payloads logged before a commit record open to records
of every field that it commits. -/
theorem committed_fields_carried {items : Buffer WalRidItem} (inv : c.Inv g) (new : c.wal = [])
    (answers : Answers g c.shared.kv tee) (hbackend : c.backend i = .init)
    (hpc : c.shared.pc i = .idle) (path : Path (step tee) (Promoted c) (init items) s)
    (alive : s.panicked = false) {w : List LogRecord} (hw : w <+: s.wal)
    {fields : List WalRidItem} (hcommit : .commit fields ∈ w) {item : WalRidItem}
    (hitem : item ∈ fields) : ∃ chunk, .message chunk ∈ w ∧ Carries g chunk.payload item := by
  obtain ⟨c', hpath, hrefines⟩ := arrays_refine_lists answers hbackend hpc path alive
  obtain ⟨b, w', rfl, -, hstands⟩ := hrefines.state
  have hprefix : w'.take w.length <+: (c.working i b (c.wal ++ w')).wal := by
    rw [new]
    exact List.take_prefix w.length w'
  have hbefore : List.Forall₂ LogRecord.Stands w (w'.take w.length) := by
    have htake := List.forall₂_take w.length hstands
    rwa [← List.prefix_iff_eq_take.mp hw] at htake
  obtain ⟨record, hrecord, hstand⟩ := Refine.exists_of_forall₂ hbefore hcommit
  cases record with
  | message payload => cases hstand
  | commit tuples =>
      obtain rfl : tuples.flatMap HeapTuple.fields = fields := hstand
      obtain ⟨tuple, htuple, hfield⟩ := List.mem_flatMap.mp hitem
      obtain ⟨payload, hmessage, hcarries⟩ := (inv.path hpath).commits _ hprefix
        tuples hrecord tuple htuple item hfield
      obtain ⟨logged, hlogged, hstand⟩ := Refine.exists_of_forall₂ hbefore.flip hmessage
      cases logged with
      | message chunk =>
          obtain rfl : payload = chunk.payload := hstand
          exact ⟨chunk, hlogged, hcarries⟩
      | commit fields => cases hstand

end Logger

end Zeno
