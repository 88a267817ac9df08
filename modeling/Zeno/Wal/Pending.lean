import Zeno.Lib.Buffer
import Zeno.Lib.Machine
import Zeno.Wal.Backend

/-!
# The pending items of a backend

The lists of `Backend` in the arrays and counters that hold them: the growing
buffer `zeno_pending_items`, the loop that sends full batches and shifts the
rest down, and the list of payload chunks.  A `PANIC` ends the backend.

What a backend will log is the items of its chunks and then those in its
buffer (`Logger.carried`).  Appending a tuple adds its fields at the end, and
batching moves items from the buffer to the chunks and nothing else.  At commit
all of it is logged.  So the fields of the committing transaction are the last
ones logged, each once and in order (`commit_logs_own_fields`).

An abort changes neither the buffer nor the chunks.  So what an aborted
transaction had appended is logged with the next commit record, and an abort
leaves no trace exactly if nothing was appended (`aborts_leave_no_trace_iff`).
-/

namespace Zeno

/-- `ZenoWalPayloadChunk`, with the batch the payload was made of. -/
structure Chunk where
  /-- The items of the batch. -/
  items : List WalRidItem
  /-- The payload. -/
  payload : List UInt8

/-- A write to `zeno_pending_items`. -/
structure BufferWrite where
  /-- The first item written. -/
  pos : Nat
  /-- The number of items. -/
  len : Nat
  /-- `zeno_pending_capacity` at the time. -/
  capacity : Nat

/-- A record that a backend inserts into the write-ahead log. -/
inductive LogRecord where
  /-- A logical message with a payload. -/
  | message (chunk : Chunk)
  /-- The commit record of a transaction that appended these fields. -/
  | commit (fields : List WalRidItem)

/-- The static variables of a backend, and a record of what it did. -/
structure Logger where
  /-- `zeno_pending_items`. -/
  items : Buffer WalRidItem
  /-- `zeno_pending_count`. -/
  count : Nat
  /-- `zeno_pending_capacity`. -/
  capacity : Nat
  /-- The list from `zeno_payload_head` on. -/
  chunks : List Chunk
  /-- The backend has ended with a `PANIC`. -/
  panicked : Bool
  /-- The fields of the tuples appended by the current transaction. -/
  appended : List WalRidItem
  /-- The batches sent. -/
  batches : List (List WalRidItem)
  /-- The writes to the buffer. -/
  writes : List BufferWrite
  /-- The records inserted into the log. -/
  wal : List LogRecord

namespace Logger

/-- A new backend.  No buffer is allocated. -/
def init (items : Buffer WalRidItem) : Logger := ⟨items, 0, 0, [], false, [], [], [], []⟩

/-- The items in the buffer. -/
def pending (s : Logger) : List WalRidItem := s.items.read 0 s.count

/-- What will be logged: the items of the chunks, then those in the buffer. -/
def carried (s : Logger) : List WalRidItem := s.chunks.flatMap Chunk.items ++ s.pending

/-- Go on unless the backend has ended. -/
def andThen (s : Logger) (f : Logger → Logger) : Logger := if s.panicked then s else f s

/-! ## The calls -/

/-- The loop of `ZenoEnsurePendingCapacity`, over at most `fuel` rounds. -/
def growCapacity : Nat → Nat → Nat → Nat
  | 0, capacity, _ => capacity
  | fuel + 1, capacity, needed =>
      if capacity < needed then growCapacity fuel (capacity * 2) needed else capacity

/-- `ZenoEnsurePendingCapacity`. -/
def ensurePendingCapacity (needed : Nat) (s : Logger) : Logger :=
  if needed ≤ s.capacity then s
  else
    let capacity := if 0 < s.capacity then s.capacity else walRidBatchSize
    { s with capacity := growCapacity needed capacity needed }

section Calls

-- what comes back for the last of the batches sent, if anything does
variable (tee : List (List WalRidItem) → Option (List UInt8))

/-- `ZenoWalMaterializeBatch` on the first `nitems` items of the buffer. -/
def materializeBatch (nitems : Nat) (s : Logger) : Logger :=
  if nitems = 0 then s
  else
    let batch := s.items.read 0 nitems
    let batches := s.batches ++ [batch]
    match tee batches with
    | none => { s with batches := batches, panicked := true }
    | some payload =>
        if payload.length = 0 ∨ zenoPayloadCapacity < payload.length then
          { s with batches := batches, panicked := true }
        else { s with batches := batches, chunks := s.chunks ++ [⟨batch, payload⟩] }

/-- The rest of a round of `ZenoWalMaterializeFullBatches`: the items behind the batch are
moved to the front. -/
def shiftDown (s : Logger) : Logger :=
  let remain := s.count - walMaterializeRidBatchSize
  if 0 < remain then
    { s with
      items := s.items.move walMaterializeRidBatchSize remain
      writes := s.writes ++ [⟨0, remain, s.capacity⟩]
      count := remain }
  else { s with count := remain }

/-- `ZenoWalMaterializeFullBatches`, over at most `fuel` rounds. -/
def materializeFullBatches : Nat → Logger → Logger
  | 0, s => s
  | fuel + 1, s =>
      if walMaterializeRidBatchSize ≤ s.count then
        (s.materializeBatch tee walMaterializeRidBatchSize).andThen fun s =>
          materializeFullBatches fuel s.shiftDown
      else s

/-- The part of `ZenoWalAppendTuple` that adds items to the buffer. -/
def addItems (items : List WalRidItem) (s : Logger) : Logger :=
  let s := s.ensurePendingCapacity (s.count + items.length)
  { s with
    items := s.items.write s.count items
    writes := s.writes ++ [⟨s.count, items.length, s.capacity⟩]
    count := s.count + items.length }

/-- `ZenoWalAppendTuple`. -/
def appendTuple (tuple : HeapTuple) (s : Logger) : Logger :=
  let s := { s with appended := s.appended ++ tuple.fields }
  if tuple.items = [] then s
  else
    let s := s.addItems tuple.items
    s.materializeFullBatches tee s.count

/-- `ZenoWalMaterializePending`. -/
def materializePending (s : Logger) : Logger :=
  if s.count = 0 then s
  else (s.materializeBatch tee s.count).andThen fun s => { s with count := 0 }

/-- `ZenoWalLogPendingPayloads`. -/
def logPendingPayloads (s : Logger) : Logger :=
  { s with wal := s.wal ++ s.chunks.map .message, chunks := [] }

/-- `RecordTransactionCommit` of a transaction that has written something. -/
def commit (s : Logger) : Logger :=
  (s.materializePending tee).andThen fun s =>
    let s := s.logPendingPayloads
    { s with wal := s.wal ++ [.commit s.appended], appended := [] }

/-- Abort.  Neither the buffer nor the chunks are touched. -/
def abort (s : Logger) : Logger := { s with appended := [] }

end Calls

/-! ## What batching does -/

/-- Batches of a size the server accepts, and writes inside the buffer. -/
structure Safe (s : Logger) : Prop where
  /-- Every batch sent has 1 to `WAL_MATERIALIZE_RID_BATCH_SIZE` items. -/
  batches : ∀ b ∈ s.batches, 1 ≤ b.length ∧ b.length ≤ walMaterializeRidBatchSize
  /-- Every write ends within the capacity. -/
  writes : ∀ w ∈ s.writes, w.pos + w.len ≤ w.capacity

/-- Batching: items go from the buffer to the chunks, and nothing else changes. -/
structure Batched (s s' : Logger) : Prop where
  wal : s'.wal = s.wal
  appended : s'.appended = s.appended
  capacity : s'.capacity = s.capacity
  safe : s.count ≤ s.capacity → s.Safe → s'.Safe
  alive : s'.panicked = false → s.panicked = false
  carried : s'.panicked = false → s'.carried = s.carried
  count : s'.panicked = false → s'.count ≤ s.count

theorem Batched.refl (s : Logger) : Batched s s :=
  ⟨rfl, rfl, rfl, fun _ h => h, fun h => h, fun _ => rfl, fun _ => Nat.le_refl _⟩

variable (tee : List (List WalRidItem) → Option (List UInt8))

/-- A batch that is sent: it goes to the end of the chunks, or the backend ends. -/
theorem materializeBatch_eq (s : Logger) {n : Nat} (hn : n ≠ 0) :
    s.materializeBatch tee n =
        { s with batches := s.batches ++ [s.items.read 0 n], panicked := true } ∨
      ∃ payload, tee (s.batches ++ [s.items.read 0 n]) = some payload ∧
        s.materializeBatch tee n =
          { s with
            batches := s.batches ++ [s.items.read 0 n]
            chunks := s.chunks ++ [⟨s.items.read 0 n, payload⟩] } := by
  simp only [materializeBatch, hn, if_false]
  cases tee (s.batches ++ [s.items.read 0 n]) with
  | none => exact .inl rfl
  | some payload =>
      simp only
      split
      next => exact .inl rfl
      next => exact .inr ⟨payload, rfl, rfl⟩

theorem Safe.sent {s s' : Logger} {n : Nat} (h : s.Safe) (hn : n ≠ 0)
    (hle : n ≤ walMaterializeRidBatchSize)
    (hbatches : s'.batches = s.batches ++ [s.items.read 0 n])
    (hwrites : ∀ w ∈ s'.writes, w ∈ s.writes ∨ w.pos + w.len ≤ w.capacity) : s'.Safe := by
  refine ⟨fun b hb => ?_, fun w hw => ?_⟩
  · rw [hbatches, List.mem_append, List.mem_singleton] at hb
    rcases hb with hb | rfl
    · exact h.batches b hb
    · rw [Buffer.length_read]
      exact ⟨Nat.one_le_iff_ne_zero.mpr hn, hle⟩
  · rcases hwrites w hw with hw | hw
    · exact h.writes w hw
    · exact hw

/-- A backend that ends while it sends a batch. -/
theorem batched_panic (s : Logger) {n : Nat} (hn : n ≠ 0) (hle : n ≤ walMaterializeRidBatchSize) :
    Batched s { s with batches := s.batches ++ [s.items.read 0 n], panicked := true } where
  wal := rfl
  appended := rfl
  capacity := rfl
  safe _ h := h.sent hn hle rfl fun _ hw => .inl hw
  alive h := by cases h
  carried h := by cases h
  count h := by cases h

/-- One round of the loop that moved a batch. -/
theorem batched_shiftDown (s : Logger) (payload : List UInt8)
    (h : walMaterializeRidBatchSize ≤ s.count) :
    Batched s (shiftDown
      { s with
        batches := s.batches ++ [s.items.read 0 walMaterializeRidBatchSize]
        chunks := s.chunks ++ [⟨s.items.read 0 walMaterializeRidBatchSize, payload⟩] }) := by
  have hn : walMaterializeRidBatchSize ≠ 0 := by decide
  have hsplit : s.items.read 0 s.count = s.items.read 0 walMaterializeRidBatchSize ++
      s.items.read walMaterializeRidBatchSize (s.count - walMaterializeRidBatchSize) := by
    have hadd := s.items.read_add 0 walMaterializeRidBatchSize
      (s.count - walMaterializeRidBatchSize)
    rw [Nat.add_sub_cancel' h, Nat.zero_add] at hadd
    exact hadd
  simp only [shiftDown]
  split
  next hremain =>
    refine ⟨rfl, rfl, rfl, fun hcap hsafe => ?_, fun ha => ha, fun _ => ?_, fun _ => Nat.sub_le _ _⟩
    · refine hsafe.sent hn (Nat.le_refl _) rfl fun w hw => ?_
      rcases List.mem_append.mp hw with hw | hw
      · exact .inl hw
      · rw [List.mem_singleton.mp hw]
        exact .inr (by simp only; omega)
    · simp only [carried, hsplit, pending, Buffer.read_move, List.flatMap_append,
        List.flatMap_singleton, List.append_assoc]
  next hremain =>
    have hzero : s.count - walMaterializeRidBatchSize = 0 := by omega
    refine ⟨rfl, rfl, rfl, fun _ hsafe => hsafe.sent hn (Nat.le_refl _) rfl fun _ hw => .inl hw,
      fun ha => ha, fun _ => ?_, fun _ => Nat.sub_le _ _⟩
    simp only [carried, hsplit, pending, hzero, List.flatMap_append, List.flatMap_singleton,
      List.append_assoc, Buffer.read_zero]

theorem Batched.trans {s s' s'' : Logger} (h : Batched s s') (h' : Batched s' s'')
    (hcount : s'.count ≤ s.count) : Batched s s'' where
  wal := h'.wal.trans h.wal
  appended := h'.appended.trans h.appended
  capacity := h'.capacity.trans h.capacity
  safe hcap hsafe := h'.safe (by have := h.capacity; omega) (h.safe hcap hsafe)
  alive ha := h.alive (h'.alive ha)
  carried ha := (h'.carried ha).trans (h.carried (h'.alive ha))
  count ha := (h'.count ha).trans hcount

/-- The loop moves batches, and ends with less than a batch in the buffer. -/
theorem batched_materializeFullBatches (fuel : Nat) {s : Logger} (alive : s.panicked = false) :
    Batched s (s.materializeFullBatches tee fuel) ∧
      ((s.materializeFullBatches tee fuel).panicked = false → s.count ≤ fuel →
        (s.materializeFullBatches tee fuel).count < walMaterializeRidBatchSize) := by
  induction fuel generalizing s with
  | zero =>
      refine ⟨Batched.refl s, fun _ hfuel => ?_⟩
      have hzero : (s.materializeFullBatches tee 0).count = 0 := Nat.le_zero.mp hfuel
      rw [hzero]
      decide
  | succ fuel ih =>
      simp only [materializeFullBatches]
      split
      next hfull =>
        have hn : walMaterializeRidBatchSize ≠ 0 := by decide
        rcases s.materializeBatch_eq tee hn with heq | ⟨payload, -, heq⟩
        · rw [heq]
          refine ⟨batched_panic s hn (Nat.le_refl _), fun ha => ?_⟩
          cases ha
        · -- the batch was saved, and the rest of the loop starts behind it
          have hround := batched_shiftDown s payload hfull
          rw [heq, andThen, if_neg (by simp [alive])]
          generalize hs' : shiftDown
            { s with
              batches := s.batches ++ [s.items.read 0 walMaterializeRidBatchSize]
              chunks := s.chunks ++ [⟨s.items.read 0 walMaterializeRidBatchSize, payload⟩] } = s'
            at hround ⊢
          have halive : s'.panicked = false := by
            subst hs'
            simp only [shiftDown]
            split <;> exact alive
          have hcount : s'.count + walMaterializeRidBatchSize = s.count := by
            subst hs'
            simp only [shiftDown]
            split <;> exact Nat.sub_add_cancel hfull
          obtain ⟨hrest, hless⟩ := ih halive
          refine ⟨hround.trans hrest (hround.count halive), fun ha hfuel => hless ha ?_⟩
          simp only [walMaterializeRidBatchSize] at hcount
          omega
      next hless => exact ⟨Batched.refl s, fun _ _ => Nat.lt_of_not_le hless⟩

/-- Sending the rest empties the buffer. -/
theorem batched_materializePending {s : Logger} (hcount : s.count ≤ walMaterializeRidBatchSize) :
    Batched s (s.materializePending tee) ∧
      ((s.materializePending tee).panicked = false → (s.materializePending tee).pending = []) := by
  unfold materializePending
  split
  next hzero =>
    refine ⟨Batched.refl s, fun _ => ?_⟩
    rw [pending, hzero, Buffer.read_zero]
  next hn =>
    rcases s.materializeBatch_eq tee hn with heq | ⟨payload, -, heq⟩
    · rw [heq]
      refine ⟨batched_panic s hn hcount, fun ha => ?_⟩
      cases ha
    · rw [heq, andThen]
      split
      next hp =>
        have hdead {q : Prop} (ha : s.panicked = false) : q := nomatch hp.symm.trans ha
        exact ⟨⟨rfl, rfl, rfl, fun _ hsafe => hsafe.sent hn hcount rfl fun _ hw => .inl hw,
          hdead, hdead, hdead⟩, hdead⟩
      next =>
        refine ⟨⟨rfl, rfl, rfl, fun _ hsafe => hsafe.sent hn hcount rfl fun _ hw => .inl hw,
          fun ha => ha, fun _ => ?_, fun _ => Nat.zero_le _⟩, fun _ => rfl⟩
        simp [carried, pending]

/-! ## What a call does -/

theorem le_growCapacity {fuel capacity needed : Nat} (h : needed ≤ capacity * 2 ^ fuel) :
    needed ≤ growCapacity fuel capacity needed := by
  induction fuel generalizing capacity with
  | zero => simpa [growCapacity] using h
  | succ fuel ih =>
      simp only [growCapacity]
      split
      next =>
        apply ih
        rw [Nat.mul_assoc, ← Nat.pow_succ']
        exact h
      next hle => exact Nat.le_of_not_lt hle

/-- After the call there is room for what is needed. -/
theorem le_ensurePendingCapacity (needed : Nat) (s : Logger) :
    needed ≤ (s.ensurePendingCapacity needed).capacity := by
  unfold ensurePendingCapacity
  split
  next h => exact h
  next =>
    apply le_growCapacity
    have hpos : 1 ≤ if 0 < s.capacity then s.capacity else walRidBatchSize := by
      split
      next h => exact h
      next => decide
    calc needed ≤ 2 ^ needed := Nat.le_of_lt Nat.lt_two_pow_self
      _ = 1 * 2 ^ needed := (Nat.one_mul _).symm
      _ ≤ _ := Nat.mul_le_mul_right _ hpos

/-- Adding items to the buffer. -/
theorem addItems_spec (items : List WalRidItem) (s : Logger) :
    (s.addItems items).carried = s.carried ++ items ∧
      (s.addItems items).count ≤ (s.addItems items).capacity ∧
      (s.Safe → (s.addItems items).Safe) ∧
      (s.addItems items).wal = s.wal ∧ (s.addItems items).appended = s.appended ∧
      (s.addItems items).panicked = s.panicked := by
  have hcap := le_ensurePendingCapacity (s.count + items.length) s
  have hsame : s.ensurePendingCapacity (s.count + items.length) =
      { s with capacity := (s.ensurePendingCapacity (s.count + items.length)).capacity } := by
    unfold ensurePendingCapacity
    split <;> rfl
  generalize (s.ensurePendingCapacity (s.count + items.length)).capacity = capacity at hsame hcap
  simp only [addItems, hsame]
  refine ⟨?_, hcap, fun hsafe => ⟨hsafe.batches, fun w hw => ?_⟩, trivial, trivial, trivial⟩
  · simp only [carried, pending, Buffer.read_write, List.append_assoc]
  · rcases List.mem_append.mp hw with hw | hw
    · exact hsafe.writes w hw
    · rw [List.mem_singleton.mp hw]
      exact hcap

/-- Between calls there is less than a batch in the buffer. -/
structure Idle (s : Logger) : Prop where
  alive : s.panicked = false
  count : s.count < walMaterializeRidBatchSize
  capacity : s.count ≤ s.capacity

/-- `ZenoWalAppendTuple` adds the fields of the tuple to what will be logged. -/
theorem appendTuple_spec (tuple : HeapTuple) {s : Logger} (idle : s.Idle) :
    (s.appendTuple tee tuple).wal = s.wal ∧
      (s.appendTuple tee tuple).appended = s.appended ++ tuple.fields ∧
      (s.Safe → (s.appendTuple tee tuple).Safe) ∧
      ((s.appendTuple tee tuple).panicked = false →
        (s.appendTuple tee tuple).Idle ∧
          (s.appendTuple tee tuple).carried = s.carried ++ tuple.fields) := by
  rw [← tuple.items_eq_fields]
  unfold appendTuple
  rw [← tuple.items_eq_fields]
  split
  next hnone =>
    rw [hnone, List.append_nil]
    refine ⟨rfl, rfl, fun h => ⟨h.batches, h.writes⟩, fun _ => ⟨⟨idle.alive, idle.count,
      idle.capacity⟩, ?_⟩⟩
    rw [List.append_nil]
  next =>
    obtain ⟨hcarried, hcap, hsafe, hwal, happended, halive⟩ :=
      addItems_spec tuple.items { s with appended := s.appended ++ tuple.items }
    simp only
    generalize addItems tuple.items { s with appended := s.appended ++ tuple.items } = s₁ at *
    obtain ⟨hloop, hless⟩ :=
      batched_materializeFullBatches tee s₁.count (halive.trans idle.alive)
    refine ⟨hloop.wal.trans hwal, hloop.appended.trans happended,
      fun h => hloop.safe hcap (hsafe ⟨h.batches, h.writes⟩), fun ha => ⟨⟨ha,
        hless ha (Nat.le_refl _), ?_⟩, (hloop.carried ha).trans hcarried⟩⟩
    rw [hloop.capacity]
    exact (hloop.count ha).trans hcap

/-- At commit everything carried is logged, then the commit record. -/
theorem commit_spec {s : Logger} (idle : s.Idle) :
    (s.Safe → (s.commit tee).Safe) ∧
      ((s.commit tee).panicked = true → (s.commit tee).wal = s.wal) ∧
      ((s.commit tee).panicked = false →
        (s.commit tee).Idle ∧ (s.commit tee).carried = [] ∧ (s.commit tee).chunks = [] ∧
        (s.commit tee).pending = [] ∧ (s.commit tee).appended = [] ∧
          ∃ chunks : List Chunk, chunks.flatMap Chunk.items = s.carried ∧
            (s.commit tee).wal = s.wal ++ chunks.map .message ++ [.commit s.appended]) := by
  obtain ⟨hpending, hempty⟩ := batched_materializePending tee (Nat.le_of_lt idle.count)
  unfold commit
  generalize s.materializePending tee = s₁ at hpending hempty
  have hsafe := hpending.safe idle.capacity
  rw [andThen]
  split
  next hp =>
    refine ⟨hsafe, fun _ => hpending.wal, fun ha => ?_⟩
    exact nomatch hp.symm.trans ha
  next hp =>
    have ha : s₁.panicked = false := by simpa using hp
    have hnone := hempty ha
    refine ⟨fun h => ⟨(hsafe h).batches, (hsafe h).writes⟩, fun hp' => absurd hp' hp,
      fun _ => ⟨⟨ha, ?_, ?_⟩, ?_, rfl, hnone, rfl, s₁.chunks, ?_, ?_⟩⟩
    · exact Nat.lt_of_le_of_lt (hpending.count ha) idle.count
    · show s₁.count ≤ s₁.capacity
      rw [hpending.capacity]
      exact (hpending.count ha).trans idle.capacity
    · show [] ++ s₁.pending = []
      rw [hnone]
      rfl
    · have hcarried := hpending.carried ha
      rw [carried, hnone, List.append_nil] at hcarried
      exact hcarried
    · show s₁.wal ++ s₁.chunks.map .message ++ [.commit s₁.appended] = _
      rw [hpending.wal, hpending.appended]

end Logger

/-! ## What goes with a commit record -/

/-- For each commit record of a log: the items of the payloads logged since the previous
one, with those that were open before the log, and the fields it commits. -/
def sections : List WalRidItem → List LogRecord → List (List WalRidItem × List WalRidItem)
  | _, [] => []
  | items, .message chunk :: wal => sections (items ++ chunk.items) wal
  | items, .commit fields :: wal => (items, fields) :: sections [] wal

/-- The items logged since the last commit record. -/
def openItems : List WalRidItem → List LogRecord → List WalRidItem
  | items, [] => items
  | items, .message chunk :: wal => openItems (items ++ chunk.items) wal
  | _, .commit _ :: wal => openItems [] wal

theorem sections_append (items : List WalRidItem) (wal wal' : List LogRecord) :
    sections items (wal ++ wal') =
      sections items wal ++ sections (openItems items wal) wal' := by
  induction wal generalizing items with
  | nil => rfl
  | cons record wal ih =>
      cases record with
      | message chunk => exact ih _
      | commit fields => exact congrArg ((items, fields) :: ·) (ih [])

theorem openItems_append (items : List WalRidItem) (wal wal' : List LogRecord) :
    openItems items (wal ++ wal') = openItems (openItems items wal) wal' := by
  induction wal generalizing items with
  | nil => rfl
  | cons record wal ih =>
      cases record with
      | message chunk => exact ih _
      | commit fields => exact ih []

theorem sections_messages (items : List WalRidItem) (chunks : List Chunk)
    (fields : List WalRidItem) :
    sections items (chunks.map .message ++ [.commit fields]) =
      [(items ++ chunks.flatMap Chunk.items, fields)] := by
  induction chunks generalizing items with
  | nil => simp [sections]
  | cons chunk chunks ih =>
      rw [List.map_cons, List.cons_append, sections, ih, List.flatMap_cons, List.append_assoc]

namespace Logger

variable (tee : List (List WalRidItem) → Option (List UInt8))

/-- What holds of a backend in every state. -/
structure Inv (s : Logger) : Prop where
  /-- Batches and writes are in bounds. -/
  safe : s.Safe
  /-- The fields of a committed transaction are the last ones logged with it. -/
  sections : ∀ x ∈ sections [] s.wal, x.2 <:+ x.1
  /-- Between calls. -/
  idle : s.panicked = false → s.Idle
  /-- The fields of the current transaction are the last ones carried. -/
  carried : s.panicked = false → s.appended <:+ s.carried
  /-- Nothing was logged since the last commit record. -/
  closed : s.panicked = false → openItems [] s.wal = []

/-- A call of a backend. -/
inductive Label where
  | append (tuple : HeapTuple)
  | commit
  | abort

/-- One call, unless the backend has ended. -/
def step (s : Logger) (l : Label) : Option Logger :=
  if s.panicked then none
  else
    match l with
    | .append tuple => some (s.appendTuple tee tuple)
    | .commit => some (s.commit tee)
    | .abort => some s.abort

theorem inv_init (items : Buffer WalRidItem) : (init items).Inv where
  safe := ⟨fun _ h => (nomatch h), fun _ h => (nomatch h)⟩
  sections _ h := nomatch h
  idle _ := ⟨rfl, by show 0 < walMaterializeRidBatchSize; decide, Nat.le_refl _⟩
  carried _ := List.nil_suffix
  closed _ := rfl

theorem Inv.append {s : Logger} (tuple : HeapTuple) (inv : s.Inv) (alive : s.panicked = false) :
    (s.appendTuple tee tuple).Inv := by
  obtain ⟨hwal, happended, hsafe, hspec⟩ := appendTuple_spec tee tuple (inv.idle alive)
  refine ⟨hsafe inv.safe, ?_, fun ha => (hspec ha).1, fun ha => ?_, fun _ => ?_⟩
  · rw [hwal]
    exact inv.sections
  · obtain ⟨old, hold⟩ := inv.carried alive
    refine ⟨old, ?_⟩
    rw [happended, (hspec ha).2, ← hold, List.append_assoc]
  · rw [hwal]
    exact inv.closed alive

theorem Inv.commit {s : Logger} (inv : s.Inv) (alive : s.panicked = false) :
    (s.commit tee).Inv := by
  obtain ⟨hsafe, hpanic, hspec⟩ := commit_spec tee (inv.idle alive)
  cases hp : (s.commit tee).panicked with
  | true =>
      have hdead {q : Prop} (ha : (s.commit tee).panicked = false) : q := nomatch hp.symm.trans ha
      refine ⟨hsafe inv.safe, ?_, hdead, hdead, hdead⟩
      rw [hpanic hp]
      exact inv.sections
  | false =>
      obtain ⟨hidle, -, -, -, happended, chunks, hitems, hwal⟩ := hspec hp
      refine ⟨hsafe inv.safe, fun x hx => ?_, fun _ => hidle, fun _ => ?_, fun _ => ?_⟩
      · rw [hwal, List.append_assoc, sections_append, inv.closed alive, sections_messages,
          List.nil_append, hitems, List.mem_append, List.mem_singleton] at hx
        rcases hx with hx | rfl
        · exact inv.sections x hx
        · exact inv.carried alive
      · rw [happended]
        exact List.nil_suffix
      · rw [hwal, openItems_append]
        rfl

theorem Inv.abort {s : Logger} (inv : s.Inv) : s.abort.Inv :=
  ⟨⟨inv.safe.batches, inv.safe.writes⟩, inv.sections,
    fun ha => ⟨ha, (inv.idle ha).count, (inv.idle ha).capacity⟩, fun _ => List.nil_suffix,
    inv.closed⟩

theorem Inv.step {s s' : Logger} {l : Label} (inv : s.Inv) (h : s.step tee l = some s') :
    s'.Inv := by
  unfold Logger.step at h
  split at h
  next => cases h
  next hp =>
    have alive : s.panicked = false := by simpa using hp
    cases l with
    | append tuple =>
        cases h
        exact inv.append tee tuple alive
    | commit =>
        cases h
        exact inv.commit tee alive
    | abort =>
        cases h
        exact inv.abort

/-- In every run of a backend: the fields that a transaction appended are the last ones
logged with its commit record, each once and in order; every batch sent has 1 to 3000
items; between calls there are less than 3000 items in the buffer; and every write to the
buffer is within its capacity. -/
theorem commit_logs_own_fields {items : Buffer WalRidItem} {s : Logger}
    (path : Machine.Path (step tee) Machine.free (init items) s) :
    (∀ x ∈ Zeno.sections [] s.wal, x.2 <:+ x.1) ∧
      (∀ b ∈ s.batches, 1 ≤ b.length ∧ b.length ≤ walMaterializeRidBatchSize) ∧
      (s.panicked = false → s.count < walMaterializeRidBatchSize) ∧
      ∀ w ∈ s.writes, w.pos + w.len ≤ w.capacity := by
  have inv : s.Inv := path.invariant (inv_init items) fun _ _ _ inv _ h => inv.step tee h
  exact ⟨inv.sections, inv.safe.batches, fun ha => (inv.idle ha).count, inv.safe.writes⟩

/-- A server that answers every batch. -/
def answering (_ : List (List WalRidItem)) : Option (List UInt8) := some [0]

/-- A buffer before its allocation. -/
def noItems : Buffer WalRidItem := fun _ => ⟨.int, 0⟩

/-- A row with an int and a text, a NULL, a column that is not encrypted and a dropped one. -/
def rowTuple (a b : RID) : HeapTuple where
  columns := [⟨false, some .int, some a⟩, ⟨false, some .float, none⟩, ⟨false, none, some 5⟩,
    ⟨true, none, none⟩, ⟨false, some .text, some b⟩]
  small := by simp [maxHeapAttributeNumber]

/-- Two rows are committed.  A row is written and the transaction aborts, and then another
row is committed. -/
def abortBetween : List Label :=
  [.append (rowTuple 7 8), .append (rowTuple 9 10), .commit, .append (rowTuple 11 12), .abort,
    .append (rowTuple 13 14), .commit]

/-- The items of the aborted row are logged before those of the row that commits. -/
theorem commit_logs_own_fields_abortBetween :
    ∃ s, Machine.Path (step answering) Machine.free (init noItems) s ∧
      Zeno.sections [] s.wal =
        [([⟨.int, 7⟩, ⟨.text, 8⟩, ⟨.int, 9⟩, ⟨.text, 10⟩],
            [⟨.int, 7⟩, ⟨.text, 8⟩, ⟨.int, 9⟩, ⟨.text, 10⟩]),
          ([⟨.int, 11⟩, ⟨.text, 12⟩, ⟨.int, 13⟩, ⟨.text, 14⟩], [⟨.int, 13⟩, ⟨.text, 14⟩])] ∧
      ∀ x ∈ Zeno.sections [] s.wal, x.2 <:+ x.1 := by
  have hrun : (Machine.run (step answering) (init noItems) abortBetween).map
      (fun s => Zeno.sections [] s.wal) =
        some [([⟨.int, 7⟩, ⟨.text, 8⟩, ⟨.int, 9⟩, ⟨.text, 10⟩],
            [⟨.int, 7⟩, ⟨.text, 8⟩, ⟨.int, 9⟩, ⟨.text, 10⟩]),
          ([⟨.int, 11⟩, ⟨.text, 12⟩, ⟨.int, 13⟩, ⟨.text, 14⟩], [⟨.int, 13⟩, ⟨.text, 14⟩])] := by
    decide +kernel
  obtain ⟨s, hs, hsections⟩ := Option.map_eq_some_iff.mp hrun
  have path : Machine.Path (step answering) Machine.free (init noItems) s :=
    Machine.path_of_run (fun _ _ _ => trivial) hs
  exact ⟨s, path, hsections, (commit_logs_own_fields answering path).1⟩

/-! ## Aborts -/

/-- A transaction of a backend. -/
structure Tx where
  /-- The tuples it writes. -/
  tuples : List HeapTuple
  /-- It commits. -/
  commits : Bool

/-- The fields a transaction appends. -/
def Tx.fields (tx : Tx) : List WalRidItem := tx.tuples.flatMap HeapTuple.fields

/-- Write tuples one after the other, unless the backend has ended. -/
def appendTuples : List HeapTuple → Logger → Logger
  | [], s => s
  | tuple :: tuples, s => (s.appendTuple tee tuple).andThen (appendTuples tuples)

/-- Run a transaction. -/
def runTx (tx : Tx) (s : Logger) : Logger :=
  (s.appendTuples tee tx.tuples).andThen fun s => if tx.commits then s.commit tee else s.abort

/-- Run transactions one after the other. -/
def runTxs : List Tx → Logger → Logger
  | [], s => s
  | tx :: txs, s => (s.runTx tee tx).andThen (runTxs txs)

/-- The transactions of a run leave no trace of an abort: after an aborted one the buffer and
the chunks are what they were when it began, and every item in a payload logged with a
commit record was appended by the transaction it commits. -/
def NoTrace : List Tx → Logger → Prop
  | [], _ => True
  | tx :: txs, s =>
      (tx.commits = false →
        (s.runTx tee tx).pending = s.pending ∧ (s.runTx tee tx).chunks = s.chunks) ∧
      (tx.commits = true →
        ∃ chunks : List Chunk,
          (s.runTx tee tx).wal = s.wal ++ chunks.map .message ++ [.commit tx.fields] ∧
          ∀ chunk ∈ chunks, ∀ item ∈ chunk.items, item ∈ tx.fields) ∧
      NoTrace txs (s.runTx tee tx)

theorem andThen_alive {s : Logger} {f : Logger → Logger} (h : (s.andThen f).panicked = false) :
    s.panicked = false ∧ s.andThen f = f s := by
  unfold andThen at h ⊢
  split at h
  next hp => exact nomatch hp.symm.trans h
  next hp =>
    have ha : s.panicked = false := by simpa using hp
    exact ⟨ha, by simp [ha]⟩

/-- Tuples without fields change nothing; tuples add their fields to what will be logged. -/
theorem appendTuples_spec (tuples : List HeapTuple) {s : Logger} (idle : s.Idle)
    (alive : (s.appendTuples tee tuples).panicked = false) :
    (s.appendTuples tee tuples).Idle ∧ (s.appendTuples tee tuples).wal = s.wal ∧
      (s.appendTuples tee tuples).appended = s.appended ++ tuples.flatMap HeapTuple.fields ∧
      (s.appendTuples tee tuples).carried = s.carried ++ tuples.flatMap HeapTuple.fields ∧
      (tuples.flatMap HeapTuple.fields = [] → s.appendTuples tee tuples = s) := by
  induction tuples generalizing s with
  | nil => exact ⟨idle, rfl, by simp [appendTuples], by simp [appendTuples], fun _ => rfl⟩
  | cons tuple tuples ih =>
      obtain ⟨ha, heq⟩ := andThen_alive alive
      have heq : s.appendTuples tee (tuple :: tuples) =
          (s.appendTuple tee tuple).appendTuples tee tuples := heq
      rw [heq] at alive ⊢
      obtain ⟨hwal, happended, -, hspec⟩ := appendTuple_spec tee tuple idle
      obtain ⟨hidle, hcarried⟩ := hspec ha
      obtain ⟨hidle', hwal', happended', hcarried', hsame⟩ := ih hidle alive
      refine ⟨hidle', hwal'.trans hwal, ?_, ?_, fun hnone => ?_⟩
      · rw [happended', happended, List.flatMap_cons, List.append_assoc]
      · rw [hcarried', hcarried, List.flatMap_cons, List.append_assoc]
      · rw [List.flatMap_cons, List.append_eq_nil_iff] at hnone
        rw [hsame hnone.2, appendTuple, tuple.items_eq_fields, hnone.1]
        simp

/-- A transaction that ends: what it logs or leaves behind. -/
theorem runTx_spec (tx : Tx) {s : Logger} (idle : s.Idle) (fresh : s.appended = [])
    (alive : (s.runTx tee tx).panicked = false) :
    (s.runTx tee tx).Idle ∧ (s.runTx tee tx).appended = [] ∧
      (tx.commits = true →
        (s.runTx tee tx).carried = [] ∧ ∃ chunks : List Chunk,
          chunks.flatMap Chunk.items = s.carried ++ tx.fields ∧
          (s.runTx tee tx).wal = s.wal ++ chunks.map .message ++ [.commit tx.fields]) ∧
      (tx.commits = false →
        (s.runTx tee tx).carried = s.carried ++ tx.fields ∧
          (tx.fields = [] → (s.runTx tee tx).pending = s.pending ∧
            (s.runTx tee tx).chunks = s.chunks)) := by
  obtain ⟨ha, heq⟩ := andThen_alive alive
  obtain ⟨hidle, hwal, happended, hcarried, hsame⟩ := appendTuples_spec tee tx.tuples idle ha
  have heq : s.runTx tee tx = if tx.commits then (s.appendTuples tee tx.tuples).commit tee
      else (s.appendTuples tee tx.tuples).abort := heq
  rw [fresh, List.nil_append] at happended
  cases hcommits : tx.commits with
  | true =>
      rw [hcommits, if_pos rfl] at heq
      rw [heq] at alive ⊢
      obtain ⟨hidle', hnone, -, -, happended', chunks, hitems, hwal'⟩ :=
        (commit_spec tee hidle).2.2 alive
      refine ⟨hidle', happended', fun _ => ⟨hnone, chunks, ?_, ?_⟩, fun h => nomatch h⟩
      · rw [hitems, hcarried, Tx.fields]
      · rw [hwal', hwal, happended, Tx.fields]
  | false =>
      rw [hcommits, if_neg Bool.false_ne_true] at heq
      rw [heq]
      refine ⟨⟨hidle.alive, hidle.count, hidle.capacity⟩, rfl, fun h => (nomatch h),
        fun _ => ⟨hcarried, fun hnone => ?_⟩⟩
      rw [hsame hnone]
      exact ⟨rfl, rfl⟩

/-- Where nothing is carried and no aborted transaction has appended a field, every commit
record goes with the fields of its own transaction. -/
theorem noTrace_of_clean (txs : List Tx) {s : Logger} (idle : s.Idle) (fresh : s.appended = [])
    (clean : s.carried = []) (alive : (s.runTxs tee txs).panicked = false)
    (h : ∀ tx ∈ txs, tx.commits = false → tx.fields = []) : NoTrace tee txs s := by
  induction txs generalizing s with
  | nil => trivial
  | cons tx txs ih =>
      obtain ⟨ha, heq⟩ := andThen_alive alive
      have halive : ((s.runTx tee tx).runTxs tee txs).panicked = false := by
        rw [← heq]
        exact alive
      obtain ⟨hidle, hfresh, hcommit, habort⟩ := runTx_spec tee tx idle fresh ha
      refine ⟨fun hc => (habort hc).2 (h tx List.mem_cons_self hc), fun hc => ?_, ?_⟩
      · obtain ⟨-, chunks, hitems, hwal⟩ := hcommit hc
        rw [clean, List.nil_append] at hitems
        refine ⟨chunks, hwal, fun chunk hchunk item hitem => ?_⟩
        rw [← hitems]
        exact List.mem_flatMap.mpr ⟨chunk, hchunk, hitem⟩
      · refine ih hidle hfresh ?_ halive fun tx' htx' => h tx' (List.mem_cons_of_mem _ htx')
        cases hc : tx.commits with
        | true => exact (hcommit hc).1
        | false => rw [(habort hc).1, clean, h tx List.mem_cons_self hc, List.append_nil]

/-- An abort that leaves no trace is one of a transaction that has appended nothing. -/
theorem noFields_of_noTrace (txs : List Tx) {s : Logger} (idle : s.Idle) (fresh : s.appended = [])
    (alive : (s.runTxs tee txs).panicked = false) (h : NoTrace tee txs s) :
    ∀ tx ∈ txs, tx.commits = false → tx.fields = [] := by
  induction txs generalizing s with
  | nil =>
      intro tx htx
      cases htx
  | cons tx txs ih =>
      obtain ⟨ha, heq⟩ := andThen_alive alive
      have halive : ((s.runTx tee tx).runTxs tee txs).panicked = false := by
        rw [← heq]
        exact alive
      obtain ⟨hidle, hfresh, -, habort⟩ := runTx_spec tee tx idle fresh ha
      obtain ⟨hfirst, -, hrest⟩ := h
      intro tx' htx' hc
      rcases List.mem_cons.mp htx' with rfl | htx'
      · obtain ⟨hpending, hchunks⟩ := hfirst hc
        have hcarried := (habort hc).1
        rw [carried, hpending, hchunks] at hcarried
        exact List.self_eq_append_right.mp hcarried
      · exact ih hidle hfresh halive hrest tx' htx' hc

/-- In a run of transactions of one backend, aborts leave no trace exactly if every aborted
transaction has appended no field. -/
theorem aborts_leave_no_trace_iff (items : Buffer WalRidItem) (txs : List Tx)
    (alive : ((init items).runTxs tee txs).panicked = false) :
    NoTrace tee txs (init items) ↔ ∀ tx ∈ txs, tx.commits = false → tx.fields = [] := by
  have idle : (init items).Idle := (inv_init items).idle rfl
  exact ⟨noFields_of_noTrace tee txs idle rfl alive,
    noTrace_of_clean tee txs idle rfl rfl alive⟩

theorem aborts_leave_no_trace_iff_twoTxs :
    NoTrace answering [⟨[Cluster.oneField ⟨.int, 7⟩], true⟩, ⟨[], false⟩] (init noItems) := by
  refine (aborts_leave_no_trace_iff answering noItems _ (by decide +kernel)).mpr fun tx htx hc => ?_
  simp only [List.mem_cons, List.not_mem_nil, or_false] at htx
  rcases htx with rfl | rfl
  · cases hc
  · rfl

/-- A field that an aborted transaction has appended stays in the buffer, and is logged with
the next commit. -/
theorem aborted_field_is_logged :
    ¬ NoTrace answering
        [⟨[Cluster.oneField ⟨.int, 7⟩], false⟩, ⟨[Cluster.oneField ⟨.int, 8⟩], true⟩]
        (init noItems) ∧
      Zeno.sections [] ((init noItems).runTxs answering
          [⟨[Cluster.oneField ⟨.int, 7⟩], false⟩, ⟨[Cluster.oneField ⟨.int, 8⟩], true⟩]).wal =
        [([⟨.int, 7⟩, ⟨.int, 8⟩], [⟨.int, 8⟩])] := by
  refine ⟨fun h => ?_, by decide +kernel⟩
  have hpending := (h.1 rfl).1
  revert hpending
  decide +kernel

end Logger

end Zeno
