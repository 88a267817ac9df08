import Zeno.Sql.DeleteQueue
import Zeno.Lib.Machine

/-!
# Runs of a delete queue

A run of the four operations on one ring carries the log of what happened: which
RIDs were enqueued and with what result, what each `dequeue` returned, and where
a transaction committed or aborted.  An *occurrence* of a RID is the position of
its `enqueue` in the log.

A `Ledger` says where the accepted occurrences are: given out by which `dequeue`,
ready, or pending.  `Ledger.Traced` relates a ledger to a log.  Every run has a
ledger whose ready and pending occurrences are what the ring holds, whatever is
lost on the way (`dequeued_once_committed`).  If no commit finds the ring full
nothing is lost, and the ledger is the one that the log alone determines
(`committed_rids_come_back`).
-/

namespace Zeno

/-! ## Logs -/

/-- What happened to a queue. -/
inductive QueueEvent where
  | enqueued (rid : RID) (accepted : Bool)
  | dequeued (rid : RID)
  | committed
  | discarded
  deriving DecidableEq

/-- The event at a position of a log, which lists the last event first. -/
def eventAt (log : List QueueEvent) (i : Nat) : Option QueueEvent := log.reverse[i]?

section Log

variable {log : List QueueEvent} {e e' : QueueEvent} {i j k : Nat}

theorem lt_of_eventAt (h : eventAt log i = some e) : i < log.length := by
  simpa using (List.getElem?_eq_some_iff.mp h).1

theorem eventAt_cons_of_lt (h : i < log.length) : eventAt (e :: log) i = eventAt log i := by
  simp [eventAt, List.getElem?_append_left, h]

@[simp] theorem eventAt_cons_self : eventAt (e :: log) log.length = some e := by
  simp [eventAt]

/-- An event of a longer log is the new one or one of the log. -/
theorem eventAt_cons :
    eventAt (e' :: log) i = some e ↔ (i = log.length ∧ e' = e) ∨ eventAt log i = some e := by
  rcases Nat.lt_trichotomy i log.length with hlt | rfl | hgt
  · rw [eventAt_cons_of_lt hlt]
    simp [Nat.ne_of_lt hlt]
  · have hnone : eventAt log log.length = none := by simp [eventAt]
    simp [hnone]
  · have hnone : eventAt log i = none := by simp [eventAt]; omega
    have hnone' : eventAt (e' :: log) i = none := by simp [eventAt]; omega
    simp [hnone, hnone', Nat.ne_of_gt hgt]

theorem eventAt_mono (h : eventAt log i = some e) : eventAt (e' :: log) i = some e :=
  eventAt_cons.mpr (.inr h)

/-- The occurrence at `j` is committed at `k`: no abort comes between. -/
structure CommittedAt (log : List QueueEvent) (j k : Nat) : Prop where
  later : j < k
  commit : eventAt log k = some .committed
  kept : ∀ m, j < m → m < k → eventAt log m ≠ some .discarded

theorem CommittedAt.mono (h : CommittedAt log j k) : CommittedAt (e :: log) j k where
  later := h.later
  commit := eventAt_mono h.commit
  kept m hj hk := by
    rw [eventAt_cons_of_lt (Nat.lt_trans hk (lt_of_eventAt h.commit))]
    exact h.kept m hj hk

/-- The number of `dequeue`s behind a position. -/
def dequeuesAfter (k : Nat) : List QueueEvent → Nat
  | [] => 0
  | .dequeued _ :: log => dequeuesAfter k log + if k < log.length then 1 else 0
  | _ :: log => dequeuesAfter k log

/-- None comes behind the end. -/
theorem dequeuesAfter_of_ge (h : log.length ≤ k) : dequeuesAfter k log = 0 := by
  induction log with
  | nil => rfl
  | cons e log ih =>
      have hlt : ¬ k < log.length := by
        simp only [List.length_cons] at h
        omega
      have hlog := ih (by omega)
      cases e <;> simp [dequeuesAfter, hlog, hlt]

end Log

/-! ## Ledgers -/

/-- Where the accepted occurrences are. -/
structure Ledger where
  /-- Given out: the position of the `dequeue`, and the occurrence. -/
  given : List (Nat × Nat)
  ready : List (Nat × RID)
  pending : List (Nat × RID)

namespace Ledger

/-- What an event at a position does to the occurrences. -/
def record (l : Ledger) (i : Nat) : QueueEvent → Ledger
  | .enqueued rid true => { l with pending := l.pending ++ [(i, rid)] }
  | .enqueued _ false => l
  | .dequeued rid =>
      match l.ready with
      | [] => l
      | (j, first) :: rest =>
          if first = rid then { l with given := l.given ++ [(i, j)], ready := rest } else l
  | .committed => { l with ready := l.ready ++ l.pending, pending := [] }
  | .discarded => { l with pending := [] }

/-- The ledger of a log: what was accepted stays until it is given out or discarded. -/
def of : List QueueEvent → Ledger
  | [] => ⟨[], [], []⟩
  | e :: log => (of log).record log.length e

/-- The number of RIDs held. -/
def held (l : Ledger) : Nat := l.ready.length + l.pending.length

/-- A ledger agrees with a log. -/
structure Traced (log : List QueueEvent) (l : Ledger) : Prop where
  /-- What was given out had been committed. -/
  given : ∀ p ∈ l.given, ∃ rid k, eventAt log p.1 = some (.dequeued rid) ∧
    eventAt log p.2 = some (.enqueued rid true) ∧ CommittedAt log p.2 k ∧ k < p.1
  ready : ∀ p ∈ l.ready, eventAt log p.1 = some (.enqueued p.2 true) ∧ ∃ k, CommittedAt log p.1 k
  pending : ∀ p ∈ l.pending, eventAt log p.1 = some (.enqueued p.2 true) ∧
    ∀ m, p.1 < m → eventAt log m ≠ some .committed ∧ eventAt log m ≠ some .discarded
  /-- The `dequeue`s are listed in order. -/
  dequeues : (l.given.map Prod.fst).Pairwise (· < ·)
  /-- So are the occurrences, and each is in one place. -/
  order : (l.given.map Prod.snd ++ (l.ready.map Prod.fst ++ l.pending.map Prod.fst)).Pairwise
    (· < ·)
  /-- Every RID that was returned is listed. -/
  all : ∀ i rid, eventAt log i = some (.dequeued rid) → rid ≠ invalidRid → ∃ j, (i, j) ∈ l.given

variable {log : List QueueEvent} {l l' : Ledger} {e : QueueEvent} {rid : RID}

theorem traced_nil : Traced [] ⟨[], [], []⟩ where
  given := by simp
  ready := by simp
  pending := by simp
  dequeues := .nil
  order := .nil
  all i rid h _ := by simp [eventAt] at h

theorem Traced.given_mono (t : Traced log l) : ∀ p ∈ l.given, ∃ rid k,
    eventAt (e :: log) p.1 = some (.dequeued rid) ∧
    eventAt (e :: log) p.2 = some (.enqueued rid true) ∧ CommittedAt (e :: log) p.2 k ∧
    k < p.1 := by
  intro p hp
  obtain ⟨rid, k, hdeq, henq, hcommit, hlt⟩ := t.given p hp
  exact ⟨rid, k, eventAt_mono hdeq, eventAt_mono henq, hcommit.mono, hlt⟩

theorem Traced.ready_mono (t : Traced log l) : ∀ p ∈ l.ready,
    eventAt (e :: log) p.1 = some (.enqueued p.2 true) ∧ ∃ k, CommittedAt (e :: log) p.1 k := by
  intro p hp
  obtain ⟨henq, k, hcommit⟩ := t.ready p hp
  exact ⟨eventAt_mono henq, k, hcommit.mono⟩

theorem Traced.pending_mono (t : Traced log l) (hcommit : e ≠ .committed)
    (hdiscard : e ≠ .discarded) : ∀ p ∈ l.pending,
    eventAt (e :: log) p.1 = some (.enqueued p.2 true) ∧
    ∀ m, p.1 < m → eventAt (e :: log) m ≠ some .committed ∧
      eventAt (e :: log) m ≠ some .discarded := by
  intro p hp
  obtain ⟨henq, hlater⟩ := t.pending p hp
  refine ⟨eventAt_mono henq, fun m hm => ⟨fun h => ?_, fun h => ?_⟩⟩
  · obtain ⟨-, he⟩ | hold := eventAt_cons.mp h
    · exact hcommit he
    · exact (hlater m hm).1 hold
  · obtain ⟨-, he⟩ | hold := eventAt_cons.mp h
    · exact hdiscard he
    · exact (hlater m hm).2 hold

theorem Traced.all_mono (t : Traced log l) (he : ∀ rid, e = .dequeued rid → rid = invalidRid) :
    ∀ i rid, eventAt (e :: log) i = some (.dequeued rid) → rid ≠ invalidRid →
      ∃ j, (i, j) ∈ l.given := by
  intro i rid hi hrid
  obtain ⟨-, hnew⟩ | hold := eventAt_cons.mp hi
  · exact absurd (he rid hnew) hrid
  · exact t.all i rid hold hrid

/-- Every occurrence lies in the log. -/
theorem Traced.lt_length (t : Traced log l) {j : Nat}
    (hj : j ∈ l.given.map Prod.snd ++ (l.ready.map Prod.fst ++ l.pending.map Prod.fst)) :
    j < log.length := by
  simp only [List.mem_append, List.mem_map] at hj
  obtain ⟨p, hp, rfl⟩ | ⟨p, hp, rfl⟩ | ⟨p, hp, rfl⟩ := hj
  · obtain ⟨_, _, -, henq, -⟩ := t.given p hp
    exact lt_of_eventAt henq
  · exact lt_of_eventAt (t.ready p hp).1
  · exact lt_of_eventAt (t.pending p hp).1

/-- An event that gives nothing out may lose occurrences. -/
theorem Traced.lose (t : Traced log l) (he : ∀ rid, e = .dequeued rid → rid = invalidRid)
    (hready : l'.ready.Sublist l.ready) (hpending : l'.pending.Sublist l.pending)
    (hend : e = .committed ∨ e = .discarded → l'.pending = []) (hgiven : l'.given = l.given) :
    Traced (e :: log) l' where
  given := hgiven ▸ t.given_mono
  ready p hp := t.ready_mono p (hready.subset hp)
  pending p hp := by
    have hne : ¬ (e = .committed ∨ e = .discarded) := by
      intro h
      rw [hend h] at hp
      cases hp
    rw [not_or] at hne
    exact t.pending_mono hne.1 hne.2 p (hpending.subset hp)
  dequeues := hgiven ▸ t.dequeues
  order := by
    refine t.order.sublist ?_
    rw [hgiven]
    exact (List.Sublist.refl _).append ((hready.map _).append (hpending.map _))
  all := hgiven ▸ t.all_mono he

/-- An accepted RID is a pending occurrence. -/
theorem Traced.enqueued (t : Traced log l) :
    Traced (.enqueued rid true :: log) { l with pending := l.pending ++ [(log.length, rid)] } where
  given := t.given_mono
  ready := t.ready_mono
  pending p hp := by
    rw [List.mem_append, List.mem_singleton] at hp
    obtain hold | rfl := hp
    · exact t.pending_mono (by simp) (by simp) p hold
    · refine ⟨eventAt_cons_self, fun m hm => ?_⟩
      have hnone : eventAt (.enqueued rid true :: log) m = none := by
        simp only [eventAt, List.getElem?_eq_none_iff, List.length_reverse, List.length_cons]
        exact hm
      simp [hnone]
  dequeues := t.dequeues
  order := by
    rw [List.map_append, ← List.append_assoc, ← List.append_assoc, List.pairwise_append,
      List.append_assoc]
    refine ⟨t.order, List.pairwise_singleton _ _, fun j hj k hk => ?_⟩
    rw [List.map_singleton, List.mem_singleton] at hk
    rw [hk]
    exact t.lt_length hj
  all := t.all_mono (by simp)

/-- At a commit the pending occurrences become ready. -/
theorem Traced.committed (t : Traced log l) :
    Traced (.committed :: log) { l with ready := l.ready ++ l.pending, pending := [] } where
  given := t.given_mono
  ready p hp := by
    obtain hold | hnew := List.mem_append.mp hp
    · exact t.ready_mono p hold
    · obtain ⟨henq, hlater⟩ := t.pending p hnew
      refine ⟨eventAt_mono henq, log.length, lt_of_eventAt henq, eventAt_cons_self,
        fun m hm hlt => ?_⟩
      rw [eventAt_cons_of_lt hlt]
      exact (hlater m hm).2
  pending := by simp
  dequeues := t.dequeues
  order := by simpa using t.order
  all := t.all_mono (by simp)

/-- The first ready occurrence is given out. -/
theorem Traced.dequeued {j : Nat} {rest : List (Nat × RID)} (t : Traced log l)
    (hready : l.ready = (j, rid) :: rest) :
    Traced (.dequeued rid :: log)
      { l with given := l.given ++ [(log.length, j)], ready := rest } where
  given p hp := by
    rw [List.mem_append, List.mem_singleton] at hp
    obtain hold | rfl := hp
    · exact t.given_mono p hold
    · obtain ⟨henq, k, hcommit⟩ := t.ready (j, rid) (by rw [hready]; exact List.mem_cons_self)
      exact ⟨rid, k, eventAt_cons_self, eventAt_mono henq, hcommit.mono,
        lt_of_eventAt hcommit.commit⟩
  ready p hp := t.ready_mono p (by rw [hready]; exact List.mem_cons_of_mem _ hp)
  pending := t.pending_mono (by simp) (by simp)
  dequeues := by
    rw [List.map_append, List.pairwise_append]
    refine ⟨t.dequeues, List.pairwise_singleton _ _, fun i hi k hk => ?_⟩
    rw [List.map_singleton, List.mem_singleton] at hk
    obtain ⟨p, hp, rfl⟩ := List.mem_map.mp hi
    obtain ⟨_, _, hdeq, -⟩ := t.given p hp
    rw [hk]
    exact lt_of_eventAt hdeq
  order := by
    have horder := t.order
    rw [hready] at horder
    simpa using horder
  all i rid' hi hrid := by
    obtain ⟨rfl, -⟩ | hold := eventAt_cons.mp hi
    · exact ⟨j, by simp⟩
    · obtain ⟨j', hj'⟩ := t.all i rid' hold hrid
      exact ⟨j', List.mem_append_left _ hj'⟩

/-- An event may follow: a `dequeue` returns the first ready RID, if there is one. -/
def Agrees (l : Ledger) : QueueEvent → Prop
  | .dequeued rid => (l.ready = [] ∧ rid = invalidRid) ∨ ∃ j rest, l.ready = (j, rid) :: rest
  | _ => True

/-- A recorded event leaves a ledger that agrees with the log. -/
theorem Traced.record (t : Traced log l) (ha : l.Agrees e) :
    Traced (e :: log) (l.record log.length e) := by
  cases e with
  | enqueued rid accepted =>
      cases accepted with
      | true => exact t.enqueued
      | false => exact t.lose (by simp) (.refl _) (.refl _) (by simp) rfl
  | dequeued rid =>
      obtain ⟨hnil, rfl⟩ | ⟨j, rest, hready⟩ := ha
      · simp only [Ledger.record, hnil]
        exact t.lose (by simp) (.refl _) (.refl _) (by simp) rfl
      · simp only [Ledger.record, hready, if_true]
        exact t.dequeued hready
  | committed => exact t.committed
  | discarded => exact t.lose (by simp) (.refl _) (List.nil_sublist _) (fun _ => rfl) rfl

/-- A transaction that accepted the occurrence at `j` aborted. -/
def DiscardedAt (log : List QueueEvent) (j : Nat) : Prop :=
  ∃ m, j < m ∧ eventAt log m = some .discarded ∧
    ∀ k, j < k → k < m → eventAt log k ≠ some .committed

theorem DiscardedAt.mono {j : Nat} (h : DiscardedAt log j) : DiscardedAt (e :: log) j := by
  obtain ⟨m, hj, hm, hkept⟩ := h
  refine ⟨m, hj, eventAt_mono hm, fun k hk hlt => ?_⟩
  rw [eventAt_cons_of_lt (Nat.lt_trans hlt (lt_of_eventAt hm))]
  exact hkept k hk hlt

/-- Every accepted occurrence is somewhere in the ledger, unless it was discarded. -/
def Complete (log : List QueueEvent) (l : Ledger) : Prop :=
  ∀ j rid, eventAt log j = some (.enqueued rid true) →
    (∃ i, (i, j) ∈ l.given) ∨ (j, rid) ∈ l.ready ∨ (j, rid) ∈ l.pending ∨ DiscardedAt log j

theorem Complete.record (c : Complete log l) (t : Traced log l) (ha : l.Agrees e) :
    Complete (e :: log) (l.record log.length e) := by
  intro j rid hj
  obtain ⟨rfl, rfl⟩ | hold := eventAt_cons.mp hj
  · exact .inr (.inr (.inl (by simp [Ledger.record])))
  · obtain ⟨i, hi⟩ | hready | hpending | hdisc := c j rid hold
    · -- nothing that was given out comes back
      refine .inl ⟨i, ?_⟩
      cases e with
      | enqueued rid' accepted => cases accepted <;> exact hi
      | dequeued rid' =>
          simp only [Ledger.record]
          split
          · exact hi
          · split
            · exact List.mem_append_left _ hi
            · exact hi
      | committed => exact hi
      | discarded => exact hi
    · cases e with
      | enqueued rid' accepted => cases accepted <;> exact .inr (.inl hready)
      | dequeued rid' =>
          obtain ⟨hnil, -⟩ | ⟨j', rest, hfirst⟩ := ha
          · rw [hnil] at hready
            cases hready
          · simp only [Ledger.record, hfirst, if_true]
            rw [hfirst, List.mem_cons] at hready
            obtain heq | hrest := hready
            · cases heq
              exact .inl ⟨log.length, by simp⟩
            · exact .inr (.inl hrest)
      | committed => exact .inr (.inl (List.mem_append_left _ hready))
      | discarded => exact .inr (.inl hready)
    · cases e with
      | enqueued rid' accepted =>
          cases accepted with
          | true => exact .inr (.inr (.inl (List.mem_append_left _ hpending)))
          | false => exact .inr (.inr (.inl hpending))
      | dequeued rid' =>
          refine .inr (.inr (.inl ?_))
          simp only [Ledger.record]
          split
          · exact hpending
          · split <;> exact hpending
      | committed => exact .inr (.inl (List.mem_append_right _ hpending))
      | discarded =>
          refine .inr (.inr (.inr ⟨log.length, lt_of_eventAt hold, eventAt_cons_self, ?_⟩))
          intro k hk hlt
          rw [eventAt_cons_of_lt hlt]
          exact ((t.pending _ hpending).2 k hk).1
    · exact .inr (.inr (.inr hdisc.mono))

/-- The ready occurrence at index `n` has waited for so many `dequeue`s since a commit that
`n` more and its own stay within the size of the ring. -/
def Waits (log : List QueueEvent) (l : Ledger) : Prop :=
  ∀ (n : Nat) (p : Nat × RID), l.ready[n]? = some p →
    ∀ k, p.1 < k → eventAt log k = some .committed → dequeuesAfter k log + n < maxEleNum

theorem Waits.record (w : Waits log l) (t : Traced log l) (ha : l.Agrees e)
    (hroom : e = .committed → l.held < maxEleNum) :
    Waits (e :: log) (l.record log.length e) := by
  intro n p hp k hk hcommit
  cases e with
  | enqueued rid accepted =>
      have hold : eventAt log k = some .committed := by simpa using eventAt_cons.mp hcommit
      cases accepted <;> exact w n p hp k hk hold
  | dequeued rid =>
      have hold : eventAt log k = some .committed := by simpa using eventAt_cons.mp hcommit
      obtain ⟨hnil, -⟩ | ⟨j, rest, hfirst⟩ := ha
      · simp [Ledger.record, hnil] at hp
      · simp only [Ledger.record, hfirst, if_true] at hp
        have hwait := w (n + 1) p (by rw [hfirst, List.getElem?_cons_succ]; exact hp) k hk hold
        simp only [dequeuesAfter, lt_of_eventAt hold, if_true]
        omega
  | committed =>
      have hlen : n < l.held := by
        have := (List.getElem?_eq_some_iff.mp hp).1
        simpa [Ledger.record, Ledger.held] using this
      have hheld := hroom rfl
      obtain ⟨rfl, -⟩ | hold := eventAt_cons.mp hcommit
      · simp only [dequeuesAfter, dequeuesAfter_of_ge (Nat.le_refl _)]
        omega
      · -- a commit of the log: the occurrence was ready already
        simp only [Ledger.record] at hp
        rcases Nat.lt_or_ge n l.ready.length with hlt | hge
        · rw [List.getElem?_append_left hlt] at hp
          exact w n p hp k hk hold
        · rw [List.getElem?_append_right hge] at hp
          exact absurd hold ((t.pending p (List.mem_of_getElem? hp)).2 k hk).1
  | discarded =>
      have hold : eventAt log k = some .committed := by simpa using eventAt_cons.mp hcommit
      exact w n p hp k hk hold

end Ledger

/-! ## Runs -/

/-- A call of one of the four operations. -/
inductive QueueOp where
  | enqueue (rid : RID)
  | dequeue
  | setReuse
  | discardPending

/-- A queue and its log. -/
structure QueueRun where
  queue : DeleteQueue
  /-- The events, the last one first. -/
  log : List QueueEvent

namespace QueueRun

open DeleteQueue

/-- An empty queue. -/
def new : QueueRun := ⟨.new, []⟩

/-- The next state of a run. -/
def step (r : QueueRun) : QueueOp → Option QueueRun
  | .enqueue rid =>
      some ⟨(r.queue.tryEnqueue rid).2, .enqueued rid (r.queue.tryEnqueue rid).1 :: r.log⟩
  | .dequeue => some ⟨r.queue.dequeue.2, .dequeued r.queue.dequeue.1 :: r.log⟩
  | .setReuse => some ⟨r.queue.setReuse, .committed :: r.log⟩
  | .discardPending => some ⟨r.queue.discardPending, .discarded :: r.log⟩

/-- A ring holds the occurrences of a ledger. -/
def HoldsLedger (q : DeleteQueue) (l : Ledger) : Prop :=
  q.Holds (l.ready.map Prod.snd) (l.pending.map Prod.snd)

theorem HoldsLedger.size_eq {q : DeleteQueue} {l : Ledger} (h : HoldsLedger q l) :
    q.size = l.held := by
  simpa [Ledger.held] using Holds.size_eq h

variable {r r' : QueueRun} {op : QueueOp} {l : Ledger}

/-- A step adds an event that may follow.  The ring then holds what the event leaves, except
that a full ring loses everything when its transaction commits. -/
theorem step_record (hold : HoldsLedger r.queue l) (h : r.step op = some r') :
    ∃ e, r'.log = e :: r.log ∧ l.Agrees e ∧ (e = .committed → op = .setReuse) ∧
      (HoldsLedger r'.queue (l.record r.log.length e) ∨
        (op = .setReuse ∧ e = .committed ∧ r.queue.size = maxEleNum ∧ r'.queue.Holds [] [])) := by
  cases op with
  | enqueue rid =>
      rcases Nat.lt_or_ge r.queue.size maxEleNum with hroom | hfull
      · rw [step, tryEnqueue_room hroom] at h
        cases h
        refine ⟨.enqueued rid true, rfl, trivial, nofun, .inl ?_⟩
        simpa [HoldsLedger, Ledger.record] using Holds.enqueue_room hold hroom rid
      · rw [step, tryEnqueue_full hfull] at h
        cases h
        exact ⟨.enqueued rid false, rfl, trivial, nofun, .inl hold⟩
  | dequeue =>
      cases hready : l.ready with
      | nil =>
          have hnil : r.queue.Holds [] (l.pending.map Prod.snd) := by
            simpa [HoldsLedger, hready] using hold
          rw [step, hnil.dequeue_nil] at h
          cases h
          refine ⟨.dequeued invalidRid, rfl, .inl ⟨hready, rfl⟩, nofun, .inl ?_⟩
          simpa only [Ledger.record, hready] using hold
      | cons p rest =>
          obtain ⟨j, rid⟩ := p
          have hcons : r.queue.Holds (rid :: rest.map Prod.snd) (l.pending.map Prod.snd) := by
            simpa [HoldsLedger, hready] using hold
          obtain ⟨q, hdeq, hrest⟩ := hcons.dequeue_cons
          rw [step, hdeq] at h
          cases h
          refine ⟨.dequeued rid, rfl, .inr ⟨j, rest, hready⟩, nofun, .inl ?_⟩
          simp only [Ledger.record, hready, if_true]
          exact hrest
  | setReuse =>
      cases h
      refine ⟨.committed, rfl, trivial, fun _ => rfl, ?_⟩
      rcases Nat.lt_or_eq_of_le hold.fits with hroom | hfull
      · refine .inl ?_
        simpa [HoldsLedger, Ledger.record] using Holds.setReuse_room hold hroom
      · exact .inr ⟨rfl, rfl, hfull, Holds.setReuse_full hold hfull⟩
  | discardPending =>
      cases h
      exact ⟨.discarded, rfl, trivial, nofun, .inl (Holds.discardPending hold)⟩

/-! ## What is given out was committed -/

/-- Every run has a ledger of what its ring holds. -/
theorem traced_of_path (path : Machine.Path step Machine.free new r) :
    ∃ l : Ledger, l.Traced r.log ∧ HoldsLedger r.queue l := by
  refine path.invariant (I := fun r : QueueRun => ∃ l : Ledger, l.Traced r.log ∧
    HoldsLedger r.queue l) ⟨⟨[], [], []⟩, Ledger.traced_nil, holds_new⟩ ?_
  intro r op r' ⟨l, t, hold⟩ _ hstep
  obtain ⟨e, hlog, ha, -, hnext | ⟨-, rfl, -, hlost⟩⟩ := step_record hold hstep
  · exact ⟨_, hlog ▸ t.record ha, hnext⟩
  · refine ⟨⟨l.given, [], []⟩, hlog ▸ ?_, hlost⟩
    exact t.lose (by simp) (List.nil_sublist _) (List.nil_sublist _) (fun _ => rfl) rfl

/-- In every run, each RID that a `dequeue` returned is paired with an `enqueue` of it that was
accepted and committed before.  Later `dequeue`s are paired with later occurrences. -/
theorem dequeued_once_committed (path : Machine.Path step Machine.free new r) :
    ∃ given : List (Nat × Nat),
      (∀ i rid, eventAt r.log i = some (.dequeued rid) → rid ≠ invalidRid →
        ∃ j, (i, j) ∈ given) ∧
      (∀ p ∈ given, ∃ rid k, eventAt r.log p.1 = some (.dequeued rid) ∧
        eventAt r.log p.2 = some (.enqueued rid true) ∧ CommittedAt r.log p.2 k ∧ k < p.1) ∧
      given.Pairwise fun p p' => p.1 < p'.1 ∧ p.2 < p'.2 := by
  obtain ⟨l, t, -⟩ := traced_of_path path
  have hfst := List.pairwise_map.mp t.dequeues
  have hsnd := List.pairwise_map.mp (List.pairwise_append.mp t.order).1
  exact ⟨l.given, t.all, t.given, hfst.and hsnd⟩

/-- A RID is enqueued, committed and given out, and an aborted one is not. -/
theorem dequeued_once_committed_run :
    ∃ r, Machine.run step new
        [.enqueue 7, .setReuse, .enqueue 8, .discardPending, .dequeue, .dequeue] = some r ∧
      eventAt r.log 4 = some (.dequeued 7) ∧ eventAt r.log 5 = some (.dequeued invalidRid) ∧
      ∃ given : List (Nat × Nat), (∃ j, (4, j) ∈ given) ∧
        given.Pairwise fun p p' => p.1 < p'.1 ∧ p.2 < p'.2 := by
  have hrun : Machine.run step new
      [.enqueue 7, .setReuse, .enqueue 8, .discardPending, .dequeue, .dequeue] =
      some ⟨((DeleteQueue.new.enqueue 7).setReuse.enqueue 8).discardPending.dequeue.2.dequeue.2,
        [.dequeued invalidRid, .dequeued 7, .discarded, .enqueued 8 true, .committed,
          .enqueued 7 true]⟩ := rfl
  obtain ⟨given, hall, -, horder⟩ :=
    dequeued_once_committed (Machine.path_of_run (fun _ _ _ => trivial) hrun)
  exact ⟨_, hrun, by decide, by decide, given, hall 4 7 (by decide) (by decide), horder⟩

/-! ## What is committed comes back -/

/-- No commit finds the ring full. -/
def CommitsWithRoom (r : QueueRun) : QueueOp → Prop
  | .setReuse => r.queue.size < maxEleNum
  | _ => True

instance (r : QueueRun) (op : QueueOp) : Decidable (CommitsWithRoom r op) :=
  match op with
  | .setReuse => inferInstanceAs (Decidable (_ < _))
  | .enqueue _ | .dequeue | .discardPending => inferInstanceAs (Decidable True)

/-- What such a run keeps: the ring holds what the log says. -/
structure Kept (r : QueueRun) : Prop where
  traced : (Ledger.of r.log).Traced r.log
  holds : HoldsLedger r.queue (Ledger.of r.log)
  complete : (Ledger.of r.log).Complete r.log
  waits : (Ledger.of r.log).Waits r.log

theorem kept_new : new.Kept where
  traced := Ledger.traced_nil
  holds := holds_new
  complete j rid h := by simp [new, eventAt] at h
  waits n p h := by simp [new, Ledger.of] at h

theorem Kept.step (kept : r.Kept) (ok : CommitsWithRoom r op) (h : r.step op = some r') :
    r'.Kept := by
  obtain ⟨e, hlog, ha, hop, hnext | ⟨rfl, -, hfull, -⟩⟩ := step_record kept.holds h
  · have hroom : e = .committed → (Ledger.of r.log).held < maxEleNum := by
      intro he
      obtain rfl := hop he
      exact kept.holds.size_eq ▸ ok
    have hof : Ledger.of r'.log = (Ledger.of r.log).record r.log.length e := by rw [hlog]; rfl
    refine ⟨?_, ?_, ?_, ?_⟩
    · rw [hof, hlog]
      exact kept.traced.record ha
    · rw [hof]
      exact hnext
    · rw [hof, hlog]
      exact kept.complete.record kept.traced ha
    · rw [hof, hlog]
      exact kept.waits.record kept.traced ha hroom
  · exact absurd hfull (Nat.ne_of_lt ok)

theorem kept_of_path (path : Machine.Path step CommitsWithRoom new r) : r.Kept :=
  path.invariant kept_new fun _ _ _ hkept hok hstep => hkept.step hok hstep

/-- If no commit finds the ring full, `size` counts the RIDs that are held, a RID is accepted
exactly if fewer than `MAX_ELE_NUM` are, and an accepted RID that is committed comes back once
`MAX_ELE_NUM` `dequeue`s have followed. -/
theorem committed_rids_come_back (path : Machine.Path step CommitsWithRoom new r) :
    r.queue.size = (Ledger.of r.log).held ∧
      (∀ rid, (r.queue.tryEnqueue rid).1 = true ↔ (Ledger.of r.log).held < maxEleNum) ∧
      ∀ j k rid, eventAt r.log j = some (.enqueued rid true) → CommittedAt r.log j k →
        (∀ m, j < m → m < k → eventAt r.log m ≠ some .committed) →
        maxEleNum ≤ dequeuesAfter k r.log →
        ∃ i, k < i ∧ eventAt r.log i = some (.dequeued rid) ∧ (i, j) ∈ (Ledger.of r.log).given := by
  have kept := kept_of_path path
  have hsize := kept.holds.size_eq
  refine ⟨hsize, fun rid => ?_, fun j k rid henq hcommit hfirst hmany => ?_⟩
  · rw [← hsize]
    rcases Nat.lt_or_ge r.queue.size maxEleNum with hroom | hfull
    · simp [tryEnqueue_room hroom, hroom]
    · simp [tryEnqueue_full hfull, hfull]
  · obtain ⟨i, hi⟩ | hready | hpending | ⟨m, hj, hm, hnone⟩ := kept.complete j rid henq
    · obtain ⟨rid', k', hdeq, henq', hcommit', hlt⟩ := kept.traced.given _ hi
      cases henq.symm.trans henq'
      refine ⟨i, ?_, hdeq, hi⟩
      by_contra hle
      exact hfirst k' hcommit'.later (by omega) hcommit'.commit
    · -- it cannot still be ready
      obtain ⟨n, hn⟩ := List.mem_iff_getElem?.mp hready
      have := kept.waits n _ hn k hcommit.later hcommit.commit
      omega
    · exact absurd hcommit.commit ((kept.traced.pending _ hpending).2 k hcommit.later).1
    · rcases Nat.lt_trichotomy m k with hlt | rfl | hgt
      · exact absurd hm (hcommit.kept m hj hlt)
      · cases hm.symm.trans hcommit.commit
      · exact absurd hcommit.commit (hnone k hcommit.later hgt)

/-- A queue can be asked any number of times. -/
theorem exists_dequeues (r : QueueRun) {k : Nat} (hk : k < r.log.length) (n : Nat) :
    ∃ r', Machine.Path step CommitsWithRoom r r' ∧
      dequeuesAfter k r'.log = dequeuesAfter k r.log + n ∧
      r.log.length ≤ r'.log.length ∧
      ∀ i < r.log.length, eventAt r'.log i = eventAt r.log i := by
  induction n with
  | zero => exact ⟨r, .refl, rfl, Nat.le_refl _, fun _ _ => rfl⟩
  | succ n ih =>
      obtain ⟨r', path, hcount, hlen, hsame⟩ := ih
      refine ⟨⟨r'.queue.dequeue.2, .dequeued r'.queue.dequeue.1 :: r'.log⟩,
        path.tail ⟨.dequeue, trivial, rfl⟩, ?_, Nat.le_succ_of_le hlen, fun i hi => ?_⟩
      · simp only [dequeuesAfter, hcount, if_pos (Nat.lt_of_lt_of_le hk hlen)]
        omega
      · rw [eventAt_cons_of_lt (Nat.lt_of_lt_of_le hi hlen)]
        exact hsame i hi

/-- A ring can be filled in one transaction. -/
theorem exists_enqueues (rid : RID) {n : Nat} (hn : n ≤ maxEleNum) :
    ∃ r, Machine.Path step CommitsWithRoom new r ∧ r.queue.size = n := by
  induction n with
  | zero => exact ⟨new, .refl, rfl⟩
  | succ n ih =>
      obtain ⟨r, path, hsize⟩ := ih (Nat.le_of_succ_le hn)
      have hroom : r.queue.size < maxEleNum := by omega
      refine ⟨_, path.tail ⟨.enqueue rid, trivial, rfl⟩, ?_⟩
      rw [tryEnqueue_room hroom, enqueue, if_neg (Nat.not_le.mpr hroom)]
      exact congrArg (· + 1) hsize

/-- A RID that is enqueued and committed comes back. -/
theorem committed_rids_come_back_run :
    ∃ r, Machine.Path step CommitsWithRoom new r ∧
      ∃ i, 1 < i ∧ eventAt r.log i = some (.dequeued 7) := by
  have hrun : Machine.runOk step CommitsWithRoom new [.enqueue 7, .setReuse] =
      some ⟨(DeleteQueue.new.enqueue 7).setReuse, [.committed, .enqueued 7 true]⟩ := rfl
  obtain ⟨r, path, hcount, -, hsame⟩ :=
    exists_dequeues ⟨(DeleteQueue.new.enqueue 7).setReuse, [.committed, .enqueued 7 true]⟩
      (show 1 < 2 by decide) maxEleNum
  have hwhole := (Machine.path_of_runOk hrun).trans path
  have hcommit : CommittedAt r.log 0 1 :=
    ⟨by decide, (hsame 1 (by decide)).trans rfl, fun m h h' => by omega⟩
  obtain ⟨i, hi, hdeq, -⟩ := (committed_rids_come_back hwhole).2.2 0 1 7
    ((hsame 0 (by decide)).trans rfl) hcommit (fun m h h' => by omega)
    (hcount ▸ Nat.le_add_left _ _)
  exact ⟨r, hwhole, i, hi, hdeq⟩

/-- A full ring is committed.  The RIDs are in the ledger, but the ring counts none and gives
none out. -/
theorem full_ring_loses_rids :
    ∃ r, Machine.Path step Machine.free new r ∧
      (Ledger.of r.log).ready.length = maxEleNum ∧ r.queue.size = 0 ∧
      r.queue.dequeue = (invalidRid, r.queue) := by
  obtain ⟨r, path, hsize⟩ := exists_enqueues 7 (Nat.le_refl maxEleNum)
  have kept := kept_of_path path
  have hlost := Holds.setReuse_full kept.holds hsize
  refine ⟨⟨r.queue.setReuse, .committed :: r.log⟩, ?_, ?_, hlost.size_eq, hlost.dequeue_nil⟩
  · exact (path.mono fun _ _ _ => trivial).tail ⟨.setReuse, trivial, rfl⟩
  · show ((Ledger.of r.log).ready ++ (Ledger.of r.log).pending).length = maxEleNum
    rw [List.length_append, ← hsize]
    exact kept.holds.size_eq.symm

end QueueRun

end Zeno
