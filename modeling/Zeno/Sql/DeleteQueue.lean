import Zeno.Kv.Rid
import Zeno.Lib.Ring

/-!
# The queue of deleted RIDs

With lazy delete the extension keeps the RIDs that rows gave up in a ring and hands
them out again as the targets of later promotions.  A RID is *pending* until the
transaction that gave it up commits, and *ready* from then on.

`DeleteQueue.Holds` says which RIDs a ring stands for, as two lists.  The
operations act on the lists as one expects, with two exceptions that only lose
RIDs: a full ring takes no more, and a ring that is full when its transaction
commits is taken for an empty one, since its head and its tail are the same.
-/

namespace Zeno

/-- `MAX_ELE_NUM`. -/
def maxEleNum : Nat := 1024 * 1024

/-- `DeleteQueue`. -/
structure DeleteQueue where
  /-- The cells. -/
  queue : Nat → RID
  /-- The first ready RID. -/
  head : Nat
  /-- Behind the last ready RID. -/
  reuse : Nat
  /-- Behind the last pending RID. -/
  tail : Nat
  /-- How many RIDs there are. -/
  size : Nat

namespace DeleteQueue

/-- The queue of a new backend. -/
def new : DeleteQueue := ⟨fun _ => 0, 0, 0, 0, 0⟩

/-- `enqueue`.  Its callers ignore that it failed. -/
def enqueue (q : DeleteQueue) (rid : RID) : DeleteQueue :=
  if q.size ≥ maxEleNum then q
  else
    { q with
      queue := Function.update q.queue q.tail rid
      tail := (q.tail + 1) % maxEleNum
      size := q.size + 1 }

/-- `enqueue` with its result. -/
def tryEnqueue (q : DeleteQueue) (rid : RID) : Bool × DeleteQueue :=
  if q.size ≥ maxEleNum then (false, q) else (true, q.enqueue rid)

/-- `dequeue`. -/
def dequeue (q : DeleteQueue) : RID × DeleteQueue :=
  if q.head = q.reuse then (invalidRid, q)
  else (q.queue q.head, { q with head := (q.head + 1) % maxEleNum, size := q.size - 1 })

/-- `count_between`. -/
def countBetween (first last : Nat) : Nat :=
  if last ≥ first then last - first else maxEleNum - first + last

/-- `set_reuse`. -/
def setReuse (q : DeleteQueue) : DeleteQueue :=
  { q with reuse := q.tail, size := countBetween q.head q.tail }

/-- `discard_pending`. -/
def discardPending (q : DeleteQueue) : DeleteQueue :=
  { q with tail := q.reuse, size := countBetween q.head q.reuse }

/-- The RIDs a ring stands for. -/
structure Holds (q : DeleteQueue) (ready pending : List RID) : Prop where
  head : q.head < maxEleNum
  /-- The ready ones never fill the ring. -/
  room : ready.length < maxEleNum
  fits : q.size ≤ maxEleNum
  reuse : q.reuse = (q.head + ready.length) % maxEleNum
  tail : q.tail = (q.head + q.size) % maxEleNum
  items : Ring.segment q.queue maxEleNum q.head q.size = ready ++ pending

theorem holds_new : new.Holds [] [] :=
  ⟨by decide, by decide, Nat.zero_le _, rfl, rfl, rfl⟩

variable {q : DeleteQueue} {ready pending : List RID}

theorem Holds.size_eq (h : q.Holds ready pending) : q.size = ready.length + pending.length := by
  rw [← List.length_append, ← h.items, Ring.length_segment]

theorem countBetween_add {first n : Nat} (hfirst : first < maxEleNum) (hn : n < maxEleNum) :
    countBetween first ((first + n) % maxEleNum) = n := by
  unfold countBetween
  rcases Nat.lt_or_ge (first + n) maxEleNum with hlt | hge
  · rw [Nat.mod_eq_of_lt hlt, if_pos (Nat.le_add_right _ _), Nat.add_sub_cancel_left]
  · rw [Nat.mod_eq_sub_mod hge, Nat.mod_eq_of_lt (by omega), if_neg (by omega)]
    omega

/-- A full ring takes no more. -/
theorem tryEnqueue_full (hfull : maxEleNum ≤ q.size) (rid : RID) :
    q.tryEnqueue rid = (false, q) := if_pos hfull

theorem tryEnqueue_room (hroom : q.size < maxEleNum) (rid : RID) :
    q.tryEnqueue rid = (true, q.enqueue rid) := if_neg (Nat.not_le.mpr hroom)

/-- A ring that is not full adds a RID to the pending ones. -/
theorem Holds.enqueue_room (h : q.Holds ready pending) (hlt : q.size < maxEleNum) (rid : RID) :
    (q.enqueue rid).Holds ready (pending ++ [rid]) := by
  rw [DeleteQueue.enqueue, if_neg (Nat.not_le.mpr hlt)]
  refine ⟨h.head, h.room, hlt, h.reuse, ?_, ?_⟩
  · show (q.tail + 1) % maxEleNum = (q.head + (q.size + 1)) % maxEleNum
    rw [h.tail, Nat.mod_add_mod, Nat.add_assoc]
  · show Ring.segment (Function.update q.queue q.tail rid) maxEleNum q.head (q.size + 1) = _
    rw [h.tail, Ring.segment_update q.queue hlt, h.items, List.append_assoc]

/-- A RID is added to the pending ones, or lost. -/
theorem Holds.enqueue (h : q.Holds ready pending) (rid : RID) :
    (q.enqueue rid).Holds ready (pending ++ [rid]) ∨ q.enqueue rid = q := by
  rcases Nat.lt_or_ge q.size maxEleNum with hlt | hfull
  · exact .inl (h.enqueue_room hlt rid)
  · exact .inr (if_pos hfull)

theorem Holds.dequeue_nil (h : q.Holds [] pending) : q.dequeue = (invalidRid, q) := by
  have hsame : q.head = q.reuse := by
    rw [h.reuse, List.length_nil, Nat.add_zero, Nat.mod_eq_of_lt h.head]
  simp [dequeue, hsame]

theorem Holds.dequeue_cons {rid : RID} (h : q.Holds (rid :: ready) pending) :
    ∃ q', q.dequeue = (rid, q') ∧ q'.Holds ready pending := by
  have hroom := h.room
  have hsize := h.size_eq
  rw [List.length_cons] at hroom hsize
  have hne : q.head ≠ q.reuse := by
    intro he
    have hmod : (q.head + 0) % maxEleNum = (q.head + (ready.length + 1)) % maxEleNum := by
      rw [← List.length_cons, ← h.reuse, ← he, Nat.add_zero, Nat.mod_eq_of_lt h.head]
    have := Ring.offset_inj (by decide) hroom hmod
    omega
  obtain ⟨n, hn⟩ : ∃ n, q.size = n + 1 := ⟨ready.length + pending.length, by omega⟩
  have hitems := h.items
  rw [hn, Ring.segment_cons, Nat.mod_eq_of_lt h.head, List.cons_append] at hitems
  obtain ⟨hfirst, hrest⟩ := List.cons.inj hitems
  refine ⟨_, by rw [dequeue, if_neg hne, hfirst], ?_⟩
  have hfits := h.fits
  refine ⟨Nat.mod_lt _ (by decide), by omega, ?_, ?_, ?_, ?_⟩
  · show q.size - 1 ≤ maxEleNum
    omega
  · show q.reuse = ((q.head + 1) % maxEleNum + ready.length) % maxEleNum
    rw [h.reuse, List.length_cons, Nat.mod_add_mod, Nat.add_assoc, Nat.add_comm 1]
  · show q.tail = ((q.head + 1) % maxEleNum + (q.size - 1)) % maxEleNum
    rw [h.tail, hn, Nat.mod_add_mod, Nat.add_sub_cancel, Nat.add_assoc, Nat.add_comm 1]
  · show Ring.segment q.queue maxEleNum ((q.head + 1) % maxEleNum) (q.size - 1) = _
    rw [hn, Nat.add_sub_cancel]
    exact hrest

/-- At a commit with room in the ring the pending RIDs become ready. -/
theorem Holds.setReuse_room (h : q.Holds ready pending) (hlt : q.size < maxEleNum) :
    q.setReuse.Holds (ready ++ pending) [] := by
  have hcount : q.setReuse.size = q.size := by
    show countBetween q.head q.tail = q.size
    rw [h.tail, countBetween_add h.head hlt]
  have hlen : (ready ++ pending).length = q.size := by rw [List.length_append, h.size_eq]
  refine ⟨h.head, by omega, by omega, ?_, ?_, ?_⟩
  · show q.tail = _
    rw [hlen]
    exact h.tail
  · rw [hcount]
    exact h.tail
  · rw [hcount, List.append_nil]
    exact h.items

/-- At a commit with a full ring the tail has come round to the head, and all are lost. -/
theorem Holds.setReuse_full (h : q.Holds ready pending) (hfull : q.size = maxEleNum) :
    q.setReuse.Holds [] [] := by
  have htail : q.tail = q.head := by
    rw [h.tail, hfull, Nat.add_mod_right, Nat.mod_eq_of_lt h.head]
  have hcount : q.setReuse.size = 0 := by
    show countBetween q.head q.tail = 0
    simp [htail, countBetween]
  have hhead : (q.head + 0) % maxEleNum = q.head := by
    rw [Nat.add_zero, Nat.mod_eq_of_lt h.head]
  refine ⟨h.head, by decide, by rw [hcount]; exact Nat.zero_le _, ?_, ?_, ?_⟩
  · show q.tail = (q.head + 0) % maxEleNum
    rw [hhead, htail]
  · rw [hcount]
    show q.tail = (q.head + 0) % maxEleNum
    rw [hhead, htail]
  · rw [hcount]
    rfl

/-- At a commit the pending RIDs become ready, or all are lost. -/
theorem Holds.setReuse (h : q.Holds ready pending) :
    q.setReuse.Holds (ready ++ pending) [] ∨ q.setReuse.Holds [] [] := by
  rcases Nat.lt_or_eq_of_le h.fits with hlt | hfull
  · exact .inl (h.setReuse_room hlt)
  · exact .inr (h.setReuse_full hfull)

/-- At an abort the pending RIDs are dropped. -/
theorem Holds.discardPending (h : q.Holds ready pending) : q.discardPending.Holds ready [] := by
  have hcount : q.discardPending.size = ready.length := by
    show countBetween q.head q.reuse = ready.length
    rw [h.reuse, countBetween_add h.head h.room]
  refine ⟨h.head, h.room, ?_, h.reuse, ?_, ?_⟩
  · rw [hcount]
    exact h.room.le
  · rw [hcount]
    exact h.reuse
  · rw [hcount, List.append_nil]
    show Ring.segment q.queue maxEleNum q.head ready.length = ready
    have hle : ready.length ≤ q.size := by
      rw [h.size_eq]
      exact Nat.le_add_right _ _
    rw [← Ring.segment_take q.queue maxEleNum q.head hle, h.items, List.take_left]

end DeleteQueue

end Zeno
