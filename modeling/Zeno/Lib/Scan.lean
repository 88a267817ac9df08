import Zeno.Lib.Bytes
import Zeno.Lib.CStr

/-!
# Scans of a buffer

A program that reads a buffer through a cursor, with a record of every range
it reads.  A failed check ends the program, and what it has read by then stays
on record.  `Within stop s` says that no read of `s` goes past `stop`, and
`Within.bind` that this holds of a program whose parts keep to it.

`take` is the checked read of such programs.  What it returns is what
`Bytes.take?` takes off the bytes between the cursor and the end
(`result_take`).
-/

/-- A program over a buffer: the ranges it read, by address and length, and its result. -/
structure Scan (α : Type) where
  /-- The ranges read, in order. -/
  reads : List (Nat × Nat)
  /-- The result, if no check failed. -/
  result : Option α

namespace Scan

variable {α β : Type}

/-- Run one program and then another on its result. -/
def andThen (s : Scan α) (f : α → Scan β) : Scan β :=
  match s.result with
  | none => ⟨s.reads, none⟩
  | some a => ⟨s.reads ++ (f a).reads, (f a).result⟩

instance : Monad Scan where
  pure a := ⟨[], some a⟩
  bind := andThen

/-- A computation that reads nothing. -/
def ofOption (x : Option α) : Scan α := ⟨[], x⟩

/-- A check. -/
def check (p : Prop) [Decidable p] : Scan Unit := ofOption (if p then some () else none)

/-- Copy `n` bytes from an address, without a check. -/
def load (mem : Mem) (pos n : Nat) : Scan (List UInt8) := ⟨[(pos, n)], some (mem.read pos n)⟩

/-- Copy `n` bytes at the cursor and move it, after a check of the end. -/
def take (mem : Mem) (stop n ptr : Nat) : Scan (List UInt8 × Nat) := do
  check (ptr + n ≤ stop)
  let bytes ← load mem ptr n
  pure (bytes, ptr + n)

/-! ## Results -/

@[simp] theorem result_pure (a : α) : (pure a : Scan α).result = some a := rfl

@[simp] theorem result_bind (s : Scan α) (f : α → Scan β) :
    (s >>= f).result = s.result.bind fun a => (f a).result := by
  show (s.andThen f).result = _
  cases h : s.result with
  | none => simp [andThen, h]
  | some a => simp [andThen, h]

@[simp] theorem result_ofOption (x : Option α) : (ofOption x).result = x := rfl

@[simp] theorem result_check (p : Prop) [Decidable p] :
    (check p).result = if p then some () else none := rfl

@[simp] theorem result_load (mem : Mem) (pos n : Nat) :
    (load mem pos n).result = some (mem.read pos n) := rfl

/-- A checked read takes bytes off the front of what is left of the buffer. -/
theorem result_take (mem : Mem) {stop n ptr : Nat} (h : ptr ≤ stop) :
    (Bytes.take? n (mem.read ptr (stop - ptr))) =
      (take mem stop n ptr).result.map fun (bytes, ptr) => (bytes, mem.read ptr (stop - ptr)) := by
  by_cases hle : ptr + n ≤ stop
  · have hsplit : stop - ptr = n + (stop - (ptr + n)) := by omega
    rw [hsplit, mem.read_add, Bytes.take?_append (mem.length_read ptr n)]
    simp [take, hle]
  · have hshort : ¬ n ≤ stop - ptr := by omega
    simp [take, hle, Bytes.take?, hshort]

theorem take_eq_some {mem : Mem} {stop n ptr ptr' : Nat} {bytes : List UInt8} :
    (take mem stop n ptr).result = some (bytes, ptr') ↔
      ptr + n ≤ stop ∧ bytes = mem.read ptr n ∧ ptr' = ptr + n := by
  by_cases hle : ptr + n ≤ stop
  · simp [take, hle, eq_comm]
  · simp [take, hle]

/-! ## Reads -/

/-- No read goes past an end. -/
def Within (stop : Nat) (s : Scan α) : Prop := ∀ r ∈ s.reads, r.1 + r.2 ≤ stop

variable {stop : Nat}

theorem Within.pure (a : α) : (pure a : Scan α).Within stop := fun _ h => nomatch h

theorem Within.ofOption (x : Option α) : (ofOption x).Within stop := fun _ h => nomatch h

theorem Within.check (p : Prop) [Decidable p] : (check p).Within stop := fun _ h => nomatch h

theorem Within.load {mem : Mem} {pos n : Nat} (h : pos + n ≤ stop) :
    (load mem pos n).Within stop := by
  intro r hr
  rw [List.mem_singleton.mp hr]
  exact h

/-- Two programs in sequence stay within an end if the first does, and the second does on
every result of the first. -/
theorem Within.bind {s : Scan α} {f : α → Scan β} (hs : s.Within stop)
    (hf : ∀ a, s.result = some a → (f a).Within stop) : (s >>= f).Within stop := by
  show (s.andThen f).Within stop
  cases h : s.result with
  | none => simpa [andThen, h, Within] using hs
  | some a =>
      have hrest := hf a h
      intro r hr
      simp only [andThen, h, List.mem_append] at hr
      rcases hr with hr | hr
      · exact hs r hr
      · exact hrest r hr

theorem Within.take {mem : Mem} {n ptr : Nat} : (take mem stop n ptr).Within stop := by
  refine (Within.check _).bind fun _ hle => ?_
  have hle : ptr + n ≤ stop := by
    by_contra hnot
    simp [hnot] at hle
  exact (Within.load hle).bind fun bytes _ => Within.pure _

end Scan
