import Mathlib.Data.List.Basic

/-!
# Buffers

The cells of an allocated array, written and moved in ranges.  Cells that were
never written hold an arbitrary value.  A buffer that is filled from the front
is read as a list: writing at its end appends (`read_write`), and moving the
cells behind a prefix to the front drops the prefix (`read_move`).
-/

/-- The cells of an array. -/
abbrev Buffer (α : Type) := Nat → α

namespace Buffer

variable {α : Type}

/-- The `n` cells from a position on. -/
def read (b : Buffer α) (pos n : Nat) : List α := (List.range n).map fun i => b (pos + i)

/-- `memcpy` from a list. -/
def write (b : Buffer α) (pos : Nat) (xs : List α) : Buffer α := fun i =>
  if h : pos ≤ i ∧ i < pos + xs.length then xs[i - pos] else b i

/-- `memmove` to the front. -/
def move (b : Buffer α) (pos n : Nat) : Buffer α := fun i => if i < n then b (pos + i) else b i

@[simp] theorem length_read (b : Buffer α) (pos n : Nat) : (b.read pos n).length = n := by
  simp [read]

@[simp] theorem read_zero (b : Buffer α) (pos : Nat) : b.read pos 0 = [] := rfl

theorem read_add (b : Buffer α) (pos m n : Nat) :
    b.read pos (m + n) = b.read pos m ++ b.read (pos + m) n := by
  simp [read, List.range_add, Nat.add_assoc]

/-- Writing at the end of what is in use appends. -/
theorem read_write (b : Buffer α) (n : Nat) (xs : List α) :
    (b.write n xs).read 0 (n + xs.length) = b.read 0 n ++ xs := by
  rw [read_add]
  congr 1
  · apply List.map_congr_left
    intro i hi
    have : ¬ n ≤ i := by
      have := List.mem_range.mp hi
      omega
    simp [write, this]
  · apply List.ext_getElem
    · simp
    · intro i h₁ h₂
      simp [read, write, h₂]

/-- Moving to the front. -/
theorem read_move (b : Buffer α) (pos n : Nat) : (b.move pos n).read 0 n = b.read pos n := by
  apply List.map_congr_left
  intro i hi
  simp [move, List.mem_range.mp hi]

end Buffer
