import Mathlib.Logic.Function.Basic

/-!
# Bitmaps in machine words

A bitmap is a sequence of words of `w` bits.  Bit `n` is bit `n % w` of word
`n / w`.  It is tested, set and cleared with a mask, by operations on its whole
word.  These change no other bit, of that word or of another one.
-/

namespace Bitmap

variable {w : Nat}

/-- The mask of a bit in its word. -/
def mask (w n : Nat) : BitVec w := BitVec.twoPow w (n % w)

/-- A bit of its word. -/
def testIn (x : BitVec w) (n : Nat) : Bool := x &&& mask w n != 0#w

/-- A bit. -/
def test (a : Nat → BitVec w) (n : Nat) : Bool := testIn (a (n / w)) n

/-- The word with a bit set. -/
def setIn (x : BitVec w) (n : Nat) : BitVec w := x ||| mask w n

/-- The word with a bit cleared. -/
def clearIn (x : BitVec w) (n : Nat) : BitVec w := x &&& ~~~ mask w n

theorem testIn_eq_getLsbD (hw : 0 < w) (x : BitVec w) (n : Nat) :
    testIn x n = x.getLsbD (n % w) := by
  have hlt := Nat.mod_lt n hw
  simp only [testIn, mask, BitVec.and_twoPow]
  cases x.getLsbD (n % w) with
  | false => simp
  | true =>
      have hne : BitVec.twoPow w (n % w) ≠ 0#w := by
        intro h
        have := congrArg (BitVec.getLsbD · (n % w)) h
        simp [hlt] at this
      simp [hne]

theorem getLsbD_mask (hw : 0 < w) (n m : Nat) :
    (mask w n).getLsbD (m % w) = decide (n % w = m % w) := by
  simp [mask, Nat.mod_lt _ hw, eq_comm]

theorem testIn_setIn_self (hw : 0 < w) (x : BitVec w) (n : Nat) : testIn (setIn x n) n = true := by
  simp only [testIn_eq_getLsbD hw, setIn, BitVec.getLsbD_or, getLsbD_mask hw, decide_true,
    Bool.or_true]

/-- Setting a bit of a word leaves its other bits. -/
theorem testIn_setIn_of_ne (hw : 0 < w) (x : BitVec w) {n m : Nat} (h : n % w ≠ m % w) :
    testIn (setIn x n) m = testIn x m := by
  simp only [testIn_eq_getLsbD hw, setIn, BitVec.getLsbD_or, getLsbD_mask hw, h, decide_false,
    Bool.or_false]

/-- Clearing a bit of a word leaves its other bits. -/
theorem testIn_clearIn_of_ne (hw : 0 < w) (x : BitVec w) {n m : Nat} (h : n % w ≠ m % w) :
    testIn (clearIn x n) m = testIn x m := by
  simp only [testIn_eq_getLsbD hw, clearIn, BitVec.getLsbD_and, BitVec.getLsbD_not,
    getLsbD_mask hw, h, Nat.mod_lt m hw, decide_true, decide_false, Bool.not_false, Bool.and_true]

/-- An operation on the word of one bit that leaves the other bits of that word leaves all
other bits. -/
theorem test_update_of_ne (a : Nat → BitVec w) {x : BitVec w} {n m : Nat} (h : m ≠ n)
    (other : n % w ≠ m % w → testIn x m = testIn (a (n / w)) m) :
    test (Function.update a (n / w) x) m = test a m := by
  unfold test
  by_cases hword : m / w = n / w
  · have hbit : n % w ≠ m % w := fun he => h (by
      rw [← Nat.div_add_mod m w, ← Nat.div_add_mod n w, hword, he])
    rw [hword, Function.update_self]
    exact other hbit
  · rw [Function.update_of_ne hword]

theorem test_set_self (hw : 0 < w) (a : Nat → BitVec w) (n : Nat) :
    test (Function.update a (n / w) (setIn (a (n / w)) n)) n = true := by
  rw [test, Function.update_self]
  exact testIn_setIn_self hw _ n

theorem test_set_of_ne (hw : 0 < w) (a : Nat → BitVec w) {n m : Nat} (h : m ≠ n) :
    test (Function.update a (n / w) (setIn (a (n / w)) n)) m = test a m :=
  test_update_of_ne a h (testIn_setIn_of_ne hw _)

theorem test_clear_of_ne (hw : 0 < w) (a : Nat → BitVec w) {n m : Nat} (h : m ≠ n) :
    test (Function.update a (n / w) (clearIn (a (n / w)) n)) m = test a m :=
  test_update_of_ne a h (testIn_clearIn_of_ne hw _)

end Bitmap
