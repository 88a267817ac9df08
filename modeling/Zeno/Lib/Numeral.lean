import Mathlib.Data.BitVec
import Mathlib.Data.Nat.Digits.Defs

/-!
# Integers of fixed width and their numerals

*Narrowing.*  A signed integer keeps its value in a narrower type if and only if the
value is in the range of that type (`Narrow.toInt_setWidth_eq_iff`).

*Numerals.*  `Decimal.value` is the integer that a numeral denotes: an optional sign
and at least one digit, in ASCII.  `Decimal.print` writes an integer, without leading
zeros, and the value of what it writes is the integer (`Decimal.value_print`).
-/

/-! ## Narrowing -/

namespace Narrow

variable {w v : Nat}

theorem setWidth_eq_ofInt (hle : v ≤ w) (x : BitVec w) : x.setWidth v = BitVec.ofInt v x.toInt := by
  apply BitVec.eq_of_toInt_eq
  rw [BitVec.toInt_setWidth, BitVec.toInt_ofInt, BitVec.toInt_eq_toNat_bmod,
    Int.bmod_bmod_of_dvd (Nat.pow_dvd_pow 2 hle)]

theorem toInt_setWidth_eq_iff (hv : 0 < v) (hle : v ≤ w) (x : BitVec w) :
    (x.setWidth v).toInt = x.toInt ↔ -2 ^ (v - 1) ≤ x.toInt ∧ x.toInt < 2 ^ (v - 1) := by
  constructor
  · intro h
    rw [← h]
    exact ⟨BitVec.le_toInt _, BitVec.toInt_lt⟩
  · rintro ⟨hlo, hhi⟩
    rw [setWidth_eq_ofInt hle, BitVec.toInt_ofInt_eq_self hv hlo hhi]

/-- Narrowing and extending with the sign bit. -/
theorem signExtend_setWidth_eq_iff (hv : 0 < v) (hle : v ≤ w) (x : BitVec w) :
    (x.setWidth v).signExtend w = x ↔ -2 ^ (v - 1) ≤ x.toInt ∧ x.toInt < 2 ^ (v - 1) := by
  rw [← toInt_setWidth_eq_iff hv hle, ← BitVec.toInt_inj, BitVec.toInt_signExtend_of_le hle]

end Narrow

/-! ## Numerals -/

namespace Decimal

/-- The character of a digit. -/
def digit (d : Nat) : UInt8 := UInt8.ofNat (48 + d)

/-- The digit of a character. -/
def digitValue (b : UInt8) : Option Nat :=
  if 48 ≤ b.toNat ∧ b.toNat ≤ 57 then some (b.toNat - 48) else none

/-- The value of a string of digits, the most significant one first. -/
def natValue (bs : List UInt8) : Option Nat :=
  if bs = [] then none else (bs.reverse.mapM digitValue).map (Nat.ofDigits 10)

/-- The value of a numeral. -/
def value : List UInt8 → Option Int
  | 45 :: bs => (natValue bs).map fun n => -(n : Int)
  | bs => (natValue bs).map fun n => (n : Int)

/-- The digits of a number, the most significant one first. -/
def printNat (n : Nat) : List UInt8 :=
  if n = 0 then [digit 0] else ((Nat.digits 10 n).map digit).reverse

/-- The numeral of an integer. -/
def print : Int → List UInt8
  | .ofNat n => printNat n
  | .negSucc n => 45 :: printNat (n + 1)

theorem toNat_digit {d : Nat} (h : d < 10) : (digit d).toNat = 48 + d := by
  rw [digit, UInt8.toNat_ofNat']
  omega

theorem digitValue_digit {d : Nat} (h : d < 10) : digitValue (digit d) = some d := by
  rw [digitValue, toNat_digit h, if_pos (by omega), Nat.add_sub_cancel_left]

theorem mapM_digitValue {ds : List Nat} (h : ∀ d ∈ ds, d < 10) :
    (ds.map digit).mapM digitValue = some ds := by
  induction ds with
  | nil => rfl
  | cons d ds ih =>
      have hd := digitValue_digit (h d List.mem_cons_self)
      have hds := ih fun x hx => h x (List.mem_cons_of_mem d hx)
      simp [hd, hds]

theorem printNat_ne_nil (n : Nat) : printNat n ≠ [] := by
  unfold printNat
  split
  · simp
  next hn => simpa using Nat.digits_ne_nil_iff_ne_zero.mpr hn

theorem natValue_printNat (n : Nat) : natValue (printNat n) = some n := by
  rw [natValue, if_neg (printNat_ne_nil n), printNat]
  split
  next hn =>
    have hzero := digitValue_digit (d := 0) (by omega)
    simp [hn, hzero, Nat.ofDigits]
  next hn =>
    rw [List.reverse_reverse, mapM_digitValue fun d hd => Nat.digits_lt_base (by omega) hd,
      Option.map_some, Nat.ofDigits_digits]

/-- What is printed consists of digits. -/
theorem mem_printNat {n : Nat} {b : UInt8} (h : b ∈ printNat n) : 48 ≤ b.toNat ∧ b.toNat ≤ 57 := by
  have hdigit : ∃ d < 10, b = digit d := by
    unfold printNat at h
    split at h
    · exact ⟨0, by omega, List.mem_singleton.mp h⟩
    · rw [List.mem_reverse, List.mem_map] at h
      obtain ⟨d, hd, rfl⟩ := h
      exact ⟨d, Nat.digits_lt_base (by omega) hd, rfl⟩
  obtain ⟨d, hd, rfl⟩ := hdigit
  rw [toNat_digit hd]
  omega

/-- A numeral without a sign. -/
theorem value_of_digits {bs : List UInt8} (h : ∀ b ∈ bs, 48 ≤ b.toNat) :
    value bs = (natValue bs).map fun n => (n : Int) := by
  unfold value
  split
  next bs =>
    have hsign := h 45 List.mem_cons_self
    exact absurd hsign (by decide)
  next => rfl

theorem value_print (n : Int) : value (print n) = some n := by
  cases n with
  | ofNat n =>
      rw [print, value_of_digits fun b hb => (mem_printNat hb).1, natValue_printNat]
      rfl
  | negSucc n =>
      rw [print, value, natValue_printNat]
      rfl

theorem zero_notMem_print (n : Int) : (0 : UInt8) ∉ print n := by
  have hdigits {m : Nat} : (0 : UInt8) ∉ printNat m := by
    intro h
    exact absurd (mem_printNat h).1 (by decide)
  cases n with
  | ofNat n => exact hdigits
  | negSucc n =>
      intro h
      rcases List.mem_cons.mp h with heq | hmem
      · exact absurd heq (by decide)
      · exact hdigits hmem

end Decimal
