import Mathlib.Data.List.Basic
import Mathlib.Tactic.Ring

/-!
# Byte strings

Fixed-width little-endian numbers, and a reader that takes a fixed number of
bytes off the front of a string.  `le w n` writes the `w` low bytes of `n` and
`ofLe` reads a byte string back, so a number that fits its width survives the
round trip (`ofLe_le_of_lt`).  `ofBe` reads the most significant byte first.
-/

namespace Bytes

/-- The `w` low bytes of a number, least significant first. -/
def le : Nat → Nat → List UInt8
  | 0, _ => []
  | w + 1, n => UInt8.ofNat n :: le w (n / 256)

/-- The number a little-endian byte string denotes. -/
def ofLe : List UInt8 → Nat
  | [] => 0
  | b :: bs => b.toNat + 256 * ofLe bs

@[simp] theorem length_le (w n : Nat) : (le w n).length = w := by
  induction w generalizing n with
  | zero => rfl
  | succ w ih => simp [le, ih]

theorem ofLe_le (w n : Nat) : ofLe (le w n) = n % 256 ^ w := by
  induction w generalizing n with
  | zero => simp [le, ofLe, Nat.mod_one]
  | succ w ih =>
      have h8 : (2 : Nat) ^ 8 = 256 := rfl
      rw [le, ofLe, ih, UInt8.toNat_ofNat', h8, Nat.pow_succ' (n := w), Nat.mod_mul]

theorem ofLe_le_of_lt {w n : Nat} (h : n < 256 ^ w) : ofLe (le w n) = n := by
  rw [ofLe_le, Nat.mod_eq_of_lt h]

theorem ofLe_lt (bs : List UInt8) : ofLe bs < 256 ^ bs.length := by
  induction bs with
  | nil => simp [ofLe]
  | cons b bs ih =>
      have hb : b.toNat < 256 := b.toNat_lt
      rw [ofLe, List.length_cons, Nat.pow_succ]
      omega

/-- A byte string is the writing of the number it denotes. -/
theorem le_ofLe {w : Nat} {bs : List UInt8} (h : bs.length = w) : le w (ofLe bs) = bs := by
  subst h
  induction bs with
  | nil => rfl
  | cons b bs ih =>
      have hb : b.toNat < 256 := b.toNat_lt
      have hhead : UInt8.ofNat (b.toNat + 256 * ofLe bs) = b := by
        apply UInt8.toNat_inj.mp
        rw [UInt8.toNat_ofNat', show (2 : Nat) ^ 8 = 256 from rfl, Nat.add_mul_mod_self_left,
          Nat.mod_eq_of_lt hb]
      have htail : (b.toNat + 256 * ofLe bs) / 256 = ofLe bs := by omega
      rw [ofLe, List.length_cons, le, hhead, htail, ih]

/-- The number a big-endian byte string denotes. -/
def ofBe : List UInt8 → Nat
  | [] => 0
  | b :: bs => b.toNat * 256 ^ bs.length + ofBe bs

theorem ofBe_lt (bs : List UInt8) : ofBe bs < 256 ^ bs.length := by
  induction bs with
  | nil => simp [ofBe]
  | cons b bs ih =>
      have hb : b.toNat + 1 ≤ 256 := b.toNat_lt
      calc ofBe (b :: bs)
          < b.toNat * 256 ^ bs.length + 256 ^ bs.length := Nat.add_lt_add_left ih _
        _ = (b.toNat + 1) * 256 ^ bs.length := (Nat.succ_mul _ _).symm
        _ ≤ 256 * 256 ^ bs.length := Nat.mul_le_mul_right _ hb
        _ = 256 ^ (b :: bs).length := Nat.pow_succ'.symm

/-- A byte that is not the largest has a successor. -/
theorem toNat_add_one {b : UInt8} (h : b ≠ 0xFF) : (b + 1).toNat = b.toNat + 1 := by
  have hne : b.toNat ≠ 255 := fun heq => h (UInt8.toNat_inj.mp heq)
  have hlt : b.toNat < 256 := b.toNat_lt
  rw [UInt8.toNat_add]
  show (b.toNat + 1) % 256 = b.toNat + 1
  omega

/-- Take `n` bytes off the front, if there are as many. -/
def take? (n : Nat) (bs : List UInt8) : Option (List UInt8 × List UInt8) :=
  if n ≤ bs.length then some (bs.take n, bs.drop n) else none

theorem take?_append {n : Nat} {front rest : List UInt8} (h : front.length = n) :
    take? n (front ++ rest) = some (front, rest) := by
  subst h
  simp [take?]

theorem take?_eq_some {n : Nat} {bs front rest : List UInt8} :
    take? n bs = some (front, rest) ↔ front.length = n ∧ bs = front ++ rest := by
  constructor
  · intro h
    simp only [take?] at h
    split at h
    next hle =>
      simp only [Option.some.injEq, Prod.mk.injEq] at h
      obtain ⟨rfl, rfl⟩ := h
      exact ⟨List.length_take_of_le hle, (List.take_append_drop n bs).symm⟩
    next => cases h
  · rintro ⟨hlen, rfl⟩
    exact take?_append hlen

end Bytes
