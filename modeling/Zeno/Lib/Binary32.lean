import Mathlib.Data.BitVec
import Mathlib.Data.Set.Defs

/-!
# Three-way comparison of partial values

A type is compared through a partial value in a linear order.  Two elements that
have values compare as their values do, and an element without one compares as
equal to everything.  Such a comparison is always antisymmetric.  It is transitive
on a set if and only if every element of the set has a value, or all values of
elements are equal (`Compares.le_trans_iff`, `Compares.eq_trans_iff`).

The numbers of the format binary32 of IEEE 754 are an instance.  The value of a
finite number is an integer, in units of the smallest subnormal.  That of an infinity
is an integer beyond those of all finite numbers (`magnitude_lt`), and a NaN has none.
-/

namespace Partial

section Comparison

variable {β γ : Type*} [LinearOrder γ] (value : β → Option γ) (cmp : β → β → Int)

/-- The comparison of two elements is that of their values. -/
structure Compares : Prop where
  gt : ∀ x y a b, value x = some a → value y = some b → b < a → cmp x y = 1
  lt : ∀ x y a b, value x = some a → value y = some b → a < b → cmp x y = -1
  eq : ∀ x y a, value x = some a → value y = some a → cmp x y = 0
  left : ∀ x y, value x = none → cmp x y = 0
  right : ∀ x y, value y = none → cmp x y = 0

/-- Every element of a set has a value, or all values are equal. -/
def Comparable (S : Set β) : Prop :=
  (∀ x ∈ S, value x ≠ none) ∨
    ∀ x ∈ S, ∀ y ∈ S, ∀ a b, value x = some a → value y = some b → a = b

variable {value cmp} (h : Compares value cmp)

include h

/-- Elements of another type are compared through their images. -/
theorem Compares.comap {α : Type*} (f : α → β) :
    Compares (fun x => value (f x)) fun x y => cmp (f x) (f y) where
  gt x y := h.gt (f x) (f y)
  lt x y := h.lt (f x) (f y)
  eq x y := h.eq (f x) (f y)
  left x y := h.left (f x) (f y)
  right x y := h.right (f x) (f y)

theorem Compares.antisymm (x y : β) : cmp x y = -cmp y x := by
  cases hx : value x with
  | none => rw [h.left x y hx, h.right y x hx]; rfl
  | some a =>
      cases hy : value y with
      | none => rw [h.right x y hy, h.left y x hy]; rfl
      | some b =>
          rcases lt_trichotomy a b with hlt | rfl | hgt
          · rw [h.lt x y a b hx hy hlt, h.gt y x b a hy hx hlt]
          · rw [h.eq x y a hx hy, h.eq y x a hy hx]; rfl
          · rw [h.gt x y a b hx hy hgt, h.lt y x b a hy hx hgt]; rfl

theorem Compares.le_zero_iff {x y : β} {a b : γ} (hx : value x = some a) (hy : value y = some b) :
    cmp x y ≤ 0 ↔ a ≤ b := by
  rcases lt_trichotomy a b with hlt | rfl | hgt
  · rw [h.lt x y a b hx hy hlt]
    exact iff_of_true (by decide) hlt.le
  · rw [h.eq x y a hx hy]
    exact iff_of_true (by decide) le_rfl
  · rw [h.gt x y a b hx hy hgt]
    exact iff_of_false (by decide) hgt.not_ge

theorem Compares.eq_zero_iff {x y : β} {a b : γ} (hx : value x = some a) (hy : value y = some b) :
    cmp x y = 0 ↔ a = b := by
  rcases lt_trichotomy a b with hlt | rfl | hgt
  · rw [h.lt x y a b hx hy hlt]
    exact iff_of_false (by decide) hlt.ne
  · rw [h.eq x y a hx hy]
    exact iff_of_true rfl rfl
  · rw [h.gt x y a b hx hy hgt]
    exact iff_of_false (by decide) hgt.ne'

/-- On a set without two different values all elements compare as equal. -/
theorem Compares.eq_zero_of_comparable {x y : β}
    (hall : ∀ a b, value x = some a → value y = some b → a = b) : cmp x y = 0 := by
  cases hx : value x with
  | none => exact h.left x y hx
  | some a =>
      cases hy : value y with
      | none => exact h.right x y hy
      | some b => exact (h.eq_zero_iff hx hy).mpr (hall a b hx hy)

/-- An element without a value is between any two others. -/
theorem Compares.comparable_of_trans {S : Set β}
    (trans : ∀ x ∈ S, ∀ y ∈ S, ∀ z ∈ S, cmp x y = 0 → cmp y z = 0 → cmp x z ≤ 0) :
    Comparable value S := by
  by_contra hnot
  simp only [Comparable, not_or, not_forall, not_not] at hnot
  obtain ⟨⟨n, hn, hnone⟩, x, hx, y, hy, a, b, ha, hb, hne⟩ := hnot
  have hle := trans x hx n hn y hy (h.right x n hnone) (h.left n y hnone)
  have hle' := trans y hy n hn x hx (h.right y n hnone) (h.left n x hnone)
  rw [h.le_zero_iff ha hb] at hle
  rw [h.le_zero_iff hb ha] at hle'
  exact hne (le_antisymm hle hle')

/-- When being at most zero is transitive. -/
theorem Compares.le_trans_iff (S : Set β) :
    (∀ x ∈ S, ∀ y ∈ S, ∀ z ∈ S, cmp x y ≤ 0 → cmp y z ≤ 0 → cmp x z ≤ 0) ↔
      Comparable value S := by
  constructor
  · intro trans
    exact h.comparable_of_trans fun x hx y hy z hz hxy hyz =>
      trans x hx y hy z hz hxy.le hyz.le
  · rintro (hvalues | hall) x hx y hy z hz hxy hyz
    · obtain ⟨a, ha⟩ := Option.ne_none_iff_exists'.mp (hvalues x hx)
      obtain ⟨b, hb⟩ := Option.ne_none_iff_exists'.mp (hvalues y hy)
      obtain ⟨c, hc⟩ := Option.ne_none_iff_exists'.mp (hvalues z hz)
      rw [h.le_zero_iff ha hb] at hxy
      rw [h.le_zero_iff hb hc] at hyz
      exact (h.le_zero_iff ha hc).mpr (hxy.trans hyz)
    · exact (h.eq_zero_of_comparable (hall x hx z hz)).le

/-- When being zero is transitive. -/
theorem Compares.eq_trans_iff (S : Set β) :
    (∀ x ∈ S, ∀ y ∈ S, ∀ z ∈ S, cmp x y = 0 → cmp y z = 0 → cmp x z = 0) ↔
      Comparable value S := by
  constructor
  · intro trans
    exact h.comparable_of_trans fun x hx y hy z hz hxy hyz => (trans x hx y hy z hz hxy hyz).le
  · rintro (hvalues | hall) x hx y hy z hz hxy hyz
    · obtain ⟨a, ha⟩ := Option.ne_none_iff_exists'.mp (hvalues x hx)
      obtain ⟨b, hb⟩ := Option.ne_none_iff_exists'.mp (hvalues y hy)
      obtain ⟨c, hc⟩ := Option.ne_none_iff_exists'.mp (hvalues z hz)
      rw [h.eq_zero_iff ha hb] at hxy
      rw [h.eq_zero_iff hb hc] at hyz
      exact (h.eq_zero_iff ha hc).mpr (hxy.trans hyz)
    · exact h.eq_zero_of_comparable (hall x hx z hz)

end Comparison

end Partial

/-! ## The format binary32 -/

namespace Binary32

/-- The exponent field. -/
def exponent (x : BitVec 32) : Nat := x.toNat / 2 ^ 23 % 2 ^ 8

/-- The fraction field. -/
def fraction (x : BitVec 32) : Nat := x.toNat % 2 ^ 23

/-- Neither a finite number nor an infinity. -/
def isNaN (x : BitVec 32) : Bool := exponent x == 255 && fraction x != 0

/-- The magnitude of a finite number, in units of `2 ^ (-149)`. -/
def magnitude (x : BitVec 32) : Nat :=
  if exponent x = 0 then fraction x else (2 ^ 23 + fraction x) * 2 ^ (exponent x - 1)

/-- The magnitude of an infinity. -/
def infinity : Nat := 2 ^ 24 * 2 ^ 253

/-- The value of a number, in these units. -/
def value (x : BitVec 32) : Option Int :=
  if isNaN x then none
  else
    let size : Nat := if exponent x = 255 then infinity else magnitude x
    some (if x.msb then -(size : Int) else size)

/-- `x < y`, which is false if one is a NaN. -/
def lt (x y : BitVec 32) : Bool :=
  match value x, value y with
  | some a, some b => decide (a < b)
  | _, _ => false

theorem value_eq_none_iff {x : BitVec 32} : value x = none ↔ isNaN x = true := by
  unfold value
  split
  next hnan => simp [hnan]
  next hnan => simp [hnan]

theorem magnitude_lt {x : BitVec 32} (h : exponent x ≠ 255) : magnitude x < infinity := by
  have hfraction : fraction x < 2 ^ 23 := Nat.mod_lt _ (by decide)
  have hexponent : exponent x < 2 ^ 8 := Nat.mod_lt _ (by decide)
  unfold magnitude
  split
  · exact hfraction.trans (by decide)
  · calc (2 ^ 23 + fraction x) * 2 ^ (exponent x - 1)
        < 2 ^ 24 * 2 ^ (exponent x - 1) :=
          Nat.mul_lt_mul_of_pos_right (by omega) (Nat.two_pow_pos _)
      _ ≤ infinity :=
          Nat.mul_le_mul_left _ (Nat.pow_le_pow_right (by decide) (by omega))

theorem isNaN_eq_false_iff {x : BitVec 32} : isNaN x = false ↔ ∃ a, value x = some a := by
  rw [← Option.ne_none_iff_exists', Ne, value_eq_none_iff, Bool.not_eq_true]

/-- A set is comparable if it has no NaN, or its numbers are all equal. -/
theorem comparable_iff {α : Type*} {val : α → BitVec 32} {S : Set α} :
    Partial.Comparable (fun k => value (val k)) S ↔
      (∀ k ∈ S, isNaN (val k) = false) ∨
        ∀ k ∈ S, ∀ k' ∈ S, isNaN (val k) = false → isNaN (val k') = false →
          value (val k) = value (val k') := by
  refine or_congr ?_ ?_
  · refine forall₂_congr fun k _ => ?_
    rw [isNaN_eq_false_iff, Option.ne_none_iff_exists']
  · refine forall₂_congr fun k _ => forall₂_congr fun k' _ => ?_
    rw [isNaN_eq_false_iff, isNaN_eq_false_iff]
    constructor
    · rintro hall ⟨a, ha⟩ ⟨b, hb⟩
      rw [ha, hb, hall a b ha hb]
    · intro hall a b ha hb
      exact Option.some.inj (ha.symm.trans ((hall ⟨a, ha⟩ ⟨b, hb⟩).trans hb))

/-- The comparison that tests `y < x` and then `x < y`. -/
theorem compares_lt :
    Partial.Compares value fun x y => if lt y x then 1 else if lt x y then -1 else 0 where
  gt x y a b hx hy hlt := by simp [lt, hx, hy, hlt]
  lt x y a b hx hy hlt := by simp [lt, hx, hy, hlt, hlt.not_gt]
  eq x y a hx hy := by simp [lt, hx, hy]
  left x y hx := by
    cases hy : value y <;> simp [lt, hx, hy]
  right x y hy := by
    cases hx : value x <;> simp [lt, hx, hy]

end Binary32
