import Mathlib.Algebra.Order.Group.Int
import Mathlib.Order.Monotone.Basic

/-!
# The proleptic Gregorian calendar

Years are numbered as astronomers do, with a year 0.  A year is described by
the day on which it begins.  That day is given by a closed formula, and
`daysBefore_zero` and `daysBefore_succ` say that the formula counts the days of
the years before it, by the leap rule.
-/

namespace Gregorian

/-- The leap rule. -/
def IsLeap (y : Int) : Prop := y % 4 = 0 ∧ (y % 100 ≠ 0 ∨ y % 400 = 0)

instance (y : Int) : Decidable (IsLeap y) :=
  inferInstanceAs (Decidable (_ ∧ _))

/-- The length of a year. -/
def daysInYear (y : Int) : Int := if IsLeap y then 366 else 365

/-- The days from 1 January of the year 0 to 1 January of `y`. -/
def daysBefore (y : Int) : Int := 365 * y + (y + 3) / 4 - (y + 99) / 100 + (y + 399) / 400

theorem daysBefore_zero : daysBefore 0 = 0 := rfl

theorem daysBefore_succ (y : Int) : daysBefore (y + 1) = daysBefore y + daysInYear y := by
  unfold daysInYear
  split
  all_goals
    unfold daysBefore
    unfold IsLeap at *
    omega

theorem daysInYear_ge (y : Int) : 365 ≤ daysInYear y := by
  unfold daysInYear
  split <;> omega

theorem daysBefore_lt_iff {y y' : Int} : daysBefore y < daysBefore y' ↔ y < y' := by
  have mono : StrictMono daysBefore := by
    apply strictMono_int_of_lt_succ
    intro y
    have hlength := daysInYear_ge y
    rw [daysBefore_succ]
    omega
  exact mono.lt_iff_lt

/-- The calendar repeats after 400 years. -/
theorem daysBefore_cycle (q y : Int) :
    daysBefore (400 * q + y) = 146097 * q + daysBefore y := by
  unfold daysBefore
  omega

/-- The years of one century of a cycle, and the first of January that ends it.  The first
year of a century is a leap year in the first century only. -/
theorem daysBefore_century {e z : Int} (he : 0 ≤ e) (he' : e ≤ 3) (hz : 0 ≤ z) (hz' : z ≤ 100) :
    daysBefore (100 * e + z)
      = 36524 * e + 365 * z + (z + 3) / 4 + (if z = 0 ∧ 0 < e then 1 else 0) := by
  unfold daysBefore
  split <;> omega

/-- The Julian day of 1 January. -/
def julianDay (y : Int) : Int := daysBefore y + 1721060

/-- The day lies in the year. -/
def InYear (day y : Int) : Prop := julianDay y ≤ day ∧ day < julianDay (y + 1)

theorem InYear.le {day y y' : Int} (h : InYear day y) (h' : InYear day y') : y ≤ y' := by
  have hlt : daysBefore y < daysBefore (y' + 1) := by
    have := h.1
    have := h'.2
    unfold julianDay at *
    omega
  have := daysBefore_lt_iff.mp hlt
  omega

theorem InYear.unique {day y y' : Int} (h : InYear day y) (h' : InYear day y') : y = y' :=
  Int.le_antisymm (h.le h') (h'.le h)

-- The epoch of the Julian day: noon on 1 January 2000 begins the day 2451545.
example : julianDay 2000 = 2451545 := by decide

end Gregorian
