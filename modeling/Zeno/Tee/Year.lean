import Zeno.Lib.Gregorian
import Zeno.Tee.Calc

/-!
# The year of a timestamp

`timestamp_extract_year` divides with truncation and corrects the sign, then
walks down cycles of 146097 days and of 1461 days in `int64`, `unsigned int` and
`int`.  `yearSteps` lists every value that its expressions take before they are
reduced to their C types.  All of them fit (`yearSteps_fit`), so the code computes
in the integers (`civilYear`), and there the year is found by the calendar's own
cycles (`civilYear_bounds`).
-/

namespace Zeno

open Gregorian

/-! ## The intermediates and their types -/

/-- The C types of the intermediates. -/
inductive CInt where
  | int64
  | int
  | unsigned
  deriving DecidableEq

/-- The value is one of the type. -/
def CInt.Fits : CInt → Int → Prop
  | .int64, n => -2 ^ 63 ≤ n ∧ n < 2 ^ 63
  | .int, n => -2 ^ 31 ≤ n ∧ n < 2 ^ 31
  | .unsigned, n => 0 ≤ n ∧ n < 2 ^ 32

/-- The lines up to the test of the range: `TMODULO`, the correction of a negative
remainder, and the shift to Julian days. -/
def daySteps (timestamp : Int) : List (CInt × Int) :=
  let date := timestamp.tdiv usecsPerDay
  let rest := timestamp - date * usecsPerDay
  [(.int64, date), (.int64, date * usecsPerDay), (.int64, rest)]
    ++ (if rest < 0 then [(.int64, rest + usecsPerDay), (.int64, date - 1)] else [])
    ++ [(.int64, timestampDay timestamp + postgresEpochJdate)]

/-- The lines behind the test of the range, one for each operator and each assignment. -/
def cycleSteps (date : Int) : List (CInt × Int) :=
  let date := date + 32044
  let quad := date.tdiv 146097
  let rest := date - quad * 146097
  let extra := rest * 4 + 3
  let shift := 60 + quad * 3 + extra / 146097
  let date' := date + shift
  let quad' := date'.tdiv 1461
  let rest' := date' - quad' * 1461
  let year := (rest' * 4).tdiv 1461
  [(.int64, date), (.int64, quad), (.unsigned, quad), (.unsigned, quad * 146097),
    (.int64, rest), (.int64, rest * 4), (.int64, extra), (.unsigned, extra),
    (.unsigned, quad * 3), (.unsigned, 60 + quad * 3), (.unsigned, extra / 146097),
    (.unsigned, shift), (.int64, date'), (.int64, quad'), (.unsigned, quad'),
    (.unsigned, quad' * 1461), (.int64, rest'), (.int64, rest' * 4), (.int64, year),
    (.int, year), (.unsigned, year), (.unsigned, quad' * 4), (.unsigned, year + quad' * 4),
    (.int, year + quad' * 4), (.int, year + quad' * 4 - 4800)]

/-- Every intermediate of `timestamp_extract_year`, unreduced, with its C type. -/
def yearSteps (timestamp : Int) : List (CInt × Int) :=
  let date := timestampDay timestamp + postgresEpochJdate
  daySteps timestamp ++ (if date < 0 ∨ date > 2 ^ 31 - 1 then [] else cycleSteps date)

/-! ## The day -/

theorem tdiv_usecsPerDay (timestamp : Int) :
    timestamp.tdiv usecsPerDay
      = if 0 ≤ timestamp then timestamp / 86400000000 else -(-timestamp / 86400000000) := by
  split
  next hpos => exact Int.tdiv_eq_ediv_of_nonneg hpos
  next hneg =>
    have hpos : 0 ≤ -timestamp := by omega
    rw [← Int.tdiv_eq_ediv_of_nonneg hpos, Int.neg_tdiv, Int.neg_neg, usecsPerDay]

/-- Truncation and correction together are the floor. -/
theorem timestampDay_eq_ediv (timestamp : Int) :
    timestampDay timestamp = timestamp / usecsPerDay := by
  have htdiv := tdiv_usecsPerDay timestamp
  unfold timestampDay usecsPerDay at *
  dsimp only
  split at htdiv <;> split <;> omega

theorem daySteps_fit {timestamp : Int} (h : CInt.Fits .int64 timestamp) :
    ∀ step ∈ daySteps timestamp, step.1.Fits step.2 := by
  have htdiv := tdiv_usecsPerDay timestamp
  have hday := timestampDay_eq_ediv timestamp
  intro step hstep
  simp only [daySteps, List.mem_append, List.mem_cons, List.not_mem_nil, or_false,
    List.mem_ite_nil_right] at hstep
  unfold usecsPerDay postgresEpochJdate CInt.Fits at *
  rcases hstep with ((rfl | rfl | rfl) | ⟨hneg, rfl | rfl⟩) | rfl
  all_goals split at htdiv <;> simp only <;> omega

/-! ## The cycles -/

/-- The walk down the cycles, in the integers.  Its days are counted from 1 March of the
year `-4800`, and its years from that year. -/
def civilYear (date : Int) : Int :=
  let quad := date.tdiv 146097
  let date := date + (60 + quad * 3 + ((date - quad * 146097) * 4 + 3) / 146097)
  let quad := date.tdiv 1461
  ((date - quad * 1461) * 4).tdiv 1461 + quad * 4

/-- The quarter of a cycle that a day lies in: its number, and the day counted from the
quarter's first.  The last quarter has one day more. -/
theorem cycle_quarter {r : Int} (hr : 0 ≤ r) (hr' : r < 146097) :
    ∃ e rho, (r * 4 + 3) / 146097 = e ∧ r = 36524 * e + rho ∧
      0 ≤ e ∧ e ≤ 3 ∧ 0 ≤ rho ∧ rho ≤ 36524 ∧ (e < 3 → rho < 36524) :=
  ⟨(r * 4 + 3) / 146097, r - 36524 * ((r * 4 + 3) / 146097), by omega⟩

/-- The day of a quarter, counted with all four years in the quarter's rhythm: its year in
the quarter.  Sixty days after the last of December the year is that of the century that
follows. -/
theorem quarter_year {n : Int} (hn : 0 ≤ n) (hn' : n ≤ 36584) :
    ∃ z, (n - n / 1461 * 1461) * 4 / 1461 + n / 1461 * 4 = z ∧ 0 ≤ z ∧ z ≤ 100 ∧
      365 * z + (z + 3) / 4 ≤ n ∧ n < 365 * (z + 1) + (z + 4) / 4 :=
  ⟨_, rfl, by omega, by omega, by omega, by omega⟩

/-- The walk finds the year of the day, two months on. -/
theorem civilYear_bounds {d : Int} (hd : 0 ≤ d) :
    daysBefore (civilYear d) ≤ d + 60 ∧ d + 60 < daysBefore (civilYear d + 1) := by
  obtain ⟨q, hq⟩ : ∃ q, d / 146097 = q := ⟨_, rfl⟩
  obtain ⟨e, rho, he, hrho, he0, he3, hrho0, hrhole, hrholt⟩ :=
    cycle_quarter (r := d - q * 146097) (by omega) (by omega)
  obtain ⟨z, hz, hz0, hz100, hlo, hhi⟩ :=
    quarter_year (n := rho + 60) (by omega) (by omega)
  have hyear : civilYear d = 400 * q + (100 * e + z) := by
    have hshift : d + (60 + q * 3 + e) = 1461 * (100 * q + 25 * e) + (rho + 60) := by omega
    have hpos : 0 ≤ 1461 * (100 * q + 25 * e) + (rho + 60) := by omega
    simp only [civilYear, Int.tdiv_eq_ediv_of_nonneg hd, hq, he, hshift,
      Int.tdiv_eq_ediv_of_nonneg hpos]
    rw [Int.tdiv_eq_ediv_of_nonneg (by omega)]
    omega
  have hday : d + 60 = 146097 * q + (36524 * e + (rho + 60)) := by omega
  have hcentury := daysBefore_century he0 he3 hz0 hz100
  constructor
  · rw [hyear, hday, daysBefore_cycle, hcentury]
    split <;> omega
  · rcases Int.lt_or_eq_of_le hz100 with hlt | rfl
    · have hnext := daysBefore_century he0 he3 (z := z + 1) (by omega) (by omega)
      rw [hyear, hday, Int.add_assoc, Int.add_assoc, daysBefore_cycle, hnext]
      split <;> omega
    · -- The day lies in January or February after the century.
      have hlength := daysInYear_ge (400 * q + (100 * e + 100))
      rw [hyear, hday, daysBefore_succ, daysBefore_cycle, hcentury]
      split <;> omega

/-- The bounds of the year, with those of the intermediates. -/
theorem cycleSteps_fit {date : Int} (h0 : 0 ≤ date) (hmax : date ≤ 2 ^ 31 - 1) :
    ∀ step ∈ cycleSteps date, step.1.Fits step.2 := by
  obtain ⟨d, hd⟩ : ∃ d, date + 32044 = d := ⟨_, rfl⟩
  have hdpos : 0 ≤ d := by omega
  obtain ⟨q, hq⟩ : ∃ q, d / 146097 = q := ⟨_, rfl⟩
  obtain ⟨e, he⟩ : ∃ e, ((d - q * 146097) * 4 + 3) / 146097 = e := ⟨_, rfl⟩
  obtain ⟨n, hn⟩ : ∃ n, d + (60 + q * 3 + e) = n := ⟨_, rfl⟩
  have hnpos : 0 ≤ n := by omega
  obtain ⟨k, hk⟩ : ∃ k, n / 1461 = k := ⟨_, rfl⟩
  have hrest : 0 ≤ (n - k * 1461) * 4 := by omega
  obtain ⟨y, hy⟩ : ∃ y, (n - k * 1461) * 4 / 1461 = y := ⟨_, rfl⟩
  intro step hstep
  simp only [cycleSteps, hd, Int.tdiv_eq_ediv_of_nonneg hdpos, hq, he, hn,
    Int.tdiv_eq_ediv_of_nonneg hnpos, hk, Int.tdiv_eq_ediv_of_nonneg hrest, hy,
    List.mem_cons, List.not_mem_nil, or_false] at hstep
  -- the ranges of the quotients and of the rests, after which no case divides any more
  have hdle : d ≤ 2147515691 := by omega
  have hqle : 0 ≤ q ∧ q ≤ 14699 := by omega
  have hcycle : 0 ≤ d - q * 146097 ∧ d - q * 146097 < 146097 := by omega
  have hele : 0 ≤ e ∧ e ≤ 3 := by omega
  have hnle : n ≤ 2147559852 := by omega
  have hkle : 0 ≤ k ∧ k ≤ 1469924 := by omega
  have hquarter : n - k * 1461 < 1461 := by omega
  have hyle : 0 ≤ y ∧ y ≤ 3 := by omega
  clear hmax h0 hd hq he hn hk hy
  unfold CInt.Fits
  rcases hstep with rfl | rfl | rfl | rfl | rfl | rfl | rfl | rfl | rfl | rfl | rfl | rfl | rfl |
    rfl | rfl | rfl | rfl | rfl | rfl | rfl | rfl | rfl | rfl | rfl | rfl
  all_goals simp only; omega

theorem yearSteps_fit {timestamp : Int} (h : CInt.Fits .int64 timestamp) :
    ∀ step ∈ yearSteps timestamp, step.1.Fits step.2 := by
  intro step hstep
  rcases List.mem_append.mp hstep with hday | hcycle
  · exact daySteps_fit h step hday
  · split at hcycle
    · cases hcycle
    · exact cycleSteps_fit (by omega) (by omega) step hcycle

/-! ## The code computes in the integers -/

theorem uint_of_fits {n : Int} (h : CInt.Fits .unsigned n) : uint n = n :=
  Int.emod_eq_of_lt h.1 h.2

theorem toInt_ofInt_of_fits {n : Int} (h : CInt.Fits .int n) : (BitVec.ofInt 32 n).toInt = n := by
  rw [BitVec.toInt_ofInt]
  exact Int.bmod_eq_of_le (by have := h.1; omega) (by have := h.2; omega)

theorem timestampExtractYear_of_range {timestamp : Num.timestamp.Val}
    (h0 : 0 ≤ timestampDay timestamp.toInt + postgresEpochJdate)
    (hmax : timestampDay timestamp.toInt + postgresEpochJdate ≤ 2 ^ 31 - 1) :
    (timestampExtractYear timestamp).toInt
      = civilYear (timestampDay timestamp.toInt + postgresEpochJdate + 32044) - 4800 := by
  obtain ⟨date, hdate⟩ : ∃ date, timestampDay timestamp.toInt + postgresEpochJdate = date :=
    ⟨_, rfl⟩
  rw [hdate] at h0 hmax ⊢
  have hfit := cycleSteps_fit h0 hmax
  simp only [cycleSteps, List.forall_mem_cons] at hfit
  obtain ⟨-, -, hquad, hmult, -, -, -, hextra, htriple, -, -, hshift, -, -, hquad', hmult', -, -, -,
    -, -, hfour, -, -, hyear, -⟩ := hfit
  have hrange : ¬(date < 0 ∨ date > 2 ^ 31 - 1) := by omega
  unfold timestampExtractYear
  simp only [hdate, uint_of_fits hquad, uint_of_fits hmult, uint_of_fits hextra,
    uint_of_fits htriple, uint_of_fits hshift, uint_of_fits hquad', uint_of_fits hmult',
    uint_of_fits hfour]
  exact (congrArg BitVec.toInt (if_neg hrange)).trans (toInt_ofInt_of_fits hyear)

/-- The day of the first of January in the walk's count. -/
theorem julianDay_eq (y : Int) : julianDay (y - 4800) = daysBefore y - 32104 := by
  have hcycle := daysBefore_cycle (-12) y
  have hy : y - 4800 = 400 * (-12) + y := by omega
  unfold julianDay
  rw [hy, hcycle]
  omega

theorem timestampExtractYear_inYear {timestamp : Num.timestamp.Val}
    (h0 : 0 ≤ timestampDay timestamp.toInt + postgresEpochJdate)
    (hmax : timestampDay timestamp.toInt + postgresEpochJdate ≤ 2 ^ 31 - 1) :
    InYear (timestampDay timestamp.toInt + postgresEpochJdate)
      (timestampExtractYear timestamp).toInt := by
  rw [timestampExtractYear_of_range h0 hmax]
  obtain ⟨date, hdate⟩ : ∃ date, timestampDay timestamp.toInt + postgresEpochJdate = date :=
    ⟨_, rfl⟩
  rw [hdate] at h0 hmax ⊢
  obtain ⟨hlo, hhi⟩ := civilYear_bounds (d := date + 32044) (by omega)
  constructor
  · rw [julianDay_eq]
    omega
  · have hnext : civilYear (date + 32044) - 4800 + 1 = civilYear (date + 32044) + 1 - 4800 := by
      omega
    rw [hnext, julianDay_eq]
    omega

/-- Every intermediate of `timestamp_extract_year` is a value of its type.  On a timestamp
whose Julian day is an `int` that is not negative the function returns the one year that
the day lies in, and on every other timestamp `-1`. -/
theorem year_is_gregorian (timestamp : Num.timestamp.Val) :
    (∀ step ∈ yearSteps timestamp.toInt, step.1.Fits step.2) ∧
    (if 0 ≤ timestamp.toInt / 86400000000 + 2451545 ∧
        timestamp.toInt / 86400000000 + 2451545 ≤ 2 ^ 31 - 1 then
      ∀ y, (julianDay y ≤ timestamp.toInt / 86400000000 + 2451545 ∧
        timestamp.toInt / 86400000000 + 2451545 < julianDay (y + 1)) ↔
          y = (timestampExtractYear timestamp).toInt
    else (timestampExtractYear timestamp).toInt = -1) := by
  have hday : timestamp.toInt / 86400000000 + 2451545
      = timestampDay timestamp.toInt + postgresEpochJdate := by
    rw [timestampDay_eq_ediv]
    rfl
  constructor
  · apply yearSteps_fit
    constructor
    · exact BitVec.le_toInt timestamp
    · exact BitVec.toInt_lt
  · rw [hday]
    split
    next hrange =>
      have hin := timestampExtractYear_inYear hrange.1 hrange.2
      intro y
      constructor
      · intro hy
        exact InYear.unique hy hin
      · rintro rfl
        exact hin
    next hrange =>
      exact congrArg BitVec.toInt (if_pos (by omega))

-- The last microsecond of 1999 and the first of 2000.
example : timestampExtractYear (-1) = 1999 ∧ timestampExtractYear 0 = 2000 := by decide

end Zeno
