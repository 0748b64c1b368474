import Mathlib.Algebra.Order.Ring.Nat
import Mathlib.Order.Monotone.Basic

/-!
# The Gregorian calendar

The calendar carried back to a year 0. A date's number is how many days stand before it, counted year by year and
month by month, so that nothing depends on a way to compute it; a closed form for the years follows.
-/

namespace Lib.Calendar

/-- The year has a 29th of February. -/
def Leap (y : Nat) : Prop := y % 4 = 0 ∧ y % 100 ≠ 0 ∨ y % 400 = 0

instance (y : Nat) : Decidable (Leap y) := inferInstanceAs (Decidable (_ ∨ _))

/-- The days of a year. -/
def yearDays (y : Nat) : Nat := if Leap y then 366 else 365

/-- The days of a month; there are twelve, counted from 1. -/
def monthDays (y : Nat) : Nat → Nat
  | 1 => 31
  | 2 => if Leap y then 29 else 28
  | 3 => 31
  | 4 => 30
  | 5 => 31
  | 6 => 30
  | 7 => 31
  | 8 => 31
  | 9 => 30
  | 10 => 31
  | 11 => 30
  | 12 => 31
  | _ => 0

/-- A date of the calendar. -/
structure Date where
  year : Nat
  month : Nat
  day : Nat
  month_pos : 1 ≤ month
  month_le : month ≤ 12
  day_pos : 1 ≤ day
  day_le : day ≤ monthDays year month

/-- The days of the years before one. -/
def daysBeforeYear : Nat → Nat
  | 0 => 0
  | y + 1 => daysBeforeYear y + yearDays y

/-- The days of the months before one. -/
def daysBeforeMonth (y : Nat) : Nat → Nat
  | 0 => 0
  | m + 1 => daysBeforeMonth y m + monthDays y m

/-- The number of a date: the days before it. -/
def Date.number (d : Date) : Nat := daysBeforeYear d.year + daysBeforeMonth d.year d.month + (d.day - 1)

/-! ## Years -/

theorem yearDays_pos (y : Nat) : 0 < yearDays y := by
  rw [yearDays]
  split <;> omega

/-- The years before one in closed form. -/
theorem daysBeforeYear_eq (y : Nat) :
    daysBeforeYear y + (y + 99) / 100 = 365 * y + (y + 3) / 4 + (y + 399) / 400 := by
  induction y with
  | zero => rfl
  | succ y ih =>
    rw [daysBeforeYear, yearDays]
    by_cases h : Leap y
    · rw [if_pos h]
      rw [Leap] at h
      omega
    · rw [if_neg h]
      rw [Leap] at h
      omega

theorem monthDays_le (y m : Nat) : monthDays y m ≤ 31 := by
  unfold monthDays
  split
  case h_2 => split <;> decide
  all_goals decide

theorem daysBeforeYear_mono : Monotone daysBeforeYear :=
  monotone_nat_of_le_succ fun _ => Nat.le_add_right _ _

/-- The months of a year are the year. -/
theorem daysBeforeMonth_all (y : Nat) : daysBeforeMonth y 13 = yearDays y := by
  rw [yearDays]
  simp only [daysBeforeMonth, monthDays]
  split <;> rfl

theorem daysBeforeMonth_mono (y : Nat) : Monotone (daysBeforeMonth y) :=
  monotone_nat_of_le_succ fun _ => Nat.le_add_right _ _

/-! ## Dates in order -/

/-- A date stands within its month, and so within its year. -/
theorem Date.month_bounds (d : Date) : daysBeforeYear d.year + daysBeforeMonth d.year d.month ≤ d.number ∧
    d.number < daysBeforeYear d.year + daysBeforeMonth d.year (d.month + 1) := by
  have h1 := d.day_pos
  have h2 := d.day_le
  rw [Date.number, daysBeforeMonth]
  omega

theorem Date.year_bounds (d : Date) : daysBeforeYear d.year ≤ d.number ∧ d.number < daysBeforeYear (d.year + 1) := by
  obtain ⟨hlo, hhi⟩ := d.month_bounds
  have hall : daysBeforeMonth d.year (d.month + 1) ≤ yearDays d.year := by
    rw [← daysBeforeMonth_all]
    exact daysBeforeMonth_mono _ (Nat.succ_le_succ d.month_le)
  rw [daysBeforeYear]
  omega

/-- A date of an earlier year has a lower number. -/
theorem Date.number_lt_of_year {d e : Date} (h : d.year < e.year) : d.number < e.number :=
  calc d.number < daysBeforeYear (d.year + 1) := d.year_bounds.2
    _ ≤ daysBeforeYear e.year := daysBeforeYear_mono h
    _ ≤ e.number := e.year_bounds.1

/-- A date of an earlier month of a year has a lower number. -/
theorem Date.number_lt_of_month {d e : Date} (hy : d.year = e.year) (h : d.month < e.month) : d.number < e.number :=
  calc d.number < daysBeforeYear d.year + daysBeforeMonth d.year (d.month + 1) := d.month_bounds.2
    _ ≤ daysBeforeYear e.year + daysBeforeMonth e.year e.month := by
      rw [hy]
      exact Nat.add_le_add_left (daysBeforeMonth_mono _ h) _
    _ ≤ e.number := e.month_bounds.1

/-- **The number tells the date.** -/
theorem Date.number_injective {d e : Date} (h : d.number = e.number) : d = e := by
  have hyear : d.year = e.year := by
    rcases Nat.lt_trichotomy d.year e.year with hlt | heq | hgt
    · exact absurd h (Nat.ne_of_lt (number_lt_of_year hlt))
    · exact heq
    · exact absurd h.symm (Nat.ne_of_lt (number_lt_of_year hgt))
  have hmonth : d.month = e.month := by
    rcases Nat.lt_trichotomy d.month e.month with hlt | heq | hgt
    · exact absurd h (Nat.ne_of_lt (number_lt_of_month hyear hlt))
    · exact heq
    · exact absurd h.symm (Nat.ne_of_lt (number_lt_of_month hyear.symm hgt))
  have hday : d.day = e.day := by
    have h1 := d.day_pos
    have h2 := e.day_pos
    rw [Date.number, Date.number, hyear, hmonth] at h
    omega
  obtain ⟨y, m, n, _, _, _, _⟩ := d
  obtain ⟨y', m', n', _, _, _, _⟩ := e
  obtain rfl : y = y' := hyear
  obtain rfl : m = m' := hmonth
  obtain rfl : n = n' := hday
  rfl

/-! ## Years that begin in March -/

/-- The days from the first of March to the first of a month, the months counted from March. -/
def marchDays (k : Nat) : Nat := (153 * k + 2) / 5

/-- The year that a date belongs to where years begin in March, and the months since. -/
def Date.fromMarch (d : Date) : Nat × Nat := if d.month ≤ 2 then (d.year, d.month + 9) else (d.year + 1, d.month - 3)

/-- Where years begin in March the months have the same days before them in every year. -/
theorem Date.number_fromMarch (d : Date) :
    d.number + 306 = daysBeforeYear d.fromMarch.1 + marchDays d.fromMarch.2 + (d.day - 1) := by
  have hm := d.month_pos
  have hle := d.month_le
  rw [Date.number, fromMarch, marchDays]
  generalize d.month = m at hm hle
  by_cases h2 : m ≤ 2
  · rw [if_pos h2]
    obtain rfl | rfl : m = 1 ∨ m = 2 := by omega
    all_goals
      simp only [daysBeforeMonth, monthDays]
      omega
  · rw [if_neg h2]
    have hcases : m = 3 ∨ m = 4 ∨ m = 5 ∨ m = 6 ∨ m = 7 ∨ m = 8 ∨ m = 9 ∨ m = 10 ∨ m = 11 ∨ m = 12 := by omega
    by_cases h : Leap d.year <;> rcases hcases with rfl | rfl | rfl | rfl | rfl | rfl | rfl | rfl | rfl | rfl
    all_goals
      simp only [daysBeforeMonth, monthDays, daysBeforeYear, yearDays, h, if_true, if_false]
      omega

end Lib.Calendar
