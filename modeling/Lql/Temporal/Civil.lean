import Mathlib.Tactic.IntervalCases
import Lql.Lib.Calendar
import Lql.Temporal.Fast

/-!
# Days and dates

The two conversions between dates and days since 1970 are the calendar's: a date's number is counted from the
first of January 1970, and a number is turned back into its date.
-/

namespace Lql.Temporal

open Lib.Calendar (Leap Date monthDays marchDays daysBeforeYear daysBeforeYear_eq)

/-! ## The conversion of the source -/

/-- The value of an `unsigned` expression. -/
def unsigned (x : Int) : Int := x % 2 ^ 32

/-- `civil_from_days` -/
def civilFromDays (z : Int) : Option (Nat × Nat × Nat) :=
  let z := z + 719468
  let era := (if z ≥ 0 then z else z - 146096).tdiv 146097
  let doe := unsigned (z - era * 146097)
  let yoe := unsigned (doe - doe / 1460 + doe / 36524 - doe / 146096) / 365
  let doy := unsigned (doe - (365 * yoe + yoe / 4 - yoe / 100))
  let mp := unsigned (5 * doy + 2) / 153
  let d := unsigned (doy - (153 * mp + 2) / 5 + 1)
  let m := unsigned (mp + if mp < 10 then 3 else -9)
  let y := yoe + era * 400 + if m ≤ 2 then 1 else 0
  if y < 0 || y > 9999 then none else some (y.toNat, m.toNat, d.toNat)

theorem unsigned_of_range {x : Int} (h : 0 ≤ x ∧ x < 2 ^ 32) : unsigned x = x := Int.emod_eq_of_lt h.1 h.2

/-- Rounding down, as both conversions do it with a division that rounds towards zero. -/
theorem floor_tdiv (z : Int) {n : Int} (hn : 0 < n) : (if z ≥ 0 then z else z - (n - 1)).tdiv n = z / n := by
  split
  · next h => exact Int.tdiv_eq_ediv_of_nonneg h
  · next h =>
    have hneg : z - (n - 1) = -(-z + (n - 1)) := by omega
    have hdiv := Int.mul_ediv_add_emod z n
    have hmod := Int.emod_nonneg z (Int.ne_of_gt hn)
    have hlt := Int.emod_lt_of_pos z hn
    rw [hneg, Int.neg_tdiv, Int.tdiv_eq_ediv_of_nonneg (by omega)]
    have hquot : (-z + (n - 1)) / n = -(z / n) := by
      rw [Int.ediv_eq_iff_of_pos hn, Int.neg_mul, Int.mul_comm]
      omega
    rw [hquot, Int.neg_neg]

/-! ## Dates to days -/

theorem isLeap_iff (y : Nat) : isLeap y = true ↔ Leap y := by
  simp only [isLeap, Leap, Bool.or_eq_true, Bool.and_eq_true, decide_eq_true_eq]

/-- What the parser takes for a date is one. -/
theorem validYmd_iff (y m d : Nat) : validYmd y m d = true ↔ ∃ date : Date, date.year = y ∧ date.month = m ∧ date.day = d := by
  have hdays : ∀ k, 1 ≤ k → k ≤ 12 → (if k = 2 && isLeap y then 29 else
      [31, 28, 31, 30, 31, 30, 31, 31, 30, 31, 30, 31].getD (k - 1) 0) = monthDays y k := by
    intro k h1 h2
    by_cases hl : Leap y
    · rw [(isLeap_iff y).mpr hl]
      interval_cases k <;> simp [monthDays, hl]
    · rw [Bool.eq_false_iff.mpr (mt (isLeap_iff y).mp hl)]
      interval_cases k <;> simp [monthDays, hl]
  rw [validYmd]
  constructor
  · intro h
    split at h
    · cases h
    · next hrange =>
      simp only [Bool.or_eq_true, decide_eq_true_eq, not_or, Nat.not_lt, gt_iff_lt] at hrange
      obtain ⟨⟨h1, h2⟩, h3⟩ := hrange
      exact ⟨⟨y, m, d, h1, h2, h3, hdays m h1 h2 ▸ of_decide_eq_true h⟩, rfl, rfl, rfl⟩
  · rintro ⟨date, rfl, rfl, rfl⟩
    have h1 := date.month_pos
    have h2 := date.month_le
    have h3 := date.day_pos
    rw [if_neg (by simp only [Bool.or_eq_true, decide_eq_true_eq, not_or]; omega)]
    exact decide_eq_true ((hdays _ h1 h2).symm ▸ date.day_le)

/-- The number of the first of January 1970. -/
def epochDay : Nat := 719528

/-- **`days_from_civil` counts the days from 1970 to a date.** -/
theorem daysFromCivil_number (date : Date) :
    daysFromCivil date.year date.month date.day = (date.number : Int) - epochDay := by
  have hnumber := date.number_fromMarch
  have hpos := date.day_pos
  have hmonth := date.month_pos
  have hyears := daysBeforeYear_eq date.fromMarch.1
  rw [daysFromCivil, epochDay]
  simp only [show (399 : Int) = 400 - 1 from rfl, floor_tdiv _ (show (0 : Int) < 400 by decide)]
  rw [Date.fromMarch] at hnumber hyears
  by_cases h : date.month ≤ 2
  · rw [if_pos h] at hnumber hyears
    rw [if_pos h, if_neg (by omega), Int.tdiv_eq_ediv_of_nonneg (by omega)]
    rw [marchDays] at hnumber
    dsimp only at hnumber hyears
    omega
  · rw [if_neg h] at hnumber hyears
    rw [if_neg h, if_pos (by omega), Int.tdiv_eq_ediv_of_nonneg (by omega)]
    rw [marchDays] at hnumber
    dsimp only at hnumber hyears
    omega

/-! ## Days to dates -/

/-- A day of four hundred years lies in a hundred, in four and in one of them; the last of each may be a day longer. -/
theorem day_split (doe : Int) (h : 0 ≤ doe ∧ doe < 146097) : ∃ c q t r : Int,
    doe = 36524 * c + 1461 * q + 365 * t + r ∧ (0 ≤ c ∧ c ≤ 3) ∧ (0 ≤ q ∧ q ≤ 24) ∧ (0 ≤ t ∧ t ≤ 3) ∧
      (0 ≤ r ∧ r ≤ 365) ∧ (r = 365 → t = 3 ∧ (q = 24 → c = 3)) := by
  obtain ⟨c, hc⟩ : ∃ c : Int, c = if doe = 146096 then 3 else doe / 36524 := ⟨_, rfl⟩
  obtain ⟨rest, hrest⟩ : ∃ rest : Int, rest = doe - 36524 * c := ⟨_, rfl⟩
  obtain ⟨t, ht⟩ : ∃ t : Int, t = if rest % 1461 = 1460 then 3 else rest % 1461 / 365 := ⟨_, rfl⟩
  have hbound : 0 ≤ c ∧ c ≤ 3 ∧ 0 ≤ rest ∧ rest ≤ 36524 ∧ (rest = 36524 → c = 3) := by
    split at hc <;> omega
  refine ⟨c, rest / 1461, t, rest % 1461 - 365 * t, ?_⟩
  split at ht <;> omega

/-- The month and the day of a day of the year, counted from March. -/
theorem month_split (r : Int) (h : 0 ≤ r ∧ r ≤ 365) : ∃ k d : Nat, (5 * r + 2) / 153 = (k : Int) ∧ k ≤ 11 ∧
    r - (153 * (k : Int) + 2) / 5 + 1 = (d : Int) ∧ 1 ≤ d ∧ r = marchDays k + d - 1 ∧
      ∀ y, (r = 365 → Leap y) → d ≤ monthDays y (if k < 10 then k + 3 else k - 9) := by
  obtain ⟨k, hk⟩ : ∃ k : Nat, (5 * r + 2) / 153 = (k : Int) := ⟨((5 * r + 2) / 153).toNat, by omega⟩
  obtain ⟨d, hd⟩ : ∃ d : Nat, r - (153 * (k : Int) + 2) / 5 + 1 = (d : Int) :=
    ⟨(r - (153 * (k : Int) + 2) / 5 + 1).toNat, by omega⟩
  have hk11 : k ≤ 11 := by omega
  refine ⟨k, d, hk, hk11, hd, by omega, by rw [marchDays]; omega, fun y hleap => ?_⟩
  interval_cases k <;> simp only [monthDays, Nat.reduceLT, Nat.reduceAdd, Nat.reduceSub, if_true, if_false]
  case «11» =>
    split
    · omega
    · next hno =>
      have : r ≠ 365 := fun h365 => hno (hleap h365)
      omega
  all_goals omega

/-- The year and the day of the year of such a day, as the source computes them. -/
theorem year_split {c q t r : Int} (hc : 0 ≤ c ∧ c ≤ 3) (hq : 0 ≤ q ∧ q ≤ 24) (ht : 0 ≤ t ∧ t ≤ 3)
    (hr : 0 ≤ r ∧ r ≤ 365) (hlast : r = 365 → t = 3 ∧ (q = 24 → c = 3)) {doe : Int}
    (hdoe : doe = 36524 * c + 1461 * q + 365 * t + r) :
    (doe - doe / 1460 + doe / 36524 - doe / 146096) / 365 = 100 * c + 4 * q + t ∧
      doe - (365 * (100 * c + 4 * q + t) + (100 * c + 4 * q + t) / 4 - (100 * c + 4 * q + t) / 100) = r := by
  -- the last day of four years may count for a fourth thousand four hundred and sixty
  obtain ⟨e, he⟩ : ∃ e : Int, e = if 24 * c + q + 365 * t + r ≥ 1460 then 1 else 0 := ⟨_, rfl⟩
  have h1460 : doe / 1460 = 25 * c + q + e := by
    split at he <;> omega
  have hrest : 0 ≤ 1461 * q + 365 * t + r ∧ 1461 * q + 365 * t + r ≤ 36524 ∧
      (1461 * q + 365 * t + r = 36524 → c = 3) := by
    omega
  have hcentury : doe / 36524 - doe / 146096 = c := by
    by_cases hend : 1461 * q + 365 * t + r = 36524 <;> omega
  have h4 : (100 * c + 4 * q + t) / 4 = 25 * c + q := by omega
  have h100 : (100 * c + 4 * q + t) / 100 = c := by omega
  constructor
  · have : doe - doe / 1460 + doe / 36524 - doe / 146096 = 365 * (100 * c + 4 * q + t) + (r - e) := by omega
    rw [this]
    split at he <;> omega
  · rw [h4, h100]
    omega

/-- The conversion finds the date of a number, or a year before the first. -/
theorem civilFromDays_fields (z : Int) : ∃ y : Int, ∃ m d : Nat,
    civilFromDays z = (if y < 0 || y > 9999 then none else some (y.toNat, m, d)) ∧ (y < 0 → z + epochDay < 0) ∧
      (0 ≤ y → ∃ date : Date, date.year = y.toNat ∧ date.month = m ∧ date.day = d ∧ (date.number : Int) = z + epochDay) := by
  obtain ⟨era, hera⟩ : ∃ era, era = (z + 719468) / 146097 := ⟨_, rfl⟩
  obtain ⟨c, q, t, r, hdoe, hc, hq, ht, hr, hlast⟩ := day_split ((z + 719468) % 146097) (by omega)
  obtain ⟨k, d, hk, hk11, hd, hd1, hrd, hlen⟩ := month_split r hr
  obtain ⟨hyoe, hdoy⟩ := year_split hc hq ht hr hlast hdoe
  have hmonth : unsigned ((k : Int) + if (k : Int) < 10 then 3 else -9) = ((if k < 10 then k + 3 else k - 9 : Nat) : Int) := by
    rw [unsigned_of_range (by split <;> omega)]
    split <;> split <;> omega
  have hera' : (if z + 719468 ≥ 0 then z + 719468 else z + 719468 - 146096).tdiv 146097 = era :=
    (floor_tdiv (z + 719468) (n := 146097) (by decide)).trans hera.symm
  have hrange : 0 ≤ (z + 719468) % 146097 ∧ (z + 719468) % 146097 < 146097 := by omega
  generalize hmod : (z + 719468) % 146097 = doe at hdoe hyoe hdoy hrange
  refine ⟨100 * c + 4 * q + t + era * 400 + if k < 10 then 0 else 1, if k < 10 then k + 3 else k - 9, d, ?_, ?_, ?_⟩
  · unfold civilFromDays
    dsimp only
    rw [hera', show z + 719468 - era * 146097 = doe by omega, unsigned_of_range (x := doe) (by omega),
      unsigned_of_range (x := doe - doe / 1460 + doe / 36524 - doe / 146096) (by omega), hyoe, hdoy,
      unsigned_of_range (x := r) (by omega), unsigned_of_range (x := 5 * r + 2) (by omega), hk, hd,
      unsigned_of_range (x := (d : Int)) (by omega), hmonth]
    rw [Int.toNat_natCast, Int.toNat_natCast,
      show (if (((if k < 10 then k + 3 else k - 9 : Nat) : Int)) ≤ 2 then (1 : Int) else 0) = if k < 10 then 0 else 1 by
        split <;> split <;> omega]
  · intro hneg
    clear hyoe hdoy
    rw [epochDay]
    split at hneg
    · have hr305 : r ≤ 305 := by omega
      have hlong : doe ≤ 146036 := by omega
      have hera1 : era ≤ -1 := by omega
      omega
    · omega
  · intro hpos
    generalize hy : 100 * c + 4 * q + t + era * 400 + (if k < 10 then 0 else 1) = y at hpos
    have hleap : r = 365 → Leap y.toNat := by
      intro h365
      obtain ⟨rfl, hq24⟩ := hlast h365
      rw [if_neg (by omega)] at hy
      rw [Leap]
      by_cases h24 : q = 24
      · have := hq24 h24
        omega
      · omega
    have hm1 : 1 ≤ if k < 10 then k + 3 else k - 9 := by split <;> omega
    have hm12 : (if k < 10 then k + 3 else k - 9) ≤ 12 := by split <;> omega
    refine ⟨⟨y.toNat, if k < 10 then k + 3 else k - 9, d, hm1, hm12, hd1, hlen _ hleap⟩, rfl, rfl, rfl, ?_⟩
    generalize hdate : (⟨y.toNat, if k < 10 then k + 3 else k - 9, d, hm1, hm12, hd1, hlen _ hleap⟩ : Date) = date
    have hnumber := date.number_fromMarch
    have hmarch : ((date.fromMarch.1 : Nat) : Int) = 100 * c + 4 * q + t + era * 400 + 1 ∧ date.fromMarch.2 = k := by
      rw [← hdate, Date.fromMarch]
      dsimp only
      by_cases hk10 : k < 10
      · simp only [if_pos hk10] at hy ⊢
        rw [if_neg (by omega)]
        exact ⟨by omega, by omega⟩
      · simp only [if_neg hk10] at hy ⊢
        rw [if_pos (by omega)]
        exact ⟨by omega, by omega⟩
    have hday : date.day = d := by rw [← hdate]
    have hyears := daysBeforeYear_eq date.fromMarch.1
    rw [hmarch.2, hday] at hnumber
    rw [epochDay]
    clear hyoe hdoy hk hd hlen hmonth hdate
    have h4 : ((date.fromMarch.1 + 3 : Nat) : Int) / 4 = 100 * era + 25 * c + q + 1 := by omega
    have h100 : ((date.fromMarch.1 + 99 : Nat) : Int) / 100 = 4 * era + c + 1 := by omega
    have h400 : ((date.fromMarch.1 + 399 : Nat) : Int) / 400 = era + 1 := by omega
    omega

/-- **`civil_from_days` finds the date of a number**, and gives up where the year has not four digits. -/
theorem civilFromDays_iff (z : Int) (y m d : Nat) : civilFromDays z = some (y, m, d) ↔
    ∃ date : Date, date.year = y ∧ date.month = m ∧ date.day = d ∧ y ≤ 9999 ∧ (date.number : Int) = z + epochDay := by
  obtain ⟨y', m', d', hcivil, hneg, hpos⟩ := civilFromDays_fields z
  rw [hcivil]
  constructor
  · intro h
    split at h
    · cases h
    · next hrange =>
      simp only [Bool.or_eq_true, decide_eq_true_eq, not_or] at hrange
      obtain ⟨date, h1, h2, h3, h4⟩ := hpos (by omega)
      cases h
      exact ⟨date, h1, h2, h3, by omega, h4⟩
  · rintro ⟨date, rfl, rfl, rfl, hle, hnumber⟩
    have hnonneg : 0 ≤ y' := by
      by_contra hlt
      have := hneg (by omega)
      omega
    obtain ⟨date', h1, rfl, rfl, h4⟩ := hpos hnonneg
    obtain rfl : date' = date := Date.number_injective (by omega)
    rw [if_neg (by simp only [Bool.or_eq_true, decide_eq_true_eq, not_or]; omega), h1]

/-- The two conversions are inverse on the days of the years 0 to 9999. -/
theorem civilFromDays_inverse (z : Int) :
    (∃ date : Date, date.year ≤ 9999 ∧ (date.number : Int) = z + epochDay) ↔
      ∃ y m d, civilFromDays z = some (y, m, d) ∧ daysFromCivil y m d = z := by
  constructor
  · rintro ⟨date, hle, hnumber⟩
    refine ⟨_, _, _, (civilFromDays_iff z _ _ _).mpr ⟨date, rfl, rfl, rfl, hle, hnumber⟩, ?_⟩
    rw [daysFromCivil_number, hnumber]
    omega
  · rintro ⟨y, m, d, hcivil, -⟩
    obtain ⟨date, rfl, -, -, hle, hnumber⟩ := (civilFromDays_iff z y m d).mp hcivil
    exact ⟨date, hle, hnumber⟩

end Lql.Temporal
