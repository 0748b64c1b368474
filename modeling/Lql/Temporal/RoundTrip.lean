import Lql.Temporal.Literal

/-!
# Writing and reading a date-time

What the library writes for an instant is the literal of that instant in UTC, so the parser reads the instant back.
Only the years 0 to 9999 can be written; an offset may carry a literal of these years out of them.
-/

namespace Lql.Temporal

open Lib.Calendar (Date)
open Number (Digits natOf natOf_nil natOf_append natOf_zeros digits_zeros orderSign orderSign_lt orderSign_gt
  orderSign_self)

/-- The second lies on the day. -/
def OnDay (seconds : Int) (day : Date) : Prop :=
  ((day.number : Int) - epochDay) * 86400 ≤ seconds ∧ seconds < ((day.number : Int) - epochDay + 1) * 86400

/-- The second lies in a year that has four digits. -/
def InYears (seconds : Int) : Prop := ∃ day : Date, day.year ≤ 9999 ∧ OnDay seconds day

theorem onDay_iff {seconds : Int} {day : Date} : OnDay seconds day ↔ (day.number : Int) = seconds / 86400 + epochDay := by
  rw [OnDay]
  omega

/-! ## The fraction -/

/-- The digits of a fraction without the zeros at its end, and these zeros. -/
theorem fractionDigits_split (n : Nat) : ∃ k, padded 9 n = fractionDigits n ++ List.replicate k chZero := by
  have hsplit : (padded 9 n).reverse.takeWhile (· = chZero) ++ (padded 9 n).reverse.dropWhile (· = chZero) =
      (padded 9 n).reverse := List.takeWhile_append_dropWhile
  have hzeros : (padded 9 n).reverse.takeWhile (· = chZero) =
      List.replicate ((padded 9 n).reverse.takeWhile (· = chZero)).length chZero :=
    List.eq_replicate_iff.mpr ⟨rfl, fun c hc => of_decide_eq_true (List.mem_takeWhile_imp (p := (· = chZero)) hc)⟩
  refine ⟨((padded 9 n).reverse.takeWhile (· = chZero)).length, ?_⟩
  rw [← List.reverse_inj, List.reverse_append, fractionDigits, List.reverse_reverse, List.reverse_replicate, ← hzeros,
    hsplit]

theorem fractionDigits_digits (n : Nat) : Digits (fractionDigits n) := by
  obtain ⟨k, hk⟩ := fractionDigits_split n
  exact fun c hc => padded_digits 9 n c (by rw [hk]; exact List.mem_append_left _ hc)

theorem fractionDigits_length {n : Nat} (h : n < 10 ^ 9) : (fractionDigits n).length ≤ 9 := by
  obtain ⟨k, hk⟩ := fractionDigits_split n
  have hlen := padded_length (by decide) h
  rw [hk, List.length_append] at hlen
  omega

/-- The fraction that is written is read as the nanoseconds. -/
theorem nanosOf_fractionDigits {n : Nat} (h : n < 10 ^ 9) : nanosOf (fractionDigits n) = n := by
  obtain ⟨k, hk⟩ := fractionDigits_split n
  have hlen := padded_length (by decide) h
  have hval := natOf_padded 9 n
  rw [hk, List.length_append, List.length_replicate] at hlen
  rw [hk, natOf_append, natOf_zeros, List.length_replicate, Nat.add_zero] at hval
  rw [← nanosOf_eq (fractionDigits_digits n), List.take_of_length_le (by omega), ← hlen, Nat.add_sub_cancel_left, hval]

theorem fractionDigits_eq_nil {n : Nat} (h : n < 10 ^ 9) : fractionDigits n = [] ↔ n = 0 := by
  constructor
  · intro hnil
    rw [← nanosOf_fractionDigits h, hnil, nanosOf, natOf_nil, Nat.zero_mul, Nat.zero_div]
  · rintro rfl
    decide +kernel

/-! ## The text -/

/-- The literal of an instant on a day, in UTC. -/
def utcLiteral (day : Date) (hy : day.year ≤ 9999) (second : Fin 86400) (nanoseconds : Nat) : DateTime where
  date := day
  hour := ⟨second / 3600, by omega⟩
  minute := ⟨second % 3600 / 60, by omega⟩
  second := ⟨second % 3600 % 60, by omega⟩
  fraction := fractionDigits nanoseconds
  zone := .utc
  year_le := hy
  digits := fractionDigits_digits nanoseconds

theorem utcLiteral_seconds (day : Date) (hy : day.year ≤ 9999) (second : Fin 86400) (nanoseconds : Nat) :
    (utcLiteral day hy second nanoseconds).seconds = ((day.number : Int) - epochDay) * 86400 + (second : Nat) := by
  rw [DateTime.seconds, utcLiteral, Zone.seconds]
  dsimp only
  omega

/-- What is written is the literal of the instant. -/
theorem format_eq {t : Temporal} {bufLen : Nat} (hbuf : 31 ≤ bufLen) (hd : t.dateOnly = false)
    (hn : t.nanoseconds < 10 ^ 9) {day : Date} (hy : day.year ≤ 9999) (hday : OnDay t.seconds day) :
    ∃ second : Fin 86400, ((second : Nat) : Int) = t.seconds % 86400 ∧
      formatRfc3339Nano t bufLen = some (utcLiteral day hy second t.nanoseconds).text := by
  have hcivil := (civilFromDays_iff (t.seconds / 86400) _ _ _).mpr ⟨day, rfl, rfl, rfl, hy, onDay_iff.mp hday⟩
  have hrem : 0 ≤ t.seconds % 86400 := Int.emod_nonneg _ (by decide)
  refine ⟨⟨(t.seconds % 86400).toNat, by omega⟩, Int.toNat_of_nonneg hrem, ?_⟩
  have hhour : (t.seconds % 86400 / 3600).toNat = (t.seconds % 86400).toNat / 3600 := by omega
  have hminute : (t.seconds % 86400 % 3600 / 60).toNat = (t.seconds % 86400).toNat % 3600 / 60 := by omega
  have hsecond : (t.seconds % 86400 % 3600 % 60).toNat = (t.seconds % 86400).toNat % 3600 % 60 := by omega
  have hfraction : (if t.nanoseconds = 0 then [] else chDot :: fractionDigits t.nanoseconds) =
      fractionText (fractionDigits t.nanoseconds) := by
    rw [fractionText]
    simp only [fractionDigits_eq_nil hn]
  rw [formatRfc3339Nano, if_neg (by simp only [hd, Bool.or_eq_true, decide_eq_true_eq, Bool.false_eq_true, or_false]; omega), daysOf_eq]
  dsimp only
  rw [hcivil, Option.map_some, hhour, hminute, hsecond, hfraction]
  simp only [DateTime.text, utcLiteral, Zone.text, List.append_assoc, List.cons_append, List.nil_append]

/-- Nothing is written outside the years of four digits. -/
theorem format_none {t : Temporal} {bufLen : Nat} (h : ¬ InYears t.seconds) : formatRfc3339Nano t bufLen = none := by
  rw [formatRfc3339Nano]
  split
  · rfl
  · rw [daysOf_eq]
    dsimp only
    cases hcivil : civilFromDays (t.seconds / 86400) with
    | none => rfl
    | some fields =>
      obtain ⟨y, m, d⟩ := fields
      obtain ⟨date, rfl, -, -, hle, hnumber⟩ := (civilFromDays_iff _ _ _ _).mp hcivil
      exact absurd ⟨date, hle, onDay_iff.mpr hnumber⟩ h

theorem fields_length (t : DateTime) : (padded 4 t.date.year).length = 4 ∧ (padded 2 t.date.month).length = 2 ∧
    (padded 2 t.date.day).length = 2 ∧ (padded 2 t.hour).length = 2 ∧ (padded 2 t.minute).length = 2 ∧
      (padded 2 t.second).length = 2 := by
  have hy := t.year_le
  have hm := t.date.month_le
  have hd := t.date.day_le
  have hd31 := Lib.Calendar.monthDays_le t.date.year t.date.month
  exact ⟨padded_length (by decide) (by omega), padded_length (by decide) (by omega), padded_length (by decide) (by omega),
    padded_length (by decide) (by omega), padded_length (by decide) (by omega), padded_length (by decide) (by omega)⟩

theorem text_length (t : DateTime) :
    t.text.length = 19 + (fractionText t.fraction).length + t.zone.text.length := by
  obtain ⟨h1, h2, h3, h4, h5, h6⟩ := fields_length t
  simp only [DateTime.text, List.length_append, List.length_cons, h1, h2, h3, h4, h5, h6]
  omega

/-- What is written fits in 31 bytes with its NUL. -/
theorem utcLiteral_length (day : Date) (hy : day.year ≤ 9999) (second : Fin 86400) {nanoseconds : Nat}
    (hn : nanoseconds < 10 ^ 9) : (utcLiteral day hy second nanoseconds).text.length + 1 ≤ 31 := by
  have hfraction : (fractionText (fractionDigits nanoseconds)).length ≤ 10 := by
    rw [fractionText]
    split
    · exact Nat.zero_le _
    · exact Nat.succ_le_succ (fractionDigits_length hn)
  have hzone : Zone.utc.text.length = 1 := rfl
  rw [text_length]
  change 19 + (fractionText (fractionDigits nanoseconds)).length + Zone.utc.text.length + 1 ≤ 31
  omega

theorem digits_no_nul {ds : Bytes} (hds : Digits ds) : 0 ∉ ds := fun h => Bool.noConfusion (hds 0 h)

/-- A literal has no NUL in it. -/
theorem text_no_nul (t : DateTime) : 0 ∉ t.text := by
  have hpad : ∀ w n, 0 ∉ padded w n := fun w n => digits_no_nul (padded_digits w n)
  have hfraction : 0 ∉ fractionText t.fraction := by
    rw [fractionText]
    split
    · exact List.not_mem_nil
    · exact List.not_mem_cons_of_ne_of_not_mem (by decide) (digits_no_nul t.digits)
  have hzone : 0 ∉ t.zone.text := by
    cases t.zone with
    | naive => exact List.not_mem_nil
    | utc => decide
    | offset west h m =>
      simp only [Zone.text, List.mem_cons, List.mem_append, hpad, or_false, false_or, not_or]
      exact ⟨by cases west <;> decide, by decide⟩
  simp only [DateTime.text, List.mem_append, List.mem_cons, hpad, hfraction, hzone, or_false]
  decide

/-! ## The instant -/

theorem temporalCompare_eq {a b : Temporal} (ha : a.nanoseconds < 10 ^ 9) (hb : b.nanoseconds < 10 ^ 9) :
    temporalCompare a b = orderSign (a.seconds * 10 ^ 9 + a.nanoseconds) (b.seconds * 10 ^ 9 + b.nanoseconds) := by
  rw [temporalCompare]
  rcases lt_trichotomy a.seconds b.seconds with hlt | heq | hgt
  · rw [if_pos hlt, orderSign_lt (by omega)]
  · rw [if_neg (by omega), if_neg (by omega), heq]
    rcases Nat.lt_trichotomy a.nanoseconds b.nanoseconds with hlt | hsame | hgt
    · rw [if_pos hlt, orderSign_lt (by omega)]
    · rw [if_neg (by omega), if_neg (by omega), hsame, orderSign_self]
    · rw [if_neg (by omega), if_pos hgt, orderSign_gt (by omega)]
  · rw [if_neg (by omega), if_pos hgt, orderSign_gt (by omega)]

/-- The library compares the instants of two literals. -/
theorem compare_instant (a b : DateTime) :
    temporalCompare a.value b.value = orderSign a.instant b.instant :=
  temporalCompare_eq (nanosOf_lt a.digits) (nanosOf_lt b.digits)

/-- **A date-time comes back from its writing.** The parser takes exactly the writings of date-times, and reads the
instant of each. A value is written exactly where its instant lies in the years 0 to 9999, in 31 bytes with the NUL at
most, and what is written is read as the same instant. The conversions between days and dates are inverse on these
years, and the comparison is that of the instants. -/
theorem temporal_round_trip :
    (∀ (raw : Bytes) (allowDateOnly allowNaive allowOuterSpace : Bool) (v : Temporal),
      (parseTemporalLiteralWithOptions (cstr raw) allowDateOnly allowNaive allowOuterSpace = some v ∧
        v.dateOnly = false) ↔ ∃ t : DateTime, t.Spells (cstr raw) allowNaive allowOuterSpace ∧ v = t.value) ∧
    (∀ (t : DateTime) (room : Nat),
      (InYears t.seconds ∧ ∃ text, formatRfc3339Nano t.value (31 + room) = some text ∧ text.length + 1 ≤ 31 ∧
        cstr text = text ∧ ∀ allowDateOnly allowNaive allowOuterSpace, ∃ v,
          parseTemporalLiteralWithOptions (cstr text) allowDateOnly allowNaive allowOuterSpace = some v ∧
            v.seconds = t.seconds ∧ v.nanoseconds = t.nanoseconds) ∨
      (¬ InYears t.seconds ∧ formatRfc3339Nano t.value (31 + room) = none)) ∧
    (∀ z : Int, (∃ day : Date, day.year ≤ 9999 ∧ (day.number : Int) = z + epochDay) ↔
      ∃ y m d, civilFromDays z = some (y, m, d) ∧ daysFromCivil y m d = z) ∧
    (∀ a b : DateTime, temporalCompare a.value b.value = orderSign a.instant b.instant) := by
  refine ⟨parse_dateTime_iff, fun t room => ?_, civilFromDays_inverse, compare_instant⟩
  by_cases hyears : InYears t.seconds
  · obtain ⟨day, hy, hday⟩ := hyears
    have hn : t.nanoseconds < 10 ^ 9 := nanosOf_lt t.digits
    obtain ⟨second, hsecond, htext⟩ := format_eq (t := t.value) (Nat.le_add_right 31 room) rfl hn hy hday
    obtain ⟨u, hu⟩ : ∃ u, u = utcLiteral day hy second t.nanoseconds := ⟨_, rfl⟩
    have hcstr : cstr u.text = u.text := cstr_whole (text_no_nul u)
    refine .inl ⟨⟨day, hy, hday⟩, u.text, hu ▸ htext, hu ▸ utcLiteral_length day hy second hn, hcstr,
      fun allowDateOnly allowNaive allowOuterSpace => ⟨u.value, ?_, ?_, ?_⟩⟩
    · refine ((parse_dateTime_iff u.text _ _ _ u.value).mpr ⟨u, ⟨fun _ => ?_, [], [], nofun, nofun, fun _ => ⟨rfl, rfl⟩, ?_⟩,
        rfl⟩).1
      · rw [hu]
        exact nofun
      · rw [hcstr, List.nil_append, List.append_nil]
    · have hseconds := utcLiteral_seconds day hy second t.nanoseconds
      have hnumber := onDay_iff.mp hday
      rw [← hu, hnumber, hsecond] at hseconds
      change u.seconds = t.seconds
      rw [hseconds]
      change (t.seconds / 86400 + (epochDay : Int) - epochDay) * 86400 + t.seconds % 86400 = t.seconds
      omega
    · rw [hu]
      exact nanosOf_fractionDigits hn
  · exact .inr ⟨hyears, format_none hyears⟩

end Lql.Temporal
