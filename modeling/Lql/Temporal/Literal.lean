import Lql.Temporal.Format

/-!
# Date-time literals

What a date-time literal is: a date of the calendar, a time of day, a fraction of any length and an offset. The parser
takes exactly the writings of such literals, and what it reads is the literal's instant.
-/

namespace Lql.Temporal

open Lib.Calendar (Date)
open Number (Digits natOf natOf_nil natOf_append natOf_cons natOf_lt digitVal_lt)

/-! ## Literals -/

/-- What stands behind the time of day: nothing, `Z`, or hours and minutes east or west. -/
inductive Zone where
  | naive
  | utc
  | offset (west : Bool) (hours : Fin 24) (minutes : Fin 60)

/-- How far the zone is ahead of UTC. -/
def Zone.seconds : Zone → Int
  | naive => 0
  | utc => 0
  | offset west h m => if west then -((h : Int) * 3600 + m * 60) else (h : Int) * 3600 + m * 60

/-- The zone as it is written. -/
def Zone.text : Zone → Bytes
  | naive => []
  | utc => [0x5a]
  | offset west h m => (if west then chMinus else chPlus) :: (padded 2 h ++ chColon :: padded 2 m)

/-- The digits of a fraction as they are written; without any there is no dot. -/
def fractionText (fraction : Bytes) : Bytes := if fraction = [] then [] else chDot :: fraction

/-- A fraction in nanoseconds, cut off. -/
def nanosOf (fraction : Bytes) : Nat := natOf fraction * 10 ^ 9 / 10 ^ fraction.length

/-- A date-time as literals write it. -/
structure DateTime where
  date : Date
  hour : Fin 24
  minute : Fin 60
  second : Fin 60
  fraction : Bytes
  zone : Zone
  year_le : date.year ≤ 9999
  digits : Digits fraction

namespace DateTime

/-- The whole seconds since 1970, UTC. -/
def seconds (t : DateTime) : Int :=
  ((t.date.number : Int) - epochDay) * 86400 + (t.hour * 3600 + t.minute * 60 + t.second : Nat) - t.zone.seconds

/-- The fraction in nanoseconds. -/
def nanoseconds (t : DateTime) : Nat := nanosOf t.fraction

/-- The instant in nanoseconds since 1970, UTC. -/
def instant (t : DateTime) : Int := t.seconds * 10 ^ 9 + t.nanoseconds

/-- The literal as it is written. -/
def text (t : DateTime) : Bytes :=
  padded 4 t.date.year ++ chMinus :: (padded 2 t.date.month ++ chMinus :: (padded 2 t.date.day ++ 0x54 ::
    (padded 2 t.hour ++ chColon :: (padded 2 t.minute ++ chColon :: (padded 2 t.second ++
      (fractionText t.fraction ++ t.zone.text))))))

/-- The value of the literal. -/
def value (t : DateTime) : Temporal :=
  { seconds := t.seconds, nanoseconds := t.nanoseconds, year := t.date.year, month := t.date.month, day := t.date.day
    dateOnly := false }

end DateTime

/-! ## Reading a number -/

theorem parseNDigits_append {ds : Bytes} (hds : Digits ds) (v : Nat) (rest : Bytes) :
    parseNDigits ds.length v (ds ++ rest) = some (v * 10 ^ ds.length + natOf ds, rest) := by
  induction ds generalizing v with
  | nil => rw [List.length_nil, parseNDigits, natOf_nil, Nat.pow_zero, Nat.mul_one, Nat.add_zero, List.nil_append]
  | cons c ds ih =>
    rw [List.length_cons, List.cons_append, parseNDigits_digit _ _ _ hds.cons.1, ih hds.cons.2, natOf_cons,
      Nat.pow_succ]
    refine congrArg (fun x => some (x, rest)) ?_
    ring

theorem parseNDigits_some : ∀ {n v w : Nat} {p rest : Bytes}, parseNDigits n v p = some (w, rest) →
    ∃ ds, Digits ds ∧ ds.length = n ∧ p = ds ++ rest ∧ w = v * 10 ^ n + natOf ds
  | 0, v, w, p, rest, h => by
    cases h
    exact ⟨[], nofun, rfl, rfl, by rw [natOf_nil, Nat.pow_zero, Nat.mul_one, Nat.add_zero]⟩
  | n + 1, v, w, [], rest, h => nomatch h
  | n + 1, v, w, c :: p, rest, h => by
    rw [parseNDigits] at h
    split at h
    · next hc =>
      obtain ⟨ds, hds, hlen, rfl, rfl⟩ := parseNDigits_some h
      refine ⟨c :: ds, fun x hx => ?_, by rw [List.length_cons, hlen], rfl, ?_⟩
      · rcases List.mem_cons.mp hx with rfl | hx
        · exact hc
        · exact hds x hx
      · rw [natOf_cons, hlen, Nat.pow_succ]
        ring
    · cases h

/-- A number of some digits is read where it is written with as many. -/
theorem parseNDigits_iff {n v : Nat} {p rest : Bytes} (hn : 0 < n) :
    parseNDigits n 0 p = some (v, rest) ↔ v < 10 ^ n ∧ p = padded n v ++ rest := by
  constructor
  · intro h
    obtain ⟨ds, hds, rfl, rfl, rfl⟩ := parseNDigits_some h
    rw [Nat.zero_mul, Nat.zero_add, padded_natOf hds (List.length_pos_iff.mp hn)]
    exact ⟨natOf_lt hds, rfl⟩
  · rintro ⟨hv, rfl⟩
    have h := parseNDigits_append (padded_digits n v) 0 rest
    rwa [padded_length hn hv, natOf_padded, Nat.zero_mul, Nat.zero_add] at h

theorem expectChar_iff {c : UInt8} {p rest : Bytes} : expectChar c p = some rest ↔ p = c :: rest := by
  cases p with
  | nil => simp [expectChar]
  | cons x p =>
    rw [expectChar]
    split
    · next h => rw [h, Option.some.injEq, List.cons.injEq, eq_self, true_and]
    · next h => simp [h]

/-! ## Reading the parts -/

theorem dateAt_iff {p rest : Bytes} {y m d : Nat} : dateAt p = some ((y, m, d), rest) ↔
    ∃ date : Date, date.year ≤ 9999 ∧ date.year = y ∧ date.month = m ∧ date.day = d ∧
      p = padded 4 y ++ chMinus :: (padded 2 m ++ chMinus :: (padded 2 d ++ rest)) := by
  have hlt : ∀ date : Date, date.month < 10 ^ 2 ∧ date.day < 10 ^ 2 := by
    intro date
    have hmonth := date.month_le
    have hday := date.day_le
    have := Lib.Calendar.monthDays_le date.year date.month
    omega
  rw [dateAt]
  simp only [Option.bind_eq_some_iff, Option.ite_none_right_eq_some, Prod.exists, parseNDigits_iff (Nat.succ_pos _),
    expectChar_iff, validYmd_iff]
  constructor
  · rintro ⟨y, p1, ⟨hy, rfl⟩, p2, rfl, m, p3, ⟨-, rfl⟩, p4, rfl, d, p5, ⟨-, rfl⟩, ⟨date, rfl, rfl, rfl⟩, h⟩
    cases h
    exact ⟨date, by omega, rfl, rfl, rfl, rfl⟩
  · rintro ⟨date, hy, rfl, rfl, rfl, rfl⟩
    obtain ⟨hm, hd⟩ := hlt date
    exact ⟨_, _, ⟨by omega, rfl⟩, _, rfl, _, _, ⟨hm, rfl⟩, _, rfl, _, _, ⟨hd, rfl⟩, ⟨date, rfl, rfl, rfl⟩, rfl⟩

theorem timeAt_iff {p rest : Bytes} {h m s : Nat} : timeAt p = some ((h, m, s), rest) ↔
    (h < 24 ∧ m < 60 ∧ s < 60) ∧
      p = padded 2 h ++ chColon :: (padded 2 m ++ chColon :: (padded 2 s ++ rest)) := by
  rw [timeAt]
  simp only [Option.bind_eq_some_iff, Option.ite_none_left_eq_some, Prod.exists, parseNDigits_iff (Nat.succ_pos _),
    expectChar_iff, Bool.or_eq_true, decide_eq_true_eq, not_or, Option.some.injEq]
  constructor
  · rintro ⟨h, p1, ⟨-, rfl⟩, p2, rfl, m, p3, ⟨-, rfl⟩, p4, rfl, s, p5, ⟨-, rfl⟩, hrange, h⟩
    cases h
    exact ⟨by omega, rfl⟩
  · rintro ⟨hrange, rfl⟩
    exact ⟨_, _, ⟨by omega, rfl⟩, _, rfl, _, _, ⟨by omega, rfl⟩, _, rfl, _, _, ⟨by omega, rfl⟩, by omega, rfl⟩

theorem fractionLoop_eq (p : Bytes) (nanos digits : Nat) : fractionLoop p nanos digits =
    (nanos * 10 ^ ((p.takeWhile isDigit).take (9 - digits)).length + natOf ((p.takeWhile isDigit).take (9 - digits)),
      digits + (p.takeWhile isDigit).length, p.dropWhile isDigit) := by
  induction p generalizing nanos digits with
  | nil => simp [fractionLoop]
  | cons c p ih =>
    rw [fractionLoop]
    split
    · next hc =>
      rw [ih, List.takeWhile_cons_of_pos hc, List.dropWhile_cons_of_pos hc]
      by_cases h9 : digits < 9
      · rw [if_pos h9, show 9 - digits = 9 - (digits + 1) + 1 by omega, List.take_succ_cons, List.length_cons,
          List.length_cons, natOf_cons, Nat.pow_succ]
        refine Prod.ext ?_ (Prod.ext (by dsimp only; omega) rfl)
        dsimp only
        ring
      · rw [if_neg h9, show 9 - digits = 0 by omega, show 9 - (digits + 1) = 0 by omega]
        exact Prod.ext rfl (Prod.ext (by rw [List.length_cons]; dsimp only; omega) rfl)
    · next hc =>
      rw [List.takeWhile_cons_of_neg hc, List.dropWhile_cons_of_neg hc]
      simp

/-- Nine digits and the zeros that are missing make the nanoseconds. -/
theorem nanosOf_eq {ds : Bytes} (hds : Digits ds) : natOf (ds.take 9) * 10 ^ (9 - ds.length) = nanosOf ds := by
  rw [nanosOf]
  rcases Nat.le_or_ge ds.length 9 with h | h
  · rw [List.take_of_length_le h]
    refine (Nat.div_eq_of_eq_mul_left (Nat.pos_of_neZero _) ?_).symm
    rw [Nat.mul_assoc, ← Nat.pow_add, Nat.sub_add_cancel h]
  · have hrest : natOf (ds.drop 9) < 10 ^ (ds.length - 9) := by
      have : natOf (ds.drop 9) < 10 ^ (ds.drop 9).length := natOf_lt fun c hc => hds c (List.mem_of_mem_drop hc)
      rwa [List.length_drop] at this
    have hsplit : natOf ds = natOf (ds.take 9) * 10 ^ (ds.length - 9) + natOf (ds.drop 9) := by
      have := natOf_append (ds.take 9) (ds.drop 9)
      rwa [List.take_append_drop, List.length_drop] at this
    rw [Nat.sub_eq_zero_of_le h, Nat.pow_zero, Nat.mul_one]
    refine (Nat.div_eq_of_lt_le ?_ ?_).symm
    all_goals
      rw [show ds.length = ds.length - 9 + 9 by omega, Nat.pow_add, ← Nat.mul_assoc]
    · exact Nat.mul_le_mul_right _ (by rw [hsplit]; exact Nat.le_add_right _ _)
    · refine Nat.mul_lt_mul_of_pos_right ?_ (Nat.pos_of_neZero _)
      rw [hsplit, Nat.succ_mul]
      exact Nat.add_lt_add_left hrest _

theorem nanosOf_lt {ds : Bytes} (hds : Digits ds) : nanosOf ds < 10 ^ 9 := by
  rw [nanosOf]
  refine Nat.div_lt_of_lt_mul ?_
  exact Nat.mul_lt_mul_of_pos_right (natOf_lt hds) (by decide)

/-- What cannot go on a fraction, nor begin one. -/
def Ends (rest : Bytes) : Prop := ∀ c ∈ rest.head?, isDigit c = false ∧ c ≠ chDot

theorem Ends.dropWhile {rest : Bytes} (h : Ends rest) : rest.takeWhile isDigit = [] ∧ rest.dropWhile isDigit = rest := by
  cases rest with
  | nil => exact ⟨rfl, rfl⟩
  | cons c rest =>
    have hc : ¬ isDigit c = true := by
      rw [(h c rfl).1]
      exact Bool.false_ne_true
    exact ⟨List.takeWhile_cons_of_neg hc, List.dropWhile_cons_of_neg hc⟩

theorem takeWhile_digits (p : Bytes) : Digits (p.takeWhile isDigit) := fun _ hc => List.mem_takeWhile_imp hc

theorem fraction_eq {p : Bytes} (h : isDigit (charAt p 0) = true) :
    fraction p = some (nanosOf (p.takeWhile isDigit), p.dropWhile isDigit) := by
  rw [fraction, if_pos h, fractionLoop_eq]
  simp only [Nat.zero_mul, Nat.zero_add, Nat.sub_zero]
  rw [nanosOf_eq (takeWhile_digits p)]

theorem nanosAt_some {p rest : Bytes} {n : Nat} (h : nanosAt p = some (n, rest)) :
    ∃ f, Digits f ∧ p = fractionText f ++ rest ∧ n = nanosOf f := by
  rw [nanosAt] at h
  split at h
  · next hdot =>
    have hcons := drop_eq_cons hdot (by decide)
    rw [List.drop_zero] at hcons
    by_cases hdigit : isDigit (charAt (p.drop 1) 0) = true
    · rw [fraction_eq hdigit] at h
      cases h
      refine ⟨_, takeWhile_digits _, ?_, rfl⟩
      have hne : (p.drop 1).takeWhile isDigit ≠ [] := by
        have hfront := drop_digit hdigit
        rw [List.drop_zero] at hfront
        rw [hfront, List.takeWhile_cons_of_pos hdigit]
        exact List.cons_ne_nil _ _
      rw [fractionText, if_neg hne, List.cons_append, List.takeWhile_append_dropWhile]
      exact hcons
    · rw [fraction, if_neg hdigit] at h
      cases h
  · cases h
    exact ⟨[], fun c hc => absurd hc List.not_mem_nil, rfl, by rw [nanosOf, natOf_nil, Nat.zero_mul, Nat.zero_div]⟩

theorem charAt_cons (c : UInt8) (p : Bytes) : charAt (c :: p) 0 = c := rfl

theorem nanosAt_text {f rest : Bytes} (hf : Digits f) (hr : Ends rest) :
    nanosAt (fractionText f ++ rest) = some (nanosOf f, rest) := by
  rw [nanosAt, fractionText]
  cases f with
  | nil =>
    have hne : charAt rest 0 ≠ chDot := by
      cases rest with
      | nil => decide
      | cons c rest => exact (hr c rfl).2
    rw [if_pos rfl, List.nil_append, if_neg hne, nanosOf, natOf_nil, Nat.zero_mul, Nat.zero_div]
  | cons c f =>
    have hdigit : isDigit (charAt (c :: f ++ rest) 0) = true := hf.cons.1
    have hall : ∀ x ∈ c :: f, isDigit x = true := hf
    obtain ⟨htake, hdrop⟩ := hr.dropWhile
    rw [if_neg (List.cons_ne_nil _ _), List.cons_append, charAt_cons, if_pos rfl, List.drop_one, List.tail_cons,
      fraction_eq hdigit, List.takeWhile_append_of_pos hall, List.dropWhile_append_of_pos hall, htake, hdrop,
      List.append_nil]

theorem offsetOf_seconds (west : Bool) (h : Fin 24) (m : Fin 60) :
    offsetOf (if west then chMinus else chPlus) h m = (Zone.offset west h m).seconds := by
  cases west with
  | true =>
    rw [if_pos rfl, offsetOf, if_pos rfl, Zone.seconds, if_pos rfl]
    push_cast
    ring
  | false =>
    rw [if_neg Bool.false_ne_true, offsetOf, if_neg (by decide), Zone.seconds, if_neg Bool.false_ne_true]
    push_cast
    ring

theorem zoneAt_some {allowNaive : Bool} {p rest : Bytes} {offset : Int}
    (h : zoneAt allowNaive p = some (offset, rest)) :
    ∃ zone : Zone, (allowNaive = false → zone ≠ .naive) ∧ p = zone.text ++ rest ∧ offset = zone.seconds := by
  rw [zoneAt] at h
  split at h
  · next hz =>
    cases h
    have hcons := drop_eq_cons hz (by decide)
    rw [List.drop_zero] at hcons
    exact ⟨.utc, (fun _ h => by cases h), hcons, rfl⟩
  · split at h
    · next hsign =>
      simp only [Option.bind_eq_some_iff, Option.ite_none_left_eq_some, Prod.exists, expectChar_iff,
        parseNDigits_iff (Nat.succ_pos 1), Bool.or_eq_true, decide_eq_true_eq, not_or, Option.some.injEq] at h
      obtain ⟨hh, p1, ⟨-, hp⟩, p2, rfl, m, p3, ⟨-, rfl⟩, hrange, h⟩ := h
      cases h
      have hoffset := offsetOf_seconds (charAt p 0 = chMinus) ⟨hh, by omega⟩ ⟨m, by omega⟩
      have hchar : (if decide (charAt p 0 = chMinus) = true then chMinus else chPlus) = charAt p 0 := by
        rcases Bool.or_eq_true_iff.mp hsign with hplus | hminus
        · rw [of_decide_eq_true hplus]
          rfl
        · rw [of_decide_eq_true hminus]
          rfl
      rw [hchar] at hoffset
      refine ⟨.offset (charAt p 0 = chMinus) ⟨hh, by omega⟩ ⟨m, by omega⟩, (fun _ h => by cases h), ?_, hoffset⟩
      have hne : charAt p 0 ≠ 0 := by
        rw [← hchar]
        split <;> decide
      have hcons := drop_eq_cons (p := p) rfl hne
      rw [List.drop_zero, Nat.zero_add, hp] at hcons
      rw [Zone.text, hchar, List.cons_append, List.append_assoc, List.cons_append]
      exact hcons
    · split at h
      · next hn =>
        cases h
        exact ⟨.naive, fun hf => absurd (hf.symm.trans hn) Bool.false_ne_true, rfl, rfl⟩
      · cases h

/-- Nothing but blanks. -/
def Blank (p : Bytes) : Prop := ∀ c ∈ p, isSpace c = true

theorem zoneAt_text {allowNaive : Bool} {zone : Zone} {rest : Bytes} (hn : allowNaive = false → zone ≠ .naive)
    (hr : Blank rest) : zoneAt allowNaive (zone.text ++ rest) = some (zone.seconds, rest) := by
  rw [zoneAt]
  cases zone with
  | naive =>
    have hfirst : charAt rest 0 ≠ 0x5a ∧ ¬ (charAt rest 0 = chPlus || charAt rest 0 = chMinus) = true := by
      cases rest with
      | nil => decide
      | cons c rest =>
        have hc := hr c List.mem_cons_self
        rw [charAt_cons]
        constructor
        · rintro rfl
          cases hc
        · intro h
          rcases Bool.or_eq_true_iff.mp h with h | h
          · rw [of_decide_eq_true h] at hc
            cases hc
          · rw [of_decide_eq_true h] at hc
            cases hc
    have hallow : allowNaive = true := by
      cases allowNaive with
      | true => rfl
      | false => exact absurd rfl (hn rfl)
    rw [Zone.text, List.nil_append, if_neg hfirst.1, if_neg hfirst.2, if_pos hallow]
    rfl
  | utc => rfl
  | offset west h m =>
    have hsign : charAt ((Zone.offset west h m).text ++ rest) 0 = if west then chMinus else chPlus := rfl
    have hne : (if west then chMinus else chPlus) ≠ 0x5a := by
      split <;> decide
    have hor : (decide ((if west then chMinus else chPlus) = chPlus) ||
        decide ((if west then chMinus else chPlus) = chMinus)) = true := by
      cases west <;> rfl
    have hdrop : ((Zone.offset west h m).text ++ rest).drop 1 = padded 2 h ++ chColon :: (padded 2 m ++ rest) := by
      rw [Zone.text, List.cons_append, List.drop_one, List.tail_cons, List.append_assoc, List.cons_append]
    have hhours := (parseNDigits_iff (p := padded 2 h ++ chColon :: (padded 2 m ++ rest)) (Nat.succ_pos 1)).mpr
      ⟨Nat.lt_trans h.isLt (by decide), rfl⟩
    have hminutes := (parseNDigits_iff (p := padded 2 m ++ rest) (Nat.succ_pos 1)).mpr
      ⟨Nat.lt_trans m.isLt (by decide), rfl⟩
    rw [hsign, if_neg hne, if_pos hor, hdrop, hhours, Option.bind_some, expectChar_iff.mpr rfl, Option.bind_some,
      hminutes, Option.bind_some, offsetOf_seconds]
    refine if_neg ?_
    simp only [Bool.or_eq_true, decide_eq_true_eq, not_or]
    omega

/-! ## Reading a literal -/

/-- The literal between blanks, as far as the options allow for them and for a literal without an offset. -/
structure DateTime.Spells (t : DateTime) (raw : Bytes) (allowNaive allowOuterSpace : Bool) : Prop where
  zone : allowNaive = false → t.zone ≠ .naive
  blanks : ∃ before after, Blank before ∧ Blank after ∧ (allowOuterSpace = false → before = [] ∧ after = []) ∧
    raw = before ++ (t.text ++ after)

theorem dropWhile_unspaced {p : Bytes} (h : isSpace (charAt p 0) = false) : p.dropWhile isSpace = p := by
  cases p with
  | nil => rfl
  | cons c p => exact List.dropWhile_cons_of_neg (by rw [← charAt_cons c p, h]; exact Bool.false_ne_true)

theorem takeWhile_blank (p : Bytes) : Blank (p.takeWhile isSpace) := fun _ hc => List.mem_takeWhile_imp hc

theorem blank_of_dropWhile {p : Bytes} (h : p.dropWhile isSpace = []) : Blank p :=
  fun c hc => List.dropWhile_eq_nil_iff.mp h c hc

/-- A blank text that does not begin with a blank is empty. -/
theorem Blank.eq_nil {p : Bytes} (h : Blank p) (h0 : isSpace (charAt p 0) = false) : p = [] := by
  cases p with
  | nil => rfl
  | cons c p => exact absurd (h0.symm.trans (h c List.mem_cons_self)) Bool.false_ne_true

theorem padded_front {w n : Nat} (hw : 0 < w) (h : n < 10 ^ w) (rest : Bytes) :
    isDigit (charAt (padded w n ++ rest) 0) = true := by
  have hlen := padded_length hw h
  have hds := padded_digits w n
  cases hp : padded w n with
  | nil =>
    rw [hp, List.length_nil] at hlen
    omega
  | cons c ds => exact hds c (by rw [hp]; exact List.mem_cons_self)

theorem value_dateTimeValue (t : DateTime) : dateTimeValue t.date.year t.date.month t.date.day t.hour t.minute t.second
    (nanosOf t.fraction) t.zone.seconds = t.value := by
  rw [dateTimeValue, DateTime.value, DateTime.seconds, DateTime.nanoseconds, daysFromCivil_number]
  congr 1
  omega

/-- What the cursor reads as a date-time is the writing of one. -/
theorem slow_some {raw : Bytes} {allowDateOnly allowNaive allowOuterSpace : Bool} {v : Temporal}
    (h : parseTemporalSlow raw allowDateOnly allowNaive allowOuterSpace = some v) (hv : v.dateOnly = false) :
    ∃ t : DateTime, t.Spells raw allowNaive allowOuterSpace ∧ v = t.value := by
  rw [parseTemporalSlow_eq, Option.ite_none_left_eq_some, Option.bind_eq_some_iff] at h
  obtain ⟨hstart, ⟨⟨y, mo, d⟩, p⟩, hdate, h⟩ := h
  rw [Option.ite_none_left_eq_some] at h
  obtain ⟨hmiddle, h⟩ := h
  obtain ⟨date, hyear, rfl, rfl, rfl, hraw⟩ := dateAt_iff.mp hdate
  dsimp only at h hmiddle
  cases hp : p.dropWhile isSpace with
  | nil =>
    rw [hp, restAt, Option.ite_none_right_eq_some] at h
    obtain ⟨-, hv'⟩ := h
    cases hv'
    cases hv
  | cons c q =>
    -- a blank behind the date has nothing but blanks behind it
    have hspace : isSpace (charAt p 0) = false := by
      cases hs : isSpace (charAt p 0) with
      | false => rfl
      | true =>
        rw [hs, hp, List.isEmpty_cons, Bool.and_false] at hmiddle
        exact absurd rfl hmiddle
    have hcq := (dropWhile_unspaced hspace).symm.trans hp
    rw [hp, restAt, Option.ite_none_left_eq_some, Decidable.not_not, Option.bind_eq_some_iff] at h
    obtain ⟨rfl, ⟨⟨hh, mi, s⟩, p1⟩, htime, h⟩ := h
    obtain ⟨⟨hh24, hmi60, hs60⟩, hq⟩ := timeAt_iff.mp htime
    obtain ⟨⟨n, p2⟩, (hnanos : nanosAt p1 = some (n, p2)), h⟩ := Option.bind_eq_some_iff.mp h
    obtain ⟨fraction, hdigits, hp1, rfl⟩ := nanosAt_some hnanos
    obtain ⟨⟨offset, p3⟩, (hzone : zoneAt allowNaive p2 = some (offset, p3)), h⟩ := Option.bind_eq_some_iff.mp h
    obtain ⟨zone, hnaive, hp2, rfl⟩ := zoneAt_some hzone
    simp only [Option.ite_none_left_eq_some, Option.some.injEq, Bool.not_eq_true', Bool.not_eq_false,
      List.isEmpty_iff] at h
    obtain ⟨hafter, hend, rfl⟩ := h
    refine ⟨⟨date, ⟨hh, hh24⟩, ⟨mi, hmi60⟩, ⟨s, hs60⟩, fraction, zone, hyear, hdigits⟩, ⟨hnaive, ?_⟩,
      value_dateTimeValue ⟨date, ⟨hh, hh24⟩, ⟨mi, hmi60⟩, ⟨s, hs60⟩, fraction, zone, hyear, hdigits⟩⟩
    refine ⟨raw.takeWhile isSpace, p3, takeWhile_blank raw, blank_of_dropWhile hend, fun hno => ?_, ?_⟩
    · subst hno
      have hfirst : isSpace (charAt raw 0) = false := by simpa using hstart
      have hlast : isSpace (charAt p3 0) = false := by simpa using hafter
      refine ⟨?_, (blank_of_dropWhile hend).eq_nil hlast⟩
      cases raw with
      | nil => rfl
      | cons x raw => exact List.takeWhile_cons_of_neg (by rw [← charAt_cons x raw, hfirst]; exact Bool.false_ne_true)
    · have hsplit : raw.takeWhile isSpace ++ raw.dropWhile isSpace = raw := List.takeWhile_append_dropWhile
      rw [hraw, hcq, hq, hp1, hp2] at hsplit
      refine hsplit.symm.trans ?_
      simp only [DateTime.text, List.append_assoc, List.cons_append]

theorem Zone.ends (zone : Zone) {rest : Bytes} (hr : Blank rest) : Ends (zone.text ++ rest) := by
  have hblank : ∀ c, isSpace c = true → isDigit c = false ∧ c ≠ chDot := by
    intro c hc
    constructor
    · cases hd : isDigit c with
      | false => rfl
      | true => exact Bool.noConfusion (hc.symm.trans (isSpace_digit hd))
    · rintro rfl
      cases hc
  intro c hc
  cases zone with
  | naive =>
    cases rest with
    | nil => cases hc
    | cons x rest =>
      obtain rfl : x = c := Option.some.inj hc
      exact hblank x (hr x List.mem_cons_self)
  | utc =>
    obtain rfl : 0x5a = c := Option.some.inj hc
    decide
  | offset west h m =>
    obtain rfl : (if west then chMinus else chPlus) = c := Option.some.inj hc
    cases west <;> decide

/-- Where a date-time is written the cursor reads it. -/
theorem slow_text {t : DateTime} {raw : Bytes} {allowNaive allowOuterSpace : Bool}
    (h : t.Spells raw allowNaive allowOuterSpace) (allowDateOnly : Bool) :
    parseTemporalSlow raw allowDateOnly allowNaive allowOuterSpace = some t.value := by
  obtain ⟨before, after, hbefore, hafter, houter, rfl⟩ := h.blanks
  have hyear : t.date.year < 10 ^ 4 := Nat.lt_of_le_of_lt t.year_le (by decide)
  have hfront : isSpace (charAt (t.text ++ after) 0) = false := by
    rw [DateTime.text, List.append_assoc]
    exact isSpace_digit (padded_front (by decide) hyear _)
  have hstart : ¬ (!allowOuterSpace && isSpace (charAt (before ++ (t.text ++ after)) 0)) = true := by
    cases allowOuterSpace with
    | true => exact Bool.false_ne_true
    | false =>
      rw [(houter rfl).1, List.nil_append, hfront]
      exact Bool.false_ne_true
  have hdrop : (before ++ (t.text ++ after)).dropWhile isSpace = t.text ++ after := by
    rw [List.dropWhile_append_of_pos hbefore, dropWhile_unspaced hfront]
  obtain ⟨time, htime⟩ : ∃ time, time = padded 2 t.hour ++ chColon :: (padded 2 t.minute ++ chColon ::
      (padded 2 t.second ++ (fractionText t.fraction ++ (t.zone.text ++ after)))) := ⟨_, rfl⟩
  have hdate : dateAt (t.text ++ after) = some ((t.date.year, t.date.month, t.date.day), 0x54 :: time) :=
    dateAt_iff.mpr ⟨t.date, t.year_le, rfl, rfl, rfl, by
      simp only [htime, DateTime.text, List.append_assoc, List.cons_append]⟩
  replace htime := timeAt_iff.mpr ⟨⟨t.hour.isLt, t.minute.isLt, t.second.isLt⟩, htime⟩
  have hend : isSpace (charAt after 0) = true → allowOuterSpace = true := by
    intro hs
    cases allowOuterSpace with
    | true => rfl
    | false =>
      rw [(houter rfl).2] at hs
      cases hs
  have hT : isSpace (charAt (0x54 :: time) 0) = false := rfl
  rw [parseTemporalSlow_eq, if_neg hstart, hdrop, hdate, Option.bind_some]
  dsimp only
  rw [hT, Bool.false_and, if_neg Bool.false_ne_true, dropWhile_unspaced hT, restAt, if_neg (fun hne => hne rfl), htime, Option.bind_some,
    nanosAt_text t.digits (t.zone.ends hafter), Option.bind_some, zoneAt_text h.zone hafter, Option.bind_some,
    if_neg, if_neg]
  · exact congrArg some (value_dateTimeValue t)
  · rw [List.dropWhile_eq_nil_iff.mpr hafter]
    exact Bool.false_ne_true
  · intro hb
    obtain ⟨hno, hs⟩ := Bool.and_eq_true_iff.mp hb
    rw [hend hs] at hno
    cases hno

/-- **The parser takes the writings of date-times**, and nothing else for one, and reads their values. -/
theorem parse_dateTime_iff (raw : Bytes) (allowDateOnly allowNaive allowOuterSpace : Bool) (v : Temporal) :
    (parseTemporalLiteralWithOptions (cstr raw) allowDateOnly allowNaive allowOuterSpace = some v ∧ v.dateOnly = false) ↔
      ∃ t : DateTime, t.Spells (cstr raw) allowNaive allowOuterSpace ∧ v = t.value := by
  have hslow : parseTemporalLiteralWithOptions (cstr raw) allowDateOnly allowNaive allowOuterSpace =
      parseTemporalSlow (cstr raw) allowDateOnly allowNaive allowOuterSpace := by
    rw [parseTemporalLiteralWithOptions]
    cases hfast : parseTemporalFast (cstr raw) allowDateOnly allowNaive with
    | none => rfl
    | some t => exact (fast_slow (cstr_no_nul raw) hfast allowOuterSpace).symm
  rw [hslow]
  constructor
  · rintro ⟨h, hv⟩
    exact slow_some h hv
  · rintro ⟨t, ht, rfl⟩
    exact ⟨slow_text ht allowDateOnly, rfl⟩

end Lql.Temporal
