import Mathlib.Tactic.NormNum
import Lql.Number.Digits
import Lql.Temporal.Civil

/-!
# Writing a date-time

`lql_temporal_format_rfc3339_nano` writes a value as a UTC date-time, with as many digits of the fraction as it needs.
Numbers are written with `%0*d`; such a writing is the one string of digits of its length and value.
-/

namespace Lql.Temporal

open Number (Digits natOf natOf_nil natOf_append natOf_cons natOf_lt natOf_zeros digits_zeros digitVal_lt)

/-- The whole days of a time and the seconds left, a negative remainder carried over. -/
def daysOf (seconds : Int) : Int × Int :=
  let days := seconds.tdiv 86400
  let rem := seconds.tmod 86400
  if rem < 0 then (days - 1, rem + 86400) else (days, rem)

/-- `temporal_from_seconds`, for `lql_temporal_from_time_t` -/
def temporalFromTimeT (seconds : Int) (dateOnly : Bool) : Option Temporal := do
  let days := (daysOf seconds).1
  let (y, m, d) ← civilFromDays days
  some { seconds := if dateOnly then days * 86400 else seconds, nanoseconds := 0, year := y, month := m, day := d
         dateOnly := dateOnly }

/-- `%0*d` -/
def padded (width n : Nat) : Bytes :=
  let digits := (Nat.toDigits 10 n).map fun c => UInt8.ofNat c.toNat
  List.replicate (width - digits.length) chZero ++ digits

/-- The fraction as it is written: nine digits less the zeros at their end. -/
def fractionDigits (nanoseconds : Nat) : Bytes := ((padded 9 nanoseconds).reverse.dropWhile (· = chZero)).reverse

/-- `lql_temporal_format_rfc3339_nano` into a buffer of `bufLen` bytes: the text, without its final NUL. -/
def formatRfc3339Nano (t : Temporal) (bufLen : Nat) : Option Bytes :=
  if bufLen < 31 || t.dateOnly || t.nanoseconds > 999999999 then none
  else
    let (days, rem) := daysOf t.seconds
    (civilFromDays days).map fun (y, m, d) =>
      let h := (rem / 3600).toNat
      let mi := (rem % 3600 / 60).toNat
      let s := (rem % 3600 % 60).toNat
      padded 4 y ++ [chMinus] ++ padded 2 m ++ [chMinus] ++ padded 2 d ++ [0x54] ++ padded 2 h ++ [chColon] ++
        padded 2 mi ++ [chColon] ++ padded 2 s ++
          (if t.nanoseconds = 0 then [] else chDot :: fractionDigits t.nanoseconds) ++ [0x5a]

theorem daysOf_eq (seconds : Int) : daysOf seconds = (seconds / 86400, seconds % 86400) := by
  have hdiv := Int.mul_tdiv_add_tmod seconds 86400
  have hlt := Int.tmod_lt_of_pos seconds (b := 86400) (by decide)
  have hgt := Int.lt_tmod_of_pos seconds (b := 86400) (by decide)
  rw [daysOf]
  split
  · rw [Prod.mk.injEq]
    omega
  · rw [Prod.mk.injEq]
    omega

/-! ## Strings of digits -/

theorem natOf_digit (c : UInt8) : natOf [c] = digitVal c := by
  rw [natOf_cons, natOf_nil, List.length_nil, Nat.pow_zero, Nat.mul_one, Nat.add_zero]

theorem digits_decimal (n : Nat) : Digits ((Nat.toDigits 10 n).map fun c => UInt8.ofNat c.toNat) ∧
    natOf ((Nat.toDigits 10 n).map fun c => UInt8.ofNat c.toNat) = n := by
  have hdigit : ∀ d < 10, isDigit (UInt8.ofNat (Nat.digitChar d).toNat) = true ∧
      digitVal (UInt8.ofNat (Nat.digitChar d).toNat) = d := by decide
  induction n using Nat.strongRecOn with
  | ind n ih =>
    rw [Nat.toDigits_eq_if (by decide)]
    split
    · next h =>
      obtain ⟨h1, h2⟩ := hdigit n h
      rw [List.map_singleton, natOf_digit]
      exact ⟨fun c hc => List.mem_singleton.mp hc ▸ h1, h2⟩
    · next h =>
      obtain ⟨h1, h2⟩ := hdigit (n % 10) (Nat.mod_lt _ (by decide))
      obtain ⟨i1, i2⟩ := ih (n / 10) (by omega)
      rw [List.map_append, List.map_singleton, natOf_append, i2, natOf_digit, h2]
      refine ⟨i1.append fun c hc => List.mem_singleton.mp hc ▸ h1, ?_⟩
      rw [List.length_singleton, Nat.pow_one]
      omega

/-- Digits of one length and one value are the same. -/
theorem digits_unique : ∀ {a b : Bytes}, Digits a → Digits b → a.length = b.length → natOf a = natOf b → a = b
  | [], [], _, _, _, _ => rfl
  | [], _ :: _, _, _, h, _ => nomatch h
  | _ :: _, [], _, _, h, _ => nomatch h
  | c :: a, d :: b, ha, hb, hlen, hval => by
    have hlen' : a.length = b.length := Nat.succ.inj hlen
    have h1 := natOf_lt ha.cons.2
    have h2 := natOf_lt hb.cons.2
    rw [natOf_cons, natOf_cons, hlen'] at hval
    rw [hlen'] at h1
    have hfirst : digitVal c = digitVal d := by
      have hc : (digitVal c * 10 ^ b.length + natOf a) / 10 ^ b.length = digitVal c := by
        rw [Nat.add_comm, Nat.add_mul_div_right _ _ (Nat.pos_of_neZero _), Nat.div_eq_of_lt h1, Nat.zero_add]
      have hd : (digitVal d * 10 ^ b.length + natOf b) / 10 ^ b.length = digitVal d := by
        rw [Nat.add_comm, Nat.add_mul_div_right _ _ (Nat.pos_of_neZero _), Nat.div_eq_of_lt h2, Nat.zero_add]
      rw [← hc, hval, hd]
    rw [hfirst] at hval
    have hrest := digits_unique ha.cons.2 hb.cons.2 hlen' (Nat.add_left_cancel hval)
    have hchar : c = d := by
      have hlt := mt (Number.digit_lt_iff ha.cons.1 hb.cons.1).mp (by omega)
      have hgt := mt (Number.digit_lt_iff hb.cons.1 ha.cons.1).mp (by omega)
      exact UInt8.le_antisymm (UInt8.not_lt.mp hgt) (UInt8.not_lt.mp hlt)
    rw [hchar, hrest]

theorem natOf_padding (n : Nat) (ds : Bytes) : natOf (List.replicate n chZero ++ ds) = natOf ds := by
  rw [natOf_append, natOf_zeros, Nat.zero_mul, Nat.zero_add]

theorem padded_digits (width n : Nat) : Digits (padded width n) := (digits_zeros _).append (digits_decimal n).1

theorem natOf_padded (width n : Nat) : natOf (padded width n) = n := by
  rw [padded, natOf_padding, (digits_decimal n).2]

theorem padded_length {width n : Nat} (hw : 0 < width) (h : n < 10 ^ width) : (padded width n).length = width := by
  have hle := (Nat.length_toDigits_le_iff (by decide) hw).mpr h
  rw [padded]
  rw [List.length_append, List.length_replicate, List.length_map]
  omega

/-- Digits are the padded writing of their number. -/
theorem padded_natOf {ds : Bytes} (hds : Digits ds) (hne : ds ≠ []) : padded ds.length (natOf ds) = ds :=
  digits_unique (padded_digits _ _) hds (padded_length (List.length_pos_iff.mpr hne) (natOf_lt hds))
    (natOf_padded _ _)

/-- The number of a day of the first ten thousand years needs four digits at most, its month and day two. -/
theorem fields_lt {y m d : Nat} {z : Int} (h : civilFromDays z = some (y, m, d)) :
    y < 10 ^ 4 ∧ m < 10 ^ 2 ∧ d < 10 ^ 2 := by
  obtain ⟨date, rfl, rfl, rfl, hy, -⟩ := (civilFromDays_iff z y m d).mp h
  have hm := date.month_le
  have hd := date.day_le
  have := Lib.Calendar.monthDays_le date.year date.month
  omega

end Lql.Temporal
