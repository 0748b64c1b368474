import Lql.Basic

/-!
# Date and date-time literals

`lql_temporal.c`, as far as the scanner uses it: the literal parser, which tries
a fixed-offset fast path first and a cursor parser after it, and the two
comparisons.
-/

namespace Lql.Temporal

/-- `lql_temporal` -/
structure Temporal where
  seconds : Int
  nanoseconds : Nat
  year : Nat
  month : Nat
  day : Nat
  dateOnly : Bool
  deriving DecidableEq, Repr

/-- A C string: the bytes before the first NUL. -/
def cstr (raw : Bytes) : Bytes := raw.takeWhile (· ≠ 0)

/-- `p[k]` of a NUL-terminated string. -/
def charAt (p : Bytes) (k : Nat) : UInt8 := p.getD k 0

/-- `isspace` in the C locale. -/
def isSpace (c : UInt8) : Bool := c = 0x20 || (0x09 ≤ c && c ≤ 0x0d)

/-- `parse_ndigits` -/
def parseNDigits : Nat → Nat → Bytes → Option (Nat × Bytes)
  | 0, v, p => some (v, p)
  | n + 1, v, p =>
    match p with
    | [] => none
    | c :: rest => if isDigit c then parseNDigits n (v * 10 + digitVal c) rest else none

/-- `parse_2_at` -/
def parse2At (p : Bytes) (k : Nat) : Option Nat :=
  if isDigit (charAt p k) && isDigit (charAt p (k + 1)) then
    some (digitVal (charAt p k) * 10 + digitVal (charAt p (k + 1)))
  else none

/-- `parse_4_at` -/
def parse4At (p : Bytes) (k : Nat) : Option Nat :=
  if isDigit (charAt p k) && isDigit (charAt p (k + 1)) && isDigit (charAt p (k + 2)) &&
      isDigit (charAt p (k + 3)) then
    some (((digitVal (charAt p k) * 10 + digitVal (charAt p (k + 1))) * 10 +
      digitVal (charAt p (k + 2))) * 10 + digitVal (charAt p (k + 3)))
  else none

/-- `is_leap` -/
def isLeap (y : Nat) : Bool := (y % 4 = 0 && y % 100 ≠ 0) || y % 400 = 0

/-- `valid_ymd` -/
def validYmd (y m d : Nat) : Bool :=
  if m < 1 || m > 12 || d < 1 then false
  else
    let maxDay := [31, 28, 31, 30, 31, 30, 31, 31, 30, 31, 30, 31].getD (m - 1) 0
    d ≤ if m = 2 && isLeap y then 29 else maxDay

/-- `days_from_civil`. C division truncates towards zero. -/
def daysFromCivil (y m d : Nat) : Int :=
  let y' : Int := (y : Int) - if m ≤ 2 then 1 else 0
  let era : Int := (if y' ≥ 0 then y' else y' - 399).tdiv 400
  let yoe : Int := y' - era * 400
  let doy : Int := ((153 * ((m : Int) + if m > 2 then -3 else 9) + 2).tdiv 5) + d - 1
  let doe : Int := yoe * 365 + yoe / 4 - yoe / 100 + doy
  era * 146097 + doe - 719468

/-- The fraction loop: the digits it passes, nine of them kept. -/
def fractionLoop : Bytes → Nat → Nat → Nat × Nat × Bytes
  | [], nanos, digits => (nanos, digits, [])
  | c :: rest, nanos, digits =>
    if isDigit c then
      fractionLoop rest (if digits < 9 then nanos * 10 + digitVal c else nanos) (digits + 1)
    else (nanos, digits, c :: rest)

/-- The fraction of a second: digits read, then padded to nanoseconds. -/
def fraction (p : Bytes) : Option (Nat × Bytes) :=
  if isDigit (charAt p 0) then
    let (nanos, digits, rest) := fractionLoop p 0 0
    some (nanos * 10 ^ (9 - digits), rest)
  else none

/-- The value of a date without a time of day. -/
def dateValue (y mo d : Nat) : Temporal :=
  { seconds := daysFromCivil y mo d * 86400, nanoseconds := 0
    year := y, month := mo, day := d, dateOnly := true }

/-- The value of a date-time with its offset in seconds. -/
def dateTimeValue (y mo d h mi s nanos : Nat) (offset : Int) : Temporal :=
  { seconds := daysFromCivil y mo d * 86400 + ((h * 3600 + mi * 60 + s : Nat) - offset)
    nanoseconds := nanos, year := y, month := mo, day := d, dateOnly := false }

/-- `parse_temporal_fast` -/
def parseTemporalFast (raw : Bytes) (allowDateOnly allowNaive : Bool) : Option Temporal := do
  if raw.length ≠ 10 && raw.length < 19 then none
  let y ← parse4At raw 0
  if charAt raw 4 ≠ chMinus then none
  let mo ← parse2At raw 5
  if charAt raw 7 ≠ chMinus then none
  let d ← parse2At raw 8
  if !validYmd y mo d then none
  if charAt raw 10 = 0 then
    if allowDateOnly then some (dateValue y mo d) else none
  else
    if charAt raw 10 ≠ 0x54 then none
    let h ← parse2At raw 11
    if charAt raw 13 ≠ chColon then none
    let mi ← parse2At raw 14
    if charAt raw 16 ≠ chColon then none
    let s ← parse2At raw 17
    if h > 23 || mi > 59 || s > 59 then none
    let p := raw.drop 19
    let (nanos, p) ← if charAt p 0 = chDot then fraction (p.drop 1) else some (0, p)
    let (offset, p) ←
      if charAt p 0 = 0x5a then some ((0 : Int), p.drop 1)
      else if charAt p 0 = chPlus || charAt p 0 = chMinus then do
        let q := p.drop 1
        if q.length < 5 then none
        let offH ← parse2At q 0
        if charAt q 2 ≠ chColon then none
        let offM ← parse2At q 3
        if offH > 23 || offM > 59 then none
        let mag : Int := (offH * 3600 + offM * 60 : Nat)
        some (if charAt p 0 = chMinus then -mag else mag, q.drop 5)
      else if allowNaive then some (0, p)
      else none
    if charAt p 0 ≠ 0 then none
    some (dateTimeValue y mo d h mi s nanos offset)

/-- `*p++ != c` of the cursor parser: the cursor after an expected character. -/
def expectChar (c : UInt8) : Bytes → Option Bytes
  | [] => none
  | x :: rest => if x = c then some rest else none

/-- `parse_temporal_literal_with_options` after the fast path has failed. -/
def parseTemporalSlow (raw : Bytes) (allowDateOnly allowNaive allowOuterSpace : Bool) :
    Option Temporal := do
  if !allowOuterSpace && isSpace (charAt raw 0) then none
  let (y, p) ← parseNDigits 4 0 (raw.dropWhile isSpace)
  let p ← expectChar chMinus p
  let (mo, p) ← parseNDigits 2 0 p
  let p ← expectChar chMinus p
  let (d, p) ← parseNDigits 2 0 p
  if !validYmd y mo d then none
  if isSpace (charAt p 0) && !(allowOuterSpace && (p.dropWhile isSpace).isEmpty) then none
  let p := p.dropWhile isSpace
  match p with
  | [] => if allowDateOnly then some (dateValue y mo d) else none
  | c :: p =>
    if c ≠ 0x54 then none
    let (h, p) ← parseNDigits 2 0 p
    let p ← expectChar chColon p
    let (mi, p) ← parseNDigits 2 0 p
    let p ← expectChar chColon p
    let (s, p) ← parseNDigits 2 0 p
    if h > 23 || mi > 59 || s > 59 then none
    let (nanos, p) ← if charAt p 0 = chDot then fraction (p.drop 1) else some (0, p)
    let (offset, p) ←
      if charAt p 0 = 0x5a then some ((0 : Int), p.drop 1)
      else if charAt p 0 = chPlus || charAt p 0 = chMinus then do
        let (offH, q) ← parseNDigits 2 0 (p.drop 1)
        let q ← expectChar chColon q
        let (offM, q) ← parseNDigits 2 0 q
        if offH > 23 || offM > 59 then none
        let mag : Int := (offH * 3600 + offM * 60 : Nat)
        some (if charAt p 0 = chMinus then -mag else mag, q)
      else if allowNaive then some (0, p)
      else none
    if !allowOuterSpace && isSpace (charAt p 0) then none
    if !(p.dropWhile isSpace).isEmpty then none
    some (dateTimeValue y mo d h mi s nanos offset)

/-- `parse_temporal_literal_with_options` -/
def parseTemporalLiteralWithOptions (raw : Bytes)
    (allowDateOnly allowNaive allowOuterSpace : Bool) : Option Temporal :=
  match parseTemporalFast raw allowDateOnly allowNaive with
  | some t => some t
  | none => parseTemporalSlow raw allowDateOnly allowNaive allowOuterSpace

/-- `lql_parse_temporal_literal` on a NUL-terminated text. -/
def parseTemporalLiteral (raw : Bytes) : Option Temporal :=
  parseTemporalLiteralWithOptions (cstr raw) true true true

/-- `lql_temporal_compare` -/
def temporalCompare (left right : Temporal) : Int :=
  if left.seconds < right.seconds then -1
  else if left.seconds > right.seconds then 1
  else if left.nanoseconds < right.nanoseconds then -1
  else if left.nanoseconds > right.nanoseconds then 1
  else 0

/-- `lql_temporal_equal`: a date without a time compares as a calendar date. -/
def temporalEqual (left right : Temporal) : Bool :=
  if left.dateOnly || right.dateOnly then
    left.year = right.year && left.month = right.month && left.day = right.day
  else temporalCompare left right = 0

end Lql.Temporal
