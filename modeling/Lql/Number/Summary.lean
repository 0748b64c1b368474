import Lql.Number.Compare

/-!
# Comparing a number token that is too long to keep

A matched number token is kept in a buffer while it fits. A longer one is reduced
byte by byte to a summary (digit counts, the exponent as a saturating machine
integer and as a bounded text), while one cursor per literal walks the literal's
digits and records the first difference. The comparison then works on the two
summaries and on the recorded differences.
-/

namespace Lql.Number

/-- `LQL_JSON_NUMBER_EXP_PREFIX_BYTES` -/
abbrev expPrefixBytes : Nat := 1024

/-- `lql_json_number_summary`. The coefficient's stored digits are never read and
are left out. -/
structure Summary where
  exponentText : Bytes := []
  coeffLenRaw : Nat := 0
  exponentDigitCount : Nat := 0
  trailingZeroes : Nat := 0
  fractionDigits : Nat := 0
  exponent : Int := 0
  negative : Bool := false
  zero : Bool := false
  inFraction : Bool := false
  inExponent : Bool := false
  exponentSignAllowed : Bool := false
  exponentNegative : Bool := false
  exponentStarted : Bool := false
  exponentClamped : Bool := false
  deriving DecidableEq, Repr

/-- `LQL_JSON_NUMBER_EMIT_COEFF` and `LQL_JSON_NUMBER_EMIT_EXPONENT` -/
inductive EmitKind where
  | coeff
  | exponent
  deriving DecidableEq, Repr

/-- A digit a summary step hands to the cursors: which sequence it belongs to, its
index there and the digit. -/
structure Emit where
  kind : EmitKind
  index : Nat
  digit : UInt8
  deriving DecidableEq, Repr

/-- The exponent after one more digit, and whether it has stopped counting. -/
def exponentStep (exponent : Int) (clamped : Bool) (digit : Nat) : Int × Bool :=
  if clamped then (exponent, clamped)
  else if exponent > (longMax - digit).tdiv 10 then (longMax, true)
  else (exponent * 10 + digit, false)

/-- `lql_json_number_summary_digit` -/
def summaryDigit (s : Summary) (value : UInt8) : Summary × Option Emit :=
  if s.inExponent then
    if value = chZero ∧ !s.exponentStarted then (s, none)
    else
      let (exponent, clamped) := exponentStep s.exponent s.exponentClamped (digitVal value)
      ({ s with
          exponentDigitCount := s.exponentDigitCount + 1
          exponentStarted := true
          exponent := exponent
          exponentClamped := clamped
          exponentText := if s.exponentText.length < expPrefixBytes then s.exponentText ++ [value]
            else s.exponentText },
        some ⟨.exponent, s.exponentDigitCount, value⟩)
  else
    let s := if s.inFraction then { s with fractionDigits := s.fractionDigits + 1 } else s
    if value ≠ chZero ∨ s.coeffLenRaw ≠ 0 then
      ({ s with
          coeffLenRaw := s.coeffLenRaw + 1
          trailingZeroes := if value = chZero then s.trailingZeroes + 1 else 0 },
        some ⟨.coeff, s.coeffLenRaw, value⟩)
    else (s, none)

/-- `lql_json_number_summary_byte` -/
def summaryByte (s : Summary) (value : UInt8) : Summary × Option Emit :=
  if isDigit value then
    let (s', emitted) := summaryDigit s value
    ({ s' with exponentSignAllowed := false }, emitted)
  else if value = chMinus ∧ s.coeffLenRaw = 0 ∧ !s.inFraction ∧ !s.inExponent then
    ({ s with negative := true }, none)
  else if value = chDot then ({ s with inFraction := true }, none)
  else if value = chLowerE ∨ value = chUpperE then
    ({ s with inExponent := true, exponentSignAllowed := true }, none)
  else if s.inExponent ∧ s.exponentSignAllowed ∧ value = chMinus then
    ({ s with exponentNegative := true, exponentSignAllowed := false }, none)
  else if s.inExponent ∧ s.exponentSignAllowed ∧ value = chPlus then
    ({ s with exponentSignAllowed := false }, none)
  else (s, none)

/-- `lql_json_number_summary_finish` -/
def summaryFinish (s : Summary) : Summary :=
  if s.coeffLenRaw = 0 then
    { s with zero := true, negative := false, exponent := 0, exponentNegative := false }
  else if s.exponentNegative ∧ s.exponent ≠ longMax then { s with exponent := -s.exponent }
  else if s.exponentNegative then { s with exponent := longMin }
  else s

/-- The summary of a whole text: the byte loop of `lql_json_number_summary_parse`. -/
def summarize (text : Bytes) : Summary := text.foldl (fun s c => (summaryByte s c).1) {}

/-- `lql_json_number_summary_parse` -/
def summaryParse (text : Bytes) : Option Summary :=
  if isJson text then some (summaryFinish (summarize text)) else none

/-- `lql_json_number_summary_adjusted` -/
def summaryAdjusted (s : Summary) : Int :=
  if s.zero then 0
  else
    let adjust := sizeToLong (s.coeffLenRaw - s.trailingZeroes)
    let adjust := clampAdd adjust
      (if (s.fractionDigits : Int) > longMax then longMin else -s.fractionDigits)
    let adjust := clampAdd adjust (sizeToLong s.trailingZeroes)
    clampAdd adjust s.exponent

/-- `lql_json_number_summary_delta` -/
def summaryDelta (s : Summary) : Int :=
  clampAdd (sizeToLong s.coeffLenRaw)
    (if (s.fractionDigits : Int) > longMax then longMin else -s.fractionDigits)

/-- `lql_json_decimal_cmp` -/
def decimalCmp (left right : Bytes) : Int :=
  let left := stripZeros left
  let right := stripZeros right
  if left.length ≠ right.length then if left.length < right.length then -1 else 1
  else memcmp left right

/-- The loop of `lql_json_decimal_add_ulong`, lowest digit first. -/
def decimalAddRev : Nat → Bytes → Bytes → Nat → Bytes
  | 0, _, _, _ => []
  | fuel + 1, left, right, carry =>
    if left = [] ∧ right = [] ∧ carry = 0 then []
    else
      let sum := carry + digitVal (left.headD chZero) + digitVal (right.headD chZero)
      digitChar (sum % 10) :: decimalAddRev fuel left.tail right.tail (sum / 10)

/-- `lql_json_decimal_add_ulong` -/
def decimalAddUlong (digits : Bytes) (value : Nat) : Bytes :=
  let addend := ulongText value
  (decimalAddRev (max digits.length addend.length + 1) digits.reverse addend.reverse 0).reverse

/-- `lql_json_decimal_sub_ulong` -/
def decimalSubUlong (digits : Bytes) (value : Nat) : Bytes :=
  stripZeros (subDigitsRev digits.reverse (ulongText value).reverse 0).reverse

/-- `lql_json_number_summary_exponent_magnitude` -/
def exponentMagnitude (s : Summary) : Nat := s.exponent.natAbs

/-- `lql_json_number_summary_adjusted_decimal`: the adjusted exponent as a sign
and digits, unless the exponent has too many digits to have been kept. -/
def summaryAdjustedDecimal (s : Summary) : Option (Bool × Bytes) :=
  if s.exponentDigitCount > expPrefixBytes then none
  else
    let delta := summaryDelta s
    if delta = longMin then none
    else
      let deltaNegative := decide (delta < 0)
      let deltaMag := delta.natAbs
      if s.exponentDigitCount = 0 then some (deltaNegative && deltaMag ≠ 0, ulongText deltaMag)
      else if s.exponentNegative = deltaNegative then
        some (s.exponentNegative, decimalAddUlong s.exponentText deltaMag)
      else
        let deltaDigits := ulongText deltaMag
        let cmp := decimalCmp s.exponentText deltaDigits
        if cmp = 0 then some (false, [chZero])
        else if !s.exponentNegative then
          if cmp > 0 then some (false, decimalSubUlong s.exponentText deltaMag)
          else some (true, decimalSubUlong deltaDigits s.exponent.toNat)
        else if cmp > 0 then some (true, decimalSubUlong s.exponentText deltaMag)
        else some (false, decimalSubUlong deltaDigits (exponentMagnitude s))

/-- `lql_json_number_summary_compare_adjusted_decimal` -/
def compareAdjustedDecimal (left right : Summary) : Option Int := do
  let (leftNegative, leftDigits) ← summaryAdjustedDecimal left
  let (rightNegative, rightDigits) ← summaryAdjustedDecimal right
  if leftNegative ≠ rightNegative then some (if leftNegative then -1 else 1)
  else
    let cmp := decimalCmp leftDigits rightDigits
    some (if leftNegative then -cmp else cmp)

/-- `lql_json_number_summary_compare_clamped_adjusted` -/
def compareClampedAdjusted (left right : Summary) (expCmp : Int) : Option Int :=
  if !left.exponentClamped ∧ !right.exponentClamped then none
  else
    match compareAdjustedDecimal left right with
    | some cmp => some cmp
    | none =>
      if left.exponentNegative ≠ right.exponentNegative then
        some (if left.exponentNegative then -1 else 1)
      else if left.exponentNegative ∧ left.exponentDigitCount + 1 < right.exponentDigitCount then
        some 1
      else if left.exponentNegative ∧ right.exponentDigitCount + 1 < left.exponentDigitCount then
        some (-1)
      else
        let cmp : Int :=
          if left.exponentDigitCount ≠ right.exponentDigitCount then
            if left.exponentDigitCount < right.exponentDigitCount then -1 else 1
          else if expCmp ≠ 0 then expCmp
          else if summaryDelta left < summaryDelta right then -1
          else if summaryDelta left > summaryDelta right then 1
          else 0
        some (if left.exponentNegative then -cmp else cmp)

/-- `lql_json_number_summary_compare_with_coeff_cmp` -/
def compareWithCoeffCmp (left right : Summary) (coeffCmp expCmp : Int) : Int :=
  if left.zero ∧ right.zero then 0
  else if left.zero ≠ right.zero then
    if left.zero then (if right.negative then 1 else -1) else (if left.negative then -1 else 1)
  else if left.negative ≠ right.negative then if left.negative then -1 else 1
  else
    match compareClampedAdjusted left right expCmp with
    | some cmp => if left.negative then -cmp else cmp
    | none =>
      let leftAdjusted := summaryAdjusted left
      let rightAdjusted := summaryAdjusted right
      if leftAdjusted ≠ rightAdjusted then
        let cmp : Int := if leftAdjusted < rightAdjusted then -1 else 1
        if left.negative then -cmp else cmp
      else if coeffCmp ≠ 0 then if left.negative then -coeffCmp else coeffCmp
      else if left.coeffLenRaw < right.coeffLenRaw ∧
          right.coeffLenRaw - right.trailingZeroes > left.coeffLenRaw then
        if left.negative then 1 else -1
      else 0

/-- `lql_json_number_digit_cursor`, with the unread text in place of `pos`. -/
structure Cursor where
  rest : Bytes
  index : Nat := 0
  started : Bool := false
  done : Bool := false
  inExponent : Bool := false
  signAllowed : Bool := false
  deriving DecidableEq, Repr

/-- The loop of `lql_json_number_coeff_digit_next`: the coefficient digit at
`index`, `none` when the text has no more of them. -/
def coeffDigitLoop (index : Nat) : Bytes → Cursor → Cursor × Option UInt8
  | [], c => ({ c with rest := [] }, none)
  | ch :: rest, c =>
    if ch = chLowerE ∨ ch = chUpperE then ({ c with rest := rest }, none)
    else if !isDigit ch then coeffDigitLoop index rest c
    else if !c.started ∧ ch = chZero then coeffDigitLoop index rest c
    else if c.index = index then
      ({ c with rest := rest, started := true, index := c.index + 1 }, some ch)
    else coeffDigitLoop index rest { c with started := true, index := c.index + 1 }

/-- The loop of `lql_json_number_exponent_digit_next`. -/
def exponentDigitLoop (index : Nat) : Bytes → Cursor → Cursor × Option UInt8
  | [], c => ({ c with rest := [] }, none)
  | ch :: rest, c =>
    if !c.inExponent then
      exponentDigitLoop index rest
        (if ch = chLowerE ∨ ch = chUpperE then { c with inExponent := true, signAllowed := true }
        else c)
    else if c.signAllowed ∧ (ch = chPlus ∨ ch = chMinus) then
      exponentDigitLoop index rest { c with signAllowed := false }
    else
      let c := { c with signAllowed := false }
      if !isDigit ch then ({ c with rest := rest }, none)
      else if !c.started ∧ ch = chZero then exponentDigitLoop index rest c
      else if c.index = index then
        ({ c with rest := rest, started := true, index := c.index + 1 }, some ch)
      else exponentDigitLoop index rest { c with started := true, index := c.index + 1 }

/-- The end of both cursor functions: past the last digit the answer is `'0'`. -/
def cursorResult (index : Nat) : Cursor × Option UInt8 → Cursor × Option UInt8
  | (c, some ch) => (c, some ch)
  | (c, none) =>
    if index ≥ c.index then ({ c with done := true, index := index + 1 }, some chZero)
    else ({ c with done := true }, none)

/-- `lql_json_number_coeff_digit_next` -/
def coeffDigitNext (c : Cursor) (index : Nat) : Cursor × Option UInt8 :=
  if c.done then ({ c with index := index + 1 }, some chZero)
  else cursorResult index (coeffDigitLoop index c.rest c)

/-- `lql_json_number_exponent_digit_next` -/
def exponentDigitNext (c : Cursor) (index : Nat) : Cursor × Option UInt8 :=
  if c.done then ({ c with index := index + 1 }, some chZero)
  else cursorResult index (exponentDigitLoop index c.rest c)

/-- The recorded differences of one literal against the token: the coefficient and
exponent slots with their cursors. -/
structure Track where
  coeffCmp : Int := 0
  expCmp : Int := 0
  coeffCursor : Cursor
  expCursor : Cursor
  deriving DecidableEq, Repr

/-- A fresh tracker on a literal's text. -/
def trackStart (text : Bytes) : Track := { coeffCursor := ⟨text, 0, false, false, false, false⟩
                                           expCursor := ⟨text, 0, false, false, false, false⟩ }

/-- The slot after one pair of digits. -/
def slotOf (digit : UInt8) : Option UInt8 → Int
  | none => 0
  | some other => if digit = other then 0 else if digit < other then -1 else 1

/-- `lql_json_number_track_one_cmp` and `lql_json_number_track_one_exp_cmp` -/
def trackDigit (t : Track) (e : Emit) : Track :=
  match e.kind with
  | .coeff =>
    if t.coeffCmp ≠ 0 then t
    else
      let (cursor, other) := coeffDigitNext t.coeffCursor e.index
      { t with coeffCursor := cursor, coeffCmp := slotOf e.digit other }
  | .exponent =>
    if t.expCmp ≠ 0 then t
    else
      let (cursor, other) := exponentDigitNext t.expCursor e.index
      { t with expCursor := cursor, expCmp := slotOf e.digit other }

/-- `lql_json_number_overflow_integer_cmp` -/
def overflowIntegerCmp (left : Summary) (track : Track) (right : Bytes) : Option Int :=
  (summaryParse right).map fun r =>
    compareWithCoeffCmp (summaryFinish left) r track.coeffCmp track.expCmp

end Lql.Number
