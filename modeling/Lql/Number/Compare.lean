import Lql.Basic

/-!
# Comparing JSON numbers as texts

`lql_number.c`: two JSON number tokens are compared without converting either to
a machine number. Plain integers are compared by length and digits. Everything
else is split into sign, coefficient and exponent; the decimal point positions
are added to the exponents digit by digit, and only when these adjusted exponents
agree are the coefficients compared.
-/

namespace Lql.Number

/-- The sign of `memcmp` on two byte strings of equal length. -/
def memcmp : Bytes → Bytes → Int
  | a :: as, b :: bs => if a < b then -1 else if b < a then 1 else memcmp as bs
  | _, _ => 0

/-- `lql_number_clamp_add` and `lql_json_clamp_add_long`: saturating addition. -/
def clampAdd (left right : Int) : Int :=
  if right > 0 ∧ left > longMax - right then longMax
  else if right < 0 ∧ left < longMin - right then longMin
  else left + right

/-- `lql_number_size_to_long` -/
def sizeToLong (value : Nat) : Int := if (value : Int) > longMax then longMax else value

/-- The digits at the front of a text and what follows them. -/
def spanDigits (p : Bytes) : Bytes × Bytes := (p.takeWhile isDigit, p.dropWhile isDigit)

/-- `lql_number_decimal`, with the pointers into the text as texts. -/
structure Decimal where
  integer : Bytes
  fraction : Bytes
  exponent : Bytes
  leadingSkip : Nat
  coeffLen : Nat
  decimalAdjust : Int
  exponentNegative : Bool
  negative : Bool
  zero : Bool
  deriving DecidableEq, Repr

/-- `lql_number_digit_at` -/
def digitAt (n : Decimal) (index : Nat) : UInt8 :=
  (n.integer ++ n.fraction).getD (n.leadingSkip + index) chZero

/-- `lql_number_parse_exponent`: whether the exponent is negative, its digits
without leading zeros, and the rest of the text. -/
def parseExponent (p : Bytes) : Option (Bool × Bytes × Bytes) :=
  match p with
  | [] => some (false, [], [])
  | c :: rest =>
    if c = chLowerE ∨ c = chUpperE then
      let negative := rest.head? = some chMinus
      let digits := if rest.head? = some chPlus ∨ rest.head? = some chMinus then rest.tail else rest
      let (all, rest') := spanDigits digits
      if all = [] then none
      else
        let stripped := all.dropWhile (· = chZero)
        some (if stripped = [] then false else negative, stripped, rest')
    else some (false, [], c :: rest)

/-- The integer part of a JSON number: `0`, or a digit from 1 to 9 and more. -/
def parseInteger (p : Bytes) : Option (Bytes × Bytes) :=
  match p with
  | [] => none
  | c :: rest =>
    if c = chZero then
      match rest with
      | d :: _ => if isDigit d then none else some ([c], rest)
      | [] => some ([c], rest)
    else if isDigit19 c then some (c :: rest.takeWhile isDigit, rest.dropWhile isDigit)
    else none

/-- The fraction of a JSON number, empty when there is no point. -/
def parseFraction (p : Bytes) : Option (Bytes × Bytes) :=
  match p with
  | [] => some ([], [])
  | c :: rest =>
    if c = chDot then
      let (digits, rest') := spanDigits rest
      if digits = [] then none else some (digits, rest')
    else some ([], c :: rest)

/-- The fields of `lql_number_decimal` from the parts of the text. -/
def mkDecimal (negative : Bool) (integer fraction : Bytes) (exponentNegative : Bool)
    (exponent : Bytes) : Decimal :=
  let digits := integer ++ fraction
  let total := digits.length
  let firstNonzero := (digits.takeWhile (· = chZero)).length
  if firstNonzero = total then
    { integer, fraction, exponent := [], leadingSkip := 0, coeffLen := 0, decimalAdjust := 0
      exponentNegative := false, negative := false, zero := true }
  else
    let trailing := (digits.reverse.takeWhile (· = chZero)).length
    let coeffLen := total - trailing - firstNonzero
    { integer, fraction, exponent, leadingSkip := firstNonzero, coeffLen
      decimalAdjust := clampAdd (clampAdd (sizeToLong coeffLen) (-sizeToLong fraction.length))
        (sizeToLong trailing)
      exponentNegative, negative, zero := false }

/-- `lql_number_decimal_parse` -/
def decimalParse (text : Bytes) : Option Decimal := do
  let negative := text.head? = some chMinus
  let (integer, p) ← parseInteger (if negative then text.tail else text)
  let (fraction, p) ← parseFraction p
  let (exponentNegative, exponent, p) ← parseExponent p
  if p ≠ [] then none
  some (mkDecimal negative integer fraction exponentNegative exponent)

/-- `lql_number_is_json` -/
def isJson (text : Bytes) : Bool := (decimalParse text).isSome

/-- The digit loop of `lql_number_ulong_text` and `lql_json_ulong_to_decimal`,
lowest digit first. `tmp` holds 32 bytes. -/
def ulongDigitsRev : Nat → Nat → Bytes
  | 0, _ => []
  | fuel + 1, value =>
    digitChar (value % 10) :: if value / 10 = 0 then [] else ulongDigitsRev fuel (value / 10)

/-- `lql_number_ulong_text` and `lql_json_ulong_to_decimal` -/
def ulongText (value : Nat) : Bytes := (ulongDigitsRev 32 value).reverse

/-- `lql_number_compare_digits` -/
def compareDigits (left right : Bytes) : Int :=
  if left.length < right.length then -1
  else if left.length > right.length then 1
  else memcmp left right

/-- The carry loop of `lql_number_add_digits`: `n` digits, lowest first. -/
def addDigitsRev : Nat → Bytes → Bytes → Nat → Bytes
  | 0, _, _, _ => []
  | n + 1, left, right, carry =>
    let sum := carry + digitVal (left.headD chZero) + digitVal (right.headD chZero)
    digitChar (sum % 10) :: addDigitsRev n left.tail right.tail (sum / 10)

/-- The borrow loop of `lql_number_sub_digits`: one digit per digit of `left`. -/
def subDigitsRev : Bytes → Bytes → Nat → Bytes
  | [], _, _ => []
  | l :: left, right, borrow =>
    let diff : Int := (digitVal l : Int) - borrow - digitVal (right.headD chZero)
    digitChar (if diff < 0 then diff + 10 else diff).toNat ::
      subDigitsRev left right.tail (if diff < 0 then 1 else 0)

/-- `while (digits[0] == '0' && digits[1] != '\0') ++digits;` -/
def stripZeros : Bytes → Bytes
  | [] => []
  | [c] => [c]
  | c :: d :: rest => if c = chZero then stripZeros (d :: rest) else c :: d :: rest

/-- `lql_number_add_digits` -/
def addDigits (left right : Bytes) (negative : Bool) : Bytes :=
  let digits := stripZeros
    (addDigitsRev (max left.length right.length + 1) left.reverse right.reverse 0).reverse
  if negative then chMinus :: digits else digits

/-- `lql_number_sub_digits` -/
def subDigits (left right : Bytes) (negative : Bool) : Bytes :=
  let digits := stripZeros (subDigitsRev left.reverse right.reverse 0).reverse
  if negative && digits ≠ [chZero] then chMinus :: digits else digits

/-- `lql_number_adjusted_exponent` -/
def adjustedExponent (n : Decimal) : Bytes :=
  let smallNegative := decide (n.decimalAdjust < 0)
  let smallMag := n.decimalAdjust.natAbs
  let smallDigits := ulongText smallMag
  let baseDigits := if n.exponent = [] then [chZero] else n.exponent
  let baseNegative := if n.exponent = [] then false else n.exponentNegative
  if baseDigits = [chZero] then addDigits [chZero] smallDigits smallNegative
  else if smallMag = 0 ∨ baseNegative = smallNegative then
    addDigits baseDigits smallDigits baseNegative
  else
    let cmp := compareDigits baseDigits smallDigits
    if cmp = 0 then subDigits [chZero] [chZero] false
    else if cmp > 0 then subDigits baseDigits smallDigits baseNegative
    else subDigits smallDigits baseDigits smallNegative

/-- `lql_number_compare_signed_decimal` -/
def compareSignedDecimal (left right : Bytes) : Int :=
  let leftNegative := left.head? = some chMinus
  let rightNegative := right.head? = some chMinus
  if leftNegative ≠ rightNegative then if leftNegative then -1 else 1
  else
    let cmp := compareDigits (if leftNegative then left.tail else left)
      (if rightNegative then right.tail else right)
    if leftNegative then -cmp else cmp

/-- The coefficient loop of `lql_number_compare_abs`: `n` digits from `i` on. -/
def compareCoeffs (left right : Decimal) : Nat → Nat → Int
  | 0, _ => 0
  | n + 1, i =>
    let a := if i < left.coeffLen then digitAt left i else chZero
    let b := if i < right.coeffLen then digitAt right i else chZero
    if a < b then -1 else if b < a then 1 else compareCoeffs left right n (i + 1)

/-- `lql_number_compare_abs` -/
def compareAbs (left right : Decimal) : Int :=
  let adjusted := compareSignedDecimal (adjustedExponent left) (adjustedExponent right)
  if adjusted < 0 then -1
  else if adjusted > 0 then 1
  else compareCoeffs left right (max left.coeffLen right.coeffLen) 0

/-- The common end of every comparison: signs and zeros first, then magnitudes. -/
def compareSigned (leftZero rightZero leftNegative rightNegative : Bool) (abs : Int) : Int :=
  if leftZero ∧ rightZero then 0
  else if leftZero ≠ rightZero then
    if leftZero then (if rightNegative then 1 else -1) else (if leftNegative then -1 else 1)
  else if leftNegative ≠ rightNegative then if leftNegative then -1 else 1
  else if leftNegative then -abs else abs

/-- `lql_number_plain_integer` and `lql_json_plain_integer_span`: the digits of an
integer token, its sign and whether it is zero. -/
def plainInteger (text : Bytes) : Option (Bytes × Bool × Bool) :=
  let negative := text.head? = some chMinus
  match if negative then text.tail else text with
  | [] => none
  | c :: rest =>
    if c = chZero then if rest = [] then some ([c], false, true) else none
    else if isDigit19 c && rest.all isDigit then some (c :: rest, negative, false)
    else none

/-- `lql_number_compare_plain_integer` and `lql_json_compare_plain_integers` -/
def comparePlainIntegers (left right : Bytes) : Option Int := do
  let (leftDigits, leftNegative, leftZero) ← plainInteger left
  let (rightDigits, rightNegative, rightZero) ← plainInteger right
  some (compareSigned leftZero rightZero leftNegative rightNegative
    (compareDigits leftDigits rightDigits))

/-- `lql_number_compare_json`, allocation failures apart. -/
def compareJson (left right : Bytes) : Option Int :=
  match comparePlainIntegers left right with
  | some cmp => some cmp
  | none => do
    let a ← decimalParse left
    let b ← decimalParse right
    some (compareSigned a.zero b.zero a.negative b.negative (compareAbs a b))

end Lql.Number
