import Mathlib.Algebra.Group.Int.Defs
import Mathlib.Algebra.Group.Nat.Defs
import Mathlib.Algebra.GroupWithZero.Nat

/-!
# Bytes, characters and statuses

What every part of the library shares: texts are lists of bytes, and every call
that can fail ends with an `lql_status` and a message.
-/

namespace Lql

/-- A byte string. C strings are byte strings without their final NUL. -/
abbrev Bytes := List UInt8

abbrev chQuote : UInt8 := 0x22
abbrev chBackslash : UInt8 := 0x5c
abbrev chSlash : UInt8 := 0x2f
abbrev chLBrace : UInt8 := 0x7b
abbrev chRBrace : UInt8 := 0x7d
abbrev chLBracket : UInt8 := 0x5b
abbrev chRBracket : UInt8 := 0x5d
abbrev chColon : UInt8 := 0x3a
abbrev chComma : UInt8 := 0x2c
abbrev chMinus : UInt8 := 0x2d
abbrev chPlus : UInt8 := 0x2b
abbrev chDot : UInt8 := 0x2e
abbrev chTilde : UInt8 := 0x7e
abbrev chStar : UInt8 := 0x2a
abbrev chZero : UInt8 := 0x30
abbrev chOne : UInt8 := 0x31
abbrev chNine : UInt8 := 0x39
abbrev chLowerE : UInt8 := 0x65
abbrev chUpperE : UInt8 := 0x45
abbrev chSpace : UInt8 := 0x20
abbrev chTab : UInt8 := 0x09
abbrev chLF : UInt8 := 0x0a
abbrev chCR : UInt8 := 0x0d
abbrev chT : UInt8 := 0x74
abbrev chF : UInt8 := 0x66
abbrev chN : UInt8 := 0x6e
abbrev chU : UInt8 := 0x75

/-- `"true"` -/
def txtTrue : Bytes := [0x74, 0x72, 0x75, 0x65]

/-- `"false"` -/
def txtFalse : Bytes := [0x66, 0x61, 0x6c, 0x73, 0x65]

/-- `"null"` -/
def txtNull : Bytes := [0x6e, 0x75, 0x6c, 0x6c]

/-- `c >= '0' && c <= '9'` -/
def isDigit (c : UInt8) : Bool := chZero ≤ c && c ≤ chNine

/-- `c >= '1' && c <= '9'` -/
def isDigit19 (c : UInt8) : Bool := chOne ≤ c && c ≤ chNine

theorem isDigit_of_isDigit19 {c : UInt8} (h : isDigit19 c = true) : isDigit c = true := by
  simp only [isDigit19, isDigit, Bool.and_eq_true, decide_eq_true_eq, UInt8.le_iff_toNat_le] at *
  exact ⟨Nat.le_trans (by decide) h.1, h.2⟩

/-- `c - '0'` -/
def digitVal (c : UInt8) : Nat := c.toNat - 48

/-- The byte of a decimal digit: `'0' + d`. -/
def digitChar (d : Nat) : UInt8 := UInt8.ofNat (48 + d)

/-- `SIZE_MAX` and `ULONG_MAX` on a 64-bit target. -/
abbrev sizeMax : Nat := 2 ^ 64 - 1

/-- `LONG_MAX` -/
abbrev longMax : Int := 2 ^ 63 - 1

/-- `LONG_MIN` -/
abbrev longMin : Int := -2 ^ 63

/-- `lql_status` -/
inductive Status where
  | ok
  | invalidArgument
  | noMemory
  | parseError
  | jsonError
  | unsupported
  | stop
  | callbackError
  | ioError
  deriving DecidableEq, Repr

/-- A failed call: the status it returns and the message left in `lql_error`. -/
structure Err where
  status : Status
  message : String
  deriving DecidableEq, Repr

/-- `lql_json_error`: a JSON error with its message. -/
def Err.json (message : String) : Err := ⟨.jsonError, message⟩

end Lql
