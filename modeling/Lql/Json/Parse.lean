import Lql.Scan.Read
import Lql.Scan.Match

/-!
# JSON documents

The documents the scanner reads, and a parser that says which bytes are one. The
parser works on the whole remaining input at once, knows nothing about buffers,
terms or output, and has no nesting limit. A string is kept piece by piece, as it is
written and as the bytes it stands for.
-/

namespace Lql.Json

open Lql.Scan (isPlain isSpace isShortEscape shortEscapeByte hexValue leadInfo unicodeBytes)

/-- One piece of a string: a byte that stands for itself, or an escape or a longer
code point, with the bytes it is written as and the bytes it stands for. -/
inductive Piece where
  | plain (c : UInt8)
  | coded (raw text : Bytes)
  deriving DecidableEq, Repr

def Piece.raw : Piece → Bytes
  | .plain c => [c]
  | .coded raw _ => raw

def Piece.text : Piece → Bytes
  | .plain c => [c]
  | .coded _ text => text

/-- A string, between its quotes. -/
abbrev Str := List Piece

/-- The bytes a string is written as. -/
def Str.raw (s : Str) : Bytes := s.flatMap Piece.raw

/-- The bytes a string stands for. -/
def Str.text (s : Str) : Bytes := s.flatMap Piece.text

inductive Literal where
  | tt
  | ff
  | nul
  deriving DecidableEq, Repr

def Literal.text : Literal → Bytes
  | .tt => txtTrue
  | .ff => txtFalse
  | .nul => txtNull

mutual

/-- A JSON value. Numbers keep their token. -/
inductive Value where
  | obj (members : Members)
  | arr (elements : Elements)
  | str (s : Str)
  | num (token : Bytes)
  | lit (l : Literal)

/-- The members of an object, in order; a key may occur more than once. -/
inductive Members where
  | nil
  | cons (key : Str) (value : Value) (rest : Members)

/-- The elements of an array. -/
inductive Elements where
  | nil
  | cons (value : Value) (rest : Elements)

end

deriving instance DecidableEq for Value, Members, Elements

/-! ## Nesting -/

mutual

/-- Seen at depth `d`, no container of the value is opened at depth `limit` or below. -/
def Value.fits (limit : Nat) : Nat → Value → Bool
  | d, .obj members => d < limit && members.fits limit (d + 1)
  | d, .arr elements => d < limit && elements.fits limit (d + 1)
  | _, .str _ => true
  | _, .num _ => true
  | _, .lit _ => true

def Members.fits (limit : Nat) : Nat → Members → Bool
  | _, .nil => true
  | d, .cons _ value rest => value.fits limit d && rest.fits limit d

def Elements.fits (limit : Nat) : Nat → Elements → Bool
  | _, .nil => true
  | d, .cons value rest => value.fits limit d && rest.fits limit d

end

/-! ## The parser -/

/-- What is left to read, and whether no space has been skipped so far. -/
structure Flat where
  rest : Bytes
  compact : Bool := true
  deriving DecidableEq, Repr

/-- A parser: no answer is a syntax error. -/
abbrev P := StateT Flat Option

def peekP : P (Option UInt8) := fun f => some (f.rest.head?, f)

def takeP : P UInt8 := fun f =>
  match f.rest with
  | [] => none
  | c :: rest => some (c, { f with rest })

def expectP (expected : UInt8) : P Unit := do
  let c ← takeP
  if c ≠ expected then failure

/-- Spaces between tokens. They count against a compact document only when a token
follows. -/
def spaceP : P Unit := fun f =>
  let rest := f.rest.dropWhile isSpace
  some ((), { rest, compact := f.compact && (rest.isEmpty || rest.length = f.rest.length) })

def literalP : Bytes → P Unit
  | [] => return ()
  | c :: rest => do expectP c; literalP rest

/-! ### Strings -/

def hexP : Nat → Nat → Bytes → P (Nat × Bytes)
  | 0, value, raw => return (value, raw)
  | k + 1, value, raw => do
    let c ← takeP
    match hexValue c with
    | none => failure
    | some digit => hexP k (value * 16 + digit) (raw ++ [c])

/-- What may follow a backslash. -/
def escapeP : P Piece := do
  let next ← takeP
  if isShortEscape next then return .coded [chBackslash, next] [shortEscapeByte next]
  else if next ≠ chU then failure
  else
    let (unicode, raw) ← hexP 4 0 []
    if 0xdc00 ≤ unicode ∧ unicode ≤ 0xdfff then failure
    else if unicode < 0xd800 ∨ unicode > 0xdbff then
      return .coded ([chBackslash, next] ++ raw) (unicodeBytes unicode)
    else
      expectP chBackslash
      expectP chU
      let (low, lowRaw) ← hexP 4 0 []
      if low < 0xdc00 ∨ low > 0xdfff then failure
      else
        return .coded ([chBackslash, next] ++ raw ++ [chBackslash, chU] ++ lowRaw)
          (unicodeBytes (0x10000 + ((unicode - 0xd800) <<< 10) + (low - 0xdc00)))

def continuationP : Nat → UInt8 → UInt8 → P Bytes
  | 0, _, _ => return []
  | k + 1, lo, hi => do
    let c ← takeP
    if c < lo || hi < c then failure
    else
      let rest ← continuationP k 0x80 0xbf
      return c :: rest

/-- A piece of a string that starts with `c`, which is neither plain nor a quote. -/
def codedP (c : UInt8) : P Piece :=
  if c < 0x20 then failure
  else if c = chBackslash then escapeP
  else
    match leadInfo c with
    | none => failure
    | some (remaining, lo, hi) => do
      let rest ← continuationP remaining lo hi
      return .coded (c :: rest) (c :: rest)

/-- The pieces of a string up to its closing quote. -/
def piecesP : Nat → P Str
  | 0 => failure
  | fuel + 1 => do
    let c ← takeP
    if isPlain c then
      let rest ← piecesP fuel
      return .plain c :: rest
    else if c = chQuote then return []
    else
      let piece ← codedP c
      let rest ← piecesP fuel
      return piece :: rest

def stringP : P Str := do
  expectP chQuote
  piecesP ((← get).rest.length + 1)

/-! ### Numbers -/

/-- A run of digits that starts with `c`, already seen. -/
def digitsP : P Bytes := fun f =>
  some (f.rest.takeWhile isDigit, { f with rest := f.rest.dropWhile isDigit })

def integerP : P Bytes := do
  match ← peekP with
  | none => failure
  | some c =>
    if c = chZero then do let _ ← takeP; return [c]
    else if isDigit19 c then digitsP
    else failure

/-- At least one digit. -/
def digits1P : P Bytes := do
  match ← peekP with
  | none => failure
  | some c => if isDigit c then digitsP else failure

def fractionP : P Bytes := do
  if (← peekP) = some chDot then
    let _ ← takeP
    let digits ← digits1P
    return chDot :: digits
  else return []

def signP : P Bytes := do
  if (← peekP) = some chMinus then
    let _ ← takeP
    return [chMinus]
  else return []

def exponentSignP : P Bytes := do
  match ← peekP with
  | none => return []
  | some c =>
    if c = chPlus ∨ c = chMinus then do let _ ← takeP; return [c] else return []

def exponentP : P Bytes := do
  match ← peekP with
  | none => return []
  | some c =>
    if c = chLowerE ∨ c = chUpperE then
      let _ ← takeP
      let sign ← exponentSignP
      let digits ← digits1P
      return c :: (sign ++ digits)
    else return []

def numberP : P Bytes := do
  let sign ← signP
  let int ← integerP
  let fraction ← fractionP
  let exponent ← exponentP
  return sign ++ int ++ fraction ++ exponent

/-! ### Containers -/

/-- What follows the value of a member. -/
def memberEndP (membersP : P Members) (key : Str) (value : Value) : P Members := do
  spaceP
  let c ← takeP
  if c = chRBrace then return .cons key value .nil
  else if c ≠ chComma then failure
  else
    spaceP
    let rest ← membersP
    return .cons key value rest

def membersP (valueP : P Value) : Nat → P Members
  | 0 => failure
  | fuel + 1 => do
    let key ← stringP
    spaceP
    expectP chColon
    spaceP
    let value ← valueP
    memberEndP (membersP valueP fuel) key value

def objectP (valueP : P Value) (fuel : Nat) : P Value := do
  expectP chLBrace
  spaceP
  if (← peekP) = some chRBrace then
    let _ ← takeP
    return .obj .nil
  else
    let members ← membersP valueP fuel
    return .obj members

/-- What follows an element. -/
def elementEndP (elementsP : P Elements) (value : Value) : P Elements := do
  spaceP
  let c ← takeP
  if c = chRBracket then return .cons value .nil
  else if c ≠ chComma then failure
  else
    spaceP
    let rest ← elementsP
    return .cons value rest

def elementsP (valueP : P Value) : Nat → P Elements
  | 0 => failure
  | fuel + 1 => do
    let value ← valueP
    elementEndP (elementsP valueP fuel) value

def arrayP (valueP : P Value) (fuel : Nat) : P Value := do
  expectP chLBracket
  spaceP
  if (← peekP) = some chRBracket then
    let _ ← takeP
    return .arr .nil
  else
    let elements ← elementsP valueP fuel
    return .arr elements

def valueP : Nat → P Value
  | 0 => failure
  | fuel + 1 => do
    match ← peekP with
    | none => failure
    | some c =>
      if c = chLBrace then objectP (valueP fuel) fuel
      else if c = chLBracket then arrayP (valueP fuel) fuel
      else if c = chQuote then do let s ← stringP; return .str s
      else if c = chT then do literalP txtTrue; return .lit .tt
      else if c = chF then do literalP txtFalse; return .lit .ff
      else if c = chN then do literalP txtNull; return .lit .nul
      else do let token ← numberP; return .num token

/-- The document a byte string starts with, and what follows it. -/
def parse (bytes : Bytes) : Option (Value × Flat) := valueP (bytes.length + 1) { rest := bytes }

end Lql.Json
