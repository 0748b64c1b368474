import Lql.Scan.State

/-!
# Reading and skipping

The reading primitives of the scanner, and the structural skipper: it validates a
value and moves past it without comparing or copying anything. Everything here
touches the tape only.

A loop of the source is a recursion on a fuel that no input can use up: every
round takes at least one byte, and the fuel starts above the number of bytes to
come.
-/

namespace Lql.Scan

/-- `lql_json_refill` -/
def refill : TapeM Unit := fun t =>
  match t.input.refill with
  | .ok input => .ok () { t with input }
  | .error e => .error e t

/-- `lql_json_peek`; the end of the input is `none`. -/
def peek : TapeM (Option UInt8) := do
  refill
  return (← get).input.buffer.head?

/-- `++scan->offset` -/
def advance : TapeM Unit := modify fun t => { t with input := t.input.advance }

/-- `lql_json_take` -/
def take : TapeM UInt8 := do
  match ← peek with
  | none => jsonError "unexpected end of JSON input"
  | some c => advance; return c

/-- `lql_json_take_expected` -/
def takeExpected (expected : UInt8) : TapeM Unit := do
  let c ← take
  if c ≠ expected then jsonError "invalid JSON token"

/-- A loop that has used up its fuel. -/
def outOfFuel {σ α : Type} : EStateM Err σ α := jsonError "out of fuel"

/-- The bytes `lql_json_skip_space` skips. -/
def isSpace (c : UInt8) : Bool := c = chSpace || c = chTab || c = chCR || c = chLF

/-- The loop of `lql_json_skip_space`. -/
def skipSpaceLoop : Nat → Bool → TapeM Unit
  | 0, _ => outOfFuel
  | fuel + 1, skipped => do
    match ← peek with
    | none => return ()
    | some c =>
      if isSpace c then do advance; skipSpaceLoop fuel true
      else if skipped then
        modify fun t => if t.compactRangeActive then { t with compactRangeOk := false } else t

/-- `lql_json_skip_space` -/
def skipSpace : TapeM Unit := do skipSpaceLoop ((← get).input.size + 1) false

/-! ## Copying -/

/-- The loop of `lql_json_write` over a full buffer. -/
def writeLoop : Nat → Bytes → Tape → Tape
  | 0, _, t => t
  | fuel + 1, data, t =>
    if data = [] then t
    else
      let t := if t.emit.length = emitBufferSize then
        { t with spool := t.spool ++ t.emit, emit := [] } else t
      let amount := min (emitBufferSize - t.emit.length) data.length
      writeLoop fuel (data.drop amount) { t with emit := t.emit ++ data.take amount }

/-- `lql_json_write` with `lql_json_spool_write` behind it. -/
def write (capture : Bool) (data : Bytes) : TapeM Unit :=
  modify fun t => if capture then writeLoop data.length data t else t

/-- `lql_json_copy_byte` and `lql_json_write_byte` -/
def copyByte (capture : Bool) (c : UInt8) : TapeM Unit :=
  modify fun t =>
    if !capture then t
    else if t.emit.length = emitBufferSize then { t with spool := t.spool ++ t.emit, emit := [c] }
    else { t with emit := t.emit ++ [c] }

/-- `lql_json_flush` -/
def flush (capture : Bool) : TapeM Unit :=
  modify fun t =>
    if t.emit = [] ∨ !capture then { t with emit := [] }
    else { t with spool := t.spool ++ t.emit, emit := [] }

/-- `lql_json_output_offset` -/
def outputOffset (t : Tape) : Nat := t.spool.length + t.emit.length

/-! ## Runs of plain bytes -/

/-- A byte that a string holds as it is: not a quote, not a backslash, not a control
byte and not the start of a longer code point. -/
def isPlain (c : UInt8) : Bool := c ≠ chQuote && c ≠ chBackslash && 0x20 ≤ c && c < 0x80

/-- Eight bytes as a word, the first one lowest. -/
def loadWord : Bytes → BitVec 64
  | [] => 0
  | c :: rest => BitVec.ofNat 64 c.toNat ||| (loadWord rest <<< 8)

/-- `ones = ~0ul / 255ul` -/
abbrev wordOnes : BitVec 64 := 0x0101010101010101

/-- `high = ones * 128ul` -/
abbrev wordHigh : BitVec 64 := 0x8080808080808080

/-- `lql_json_word_has_zero_byte` -/
def wordHasZeroByte (value : BitVec 64) : Bool :=
  (value - wordOnes) &&& ~~~value &&& wordHigh ≠ 0

/-- The word test of `lql_json_plain_ascii_span`. -/
def wordHasSpecial (word : BitVec 64) : Bool :=
  word &&& wordHigh ≠ 0 || ~~~(word + wordOnes * 96) &&& wordHigh ≠ 0 ||
    wordHasZeroByte (word ^^^ (wordOnes * 0x22)) || wordHasZeroByte (word ^^^ (wordOnes * 0x5c))

/-- The word loop of `lql_json_plain_ascii_span`: the bytes it passes over. -/
def plainWords : Nat → Bytes → Nat
  | 0, _ => 0
  | fuel + 1, data =>
    if data.length ≥ 8 ∧ !wordHasSpecial (loadWord (data.take 8)) then
      8 + plainWords fuel (data.drop 8)
    else 0

/-- `lql_json_plain_key_span`, and the byte loops of `lql_json_plain_ascii_span`. -/
def plainKeySpan : Bytes → Nat
  | [] => 0
  | c :: data => if isPlain c then plainKeySpan data + 1 else 0

/-- `lql_json_plain_ascii_span` -/
def plainAsciiSpan (data : Bytes) : Nat :=
  let offset := plainWords data.length data
  offset + plainKeySpan (data.drop offset)

/-! ## Escapes -/

/-- `lql_json_hex_value` -/
def hexValue (c : UInt8) : Option Nat :=
  if isDigit c then some (c.toNat - 48)
  else if 0x61 ≤ c && c ≤ 0x66 then some (c.toNat - 0x61 + 10)
  else if 0x41 ≤ c && c ≤ 0x46 then some (c.toNat - 0x41 + 10)
  else none

/-- The loop of `lql_json_take_hex4`. -/
def takeHexLoop : Nat → Nat → Bytes → TapeM (Nat × Bytes)
  | 0, value, raw => return (value, raw)
  | k + 1, value, raw => do
    let c ← take
    match hexValue c with
    | none => jsonError "invalid JSON Unicode escape"
    | some digit => takeHexLoop k (value * 16 + digit) (raw ++ [c])

/-- `lql_json_take_hex4` -/
def takeHex4 : TapeM (Nat × Bytes) := takeHexLoop 4 0 []

/-- The letters that may follow a backslash, `u` apart. -/
def isShortEscape (c : UInt8) : Bool :=
  c = chQuote || c = chBackslash || c = chSlash || c = 0x62 || c = 0x66 || c = 0x6e || c = 0x72 ||
    c = 0x74

/-- The byte a short escape stands for. -/
def shortEscapeByte (next : UInt8) : UInt8 :=
  if next = 0x62 then 0x08
  else if next = 0x66 then 0x0c
  else if next = 0x6e then 0x0a
  else if next = 0x72 then 0x0d
  else if next = 0x74 then 0x09
  else next

/-- How many continuation bytes follow a lead byte, and the range of the first one. -/
def leadInfo (c : UInt8) : Option (Nat × UInt8 × UInt8) :=
  if 0xc2 ≤ c && c ≤ 0xdf then some (1, 0x80, 0xbf)
  else if 0xe0 ≤ c && c ≤ 0xef then
    some (2, if c = 0xe0 then 0xa0 else 0x80, if c = 0xed then 0x9f else 0xbf)
  else if 0xf0 ≤ c && c ≤ 0xf4 then
    some (3, if c = 0xf0 then 0x90 else 0x80, if c = 0xf4 then 0x8f else 0xbf)
  else none

/-- The continuation loop of `lql_json_skip_string_fast`. -/
def skipContinuation : Nat → UInt8 → UInt8 → TapeM Unit
  | 0, _, _ => return ()
  | k + 1, lo, hi => do
    let c ← take
    if c < lo || hi < c then jsonError "invalid UTF-8 in JSON string"
    else skipContinuation k 0x80 0xbf

/-! ## Skipping -/

/-- The part of `lql_json_skip_string_fast` behind a backslash. -/
def skipEscape : TapeM Unit := do
  let next ← take
  if isShortEscape next then return ()
  else if next ≠ chU then jsonError "invalid JSON escape"
  else
    let (unicode, _) ← takeHex4
    if 0xdc00 ≤ unicode ∧ unicode ≤ 0xdfff then
      jsonError "unpaired low surrogate in JSON string"
    else if unicode < 0xd800 ∨ unicode > 0xdbff then return ()
    else
      takeExpected chBackslash
      takeExpected chU
      let (low, _) ← takeHex4
      if low < 0xdc00 ∨ low > 0xdfff then jsonError "unpaired high surrogate in JSON string"

/-- The loop of `lql_json_skip_string_fast`. -/
def skipStringLoop : Nat → TapeM Unit
  | 0 => outOfFuel
  | fuel + 1 => do
    refill
    match (← get).input.buffer with
    | [] => jsonError "unterminated JSON string"
    | value :: rest =>
      let span := plainAsciiSpan (value :: rest)
      if span ≠ 0 then
        modify fun t => { t with input := t.input.skip span }
        skipStringLoop fuel
      else
        advance
        if value = chQuote then return ()
        else if value < 0x20 then jsonError "unescaped control byte in JSON string"
        else if value = chBackslash then do skipEscape; skipStringLoop fuel
        else
          match leadInfo value with
          | none => jsonError "invalid UTF-8 in JSON string"
          | some (remaining, lo, hi) => do
            skipContinuation remaining lo hi
            skipStringLoop fuel

/-- `lql_json_skip_string_fast` -/
def skipStringFast : TapeM Unit := do
  takeExpected chQuote
  skipStringLoop ((← get).input.size + 1)

/-- `lql_json_skip_literal_fast` -/
def skipLiteralFast : Bytes → TapeM Unit
  | [] => return ()
  | c :: rest => do takeExpected c; skipLiteralFast rest

/-- A `do ... while` over digits: the peeked byte is a digit, and is handed on. The
result is the first byte that is not one. -/
def digitsLoop {σ : Type} (peek : EStateM Err σ (Option UInt8)) (eat : UInt8 → EStateM Err σ Unit) :
    Nat → UInt8 → EStateM Err σ (Option UInt8)
  | 0, _ => outOfFuel
  | fuel + 1, c => do
    eat c
    match ← peek with
    | none => return none
    | some d => if isDigit d then digitsLoop peek eat fuel d else return some d

section NumberWith

variable {σ : Type} (peek : EStateM Err σ (Option UInt8)) (eat : UInt8 → EStateM Err σ Unit)

/-! The common control flow of `lql_json_number` and `lql_json_skip_number_fast`, with
what is done to each byte of the token as a parameter. Each part is given the byte
peeked last and returns the next one. -/

/-- `if (value == '-')` -/
def signWith (value : Option UInt8) : EStateM Err σ (Option UInt8) := do
  if value = some chMinus then
    eat chMinus
    peek
  else return value

/-- The digits before the point. -/
def integerWith (fuel : Nat) (value : Option UInt8) : EStateM Err σ (Option UInt8) :=
  match value with
  | none => jsonError "invalid JSON number"
  | some c =>
    if c = chZero then do eat c; peek
    else if isDigit19 c then digitsLoop peek eat fuel c
    else jsonError "invalid JSON number"

/-- `value < '0' || value > '9'`, or the digits. -/
def digits1With (message : String) (fuel : Nat) (value : Option UInt8) :
    EStateM Err σ (Option UInt8) :=
  match value with
  | none => jsonError message
  | some c => if isDigit c then digitsLoop peek eat fuel c else jsonError message

/-- `if (value == '.')` -/
def fractionWith (fuel : Nat) (value : Option UInt8) : EStateM Err σ (Option UInt8) := do
  if value = some chDot then
    eat chDot
    let value ← peek
    digits1With peek eat "invalid JSON fraction" fuel value
  else return value

/-- `if (value == '+' || value == '-')` -/
def exponentSignWith (value : Option UInt8) : EStateM Err σ (Option UInt8) :=
  match value with
  | none => return none
  | some c => if c = chPlus ∨ c = chMinus then do eat c; peek else return some c

/-- `if (value == 'e' || value == 'E')` -/
def exponentWith (fuel : Nat) (value : Option UInt8) : EStateM Err σ (Option UInt8) :=
  match value with
  | none => return none
  | some c =>
    if c = chLowerE ∨ c = chUpperE then do
      eat c
      let value ← peek
      let value ← exponentSignWith peek eat value
      digits1With peek eat "invalid JSON exponent" fuel value
    else return some c

/-- A whole number. -/
def numberWith (fuel : Nat) : EStateM Err σ Unit := do
  let value ← peek
  let value ← signWith peek eat value
  let value ← integerWith peek eat fuel value
  let value ← fractionWith peek eat fuel value
  let _ ← exponentWith peek eat fuel value

end NumberWith

/-- `lql_json_skip_number_fast` -/
def skipNumberFast : TapeM Unit := do
  numberWith peek (fun _ => advance) ((← get).input.size + 1)

/-- `++scan->depth`, refused at the limit. -/
def enter : TapeM Unit := do
  if (← get).depth = maxDepth then jsonError "JSON nesting exceeds the scanner limit"
  modify fun t => { t with depth := t.depth + 1 }

/-- `--scan->depth` -/
def leave : TapeM Unit := modify fun t => { t with depth := t.depth - 1 }

/-- The member loop of `lql_json_skip_object_fast`, `value` being the peeked byte. -/
def skipMembers (skipValue : TapeM Unit) : Nat → Option UInt8 → TapeM Unit
  | 0, _ => outOfFuel
  | fuel + 1, value => do
    if value ≠ some chQuote then jsonError "JSON object key must be a string"
    skipStringFast
    skipSpace
    takeExpected chColon
    skipSpace
    skipValue
    skipSpace
    let c ← take
    if c = chRBrace then leave
    else if c ≠ chComma then jsonError "JSON object member separator is missing"
    else
      skipSpace
      skipMembers skipValue fuel (← peek)

/-- `lql_json_skip_object_fast` -/
def skipObjectFast (skipValue : TapeM Unit) (fuel : Nat) : TapeM Unit := do
  enter
  takeExpected chLBrace
  skipSpace
  let value ← peek
  if value = some chRBrace then do advance; leave
  else skipMembers skipValue fuel value

/-- The element loop of `lql_json_skip_array_fast`. -/
def skipElements (skipValue : TapeM Unit) : Nat → TapeM Unit
  | 0 => outOfFuel
  | fuel + 1 => do
    skipValue
    skipSpace
    let c ← take
    if c = chRBracket then leave
    else if c ≠ chComma then jsonError "JSON array separator is missing"
    else
      skipSpace
      skipElements skipValue fuel

/-- `lql_json_skip_array_fast` -/
def skipArrayFast (skipValue : TapeM Unit) (fuel : Nat) : TapeM Unit := do
  enter
  takeExpected chLBracket
  skipSpace
  let value ← peek
  if value = some chRBracket then do advance; leave
  else skipElements skipValue fuel

/-- `lql_json_skip_value_fast` -/
def skipValueFast : Nat → TapeM Unit
  | 0 => outOfFuel
  | fuel + 1 => do
    match ← peek with
    | none => skipNumberFast
    | some c =>
      if c = chLBrace then skipObjectFast (skipValueFast fuel) fuel
      else if c = chLBracket then skipArrayFast (skipValueFast fuel) fuel
      else if c = chQuote then skipStringFast
      else if c = chT then skipLiteralFast txtTrue
      else if c = chF then skipLiteralFast txtFalse
      else if c = chN then skipLiteralFast txtNull
      else skipNumberFast

end Lql.Scan
