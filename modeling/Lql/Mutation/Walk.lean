import Lql.Scan.Read
import Lql.Spool
import Lql.Unicode

/-!
# The record under the emitters

A mutation is written over the record as the spool holds it, without spaces. The emitters look at it
through two functions: one passes over a value without reading it, the other compares a key, which
may be written with escapes, with a segment of a path, which is a plain C string.
-/

namespace Lql.Mutation

open Spool (SpoolM Fate byteAt findStringEnd refuse)

/-- A JSON error that says no more. -/
def malformed : Err := Err.json ""

variable (fate : Fate)

/-! ## Passing over a value -/

/-- `lql_flat_eq_skip_string` -/
def skipString (offset stop : Nat) : SpoolM Nat := do
  refuse (stop ≤ offset) malformed
  findStringEnd fate offset stop

/-- The loop of `lql_flat_eq_skip_value` over a number or a literal. -/
def skipScalar (stop offset : Nat) : SpoolM Nat :=
  if _h : offset < stop then do
    let ch ← byteAt fate offset
    if ch = chComma ∨ ch = chRBrace ∨ ch = chRBracket then pure offset
    else skipScalar stop (offset + 1)
  else pure offset
  termination_by stop - offset

/-- The loop of `lql_flat_eq_skip_value` over an object or an array. Every round moves the offset, so
`stop - offset` rounds are enough. -/
def skipNested (stop : Nat) : Nat → Nat → Nat → SpoolM Nat
  | 0, _, _ => throw malformed
  | fuel + 1, depth, offset =>
    if offset < stop then do
      let ch ← byteAt fate offset
      if ch = chQuote then do
        let offset ← skipString fate offset stop
        skipNested stop fuel depth offset
      else if ch = chLBrace ∨ ch = chLBracket then skipNested stop fuel (depth + 1) (offset + 1)
      else if ch = chRBrace ∨ ch = chRBracket then
        if depth = 0 then throw malformed
        else if depth - 1 = 0 then pure (offset + 1)
        else skipNested stop fuel (depth - 1) (offset + 1)
      else skipNested stop fuel depth (offset + 1)
    else throw malformed

/-- `lql_flat_eq_skip_value`: where the value ends. -/
def skipValue (offset stop : Nat) : SpoolM Nat := do
  refuse (stop ≤ offset) malformed
  let ch ← byteAt fate offset
  if ch = chQuote then skipString fate offset stop
  else if ch ≠ chLBrace ∧ ch ≠ chLBracket then skipScalar fate stop offset
  else skipNested fate stop (stop - offset) 0 offset

/-! ## Comparing a key -/

/-- `lql_flat_eq_hex_value` -/
def hexValue (ch : UInt8) : Option Nat := Scan.hexValue ch

/-- The loop of `lql_flat_eq_read_hex4`. -/
def readHexLoop : Nat → Nat → Nat → SpoolM Nat
  | 0, _, value => pure value
  | k + 1, offset, value => do
    let ch ← byteAt fate offset
    match hexValue ch with
    | none => throw malformed
    | some digit => readHexLoop k (offset + 1) ((value <<< 4) ||| digit)

/-- `lql_flat_eq_read_hex4` -/
def readHex4 (offset stop : Nat) : SpoolM Nat := do
  refuse (stop < offset ∨ stop - offset < 4) malformed
  readHexLoop fate 4 offset 0

/-- `key[key_pos]`: behind the last byte of the segment is its NUL. -/
def keyByte (key : Bytes) (pos : Nat) : UInt8 := key.getD pos 0

/-- Decoded bytes against the segment, from a place of it on: the place behind them. -/
def matchKey (key : Bytes) : Nat → Bytes → Option Nat
  | pos, [] => some pos
  | pos, b :: decoded =>
    if keyByte key pos = 0 ∨ b ≠ keyByte key pos then none else matchKey key (pos + 1) decoded

/-- The byte an escape stands for that is no `\u`. -/
def keyEscapeByte (ch : UInt8) : UInt8 :=
  if ch = 0x6e then 0x0a
  else if ch = 0x72 then 0x0d
  else if ch = 0x74 then 0x09
  else if ch = 0x62 then 0x08
  else if ch = 0x66 then 0x0c
  else ch

/-- A code point in UTF-8, and the offset behind the escape that it was written as. -/
def keyEncoded (codepoint offset : Nat) : SpoolM (Bytes × Nat) := do
  refuse (Unicode.utf8Encode codepoint = []) malformed
  pure (Unicode.utf8Encode codepoint, offset)

/-- An escape behind its `\u`. -/
def keyUnicode (offset stop : Nat) : SpoolM (Bytes × Nat) := do
  let codepoint ← readHex4 fate offset stop
  if 0xd800 ≤ codepoint ∧ codepoint ≤ 0xdbff then do
    let ch ← byteAt fate (offset + 4)
    refuse (ch ≠ chBackslash) malformed
    let ch ← byteAt fate (offset + 5)
    refuse (ch ≠ chU) malformed
    let low ← readHex4 fate (offset + 6) stop
    refuse (low < 0xdc00 ∨ low > 0xdfff) malformed
    keyEncoded (0x10000 + (((codepoint - 0xd800) <<< 10) ||| (low - 0xdc00))) (offset + 10)
  else do
    refuse (0xdc00 ≤ codepoint ∧ codepoint ≤ 0xdfff) malformed
    keyEncoded codepoint (offset + 4)

/-- What one round of `lql_flat_eq_key_equals` decodes and the offset behind it; `none` at the closing
quote. -/
def keyPiece (offset stop : Nat) : SpoolM (Option (Bytes × Nat)) := do
  let ch ← byteAt fate offset
  if ch = chQuote then pure none
  else if ch = chBackslash then do
    let ch ← byteAt fate (offset + 1)
    if ch = chU then do
      let piece ← keyUnicode fate (offset + 2) stop
      pure (some piece)
    else pure (some ([keyEscapeByte ch], offset + 2))
  else pure (some ([ch], offset + 1))

/-- The loop of `lql_flat_eq_key_equals`; here too `stop - offset` rounds are enough. -/
def keyLoop (key : Bytes) (stop : Nat) : Nat → Nat → Nat → SpoolM Bool
  | 0, _, _ => throw malformed
  | fuel + 1, offset, pos =>
    if offset < stop then do
      match ← keyPiece fate offset stop with
      | none => pure (keyByte key pos = 0)
      | some (decoded, offset) =>
        match matchKey key pos decoded with
        | none => pure false
        | some pos => keyLoop key stop fuel offset pos
    else throw malformed

/-- `lql_flat_eq_key_equals` -/
def keyEquals (offset stop : Nat) (key : Bytes) : SpoolM Bool := do
  refuse (stop ≤ offset) malformed
  let ch ← byteAt fate offset
  refuse (ch ≠ chQuote) malformed
  keyLoop fate key stop (stop - (offset + 1)) (offset + 1) 0

end Lql.Mutation
