import Lql.Selector.Stored

/-!
# Selectors written as JSON

A selector is written in the form that the parser of selectors reads: an object with its operator, and behind the operator
its children, its path or an object with the members of the predicate. The file that is written to is taken to accept what
it is given; what can go wrong is a number without a text.
-/

namespace Lql.Selector

open Json (Str Piece)
open Unicode (utf8)

/-- What `strlen` sees of a text. -/
def cText (text : Bytes) : Bytes := text.takeWhile (· ≠ 0)

/-! ## Strings -/

/-- A digit of `%x` -/
def hexDigit (v : UInt8) : UInt8 := if v < 10 then chZero + v else 0x57 + v

/-- One round of the loop of `selector_json_string` -/
def selectorJsonByte (c : UInt8) : Bytes :=
  if c = chQuote then [chBackslash, chQuote]
  else if c = chBackslash then [chBackslash, chBackslash]
  else if c = 0x08 then [chBackslash, 0x62]
  else if c = 0x0c then [chBackslash, 0x66]
  else if c = 0x0a then [chBackslash, 0x6e]
  else if c = 0x0d then [chBackslash, 0x72]
  else if c = 0x09 then [chBackslash, 0x74]
  else if c < 0x20 then [chBackslash, chU, chZero, chZero, hexDigit (c / 16), hexDigit (c % 16)]
  else [c]

/-- `selector_json_string` -/
def selectorJsonString (data : Bytes) : Bytes := [chQuote] ++ data.flatMap selectorJsonByte ++ [chQuote]

/-- `selector_json_key` -/
def selectorJsonKey (key : Bytes) : Bytes := selectorJsonString key ++ [chColon]

/-- `selector_json_comma` and what is written behind it. -/
def selectorJsonMember (first : Bool) (key value : Bytes) : Bytes :=
  (if first then [] else [chComma]) ++ selectorJsonKey key ++ value

/-! ## Predicates -/

/-- `write_selector_literal_json` -/
def writeSelectorLiteralJson (value : Bytes) (kind : LiteralKind) : Bytes :=
  if kind = .string then selectorJsonString value else cText value

/-- The loop over the values of an `any`, between the brackets. -/
def writeAnyJson : List AnyValue → Bytes
  | [] => []
  | [item] => writeSelectorLiteralJson item.text item.kind
  | item :: next :: rest => writeSelectorLiteralJson item.text item.kind ++ [chComma] ++ writeAnyJson (next :: rest)

/-- The path of a predicate, the member that always comes first. -/
def writeFieldJson (p : Payload) : Bytes :=
  selectorJsonMember true (ascii "field") (selectorJsonString (cText (p.field.getD [])))

/-- `write_string_predicate_json` -/
def writeStringPredicateJson (p : Payload) : Bytes :=
  let value :=
    if p.valueSet || p.value.getD [] ≠ [] then
      selectorJsonMember false (ascii "value") (writeSelectorLiteralJson (p.value.getD []) p.valueKind)
    else []
  let any :=
    if p.anyValues ≠ [] then
      selectorJsonMember false (ascii "any") ([chLBracket] ++ writeAnyJson p.anyValues ++ [chRBracket])
    else []
  let ignoreCase := if p.ignoreCase then selectorJsonMember false (ascii "ignoreCase") txtTrue else []
  [chLBrace] ++ writeFieldJson p ++ value ++ any ++ ignoreCase ++ [chRBrace]

/-- `lql_selector_range_bound` -/
inductive RangeBound where
  | absent
  | number (text : Bytes)
  | datetime (text : Bytes)
  deriving DecidableEq, Repr

/-- What `write_range_predicate_json` makes of a bound with `range_datetime_bound` and `range_number_bound`. -/
def rangeBound (p : Payload) (key : BoundKey) : RangeBound :=
  let text := cText ((p.rangeTexts.get key).getD [])
  if (p.temporal.get key).isSome then .datetime text
  else if (p.hasRange.get key).isSome then .number text
  else .absent

/-- The name of a bound. -/
def BoundKey.name : BoundKey → Bytes
  | .gt => ascii "gt"
  | .gte => ascii "gte"
  | .lt => ascii "lt"
  | .lte => ascii "lte"

/-- `write_range_bound_member` and `write_range_bound_json`. Every number has its text, so that `selector_json_number` is
never called. -/
def writeRangeBoundMember (key : BoundKey) : RangeBound → Except Err Bytes
  | .absent => .ok []
  | .number text =>
    if text = [] then .error ⟨.jsonError, "selector JSON number text is empty"⟩
    else .ok (selectorJsonMember false key.name text)
  | .datetime text => .ok (selectorJsonMember false key.name (selectorJsonString text))

/-- `write_range_predicate_json` -/
def writeRangePredicateJson (p : Payload) : Except Err Bytes := do
  let gt ← writeRangeBoundMember .gt (rangeBound p .gt)
  let gte ← writeRangeBoundMember .gte (rangeBound p .gte)
  let lt ← writeRangeBoundMember .lt (rangeBound p .lt)
  let lte ← writeRangeBoundMember .lte (rangeBound p .lte)
  .ok ([chLBrace] ++ writeFieldJson p ++ gt ++ gte ++ lt ++ lte ++ [chRBrace])

/-- `write_optional_string_member` -/
def writeOptionalStringMember (key : Bytes) : Option Bytes → Bytes
  | none => []
  | some value => selectorJsonMember false key (selectorJsonString (cText value))

/-- `write_date_predicate_json` -/
def writeDatePredicateJson (p : Payload) : Bytes :=
  let dates := p.dateTexts
  [chLBrace] ++ writeFieldJson p ++ writeOptionalStringMember (ascii "value") dates.value ++
    writeOptionalStringMember (ascii "since") dates.since ++ writeOptionalStringMember (ascii "after") dates.after ++
    writeOptionalStringMember (ascii "before") dates.before ++ writeOptionalStringMember (ascii "gte") dates.bounds.gte ++
    writeOptionalStringMember (ascii "gt") dates.bounds.gt ++ writeOptionalStringMember (ascii "lte") dates.bounds.lte ++
    writeOptionalStringMember (ascii "lt") dates.bounds.lt ++ [chRBrace]

/-- `write_in_predicate_json` -/
def writeInPredicateJson (p : Payload) : Bytes :=
  [chLBrace] ++ writeFieldJson p ++
    selectorJsonMember false (ascii "any") ([chLBracket] ++ writeAnyJson p.anyValues ++ [chRBracket]) ++ [chRBrace]

/-! ## Selectors -/

/-- An object with one operator. -/
def writeOperatorJson (key : Bytes) (value : Bytes) : Bytes := [chLBrace] ++ selectorJsonKey key ++ value ++ [chRBrace]

/-- The part of `write_selector_json` for a predicate. There is no operator `ne`: it is the `not` of an `eq`. -/
def writePredicateJson (kind : SelectorKind) (p : Payload) : Except Err Bytes :=
  match kind with
  | .eq => .ok (writeOperatorJson (ascii "eq") (writeStringPredicateJson p))
  | .ne => .ok (writeOperatorJson (ascii "not") (writeOperatorJson (ascii "eq") (writeStringPredicateJson p)))
  | .contains => .ok (writeOperatorJson (ascii "contains") (writeStringPredicateJson p))
  | .icontains => .ok (writeOperatorJson (ascii "icontains") (writeStringPredicateJson p))
  | .pfx => .ok (writeOperatorJson (ascii "prefix") (writeStringPredicateJson p))
  | .ipfx => .ok (writeOperatorJson (ascii "iprefix") (writeStringPredicateJson p))
  | .range => (writeRangePredicateJson p).map (writeOperatorJson (ascii "range"))
  | .date => .ok (writeOperatorJson (ascii "date") (writeDatePredicateJson p))
  | .isIn => .ok (writeOperatorJson (ascii "in") (writeInPredicateJson p))
  | .exist => .ok (writeOperatorJson (ascii "exists") (selectorJsonString (cText (p.field.getD []))))
  | _ => .ok [chLBrace, chRBrace]

mutual

/-- `write_selector_json` -/
def writeSelectorJson : Selector → Except Err Bytes
  | .node .and _ children => (writeSelectorChildrenJson children).map fun t =>
      writeOperatorJson (ascii "and") ([chLBracket] ++ t ++ [chRBracket])
  | .node .or _ children => (writeSelectorChildrenJson children).map fun t =>
      writeOperatorJson (ascii "or") ([chLBracket] ++ t ++ [chRBracket])
  | .node .not _ [] => .ok (writeOperatorJson (ascii "not") [chLBrace, chRBrace])
  | .node .not _ (child :: _) => (writeSelectorJson child).map (writeOperatorJson (ascii "not"))
  | .node kind p _ => writePredicateJson kind p

/-- The loop of `write_selector_children_json` -/
def writeSelectorChildrenJson : List Selector → Except Err Bytes
  | [] => .ok []
  | [child] => writeSelectorJson child
  | child :: next :: rest => do
    let head ← writeSelectorJson child
    let tail ← writeSelectorChildrenJson (next :: rest)
    .ok (head ++ [chComma] ++ tail)

end

end Lql.Selector
