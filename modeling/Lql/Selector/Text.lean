import Lql.Number.Compare
import Lql.Selector.Node

/-!
# Clauses of a selector text

A selector text is cut at its commas and line ends into clauses, and a clause is a predicate: a shorthand such
as `/a>=3`, or a name with its fields in braces. Memory is taken to be there.
-/

namespace Lql.Selector

open Temporal (isSpace Temporal parseTemporalLiteral)

/-- `LQL_STATUS_PARSE_ERROR` with its message. -/
def parseError {α : Type} (message : String) : Except Err α := .error ⟨.parseError, message⟩

/-- `trim_dup` -/
def trim (text : Bytes) : Bytes := (((text.dropWhile isSpace).reverse).dropWhile isSpace).reverse

/-- `*p == '"' || *p == '\''` -/
def isQuote (c : UInt8) : Bool := c = chQuote || c = 0x27

/-- `token_list_push` of what stands between two separators. -/
def pushToken (items : List Bytes) (token : Bytes) : List Bytes :=
  if trim token = [] then items else items ++ [trim token]

/-- The loop of `split_top`; `token` is what stands behind the last separator. -/
def splitTopLoop (items : List Bytes) (token : Bytes) (depth : Nat) (quote : Option UInt8) :
    Bytes → Except Err (List Bytes)
  | [] =>
    if quote.isSome || depth ≠ 0 then parseError "unterminated selector expression"
    else .ok (pushToken items token)
  | c :: rest =>
    match quote with
    | some q =>
      -- an escape takes the next byte along
      match rest with
      | d :: rest' =>
        if c = chBackslash then splitTopLoop items (token ++ [c, d]) depth (some q) rest'
        else splitTopLoop items (token ++ [c]) depth (if c = q then none else some q) (d :: rest')
      | [] => splitTopLoop items (token ++ [c]) depth (if c = q then none else some q) []
    | none =>
      if isQuote c then splitTopLoop items (token ++ [c]) depth (some c) rest
      else if c = chLBrace then splitTopLoop items (token ++ [c]) (depth + 1) none rest
      else if c = chRBrace then
        if depth = 0 then parseError "unexpected selector \x7d"
        else splitTopLoop items (token ++ [c]) (depth - 1) none rest
      else if (c = chComma || c = chLF) && depth = 0 then splitTopLoop (pushToken items token) [] depth none rest
      else splitTopLoop items (token ++ [c]) depth none rest

/-- `split_top` -/
def splitTop (expr : Bytes) : Except Err (List Bytes) := splitTopLoop [] [] 0 none expr

/-! ## Assignments -/

def isLetter (c : UInt8) : Bool := (0x41 ≤ c && c ≤ 0x5a) || (0x61 ≤ c && c ≤ 0x7a)

/-- `selector_assignment_separator` -/
def selectorAssignmentSeparator : Bytes → Bool
  | [] => false
  | c :: rest =>
    if c = chComma || c = chLF then true
    else if !isSpace c then false
    else
      match rest.dropWhile isSpace with
      | [] => false
      | q :: tail =>
        if !(isLetter q || q = 0x5f) then false
        else
          let tail := tail.dropWhile fun c => isLetter c || isDigit c || c = 0x5f || c = chDot
          (tail.dropWhile isSpace).head? = some 0x3d

/-- The loop of `split_assignments`; behind a separator, commas and spaces are skipped. -/
def splitAssignmentsLoop (items : List Bytes) (token : Bytes) (skipping : Bool) (depth : Nat)
    (quote : Option UInt8) : Bytes → Except Err (List Bytes)
  | [] =>
    if quote.isSome || depth ≠ 0 then parseError "unterminated selector expression"
    else .ok (pushToken items token)
  | c :: rest =>
    match quote with
    | some q =>
      match rest with
      | d :: rest' =>
        if c = chBackslash then splitAssignmentsLoop items (token ++ [c, d]) false depth (some q) rest'
        else splitAssignmentsLoop items (token ++ [c]) false depth (if c = q then none else some q) (d :: rest')
      | [] => splitAssignmentsLoop items (token ++ [c]) false depth (if c = q then none else some q) []
    | none =>
      if skipping && (c = chComma || isSpace c) then splitAssignmentsLoop items token true depth none rest
      else if isQuote c then splitAssignmentsLoop items (token ++ [c]) false depth (some c) rest
      else if c = chLBrace then splitAssignmentsLoop items (token ++ [c]) false (depth + 1) none rest
      else if c = chRBrace then
        if depth = 0 then parseError "unexpected selector \x7d"
        else splitAssignmentsLoop items (token ++ [c]) false (depth - 1) none rest
      else if depth = 0 && selectorAssignmentSeparator (c :: rest) then
        splitAssignmentsLoop (pushToken items token) [] true depth none rest
      else splitAssignmentsLoop items (token ++ [c]) false depth none rest

/-- `split_assignments` -/
def splitAssignments (expr : Bytes) : Except Err (List Bytes) := splitAssignmentsLoop [] [] false 0 none expr

/-- `unquote` -/
def unquote (value : Bytes) : Bytes :=
  if 2 ≤ value.length && (value.head? = some chQuote && value.getLast? = some chQuote ||
      value.head? = some 0x27 && value.getLast? = some 0x27) then
    value.tail.dropLast
  else value

/-- `find_shorthand_operator`: what stands in front of the operator, and the text from it on. -/
def findShorthandOperator (front : Bytes) (quote : Option UInt8) : Bytes → Option (Bytes × Bytes)
  | [] => none
  | c :: rest =>
    match quote with
    | some q =>
      match rest with
      | d :: rest' =>
        if c = chBackslash then findShorthandOperator (front ++ [c, d]) (some q) rest'
        else findShorthandOperator (front ++ [c]) (if c = q then none else some q) (d :: rest')
      | [] => none
    | none =>
      if isQuote c then findShorthandOperator (front ++ [c]) (some c) rest
      else if (c = 0x21 || c = 0x3e || c = 0x3c) && rest.head? = some 0x3d then some (front, c :: rest)
      else if c = 0x3d || c = 0x3e || c = 0x3c then some (front, c :: rest)
      else findShorthandOperator (front ++ [c]) none rest

/-! ## Paths -/

/-- The loop over the `[]` at the end of a segment: what is in front of them, and how many there are. -/
def stripBrackets (fuel : Nat) (segment : Bytes) : Bytes × Nat :=
  match fuel with
  | 0 => (segment, 0)
  | fuel + 1 =>
    if 2 < segment.length && segment.drop (segment.length - 2) = ascii "[]" then
      let (base, count) := stripBrackets fuel (segment.take (segment.length - 2))
      (base, count + 1)
    else (segment, 0)

/-- One segment of `normalize_field_path`, with a `/[]` for each of its pairs of brackets. -/
def normalizeSegment (segment : Bytes) : Bytes :=
  if segment = [] || segment = ascii "[]" || segment = ascii "*" || segment = ascii "**" ||
      segment = ascii "..." then segment
  else
    let (base, count) := stripBrackets segment.length segment
    base ++ (List.replicate count (ascii "/[]")).flatten

/-- The text up to the next slash, and the text behind it when there is one. -/
def cutSlash : Bytes → Bytes × Option Bytes
  | [] => ([], none)
  | c :: rest =>
    if c = chSlash then ([], some rest)
    else
      let (segment, tail) := cutSlash rest
      (c :: segment, tail)

/-- The loop of `normalize_field_path`: no separator stands in front of the first byte. -/
def normalizeSegments (fuel : Nat) (out : Bytes) (seg : Bytes) : Bytes :=
  match fuel with
  | 0 => out
  | fuel + 1 =>
    if seg = [] then out
    else
      let (segment, tail) := cutSlash seg
      let out := (if 1 < out.length then out ++ [chSlash] else out) ++ normalizeSegment segment
      match tail with
      | none => out
      | some tail => normalizeSegments fuel out tail

/-- `normalize_field_path`; no answer is a null pointer. -/
def normalizeFieldPath : Bytes → Option Bytes
  | [] => none
  | c :: rest => if c = chSlash then some (normalizeSegments rest.length [chSlash] rest) else none

/-! ## Keys and literals -/

/-- `parse_bool_value` -/
def parseBoolValue (value : Bytes) : Option Bool :=
  if value = txtTrue || value = ascii "t" then some true
  else if value = txtFalse || value = ascii "f" then some false
  else none

def keyIsField (key : Bytes) : Bool := key = ascii "field" || key = ascii "f"

def keyIsValue (key : Bytes) : Bool := key = ascii "value" || key = ascii "v"

def keyIsAny (key : Bytes) : Bool := key = ascii "any" || key = ascii "a"

def keyIsIgnoreCase (key : Bytes) : Bool :=
  key = ascii "ignoreCase" || key = ascii "ignorecase" || key = ascii "ic"

/-- The bound that a key names: `key_is_range_bound` and the comparisons with its names. -/
def keyBound (key : Bytes) : Option BoundKey :=
  if key = ascii "gt" then some .gt
  else if key = ascii "gte" then some .gte
  else if key = ascii "lt" then some .lt
  else if key = ascii "lte" then some .lte
  else none

def keyIsAfter (key : Bytes) : Bool := key = ascii "after" || key = ascii "a"

def keyIsBefore (key : Bytes) : Bool := key = ascii "before" || key = ascii "b"

def keyIsSince (key : Bytes) : Bool := key = ascii "since"

/-- `key_allowed_for_kind` -/
def keyAllowedForKind (kind : SelectorKind) (key : Bytes) : Bool :=
  keyIsField key ||
    match kind with
    | .eq => keyIsValue key
    | .contains | .icontains => keyIsValue key || keyIsAny key || keyIsIgnoreCase key
    | .pfx | .ipfx => keyIsValue key || keyIsIgnoreCase key
    | .range => (keyBound key).isSome
    | .date => keyIsValue key || keyIsAfter key || keyIsBefore key || (keyBound key).isSome || keyIsSince key
    | .isIn => keyIsAny key
    | _ => false

/-- `kind_from_name` -/
def kindFromName (name : Bytes) : SelectorKind :=
  if name = ascii "and" then .and
  else if name = ascii "or" then .or
  else if name = ascii "not" then .not
  else if name = ascii "eq" then .eq
  else if name = ascii "contains" then .contains
  else if name = ascii "icontains" then .icontains
  else if name = ascii "prefix" then .pfx
  else if name = ascii "iprefix" then .ipfx
  else if name = ascii "range" then .range
  else if name = ascii "date" then .date
  else if name = ascii "in" then .isIn
  else if name = ascii "exists" then .exist
  else .all

/-- `selector_literal_kind` -/
def selectorLiteralKind (raw : Bytes) : LiteralKind :=
  if raw = txtTrue || raw = txtFalse then .bool
  else if raw = txtNull then .null
  else if Number.isJson raw then .number
  else .string

/-- `selector_kind_uses_textual_needles` -/
def selectorKindUsesTextualNeedles (kind : SelectorKind) : Bool :=
  kind = .contains || kind = .icontains || kind = .pfx || kind = .ipfx

/-- The pieces between the bars of a text; there is always one. -/
def splitBars : Bytes → List Bytes
  | [] => [[]]
  | c :: rest =>
    if c = 0x7c then [] :: splitBars rest
    else
      match splitBars rest with
      | [] => [[c]]
      | item :: items => (c :: item) :: items

/-- The loop of `parse_any_values` -/
def pushAnyValues (rejectSurroundingWhitespace textualNeedles : Bool) :
    List Bytes → List AnyValue → Except Err (List AnyValue)
  | [], values => .ok values
  | cursor :: rest, values =>
    let item := trim cursor
    if rejectSurroundingWhitespace && item ≠ [] && item ≠ cursor then
      parseError "selector any values must not have surrounding whitespace"
    else if item = [] then pushAnyValues rejectSurroundingWhitespace textualNeedles rest values
    else
      let kind := if textualNeedles then .string else selectorLiteralKind item
      pushAnyValues rejectSurroundingWhitespace textualNeedles rest (values ++ [⟨item, kind, false⟩])

/-- `parse_any_values` -/
def parseAnyValues (decoded : Bytes) (p : Payload) (rejectSurroundingWhitespace textualNeedles : Bool) :
    Except Err Payload := do
  let values ← pushAnyValues rejectSurroundingWhitespace textualNeedles (splitBars decoded) p.anyValues
  if values = [] then parseError "selector any requires values"
  else .ok { p with anyValues := values }

/-! ## Bounds -/

/-- `set_range_bound` -/
def setRangeBound (p : Payload) (key : BoundKey) (decoded : Bytes) : Except Err Payload :=
  let trimmed := trim decoded
  match parseTemporalLiteral trimmed with
  | some value =>
    .ok { p with
      rangeIsTemporal := true
      rangeTexts := p.rangeTexts.set key trimmed
      temporal := p.temporal.set key value }
  | none =>
    if Number.isJson trimmed then
      .ok { p with
        rangeTexts := p.rangeTexts.set key trimmed
        hasRange := p.hasRange.set key () }
    else parseError "range selector bound invalid"

/-- The slots of `set_date_bound` -/
inductive DateSlot where
  | value
  | since
  | after
  | before
  | bound (key : BoundKey)
  deriving DecidableEq, Repr

/-- `ascii_equal_ignore_case` -/
def asciiEqualIgnoreCase (a b : Bytes) : Bool :=
  let lower (c : UInt8) : UInt8 := if 0x41 ≤ c && c ≤ 0x5a then c + 0x20 else c
  a.map lower = b.map lower

/-- The macros that `since` knows. -/
def sinceMacroOf (decoded : Bytes) : Option SinceMacro :=
  if asciiEqualIgnoreCase decoded (ascii "now") then some .now
  else if asciiEqualIgnoreCase decoded (ascii "today") then some .today
  else if asciiEqualIgnoreCase decoded (ascii "yesterday") then some .yesterday
  else none

/-- Keep a date and the text it was given as. -/
def storeDate (p : Payload) (slot : DateSlot) (decoded : Bytes) (value : Temporal) : Payload :=
  match slot with
  | .value => { p with dateTexts.value := some decoded, temporalEq := some value }
  | .since => { p with dateTexts.since := some decoded, temporal := p.temporal.set .gte value }
  | .after => { p with dateTexts.after := some decoded, temporal := p.temporal.set .gt value }
  | .before => { p with dateTexts.before := some decoded, temporal := p.temporal.set .lt value }
  | .bound key =>
    { p with dateTexts.bounds := p.dateTexts.bounds.set key decoded, temporal := p.temporal.set key value }

/-- `set_date_bound` -/
def setDateBound (p : Payload) (slot : DateSlot) (decoded : Bytes) : Except Err Payload :=
  match (if slot = .since then sinceMacroOf decoded else none) with
  | some since => .ok { p with dateTexts.since := some decoded, sinceMacro := since }
  | none =>
    match parseTemporalLiteral decoded with
    | none => parseError "date selector bound invalid"
    | some value => .ok (storeDate p slot decoded value)

/-! ## Predicates in braces -/

/-- The `seen_` pointers of `parse_key_values` -/
inductive SeenKey where
  | field
  | value
  | any
  | ignoreCase
  | bound (key : BoundKey)
  | after
  | before
  | since
  deriving DecidableEq, Repr

/-- The pointer that a key is remembered in. -/
def seenSlot (kind : SelectorKind) (key : Bytes) : Option SeenKey :=
  if keyIsField key then some .field
  else if keyIsValue key then some .value
  else if kind = .date && keyIsAfter key then some .after
  else if kind = .date && keyIsBefore key then some .before
  else if kind = .date && keyIsSince key then some .since
  else if keyIsAny key then some .any
  else if keyIsIgnoreCase key then some .ignoreCase
  else
    match keyBound key with
    | some bound => some (.bound bound)
    | none =>
      if keyIsAfter key then some .after
      else if keyIsBefore key then some .before
      else if keyIsSince key then some .since
      else none

/-- `prepare_selector_value_temporal` -/
def prepareSelectorValueTemporal (kind : SelectorKind) (p : Payload) : Payload :=
  match p.value with
  | some value =>
    if kind = .eq || kind = .ne then
      match parseTemporalLiteral value with
      | some t => { p with temporalEq := some t, valueIsTemporal := true }
      | none => { p with valueIsTemporal := false }
    else { p with valueIsTemporal := false }
  | none => { p with valueIsTemporal := false }

/-- What `parse_key_values` does with the value of a key; `raw` is the value as it was written. -/
def storeKeyValue (kind : SelectorKind) (p : Payload) (key raw : Bytes) : Except Err Payload :=
  let decoded := unquote raw
  if keyIsField key then
    if decoded = [] then parseError "selector field required"
    else
      match normalizeFieldPath decoded with
      | none => parseError "selector field must be a JSON pointer"
      | some field => .ok { p with field := some field }
  else if kind = .date && keyIsValue key then setDateBound p .value decoded
  else if keyIsValue key then
    if decoded = [] && raw = [] && selectorKindUsesTextualNeedles kind then
      .ok { p with value := none, valueSet := false, valueKind := .string }
    else
      .ok { p with
        value := some decoded
        valueSet := true
        valueKind := if selectorKindUsesTextualNeedles kind then .string else selectorLiteralKind raw }
  else if kind = .date && keyIsAfter key then setDateBound p .after decoded
  else if kind = .date && keyIsBefore key then setDateBound p .before decoded
  else if kind = .date && keyIsSince key then setDateBound p .since decoded
  else if keyIsAny key then parseAnyValues decoded p (kind = .isIn) (selectorKindUsesTextualNeedles kind)
  else if keyIsIgnoreCase key then
    match parseBoolValue decoded with
    | none => parseError "selector ignoreCase must be true/false/t/f"
    | some value => .ok { p with ignoreCase := value }
  else
    match keyBound key with
    | none => .ok p
    | some bound => if kind = .date then setDateBound p (.bound bound) decoded else setRangeBound p bound decoded

/-- What `parse_key_values` has read so far: the values as they were written, and the predicate. -/
structure KeyValues where
  seen : SeenKey → Option Bytes
  payload : Payload

/-- One round of the loop of `parse_key_values` -/
def parseKeyValue (kind : SelectorKind) (s : KeyValues) (part : Bytes) : Except Err KeyValues :=
  match part.dropWhile (· ≠ 0x3d) with
  | [] => parseError "selector predicate requires key=value"
  | _ :: val =>
    let key := trim (part.takeWhile (· ≠ 0x3d))
    let raw := trim val
    if !keyAllowedForKind kind key then parseError "selector operator does not support key"
    else if kind = .isIn && keyIsAny key && isSpace (val.headD 0) && raw ≠ [] then
      parseError "selector any values must not have surrounding whitespace"
    else
      match seenSlot kind key with
      | none => parseError "selector operator does not support key"
      | some slot =>
        -- `remember_key_value`: a key may come again with the same value
        match s.seen slot with
        | some earlier => if earlier = raw then .ok s else parseError "selector expression has duplicate key"
        | none => do
          let payload ← storeKeyValue kind s.payload key raw
          .ok { seen := fun k => if k = slot then some raw else s.seen k, payload }

/-- The checks behind the loop of `parse_key_values` -/
def checkKeyValues (kind : SelectorKind) (seen : SeenKey → Option Bytes) (p : Payload) : Except Err Unit :=
  let has (k : SeenKey) : Bool := (seen k).isSome
  if p.field = none then parseError "selector field required"
  else if kind = .date && has .since && (has .value || has .after || has .before || has (.bound .gt) ||
      has (.bound .gte) || has (.bound .lt) || has (.bound .lte)) then
    parseError "date selector since cannot be combined with other bounds"
  else if kind = .date && has .after && has (.bound .gt) then
    parseError "date selector cannot combine after and gt"
  else if kind = .date && has .before && has (.bound .lt) then
    parseError "date selector cannot combine before and lt"
  else if p.anyValues ≠ [] && kind ≠ .contains && kind ≠ .icontains && kind ≠ .isIn then
    parseError "selector operator does not support any"
  else if p.anyValues ≠ [] && kind ≠ .isIn && (p.valueSet || p.value.isSome) then
    parseError "selector cannot set both value and any"
  else if kind = .isIn && p.anyValues = [] then parseError "in selector requires any values"
  else if kind = .range && !p.hasRange.any && !p.temporal.any then
    parseError "range selector requires at least one bound"
  else if kind = .range && p.hasRange.any && p.temporal.any then
    parseError "range selector cannot mix numeric and datetime bounds"
  else if kind = .date && p.temporalEq = none && !p.temporal.any && p.sinceMacro = .none then
    parseError "date selector requires at least one bound"
  else .ok ()

/-- `parse_key_values` -/
def parseKeyValues (body : Bytes) (kind : SelectorKind) : Except Err Payload := do
  let parts ← splitAssignments body
  let s ← parts.foldlM (parseKeyValue kind) { seen := fun _ => none, payload := {} }
  checkKeyValues kind s.seen s.payload
  .ok (prepareSelectorValueTemporal kind s.payload)

/-- `string_predicate_is_match_all_alias` -/
def stringPredicateIsMatchAllAlias (kind : SelectorKind) (p : Payload) : Bool :=
  selectorKindUsesTextualNeedles kind && p.field.isSome && p.anyValues = [] &&
    ((!p.valueSet && p.value = none) || (p.valueSet && p.value = some [])) &&
    (p.field = some (ascii "/") || ((kind = .contains || kind = .icontains) &&
      (p.field = some (ascii "/*") || p.field = some (ascii "/..."))))

/-- `parse_exists_body` -/
def parseExistsBody (body : Bytes) : Except Err Payload := do
  let parts ← splitTop body
  match parts with
  | [item] =>
    if item.contains 0x3d then parseError "exists selector requires exactly one path"
    else if unquote item = [] then parseError "exists selector requires exactly one path"
    else
      match normalizeFieldPath (unquote item) with
      | none => parseError "selector field must be a JSON pointer"
      | some field => .ok { field := some field }
  | _ => parseError "exists selector requires exactly one path"

/-! ## One clause -/

/-- A shorthand such as `/a>=3`: `op` is the text from the operator on. -/
def parseShorthand (front op : Bytes) : Except Err Selector :=
  let op0 := op.headD 0
  let op2 := (op.tail.headD 0 = 0x3d) || op0 = 0x21
  let rawValue := trim (op.drop (if op2 then 2 else 1))
  let value := unquote rawValue
  let valueIsString := rawValue.head? = some chQuote || rawValue.head? = some 0x27
  let p : Payload :=
    { field := normalizeFieldPath (trim front)
      value := some value
      valueSet := true
      valueIsString
      valueKind := if valueIsString then .string else selectorLiteralKind value }
  if op0 = 0x21 then .ok (.leaf .ne (prepareSelectorValueTemporal .ne p))
  else if op0 = 0x3e then do
    let p ← setRangeBound p (if op2 then .gte else .gt) value
    .ok (.leaf .range p)
  else if op0 = 0x3c then do
    let p ← setRangeBound p (if op2 then .lte else .lt) value
    .ok (.leaf .range p)
  else .ok (.leaf .eq (prepareSelectorValueTemporal .eq p))

/-- A predicate with its fields in braces. -/
def parseBraces (name body : Bytes) : Except Err Selector :=
  let kind := kindFromName name
  if kind = .all then parseError "unknown selector operator"
  else if kind = .exist then do
    let p ← parseExistsBody body
    .ok (.leaf .exist p)
  else do
    let p ← parseKeyValues body kind
    if stringPredicateIsMatchAllAlias kind p then .ok (.leaf .all {}) else .ok (.leaf kind p)

/-- `parse_one` of a clause that does not begin with `and.`, `or.` or `not.`. -/
def parsePredicate (expr : Bytes) : Except Err Selector :=
  if expr = ascii "/" || expr = ascii "." || expr = ascii "\x7b\x7d" then .ok (.leaf .all {})
  else
    match (if expr.head? = some chSlash then findShorthandOperator [] none expr else none) with
    | some (front, op) => parseShorthand front op
    | none =>
      match expr.dropWhile (· ≠ chLBrace) with
      | _ :: body =>
        if body.getLast? = some chRBrace then parseBraces (expr.takeWhile (· ≠ chLBrace)) body.dropLast
        else parseError "invalid selector expression"
      | [] => parseError "invalid selector expression"

end Lql.Selector
