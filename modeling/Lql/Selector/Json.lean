import Lql.Selector.Text
import Lql.Scan.Match
import Lql.Scan.Read

/-!
# Selectors as JSON

A selector AST in JSON is read without a tree of its own: a scanner walks over the text and hands what it meets to
a machine with a stack of frames, and the selector grows in the frames. This module holds both.
-/

namespace Lql.Selector

/-! ## The machine -/

/-- What the scanner reports; strings and numbers arrive decoded and whole. -/
inductive JsonEvent where
  | objectBegin
  | objectEnd
  | arrayBegin
  | arrayEnd
  | key (text : Bytes)
  | string (text : Bytes)
  | number (text : Bytes)
  | boolean (value : Bool)
  | null
  deriving DecidableEq, Repr

/-- `selector_json_frame_kind` -/
inductive JsonFrameKind where
  | selector
  | childArray
  | predicate
  | anyArray
  deriving DecidableEq, Repr

/-- `selector_json_frame`. The node that the frame points to is kept in the frame, and handed to the frame below
when this one is popped. -/
structure JsonFrame where
  kind : JsonFrameKind
  selector : Selector
  pendingKey : Option Bytes := none
  keyCount : Nat := 0
  seen : SeenKey → Bool := fun _ => false

/-- `selector_json_state` -/
structure JsonState where
  selector : Selector := .leaf .all {}
  frames : List JsonFrame := []

/-- `selector_json_kind_is_valid_operator` -/
def jsonKindIsValidOperator (kind : SelectorKind) : Bool := kind ≠ .all && kind ≠ .ne

/-- The flag that `selector_json_mark_seen` picks for a key. -/
def jsonSeenSlot (kind : SelectorKind) (key : Bytes) : Option SeenKey :=
  if keyIsField key then some .field
  else if keyIsValue key then some .value
  else if keyIsIgnoreCase key then some .ignoreCase
  else
    match keyBound key with
    | some bound => some (.bound bound)
    | none =>
      if keyIsAfter key && kind = .date then some .after
      else if keyIsBefore key && kind = .date then some .before
      else if keyIsSince key then some .since
      else if keyIsAny key then some .any
      else none

/-- `selector_json_mark_seen`: a key comes once, under whichever of its names. -/
def jsonMarkSeen (f : JsonFrame) (key : Bytes) : Option JsonFrame :=
  match jsonSeenSlot f.selector.kind key with
  | none => some f
  | some slot => if f.seen slot then none else some { f with seen := fun k => k = slot || f.seen k }

/-- The payload of a node, changed. -/
def withPayload (s : Selector) (p : Payload) : Selector := .node s.kind p s.children

/-- `prepare_selector_value_temporal` where the value may hold a NUL: then it is no date. -/
def prepareValueTemporal (kind : SelectorKind) (p : Payload) : Payload :=
  if 0 ∈ p.value.getD [] then { p with valueIsTemporal := false } else prepareSelectorValueTemporal kind p

/-- `selector_json_store_field` -/
def jsonStoreField (p : Payload) (value : Bytes) : Except Err Payload :=
  if value = [] then parseError "selector field required"
  else
    match normalizeFieldPath value with
    | none => parseError "selector field must be a JSON pointer"
    | some field => .ok { p with field := some field }

/-- The kind that `selector_json_store_value` and `selector_json_push_any` keep. -/
def jsonLiteralKind (kind : SelectorKind) (literal : LiteralKind) : LiteralKind :=
  if selectorKindUsesTextualNeedles kind then .string else literal

/-- `selector_json_store_value` -/
def jsonStoreValue (kind : SelectorKind) (p : Payload) (value : Bytes) (literal : LiteralKind) : Payload :=
  { p with
    value := some value
    valueSet := true
    valueKind := jsonLiteralKind kind literal
    valueIsString := jsonLiteralKind kind literal = .string
    valueFromJson := true }

/-- `selector_json_push_any` -/
def jsonPushAny (kind : SelectorKind) (p : Payload) (value : Bytes) (literal : LiteralKind) : Payload :=
  { p with anyValues := p.anyValues ++ [⟨value, jsonLiteralKind kind literal, true⟩] }

/-- The frame with another payload on its node. -/
def JsonFrame.store (f : JsonFrame) (p : Payload) : JsonFrame := { f with selector := withPayload f.selector p }

/-- `selector_json_store_scalar` -/
def jsonStoreScalar (f : JsonFrame) (value : Bytes) (literal : LiteralKind) : Except Err JsonFrame :=
  let kind := f.selector.kind
  if literal = .number && !Number.isJson value then parseError "selector JSON number is invalid"
  else if f.kind = .predicate && f.pendingKey.any keyIsValue && kind ≠ .date then
    .ok (f.store (jsonStoreValue kind f.selector.payload value literal))
  else if f.kind = .anyArray then .ok (f.store (jsonPushAny kind f.selector.payload value literal))
  else parseError "unexpected selector JSON scalar"

/-- `selector_json_validate_predicate` -/
def jsonValidatePredicate (f : JsonFrame) : Except Err Payload :=
  let kind := f.selector.kind
  let p := f.selector.payload
  if p.field = none then parseError "selector field required"
  else if kind = .isIn && p.anyValues = [] then parseError "in selector requires any values"
  else if (kind = .contains || kind = .icontains) && p.anyValues ≠ [] && (p.valueSet || p.value.isSome) then
    parseError "selector cannot set both value and any"
  else if kind = .range && !p.hasRange.any && !p.temporal.any then
    parseError "range selector requires at least one bound"
  else if kind = .range && p.hasRange.any && p.temporal.any then
    parseError "range selector cannot mix numeric and datetime bounds"
  else if kind = .date && f.seen .since && (f.seen .value || f.seen .after || f.seen .before || f.seen (.bound .gt) ||
      f.seen (.bound .gte) || f.seen (.bound .lt) || f.seen (.bound .lte)) then
    parseError "date selector since cannot be combined with other bounds"
  else if kind = .date && f.seen .after && f.seen (.bound .gt) then
    parseError "date selector cannot combine after and gt"
  else if kind = .date && f.seen .before && f.seen (.bound .lt) then
    parseError "date selector cannot combine before and lt"
  else if kind = .date && p.temporalEq = none && !p.temporal.any && p.sinceMacro = .none then
    parseError "date selector requires at least one bound"
  else .ok (prepareValueTemporal kind p)

/-- The part of `selector_json_object_end` for a predicate: the node that its members make. -/
def jsonEndPredicate (f : JsonFrame) : Except Err Selector :=
  match jsonValidatePredicate f with
  | .error e => .error e
  | .ok p =>
    .ok (if stringPredicateIsMatchAllAlias f.selector.kind p then .leaf .all {} else withPayload f.selector p)

/-- The part of `selector_json_object_end` for a selector object. -/
def jsonEndSelector (f : JsonFrame) : Except Err Selector :=
  let s := if f.keyCount = 0 then .node .all f.selector.payload f.selector.children else f.selector
  if s.kind = .not && s.children.length ≠ 1 then parseError "not selector requires one child" else .ok s

/-- `selector_json_pop_frame`: a selector object is a child of the node below, any other frame shares its node. -/
def jsonPop (s : JsonState) (f : JsonFrame) (below : List JsonFrame) : JsonState :=
  match below with
  | [] => { selector := f.selector, frames := [] }
  | b :: rest =>
    let selector := if f.kind = .selector then b.selector.append f.selector else f.selector
    { s with frames := { b with selector } :: rest }

/-- `selector_json_end_key` -/
def jsonEndKey (f : JsonFrame) (text : Bytes) : Except Err JsonFrame :=
  if 0 ∈ text then parseError "selector JSON key contains NUL"
  else
    match f.kind with
    | .childArray | .anyArray => parseError "unexpected selector JSON object key"
    | .selector =>
      let kind := kindFromName text
      if !jsonKindIsValidOperator kind then parseError "unknown selector JSON operator"
      else if f.keyCount ≠ 0 then parseError "selector JSON object has multiple operators"
      else .ok { f with
        selector := .node kind f.selector.payload f.selector.children, keyCount := 1, pendingKey := some text }
    | .predicate =>
      if !keyAllowedForKind f.selector.kind text then parseError "selector operator does not support key"
      else
        match jsonMarkSeen f text with
        | none => parseError "selector expression has duplicate key"
        | some f => .ok { f with pendingKey := some text }

/-- `selector_json_object_begin` -/
def jsonObjectBegin (s : JsonState) : Except Err JsonState :=
  match s.frames with
  | [] => .ok { s with frames := [{ kind := .selector, selector := s.selector }] }
  | f :: rest =>
    let fresh : JsonFrame := { kind := .selector, selector := .leaf .all {} }
    if f.kind = .childArray then .ok { s with frames := fresh :: f :: rest }
    else if f.kind ≠ .selector || f.pendingKey = none then parseError "unexpected selector JSON object"
    else if f.selector.kind = .not then .ok { s with frames := fresh :: { f with pendingKey := none } :: rest }
    else if f.selector.isPredicate && f.selector.kind ≠ .exist then
      .ok { s with frames := { kind := .predicate, selector := f.selector } :: { f with pendingKey := none } :: rest }
    else parseError "unexpected selector JSON object"

/-- `selector_json_object_end` -/
def jsonObjectEnd (s : JsonState) : Except Err JsonState :=
  match s.frames with
  | [] => parseError "unexpected selector JSON object end"
  | f :: rest =>
    if f.kind ≠ .selector && f.kind ≠ .predicate then parseError "unexpected selector JSON object end"
    else if f.pendingKey ≠ none then parseError "selector JSON key has no value"
    else
      match if f.kind = .selector then jsonEndSelector f else jsonEndPredicate f with
      | .error e => .error e
      | .ok node => .ok (jsonPop s { f with selector := node } rest)

/-- `selector_json_array_begin` -/
def jsonArrayBegin (s : JsonState) : Except Err JsonState :=
  match s.frames with
  | [] => parseError "unexpected selector JSON array"
  | f :: rest =>
    let below := { f with pendingKey := none }
    if f.kind = .selector && f.pendingKey.isSome && (f.selector.kind = .and || f.selector.kind = .or) then
      .ok { s with frames := { kind := .childArray, selector := f.selector } :: below :: rest }
    else if f.kind = .predicate && f.pendingKey.any keyIsAny then
      .ok { s with frames := { kind := .anyArray, selector := f.selector } :: below :: rest }
    else parseError "unexpected selector JSON array"

/-- `selector_json_array_end` -/
def jsonArrayEnd (s : JsonState) : Except Err JsonState :=
  match s.frames with
  | [] => parseError "unexpected selector JSON array end"
  | f :: rest =>
    if f.kind ≠ .childArray && f.kind ≠ .anyArray then parseError "unexpected selector JSON array end"
    else .ok (jsonPop s f rest)

/-- A string that a key of a predicate needs without a NUL in it. -/
def jsonText (text : Bytes) (message : String) : Except Err Bytes := if 0 ∈ text then parseError message else .ok text

/-- `selector_json_store_predicate_string` -/
def jsonStorePredicateString (kind : SelectorKind) (p : Payload) (key text : Bytes) : Except Err Payload :=
  if keyIsField key then do
    let text ← jsonText text "selector field contains NUL"
    jsonStoreField p text
  else if kind = .date && keyIsValue key then do
    let text ← jsonText text "date selector bound contains NUL"
    setDateBound p .value text
  else if keyIsValue key then .ok (jsonStoreValue kind p text .string)
  else if kind = .date && (keyIsAfter key || keyIsBefore key || keyIsSince key) then do
    let text ← jsonText text "date selector bound contains NUL"
    setDateBound p (if keyIsAfter key then .after else if keyIsBefore key then .before else .since) text
  else if keyIsAny key then do
    let text ← jsonText text "selector any contains NUL"
    parseAnyValues text p (kind = .isIn) (selectorKindUsesTextualNeedles kind)
  else if keyIsIgnoreCase key then do
    let text ← jsonText text "selector ignoreCase contains NUL"
    match parseBoolValue text with
    | none => parseError "selector ignoreCase must be true/false/t/f"
    | some value => .ok { p with ignoreCase := value }
  else
    match keyBound key with
    | none => .ok p
    | some bound => do
      let text ← jsonText text "range selector bound contains NUL"
      if kind = .date then setDateBound p (.bound bound) text else setRangeBound p bound text

/-- `selector_json_string_end` -/
def jsonStringEnd (f : JsonFrame) (text : Bytes) : Except Err JsonFrame :=
  let done (p : Payload) : JsonFrame := { f.store p with pendingKey := none }
  match f.kind, f.pendingKey with
  | .selector, some _ =>
    if f.selector.kind ≠ .exist then parseError "unexpected selector JSON string"
    else if text.headD 0 = 0 then parseError "exists selector requires exactly one path"
    else if 0 ∈ text then parseError "exists selector path contains NUL"
    else (jsonStoreField f.selector.payload text).map done
  | .predicate, some key => (jsonStorePredicateString f.selector.kind f.selector.payload key text).map done
  | .anyArray, _ => .ok (f.store (jsonPushAny f.selector.kind f.selector.payload text .string))
  | _, _ => parseError "unexpected selector JSON string"

/-- `selector_json_number_end` -/
def jsonNumberEnd (f : JsonFrame) (text : Bytes) : Except Err JsonFrame :=
  match if f.kind = .predicate && f.selector.kind = .range then f.pendingKey.bind keyBound else none with
  | some bound => (setRangeBound f.selector.payload bound text).map fun p => { f.store p with pendingKey := none }
  | none => (jsonStoreScalar f text .number).map fun f => { f with pendingKey := none }

/-- `selector_json_boolean` -/
def jsonBoolean (f : JsonFrame) (value : Bool) : Except Err JsonFrame :=
  if f.kind = .predicate && f.pendingKey.any keyIsIgnoreCase then
    .ok { f.store { f.selector.payload with ignoreCase := value } with pendingKey := none }
  else
    (jsonStoreScalar f (if value then txtTrue else txtFalse) .bool).map fun f => { f with pendingKey := none }

/-- `selector_json_null` -/
def jsonNull (f : JsonFrame) : Except Err JsonFrame :=
  (jsonStoreScalar f txtNull .null).map fun f => { f with pendingKey := none }

/-- An event for the frame on top; `empty` is the message where there is none. -/
def jsonOnTop (s : JsonState) (empty : String) (act : JsonFrame → Except Err JsonFrame) : Except Err JsonState :=
  match s.frames with
  | [] => parseError empty
  | f :: rest => (act f).map fun f => { s with frames := f :: rest }

/-- The callbacks of the scanner. -/
def jsonStep (s : JsonState) : JsonEvent → Except Err JsonState
  | .objectBegin => jsonObjectBegin s
  | .objectEnd => jsonObjectEnd s
  | .arrayBegin => jsonArrayBegin s
  | .arrayEnd => jsonArrayEnd s
  | .key text => jsonOnTop s "unexpected selector JSON object key" fun f => jsonEndKey f text
  | .string text => jsonOnTop s "unexpected selector JSON string" fun f => jsonStringEnd f text
  | .number text => jsonOnTop s "unexpected selector JSON scalar" fun f => jsonNumberEnd f text
  | .boolean value => jsonOnTop s "unexpected selector JSON scalar" fun f => jsonBoolean f value
  | .null => jsonOnTop s "unexpected selector JSON scalar" jsonNull

/-! ## The scanner -/

/-- `selector_json_scan_fail` -/
def jsonScanFail {α : Type} (message : String) : Except Err α := .error ⟨.jsonError, message⟩

/-- `selector_json_scan_ws` -/
def jsonScanWs (input : Bytes) : Bytes := input.dropWhile Scan.isSpace

/-- The loop of `selector_json_scan_hex4` -/
def jsonScanHexLoop : Nat → Nat → Bytes → Option (Nat × Bytes)
  | 0, value, input => some (value, input)
  | _ + 1, _, [] => none
  | k + 1, value, c :: input =>
    match Scan.hexValue c with
    | none => none
    | some digit => jsonScanHexLoop k (value * 16 + digit) input

/-- `selector_json_scan_hex4` -/
def jsonScanHex4 (input : Bytes) : Option (Nat × Bytes) := jsonScanHexLoop 4 0 input

/-- The continuation bytes behind the first byte of a code point; the first of them lies between `low` and `high`. -/
def jsonScanContinuation : Nat → UInt8 → UInt8 → Bytes → Option (Bytes × Bytes)
  | 0, _, _, input => some ([], input)
  | _ + 1, _, _, [] => none
  | k + 1, low, high, c :: input =>
    if c < low || high < c then none
    else (jsonScanContinuation k 0x80 0xbf input).map fun r => (c :: r.1, r.2)

/-- The escapes of `selector_json_scan_string`, behind the backslash: the bytes that they stand for. -/
def jsonScanEscape : Bytes → Except Err (Bytes × Bytes)
  | [] => jsonScanFail "JSON string escape is truncated"
  | c :: input =>
    if Scan.isShortEscape c then .ok ([Scan.shortEscapeByte c], input)
    else if c ≠ chU then jsonScanFail "invalid JSON string escape"
    else
      match jsonScanHex4 input with
      | none => jsonScanFail "invalid JSON unicode escape"
      | some (cp, input) =>
        if 0xd800 ≤ cp && cp ≤ 0xdbff then
          match input with
          | b :: u :: input =>
            if b ≠ chBackslash || u ≠ chU then jsonScanFail "JSON high surrogate is unpaired"
            else
              match jsonScanHex4 input with
              | none => jsonScanFail "JSON high surrogate is unpaired"
              | some (low, input) =>
                if low < 0xdc00 || 0xdfff < low then jsonScanFail "JSON high surrogate is unpaired"
                else .ok (Scan.unicodeBytes (0x10000 + (((cp - 0xd800) <<< 10) ||| (low - 0xdc00))), input)
          | _ => jsonScanFail "JSON high surrogate is unpaired"
        else if 0xdc00 ≤ cp && cp ≤ 0xdfff then jsonScanFail "JSON low surrogate is unpaired"
        else .ok (Scan.unicodeBytes cp, input)

/-- The loop of `selector_json_scan_string`, behind the opening quote. -/
def jsonScanStringLoop : Nat → Bytes → Bytes → Except Err (Bytes × Bytes)
  | 0, _, _ => jsonScanFail "unterminated JSON string"
  | fuel + 1, text, input =>
    match input with
    | [] => jsonScanFail "unterminated JSON string"
    | c :: input =>
      if c = chQuote then .ok (text, input)
      else if c < 0x20 then jsonScanFail "JSON string contains control byte"
      else if c = chBackslash then
        match jsonScanEscape input with
        | .error e => .error e
        | .ok (bytes, input) => jsonScanStringLoop fuel (text ++ bytes) input
      else if c < 0x80 then jsonScanStringLoop fuel (text ++ [c]) input
      else
        match (Scan.leadInfo c).bind fun lead => jsonScanContinuation lead.1 lead.2.1 lead.2.2 input with
        | none => jsonScanFail "invalid UTF-8 in JSON string"
        | some (bytes, input) => jsonScanStringLoop fuel (text ++ c :: bytes) input

/-- `selector_json_scan_string` -/
def jsonScanString (input : Bytes) : Except Err (Bytes × Bytes) :=
  match input with
  | [] => jsonScanFail "JSON string expected"
  | c :: rest =>
    if c = chQuote then jsonScanStringLoop input.length [] rest else jsonScanFail "JSON string expected"

/-- A run of digits, of which there is at least one. -/
def jsonScanDigits (input : Bytes) : Except Err (Bytes × Bytes) :=
  if isDigit (input.headD 0) then .ok (input.span isDigit) else jsonScanFail "invalid JSON number"

/-- `selector_json_scan_number`: the text of the number, and what is behind it. -/
def jsonScanNumber (input : Bytes) : Except Err (Bytes × Bytes) := do
  let (sign, rest) := input.span (· = chMinus)
  if 1 < sign.length then jsonScanFail "invalid JSON number"
  let (int, rest) ← if rest.headD 0 = chZero then .ok ([chZero], rest.drop 1) else jsonScanDigits rest
  let (frac, rest) ←
    if rest.headD 0 = chDot then (jsonScanDigits (rest.drop 1)).map fun r => (chDot :: r.1, r.2) else .ok ([], rest)
  let (exp, rest) ←
    if rest.headD 0 = chLowerE || rest.headD 0 = chUpperE then
      let (plus, digits) :=
        if (rest.drop 1).headD 0 = chPlus || (rest.drop 1).headD 0 = chMinus then ((rest.drop 1).take 1, rest.drop 2)
        else ([], rest.drop 1)
      (jsonScanDigits digits).map fun r => (rest.take 1 ++ plus ++ r.1, r.2)
    else .ok ([], rest)
  .ok (sign ++ int ++ frac ++ exp, rest)

/-- `selector_json_match_literal` -/
def jsonMatchLiteral (literal input : Bytes) : Option Bytes :=
  if input.take literal.length = literal then some (input.drop literal.length) else none

mutual

/-- `selector_json_scan_value`; the fuel bounds the bytes that are read. -/
def jsonScanValue : Nat → JsonState → Bytes → Except Err (JsonState × Bytes)
  | 0, _, _ => jsonScanFail "JSON value expected"
  | fuel + 1, s, input =>
    let input := jsonScanWs input
    match input with
    | [] => jsonScanFail "JSON value expected"
    | c :: rest =>
      if c = chLBrace then do
        let s ← jsonStep s .objectBegin
        if (jsonScanWs rest).headD 0 = chRBrace then (jsonStep s .objectEnd).map fun s => (s, (jsonScanWs rest).drop 1)
        else jsonScanMembers fuel s (jsonScanWs rest)
      else if c = chLBracket then do
        let s ← jsonStep s .arrayBegin
        if (jsonScanWs rest).headD 0 = chRBracket then (jsonStep s .arrayEnd).map fun s => (s, (jsonScanWs rest).drop 1)
        else jsonScanElements fuel s (jsonScanWs rest)
      else if c = chQuote then do
        let (text, rest) ← jsonScanString input
        (jsonStep s (.string text)).map fun s => (s, rest)
      else if c = chT then
        match jsonMatchLiteral txtTrue input with
        | none => jsonScanFail "invalid JSON value"
        | some rest => (jsonStep s (.boolean true)).map fun s => (s, rest)
      else if c = chF then
        match jsonMatchLiteral txtFalse input with
        | none => jsonScanFail "invalid JSON value"
        | some rest => (jsonStep s (.boolean false)).map fun s => (s, rest)
      else if c = chN then
        match jsonMatchLiteral txtNull input with
        | none => jsonScanFail "invalid JSON value"
        | some rest => (jsonStep s .null).map fun s => (s, rest)
      else if c = chMinus || isDigit c then do
        let (text, rest) ← jsonScanNumber input
        (jsonStep s (.number text)).map fun s => (s, rest)
      else jsonScanFail "invalid JSON value"

/-- The loop of `selector_json_scan_object` -/
def jsonScanMembers : Nat → JsonState → Bytes → Except Err (JsonState × Bytes)
  | 0, _, _ => jsonScanFail "unterminated JSON object"
  | fuel + 1, s, input => do
    let (key, rest) ← jsonScanString input
    let s ← jsonStep s (.key key)
    match jsonScanWs rest with
    | [] => jsonScanFail "JSON object colon expected"
    | c :: rest =>
      if c ≠ chColon then jsonScanFail "JSON object colon expected"
      else do
        let (s, rest) ← jsonScanValue fuel s (jsonScanWs rest)
        match jsonScanWs rest with
        | [] => jsonScanFail "unterminated JSON object"
        | c :: rest =>
          if c = chRBrace then (jsonStep s .objectEnd).map fun s => (s, rest)
          else if c ≠ chComma then jsonScanFail "JSON object comma expected"
          else jsonScanMembers fuel s (jsonScanWs rest)

/-- The loop of `selector_json_scan_array` -/
def jsonScanElements : Nat → JsonState → Bytes → Except Err (JsonState × Bytes)
  | 0, _, _ => jsonScanFail "unterminated JSON array"
  | fuel + 1, s, input => do
    let (s, rest) ← jsonScanValue fuel s input
    match jsonScanWs rest with
    | [] => jsonScanFail "unterminated JSON array"
    | c :: rest =>
      if c = chRBracket then (jsonStep s .arrayEnd).map fun s => (s, rest)
      else if c ≠ chComma then jsonScanFail "JSON array comma expected"
      else jsonScanElements fuel s (jsonScanWs rest)

end

/-- `selector_json_scan_document` -/
def jsonScanDocument (json : Bytes) : Except Err JsonState := do
  let (s, rest) ← jsonScanValue (json.length + 1) {} json
  if jsonScanWs rest ≠ [] then jsonScanFail "trailing data after JSON value" else .ok s

/-- `lql_parse_selector_json_internal` -/
def parseSelectorJson (json : Bytes) : Except Err Selector := do
  let s ← jsonScanDocument json
  if s.frames ≠ [] then parseError "selector JSON ended inside a value" else .ok s.selector

end Lql.Selector
