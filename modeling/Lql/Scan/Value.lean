import Lql.Scan.Keys
import Lql.Scan.NumberRange

/-!
# Scanning a value

The scanner proper: it validates a value, copies it without its spaces when the
scan captures, and on the way compares keys and scalars with the live terms. The
recursion of the source is open here: `object` and `array` take the scanner of the
nested values as an argument, and `value` closes the knot.
-/

namespace Lql.Scan

open Lib

/-- `scan->flat_eq_hits |= hits` -/
def addHits (hits : Mask) : ScanM Unit := modify fun s => { s with hits := s.hits ||| hits }

/-- A step on the string cursor. -/
def onMatch (f : Match → Match) : ScanM Unit := modify fun s => { s with m := f s.m }

/-- A step on the number. -/
def onNumber (f : Num → Num) : ScanM Unit := modify fun s => { s with num := f s.num }

/-! ## Scalars -/

/-- `lql_json_match_copy_byte` -/
def matchCopyByte (ctx : Ctx) (c : UInt8) : ScanM Unit := do
  onMatch fun m => if matchLive m then matchByte ctx m c else m
  onNumber fun num => numberRangeByte ctx num c
  onTape (copyByte ctx.capture c)

/-- `lql_json_literal` -/
def literal (ctx : Ctx) : Bytes → ScanM Unit
  | [] => return ()
  | c :: rest => do
    onTape (takeExpected c)
    matchCopyByte ctx c
    literal ctx rest

/-- `lql_json_number` -/
def number (ctx : Ctx) : ScanM Unit := do
  numberWith (onTape peek) (fun c => do onTape advance; matchCopyByte ctx c)
    ((← get).tape.input.size + 1)

/-- The part of `lql_json_string` behind a backslash. -/
def stringEscape (ctx : Ctx) : ScanM Unit := do
  onTape (copyByte ctx.capture chBackslash)
  let next ← onTape take
  if isShortEscape next then
    onMatch fun m => matchByte ctx m (shortEscapeByte next)
    onTape (copyByte ctx.capture next)
  else if next ≠ chU then jsonError "invalid JSON escape"
  else
    onTape (copyByte ctx.capture next)
    let (unicode, raw) ← onTape takeHex4
    onTape (write ctx.capture raw)
    if 0xdc00 ≤ unicode ∧ unicode ≤ 0xdfff then
      jsonError "unpaired low surrogate in JSON string"
    else if unicode < 0xd800 ∨ unicode > 0xdbff then
      onMatch fun m => matchUnicode ctx m unicode
    else
      onTape (takeExpected chBackslash)
      onTape (copyByte ctx.capture chBackslash)
      onTape (takeExpected chU)
      onTape (copyByte ctx.capture chU)
      let (low, lowRaw) ← onTape takeHex4
      onTape (write ctx.capture lowRaw)
      if low < 0xdc00 ∨ low > 0xdfff then jsonError "unpaired high surrogate in JSON string"
      else
        onMatch fun m =>
          matchUnicode ctx m (0x10000 + ((unicode - 0xd800) <<< 10) + (low - 0xdc00))

/-- The continuation loop of `lql_json_string`. -/
def stringContinuation (ctx : Ctx) : Nat → UInt8 → UInt8 → ScanM Unit
  | 0, _, _ => return ()
  | k + 1, lo, hi => do
    let c ← onTape take
    if c < lo || hi < c then jsonError "invalid UTF-8 in JSON string"
    else
      onTape (copyByte ctx.capture c)
      onMatch fun m => matchByte ctx m c
      stringContinuation ctx k 0x80 0xbf

/-- The loop of `lql_json_string`. -/
def stringLoop (ctx : Ctx) : Nat → ScanM Unit
  | 0 => outOfFuel
  | fuel + 1 => do
    onTape refill
    match (← get).tape.input.buffer with
    | [] => jsonError "unterminated JSON string"
    | value :: rest =>
      let span := plainAsciiSpan (value :: rest)
      if span ≠ 0 then
        let data := (value :: rest).take span
        onTape (modify fun t => { t with input := t.input.skip span })
        onTape (write ctx.capture data)
        onMatch fun m => if matchLive m then matchSpan ctx m data else m
        stringLoop ctx fuel
      else
        onTape advance
        if value = chQuote then onTape (copyByte ctx.capture value)
        else if value < 0x20 then jsonError "unescaped control byte in JSON string"
        else if value = chBackslash then do stringEscape ctx; stringLoop ctx fuel
        else if value < 0x80 then
          onMatch fun m => matchByte ctx m value
          onTape (copyByte ctx.capture value)
          stringLoop ctx fuel
        else
          match leadInfo value with
          | none => jsonError "invalid UTF-8 in JSON string"
          | some (remaining, lo, hi) => do
            onTape (copyByte ctx.capture value)
            onMatch fun m => matchByte ctx m value
            stringContinuation ctx remaining lo hi
            stringLoop ctx fuel

/-- `lql_json_string` -/
def string (ctx : Ctx) : ScanM Unit := do
  onTape (takeExpected chQuote)
  onTape (copyByte ctx.capture chQuote)
  stringLoop ctx ((← get).tape.input.size + 1)

/-! ## Scalars under a path -/

/-- The terms of a mask whose value is here, for a kind of value. -/
def valueTerms (ctx : Ctx) (keys : Mask) (segments : Nat → Nat) (p : TermKind → Bool) : Mask :=
  termsWhere ctx fun i t => keys.has i && termValueAt t (segments i) && p t.kind

/-- A string value that `eqTerms` and `temporalTerms` look at. -/
def matchedString (ctx : Ctx) (eqTerms temporalTerms : Mask) : ScanM Unit := do
  onMatch fun m => temporalRangeStart (matchStart ctx m eqTerms false 0) temporalTerms
  string ctx
  let s ← get
  addHits (matchComplete ctx s.m ||| temporalRangeComplete ctx s.m)
  onMatch fun m => matchStart ctx (temporalRangeStart m 0) 0 false 0

/-- `true`, `false` or `null`, with the terms that want its text or its value. -/
def matchedLiteral (ctx : Ctx) (scalarTerms textualTerms : Mask) (text : Bytes) : ScanM Unit := do
  onMatch fun m => matchStart ctx m textualTerms false 0
  literal ctx text
  let s ← get
  addHits (scalarLiteralHits ctx scalarTerms text ||| matchComplete ctx s.m)
  onMatch fun m => matchStart ctx m 0 false 0

/-- A number, with the terms that want its text or its value. -/
def matchedNumber (ctx : Ctx) (value : ScanM Unit) (textualTerms rangeTerms numberEqTerms : Mask) :
    ScanM Unit := do
  onMatch fun m => matchStart ctx m textualTerms false 0
  onNumber fun num => numberRangeStart ctx num (rangeTerms ||| numberEqTerms)
  value
  let s ← get
  addHits (matchComplete ctx s.m)
  match numberRangeComplete ctx s.num with
  | .error e => throw e
  | .ok hits => addHits hits
  match numberEqComplete ctx s.num numberEqTerms with
  | .error e => throw e
  | .ok hits => addHits hits
  onNumber fun num => numberRangeStart ctx num 0
  onMatch fun m => matchStart ctx m 0 false 0

/-- The value branch of `lql_json_object` for a member some terms have matched. -/
def memberValue (ctx : Ctx) (value : ScanM Unit) (matched : Mask) (first : Option UInt8) :
    ScanM Unit := do
  let segments := (← get).keyTermSegment
  let terms := valueTerms ctx matched segments
  match first with
  | none => value
  | some c =>
    if c = chQuote then matchedString ctx (terms (·.isString)) (terms (· = .temporalRange))
    else if c = chT ∨ c = chF then
      matchedLiteral ctx (terms (· = .boolEq)) (matchTextualValueTerms ctx matched segments)
        (if c = chT then txtTrue else txtFalse)
    else if c = chN then matchedLiteral ctx (terms (· = .nullEq)) 0 txtNull
    else if c = chMinus ∨ isDigit c then
      matchedNumber ctx value (matchTextualValueTerms ctx matched segments)
        (terms (· = .numberRange)) (terms (· = .numberEq))
    else value

/-- `lql_json_matched_scalar_value` -/
def matchedScalarValue (ctx : Ctx) (value : ScanM Unit) (matched : Mask) (first : Option UInt8) :
    ScanM Unit := do
  let s ← get
  addHits (matchValuelessPresent ctx s matched)
  let segments := s.m.termSegment
  let terms := valueTerms ctx matched segments
  if first ≠ some chN then addHits (terms (· = .exist))
  if first = some chQuote then
    let eqTerms := terms (·.isString)
    let temporalTerms := terms (· = .temporalRange)
    if eqTerms = 0 ∧ temporalTerms = 0 then string ctx else matchedString ctx eqTerms temporalTerms
  else if first = some chT ∨ first = some chF then
    let scalarTerms := terms (· = .boolEq)
    let textualTerms := matchTextualValueTerms ctx matched segments
    if scalarTerms = 0 ∧ textualTerms = 0 then value
    else matchedLiteral ctx scalarTerms textualTerms (if first = some chT then txtTrue else txtFalse)
  else if first = some chN then
    let scalarTerms := terms (· = .nullEq)
    if scalarTerms = 0 then value else matchedLiteral ctx scalarTerms 0 txtNull
  else if first ≠ some chLBrace ∧ first ≠ some chLBracket then
    let rangeTerms := terms (· = .numberRange)
    let numberEqTerms := terms (· = .numberEq)
    let textualTerms := matchTextualValueTerms ctx matched segments
    if textualTerms = 0 ∧ rangeTerms = 0 ∧ numberEqTerms = 0 then value
    else matchedNumber ctx value textualTerms rangeTerms numberEqTerms
  else value

/-! ## Containers -/

/-- `value == '{' || value == '['` -/
def isContainer (first : Option UInt8) : Bool := first = some chLBrace || first = some chLBracket

/-- Note the span of the captures whose value has just been copied. -/
def recordCaptures (ctx : Ctx) (values : Mask) (start : Nat) : ScanM Unit :=
  modify fun s =>
    let span : CaptureSpan :=
      { offset := start, len := outputOffset s.tape - start, found := true }
    { s with captureSpans :=
        updWhere ctx.captureKeys.length values.has (fun _ => span) s.captureSpans }

/-- The captures of a mask whose last segment is `depth`. -/
def captureValues (ctx : Ctx) (captures : Mask) (depth : Nat) : Mask :=
  maskOf ctx.captureKeys.length fun i =>
    captures.has i && (ctx.captureKey i).length = depth + 1

/-- The other captures of a mask. -/
def captureDescendants (ctx : Ctx) (captures : Mask) (depth : Nat) : Mask :=
  maskOf ctx.captureKeys.length fun i =>
    captures.has i && (ctx.captureKey i).length ≠ depth + 1

/-- `capture_start = capture_values == 0ul ? 0u : lql_json_output_offset(scan)` -/
def captureOffset (values : Mask) (s : State) : Nat :=
  if values = 0 then 0 else outputOffset s.tape

/-- Set the masks of a depth. -/
def setMasks (s : State) (depth : Nat) (path recursive capture : Mask) : State :=
  { s with
    pathActive := setAt s.pathActive depth path
    recursiveActive := setAt s.recursiveActive depth recursive
    capturePathActive := setAt s.capturePathActive depth capture }

/-- What `lql_json_object` knows about a member once its key has been read. -/
structure Member where
  key : KeyMatch
  recursiveTerms : Mask
  captures : Mask

/-- The key of a member: from the live terms of this depth to the terms and the
captures whose next segment it matches. -/
def objectKey (ctx : Ctx) (objectDepth : Nat) : ScanM Member := do
  let s ← get
  let live := s.flatEqActive && !stopHitReady ctx s.hits
  let keySource := if live then s.pathActive objectDepth else 0
  let inherited := if live then s.recursiveActive objectDepth else 0
  let (s, recursiveTerms) :=
    if ctx.hasRecursiveTerms then
      let (s, found) := matchRecursiveTerms ctx s keySource objectDepth
      (s, inherited ||| found ||| ctx.leadingRecursiveTerms)
    else (s, inherited)
  let keyActive :=
    if ctx.hasArrayTerms then matchObjectTerms ctx s keySource objectDepth else keySource
  let (s, wildcards) :=
    if ctx.hasObjectWildcards then matchObjectWildcards ctx s keySource objectDepth else (s, 0)
  let captureSource := s.capturePathActive objectDepth
  let anchor (s : State) : State × Mask :=
    if ctx.hasRepeatedRecursiveTerms then
      matchTerminalRecursiveAnchorTerms ctx s keyActive objectDepth
    else (s, 0)
  let plain :=
    if !ctx.capture && captureSource = 0 then
      tryPlainKeyMatch ctx s keyActive recursiveTerms objectDepth
    else none
  match plain with
  | some (s, k) =>
    let (s, anchors) := anchor s
    set s
    return { key := { k with matched := k.matched ||| wildcards ||| anchors }, recursiveTerms
             captures := 0 }
  | none =>
    let s := { s with m := captureStart ctx s.m captureSource objectDepth }
    set (matchStartKey ctx s keyActive recursiveTerms objectDepth)
    string ctx
    let s ← get
    let complete := matchComplete ctx s.m
    let captures := captureComplete ctx s.m
    let (s, recursiveWildcards) := matchRecursiveObjectWildcards ctx s recursiveTerms objectDepth
    let (s, terminal) := matchTerminalRecursiveTerms ctx s recursiveTerms objectDepth
    let (s, anchors) := anchor s
    set s
    return { key := { matched := complete ||| wildcards ||| recursiveWildcards ||| terminal |||
                        anchors }
             recursiveTerms, captures }

/-- Hand the terms that have matched a key on to the value behind it: `first` is its
first byte. The result is the captures that end here, and the others. -/
def enterMember (ctx : Ctx) (objectDepth : Nat) (member : Member) (first : Option UInt8) :
    ScanM (Mask × Mask × Mask) := do
  let matched := member.key.matched
  if isContainer first then
    modify fun s => reconcile ctx s member.key member.recursiveTerms objectDepth
  let s ← get
  let descendants := if matched = 0 then 0 else matchDescendants ctx s matched
  let values := captureValues ctx member.captures objectDepth
  let captureBelow := captureDescendants ctx member.captures objectDepth
  if objectDepth + 1 < maxDepth then
    if isContainer first then
      modify fun s => setMasks s (objectDepth + 1) descendants member.recursiveTerms captureBelow
      if member.recursiveTerms ≠ 0 then
        modify fun s =>
          carryRecursiveSegments ctx s objectDepth (objectDepth + 1) member.recursiveTerms matched
    else modify fun s => setMasks s (objectDepth + 1) 0 0 0
  return (descendants, values, captureBelow)

/-- One member of `lql_json_object`, from its key to the end of its value. -/
def objectMember (ctx : Ctx) (value : ScanM Unit) (skipFuel objectDepth : Nat) : ScanM Unit := do
  let member ← objectKey ctx objectDepth
  let matched := member.key.matched
  if matched ≠ 0 then modify fun s => setKeySegment ctx s matched
  let s ← get
  let existsTerms := if matched = 0 then 0 else matchExists ctx s matched
  addHits (if matched = 0 then 0 else matchValuelessPresent ctx s matched)
  onMatch fun m => matchStart ctx m 0 false 0
  onTape skipSpace
  onTape (takeExpected chColon)
  onTape (copyByte ctx.capture chColon)
  onTape skipSpace
  let first ← onTape peek
  let (descendants, values, captureBelow) ← enterMember ctx objectDepth member first
  if first ≠ some chN then addHits existsTerms
  let start := captureOffset values (← get)
  if matched ≠ 0 then memberValue ctx value matched first
  else if !ctx.capture && descendants = 0 && member.recursiveTerms = 0 && values = 0 &&
      captureBelow = 0 then
    onTape (skipValueFast skipFuel)
  else value
  recordCaptures ctx values start
  if objectDepth + 1 < maxDepth then modify fun s => setMasks s (objectDepth + 1) 0 0 0

/-- A member that `lql_json_object` only skips: enough hits are known already. -/
def skipMember (skipFuel : Nat) : TapeM Unit := do
  skipStringFast
  skipSpace
  takeExpected chColon
  skipSpace
  skipValueFast skipFuel

/-- The member loop of `lql_json_object`. -/
def objectMembers (ctx : Ctx) (value : ScanM Unit) (skipFuel objectDepth : Nat) :
    Nat → Option UInt8 → ScanM Unit
  | 0, _ => outOfFuel
  | fuel + 1, first => do
    if first ≠ some chQuote then jsonError "JSON object key must be a string"
    let s ← get
    if !ctx.capture && stopHitReady ctx s.hits && s.capturePathActive objectDepth = 0 then
      onTape (skipMember skipFuel)
      onTape skipSpace
      let c ← onTape take
      if c = chRBrace then onTape leave
      else if c ≠ chComma then jsonError "JSON object member separator is missing"
      else
        onTape skipSpace
        objectMembers ctx value skipFuel objectDepth fuel (← onTape peek)
    else
      objectMember ctx value skipFuel objectDepth
      onTape skipSpace
      let c ← onTape take
      if c = chRBrace then
        onTape (copyByte ctx.capture chRBrace)
        onTape leave
      else if c ≠ chComma then jsonError "JSON object member separator is missing"
      else
        onTape (copyByte ctx.capture chComma)
        onTape skipSpace
        objectMembers ctx value skipFuel objectDepth fuel (← onTape peek)

/-- `lql_json_object` -/
def object (ctx : Ctx) (value : ScanM Unit) (fuel : Nat) : ScanM Unit := do
  let objectDepth := (← get).tape.depth
  onTape enter
  onTape (takeExpected chLBrace)
  onTape (copyByte ctx.capture chLBrace)
  onTape skipSpace
  let first ← onTape peek
  if first = some chRBrace then
    onTape advance
    onTape (copyByte ctx.capture chRBrace)
    onTape leave
  else objectMembers ctx value fuel objectDepth fuel first

/-- What stays the same for all elements of an array. -/
structure ArrayScan where
  segment : Nat
  active : Mask
  captureActive : Mask
  recursiveTerms : Mask

/-- The terms an array element matches, and the masks of the depth below. `carry` is
the value of `value` that the source tests before it hands `...` positions on. -/
def enterElement (ctx : Ctx) (a : ArrayScan) (index : Nat) (carry : Option UInt8) :
    ScanM (Mask × Mask) := do
  let s ← get
  let (s, direct) := matchArrayIndex ctx s a.active a.segment index
  let directSegment := s.m.termSegment
  let (s, recursiveWildcards) := matchRecursiveArrayTerms ctx s a.recursiveTerms a.segment index
  let (s, terminal) := matchTerminalRecursiveTerms ctx s a.recursiveTerms a.segment
  let (s, anchors) :=
    if ctx.hasRepeatedRecursiveTerms then
      matchTerminalRecursiveAnchorTerms ctx s a.active a.segment
    else (s, 0)
  let element := direct ||| recursiveWildcards ||| terminal ||| anchors
  let recursiveCarry := a.recursiveTerms ||| termsWhere ctx fun i t =>
    element.has i && t.pathRecursiveSegments ≠ 0
  let s := setTermSegment ctx s element fun i =>
    if direct.has i then directSegment i else s.m.termSegment i
  let s := setKeySegment ctx s element
  let depth := s.tape.depth
  let s := { s with
    pathActive := setAt s.pathActive depth element
    recursiveActive := setAt s.recursiveActive depth recursiveCarry }
  let s :=
    if isContainer carry && recursiveCarry ≠ 0 then
      carryRecursiveSegments ctx s a.segment depth recursiveCarry element
    else s
  let captures := maskOf ctx.captureKeys.length fun i =>
    a.captureActive.has i && captureArrayIndex ctx i a.segment index
  set { s with
    capturePathActive := setAt s.capturePathActive depth (captureDescendants ctx captures a.segment) }
  return (element, captureValues ctx captures a.segment)

/-- One element of `lql_json_array`. -/
def arrayElement (ctx : Ctx) (value : ScanM Unit) (a : ArrayScan) (index : Nat)
    (carry : Option UInt8) : ScanM Unit := do
  let (element, values) ← enterElement ctx a index carry
  let start := captureOffset values (← get)
  if element ≠ 0 then
    let first ← onTape peek
    matchedScalarValue ctx value element first
  else value
  recordCaptures ctx values start
  modify fun s => setMasks s s.tape.depth 0 0 0

/-- The element loop of `lql_json_array`. After the first element `carry` is the comma
in front of the next one. -/
def arrayElements (ctx : Ctx) (value : ScanM Unit) (a : ArrayScan) :
    Nat → Nat → Option UInt8 → ScanM Unit
  | 0, _, _ => outOfFuel
  | fuel + 1, index, carry => do
    arrayElement ctx value a index carry
    onTape skipSpace
    let c ← onTape take
    if c = chRBracket then
      onTape (copyByte ctx.capture chRBracket)
      onTape leave
    else if c ≠ chComma then jsonError "JSON array separator is missing"
    else
      onTape (copyByte ctx.capture chComma)
      onTape skipSpace
      arrayElements ctx value a fuel (index + 1) (some c)

/-- `lql_json_array` -/
def array (ctx : Ctx) (value : ScanM Unit) (fuel : Nat) : ScanM Unit := do
  let s ← get
  if s.tape.depth = maxDepth then jsonError "JSON nesting exceeds the scanner limit"
  let segment := s.tape.depth
  let active := s.pathActive segment
  let (s, found) := matchRecursiveTerms ctx s active segment
  let a : ArrayScan :=
    { segment, active
      captureActive := s.capturePathActive segment
      recursiveTerms := found ||| s.recursiveActive segment ||| ctx.leadingRecursiveTerms }
  set (if segment + 1 < maxDepth then
    { s with
      pathActive := setAt s.pathActive (segment + 1) 0
      capturePathActive := setAt s.capturePathActive (segment + 1) 0 }
    else s)
  onTape enter
  onTape (takeExpected chLBracket)
  onTape (copyByte ctx.capture chLBracket)
  onTape skipSpace
  let first ← onTape peek
  if first = some chRBracket then
    onTape advance
    onTape (copyByte ctx.capture chRBracket)
    onTape leave
  else if (← get).tape.depth ≥ maxDepth then jsonError "JSON nesting exceeds the scanner limit"
  else arrayElements ctx value a fuel 0 first

/-- `lql_json_value` -/
def value (ctx : Ctx) : Nat → ScanM Unit
  | 0 => outOfFuel
  | fuel + 1 => do
    match ← onTape peek with
    | none => number ctx
    | some c =>
      if c = chLBrace then object ctx (value ctx fuel) fuel
      else if c = chLBracket then array ctx (value ctx fuel) fuel
      else if c = chQuote then string ctx
      else if c = chT then literal ctx txtTrue
      else if c = chF then literal ctx txtFalse
      else if c = chN then literal ctx txtNull
      else number ctx

end Lql.Scan
