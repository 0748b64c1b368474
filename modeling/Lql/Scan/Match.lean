import Lql.Scan.State

/-!
# Comparing strings with the active terms

While a key or a string value is read, its decoded bytes are handed to the active
terms: one at a time (`matchByte`), or as a run of plain ASCII bytes
(`matchSpan`), which treats most terms in bulk and falls back to single bytes for
a segment with a JSON Pointer escape. A loop over the terms whose rounds do not
touch each other is written as one update of all of them.
-/

namespace Lql.Scan

open Lib

/-- The entries of a per-term array for which a test holds, replaced. -/
def updWhere {α : Type} (n : Nat) (p : Nat → Bool) (g f : Nat → α) : Nat → α :=
  fun i => if i < n && p i then g i else f i

/-- `lql_json_match_start` -/
def matchStart (ctx : Ctx) (m : Match) (active : Mask) (key : Bool) (pathSegment : Nat) : Match :=
  { m with
    active := active
    failed := 0
    contains := 0
    icontains := maskOf ctx.n fun i =>
      active.has i && !key && ((ctx.term i).kind = .icontains || (ctx.term i).kind = .ipfx)
    caseBytes := []
    caseNeed := 0
    key := key
    pos := updWhere ctx.n active.has (fun _ => 0) m.pos
    termSegment := updWhere ctx.n active.has (fun _ => pathSegment) m.termSegment }

/-! ## Dates -/

/-- `lql_json_temporal_range_start` -/
def temporalRangeStart (m : Match) (active : Mask) : Match :=
  { m with temporalActive := active, temporalFailed := 0, temporalMatch := [] }

/-- `lql_json_temporal_range_byte` -/
def temporalRangeByte (m : Match) (value : UInt8) : Match :=
  if m.temporalActive = 0 then m
  else if m.temporalMatch.length + 1 ≥ numberMatchBytes then
    { m with temporalFailed := m.temporalFailed ||| m.temporalActive }
  else { m with temporalMatch := m.temporalMatch ++ [value] }

/-- `lql_json_temporal_range_bytes` -/
def temporalRangeBytes (m : Match) (data : Bytes) : Match :=
  if m.temporalActive = 0 ∨ data = [] then m
  else
    let active := m.temporalActive &&& ~~~m.temporalFailed
    if active = 0 then m
    else if data.length ≥ numberMatchBytes - m.temporalMatch.length then
      { m with temporalFailed := m.temporalFailed ||| active }
    else { m with temporalMatch := m.temporalMatch ++ data }

/-- The test of one term in `lql_json_temporal_range_complete`. -/
def temporalSatisfies (t : Term) (value : Temporal.Temporal) : Bool :=
  t.kind = .temporalRange &&
    (t.temporalEq.all fun b => Temporal.temporalEqual value b) &&
    (t.temporalGt.all fun b => Temporal.temporalCompare value b > 0) &&
    (t.temporalGte.all fun b => Temporal.temporalCompare value b ≥ 0) &&
    (t.temporalLt.all fun b => Temporal.temporalCompare value b < 0) &&
    (t.temporalLte.all fun b => Temporal.temporalCompare value b ≤ 0)

/-- `lql_json_temporal_range_complete` -/
def temporalRangeComplete (ctx : Ctx) (m : Match) : Mask :=
  if m.temporalActive = 0 ∨ m.temporalMatch.length ≥ numberMatchBytes then 0
  else
    match Temporal.parseTemporalLiteral m.temporalMatch with
    | none => 0
    | some value =>
      maskOf ctx.n fun i => m.temporalActive.has i && !m.temporalFailed.has i &&
        temporalSatisfies (ctx.term i) value

/-! ## One term, one byte -/

/-- What one byte does to one term: its position, and whether it fails or has been
found. -/
structure ByteStep where
  pos : Nat
  failed : Bool := false
  contains : Bool := false

/-- A needle's state after one byte: `failure` retreats, a full match restarts. -/
def needleStep (t : Term) (pos : Nat) (value : UInt8) : ByteStep :=
  if t.value = [] then { pos, contains := true }
  else
    match t.containsFailure with
    | none => { pos, failed := true }
    | some failure =>
      let pos := kmpAdvance t.value failure value pos
      if pos = t.value.length then { pos := failure.getD (pos - 1) 0, contains := true } else { pos }

/-- One byte of the lowered value for an `icontains` or `iprefix` term. -/
def icontainsStep (t : Term) (pos : Nat) (value : UInt8) : ByteStep :=
  if t.kind = .ipfx then
    if pos < t.value.length then
      { pos := pos + 1, failed := some value ≠ t.value[pos]? }
    else { pos }
  else needleStep t pos value

/-- Feed bytes to one term, keeping what has failed or been found on the way. The
loops over `data` do not stop at a failure. -/
def feedBytes (step : Nat → UInt8 → ByteStep) : Bytes → ByteStep → ByteStep
  | [], s => s
  | c :: data, s =>
    let r := step s.pos c
    feedBytes step data
      { pos := r.pos, failed := s.failed || r.failed, contains := s.contains || r.contains }

/-- The result of a loop over the terms: the entries of the terms it treats. -/
def applySteps (ctx : Ctx) (m : Match) (p : Nat → Bool) (r : Nat → ByteStep) : Match :=
  { m with
    pos := updWhere ctx.n p (fun i => (r i).pos) m.pos
    failed := m.failed ||| maskOf ctx.n fun i => p i && (r i).failed
    contains := m.contains ||| maskOf ctx.n fun i => p i && (r i).contains }

/-- `lql_json_match_icontains_bytes` -/
def matchIcontainsBytes (ctx : Ctx) (m : Match) (data : Bytes) : Match :=
  applySteps ctx m
    (fun i => m.active.has i && !m.key &&
      ((ctx.term i).kind = .icontains || (ctx.term i).kind = .ipfx))
    fun i => feedBytes (icontainsStep (ctx.term i)) data { pos := m.pos i }

/-- `'A'` to `'Z'` lowered. -/
def asciiLower (c : UInt8) : UInt8 := if 0x41 ≤ c && c ≤ 0x5a then c + 32 else c

/-- `lql_json_match_icontains_ascii_span` -/
def matchIcontainsAsciiSpan (ctx : Ctx) (m : Match) (data : Bytes) : Match :=
  if data = [] ∨ m.icontains = 0 then m
  else
    applySteps ctx m (fun i => m.icontains.has i && m.active.has i && !m.failed.has i)
      fun i => feedBytes (icontainsStep (ctx.term i)) (data.map asciiLower) { pos := m.pos i }

/-- `lql_json_match_contains_ascii_span` -/
def matchContainsAsciiSpan (ctx : Ctx) (m : Match) (active : Mask) (data : Bytes) : Match :=
  if data = [] ∨ active = 0 then m
  else
    applySteps ctx m (fun i => active.has i && m.active.has i && !m.failed.has i)
      fun i =>
        if (ctx.term i).kind ≠ .contains then { pos := m.pos i, failed := true }
        else feedBytes (needleStep (ctx.term i)) data { pos := m.pos i }

/-- How many bytes a UTF-8 lead byte announces in `lql_json_match_icontains_byte`. -/
def caseNeedOf (value : UInt8) : Nat :=
  if value < 0x80 then 1 else if value < 0xe0 then 2 else if value < 0xf0 then 3 else 4

/-- The lowered bytes of one complete code point. -/
def lowerBytes (bytes : Bytes) : Bytes :=
  match Unicode.utf8DecodeOne bytes with
  | none => []
  | some rune =>
    Unicode.utf8Encode
      (if 0x41 ≤ rune ∧ rune ≤ 0x5a then rune + 32
      else if rune ≥ 0x80 then Unicode.simpleLower rune
      else rune)

/-- `lql_json_match_icontains_byte` -/
def matchIcontainsByte (ctx : Ctx) (m : Match) (value : UInt8) : Match :=
  let need := if m.caseNeed = 0 then caseNeedOf value else m.caseNeed
  let bytes := (if m.caseNeed = 0 then [] else m.caseBytes) ++ [value]
  if bytes.length ≠ need then { m with caseNeed := need, caseBytes := bytes }
  else
    { matchIcontainsBytes ctx m (lowerBytes bytes) with caseNeed := 0, caseBytes := [] }

/-- The text an active term compares a key with. -/
def keyTarget (ctx : Ctx) (m : Match) (i : Nat) : Option Bytes :=
  if m.termSegment i = 0 then some (ctx.term i).field
  else termPathSegment (ctx.term i) (m.termSegment i)

/-- The round of one term in the loop of `lql_json_match_byte`. -/
def byteStep (ctx : Ctx) (m : Match) (value : UInt8) (i : Nat) : ByteStep :=
  let t := ctx.term i
  let pos := m.pos i
  if m.key then
    match keyTarget ctx m i with
    | none => { pos, failed := true }
    | some target =>
      match pointerTargetByte target pos with
      | none => { pos, failed := true }
      | some (c, advance) =>
        if c = value then { pos := pos + advance } else { pos, failed := true }
  else if t.kind = .contains then needleStep t pos value
  else if t.kind = .pfx ∧ pos = t.value.length then { pos }
  else if t.value[pos]? = some value then { pos := pos + 1 }
  else { pos, failed := true }

/-- The loop over the captures in `lql_json_match_byte`. -/
def captureByte (ctx : Ctx) (m : Match) (value : UInt8) : Match :=
  let p := fun i => m.captureActive.has i && !m.captureFailed.has i
  let fits := fun i =>
    match (ctx.captureKey i)[m.captureSegment i]? with
    | none => false
    | some target => target[m.capturePos i]? = some value
  { m with
    capturePos := updWhere ctx.captureKeys.length (fun i => p i && fits i)
      (fun i => m.capturePos i + 1) m.capturePos
    captureFailed := m.captureFailed ||| maskOf ctx.captureKeys.length fun i => p i && !fits i }

/-- The loop over the terms in `lql_json_match_byte`. -/
def matchByteTerms (ctx : Ctx) (m : Match) (value : UInt8) : Match :=
  applySteps ctx m
    (fun i => m.active.has i && !m.failed.has i &&
      (m.key || !((ctx.term i).kind = .icontains || (ctx.term i).kind = .ipfx)))
    (byteStep ctx m value)

/-- `lql_json_match_byte` -/
def matchByte (ctx : Ctx) (m : Match) (value : UInt8) : Match :=
  if m.active = 0 ∧ m.captureActive = 0 ∧ m.temporalActive = 0 then m
  else
    let m := temporalRangeByte m value
    if m.active = 0 ∧ m.captureActive = 0 then m
    else
      let m := if m.active ≠ 0 then matchByteTerms ctx m value else m
      let m := if m.captureActive ≠ 0 then captureByte ctx m value else m
      if m.icontains ≠ 0 then matchIcontainsByte ctx m value else m

/-! ## One term, a run of bytes -/

/-- `lql_json_match_span_term`; `none` asks the caller to go byte by byte. -/
def matchSpanTerm (ctx : Ctx) (m : Match) (i : Nat) (data : Bytes) : Option Match :=
  let t := ctx.term i
  let fail : Match := { m with failed := m.failed ||| bit i }
  if !m.key ∧ (t.kind = .contains ∨ t.kind = .icontains ∨ t.kind = .ipfx) then none
  else
    match if m.key then keyTarget ctx m i else some t.value with
    | none => some fail
    | some target =>
      if m.key ∧ pointerSegmentHasEscape target then none
      else
        let pos := m.pos i
        if !m.key ∧ t.kind = .pfx ∧ pos = target.length then some m
        else if pos > target.length then some fail
        else
          let remaining := min (target.length - pos) data.length
          if (target.drop pos).take remaining ≠ data.take remaining then some fail
          else if remaining ≠ data.length ∧ (m.key ∨ t.kind ≠ .pfx) then some fail
          else some { m with pos := setAt m.pos i (pos + remaining) }

/-- The byte loop that `lql_json_match_span` falls back to for term `i`: every
active term sees the bytes, until term `i` has failed. -/
def matchSpanFallback (ctx : Ctx) (i : Nat) : Bytes → Match → Match
  | [], m => m
  | c :: data, m =>
    if m.active.has i && !m.failed.has i then matchSpanFallback ctx i data (matchByte ctx m c)
    else m

/-- The term loop of `lql_json_match_span`; the flag says that it returned early. -/
def matchSpanTerms (ctx : Ctx) (data : Bytes) (asciiContains asciiIcontains : Mask) :
    List Nat → Match → Match × Bool
  | [], m => (m, false)
  | i :: rest, m =>
    if !m.active.has i || m.failed.has i then
      matchSpanTerms ctx data asciiContains asciiIcontains rest m
    else if !m.key && m.icontains.has i then
      matchSpanTerms ctx data asciiContains asciiIcontains rest m
    else if !m.key && asciiContains.has i then
      matchSpanTerms ctx data asciiContains asciiIcontains rest m
    else
      match matchSpanTerm ctx m i data with
      | some m' => matchSpanTerms ctx data asciiContains asciiIcontains rest m'
      | none =>
        let m' := matchSpanFallback ctx i data
          { m with
            temporalActive := 0
            icontains := if asciiIcontains ≠ 0 then 0 else m.icontains }
        ({ m' with icontains := m.icontains, temporalActive := m.temporalActive }, true)

/-- The capture loop of `lql_json_match_span`. -/
def captureSpanLoop (ctx : Ctx) : Bytes → Match → Match
  | [], m => m
  | c :: data, m =>
    if m.captureActive &&& ~~~m.captureFailed ≠ 0 then captureSpanLoop ctx data (matchByte ctx m c)
    else m

/-- `lql_json_match_span` -/
def matchSpan (ctx : Ctx) (m : Match) (data : Bytes) : Match :=
  if data = [] then m
  else if m.active = 0 ∧ m.captureActive = 0 ∧ m.temporalActive = 0 then m
  else
    let m := temporalRangeBytes m data
    let asciiContains : Mask :=
      if m.key then 0
      else maskOf ctx.n fun i => m.active.has i && !m.icontains.has i && !m.failed.has i &&
        (ctx.term i).kind = .contains
    let m := if m.key then m else matchContainsAsciiSpan ctx m asciiContains data
    let asciiIcontains : Mask := if m.key then 0 else m.active &&& m.icontains &&& ~~~m.failed
    let m := if asciiIcontains ≠ 0 then matchIcontainsAsciiSpan ctx m data else m
    let (m, returned) :=
      if m.active ≠ 0 then
        matchSpanTerms ctx data asciiContains asciiIcontains (List.range ctx.n) m
      else (m, false)
    if returned then m
    else if m.captureActive ≠ 0 then
      let m' := captureSpanLoop ctx data { m with active := 0, icontains := 0, temporalActive := 0 }
      { m' with active := m.active, icontains := m.icontains, temporalActive := m.temporalActive }
    else m

/-- The test before `lql_json_match_span` in `lql_json_string` and before
`lql_json_match_byte` in `lql_json_match_copy_byte`: something can still match. -/
def matchLive (m : Match) : Bool :=
  m.active &&& ~~~m.failed ≠ 0 || m.captureActive &&& ~~~m.captureFailed ≠ 0 ||
    m.temporalActive &&& ~~~m.temporalFailed ≠ 0

/-- The bytes that `lql_json_match_unicode` hands to `lql_json_match_byte`. -/
def unicodeBytes (value : Nat) : Bytes :=
  if value ≤ 0x7f then [UInt8.ofNat value]
  else if value ≤ 0x7ff then
    [UInt8.ofNat (0xc0 ||| (value >>> 6)), UInt8.ofNat (0x80 ||| (value &&& 0x3f))]
  else if value ≤ 0xffff then
    [UInt8.ofNat (0xe0 ||| (value >>> 12)), UInt8.ofNat (0x80 ||| ((value >>> 6) &&& 0x3f)),
      UInt8.ofNat (0x80 ||| (value &&& 0x3f))]
  else
    [UInt8.ofNat (0xf0 ||| (value >>> 18)), UInt8.ofNat (0x80 ||| ((value >>> 12) &&& 0x3f)),
      UInt8.ofNat (0x80 ||| ((value >>> 6) &&& 0x3f)), UInt8.ofNat (0x80 ||| (value &&& 0x3f))]

/-- `lql_json_match_unicode` -/
def matchUnicode (ctx : Ctx) (m : Match) (value : Nat) : Match :=
  (unicodeBytes value).foldl (matchByte ctx) m

/-- `lql_json_match_complete` -/
def matchComplete (ctx : Ctx) (m : Match) : Mask :=
  maskOf ctx.n fun i =>
    let t := ctx.term i
    m.active.has i && !m.failed.has i &&
      match if m.key then keyTarget ctx m i else some t.value with
      | none => false
      | some target =>
        (!m.key && (t.kind = .contains || t.kind = .icontains) && m.contains.has i) ||
        ((m.key || t.kind ≠ .pfx) && m.pos i = target.length) ||
        (!m.key && t.kind = .pfx && m.pos i ≥ target.length) ||
        (!m.key && t.kind = .ipfx && m.pos i ≥ target.length)

/-! ## Captures -/

/-- `lql_json_capture_start` -/
def captureStart (ctx : Ctx) (m : Match) (active : Mask) (segment : Nat) : Match :=
  { m with
    captureActive := active
    captureFailed := 0
    capturePos := updWhere ctx.captureKeys.length active.has (fun _ => 0) m.capturePos
    captureSegment := updWhere ctx.captureKeys.length active.has (fun _ => segment)
      m.captureSegment }

/-- `lql_json_capture_complete` -/
def captureComplete (ctx : Ctx) (m : Match) : Mask :=
  maskOf ctx.captureKeys.length fun i =>
    m.captureActive.has i && !m.captureFailed.has i &&
      match (ctx.captureKey i)[m.captureSegment i]? with
      | none => false
      | some target => m.capturePos i = target.length

/-- `lql_json_capture_array_index` -/
def captureArrayIndex (ctx : Ctx) (key segment index : Nat) : Bool :=
  match (ctx.captureKey key)[segment]? with
  | none => false
  | some text => text ≠ [] && parseIndex text = some index

end Lql.Scan
