import Lql.Scan.State

/-!
# The number being read

The bytes of a number whose value some term wants to compare are collected in a
buffer that grows up to a limit taken from the literals, and past the limit are
reduced to a summary. The buffer keeps its size from one number to the next. When
the number ends every active term compares it with its literal or its bounds.
-/

namespace Lql.Scan

open Lib

/-- The longest literal of a term that `lql_json_number_range_start` looks at. -/
def literalLen (t : Term) : Nat :=
  let len (b : Option Bound) : Nat := (b.map (·.text.length)).getD 0
  if t.kind = .numberEq then t.value.length
  else if t.kind = .numberRange then
    max (max (len t.rangeGt) (len t.rangeGte)) (max (len t.rangeLt) (len t.rangeLte))
  else 0

/-- `number_match_limit`: room for every literal and a margin, within bounds. -/
def numberLimit (ctx : Ctx) (active : Mask) : Nat :=
  let longest := (List.range ctx.n).foldl
    (fun limit i => if active.has i then max limit (literalLen (ctx.term i)) else limit) 0
  min (max (longest + 64) numberMatchBytes) numberMatchHeapLimit

/-- The trackers of one term at the start of a number. -/
def tracksStart (t : Term) : Tracks :=
  let start (b : Option Bound) : Number.Track := Number.trackStart ((b.map (·.text)).getD [])
  { eq := Number.trackStart t.value
    gt := start t.rangeGt, gte := start t.rangeGte, lt := start t.rangeLt, lte := start t.rangeLte }

/-- `lql_json_number_range_start`. The buffer's size is left as it is. -/
def numberRangeStart (ctx : Ctx) (num : Num) (active : Mask) : Num :=
  if active = 0 then { num with active := 0, token := [], overflow := false }
  else
    { num with
      active := active
      limit := numberLimit ctx active
      token := []
      unsigned := 0
      unsignedReady := true
      unsignedOverflow := false
      overflow := false
      summary := {}
      tracks := fun i => if i < ctx.n && active.has i then tracksStart (ctx.term i)
        else num.tracks i }

/-- `lql_json_number_track_summary_digit` on the trackers of one term. -/
def tracksDigit (t : Term) (ts : Tracks) (e : Number.Emit) : Tracks :=
  let bound (b : Option Bound) (x : Number.Track) : Number.Track :=
    if b.isSome then Number.trackDigit x e else x
  if t.kind = .numberEq then { ts with eq := Number.trackDigit ts.eq e }
  else if t.kind = .numberRange then
    { ts with gt := bound t.rangeGt ts.gt, gte := bound t.rangeGte ts.gte
              lt := bound t.rangeLt ts.lt, lte := bound t.rangeLte ts.lte }
  else ts

/-- One byte into the summary, and its digit to the trackers. -/
def numberSummaryByte (ctx : Ctx) (num : Num) (value : UInt8) : Num :=
  match Number.summaryByte num.summary value with
  | (summary, none) => { num with summary }
  | (summary, some e) =>
    { num with
      summary
      tracks := fun i => if i < ctx.n && num.active.has i then tracksDigit (ctx.term i) (num.tracks i) e
        else num.tracks i }

/-- The running unsigned value: `number_unsigned`, its ready and overflow flags. -/
def numberUnsignedByte (num : Num) (value : UInt8) : Num :=
  if !num.unsignedReady then num
  else if isDigit value then
    if num.unsigned > (sizeMax - digitVal value) / 10 then { num with unsignedOverflow := true }
    else if !num.unsignedOverflow then
      { num with unsigned := num.unsigned * 10 + digitVal value }
    else num
  else { num with unsignedReady := false }

/-- The size a full buffer is given. -/
def nextCap (num : Num) : Nat :=
  let doubled := num.cap * 2
  let cap := if doubled ≤ num.cap ∨ doubled > num.limit then num.limit else doubled
  if cap ≤ num.token.length + 1 then num.token.length + 2 else cap

/-- `lql_json_number_range_byte`, allocation failures apart. -/
def numberRangeByte (ctx : Ctx) (num : Num) (value : UInt8) : Num :=
  if num.active = 0 then num
  else
    let num := numberUnsignedByte num value
    if num.overflow then numberSummaryByte ctx num value
    else if num.token.length + 1 ≥ num.cap then
      if num.token.length + 1 ≥ num.limit then
        let start := { num with summary := {} }
        let filled := (num.token ++ [value]).foldl (numberSummaryByte ctx) start
        { filled with overflow := true }
      else { num with cap := nextCap num, token := num.token ++ [value] }
    else { num with token := num.token ++ [value] }

/-- The digit loop of `lql_json_parse_unsigned_integer_token`. -/
def parseUnsignedLoop : Bytes → Nat → Option Nat
  | [], value => some value
  | c :: rest, value =>
    if !isDigit c then none
    else if value > (sizeMax - digitVal c) / 10 then none
    else parseUnsignedLoop rest (value * 10 + digitVal c)

/-- `lql_json_parse_unsigned_integer_token` and
`lql_flat_eq_parse_unsigned_integer_token` -/
def parseUnsignedIntegerToken (text : Bytes) : Option Nat :=
  match text with
  | [] => none
  | c :: rest =>
    if c = chZero then if rest = [] then some 0 else none
    else if isDigit19 c then parseUnsignedLoop text 0
    else none

/-- The form check of `lql_json_compare_unsigned_integer_tokens`. -/
def unsignedToken (text : Bytes) : Bool :=
  match text with
  | [] => false
  | c :: rest => (if c = chZero then rest = [] else isDigit19 c) && rest.all isDigit

/-- `lql_json_compare_unsigned_integer_tokens` -/
def compareUnsignedIntegerTokens (left right : Bytes) : Option Int :=
  if unsignedToken left && unsignedToken right then some (Number.compareDigits left right) else none

/-- `lql_json_number_compare_current` -/
def numberCompareCurrent (num : Num) (track : Number.Track) (right : Bytes) : Option Int :=
  if num.overflow then Number.overflowIntegerCmp num.summary track right
  else
    let cached : Option Int :=
      if num.unsignedReady && !num.unsignedOverflow then
        (parseUnsignedIntegerToken right).map fun r =>
          if num.unsigned < r then -1 else if num.unsigned > r then 1 else 0
      else none
    match cached with
    | some cmp => some cmp
    | none =>
      match compareUnsignedIntegerTokens num.token right with
      | some cmp => some cmp
      | none =>
        match Number.comparePlainIntegers num.token right with
        | some cmp => some cmp
        | none => Number.compareJson num.token right

/-- The answer of one bound: whether it holds, or that the texts do not compare. -/
def boundHolds (num : Num) (track : Number.Track) (test : Int → Bool) : Option Bound → Option Bool
  | none => some true
  | some b =>
    let cached : Option Int :=
      if num.unsignedReady && !num.unsignedOverflow then
        b.unsigned.map fun r =>
          if num.unsigned < r then -1 else if num.unsigned > r then 1 else 0
      else none
    match cached with
    | some cmp => some (test cmp)
    | none =>
      match numberCompareCurrent num track b.text with
      | some cmp => some (test cmp)
      | none => if num.overflow then some false else none

/-- The four bounds of a range term, in the order the source tests them. -/
def rangeHolds (num : Num) (t : Term) (ts : Tracks) : Option Bool := do
  if !(← boundHolds num ts.gt (fun c => c > 0) t.rangeGt) then return false
  if !(← boundHolds num ts.gte (fun c => c ≥ 0) t.rangeGte) then return false
  if !(← boundHolds num ts.lt (fun c => c < 0) t.rangeLt) then return false
  boundHolds num ts.lte (fun c => c ≤ 0) t.rangeLte

/-- `"unable to compare JSON numbers"` -/
def numberCompareErr : Err := ⟨.noMemory, "unable to compare JSON numbers"⟩

/-- `lql_json_number_range_complete` -/
def numberRangeComplete (ctx : Ctx) (num : Num) : Except Err Mask :=
  if num.active = 0 then .ok 0
  else
    let p := fun i => num.active.has i && (ctx.term i).kind = .numberRange
    let r := fun i => rangeHolds num (ctx.term i) (num.tracks i)
    if (List.range ctx.n).any fun i => p i && (r i).isNone then .error numberCompareErr
    else .ok (maskOf ctx.n fun i => p i && r i = some true)

/-- The answer of an equality term. -/
def equalHolds (num : Num) (t : Term) (ts : Tracks) : Option Bool :=
  match numberCompareCurrent num ts.eq t.value with
  | some cmp => some (cmp = 0)
  | none => if num.overflow then some false else none

/-- `lql_json_number_eq_complete` -/
def numberEqComplete (ctx : Ctx) (num : Num) (terms : Mask) : Except Err Mask :=
  if terms = 0 then .ok 0
  else
    let p := fun i => terms.has i && (ctx.term i).kind = .numberEq
    let r := fun i => equalHolds num (ctx.term i) (num.tracks i)
    if (List.range ctx.n).any fun i => p i && (r i).isNone then .error numberCompareErr
    else .ok (maskOf ctx.n fun i => p i && r i = some true)

end Lql.Scan
