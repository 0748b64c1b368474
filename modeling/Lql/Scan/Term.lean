import Lql.Lib.Mask
import Lql.Number.Compare
import Lql.Temporal
import Lql.Unicode

/-!
# Compiled terms

A scan looks for at most 64 terms. A term is a field path, cut at its slashes and
classified segment by segment, and a predicate on the value found there. This
module holds the term record of `lql_json_scan.h`, the part of the plan builder
that fills it from a path, and the scanner's questions about a term that need no
scanner state.
-/

namespace Lql.Scan

open Lib

/-- `lql_json_flat_term_kind` -/
inductive TermKind where
  | eq
  | exist
  | pfx
  | numberEq
  | boolEq
  | nullEq
  | contains
  | icontains
  | ipfx
  | numberRange
  | temporalRange
  | textEq
  | valuelessPresent
  deriving DecidableEq, Repr

/-- One numeric bound of a range term: its text, and its value when the text is a
plain unsigned integer that fits a word. -/
structure Bound where
  text : Bytes
  unsigned : Option Nat
  deriving DecidableEq, Repr

/-- `lql_json_flat_eq_term`. The path text is kept as its segments; a bound or a
date is present exactly when its `has_` flag is set. -/
structure Term where
  kind : TermKind
  field : Bytes
  value : Bytes
  segments : List Bytes
  pathSegmentCount : Nat
  pathArraySegments : Mask
  pathObjectWildcards : Mask
  pathArrayWildcards : Mask
  pathAnyWildcards : Mask
  pathRecursiveSegments : Mask
  pathRecursiveMatch : Option (Nat × Bytes)
  pathArrayIndexCache : List (Option Nat)
  containsFailure : Option (List Nat)
  fieldPlain : Bool
  pathRecursiveMatchPlain : Bool
  rangeGt : Option Bound
  rangeGte : Option Bound
  rangeLt : Option Bound
  rangeLte : Option Bound
  temporalEq : Option Temporal.Temporal
  temporalGt : Option Temporal.Temporal
  temporalGte : Option Temporal.Temporal
  temporalLt : Option Temporal.Temporal
  temporalLte : Option Temporal.Temporal
  deriving DecidableEq, Repr

/-- A zeroed term. -/
def Term.zero : Term :=
  { kind := .eq, field := [], value := [], segments := [], pathSegmentCount := 0
    pathArraySegments := 0, pathObjectWildcards := 0, pathArrayWildcards := 0
    pathAnyWildcards := 0, pathRecursiveSegments := 0, pathRecursiveMatch := none
    pathArrayIndexCache := [], containsFailure := none, fieldPlain := false
    pathRecursiveMatchPlain := false, rangeGt := none, rangeGte := none, rangeLt := none
    rangeLte := none, temporalEq := none, temporalGt := none, temporalGte := none
    temporalLt := none, temporalLte := none }

/-! ## Paths -/

/-- `LQL_JSON_PATH_SEGMENT_CAPACITY` and `LQL_JSON_FLAT_TERM_CAPACITY`: the bits of
an `unsigned long`. -/
abbrev wordBits : Nat := 64

/-- `"*"` -/
abbrev segObject : Bytes := [0x2a]

/-- `"[]"` -/
abbrev segArray : Bytes := [0x5b, 0x5d]

/-- `"**"` -/
abbrev segAny : Bytes := [0x2a, 0x2a]

/-- `"..."` -/
abbrev segRecursive : Bytes := [0x2e, 0x2e, 0x2e]

/-- The segments of a path text behind its first slash. -/
def splitSegments : Bytes → List Bytes
  | [] => [[]]
  | c :: rest =>
    if c = chSlash then [] :: splitSegments rest
    else
      match splitSegments rest with
      | [] => [[c]]
      | s :: ss => (c :: s) :: ss

/-- `numeric_segment` -/
def isNumeric (segment : Bytes) : Bool := segment ≠ [] && segment.all isDigit

/-- The decimal value of an index text, unless it leaves `size_t`. -/
def parseIndexLoop : Bytes → Nat → Option Nat
  | [], value => some value
  | c :: rest, value =>
    if !isDigit c then none
    else if value > (sizeMax - digitVal c) / 10 then none
    else parseIndexLoop rest (value * 10 + digitVal c)

/-- `lql_flat_eq_path_segment_index` on one segment, and the parsing half of
`lql_json_term_array_index`. -/
def parseIndex (segment : Bytes) : Option Nat := parseIndexLoop segment 0

/-- `lql_flat_eq_plain_segment` -/
def plainSegment (segment : Bytes) : Bool := segment.all (· ≠ chTilde)

/-- Segment `k` of a path, empty past its end. -/
def segAt (segments : List Bytes) (k : Nat) : Bytes := segments.getD k []

/-- The first segment after a `...` block: the search loops of
`lql_flat_eq_cache_recursive_match` and `lql_json_next_recursive_path_segment`. -/
def skipRecursive (recursive : Mask) (count : Nat) : Nat → Nat → Nat
  | 0, segment => segment
  | fuel + 1, segment =>
    if segment < count ∧ segment < wordBits ∧ recursive.has segment then
      skipRecursive recursive count fuel (segment + 1)
    else segment

/-- `lql_json_term_recursive_segment`: the first `...` of a path. -/
def firstRecursive (recursive : Mask) : Option Nat :=
  (List.range wordBits).find? fun i => recursive.has i

/-- `lql_flat_eq_cache_recursive_match` -/
def recursiveMatch (segments : List Bytes) (recursive : Mask) : Option (Nat × Bytes) :=
  match firstRecursive recursive with
  | none => none
  | some r =>
    let k := skipRecursive recursive segments.length segments.length (r + 1)
    if k < segments.length then some (k, segAt segments k) else none

/-- `lql_flat_eq_literal_object_path` with `lql_flat_eq_cache_paths`: the path part
of a term, from a path text. Empty segments and paths of more than 64 segments are
refused. -/
def compilePath (path : Bytes) : Option Term :=
  match path with
  | [] => none
  | c :: rest =>
    if c ≠ chSlash ∨ rest = [] then none
    else
      let segments := splitSegments rest
      if segments.any (·.isEmpty) || segments.length > wordBits then none
      else
        let n := segments.length
        let arrays := maskOf n fun k => isNumeric (segAt segments k)
        let recursive := maskOf n fun k => segAt segments k = segRecursive
        let found := recursiveMatch segments recursive
        some { Term.zero with
          field := segAt segments 0
          segments := segments
          pathSegmentCount := n
          pathArraySegments := arrays
          pathObjectWildcards := maskOf n fun k => segAt segments k = segObject
          pathArrayWildcards := maskOf n fun k => segAt segments k = segArray
          pathAnyWildcards := maskOf n fun k => segAt segments k = segAny
          pathRecursiveSegments := recursive
          pathRecursiveMatch := found
          pathArrayIndexCache := segments.map fun s => if isNumeric s then parseIndex s else none
          fieldPlain := plainSegment (segAt segments 0)
          pathRecursiveMatchPlain := (found.map fun f => plainSegment f.2).getD false }

/-! ## Needles -/

/-- The retreat of the prefix table: `while (matched && value[i] != value[matched])
matched = failure[matched - 1];` -/
def kmpRetreat (needle : Bytes) (failure : List Nat) (c : UInt8) : Nat → Nat → Nat
  | 0, pos => pos
  | fuel + 1, pos =>
    if pos ≠ 0 ∧ some c ≠ needle[pos]? then
      kmpRetreat needle failure c fuel (failure.getD (pos - 1) 0)
    else pos

/-- One character of the matcher: retreat, then advance when it fits. -/
def kmpAdvance (needle : Bytes) (failure : List Nat) (c : UInt8) (pos : Nat) : Nat :=
  let pos := kmpRetreat needle failure c pos pos
  if some c = needle[pos]? then pos + 1 else pos

/-- The table loop of `lql_flat_eq_contains_failure` over `value[i..]`. -/
def containsFailureLoop (needle : Bytes) : Bytes → List Nat → Nat → List Nat
  | [], failure, _ => failure
  | c :: rest, failure, matched =>
    let matched := kmpAdvance needle failure c matched
    containsFailureLoop needle rest (failure ++ [matched]) matched

/-- `lql_flat_eq_contains_failure` -/
def containsFailure (needle : Bytes) : Option (List Nat) :=
  match needle with
  | [] => none
  | _ :: rest => some (containsFailureLoop needle rest [0] 0)

/-! ## Questions about a term -/

/-- `lql_json_term_path_segment` -/
def termPathSegment (t : Term) (segment : Nat) : Option Bytes :=
  if t.pathSegmentCount = 0 then if segment ≠ 0 then none else some t.field
  else
    match t.pathRecursiveMatch with
    | some (k, text) => if segment = k then some text else plain t segment
    | none => plain t segment
where
  /-- The segment read from the path text. -/
  plain (t : Term) (segment : Nat) : Option Bytes :=
    if segment ≥ t.pathSegmentCount then none
    else if segment = 0 then some t.field
    else t.segments[segment]?

/-- `lql_json_pointer_target_byte`: the next decoded byte of a segment and how many
bytes it takes there. -/
def pointerTargetByte (target : Bytes) (pos : Nat) : Option (UInt8 × Nat) :=
  match target.drop pos with
  | [] => none
  | [c] => some (c, 1)
  | c :: d :: _ =>
    if c = chTilde ∧ d = chZero then some (chTilde, 2)
    else if c = chTilde ∧ d = chOne then some (chSlash, 2)
    else some (c, 1)

/-- `lql_json_pointer_segment_equal` from a position of the segment on. -/
def pointerSegmentEqualFrom (target : Bytes) (pos : Nat) : Bytes → Bool
  | [] => pos = target.length
  | k :: key =>
    match pointerTargetByte target pos with
    | none => false
    | some (c, advance) => c = k && pointerSegmentEqualFrom target (pos + advance) key

/-- `lql_json_pointer_segment_equal` -/
def pointerSegmentEqual (target key : Bytes) : Bool := pointerSegmentEqualFrom target 0 key

/-- `lql_json_pointer_segment_has_escape` -/
def pointerSegmentHasEscape : Bytes → Bool
  | [] => false
  | [_] => false
  | c :: d :: rest =>
    (c = chTilde && (d = chZero || d = chOne)) || pointerSegmentHasEscape (d :: rest)

/-- `lql_json_plain_segment_equal` -/
def plainSegmentEqual (target : Bytes) (targetPlain : Bool) (key : Bytes) : Bool :=
  if targetPlain then target = key else pointerSegmentEqual target key

/-- `lql_json_term_value_at` -/
def termValueAt (t : Term) (pathSegment : Nat) : Bool :=
  if t.pathRecursiveSegments ≠ 0 ∧ t.pathSegmentCount ≠ 0 ∧ t.pathSegmentCount ≤ wordBits ∧
      t.pathRecursiveSegments.has (t.pathSegmentCount - 1) then
    pathSegment ≥ t.pathSegmentCount - 1 || pathSegment + 1 = t.pathSegmentCount - 1
  else if t.pathSegmentCount = 0 then pathSegment = 0
  else t.pathSegmentCount = pathSegment + 1

/-- `lql_json_term_terminal_recursive_anchor` -/
def termTerminalRecursiveAnchor (t : Term) (pathSegment : Nat) : Bool :=
  t.pathRecursiveSegments ≠ 0 && t.pathSegmentCount ≠ 0 && t.pathSegmentCount ≤ wordBits &&
    t.pathRecursiveSegments.has (t.pathSegmentCount - 1) &&
    pathSegment + 1 = t.pathSegmentCount - 1

/-- `lql_json_term_array_index` -/
def termArrayIndex (t : Term) (pathSegment : Nat) : Option Nat :=
  match t.pathArrayIndexCache[pathSegment]? with
  | some (some value) => some value
  | _ =>
    match termPathSegment t pathSegment with
    | none => none
    | some text => if text = [] then none else parseIndex text

/-- `lql_json_next_recursive_path_segment` -/
def nextRecursivePathSegment (t : Term) (recursiveSegment : Nat) : Nat :=
  skipRecursive t.pathRecursiveSegments t.pathSegmentCount t.pathSegmentCount (recursiveSegment + 1)

/-- `lql_json_path_segments_equal` -/
def pathSegmentsEqual (t : Term) (left right : Nat) : Bool :=
  match termPathSegment t left, termPathSegment t right with
  | some a, some b => a = b
  | _, _ => false

/-- `lql_json_term_segment_matches_object_key` -/
def termSegmentMatchesObjectKey (t : Term) (segment : Nat) (key : Bytes) : Bool :=
  if segment ≥ wordBits then false
  else if (t.pathObjectWildcards ||| t.pathAnyWildcards ||| t.pathRecursiveSegments).has segment then
    true
  else if t.pathArrayWildcards.has segment then false
  else if segment = 0 then plainSegmentEqual t.field t.fieldPlain key
  else
    match termPathSegment t segment with
    | none => false
    | some target =>
      if t.pathRecursiveMatch.map (·.1) = some segment ∧ t.pathRecursiveMatchPlain then target = key
      else pointerSegmentEqual target key

end Lql.Scan
