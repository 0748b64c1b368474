import Lql.Scan.Term
import Lql.Scan.Input
import Lql.Number.Summary

/-!
# Scanner state

`lql_json_scan`, split by what changes together: the fixed part of a run (the
terms, the capture paths and the mode), the input, the cursor that compares the
string being read with the active terms, the number being read, and the
depth-indexed masks that say which terms are alive at the container being read.
-/

namespace Lql.Scan

open Lib

/-- `LQL_JSON_MAX_DEPTH` -/
abbrev maxDepth : Nat := 128

/-- `LQL_JSON_EMIT_BUFFER_SIZE` -/
abbrev emitBufferSize : Nat := 4096

/-- `LQL_JSON_NUMBER_MATCH_BYTES` -/
abbrev numberMatchBytes : Nat := 8192

/-- `LQL_JSON_NUMBER_MATCH_HEAP_LIMIT` -/
abbrev numberMatchHeapLimit : Nat := 128 * 1024

/-- What a scan is asked to do: the parts of `lql_json_flat_eq_request` that the
scanner reads while it runs. -/
structure Ctx where
  terms : List Term
  capture : Bool
  stopMatchingOnHit : Bool
  stopHitMask : Mask
  captureKeys : List (List Bytes)

/-- `flat_term_count` -/
def Ctx.n (ctx : Ctx) : Nat := ctx.terms.length

/-- `flat_terms[i]` -/
def Ctx.term (ctx : Ctx) (i : Nat) : Term := ctx.terms.getD i .zero

/-- `capture_keys[i].segments` -/
def Ctx.captureKey (ctx : Ctx) (i : Nat) : List Bytes := ctx.captureKeys.getD i []

/-! The flags that the set-up loop of `lql_json_scan_flat_eq_ndjson` derives from
the terms. -/

/-- `flat_eq_has_object_wildcards` -/
def Ctx.hasObjectWildcards (ctx : Ctx) : Bool :=
  ctx.terms.any fun t => t.pathObjectWildcards ≠ 0 || t.pathAnyWildcards ≠ 0

/-- `flat_eq_has_recursive_terms` -/
def Ctx.hasRecursiveTerms (ctx : Ctx) : Bool :=
  ctx.terms.any fun t => t.pathRecursiveSegments ≠ 0

/-- `flat_eq_has_repeated_recursive_terms` -/
def Ctx.hasRepeatedRecursiveTerms (ctx : Ctx) : Bool :=
  ctx.terms.any fun t =>
    t.pathRecursiveSegments &&& (t.pathRecursiveSegments - 1) ≠ 0

/-- `flat_eq_has_array_terms` -/
def Ctx.hasArrayTerms (ctx : Ctx) : Bool :=
  ctx.terms.any fun t => t.pathArraySegments ≠ 0 || t.pathObjectWildcards ≠ 0 ||
    t.pathArrayWildcards ≠ 0 || t.pathAnyWildcards ≠ 0 || t.pathRecursiveSegments ≠ 0

/-- `flat_eq_leading_recursive_terms` -/
def Ctx.leadingRecursiveTerms (ctx : Ctx) : Mask :=
  maskOf ctx.n fun i => (ctx.term i).pathRecursiveSegments.has 0

/-- `flat_eq_terminal_recursive_terms` -/
def Ctx.terminalRecursiveTerms (ctx : Ctx) : Mask :=
  maskOf ctx.n fun i =>
    let t := ctx.term i
    t.pathSegmentCount ≠ 0 && t.pathSegmentCount ≤ wordBits &&
      t.pathRecursiveSegments.has (t.pathSegmentCount - 1)

/-- `flat_eq_terminal_recursive_root_exists_terms` -/
def Ctx.terminalRecursiveRootExistsTerms (ctx : Ctx) : Mask :=
  maskOf ctx.n fun i =>
    let t := ctx.term i
    t.pathRecursiveSegments.has 0 && (t.kind = .exist || t.kind = .valuelessPresent) &&
      t.pathSegmentCount = 1

/-- `flat_eq_valueless_present_terms` -/
def Ctx.valuelessPresentTerms (ctx : Ctx) : Mask :=
  maskOf ctx.n fun i => (ctx.term i).kind = .valuelessPresent

/-- The part of the state that compares a key or a string value with the active
terms and captures: the `match_`, `capture_` and `temporal_` fields. -/
structure Match where
  active : Mask := 0
  failed : Mask := 0
  contains : Mask := 0
  icontains : Mask := 0
  caseBytes : Bytes := []
  caseNeed : Nat := 0
  pos : Nat → Nat := fun _ => 0
  termSegment : Nat → Nat := fun _ => 0
  key : Bool := false
  captureActive : Mask := 0
  captureFailed : Mask := 0
  capturePos : Nat → Nat := fun _ => 0
  captureSegment : Nat → Nat := fun _ => 0
  temporalActive : Mask := 0
  temporalFailed : Mask := 0
  temporalMatch : Bytes := []

/-- The trackers of one term: the literal of an equality, and the four bounds. -/
structure Tracks where
  eq : Number.Track
  gt : Number.Track
  gte : Number.Track
  lt : Number.Track
  lte : Number.Track
  deriving DecidableEq, Repr

/-- The `number_` fields. The buffer's contents are `token`. -/
structure Num where
  active : Mask := 0
  cap : Nat := numberMatchBytes
  limit : Nat := 0
  token : Bytes := []
  unsigned : Nat := 0
  unsignedReady : Bool := false
  unsignedOverflow : Bool := false
  overflow : Bool := false
  summary : Number.Summary := {}
  tracks : Nat → Tracks := fun _ =>
    ⟨Number.trackStart [], Number.trackStart [], Number.trackStart [], Number.trackStart [],
      Number.trackStart []⟩

/-- `lql_json_capture_span` -/
structure CaptureSpan where
  offset : Nat := 0
  len : Nat := 0
  found : Bool := false
  deriving DecidableEq, Repr

/-- What reading moves: the input, the output (the spool, and the bytes not handed
to it yet), the nesting depth, and the watch for a record without spaces. -/
structure Tape where
  input : Input
  spool : Bytes := []
  emit : Bytes := []
  depth : Nat := 0
  compactRangeActive : Bool := false
  compactRangeOk : Bool := false
  deriving DecidableEq, Repr

/-- `lql_json_scan`, without what is fixed for the run. -/
structure State where
  tape : Tape
  flatEqActive : Bool := false
  hits : Mask := 0
  m : Match := {}
  num : Num := {}
  keyTermSegment : Nat → Nat := fun _ => 0
  pathActive : Nat → Mask := fun _ => 0
  recursiveActive : Nat → Mask := fun _ => 0
  capturePathActive : Nat → Mask := fun _ => 0
  recursiveTermSegment : Nat → Nat → Nat := fun _ _ => 0
  recursivePathSegment : Nat → Nat → Nat := fun _ _ => 0
  captureSpans : Nat → CaptureSpan := fun _ => {}

/-- Write one entry of a depth-indexed array. -/
def setAt {α : Type} (f : Nat → α) (k : Nat) (v : α) : Nat → α := fun j => if j = k then v else f j

/-- A step that only reads and copies. -/
abbrev TapeM := EStateM Err Tape

/-- A scanner step: it may fail, and it changes the scanner's state. -/
abbrev ScanM := EStateM Err State

/-- A reading step as a scanner step. -/
def onTape {α : Type} (x : TapeM α) : ScanM α := fun s =>
  match x s.tape with
  | .ok a t => .ok a { s with tape := t }
  | .error e t => .error e { s with tape := t }

/-- `lql_json_error` followed by a return. -/
def jsonError {σ α : Type} (message : String) : EStateM Err σ α := throw (.json message)

/-- `lql_json_stop_hit_ready` -/
def stopHitReady (ctx : Ctx) (hits : Mask) : Bool :=
  ctx.stopMatchingOnHit &&
    if ctx.stopHitMask = 0 then hits ≠ 0 else hits &&& ctx.stopHitMask = ctx.stopHitMask

end Lql.Scan
