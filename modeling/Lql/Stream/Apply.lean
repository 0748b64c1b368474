import Mathlib.Data.List.TakeWhile
import Lql.Scan.Ndjson
import Lql.Stream.Plan

/-!
# Applying a selector to a stream

`lql_stream_apply` and `lql_stream_apply_spooled` compile the selector of a request and scan the input once. At every
record they decide, call the caller back, write, count and look at the limits. A plan that is too wide for one word of
hits scans for equal terms once, or scans each record once more for every word of terms.

What a projection or a mutation makes of a record is left open (`Emitters`). The caller gives the handles that its
output mode asks for. The reader, the writer, the temporary file and the allocator do not fail, and nothing cancels a run.
-/

namespace Lql.Stream

open Lib Scan Selector
open Selector (Selector)

/-! ## Requests -/

/-- `lql_stream_output_mode` -/
inductive OutputMode where
  | decisionOnly
  | selectedRecord
  | projection
  | mutation
  | projectionThenMutation
  deriving DecidableEq, Repr

/-- `lql_stream_callback_result` -/
inductive CallbackResult where
  | proceed
  | stop
  | error
  deriving DecidableEq, Repr

/-- `lql_stream_limits`; zero is no limit. -/
structure Limits where
  maxRecords : Nat := 0
  maxMatches : Nat := 0
  maxBytes : Nat := 0
  deriving DecidableEq, Repr

/-- `lql_stream_decision` -/
structure Decision where
  recordIndex : Nat
  hit : Bool
  deriving DecidableEq, Repr

/-- `lql_stream_value`: a range of the caller's input, or the bytes that were kept. -/
inductive StreamValue where
  | sourceRange (offset len : Nat)
  | jsonSpool (text : Bytes)
  deriving DecidableEq, Repr

/-- What goes to the writer for one record, and how that fails if it does. -/
abbrev Written := Bytes × Option Err

/-- What the emitters of `lql_stream_flat_eq.c` make of a record; `refusal` is why a plan with them is not taken. -/
structure Emitters where
  refusal : Option Err := none
  projection : Record → Written := fun _ => ([], none)
  mutation : Record → Written := fun _ => ([], none)
  projectionThenMutation : Record → Written := fun _ => ([], none)

/-- `lql_stream_request` over a caller with a state of type `δ`. No selector is the selector of everything. -/
structure StreamRequest (δ : Type) where
  selector : Selector := .leaf .all {}
  bounds : Option TimeBounds := none
  projection : List (List Bytes) := []
  emitters : Emitters := {}
  outputMode : OutputMode := .decisionOnly
  matchedOnly : Bool := false
  inputIsCompact : Bool := false
  limits : Limits := {}
  rangeWriter : Option (Nat → Nat → Written) := none
  onDecision : Option (δ → Decision → δ × CallbackResult) := none
  onValue : Option (δ → StreamValue → δ × CallbackResult) := none

/-- `lql_stream_stop_reason`, without cancellation. -/
inductive StopReason where
  | none
  | recordLimit
  | matchLimit
  | byteLimit
  | callback
  deriving DecidableEq, Repr

/-- `lql_stream_result` -/
structure StreamResult where
  recordsSeen : Nat := 0
  recordsMatched : Nat := 0
  bytesConsumed : Nat := 0
  stoppedEarly : Bool := false
  stopReason : StopReason := .none
  deriving DecidableEq, Repr

/-- What a run has come to: the caller's state, the result, the error, and what has gone out. The writer is handed
`output`, a record at a time; `asked` remembers that a callback has asked to stop. -/
structure Session (δ : Type) where
  user : δ
  result : StreamResult := {}
  error : Option Err := none
  decisions : List Bool := []
  values : List StreamValue := []
  output : List Bytes := []
  asked : Bool := false

abbrev SessionM (δ : Type) := EStateM Status (Session δ)

variable {δ : Type}

/-! ## One record -/

/-- `lql_set_error` and a return. -/
def fail (e : Err) : SessionM δ Unit := do
  modify fun s => { s with error := some e }
  throw e.status

/-- `stopped_early` with its reason, and `LQL_STATUS_STOP`. -/
def stopFor (reason : StopReason) : SessionM δ Unit := do
  modify fun s => { s with result := { s.result with stoppedEarly := true, stopReason := reason } }
  throw .stop

/-- What is done with the answer of a callback. -/
def heed (message : String) : CallbackResult → SessionM δ Unit
  | .proceed => pure ()
  | .error => fail ⟨.callbackError, message⟩
  | .stop => do
    modify fun s => { s with asked := true }
    stopFor .callback

/-- The record is counted. -/
def Session.count (s : Session δ) (hit : Bool) : Session δ :=
  { s with
    result := { s.result with
      recordsSeen := s.result.recordsSeen + 1
      recordsMatched := if hit then s.result.recordsMatched + 1 else s.result.recordsMatched }
    decisions := s.decisions ++ [hit] }

/-- The record is counted, and the decision goes to `on_decision`. -/
def takeDecision (req : StreamRequest δ) (index : Nat) (hit : Bool) : SessionM δ Unit := do
  modify fun s => s.count hit
  match req.onDecision with
  | none => pure ()
  | some callback =>
    let s ← get
    let answer := callback s.user ⟨index, hit⟩
    set { s with user := answer.1 }
    heed "stream decision callback failed" answer.2

/-- No range of the input can stand for the record. -/
def noRange (req : StreamRequest δ) (r : Record) : Bool :=
  !r.sourceCompact || !req.inputIsCompact || req.rangeWriter.isNone

/-- The value of a record that was hit goes to `on_value`; `capture` says that there is a spool. -/
def deliverValue (req : StreamRequest δ) (capture hit : Bool) (r : Record) : SessionM δ Unit :=
  match req.onValue with
  | none => pure ()
  | some callback =>
    if !hit then pure ()
    else if !capture && noRange req r then fail ⟨.unsupported, "streaming matched value range is unavailable"⟩
    else do
      let value : StreamValue :=
        if r.sourceCompact && req.rangeWriter.isSome then .sourceRange r.sourceOffset r.sourceLen
        else .jsonSpool r.spool
      let s ← get
      let answer := callback s.user value
      set { s with user := answer.1, values := s.values ++ [value] }
      heed "stream value callback failed" answer.2

/-- Something goes to the writer. -/
def emit (written : Written) : SessionM δ Unit := do
  modify fun s => { s with output := s.output ++ [written.1] }
  match written.2 with
  | none => pure ()
  | some e => if e.status = .ok then pure () else fail e

/-- `lql_flat_eq_emit` -/
def flatEqEmit (r : Record) : Written := (r.spool ++ [chLF], none)

/-- `lql_flat_eq_emit_range` -/
def flatEqEmitRange (req : StreamRequest δ) (r : Record) : Written :=
  match req.rangeWriter with
  | none => ([], some ⟨.invalidArgument, "streaming selected record range is unavailable"⟩)
  | some writer =>
    match writer r.sourceOffset r.sourceLen with
    | (bytes, none) => (bytes ++ [chLF], none)
    | (bytes, some e) => (bytes, some e)

/-- `lql_flat_eq_projection_found` -/
def flatEqProjectionFound (capture : Bool) (r : Record) : Bool := capture && r.spans.any (·.found)

/-- Only an object is projected or mutated. -/
def needObject (r : Record) (message : String) (go : SessionM δ Unit) : SessionM δ Unit :=
  if !r.rootIsObject then fail ⟨.jsonError, message⟩ else go

/-- The output of a record. -/
def emitRecord (req : StreamRequest δ) (capture hit : Bool) (r : Record) : SessionM δ Unit :=
  match req.outputMode with
  | .decisionOnly => pure ()
  | .selectedRecord =>
    if !(hit || !req.matchedOnly) then pure ()
    else if capture then emit (flatEqEmit r)
    else if noRange req r then fail ⟨.unsupported, "streaming selected record range is unavailable"⟩
    else emit (flatEqEmitRange req r)
  | .projection =>
    if !(hit || !req.matchedOnly) then pure ()
    else needObject r "projection input must be a JSON object"
      (if flatEqProjectionFound capture r then emit (req.emitters.projection r) else pure ())
  | .mutation =>
    if hit then needObject r "mutation input must be a JSON object" (emit (req.emitters.mutation r))
    else if req.matchedOnly then pure ()
    else if !capture then fail ⟨.callbackError, "mutation passthrough capture is unavailable"⟩
    else emit (flatEqEmit r)
  | .projectionThenMutation =>
    if hit then needObject r "combined input must be a JSON object" (emit (req.emitters.projectionThenMutation r))
    else if req.matchedOnly then pure ()
    else needObject r "combined input must be a JSON object"
      (if flatEqProjectionFound capture r then emit (req.emitters.projection r) else pure ())

/-- The limit on matches ends the run behind the record that reaches it. -/
def checkMatches (req : StreamRequest δ) (hit : Bool) : SessionM δ Unit := do
  let s ← get
  if hit && req.limits.maxMatches ≠ 0 && s.result.recordsMatched ≥ req.limits.maxMatches then stopFor .matchLimit

/-- `lql_flat_eq_record_words`, once the record has been decided. -/
def recordDecided (req : StreamRequest δ) (capture hit : Bool) (r : Record) : SessionM δ Unit := do
  takeDecision req r.index hit
  deliverValue req capture hit r
  emitRecord req capture hit r
  checkMatches req hit

/-- What the scanner's record callback returns. -/
def returned (s : Session δ) (x : SessionM δ Unit) : Session δ × Status :=
  match x s with
  | .ok () s => (s, .ok)
  | .error status s => (s, status)

/-! ## Plans -/

/-- A request that the scanner does not serve: it is handed back, and refused. -/
def unhandled : Err := ⟨.unsupported, "direct stream selector is not implemented by scanner"⟩

mutual

/-- `lql_flat_eq_selector_term_count` -/
def flatEqSelectorTermCount : Selector → Nat
  | .node .all _ _ => 0
  | .node .and _ children | .node .or _ children | .node .not _ children => flatEqTermCounts children
  | .node .isIn p _ => p.anyValues.length
  | .node .contains p _ | .node .icontains p _ => if p.anyValues.length = 0 then 1 else p.anyValues.length
  | .node _ _ _ => 1

/-- The loop of `lql_flat_eq_selector_term_count` -/
def flatEqTermCounts : List Selector → Nat
  | [] => 0
  | child :: rest => flatEqSelectorTermCount child + flatEqTermCounts rest

end

mutual

/-- `lql_flat_eq_required_eq_count`, where the answer is yes. -/
def flatEqRequiredEqCount (count : Nat) : Selector → Option Nat
  | .node .and _ children => if children = [] then none else flatEqRequiredEqCounts count children
  | .node .eq p _ => if p.anyValues ≠ [] || count = sizeMax then none else some (count + 1)
  | .node _ _ _ => none

/-- The loop of `lql_flat_eq_required_eq_count` -/
def flatEqRequiredEqCounts (count : Nat) : List Selector → Option Nat
  | [] => some count
  | child :: rest =>
    match flatEqRequiredEqCount count child with
    | none => none
    | some count => flatEqRequiredEqCounts count rest

end

/-- `lql_flat_eq_scan_term_equivalent` -/
def flatEqScanTermEquivalent (left right : Term) : Bool :=
  left.kind = right.kind &&
    !(left.kind = .numberRange || left.kind = .temporalRange || left.kind = .contains || left.kind = .icontains ||
      left.kind = .ipfx) &&
    left.pathSegmentCount = right.pathSegmentCount && left.pathArraySegments = right.pathArraySegments &&
    left.pathObjectWildcards = right.pathObjectWildcards && left.pathArrayWildcards = right.pathArrayWildcards &&
    left.pathAnyWildcards = right.pathAnyWildcards && left.pathRecursiveSegments = right.pathRecursiveSegments &&
    left.field = right.field && left.segments = right.segments && left.value = right.value

/-- The loop of `lql_flat_eq_program_build_scan_terms`. -/
def flatEqScanTerms : List Term → List Term → List Nat → List Term × List Nat
  | [], scanTerms, sources => (scanTerms, sources)
  | t :: rest, scanTerms, sources =>
    match scanTerms.findIdx? fun scanned => flatEqScanTermEquivalent t scanned with
    | some source => flatEqScanTerms rest scanTerms (sources ++ [source])
    | none => flatEqScanTerms rest (scanTerms ++ [t]) (sources ++ [scanTerms.length])

/-- `lql_flat_eq_program_build_scan_terms` -/
def Program.buildScanTerms (program : Program) : Program :=
  if program.terms = [] then program
  else
    let built := flatEqScanTerms program.terms [] []
    { program with scanTerms := built.1, termSources := some built.2 }

/-- What `lql_stream_apply_flat_eq` has settled before it scans. -/
structure Plan where
  program : Program
  keys : List (List Bytes) := []
  batched : Bool := false
  aliased : Bool := false
  allTermsRequired : Bool := false
  capture : Bool := false

/-- The first part of `lql_stream_apply_flat_eq`. -/
def flatEqPlan (req : StreamRequest δ) (allowSpool : Bool) : Except Err Plan :=
  let keys :=
    if req.outputMode = .projection ∨ req.outputMode = .projectionThenMutation then req.projection else []
  if !allowSpool && (flatEqSelectorTermCount req.selector > wordBits || keys.length > wordBits) then .error unhandled
  else
    match plan req.bounds req.selector, req.emitters.refusal with
    | none, _ => .error unhandled
    | some _, some e => .error e
    | some program, none =>
      let batched := program.terms.length > wordBits || keys.length > wordBits
      let program := if batched then program.buildScanTerms else program
      let aliased := batched && program.scanTerms.length ≤ wordBits && keys.length ≤ wordBits
      if batched && !aliased && !allowSpool then .error unhandled
      else .ok
        { program, keys, batched, aliased
          allTermsRequired := batched && flatEqRequiredEqCount 0 req.selector = some program.terms.length
          capture := (allowSpool && (req.onValue.isSome || req.outputMode ≠ .decisionOnly)) || (batched && !aliased) }

/-- What the input is scanned for. -/
def Plan.scan (plan : Plan) (selector : Selector) : Ctx :=
  flatEqScan plan.program selector plan.capture plan.keys
    (if plan.aliased then (plan.program.scanTerms, plan.keys) else ([], []))

/-! ## Batches -/

/-- What `lql_json_spool_read` hands out of a record, a buffer at a time. -/
def spoolChunks (text : Bytes) : List Bytes := text.toChunks readBufferSize

/-- `lql_flat_eq_term_batch_record`: the hits of the terms from `offset` on are added to the hits of all terms. -/
def flatEqTermBatchRecord (offset count : Nat) (hits : Nat → Mask) (r : Record) : Nat → Mask :=
  (List.range count).foldl (fun hits i =>
    if r.hits.has i then
      let index := offset + i
      setAt hits (index / wordBits) (hits (index / wordBits) ||| bit (index % wordBits))
    else hits) hits

/-- `lql_flat_eq_scan_term_batch` -/
def flatEqScanTermBatch (terms : List Term) (offset : Nat) (text : Bytes) (hits : Nat → Mask) :
    (Nat → Mask) × Status :=
  let batch := (terms.drop offset).take wordBits
  let o := scanFlatEqNdjson
    { ctx := { terms := batch, capture := false, stopMatchingOnHit := false, stopHitMask := 0, captureKeys := [] }
      maxRecords := 1
      record := fun hits r => (flatEqTermBatchRecord offset batch.length hits r, .ok) } (spoolChunks text) hits
  (o.user, o.status)

/-- `lql_flat_eq_required_term_missed` -/
def flatEqRequiredTermMissed (program : Program) (hits : Nat → Mask) (scanned : Nat) : Bool :=
  match program.termSources with
  | none => false
  | some sources => sources.any fun source => source < scanned && !flatEqHit hits source

/-- Where the batches of `count` terms or keys begin. -/
def batchOffsets (count : Nat) : List Nat := (List.range ((count + wordBits - 1) / wordBits)).map (· * wordBits)

/-- The loop of `lql_flat_eq_batched_record` over the terms; `early` says that a missed term ends it. The answer says
whether one did. -/
def flatEqTermBatches (program : Program) (early : Bool) (text : Bytes) :
    List Nat → (Nat → Mask) → Except Status ((Nat → Mask) × Bool)
  | [], hits => .ok (hits, false)
  | offset :: rest, hits =>
    match flatEqScanTermBatch program.scanTerms offset text hits with
    | (hits, .ok) =>
      let scanned := min (offset + wordBits) program.scanTerms.length
      if early && flatEqRequiredTermMissed program hits scanned then .ok (hits, true)
      else flatEqTermBatches program early text rest hits
    | (_, status) => .error status

/-- The loop of `lql_flat_eq_batched_record` over the captures. -/
def flatEqCaptureBatches (keys : List (List Bytes)) (text : Bytes) :
    List Nat → List CaptureSpan → Except Err (List CaptureSpan)
  | [], spans => .ok spans
  | offset :: rest, spans =>
    match scanCaptureBatch ((keys.drop offset).take wordBits) (spoolChunks text) with
    | (.ok, _, batch) => flatEqCaptureBatches keys text rest (spans ++ batch)
    | (status, message, _) => .error ⟨status, message.getD ""⟩

/-! ## Runs -/

/-- `lql_flat_eq_record_words` -/
def flatEqRecordWords (req : StreamRequest δ) (plan : Plan) (hits : Nat → Mask) (r : Record) : SessionM δ Unit :=
  recordDecided req plan.capture (flatEqMatchesRecord plan.program hits r.rootIsObject [] req.selector) r

/-- `lql_flat_eq_batched_record`. Where a required term is missed the record is not hit, and its captures are not looked
at. -/
def flatEqBatchedRecord (req : StreamRequest δ) (plan : Plan) (r : Record) : SessionM δ Unit :=
  let early := plan.allTermsRequired && (plan.keys.length = 0 || req.matchedOnly)
  match flatEqTermBatches plan.program early r.spool (batchOffsets plan.program.scanTerms.length) fun _ => 0 with
  | .error status => throw status
  | .ok (hits, true) => flatEqRecordWords req plan hits r
  | .ok (hits, false) =>
    match flatEqCaptureBatches plan.keys r.spool (batchOffsets plan.keys.length) [] with
    | .error e => fail e
    | .ok spans => flatEqRecordWords req plan hits { r with spans }

/-- `lql_flat_eq_record`, `lql_flat_eq_alias_record` or `lql_flat_eq_batched_record`. -/
def Plan.judge (plan : Plan) (req : StreamRequest δ) (r : Record) : SessionM δ Unit :=
  if plan.batched && !plan.aliased then flatEqBatchedRecord req plan r
  else flatEqRecordWords req plan (oneWord r.hits) r

/-- The request for the scanner. -/
def Plan.request (plan : Plan) (req : StreamRequest δ) : Scan.Request (Session δ) :=
  { ctx := plan.scan req.selector
    maxRecords := req.limits.maxRecords
    maxBytes := req.limits.maxBytes
    limitStop := true
    record := fun s r => returned s (plan.judge req r) }

/-- A limit that the scan has stopped at is the reason, unless there is one already. -/
def noteLimit (reason : StopReason) (limit reached : Nat) (o : Outcome (Session δ)) (result : StreamResult) :
    StreamResult :=
  if o.status = .stop && !result.stoppedEarly && o.limitStop && limit ≠ 0 && reached ≥ limit then
    { result with stoppedEarly := true, stopReason := reason }
  else result

/-- The last part of `lql_stream_apply_flat_eq`: why the scan has stopped, and what is returned. -/
def finish (req : StreamRequest δ) (o : Outcome (Session δ)) : Session δ × Status :=
  let result := { o.user.result with bytesConsumed := o.bytesRead }
  let result := noteLimit .recordLimit req.limits.maxRecords result.recordsSeen o result
  let result := noteLimit .byteLimit req.limits.maxBytes result.bytesConsumed o result
  ({ o.user with result }, if o.status = .stop && result.stoppedEarly then .ok else o.status)

/-- `lql_stream_apply_flat_eq` -/
def streamApplyFlatEq (req : StreamRequest δ) (allowSpool : Bool) (chunks : List Bytes) (user : δ) :
    Session δ × Status :=
  match flatEqPlan req allowSpool with
  | .error e => ({ user, error := some e }, e.status)
  | .ok plan => finish req (scanFlatEqNdjson (plan.request req) chunks { user })

/-- The shapes of a request that a run without a spool does not serve, as `lql_stream_apply_common` says it. -/
def unserved (req : StreamRequest δ) (allowSpool : Bool) : Option String :=
  if !allowSpool && (req.outputMode = .projection || req.outputMode = .mutation ||
      req.outputMode = .projectionThenMutation) then
    some "streaming projection and mutation require an incremental emitter"
  else if !allowSpool && (req.outputMode = .selectedRecord || req.onValue.isSome) &&
      (!req.inputIsCompact || req.rangeWriter.isNone) then
    some "streaming selected values require compact input and a source range writer"
  else none

/-- `lql_stream_apply_common`: `lql_stream_apply`, or `lql_stream_apply_spooled` where a spool is allowed. -/
def streamApplyCommon (req : StreamRequest δ) (allowSpool : Bool) (chunks : List Bytes) (user : δ) :
    Session δ × Status :=
  match unserved req allowSpool with
  | some message => ({ user, error := some ⟨.unsupported, message⟩ }, .unsupported)
  | none => streamApplyFlatEq req allowSpool chunks user

/-- `lql_stream_apply` -/
def streamApply (req : StreamRequest δ) (chunks : List Bytes) (user : δ) : Session δ × Status :=
  streamApplyCommon req false chunks user

/-- `lql_stream_apply_spooled` -/
def streamApplySpooled (req : StreamRequest δ) (chunks : List Bytes) (user : δ) : Session δ × Status :=
  streamApplyCommon req true chunks user

end Lql.Stream
