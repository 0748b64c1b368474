import Lql.Scan.Value

/-!
# Scanning newline-delimited records

The record loop of `lql_json_scan_flat_eq_ndjson`: skip spaces, scan one value,
expect a line end, report the record, and stop at the end of the input, at a limit
or when the callback says so. Cancellation, and failures of the reader, the spool
and the allocator, are not modelled.
-/

namespace Lql.Scan

open Lib

/-- The arguments of one call of the record callback, and the two buffers it may
look at. -/
structure Record where
  index : Nat
  rootIsObject : Bool
  hits : Mask
  spool : Bytes
  spans : List CaptureSpan
  sourceOffset : Nat
  sourceLen : Nat
  sourceCompact : Bool
  deriving DecidableEq, Repr

/-- `lql_json_flat_eq_request`; a limit of zero is no limit. -/
structure Request (σ : Type) where
  ctx : Ctx
  maxRecords : Nat := 0
  maxBytes : Nat := 0
  limitStop : Bool := false
  record : σ → Record → σ × Status

/-- What a scan leaves: its status and message, the record and byte counts, the limit
flag, and the callback's own state. -/
structure Outcome (σ : Type) where
  status : Status
  message : Option String := none
  records : Nat := 0
  bytesRead : Nat := 0
  limitStop : Bool := false
  user : σ

/-- The loop of `lql_json_record_separator`. -/
def separatorLoop : Nat → TapeM (Option UInt8)
  | 0 => outOfFuel
  | fuel + 1 => do
    let c ← peek
    if c = some chSpace ∨ c = some chTab then do advance; separatorLoop fuel else return c

/-- `lql_json_record_separator` -/
def recordSeparator : TapeM Unit := do
  match ← separatorLoop ((← get).input.size + 1) with
  | none => return ()
  | some c =>
    if c = chLF then advance
    else if c = chCR then do advance; takeExpected chLF
    else jsonError "NDJSON record separator is missing"

/-- `count == CAPACITY ? ~0ul : (1ul << count) - 1ul` -/
def allTerms (count : Nat) : Mask := if count = wordBits then BitVec.allOnes 64 else bit count - 1

/-- The state in which a record is scanned; `first` is its first byte. -/
def beginRecord (ctx : Ctx) (first : UInt8) (s : State) : State :=
  let rootIsObject : Bool := first = chLBrace
  let tape := { s.tape with
    spool := if ctx.capture then [] else s.tape.spool
    compactRangeActive := true
    compactRangeOk := true }
  let s := { s with
    tape
    flatEqActive := rootIsObject
    hits := 0
    captureSpans := updWhere ctx.captureKeys.length (fun _ => true) (fun _ => {}) s.captureSpans
    pathActive := setAt s.pathActive 0 (allTerms ctx.n)
    capturePathActive := setAt s.capturePathActive 0 (allTerms ctx.captureKeys.length)
    m := matchStart ctx s.m 0 false 0 }
  if rootIsObject && ctx.terminalRecursiveRootExistsTerms ≠ 0 then
    let (s, hits) := matchRootTerminalRecursiveExists ctx s
    { s with hits := s.hits ||| hits }
  else s

/-- One record: its value, the line end behind it, and what is reported. -/
def scanRecord (ctx : Ctx) (index : Nat) (first : UInt8) : ScanM Record := do
  let start := (← get).tape.input.consumed
  modify (beginRecord ctx first)
  value ctx ((← get).tape.input.size + 1)
  let finish := (← get).tape.input.consumed
  let compact := (← get).tape.compactRangeOk
  onTape (modify fun t => { t with compactRangeActive := false })
  onTape recordSeparator
  onTape (flush ctx.capture)
  let s ← get
  return {
    index
    rootIsObject := first = chLBrace
    hits := if first = chLBrace then s.hits else 0
    spool := s.tape.spool
    spans := (List.range ctx.captureKeys.length).map s.captureSpans
    sourceOffset := start
    sourceLen := finish - start
    sourceCompact := compact }

/-- The head of a round of the record loop: the first byte of the next record, unless
the input has ended. -/
def nextRecord : TapeM (Option UInt8) := do
  skipSpace
  let first ← peek
  if first = some chLBracket then jsonError "root JSON arrays are not valid NDJSON records"
  return first

/-- The record loop of `lql_json_scan_flat_eq_ndjson`. -/
def recordLoop {σ : Type} (req : Request σ) : Nat → Nat → σ → State → Outcome σ
  | 0, records, user, s =>
    { status := .jsonError, records, bytesRead := s.tape.input.bytesRead, user }
  | fuel + 1, records, user, s =>
    if req.maxRecords ≠ 0 ∧ records ≥ req.maxRecords then
      -- the limit stops before any refill; a scan that did not ask for the flag ends normally
      { status := if req.limitStop then .stop else .ok, records
        bytesRead := s.tape.input.bytesRead, limitStop := req.limitStop, user }
    else
      match onTape nextRecord s with
      | .error e s =>
        { status := e.status, message := some e.message, records
          bytesRead := s.tape.input.bytesRead, user }
      | .ok none s => { status := .ok, records, bytesRead := s.tape.input.bytesRead, user }
      | .ok (some first) s =>
        match scanRecord req.ctx records first s with
        | .error e s =>
          { status := e.status, message := some e.message, records
            bytesRead := s.tape.input.bytesRead, user }
        | .ok r s =>
          let (user, status) := req.record user r
          if status ≠ .ok then
            { status, records := records + 1, bytesRead := s.tape.input.bytesRead, user }
          else if req.maxBytes ≠ 0 ∧ s.tape.input.consumed ≥ req.maxBytes then
            { status := .stop, records := records + 1, bytesRead := s.tape.input.bytesRead
              limitStop := req.limitStop, user }
          else recordLoop req fuel (records + 1) user s

/-- A zeroed scan over a reader. -/
def State.start (chunks : List Bytes) : State := { tape := { input := Input.start chunks } }

/-- `lql_json_scan_flat_eq_ndjson` -/
def scanFlatEqNdjson {σ : Type} (req : Request σ) (chunks : List Bytes) (user : σ) : Outcome σ :=
  if req.ctx.n > wordBits ∨ req.ctx.captureKeys.length > wordBits then
    { status := .invalidArgument, message := some "flat JSON equality scanner is not configured"
      user }
  else recordLoop req (chunks.flatten.length + 2) 0 user (State.start chunks)

/-- A callback that keeps every record and never stops. -/
def collect (records : List Record) (r : Record) : List Record × Status := (records ++ [r], .ok)

/-- All records a scan reports, and its status. -/
def scanAll (ctx : Ctx) (chunks : List Bytes) : List Record × Status :=
  let o := scanFlatEqNdjson { ctx, record := collect } chunks []
  (o.user, o.status)

/-- `lql_flat_eq_scan_capture_batch`: a captured record is scanned once more for the captures that
did not fit the first scan. Its spool must come out as large as the one it reads. -/
def scanCaptureBatch (keys : List (List Bytes)) (chunks : List Bytes) :
    Status × Option String × List CaptureSpan :=
  let ctx : Ctx := { terms := [], capture := true, stopMatchingOnHit := false, stopHitMask := 0
                     captureKeys := keys }
  let o := scanFlatEqNdjson { ctx, maxRecords := 1, record := collect } chunks []
  let last := o.user.getLast?
  let size := (last.map fun r => r.spool.length).getD 0
  if o.status = .ok ∧ size ≠ chunks.flatten.length then
    (.jsonError, some "batched capture changed compact JSON record size", [])
  else (o.status, o.message, (last.map fun r => r.spans).getD [])

end Lql.Scan
