import Lql.Scan.Ndjson

/-!
# The trace of a scan

What the record loop does between two calls of its callback depends neither on the callback nor on the limits. So a
scan is its trace, the records one after the other, shown to the callback until it or a limit ends the scan.
-/

namespace Lql.Scan

variable {σ : Type}

/-- A record of a trace: what is reported, and how much was consumed and read behind it. -/
structure TraceStep where
  record : Record
  consumed : Nat
  bytesRead : Nat
  deriving DecidableEq, Repr

/-- The records of an input, how it ends, and how much was read then. A loop out of fuel has no ending. -/
structure Trace where
  steps : List TraceStep := []
  ending : Option (Status × Option String)
  bytesRead : Nat
  deriving DecidableEq, Repr

/-- The record loop of `lql_json_scan_flat_eq_ndjson` without its callback and its limits. -/
def traceLoop (ctx : Ctx) : Nat → Nat → State → Trace
  | 0, _, s => { ending := none, bytesRead := s.tape.input.bytesRead }
  | fuel + 1, records, s =>
    match onTape nextRecord s with
    | .error e s => { ending := some (e.status, some e.message), bytesRead := s.tape.input.bytesRead }
    | .ok none s => { ending := some (.ok, none), bytesRead := s.tape.input.bytesRead }
    | .ok (some first) s =>
      match scanRecord ctx records first s with
      | .error e s => { ending := some (e.status, some e.message), bytesRead := s.tape.input.bytesRead }
      | .ok r s =>
        let rest := traceLoop ctx fuel (records + 1) s
        { rest with steps := ⟨r, s.tape.input.consumed, s.tape.input.bytesRead⟩ :: rest.steps }

/-- The trace of an input. -/
def trace (ctx : Ctx) (chunks : List Bytes) : Trace := traceLoop ctx (chunks.flatten.length + 2) 0 (State.start chunks)

/-- The outcome where nothing ends the scan before its trace does. -/
def Trace.finish (t : Trace) (records bytesRead : Nat) (user : σ) : Outcome σ :=
  match t.ending with
  | none => { status := .jsonError, records, bytesRead, user }
  | some (status, message) => { status, message, records, bytesRead := t.bytesRead, user }

@[simp] theorem Trace.finish_user (t : Trace) (records bytesRead : Nat) (user : σ) :
    (t.finish records bytesRead user).user = user := by
  rw [Trace.finish]
  split <;> rfl

/-- The limit on records has been reached. -/
def Request.full (req : Request σ) (records : Nat) : Bool := req.maxRecords ≠ 0 && records ≥ req.maxRecords

/-- The limit on bytes has been reached. -/
def Request.sated (req : Request σ) (consumed : Nat) : Bool := req.maxBytes ≠ 0 && consumed ≥ req.maxBytes

/-- The steps of a trace are shown to the callback. -/
def play (req : Request σ) (t : Trace) : Nat → Nat → σ → List TraceStep → Outcome σ
  | records, bytesRead, user, [] =>
    if t.ending ≠ none ∧ req.full records = true then
      { status := if req.limitStop then .stop else .ok, records, bytesRead, limitStop := req.limitStop, user }
    else t.finish records bytesRead user
  | records, bytesRead, user, step :: rest =>
    if req.full records then
      { status := if req.limitStop then .stop else .ok, records, bytesRead, limitStop := req.limitStop, user }
    else
      let (user, status) := req.record user step.record
      if status ≠ .ok then { status, records := records + 1, bytesRead := step.bytesRead, user }
      else if req.sated step.consumed then
        { status := .stop, records := records + 1, bytesRead := step.bytesRead, limitStop := req.limitStop, user }
      else play req t (records + 1) step.bytesRead user rest

theorem Request.full_iff (req : Request σ) (records : Nat) :
    req.full records = true ↔ req.maxRecords ≠ 0 ∧ records ≥ req.maxRecords := by
  rw [Request.full, Bool.and_eq_true, decide_eq_true_eq, decide_eq_true_eq]

theorem Request.sated_iff (req : Request σ) (consumed : Nat) :
    req.sated consumed = true ↔ req.maxBytes ≠ 0 ∧ consumed ≥ req.maxBytes := by
  rw [Request.sated, Bool.and_eq_true, decide_eq_true_eq, decide_eq_true_eq]

/-- How a trace ends does not depend on the steps that are left. -/
theorem play_congr {req : Request σ} {t u : Trace} (hend : t.ending = u.ending) (hread : t.bytesRead = u.bytesRead) :
    ∀ (steps : List TraceStep) (records bytesRead : Nat) (user : σ),
      play req t records bytesRead user steps = play req u records bytesRead user steps
  | [], records, bytesRead, user => by rw [play, play, Trace.finish, Trace.finish, hend, hread]
  | step :: rest, records, bytesRead, user => by
    rw [play, play]
    split
    · rfl
    dsimp only
    split
    · rfl
    split
    · rfl
    · exact play_congr hend hread rest _ _ _

/-- **The record loop plays its trace.** -/
theorem recordLoop_play (req : Request σ) : ∀ (fuel records : Nat) (user : σ) (s : State),
    recordLoop req fuel records user s =
      play req (traceLoop req.ctx fuel records s) records s.tape.input.bytesRead user
        (traceLoop req.ctx fuel records s).steps
  | 0, records, user, s => rfl
  | fuel + 1, records, user, s => by
    by_cases hm : req.maxRecords ≠ 0 ∧ records ≥ req.maxRecords
    · have hfull := (req.full_iff records).mpr hm
      have hleft : recordLoop req (fuel + 1) records user s =
          { status := if req.limitStop then .stop else .ok, records
            bytesRead := s.tape.input.bytesRead, limitStop := req.limitStop, user } := by
        rw [recordLoop, if_pos hm]
      have hending : (traceLoop req.ctx (fuel + 1) records s).steps = [] →
          (traceLoop req.ctx (fuel + 1) records s).ending ≠ none := by
        rw [traceLoop]
        intro hsteps
        split at hsteps
        · simp
        · simp
        · split at hsteps
          · simp
          · cases hsteps
      rw [hleft]
      cases hsteps : (traceLoop req.ctx (fuel + 1) records s).steps with
      | nil => exact (if_pos ⟨hending hsteps, hfull⟩).symm
      | cons step rest => exact (if_pos hfull).symm
    · have hfull : ¬ req.full records = true := fun h => hm ((req.full_iff records).mp h)
      rw [recordLoop, if_neg hm, traceLoop]
      cases onTape nextRecord s with
      | error e s1 => exact (if_neg fun h => hfull h.2).symm
      | ok first s1 =>
        cases first with
        | none => exact (if_neg fun h => hfull h.2).symm
        | some first =>
          dsimp only
          cases scanRecord req.ctx records first s1 with
          | error e s2 => exact (if_neg fun h => hfull h.2).symm
          | ok r s2 =>
            dsimp only
            rw [play, if_neg hfull]
            dsimp only
            split
            · rfl
            · by_cases hb : req.maxBytes ≠ 0 ∧ s2.tape.input.consumed ≥ req.maxBytes
              · rw [if_pos hb, if_pos ((req.sated_iff _).mpr hb)]
              · rw [if_neg hb, if_neg fun h => hb ((req.sated_iff _).mp h), recordLoop_play req fuel]
                exact play_congr (by rfl) (by rfl) _ _ _ _

/-- What has been consumed has been read. -/
theorem traceLoop_read (ctx : Ctx) : ∀ (fuel records : Nat) (s : State),
    ∀ step ∈ (traceLoop ctx fuel records s).steps, step.consumed ≤ step.bytesRead
  | 0, _, _ => List.forall_mem_nil _
  | fuel + 1, records, s => by
    rw [traceLoop]
    split
    · exact List.forall_mem_nil _
    · exact List.forall_mem_nil _
    split
    · exact List.forall_mem_nil _
    · exact List.forall_mem_cons.mpr ⟨Nat.sub_le _ _, traceLoop_read ctx fuel _ _⟩

/-- A scan plays the trace of its input. -/
theorem scan_play (req : Request σ) (chunks : List Bytes) (user : σ)
    (h : ¬ (req.ctx.n > wordBits ∨ req.ctx.captureKeys.length > wordBits)) :
    scanFlatEqNdjson req chunks user =
      play req (trace req.ctx chunks) 0 0 user (trace req.ctx chunks).steps := by
  rw [scanFlatEqNdjson, if_neg h]
  exact recordLoop_play req _ _ _ _

end Lql.Scan
