import Lql.Scan.Ndjson
import Lql.Scan.Accept
import Lql.Json.Records

/-!
# What a scan reports

The record loop against the grammar: a scan ends well exactly when the input is a run of
documents, and then it reports them in order, each with its place in the input and, when it
captures, its bytes without spaces. Nothing here depends on what the terms look for.
-/

namespace Lql.Scan

open Lib Json

variable {total : Nat} {ctx : Ctx}

/-- Between two records, with `bytes` to come: nothing is open and nothing is left to hand out. -/
structure Between (total : Nat) (ctx : Ctx) (s : State) (bytes : Bytes) : Prop where
  ok : s.tape.input.Ok total
  rest : s.tape.input.rest = bytes
  depth : s.tape.depth = 0
  emit : s.tape.emit = []
  spool : ctx.capture = false → s.tape.spool = []
  quiet : s.tape.compactRangeActive = false

theorem Between.rel {s : State} {bytes : Bytes} (h : Between total ctx s bytes) (compact : Bool) :
    Rel total s.tape { rest := bytes, compact } :=
  ⟨h.ok, by rw [h.emit]; exact Nat.zero_le _, h.rest, fun ha => by rw [h.quiet] at ha; cases ha⟩

theorem Between.start (ctx : Ctx) {chunks : List Bytes}
    (hc : ∀ c ∈ chunks, c ≠ [] ∧ c.length ≤ readBufferSize) :
    Between chunks.flatten.length ctx (State.start chunks) chunks.flatten := by
  refine ⟨⟨hc, fun h => ?_, by simp [State.start, Input.start], ?_⟩, rfl, rfl, rfl, fun _ => rfl, rfl⟩
  · exact absurd h (by simp [State.start, Input.start])
  · exact Nat.le_refl 0

/-- Only the input has moved. -/
theorem Between.moved {s : State} {bytes rest : Bytes} {t' : Tape} (h : Between total ctx s bytes)
    (hemit : t'.emit = []) (hrel : Rel total t' { rest, compact := true })
    (hstep : Step s.tape t' []) : Between total ctx { s with tape := t' } rest := by
  refine ⟨hrel.ok, hrel.rest, hstep.depth.trans h.depth, hemit, fun hc => ?_,
    hstep.active.trans h.quiet⟩
  have hout := hstep.out
  rw [Tape.out, Tape.out, hemit, h.emit, h.spool hc] at hout
  simpa using hout

/-! ## Line ends -/

theorem separatorLoop_ok : ∀ (fuel : Nat) (t : Tape) (f : Flat), Rel total t f →
    f.rest.length < fuel → ∃ i, separatorLoop fuel t =
        .ok (f.rest.dropWhile isBlank).head? { t with input := i } ∧ i.Ok total ∧
      i.rest = f.rest.dropWhile isBlank ∧ i.buffer.head? = (f.rest.dropWhile isBlank).head?
  | 0, _, _, _, hfuel => absurd hfuel (Nat.not_lt_zero _)
  | fuel + 1, t, f, h, hfuel => by
    obtain ⟨i, hx, hok, hrest, hhead⟩ := peek_ok h
    rw [separatorLoop, bind_ok hx]
    cases hf : f.rest with
    | nil =>
      rw [hf] at hrest hhead
      exact ⟨i, rfl, hok, hrest, hhead⟩
    | cons c rest =>
      have hc : i.buffer.head? = some c := by rw [hhead, hf]; rfl
      by_cases hb : isBlank c = true
      · have hcond : (c :: rest).head? = some chSpace ∨ (c :: rest).head? = some chTab := by
          simpa [isBlank] using hb
        obtain ⟨ha, hrel⟩ := advance_ok (h.input hok hrest) rfl hc hf
        obtain ⟨j, hl, hj, hjr, hjh⟩ := separatorLoop_ok fuel _ _ hrel (by
          simp only [hf, List.length_cons] at hfuel ⊢
          omega)
        refine ⟨j, ?_, ?_⟩
        · rw [if_pos hcond, bind_ok ha, List.dropWhile_cons_of_pos hb]
          exact hl
        · rw [List.dropWhile_cons_of_pos hb]
          exact ⟨hj, hjr, hjh⟩
      · have hcond : ¬ ((c :: rest).head? = some chSpace ∨ (c :: rest).head? = some chTab) := by
          simpa [isBlank] using hb
        rw [if_neg hcond, List.dropWhile_cons_of_neg hb]
        exact ⟨i, rfl, hok, by rw [hrest, hf], by rw [hhead, hf]⟩

theorem recordSeparator_sim {t : Tape} {f : Flat} (h : Rel total t f) :
    Sim JsonFault recordSeparator separatorP t f (Moves total t) := by
  obtain ⟨i, hx, hok, hrest, hhead⟩ := separatorLoop_ok (t.input.size + 1) t f h (by
    rw [Input.size_eq, h.rest]
    exact Nat.lt_succ_self _)
  have hrel := h.input hok hrest
  have hrun : ∀ k : Option UInt8 → TapeM Unit,
      ((do k (← separatorLoop ((← get).input.size + 1))) : TapeM Unit) t =
        k (f.rest.dropWhile isBlank).head? { t with input := i } := by
    intro k
    exact (get_bind _ _).trans (bind_ok hx _)
  cases hd : f.rest.dropWhile isBlank with
  | nil =>
    rw [hd] at hrel
    refine Sim.of_some (u := { f with rest := [] }) (by rw [separatorP, hd]) (r := { t with input := i })
      (a := ()) ?_ ⟨hrel, step_input t i⟩
    rw [recordSeparator, hrun, hd]
    rfl
  | cons c rest =>
    rw [hd] at hrel hhead
    obtain ⟨ha, hrel'⟩ := advance_ok hrel rfl hhead rfl
    by_cases hlf : c = chLF
    · refine Sim.of_some (u := { f with rest }) (by rw [separatorP, hd]; exact if_pos hlf)
        (r := { t with input := i.advance }) (a := ()) ?_ ⟨hrel', step_input t _⟩
      rw [recordSeparator, hrun, hd]
      show (if c = chLF then advance else _ : TapeM Unit) _ = _
      rw [if_pos hlf]
      exact ha
    by_cases hcr : c = chCR
    · have hp : separatorP f = expectP chLF { f with rest } := by
        rw [separatorP, hd]
        exact (if_neg hlf).trans (if_pos hcr)
      have hx : recordSeparator t = takeExpected chLF { t with input := i.advance } := by
        rw [recordSeparator, hrun, hd]
        show (if c = chLF then advance else if c = chCR then (do advance; takeExpected chLF) else
          jsonError _ : TapeM Unit) _ = _
        rw [if_neg hlf, if_pos hcr]
        exact bind_ok ha _
      refine ((takeExpected_sim hrel' chLF).mono ?_).congr hx hp
      intro _ t' _ f' hm
      exact ⟨hm.1, by simpa using (step_input t i.advance).trans hm.2⟩
    · refine Sim.of_none (by rw [separatorP, hd]; exact (if_neg hlf).trans (if_neg hcr))
        ⟨.json "NDJSON record separator is missing", { t with input := i }, ?_, rfl⟩
      rw [recordSeparator, hrun, hd]
      show (if c = chLF then advance else if c = chCR then (do advance; takeExpected chLF) else
        jsonError _ : TapeM Unit) _ = _
      rw [if_neg hlf, if_neg hcr]
      rfl

/-! ## One record -/

/-- The head of a round: the spaces are gone, and the next byte is known. -/
theorem nextRecord_ok {s : State} {bytes : Bytes} (h : Between total ctx s bytes) :
    ∃ t', Between total ctx { s with tape := t' } (bytes.dropWhile isSpace) ∧
      onTape nextRecord s =
        if (bytes.dropWhile isSpace).head? = some chLBracket then
          .error (.json "root JSON arrays are not valid NDJSON records") { s with tape := t' }
        else .ok (bytes.dropWhile isSpace).head? { s with tape := t' } := by
  obtain ⟨t1, hx, hrel, hstep, hemit⟩ := skipSpaceLoop_ok (s.tape.input.size + 1) false s.tape
    { rest := bytes, compact := true } (h.rel true) (by
      rw [Input.size_eq, h.rest]
      exact Nat.lt_succ_self _)
  have hrel1 : Rel total t1 { rest := bytes.dropWhile isSpace, compact := true } :=
    ⟨hrel.ok, hrel.emit, hrel.rest, fun ha => by rw [hstep.active, h.quiet] at ha; cases ha⟩
  obtain ⟨i, hp, hok, hir, -⟩ := peek_ok hrel1
  refine ⟨{ t1 with input := i }, ?_, ?_⟩
  · refine h.moved (hemit.trans h.emit) (hrel1.input hok hir) ?_
    simpa using hstep.trans (step_input t1 i)
  · have hskip : skipSpace s.tape = .ok () t1 := hx
    have hrun : nextRecord s.tape =
        if (bytes.dropWhile isSpace).head? = some chLBracket then
          .error (.json "root JSON arrays are not valid NDJSON records") { t1 with input := i }
        else .ok (bytes.dropWhile isSpace).head? { t1 with input := i } := by
      rw [nextRecord, bind_ok hskip, bind_ok hp]
      split <;> rfl
    by_cases hc : (bytes.dropWhile isSpace).head? = some chLBracket
    · rw [if_pos hc] at hrun ⊢
      rw [onTape, hrun]
    · rw [if_neg hc] at hrun ⊢
      rw [onTape, hrun]

/-- What the report of a record says about a document: where it stands, whether it is written
without spaces, and its bytes if they are captured. -/
structure Reports (ctx : Ctx) (index : Nat) (r : Record) (e : Entry) : Prop where
  index : r.index = index
  rootIsObject : r.rootIsObject = decide (e.text.head? = some chLBrace)
  spool : r.spool = emitted ctx e.value.compact
  sourceOffset : r.sourceOffset = e.offset
  sourceLen : r.sourceLen = e.text.length
  sourceCompact : r.sourceCompact = decide (e.text = e.value.compact)

@[simp] theorem beginRecord_tape (ctx : Ctx) (first : UInt8) (s : State) :
    (beginRecord ctx first s).tape =
      { s.tape with
        spool := if ctx.capture then [] else s.tape.spool
        compactRangeActive := true
        compactRangeOk := true } := by
  rw [beginRecord]
  dsimp only
  split
  · rw [matchRootTerminalRecursiveExists]
    dsimp only [setKeySegment]
    rw [matchTerminalRecursiveTerms_tape]
  · rfl

/-- What is left to hand out goes to the spool. -/
theorem flush_ok (capture : Bool) (t : Tape) :
    ∃ t', flush capture t = .ok () t' ∧ t'.emit = [] ∧
      t'.spool = (if capture then t.out else t.spool) ∧ t'.input = t.input ∧ t'.depth = t.depth ∧
      t'.compactRangeActive = t.compactRangeActive := by
  refine ⟨_, rfl, ?_⟩
  cases capture with
  | false => exact ⟨by simp, by simp, by simp, by simp, by simp⟩
  | true =>
    by_cases he : t.emit = []
    · exact ⟨by simp [he], by simp [he, Tape.out], by simp [he], by simp [he], by simp [he]⟩
    · exact ⟨by simp [he], by simp [he, Tape.out], by simp [he], by simp [he], by simp [he]⟩

/-- What is done with a record when its value has been read. -/
def recordRest (ctx : Ctx) (index : Nat) (first : UInt8) (start : Nat) : ScanM Record := do
  let finish := (← get).tape.input.consumed
  let compact := (← get).tape.compactRangeOk
  onTape (modify fun t => { t with compactRangeActive := false })
  onTape recordSeparator
  onTape (flush ctx.capture)
  let s ← get
  return {
    index
    rootIsObject := first = chLBrace
    hits := if first = chLBrace then s.hits else 0
    spool := s.tape.spool
    spans := (List.range ctx.captureKeys.length).map s.captureSpans
    sourceOffset := start
    sourceLen := finish - start
    sourceCompact := compact }

/-- The report is made of what the state holds when the value has been read. -/
theorem recordRest_ok (ctx : Ctx) (index : Nat) (first : UInt8) (start : Nat) {s : State} {f : Flat}
    (h : Rel total s.tape f) :
    Sim JsonFault (recordRest ctx index first start) separatorP s f fun r s' _ f' =>
      ∃ t', s' = { s with tape := t' } ∧ t'.input.Ok total ∧ t'.input.rest = f'.rest ∧
        t'.depth = s.tape.depth ∧ t'.emit = [] ∧ t'.compactRangeActive = false ∧
        (ctx.capture = true → t'.spool = s.tape.out) ∧
        (ctx.capture = false → s.tape.out = [] → t'.spool = []) ∧
        r = {
          index
          rootIsObject := first = chLBrace
          hits := if first = chLBrace then s.hits else 0
          spool := t'.spool
          spans := (List.range ctx.captureKeys.length).map s.captureSpans
          sourceOffset := start
          sourceLen := total - f.rest.length - start
          sourceCompact := s.tape.compactRangeOk } := by
  have hfinish : s.tape.input.consumed = total - f.rest.length := by rw [h.ok.consumed, h.rest]
  have hrel : Rel total { s.tape with compactRangeActive := false } f :=
    ⟨h.ok, h.emit, h.rest, fun ha => (nomatch ha)⟩
  have hsep := recordSeparator_sim hrel
  cases hp : separatorP f with
  | none =>
      obtain ⟨e, t', hx, he⟩ := hsep.fails hp
      refine .of_none hp ⟨e, { s with tape := t' }, ?_, he⟩
      have hlift : onTape recordSeparator { s with tape := { s.tape with compactRangeActive := false } } =
          .error e { s with tape := t' } := by simp [onTape, hx]
      exact bind_error hlift _
  | some p =>
      obtain ⟨u, f'⟩ := p
      obtain ⟨_, t1, hx, hrel1, hstep⟩ := hsep.ends hp
      obtain ⟨t2, hflush, hemit, hspool, hinput, hdepth, hactive⟩ := flush_ok ctx.capture t1
      have hout : t1.out = s.tape.out := by
        rw [hstep.out, List.append_nil]
        rfl
      have hlift : onTape recordSeparator { s with tape := { s.tape with compactRangeActive := false } } =
          .ok () { s with tape := t1 } := onTape_ok hx
      have hlift2 : onTape (flush ctx.capture) { s with tape := t1 } = .ok () { s with tape := t2 } :=
        onTape_ok (s := { s with tape := t1 }) hflush
      refine .of_some hp (r := { s with tape := t2 }) ((bind_ok hlift _).trans ((bind_ok hlift2 _).trans rfl))
        ⟨t2, rfl, ?_, ?_, ?_, hemit, ?_, ?_, ?_, ?_⟩
      · rw [hinput]
        exact hrel1.ok
      · rw [hinput]
        exact hrel1.rest
      · rw [hdepth]
        exact hstep.depth
      · rw [hactive]
        exact hstep.active
      · intro hc
        rw [hspool, hc, if_pos rfl, hout]
      · intro hc hnil
        rw [hnil, Tape.out, List.append_eq_nil_iff] at hout
        rw [hspool, hc, if_neg (by simp)]
        exact hout.1
      · rw [← hfinish]

/-- **A record is read as the parser reads it**, and reported so; a scan may only refuse more where
a document lacks the level that an array of the innermost depth needs. -/
theorem scanRecord_reads (hn : ∀ i < ctx.n, (ctx.term i).NumberOk) (index : Nat) {s : State}
    {bytes : Bytes} {first : UInt8} (h : Between total ctx s bytes) (hf : bytes.head? = some first) :
    match recordP bytes with
    | none => ∃ e s', scanRecord ctx index first s = .error e s' ∧ JsonFault e
    | some (v, mid, last) =>
      (∃ r s', scanRecord ctx index first s = .ok r s' ∧ Between total ctx s' last.rest ∧
          v.fits maxDepth 0 = true ∧ (ctx.capture = true → v.scans 0 = true) ∧
          Reports ctx index r ⟨v, total - bytes.length, bytes.take (bytes.length - mid.rest.length)⟩) ∨
        (v.scans 0 = false ∧ ∃ e s', scanRecord ctx index first s = .error e s' ∧ JsonFault e) := by
  have ht := beginRecord_tape ctx first s
  generalize hs1 : beginRecord ctx first s = s1 at ht
  have hrel1 : Rel total s1.tape { rest := bytes, compact := true } := by
    rw [ht]
    exact ⟨h.ok, by rw [h.emit]; exact Nat.zero_le _, h.rest, fun _ => rfl⟩
  have hdepth1 : s1.tape.depth = 0 := by rw [ht]; exact h.depth
  have hout1 : s1.tape.out = [] := by
    rw [ht, Tape.out, h.emit]
    cases hc : ctx.capture with
    | true => rfl
    | false => simp [h.spool hc]
  have hactive1 : s1.tape.compactRangeActive = true := by rw [ht]
  have hsize : s1.tape.input.size = bytes.length := by rw [Input.size_eq, hrel1.rest]
  have hacc := value_accepts hn (bytes.length + 1) 0 s1 _ hrel1 hdepth1 (Nat.zero_le _)
  -- the rest of the record, from the state in which its value has been read
  have hrun : scanRecord ctx index first s =
      (value ctx (bytes.length + 1) >>= fun _ => recordRest ctx index first s.tape.input.consumed) s1 := by
    rw [← hsize, ← hs1]
    rfl
  rw [hrun, recordP]
  cases hv : valueP (bytes.length + 1) { rest := bytes, compact := true } with
  | none =>
      obtain ⟨e, s', hx, he⟩ := hacc.fails hv
      exact ⟨e, s', bind_error hx _, he⟩
  | some p =>
      obtain ⟨v, mid⟩ := p
      dsimp only
      rcases hacc.ends hv with ⟨u, s2, hx, hq⟩ | ⟨hscans, e, s', hx, he⟩
      · rw [bind_ok hx]
        have hrest := recordRest_ok ctx index first s.tape.input.consumed hq.took.rel
        cases hsep : separatorP mid with
        | none => exact hrest.fails hsep
        | some p =>
            obtain ⟨_, last⟩ := p
            obtain ⟨r, s', hx', t', rfl, hok, hlast, hdepth, hemit, hactive, hcap, hnocap, hr⟩ :=
              hrest.ends hsep
            have hout : s2.tape.out = emitted ctx v.compact := by
              rw [hq.took.step.out, hout1]
              rfl
            have hspool : t'.spool = emitted ctx v.compact := by
              cases hc : ctx.capture with
              | true => rw [hcap hc, hout]
              | false =>
                  have hnil : emitted ctx v.compact = [] := by rw [emitted, hc]; rfl
                  rw [hnocap hc (hout.trans hnil), hnil]
            obtain ⟨text, hw, hwrote⟩ := valueP_sound _ _ _ _ hv
            have hbytes : bytes = text ++ mid.rest := hwrote.rest
            have hlen : bytes.length - mid.rest.length = text.length := by
              rw [hbytes, List.length_append, Nat.add_sub_cancel]
            have htake : bytes.take (bytes.length - mid.rest.length) = text := by
              rw [hlen, hbytes, List.take_left]
            have hstart : s.tape.input.consumed = total - bytes.length := by
              rw [h.ok.consumed, h.rest]
            have hle := h.ok.rest_le
            rw [h.rest] at hle
            refine .inl ⟨r, _, hx', ⟨hok, hlast, ?_, hemit, fun hc => ?_, hactive⟩, hq.fits, hq.scans, ?_⟩
            · rw [hdepth, hq.took.step.depth, hdepth1]
            · rw [hspool, emitted, hc]
              rfl
            · rw [hr, htake]
              refine ⟨rfl, ?_, hspool, hstart, ?_, ?_⟩
              · obtain ⟨c, t, htext, -⟩ := hw.head
                rw [hbytes, htext] at hf
                cases hf
                simp [htext]
              · show total - mid.rest.length - s.tape.input.consumed = text.length
                rw [hstart]
                have := congrArg List.length hbytes
                rw [List.length_append] at this
                omega
              · show s2.tape.compactRangeOk = _
                rw [hq.took.rel.compact (hq.took.step.active.trans hactive1), hwrote.compact,
                  Bool.true_and]
                exact decide_eq_decide.mpr (compact_iff_length hw).symm
      · have hfail : ∃ e s', (value ctx (bytes.length + 1) >>= fun _ =>
            recordRest ctx index first s.tape.input.consumed) s1 = .error e s' ∧ JsonFault e :=
          ⟨e, s', bind_error hx _, he⟩
        cases hsep : separatorP mid with
        | none => exact hfail
        | some r => exact .inr ⟨hscans, hfail⟩

/-! ## The whole input -/

/-- The records are the documents, one for one and in order, counted from `index`. -/
def Reported (ctx : Ctx) : Nat → List Record → List Entry → Prop
  | _, [], [] => True
  | index, r :: rs, e :: es => Reports ctx index r e ∧ Reported ctx (index + 1) rs es
  | _, _, _ => False

/-- A run of the record loop that met its documents: all of them, each within the limit. -/
structure Ran (ctx : Ctx) (index : Nat) (user : List Record) (o : Outcome (List Record))
    (es : List Entry) : Prop where
  status : o.status = .ok
  fits : ∀ e ∈ es, e.value.fits maxDepth 0 = true
  scans : ctx.capture = true → ∀ e ∈ es, e.value.scans 0 = true
  records : ∃ rs, o.user = user ++ rs ∧ Reported ctx index rs es

section Rounds

variable {σ : Type} (req : Request σ) (fuel index : Nat) (user : σ) {s s1 s2 : State} {e : Err}
  {first : UInt8} {r : Record}

/-! The rounds of the loop, by what they meet. -/

theorem recordLoop_limit (hm : req.maxRecords ≠ 0 ∧ index ≥ req.maxRecords) :
    recordLoop req (fuel + 1) index user s =
      { status := if req.limitStop then .stop else .ok, records := index
        bytesRead := s.tape.input.bytesRead, limitStop := req.limitStop, user } := by
  rw [recordLoop, if_pos hm]

variable (hm : ¬ (req.maxRecords ≠ 0 ∧ index ≥ req.maxRecords))

include hm

theorem recordLoop_root (h : onTape nextRecord s = .error e s1) :
    recordLoop req (fuel + 1) index user s =
      { status := e.status, message := some e.message, records := index
        bytesRead := s1.tape.input.bytesRead, user } := by
  rw [recordLoop, if_neg hm, h]

theorem recordLoop_end (h : onTape nextRecord s = .ok none s1) :
    recordLoop req (fuel + 1) index user s =
      { status := .ok, records := index, bytesRead := s1.tape.input.bytesRead, user } := by
  rw [recordLoop, if_neg hm, h]

theorem recordLoop_fault (h : onTape nextRecord s = .ok (some first) s1)
    (hr : scanRecord req.ctx index first s1 = .error e s2) :
    recordLoop req (fuel + 1) index user s =
      { status := e.status, message := some e.message, records := index
        bytesRead := s2.tape.input.bytesRead, user } := by
  rw [recordLoop, if_neg hm, h]
  dsimp only
  rw [hr]

theorem recordLoop_record (h : onTape nextRecord s = .ok (some first) s1)
    (hr : scanRecord req.ctx index first s1 = .ok r s2) :
    recordLoop req (fuel + 1) index user s =
      if (req.record user r).2 ≠ .ok then
        { status := (req.record user r).2, records := index + 1, bytesRead := s2.tape.input.bytesRead
          user := (req.record user r).1 }
      else if req.maxBytes ≠ 0 ∧ s2.tape.input.consumed ≥ req.maxBytes then
        { status := .stop, records := index + 1, bytesRead := s2.tape.input.bytesRead
          limitStop := req.limitStop, user := (req.record user r).1 }
      else recordLoop req fuel (index + 1) (req.record user r).1 s2 := by
  rw [recordLoop, if_neg hm, h]
  dsimp only
  rw [hr]

end Rounds

section Collect

variable {ctx : Ctx} (fuel : Nat) {index : Nat} (user : List Record) {s s1 s2 : State}
  {first : UInt8} {r : Record}

theorem collect_record {most : Nat} (hm : ¬ (most ≠ 0 ∧ index ≥ most))
    (h : onTape nextRecord s = .ok (some first) s1) (hr : scanRecord ctx index first s1 = .ok r s2) :
    recordLoop { ctx, maxRecords := most, record := collect } (fuel + 1) index user s =
      recordLoop { ctx, maxRecords := most, record := collect } fuel (index + 1) (user ++ [r]) s2 := by
  have hstatus : ¬ ((collect user r).2 ≠ .ok) := fun hs => hs rfl
  have hbytes : ¬ ((0 : Nat) ≠ 0 ∧ s2.tape.input.consumed ≥ 0) := fun hb => hb.1 rfl
  have hrun := recordLoop_record { ctx, maxRecords := most, record := collect } fuel index user hm h hr
  rw [hrun, if_neg hstatus, if_neg hbytes]
  dsimp only [collect]

end Collect

theorem recordLoop_reads (hn : ∀ i < ctx.n, (ctx.term i).NumberOk) :
    ∀ (fuel index : Nat) (user : List Record) (s : State) (bytes : Bytes),
      Between total ctx s bytes → bytes.length < fuel →
      match entriesP fuel (total - bytes.length) bytes with
      | none => (recordLoop { ctx, record := collect } fuel index user s).status = .jsonError
      | some es => Ran ctx index user (recordLoop { ctx, record := collect } fuel index user s) es ∨
          ((∃ e ∈ es, e.value.scans 0 = false) ∧
            (recordLoop { ctx, record := collect } fuel index user s).status = .jsonError) := by
  intro fuel
  induction fuel with
  | zero =>
      intro index user s bytes _ hf
      exact absurd hf (Nat.not_lt_zero _)
  | succ fuel ih =>
      intro index user s bytes h hf
      have hmax : ¬ ((0 : Nat) ≠ 0 ∧ index ≥ 0) := fun hm => hm.1 rfl
      obtain ⟨t', hb, hnext⟩ := nextRecord_ok h
      have hle : (bytes.dropWhile isSpace).length ≤ bytes.length :=
        (List.dropWhile_sublist _).length_le
      have htotal := h.ok.rest_le
      rw [h.rest] at htotal
      rw [entriesP]
      generalize bytes.dropWhile isSpace = rest at hb hnext hle
      cases rest with
      | nil =>
          rw [if_pos rfl]
          rw [recordLoop_end { ctx, record := collect } fuel index user hmax hnext]
          exact .inl ⟨rfl, (fun e he => by cases he), (fun _ e he => by cases he), [],
            (List.append_nil _).symm, trivial⟩
      | cons first rest =>
          rw [if_neg (List.cons_ne_nil _ _)]
          by_cases hroot : (first :: rest).head? = some chLBracket
          · rw [if_pos hroot] at hnext ⊢
            rw [recordLoop_root { ctx, record := collect } fuel index user hmax hnext]
            rfl
          rw [if_neg hroot] at hnext ⊢
          have hread := scanRecord_reads hn index hb rfl
          cases hrec : recordP (first :: rest) with
          | none =>
              rw [hrec] at hread
              obtain ⟨e, s', hx, he⟩ := hread
              rw [recordLoop_fault { ctx, record := collect } fuel index user hmax hnext hx]
              exact he
          | some p =>
              obtain ⟨v, mid, last⟩ := p
              rw [hrec] at hread
              dsimp only at hread ⊢
              obtain ⟨text, sep, hw, -, hbytes, -, -⟩ := recordP_sound hrec
              obtain ⟨c, t, htext, -⟩ := hw.head
              have hlast : last.rest.length < (first :: rest).length := by
                rw [hbytes, htext]
                simp only [List.length_append, List.length_cons]
                omega
              rcases hread with ⟨r, s', hx, hb', hfits, hscans, hr⟩ | ⟨hscans, e, s', hx, he⟩
              · have hrun := collect_record fuel user hmax hnext hx
                rw [hrun]
                have ih := ih (index + 1) (user ++ [r]) s' last.rest hb' (by omega)
                have hpos : total - bytes.length + (bytes.length - last.rest.length) =
                    total - last.rest.length := by omega
                have hoff : total - bytes.length + (bytes.length - (first :: rest).length) =
                    total - (first :: rest).length := by omega
                rw [hpos, hoff]
                cases he : entriesP fuel (total - last.rest.length) last.rest with
                | none =>
                    rw [he] at ih
                    exact ih
                | some es =>
                    rw [he] at ih
                    rcases ih with ⟨hstatus, hfits', hscans', rs, huser, hrs⟩ | ⟨⟨e, hmem, he⟩, hstatus⟩
                    · refine .inl ⟨hstatus, List.forall_mem_cons.mpr ⟨hfits, hfits'⟩,
                        fun hc => List.forall_mem_cons.mpr ⟨hscans hc, hscans' hc⟩, r :: rs, ?_, hr, hrs⟩
                      rw [huser]
                      simp
                    · exact .inr ⟨⟨e, List.mem_cons_of_mem _ hmem, he⟩, hstatus⟩
              · rw [recordLoop_fault { ctx, record := collect } fuel index user hmax hnext hx]
                have hstatus : e.status = .jsonError := he
                cases entriesP fuel (total - bytes.length + (bytes.length - last.rest.length)) last.rest with
                | none => exact hstatus
                | some es => exact .inr ⟨⟨_, List.mem_cons_self, hscans⟩, hstatus⟩

/-- A reader keeps to its contract: no empty chunk before the end, none above the buffer. -/
def ReaderOk (chunks : List Bytes) : Prop := ∀ c ∈ chunks, c ≠ [] ∧ c.length ≤ readBufferSize

/-- What the scanner is asked is within its word: no more than 64 terms and captures, and the number
terms hold JSON numbers, as their compilation checks. -/
structure Ctx.Fits (ctx : Ctx) : Prop where
  terms : ctx.n ≤ wordBits
  captures : ctx.captureKeys.length ≤ wordBits
  numbers : ∀ i < ctx.n, (ctx.term i).NumberOk

theorem Term.numberOk_of_kind {t : Term} (h : t.kind ≠ .numberEq ∧ t.kind ≠ .numberRange) :
    t.NumberOk := ⟨fun he => absurd he h.1, fun he => absurd he h.2⟩

theorem Ctx.numbers_of_terms {ctx : Ctx} (h : ∀ t ∈ ctx.terms, t.NumberOk) :
    ∀ i < ctx.n, (ctx.term i).NumberOk := by
  intro i hi
  have hget : ctx.term i = ctx.terms[i] := by
    rw [Ctx.term, List.getD_eq_getElem?_getD, List.getElem?_eq_getElem hi]
    rfl
  rw [hget]
  exact h _ (List.getElem_mem _)

theorem scanAll_eq {chunks : List Bytes} (h : ctx.Fits) :
    scanAll ctx chunks =
      ((recordLoop { ctx, record := collect } (chunks.flatten.length + 2) 0 [] (State.start chunks)).user,
        (recordLoop { ctx, record := collect } (chunks.flatten.length + 2) 0 []
          (State.start chunks)).status) := by
  have hw : ¬ (ctx.n > wordBits ∨ ctx.captureKeys.length > wordBits) := by
    have := h.terms
    have := h.captures
    omega
  rw [scanAll, scanFlatEqNdjson]
  simp only [if_neg hw]

/-- **A scan accepts exactly the runs of documents**, as long as no more than 127 containers are
open at once, and it reports each document once, in order. -/
theorem scan_accepts_grammar (ctx : Ctx) (hctx : ctx.Fits) (chunks : List Bytes)
    (hchunks : ReaderOk chunks)
    (hdepth : nests (maxDepth - 1) .outside 0 chunks.flatten = true) :
    ((scanAll ctx chunks).2 = .ok ↔ ∃ es, Ndjson 0 chunks.flatten es) ∧
      ∀ es, Ndjson 0 chunks.flatten es → Reported ctx 0 (scanAll ctx chunks).1 es := by
  have hread := recordLoop_reads hctx.numbers (chunks.flatten.length + 2) 0 [] (State.start chunks)
    chunks.flatten (Between.start ctx hchunks) (by omega)
  rw [Nat.sub_self] at hread
  rw [scanAll_eq hctx]
  have hall : ∀ es, Ndjson 0 chunks.flatten es →
      Ran ctx 0 [] (recordLoop { ctx, record := collect } (chunks.flatten.length + 2) 0 []
        (State.start chunks)) es := by
    intro es hes
    rw [entriesP_complete hes _ (by omega)] at hread
    rcases hread with hran | ⟨⟨e, hmem, he⟩, -⟩
    · exact hran
    · rw [Value.scans_of_fits _ _ (hes.fits hdepth e hmem)] at he
      cases he
  refine ⟨⟨fun hok => ?_, fun ⟨es, hes⟩ => (hall es hes).status⟩, fun es hes => ?_⟩
  · cases he : entriesP (chunks.flatten.length + 2) 0 chunks.flatten with
    | none =>
        rw [he] at hread
        rw [hread] at hok
        cases hok
    | some es => exact ⟨es, entriesP_sound _ _ _ _ he⟩
  · obtain ⟨rs, huser, hrs⟩ := (hall es hes).records
    rw [huser]
    exact hrs

/-- Whether there is something at a path. -/
def presence (path : Bytes) : List Term :=
  (compilePath path).toList.map fun t => { t with kind := .exist }

/-- A scan for the presence of `/a`. -/
def presenceScan (capture : Bool) : Ctx :=
  { terms := presence [chSlash, 0x61], capture, stopMatchingOnHit := false, stopHitMask := 0
    captureKeys := [] }

theorem presenceScan_fits (capture : Bool) : (presenceScan capture).Fits := by
  refine ⟨?_, ?_, Ctx.numbers_of_terms fun t ht => ?_⟩
  · cases capture <;> decide
  · cases capture <;> decide
  · refine Term.numberOk_of_kind ?_
    obtain ⟨u, -, rfl⟩ := List.mem_map.mp ht
    exact ⟨by simp, by simp⟩

/-- A blank line, then an object in two chunks, cut inside its key. -/
theorem scan_accepts_line :
    (scanAll (presenceScan false) [[chLF, chLBrace, chQuote], [0x61, chQuote, chColon, 0x31, chRBrace]]).2 =
      .ok :=
  (scan_accepts_grammar _ (presenceScan_fits false) _ (by unfold ReaderOk; decide) (by decide)).1.mpr
    ⟨_, entriesP_sound 20 0 _ _ rfl⟩

/-! ## What is captured -/

/-- A document of the input, as a record was made of it. -/
structure Found (ctx : Ctx) (input : Bytes) (e : Entry) : Prop where
  writes : e.value.Writes e.text
  root : e.value.isArray = false
  scans : ctx.capture = true → e.value.scans 0 = true
  place : (input.drop e.offset).take e.text.length = e.text

/-- However the run ends, what was reported are documents of the input. -/
theorem recordLoop_found (hn : ∀ i < ctx.n, (ctx.term i).NumberOk) {input : Bytes} :
    ∀ (fuel index : Nat) (user : List Record) (s : State) (bytes : Bytes),
      Between input.length ctx s bytes → bytes.length < fuel → bytes <:+ input →
      ∃ rs es, (recordLoop { ctx, record := collect } fuel index user s).user = user ++ rs ∧
        Reported ctx index rs es ∧ ∀ e ∈ es, Found ctx input e := by
  intro fuel
  induction fuel with
  | zero =>
      intro index user s bytes _ hf
      exact absurd hf (Nat.not_lt_zero _)
  | succ fuel ih =>
      intro index user s bytes h hf hsuffix
      have hmax : ¬ ((0 : Nat) ≠ 0 ∧ index ≥ 0) := fun hm => hm.1 rfl
      obtain ⟨t', hb, hnext⟩ := nextRecord_ok h
      have hle : (bytes.dropWhile isSpace).length ≤ bytes.length :=
        (List.dropWhile_sublist _).length_le
      have hsuffix' := (List.dropWhile_suffix isSpace).trans hsuffix
      generalize bytes.dropWhile isSpace = rest at hb hnext hle hsuffix'
      have hnone : ∃ rs es, user = user ++ rs ∧ Reported ctx index rs es ∧
          ∀ e ∈ es, Found ctx input e :=
        ⟨[], [], (List.append_nil _).symm, trivial, fun e he => (nomatch he)⟩
      cases rest with
      | nil =>
          rw [recordLoop_end { ctx, record := collect } fuel index user hmax hnext]
          exact hnone
      | cons first rest =>
          by_cases hroot : (first :: rest).head? = some chLBracket
          · rw [if_pos hroot] at hnext
            rw [recordLoop_root { ctx, record := collect } fuel index user hmax hnext]
            exact hnone
          rw [if_neg hroot] at hnext
          have hread := scanRecord_reads hn index hb rfl
          cases hrec : recordP (first :: rest) with
          | none =>
              rw [hrec] at hread
              obtain ⟨e, s', hx, he⟩ := hread
              rw [recordLoop_fault { ctx, record := collect } fuel index user hmax hnext hx]
              exact hnone
          | some p =>
              obtain ⟨v, mid, last⟩ := p
              rw [hrec] at hread
              obtain ⟨text, sep, hw, -, hbytes, hmid, -⟩ := recordP_sound hrec
              obtain ⟨c, t, htext, -⟩ := hw.head
              rcases hread with ⟨r, s', hx, hb', -, hscans, hr⟩ | ⟨-, e, s', hx, he⟩
              · have hrun := collect_record fuel user hmax hnext hx
                rw [hrun]
                have htake : (first :: rest).take ((first :: rest).length - mid.rest.length) = text := by
                  rw [hbytes, hmid, List.length_append, Nat.add_sub_cancel, List.take_left]
                rw [htake] at hr
                have hlast : last.rest <:+ input := by
                  refine List.IsSuffix.trans ?_ hsuffix'
                  rw [hbytes]
                  exact (List.suffix_append sep last.rest).trans (List.suffix_append text _)
                have hlt : last.rest.length < (first :: rest).length := by
                  rw [hbytes, htext]
                  simp only [List.length_append, List.length_cons]
                  omega
                obtain ⟨rs, es, huser, hrs, hes⟩ := ih (index + 1) (user ++ [r]) s' last.rest hb'
                  (by omega) hlast
                refine ⟨r :: rs, _ :: es, by rw [huser]; simp, ⟨hr, hrs⟩,
                  List.forall_mem_cons.mpr ⟨⟨hw, ?_, hscans, ?_⟩, hes⟩⟩
                · cases hv : v.isArray with
                  | false => rfl
                  | true =>
                      have := (Value.isArray_head hw).mp hv
                      rw [hbytes, htext] at hroot
                      rw [htext] at this
                      exact absurd this hroot
                · have hdrop := List.suffix_iff_eq_drop.mp hsuffix'
                  show ((input.drop (input.length - (first :: rest).length)).take text.length) = text
                  rw [← hdrop, hbytes, List.take_left]
              · rw [recordLoop_fault { ctx, record := collect } fuel index user hmax hnext hx]
                exact hnone

theorem Reported.mem {ctx : Ctx} : ∀ {index : Nat} {rs : List Record} {es : List Entry},
    Reported ctx index rs es → ∀ r ∈ rs, ∃ k, ∃ e ∈ es, Reports ctx k r e
  | _, [], _, _ => fun _ hr => nomatch hr
  | _, _ :: _, [], h => h.elim
  | index, r :: rs, e :: es, h => by
    intro r' hr'
    rcases List.mem_cons.mp hr' with rfl | hmem
    · exact ⟨index, e, List.mem_cons_self, h.1⟩
    · obtain ⟨k, e', he', hk⟩ := h.2.mem r' hmem
      exact ⟨k, e', List.mem_cons_of_mem _ he', hk⟩

/-- The first record of a scan that captures, when the input is one document and nothing else. -/
theorem scanRecord_alone (ctx : Ctx) (hn : ∀ i < ctx.n, (ctx.term i).NumberOk) (hcap : ctx.capture = true)
    {chunks : List Bytes} (hchunks : ReaderOk chunks) {v : Value} (hv : v.Writes chunks.flatten)
    (hroot : v.isArray = false) (hscans : v.scans 0 = true) :
    ∃ s1 first r s2, onTape nextRecord (State.start chunks) = .ok (some first) s1 ∧
      scanRecord ctx 0 first s1 = .ok r s2 ∧ r.spool = v.compact ∧
      Between chunks.flatten.length ctx s2 [] := by
  obtain ⟨c, t, htext, hspace, -⟩ := hv.head
  obtain ⟨t', hb, hnext⟩ := nextRecord_ok (Between.start ctx hchunks)
  have hdrop : chunks.flatten.dropWhile isSpace = chunks.flatten := by
    rw [htext, List.dropWhile_cons_of_neg (by rw [hspace]; simp)]
  have hsep : Separator [] [] := ⟨[], List.forall_mem_nil _, .inr (.inr ⟨rfl, rfl⟩)⟩
  obtain ⟨mid, last, hrec, -, hlast⟩ := recordP_complete hv hsep
  rw [List.append_nil, List.append_nil] at hrec
  have hbracket : chunks.flatten.head? ≠ some chLBracket := by
    intro he
    rw [(Value.isArray_head hv).mpr he] at hroot
    cases hroot
  rw [hdrop] at hb hnext
  rw [if_neg hbracket] at hnext
  have hhead : chunks.flatten.head? = some c := by rw [htext]; rfl
  have hread := scanRecord_reads hn 0 hb hhead
  rw [hrec] at hread
  rcases hread with ⟨r, s2, hx, hb2, -, -, hr⟩ | ⟨hno, -⟩
  · rw [hhead] at hnext
    rw [hlast] at hb2
    refine ⟨_, c, r, s2, hnext, hx, ?_, hb2⟩
    rw [hr.spool, emitted, hcap]
    rfl
  · rw [hscans] at hno
    cases hno

/-- The bytes of the input that a record stands for. -/
def Record.source (r : Record) (input : Bytes) : Bytes := (input.drop r.sourceOffset).take r.sourceLen

/-- A document without spaces, scanned again, is captured as it stands. -/
theorem rescan_captures (hctx : ctx.Fits) (hcap : ctx.capture = true) {chunks : List Bytes}
    (hchunks : ReaderOk chunks) {v : Value} (hv : v.Writes chunks.flatten)
    (hroot : v.isArray = false) (hscans : v.scans 0 = true) (hcompact : chunks.flatten = v.compact) :
    ∃ r, scanAll ctx chunks = ([r], .ok) ∧ r.spool = chunks.flatten := by
  obtain ⟨s1, first, r, s2, hnext, hx, hspool, hb⟩ := scanRecord_alone ctx hctx.numbers hcap hchunks hv
    hroot hscans
  obtain ⟨t', -, hnext'⟩ := nextRecord_ok hb
  have hnext' : onTape nextRecord s2 = .ok none { s2 with tape := t' } := hnext'
  refine ⟨r, ?_, hspool.trans hcompact.symm⟩
  rw [scanAll_eq hctx, collect_record (chunks.flatten.length + 1) [] (fun hm => hm.1 rfl) hnext hx,
    recordLoop_end { ctx, record := collect } chunks.flatten.length 1 ([] ++ [r])
      (fun hm => hm.1 rfl) hnext']
  rfl

/-- The check on the size of a second capture never fails. -/
theorem scanCaptureBatch_ok {keys : List (List Bytes)} (hkeys : keys.length ≤ wordBits)
    {chunks : List Bytes} (hchunks : ReaderOk chunks) {v : Value} (hv : v.Writes chunks.flatten)
    (hroot : v.isArray = false) (hscans : v.scans 0 = true) (hcompact : chunks.flatten = v.compact) :
    (scanCaptureBatch keys chunks).1 = .ok := by
  let ctx : Ctx := { terms := [], capture := true, stopMatchingOnHit := false, stopHitMask := 0
                     captureKeys := keys }
  obtain ⟨s1, first, r, s2, hnext, hx, hspool, hb⟩ := scanRecord_alone ctx
    (fun i hi => absurd hi (Nat.not_lt_zero i)) rfl hchunks hv hroot hscans
  have hw : ¬ (ctx.n > wordBits ∨ ctx.captureKeys.length > wordBits) := by
    rintro (h | h)
    · exact absurd h (Nat.not_lt_zero _)
    · exact absurd h (Nat.not_lt.mpr hkeys)
  have hrun : scanFlatEqNdjson { ctx, maxRecords := 1, record := collect } chunks [] =
      { status := .ok, records := 1, bytesRead := s2.tape.input.bytesRead, limitStop := false
        user := [r] } := by
    rw [scanFlatEqNdjson]
    simp only [if_neg hw]
    rw [collect_record (chunks.flatten.length + 1) [] (fun hm => absurd hm.2 (by decide)) hnext hx,
      recordLoop_limit _ _ _ _ ⟨Nat.one_ne_zero, Nat.le_refl 1⟩]
    rfl
  have hsize : r.spool.length = chunks.flatten.length := by rw [hspool, hcompact]
  rw [scanCaptureBatch]
  simp only [ctx] at hrun
  simp only [hrun]
  rw [if_neg]
  rintro ⟨-, hne⟩
  exact hne hsize

/-- **What is captured is the source without the spaces outside strings.** Capturing it again changes
nothing, and a record counts as compact exactly when its source is what was captured. -/
theorem captures_compact (ctx : Ctx) (hctx : ctx.Fits) (hcap : ctx.capture = true)
    (chunks : List Bytes) (hchunks : ReaderOk chunks) (r : Record) (hr : r ∈ (scanAll ctx chunks).1) :
    r.spool = squeeze .outside (r.source chunks.flatten) ∧
      (r.sourceCompact = true ↔ r.source chunks.flatten = r.spool) ∧
      (∀ (ctx' : Ctx) (chunks' : List Bytes), ctx'.Fits → ctx'.capture = true → ReaderOk chunks' →
        chunks'.flatten = r.spool → ∃ r', scanAll ctx' chunks' = ([r'], .ok) ∧ r'.spool = r.spool) ∧
      ∀ (keys : List (List Bytes)) (chunks' : List Bytes), keys.length ≤ wordBits → ReaderOk chunks' →
        chunks'.flatten = r.spool → (scanCaptureBatch keys chunks').1 = .ok := by
  obtain ⟨rs, es, huser, hrs, hes⟩ := recordLoop_found hctx.numbers (chunks.flatten.length + 2) 0 []
    (State.start chunks) chunks.flatten (Between.start ctx hchunks) (by omega) List.suffix_rfl
  rw [scanAll_eq hctx, huser] at hr
  obtain ⟨k, e, he, hrep⟩ := hrs.mem r hr
  have hfound := hes e he
  have hsource : r.source chunks.flatten = e.text := by
    rw [Record.source, hrep.sourceOffset, hrep.sourceLen]
    exact hfound.place
  have hspool : r.spool = e.value.compact := by
    rw [hrep.spool, emitted, hcap]
    rfl
  have hscans := hfound.scans hcap
  have hwrites := e.value.writes_compact e.text hfound.writes
  refine ⟨?_, ?_, fun ctx' chunks' hctx' hcap' hchunks' hsame => ?_,
    fun keys chunks' hkeys hchunks' hsame => ?_⟩
  · rw [hsource, hspool]
    exact hfound.writes.squeezed.symm
  · rw [hsource, hspool, hrep.sourceCompact, decide_eq_true_eq]
  · rw [hspool] at hsame
    obtain ⟨r', hrun, hr'⟩ := rescan_captures hctx' hcap' hchunks' (hsame ▸ hwrites) hfound.root hscans hsame
    exact ⟨r', hrun, by rw [hr', hsame, hspool]⟩
  · rw [hspool] at hsame
    exact scanCaptureBatch_ok hkeys hchunks' (hsame ▸ hwrites) hfound.root hscans hsame

/-- A space behind the colon is not captured, and the record is not compact. -/
theorem captures_line :
    ∃ r ∈ (scanAll (presenceScan true)
        [[chLBrace, chQuote, 0x61, chQuote, chColon, chSpace, 0x31, chRBrace]]).1,
      r.spool = squeeze .outside (r.source [chLBrace, chQuote, 0x61, chQuote, chColon, chSpace, 0x31,
        chRBrace]) ∧ r.sourceCompact = false := by
  obtain ⟨r, hr, hc⟩ : ∃ r ∈ (scanAll (presenceScan true)
      [[chLBrace, chQuote, 0x61, chQuote, chColon, chSpace, 0x31, chRBrace]]).1,
      r.sourceCompact = false := by decide +kernel
  have h := captures_compact _ (presenceScan_fits true) rfl _ (by unfold ReaderOk; decide) r hr
  exact ⟨r, hr, h.1, hc⟩

end Lql.Scan
