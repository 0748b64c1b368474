import Lql.Scan.LongerValue
import Lql.Scan.Records
import Lql.Scan.Trace

/-!
# Complete lines

A reader that has handed out complete lines may go on in any way. What the record loop makes of these lines it makes of them
whatever comes behind: a record is reported, with the same matches and captures, before a byte of the next line is looked
at. The one record to take care of is the last, whose line end is the end of the shorter input.
-/

namespace Lql.Scan

open Lib Json

/-- The text ends with a byte that is no space. -/
def Firm (text : Bytes) : Prop := ∃ front c, text = front ++ [c] ∧ isSpace c = false

theorem Firm.append {text : Bytes} (h : Firm text) (front : Bytes) : Firm (front ++ text) := by
  obtain ⟨f, c, rfl, hc⟩ := h
  exact ⟨front ++ f, c, (List.append_assoc _ _ _).symm, hc⟩

theorem Firm.cons {text : Bytes} (h : Firm text) (c : UInt8) : Firm (c :: text) := h.append [c]

theorem firm_digits {digits : Bytes} (hne : digits ≠ []) (h : ∀ d ∈ digits, isDigit d = true) : Firm digits := by
  refine ⟨digits.dropLast, digits.getLast hne, (List.dropLast_append_getLast hne).symm, ?_⟩
  have hd := h _ (List.getLast_mem hne)
  simp only [isDigit, Bool.and_eq_true, decide_eq_true_eq, UInt8.le_iff_toNat_le] at hd
  simp only [isSpace, ← UInt8.toNat_inj]
  grind

theorem firm_number {token : Bytes} (h : NumberToken token) : Firm token := by
  obtain ⟨sign, int, fraction, exponent, rfl, hparts⟩ := h
  rcases hparts.exponent with rfl | ⟨e, esign, digits, rfl, -, -, hne, hdigits⟩
  · rw [List.append_nil]
    rcases hparts.fraction with rfl | ⟨digits, rfl, hne, hdigits⟩
    · rw [List.append_nil]
      refine Firm.append ?_ _
      rcases hparts.int with rfl | ⟨c, rest, rfl, hc, hdigits⟩
      · exact ⟨[], chZero, rfl, rfl⟩
      · exact firm_digits (List.cons_ne_nil _ _) (List.forall_mem_cons.mpr ⟨isDigit_of_isDigit19 hc, hdigits⟩)
    · exact ((firm_digits hne hdigits).cons _).append _
  · exact (((firm_digits hne hdigits).append _).cons _).append _

mutual

/-- A document ends with a quote, a digit, a letter or a bracket. -/
theorem firm_value : ∀ {v : Value} {text : Bytes}, v.Writes text → Firm text
  | .obj ms, text, h => by
    rw [Value.Writes] at h
    obtain ⟨w, t, rfl, -, ht⟩ := h
    exact ((firm_members ht).append w).cons _
  | .arr es, text, h => by
    rw [Value.Writes] at h
    obtain ⟨w, t, rfl, -, ht⟩ := h
    exact ((firm_elements ht).append w).cons _
  | .str s, text, h => by
    rw [Value.Writes] at h
    obtain ⟨rfl, -⟩ := h
    exact ⟨chQuote :: s.raw, chQuote, rfl, rfl⟩
  | .num token, text, h => by
    rw [Value.Writes] at h
    obtain ⟨rfl, htoken⟩ := h
    exact firm_number htoken
  | .lit l, text, h => by
    rw [Value.Writes] at h
    subst h
    cases l with
    | tt => exact ⟨[0x74, 0x72, 0x75], 0x65, rfl, rfl⟩
    | ff => exact ⟨[0x66, 0x61, 0x6c, 0x73], 0x65, rfl, rfl⟩
    | nul => exact ⟨[0x6e, 0x75, 0x6c], 0x6c, rfl, rfl⟩

theorem firm_members : ∀ {ms : Json.Members} {first : Bool} {text : Bytes}, ms.Writes first text → Firm text
  | .nil, _, text, h => by
    rw [Json.Members.Writes] at h
    subst h
    exact ⟨[], chRBrace, rfl, rfl⟩
  | .cons key v rest, first, text, h => by
    rw [Json.Members.Writes] at h
    obtain ⟨lead, w1, w2, tv, w3, t, rfl, -, -, -, -, -, -, ht⟩ := h
    exact (((((((firm_members ht).append w3).append tv).append w2).cons _).append w1).append _).append lead

theorem firm_elements : ∀ {es : Json.Elements} {first : Bool} {text : Bytes}, es.Writes first text → Firm text
  | .nil, _, text, h => by
    rw [Json.Elements.Writes] at h
    subst h
    exact ⟨[], chRBracket, rfl, rfl⟩
  | .cons v rest, first, text, h => by
    rw [Json.Elements.Writes] at h
    obtain ⟨lead, tv, w, t, rfl, -, -, -, ht⟩ := h
    exact (((firm_elements ht).append w).append tv).append lead

end

variable {total : Nat}

/-- The bytes end with a line end. -/
def Lined (bytes : Bytes) : Prop := bytes.getLast? = some chLF

theorem Lined.ne_nil {bytes : Bytes} (h : Lined bytes) : bytes ≠ [] := by
  rintro rfl
  cases h

theorem Lined.suffix {bytes rest : Bytes} (h : Lined bytes) (hs : rest <:+ bytes) (hne : rest ≠ []) : Lined rest := by
  obtain ⟨front, rfl⟩ := hs
  rw [Lined, List.getLast?_append_of_ne_nil _ hne] at h
  exact h

/-- What stands behind a document is not used up. -/
theorem Lined.behind {text rest : Bytes} (h : Lined (text ++ rest)) (ht : Firm text) : Lined rest := by
  refine h.suffix (List.suffix_append _ _) ?_
  rintro rfl
  obtain ⟨front, c, rfl, hc⟩ := ht
  rw [List.append_nil, Lined, List.getLast?_concat] at h
  cases h
  exact absurd hc (by decide)

/-- Bytes that are skipped do not reach the line end. -/
theorem Lined.dropWhile {bytes : Bytes} (h : Lined bytes) {p : UInt8 → Bool} (hp : p chLF = false) :
    Lined (bytes.dropWhile p) := by
  refine h.suffix (List.dropWhile_suffix p) fun hnil => ?_
  have hall := List.dropWhile_eq_nil_iff.mp hnil chLF (List.mem_of_getLast? h)
  exact absurd (hp.symm.trans hall) (by decide)

theorem Extended.lined {l k : List Bytes} (h : Extended l k) : Lined l.flatten := by
  induction h with
  | last c x more => simp [Lined]
  | cons b hk ih =>
    rw [List.flatten_cons, Lined, List.getLast?_append_of_ne_nil _ ih.ne_nil]
    exact ih

/-! ## Behind a line -/

/-- `u` is `t` over an input of which as much has been consumed, and which goes on unless `t` has used up its own. -/
def Tape.Level (t u : Tape) : Prop :=
  ∃ j, u = t.on j ∧ t.input.consumed = j.consumed ∧ (t.input.rest ≠ [] → t.Longer u)

theorem Tape.Level.refl (t : Tape) : t.Level t := ⟨t.input, rfl, rfl, fun _ => .inl rfl⟩

/-- One more byte of both. -/
theorem advance_level {t t' u : Tape} {a : Unit} (h : t.Longer u) (hb : t.input.buffer ≠ []) (hx : advance t = .ok a t') :
    ∃ u', advance u = .ok a u' ∧ t'.Level u' := by
  cases hx
  refine ⟨{ u with input := u.input.advance }, rfl, ?_⟩
  rcases h with rfl | ⟨j, rfl, hj⟩
  · exact .refl _
  obtain ⟨ti, hi⟩ := hj.ok
  obtain ⟨tj, hj'⟩ := hj.okBehind
  have hbj : j.buffer ≠ [] := fun hnil => hb (by
    have hhead := hj.head
    rw [hnil] at hhead
    exact List.head?_eq_none_iff.mp hhead.symm)
  have hconsumed : (t.input.skip 1).consumed = (j.skip 1).consumed := by
    rw [hi.consumed_skip, hj'.consumed_skip, hj.consumed, Nat.min_eq_left (List.length_pos_of_ne_nil hb),
      Nat.min_eq_left (List.length_pos_of_ne_nil hbj)]
  have hshares : (t.input.skip 1).rest ≠ [] → (t.input.skip 1).Shares (j.skip 1) := hj.skip
  rw [← Input.advance_eq_skip, ← Input.advance_eq_skip] at hconsumed hshares
  exact ⟨j.advance, rfl, hconsumed, fun hrest => .inr ⟨j.advance, rfl, hshares hrest⟩⟩

theorem goesOn_separatorLoop {w : Bytes} : ∀ (fuel fuel' : Nat), fuel ≤ fuel' →
    GoesOn w (separatorLoop fuel) (separatorLoop fuel')
  | 0, _, _ => goesOn_error _ _
  | _ + 1, 0, h => absurd h (Nat.not_succ_le_zero _)
  | fuel + 1, fuel' + 1, h =>
    goesOn_peek.bind fun c => .ite
      (fun _ => goesOn_advance.bind fun _ => goesOn_separatorLoop fuel fuel' (Nat.le_of_succ_le_succ h))
      fun _ => goesOn_pure c

theorem live_nil {t : Tape} (h : t.input.rest ≠ []) : t.Live [] := ⟨h, List.nil_suffix⟩

/-- The byte at hand, of an input that is not used up. -/
theorem take_level {t t' u : Tape} {c : UInt8} {f : Flat} (h : t.Longer u) (hrel : Rel total t f) (hx : take t = .ok c t') :
    ∃ u', take u = .ok c u' ∧ t'.Level u' := by
  obtain ⟨i, hp, hok, hrest, hhead⟩ := peek_ok hrel
  rw [take, bind_ok hp] at hx
  cases hc : f.rest.head? with
  | none =>
    rw [hc] at hx
    cases hx
  | some b =>
    rw [hc] at hp hhead
    have hne : i.rest ≠ [] := by
      rw [hrest]
      rintro hnil
      rw [hnil] at hc
      cases hc
    have hb : i.buffer ≠ [] := by
      rintro hnil
      rw [hnil] at hhead
      cases hhead
    obtain ⟨-, u1, hu, hlonger⟩ := goesOn_peek t u h _ _ hp (live_nil (t := { t with input := i }) hne)
    rw [hc] at hx
    cases hx
    obtain ⟨u2, hu2, hlevel⟩ := advance_level (a := ()) hlonger (t := { t with input := i }) hb rfl
    refine ⟨u2, ?_, hlevel⟩
    rw [take, bind_ok hu]
    exact bind_ok hu2 _

/-- What is done with the byte behind the blanks. -/
def separatorEnd : Option UInt8 → TapeM Unit
  | none => return ()
  | some c =>
    if c = chLF then advance
    else if c = chCR then do advance; takeExpected chLF
    else jsonError "NDJSON record separator is missing"

theorem recordSeparator_run (t : Tape) :
    recordSeparator t = (separatorLoop (t.input.size + 1) >>= separatorEnd) t := rfl

theorem takeExpected_level {t t' u : Tape} {a : Unit} {e : UInt8} {f : Flat} (h : t.Longer u) (hrel : Rel total t f)
    (hx : takeExpected e t = .ok a t') : ∃ u', takeExpected e u = .ok a u' ∧ t'.Level u' := by
  rw [takeExpected] at hx ⊢
  cases hr : take t with
  | error err t1 =>
    rw [bind_error hr] at hx
    cases hx
  | ok c t1 =>
    rw [bind_ok hr] at hx
    obtain ⟨u', hu, hlevel⟩ := take_level h hrel hr
    rw [bind_ok hu]
    by_cases hc : c ≠ e
    · rw [if_pos hc] at hx
      cases hx
    · rw [if_neg hc] at hx ⊢
      cases hx
      exact ⟨u', rfl, hlevel⟩

/-- **The line end behind a document** is the same byte in both inputs, even where it is the last of the first. -/
theorem recordSeparator_level {t t' u : Tape} {a : Unit} {f : Flat} (h : t.Longer u) (hrel : Rel total t f)
    (hlf : Lined f.rest) (hx : recordSeparator t = .ok a t') : ∃ u', recordSeparator u = .ok a u' ∧ t'.Level u' := by
  obtain ⟨i, hl, hok, hrest, hhead⟩ := separatorLoop_ok (t.input.size + 1) t f hrel (by
    rw [Input.size_eq, hrel.rest]
    exact Nat.lt_succ_self _)
  have hlined : Lined (f.rest.dropWhile isBlank) := hlf.dropWhile (by decide)
  have hne : i.rest ≠ [] := by
    rw [hrest]
    exact hlined.ne_nil
  obtain ⟨-, u1, hu, hlonger⟩ := goesOn_separatorLoop _ (u.input.size + 1) (Nat.succ_le_succ h.size_le) t u h _ _ hl
    (live_nil (t := { t with input := i }) hne)
  rw [recordSeparator_run, bind_ok hl] at hx
  rw [recordSeparator_run, bind_ok hu]
  cases hd : f.rest.dropWhile isBlank with
  | nil => exact absurd hd hlined.ne_nil
  | cons c rest =>
    rw [hd] at hx hlined hrest hhead
    have hb : i.buffer ≠ [] := by
      rintro hnil
      rw [hnil] at hhead
      cases hhead
    rw [List.head?_cons, separatorEnd] at hx ⊢
    by_cases hc : c = chLF
    · rw [if_pos hc] at hx ⊢
      exact advance_level hlonger hb hx
    rw [if_neg hc] at hx ⊢
    by_cases hcr : c = chCR
    · rw [if_pos hcr] at hx ⊢
      -- a carriage return is not the line end, so that one is still to come
      obtain ⟨ha, hrel'⟩ := advance_ok (hrel.input hok (hrest.trans hd.symm)) rfl hhead hd
      have hrest' : rest ≠ [] := by
        rintro rfl
        cases hlined
        exact hc rfl
      have hne' : i.advance.rest ≠ [] := by
        rw [hrel'.rest]
        exact hrest'
      obtain ⟨-, u2, hu2, hlonger2⟩ := goesOn_advance _ _ hlonger _ _ ha (live_nil (t := { t with input := i.advance }) hne')
      rw [bind_ok ha] at hx
      rw [bind_ok hu2]
      exact takeExpected_level hlonger2 hrel' hx
    · rw [if_neg hcr] at hx
      cases hx

/-! ## Record by record -/

variable {ctx : Ctx}

/-- `r` is `s` over an input of which as much has been consumed, and which goes on unless `s` has used up its own. -/
def State.Level (s r : State) : Prop :=
  ∃ j, r = s.on j ∧ s.tape.input.consumed = j.consumed ∧ (s.tape.input.rest ≠ [] → s.Longer r)

theorem State.Longer.consumed {s r : State} (h : s.Longer r) : r.tape.input.consumed = s.tape.input.consumed := by
  rcases h with rfl | ⟨j, rfl, hj⟩
  · rfl
  · exact hj.consumed.symm

theorem flush_level {capture : Bool} {t t' u : Tape} {a : Unit} (h : t.Level u) (hx : flush capture t = .ok a t') :
    ∃ u', flush capture u = .ok a u' ∧ t'.Level u' := by
  obtain ⟨j, rfl, hconsumed, hlonger⟩ := h
  cases hx
  refine ⟨_, rfl, ?_⟩
  by_cases he : t.emit = [] ∨ !capture
  · simp only [if_pos he]
    refine ⟨j, rfl, hconsumed, fun hrest => ?_⟩
    rcases hlonger hrest with heq | ⟨k, heq, hk⟩
    · exact .inl (congrArg (fun t : Tape => { t with emit := [] }) heq)
    · exact .inr ⟨k, congrArg (fun t : Tape => { t with emit := [] }) heq, hk⟩
  · simp only [if_neg he]
    refine ⟨j, rfl, hconsumed, fun hrest => ?_⟩
    rcases hlonger hrest with heq | ⟨k, heq, hk⟩
    · exact .inl (congrArg (fun t : Tape => { t with spool := t.spool ++ t.emit, emit := [] }) heq)
    · exact .inr ⟨k, congrArg (fun t : Tape => { t with spool := t.spool ++ t.emit, emit := [] }) heq, hk⟩

/-- The part of `scanRecord` behind the value, where `finish` and `compact` have been noted. -/
def recordReport (ctx : Ctx) (index : Nat) (first : UInt8) (start finish : Nat) (compact : Bool) : ScanM Record := do
  onTape recordSeparator
  onTape (flush ctx.capture)
  let s ← get
  return {
    index
    rootIsObject := first = chLBrace
    hits := if first = chLBrace then s.hits else 0
    spool := s.tape.spool
    spans := (List.range ctx.captureKeys.length).map s.captureSpans
    sourceOffset := start
    sourceLen := finish - start
    sourceCompact := compact }

theorem recordRest_run (index : Nat) (first : UInt8) (start : Nat) (s : State) :
    recordRest ctx index first start s =
      recordReport ctx index first start s.tape.input.consumed s.tape.compactRangeOk
        { s with tape := { s.tape with compactRangeActive := false } } := rfl

/-- A step of the tape that keeps the inputs level. -/
theorem onTape_level {α : Type} {x y : TapeM α} {s s' r : State} {a : α} (hs : ∃ j, r = s.on j)
    (hstep : ∀ t', x s.tape = .ok a t' → ∃ u', y r.tape = .ok a u' ∧ t'.Level u') (hx : onTape x s = .ok a s') :
    ∃ r', onTape y r = .ok a r' ∧ s'.Level r' := by
  unfold onTape at hx
  cases ht : x s.tape with
  | error e t =>
    rw [ht] at hx
    cases hx
  | ok b t =>
    rw [ht] at hx
    cases hx
    obtain ⟨u', hy, j, rfl, hconsumed, hlonger⟩ := hstep t ht
    obtain ⟨k, rfl⟩ := hs
    refine ⟨{ s.on k with tape := t.on j }, by rw [onTape, hy], ⟨j, rfl, hconsumed, fun hrest => ?_⟩⟩
    rcases hlonger hrest with heq | ⟨l, heq, hl⟩
    · exact .inl (congrArg (fun t : Tape => { s with tape := t }) heq)
    · exact .inr ⟨l, congrArg (fun t : Tape => { s with tape := t }) heq, hl⟩

theorem State.Level.tape {s r : State} (h : s.Level r) : s.tape.Level r.tape := by
  obtain ⟨j, rfl, hconsumed, hlonger⟩ := h
  exact ⟨j, rfl, hconsumed, fun hrest => (hlonger hrest).tape⟩

theorem recordReport_level {index : Nat} {first : UInt8} {start finish : Nat} {compact : Bool} {s s' r : State}
    {a : Record} {f : Flat} (h : s.Longer r) (hrel : Rel total s.tape f) (hlf : Lined f.rest)
    (hx : recordReport ctx index first start finish compact s = .ok a s') :
    ∃ r', recordReport ctx index first start finish compact r = .ok a r' ∧ s'.Level r' := by
  rw [recordReport] at hx ⊢
  cases h1 : onTape recordSeparator s with
  | error e s1 =>
    rw [bind_error h1] at hx
    cases hx
  | ok u s1 =>
    obtain ⟨r1, hr1, hlevel1⟩ := onTape_level h.exists_on (fun t' => recordSeparator_level h.tape hrel hlf) h1
    rw [bind_ok h1] at hx
    rw [bind_ok hr1]
    cases h2 : onTape (flush ctx.capture) s1 with
    | error e s2 =>
      rw [bind_error h2] at hx
      cases hx
    | ok u s2 =>
      have hs1 : ∃ j, r1 = s1.on j := by
        obtain ⟨j, hj, -⟩ := hlevel1
        exact ⟨j, hj⟩
      obtain ⟨r2, hr2, hlevel2⟩ := onTape_level hs1 (fun t' => flush_level hlevel1.tape) h2
      rw [bind_ok h2] at hx
      rw [bind_ok hr2]
      obtain ⟨j, rfl, hconsumed, hlonger⟩ := hlevel2
      cases hx
      exact ⟨_, rfl, j, rfl, hconsumed, hlonger⟩

/-- A document leaves the line end behind it. -/
theorem value_leaves (hn : ∀ i < ctx.n, (ctx.term i).NumberOk) {s s' : State} {f : Flat} {u : Unit}
    (h : Rel total s.tape f) (hd : s.tape.depth = 0) (hlf : Lined f.rest)
    (hx : value ctx (f.rest.length + 1) s = .ok u s') : ∃ f', Rel total s'.tape f' ∧ Lined f'.rest := by
  have hacc := value_accepts hn (f.rest.length + 1) 0 s f h hd (Nat.zero_le _)
  cases hv : valueP (f.rest.length + 1) f with
  | none =>
    obtain ⟨e, s1, hfail, -⟩ := hacc.fails hv
    rw [hfail] at hx
    cases hx
  | some p =>
    obtain ⟨v, f'⟩ := p
    rcases hacc.ends hv with ⟨u', s2, hok, hq⟩ | ⟨-, e, s1, hfail, -⟩
    · rw [hok] at hx
      cases hx
      obtain ⟨text, hw, hwrote⟩ := valueP_sound _ _ _ _ hv
      rw [hwrote.rest] at hlf
      exact ⟨f', hq.took.rel, hlf.behind (firm_value hw)⟩
    · rw [hfail] at hx
      cases hx

theorem searches_rootExists (ctx : Ctx) : Searches (matchRootTerminalRecursiveExists ctx) where
  on s j := by
    unfold matchRootTerminalRecursiveExists
    rw [(searches_matchTerminalRecursiveTerms ctx ctx.terminalRecursiveRootExistsTerms 0).on]
    rfl
  input s := by
    unfold matchRootTerminalRecursiveExists
    dsimp only [setKeySegment]
    rw [matchTerminalRecursiveTerms_tape]

theorem blind_beginRecord (ctx : Ctx) (first : UInt8) : Blind (beginRecord ctx first) where
  on s j := by
    have hroot : ∀ t u : State, u = t.on j →
        { (matchRootTerminalRecursiveExists ctx u).1 with
          hits := (matchRootTerminalRecursiveExists ctx u).1.hits ||| (matchRootTerminalRecursiveExists ctx u).2 } =
        State.on { (matchRootTerminalRecursiveExists ctx t).1 with
          hits := (matchRootTerminalRecursiveExists ctx t).1.hits ||| (matchRootTerminalRecursiveExists ctx t).2 } j := by
      rintro t u rfl
      rw [(searches_rootExists ctx).on]
    unfold beginRecord
    dsimp only
    split
    · exact hroot _ _ rfl
    · rfl
  input s := by rw [beginRecord_tape]

/-- **A record of complete lines is read alike whatever comes behind them.** -/
theorem scanRecord_level (hn : ∀ i < ctx.n, (ctx.term i).NumberOk) {index : Nat} {first : UInt8} {s s' r : State}
    {bytes : Bytes} {a : Record} (h : s.Longer r) (hb : Between total ctx s bytes) (hlf : Lined bytes)
    (hx : scanRecord ctx index first s = .ok a s') :
    ∃ r', scanRecord ctx index first r = .ok a r' ∧ s'.Level r' := by
  have hrun : ∀ q : State, scanRecord ctx index first q =
      (value ctx ((beginRecord ctx first q).tape.input.size + 1) >>= fun _ =>
        recordRest ctx index first q.tape.input.consumed) (beginRecord ctx first q) := fun _ => rfl
  have hblind := blind_beginRecord ctx first
  have hbegin := hblind.longer h
  have hrel : Rel total (beginRecord ctx first s).tape { rest := bytes, compact := true } := by
    rw [beginRecord_tape]
    exact ⟨hb.ok, by rw [hb.emit]; exact Nat.zero_le _, hb.rest, fun _ => rfl⟩
  have hdepth : (beginRecord ctx first s).tape.depth = 0 := by
    rw [beginRecord_tape]
    exact hb.depth
  have hsize : (beginRecord ctx first s).tape.input.size = bytes.length := by rw [Input.size_eq, hrel.rest]
  rw [hrun] at hx ⊢
  cases hv : value ctx ((beginRecord ctx first s).tape.input.size + 1) (beginRecord ctx first s) with
  | error e s1 =>
    rw [bind_error hv] at hx
    cases hx
  | ok u s1 =>
    rw [bind_ok hv] at hx
    obtain ⟨f, hrel1, hlf1⟩ := value_leaves hn hrel hdepth hlf (hsize ▸ hv)
    have hne : s1.tape.input.rest ≠ [] := by
      rw [hrel1.rest]
      exact hlf1.ne_nil
    obtain ⟨-, r1, hr1, hlonger⟩ := scansOn_value ctx _ ((beginRecord ctx first r).tape.input.size + 1)
      (Nat.succ_le_succ hbegin.tape.size_le) _ _ hbegin u s1 hv (live_nil hne)
    have hquiet : Blind fun s => { s with tape := { s.tape with compactRangeActive := false } } :=
      ⟨fun _ _ => rfl, fun _ => rfl⟩
    have hcompact : r1.tape.compactRangeOk = s1.tape.compactRangeOk := by
      obtain ⟨j, rfl⟩ := hlonger.exists_on
      rfl
    rw [recordRest_run] at hx
    rw [bind_ok hr1, h.consumed, recordRest_run, hlonger.consumed, hcompact]
    exact recordReport_level (hquiet.longer hlonger) (f := f)
      ⟨hrel1.ok, hrel1.emit, hrel1.rest, fun ha => absurd ha Bool.false_ne_true⟩ hlf1 hx

/-- Where a record ends, the next one begins. -/
theorem scanRecord_between (hn : ∀ i < ctx.n, (ctx.term i).NumberOk) {index : Nat} {first : UInt8} {s s' : State}
    {bytes : Bytes} {a : Record} (hb : Between total ctx s bytes) (hf : bytes.head? = some first)
    (hx : scanRecord ctx index first s = .ok a s') : ∃ last, Between total ctx s' last ∧ last <:+ bytes ∧ last.length < bytes.length := by
  have hreads := scanRecord_reads hn index hb hf
  cases hr : recordP bytes with
  | none =>
    rw [hr] at hreads
    obtain ⟨e, s1, hfail, -⟩ := hreads
    rw [hfail] at hx
    cases hx
  | some p =>
    obtain ⟨v, mid, last⟩ := p
    rw [hr] at hreads
    rcases hreads with ⟨a', s1, hok, hb1, -⟩ | ⟨-, e, s1, hfail, -⟩
    · rw [hok] at hx
      cases hx
      obtain ⟨text, sep, hw, -, hbytes, -⟩ := recordP_sound hr
      have htext : text ≠ [] := by
        obtain ⟨front, c, rfl, -⟩ := firm_value hw
        exact List.append_ne_nil_of_right_ne_nil _ (List.cons_ne_nil _ _)
      refine ⟨last.rest, hb1, ?_, ?_⟩
      · rw [hbytes, ← List.append_assoc]
        exact List.suffix_append _ _
      · have hpos := List.length_pos_of_ne_nil htext
        rw [hbytes, List.length_append, List.length_append]
        omega
    · rw [hfail] at hx
      cases hx

theorem goesOn_nextRecord {w : Bytes} : GoesOn w nextRecord nextRecord :=
  goesOn_skipSpace.bind fun _ => goesOn_peek.bind fun first => .ite (fun _ => follows_throw_bind _ _ _) fun _ =>
    goesOn_pure first

/-- What a step of a trace shows of the input: the record, and how much was consumed. -/
def TraceStep.shown (step : TraceStep) : Record × Nat := (step.record, step.consumed)

/-- An input that is used up has no more records. -/
theorem traceLoop_nil (fuel records : Nat) {s : State} (h : Between total ctx s []) :
    (traceLoop ctx fuel records s).steps = [] := by
  cases fuel with
  | zero => rfl
  | succ fuel =>
    obtain ⟨t', -, hx⟩ := nextRecord_ok h
    rw [List.dropWhile_nil, List.head?_nil, if_neg (by simp)] at hx
    rw [traceLoop, hx]

theorem traceLoop_firstRecords (hn : ∀ i < ctx.n, (ctx.term i).NumberOk) :
    ∀ (fuel fuel' records : Nat) (s r : State) (bytes : Bytes), fuel ≤ fuel' → s.Longer r → Between total ctx s bytes →
      Lined bytes → (traceLoop ctx fuel records s).steps.map (·.shown) <+: (traceLoop ctx fuel' records r).steps.map (·.shown)
  | 0, _, _, _, _, _, _, _, _, _ => List.nil_prefix
  | _ + 1, 0, _, _, _, _, h, _, _, _ => absurd h (Nat.not_succ_le_zero _)
  | fuel + 1, fuel' + 1, records, s, r, bytes, hle, hR, hb, hlf => by
    obtain ⟨t', hb1, hx⟩ := nextRecord_ok hb
    rw [traceLoop, hx]
    by_cases harray : (bytes.dropWhile isSpace).head? = some chLBracket
    · rw [if_pos harray]
      exact List.nil_prefix
    rw [if_neg harray] at hx ⊢
    cases hd : bytes.dropWhile isSpace with
    | nil => exact List.nil_prefix
    | cons first rest =>
      rw [hd] at hx hb1
      have hne : t'.input.rest ≠ [] := by
        rw [hb1.rest]
        exact List.cons_ne_nil _ _
      have hlf1 : Lined (first :: rest) := by
        rw [← hd]
        exact hlf.suffix (List.dropWhile_suffix _) (by rw [hd]; exact List.cons_ne_nil _ _)
      obtain ⟨-, r1, hr1, hR1⟩ := scansOn_tape goesOn_nextRecord s r hR _ _ hx (live_nil (t := t') hne)
      rw [traceLoop, hr1]
      dsimp only [List.head?_cons]
      cases hrec : scanRecord ctx records first { s with tape := t' } with
      | error e s2 => exact List.nil_prefix
      | ok a s2 =>
        obtain ⟨r2, hr2, j, rfl, hconsumed, hR2⟩ := scanRecord_level hn hR1 hb1 hlf1 hrec
        rw [hr2]
        dsimp only
        rw [List.map_cons, List.map_cons, TraceStep.shown, TraceStep.shown, ← hconsumed, List.prefix_cons_inj]
        obtain ⟨last, hb2, hsuffix, -⟩ := scanRecord_between hn hb1 rfl hrec
        by_cases hnil : last = []
        · subst hnil
          rw [traceLoop_nil fuel (records + 1) hb2]
          exact List.nil_prefix
        · have hrest : s2.tape.input.rest ≠ [] := by
            rw [hb2.rest]
            exact hnil
          exact traceLoop_firstRecords hn fuel fuel' (records + 1) s2 _ last (Nat.le_of_succ_le_succ hle) (hR2 hrest) hb2
            (hlf1.suffix hsuffix hnil)

/-- **What is shown of complete lines is shown first, whatever comes behind them.** -/
theorem trace_firstRecords (hn : ∀ i < ctx.n, (ctx.term i).NumberOk) {lines more : List Bytes} (hl : ReaderOk lines)
    (hm : ReaderOk more) (h : Extended lines more) :
    (trace ctx lines).steps.map (·.shown) <+: (trace ctx more).steps.map (·.shown) := by
  have hb := Between.start ctx hl
  have hb' := Between.start ctx hm
  have hshares : (State.start lines).tape.input.Shares (Input.start more) :=
    ⟨.cons [] h, rfl, ⟨_, hb.ok⟩, ⟨_, hb'.ok⟩⟩
  have hR : (State.start lines).Longer (State.start more) := .inr ⟨Input.start more, rfl, hshares⟩
  have hle : lines.flatten.length ≤ more.flatten.length := by
    simpa [Input.size, Input.start, State.start] using hshares.size_le
  exact traceLoop_firstRecords hn _ _ 0 _ _ _ (by omega) hR hb h.lined

/-- A trace never runs out of fuel: every record takes a byte at least. -/
theorem traceLoop_ends (hn : ∀ i < ctx.n, (ctx.term i).NumberOk) : ∀ (fuel records : Nat) (s : State) (bytes : Bytes),
    Between total ctx s bytes → bytes.length < fuel → (traceLoop ctx fuel records s).ending ≠ none
  | 0, _, _, _, _, h => absurd h (Nat.not_lt_zero _)
  | fuel + 1, records, s, bytes, hb, hfuel => by
    obtain ⟨t', hb1, hx⟩ := nextRecord_ok hb
    rw [traceLoop, hx]
    by_cases harray : (bytes.dropWhile isSpace).head? = some chLBracket
    · rw [if_pos harray]
      exact Option.some_ne_none _
    rw [if_neg harray]
    cases hd : (bytes.dropWhile isSpace).head? with
    | none => exact Option.some_ne_none _
    | some first =>
      dsimp only
      cases hrec : scanRecord ctx records first { s with tape := t' } with
      | error e s2 => exact Option.some_ne_none _
      | ok a s2 =>
        obtain ⟨last, hb2, -, hlt⟩ := scanRecord_between hn hb1 hd hrec
        have hle := (List.dropWhile_suffix isSpace (l := bytes)).length_le
        exact traceLoop_ends hn fuel (records + 1) s2 last hb2 (by omega)

theorem trace_ends (hn : ∀ i < ctx.n, (ctx.term i).NumberOk) {chunks : List Bytes} (hc : ReaderOk chunks) :
    (trace ctx chunks).ending ≠ none :=
  traceLoop_ends hn _ 0 _ _ (Between.start ctx hc) (by omega)

end Lql.Scan
