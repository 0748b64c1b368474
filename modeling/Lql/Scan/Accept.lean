import Lql.Scan.MeetSpec

/-!
# What a scan accepts

Whatever the terms are, a scan reads a value exactly as the parser does and copies it without its
spaces. What can differ is where it stops for depth: an array with elements needs one level more
than an object, unless the value is only skipped. So a document that fits with that one level to
spare is always accepted, one that does not fit at all never, and in between a scan that captures
refuses.
-/

namespace Lql.Json

open Lql.Scan (maxDepth)

mutual

/-- Seen at depth `d`, a scan that looks at everything has room for the value. -/
def Value.scans : Nat → Value → Bool
  | d, .obj members => d < maxDepth && members.scans (d + 1)
  | d, .arr elements =>
    d < maxDepth && (elements.isNil || d + 1 < maxDepth) && elements.scans (d + 1)
  | _, .str _ => true
  | _, .num _ => true
  | _, .lit _ => true

def Members.scans : Nat → Members → Bool
  | _, .nil => true
  | d, .cons _ value rest => value.scans d && rest.scans d

def Elements.scans : Nat → Elements → Bool
  | _, .nil => true
  | d, .cons value rest => value.scans d && rest.scans d

end

mutual

/-- What can be scanned can be skipped. -/
theorem Value.fits_of_scans : ∀ (v : Value) (d : Nat), v.scans d = true → v.fits maxDepth d = true
  | .obj members, d, h => by
    rw [Value.scans, Bool.and_eq_true] at h
    rw [Value.fits, h.1, members.fits_of_scans (d + 1) h.2]
    rfl
  | .arr elements, d, h => by
    rw [Value.scans, Bool.and_eq_true, Bool.and_eq_true] at h
    rw [Value.fits, h.1.1, elements.fits_of_scans (d + 1) h.2]
    rfl
  | .str _, _, _ => rfl
  | .num _, _, _ => rfl
  | .lit _, _, _ => rfl

theorem Members.fits_of_scans : ∀ (ms : Members) (d : Nat), ms.scans d = true →
    ms.fits maxDepth d = true
  | .nil, _, _ => rfl
  | .cons _ v rest, d, h => by
    rw [Members.scans, Bool.and_eq_true] at h
    rw [Members.fits, v.fits_of_scans d h.1, rest.fits_of_scans d h.2]
    rfl

theorem Elements.fits_of_scans : ∀ (es : Elements) (d : Nat), es.scans d = true →
    es.fits maxDepth d = true
  | .nil, _, _ => rfl
  | .cons v rest, d, h => by
    rw [Elements.scans, Bool.and_eq_true] at h
    rw [Elements.fits, v.fits_of_scans d h.1, rest.fits_of_scans d h.2]
    rfl

end

mutual

/-- One level to spare is enough for a scan. -/
theorem Value.scans_of_fits : ∀ (v : Value) (d : Nat), v.fits (maxDepth - 1) d = true →
    v.scans d = true
  | .obj members, d, h => by
    rw [Value.fits, Bool.and_eq_true, decide_eq_true_eq] at h
    rw [Value.scans, members.scans_of_fits (d + 1) h.2, Bool.and_true, decide_eq_true_eq]
    omega
  | .arr elements, d, h => by
    rw [Value.fits, Bool.and_eq_true, decide_eq_true_eq] at h
    rw [Value.scans, elements.scans_of_fits (d + 1) h.2, Bool.and_true, Bool.and_eq_true,
      Bool.or_eq_true, decide_eq_true_eq, decide_eq_true_eq]
    omega
  | .str _, _, _ => rfl
  | .num _, _, _ => rfl
  | .lit _, _, _ => rfl

theorem Members.scans_of_fits : ∀ (ms : Members) (d : Nat), ms.fits (maxDepth - 1) d = true →
    ms.scans d = true
  | .nil, _, _ => rfl
  | .cons _ v rest, d, h => by
    rw [Members.fits, Bool.and_eq_true] at h
    rw [Members.scans, v.scans_of_fits d h.1, rest.scans_of_fits d h.2]
    rfl

theorem Elements.scans_of_fits : ∀ (es : Elements) (d : Nat), es.fits (maxDepth - 1) d = true →
    es.scans d = true
  | .nil, _, _ => rfl
  | .cons v rest, d, h => by
    rw [Elements.fits, Bool.and_eq_true] at h
    rw [Elements.scans, v.scans_of_fits d h.1, rest.scans_of_fits d h.2]
    rfl

end

end Lql.Json

namespace Lql.Scan

open Lib Json

variable {ctx : Ctx} {total : Nat}

/-! ## Only the tape counts -/

/-- From `s` to `s'` the bytes `bytes` were read, and copied if the scan captures. -/
structure Took (total : Nat) (ctx : Ctx) (s s' : State) (bytes : Bytes) (f' : Flat) : Prop where
  rel : Rel total s'.tape f'
  step : Step s.tape s'.tape (emitted ctx bytes)

theorem Took.refl {s s' : State} {f : Flat} (h : Rel total s.tape f) (ht : s'.tape = s.tape) :
    Took total ctx s s' [] f := by
  refine ⟨ht ▸ h, ?_⟩
  rw [ht]
  simpa using Step.refl s.tape

theorem Took.trans {s1 s2 s3 : State} {a b : Bytes} {f2 f3 : Flat} (h1 : Took total ctx s1 s2 a f2)
    (h2 : Took total ctx s2 s3 b f3) : Took total ctx s1 s3 (a ++ b) f3 :=
  ⟨h2.rel, by rw [emitted_append]; exact h1.step.trans h2.step⟩

/-- Nothing but the tape is looked at. -/
theorem Took.congr {s1 s2 t1 t2 : State} {a : Bytes} {f' : Flat} (h : Took total ctx s1 s2 a f')
    (h1 : t1.tape = s1.tape) (h2 : t2.tape = s2.tape) : Took total ctx t1 t2 a f' :=
  ⟨h2 ▸ h.rel, by rw [h1, h2]; exact h.step⟩

theorem took_moves (ctx : Ctx) {α β : Type} {x : TapeM α} {p : P β} {s : State} {f : Flat}
    (h : Sim JsonFault x p s.tape f (Moves total s.tape)) :
    Sim JsonFault (onTape x) p s f fun _ s' _ f' => Took total ctx s s' [] f' := by
  refine (sim_onTape h).mono ?_
  rintro _ s' _ f' ⟨t', rfl, hrel, hstep⟩
  exact ⟨hrel, by simpa using hstep⟩

theorem took_copy (ctx : Ctx) {s : State} {f : Flat} (h : Rel total s.tape f) (c : UInt8) :
    ∃ s', onTape (copyByte ctx.capture c) s = .ok () s' ∧ Took total ctx s s' [c] f := by
  obtain ⟨t', hx, hrel, hstep⟩ := copyByte_ok ctx h c
  exact ⟨_, onTape_ok hx, hrel, hstep⟩

theorem took_string {s : State} {f : Flat} (h : Rel total s.tape f) :
    Sim JsonFault (string ctx) stringP s f fun _ s' str f' => Took total ctx s s' str.quoted f' := by
  refine (string_sim ctx h).mono ?_
  rintro _ s' str f' ⟨m', -, hfed⟩
  exact ⟨hfed.rel, hfed.step⟩

theorem took_literal {s : State} {f : Flat} (h : Rel total s.tape f) (text : Bytes) :
    Sim JsonFault (literal ctx text) (literalP text) s f fun _ s' _ f' => Took total ctx s s' text f' := by
  refine (literal_sim ctx text [] s f (.start h)).mono ?_
  rintro _ s' _ f' htok
  exact ⟨htok.rel, htok.step⟩

/-! ## Scalars under terms -/

/-- The comparisons of a number come to an end, whatever the scanner held before. -/
theorem number_completes (hn : ∀ i < ctx.n, (ctx.term i).NumberOk) (num : Num)
    (rangeTerms eqTerms : Mask) {token : Bytes} (ht : Number.isJson token = true) :
    ∃ a b, numberRangeComplete ctx (token.foldl (numberRangeByte ctx)
        (numberRangeStart ctx num (rangeTerms ||| eqTerms))) = .ok a ∧
      numberEqComplete ctx (token.foldl (numberRangeByte ctx)
        (numberRangeStart ctx num (rangeTerms ||| eqTerms))) eqTerms = .ok b := by
  by_cases hz : rangeTerms ||| eqTerms = 0
  · have hrest : token.foldl (numberRangeByte ctx) (numberRangeStart ctx num 0) =
        numberRangeStart ctx num 0 := number_rest token rfl
    have heq0 : eqTerms = 0 := by
      refine Mask.eq_zero_iff.mpr fun i => ?_
      have := Mask.eq_zero_iff.mp hz i
      rw [Mask.has_or, Bool.or_eq_false_iff] at this
      exact this.2
    rw [hz, hrest]
    refine ⟨0, 0, ?_, ?_⟩
    · rw [numberRangeComplete, if_pos (show (numberRangeStart ctx num 0).active = 0 from rfl)]
    · rw [numberEqComplete, if_pos heq0]
  · have hrun := (Holds.start ctx hz num).run hz token
    rw [List.nil_append, List.length_nil] at hrun
    refine ⟨_, _, hrun.rangeComplete hz ht fun i hi _ => hn i hi, hrun.eqComplete ht
      (fun i ha => ?_) fun i hi _ => hn i hi⟩
    rw [Mask.has_or, ha, Bool.or_true]

theorem took_matchedString {s : State} {f : Flat} (h : Rel total s.tape f) (eqTerms dates : Mask) :
    Sim JsonFault (matchedString ctx eqTerms dates) stringP s f
      fun _ s' str f' => Took total ctx s s' str.quoted f' := by
  refine Sim.bind_left (a := ()) rfl ?_
  refine Sim.bind (q := pure) (took_string (s := { s with
    m := temporalRangeStart (matchStart ctx s.m eqTerms false 0) dates }) h)
    (fun _ s2 str f2 _ hq => ?_) |>.congr rfl (by
      show stringP f = (stringP f).bind _
      cases stringP f <;> rfl)
  exact Sim.bind_left (a := s2) rfl (Sim.bind_left (a := ()) rfl
    (Sim.of_some rfl rfl (hq.congr rfl rfl)))

theorem took_matchedLiteral {s : State} {f : Flat} (h : Rel total s.tape f) (a b : Mask)
    (text : Bytes) :
    Sim JsonFault (matchedLiteral ctx a b text) (literalP text) s f
      fun _ s' _ f' => Took total ctx s s' text f' := by
  refine Sim.bind_left (a := ()) rfl ?_
  refine Sim.bind (q := pure) (took_literal (s := { s with m := matchStart ctx s.m b false 0 }) h text)
    (fun _ s2 _ f2 _ hq => ?_) |>.congr rfl (by
      show literalP text f = (literalP text f).bind _
      cases literalP text f <;> rfl)
  exact Sim.bind_left (a := s2) rfl (Sim.bind_left (a := ()) rfl
    (Sim.of_some rfl rfl (hq.congr rfl rfl)))

theorem took_matchedNumber (hn : ∀ i < ctx.n, (ctx.term i).NumberOk) {s : State} {f : Flat}
    (h : Rel total s.tape f) {value : ScanM Unit}
    (hv : ∀ s, Rel total s.tape f → Sim JsonFault value numberP s f
      fun _ s' token f' => Tokened total ctx s token s' f') (texts rangeTerms eqTerms : Mask) :
    Sim JsonFault (matchedNumber ctx value texts rangeTerms eqTerms) numberP s f
      fun _ s' token f' => Took total ctx s s' token f' := by
  refine Sim.bind_left (a := ()) rfl (Sim.bind_left (a := ()) rfl ?_)
  refine Sim.bind (q := pure) (hv { s with
    m := matchStart ctx s.m texts false 0
    num := numberRangeStart ctx s.num (rangeTerms ||| eqTerms) } h)
    (fun _ s2 token f2 hnum hq => ?_) |>.congr rfl (by
      show numberP f = (numberP f).bind _
      cases numberP f <;> rfl)
  obtain ⟨a, b, ha, hb⟩ := number_completes hn s.num rangeTerms eqTerms (numberP_isJson hnum)
  have hnum2 : s2.num = token.foldl (numberRangeByte ctx)
      (numberRangeStart ctx s.num (rangeTerms ||| eqTerms)) := by rw [hq.state]
  refine Sim.bind_left (a := s2) rfl (Sim.bind_left (a := ()) rfl ?_)
  rw [hnum2, ha]
  refine Sim.bind_left (a := ()) rfl ?_
  rw [hb]
  refine Sim.bind_left (a := ()) rfl (Sim.bind_left (a := ()) rfl (Sim.of_some rfl rfl ?_))
  exact ⟨hq.rel, hq.step⟩

/-! ## Steps that leave the tape alone -/

@[simp] theorem matchTerminalRecursiveTerms_tape (s : State) (active : Mask) (d : Nat) :
    (matchTerminalRecursiveTerms ctx s active d).1.tape = s.tape := by
  rw [matchTerminalRecursiveTerms]
  split <;> rfl

@[simp] theorem matchRecursiveTerms_tape (s : State) (active : Mask) (d : Nat) :
    (matchRecursiveTerms ctx s active d).1.tape = s.tape := by
  rw [matchRecursiveTerms]
  split <;> rfl

@[simp] theorem preludeRec_tape (s : State) (d : Nat) (A R : Mask) :
    (preludeRec ctx s d A R).1.tape = s.tape := by
  rw [preludeRec]
  split
  · exact matchRecursiveTerms_tape s A d
  · rfl

@[simp] theorem preludeWild_tape (s : State) (d : Nat) (A : Mask) :
    (preludeWild ctx s d A).1.tape = s.tape := by
  rw [preludeWild, matchObjectWildcards]
  split
  · split <;> rfl
  · rfl

@[simp] theorem preludeAnchor_tape (s : State) (d : Nat) (active : Mask) :
    (preludeAnchor ctx s d active).1.tape = s.tape := by
  rw [preludeAnchor]
  split <;> rfl

@[simp] theorem carryRecursiveSegments_tape (s : State) (a b : Nat) (A R : Mask) :
    (carryRecursiveSegments ctx s a b A R).tape = s.tape := by
  rw [carryRecursiveSegments]
  split <;> rfl

@[simp] theorem reconcile_tape (ctx : Ctx) (s : State) (k : KeyMatch) (R : Mask) (d : Nat) :
    (reconcile ctx s k R d).tape = s.tape := by
  rw [reconcile]
  dsimp only
  split <;> rfl

theorem enterMember_tape (ctx : Ctx) (d : Nat) (member : Member) (first : Option UInt8) (s : State) :
    ∃ r s', enterMember ctx d member first s = .ok r s' ∧ s'.tape = s.tape := by
  cases hc : isContainer first with
  | false =>
      by_cases hd : d + 1 < maxDepth
      · refine ⟨_, _, by simp only [enterMember, hc, if_pos hd, Bool.false_eq_true, if_false]; rfl, ?_⟩
        rfl
      · refine ⟨_, _, by simp only [enterMember, hc, if_neg hd, Bool.false_eq_true, if_false]; rfl, ?_⟩
        rfl
  | true =>
      have hrec := reconcile_tape ctx s member.key member.recursiveTerms d
      by_cases hd : d + 1 < maxDepth
      · by_cases hr : member.recursiveTerms ≠ 0
        · refine ⟨_, _, by simp only [enterMember, hc, if_pos hd, if_pos hr, if_true]; rfl, ?_⟩
          rw [carryRecursiveSegments_tape]
          exact hrec
        · refine ⟨_, _, by simp only [enterMember, hc, if_pos hd, if_neg hr, if_true]; rfl, ?_⟩
          exact hrec
      · refine ⟨_, _, by simp only [enterMember, hc, if_neg hd, if_true]; rfl, ?_⟩
        exact hrec

theorem addHits_ok (hits : Mask) (s : State) :
    ∃ r, addHits hits s = .ok () r ∧ r.tape = s.tape := ⟨_, rfl, rfl⟩

/-! ## Keys -/

theorem took_keyAfter {s : State} {f : Flat} (h : Rel total s.tape f) (d : Nat)
    (recursiveTerms active : Mask) (w : State × Mask) (hw : w.1.tape = s.tape) :
    Sim JsonFault (keyAfter ctx d recursiveTerms active w none) stringP s f
      fun _ s' str f' => Took total ctx s s' str.quoted f' := by
  dsimp only [keyAfter]
  refine Sim.bind_left (a := ⟨⟩) rfl ?_
  refine Sim.bind (q := pure) (took_string (s := matchStartKey ctx
    { w.1 with m := captureStart ctx w.1.m (w.1.capturePathActive d) d } active recursiveTerms d)
    (hw ▸ h)) (fun _ s2 str f2 _ hq => ?_) |>.congr rfl (by
      show stringP f = (stringP f).bind _
      cases stringP f <;> rfl)
  refine Sim.bind_left (a := s2) rfl (Sim.bind_left (a := ⟨⟩) rfl (Sim.of_pure ?_))
  refine hq.congr hw.symm ?_
  rw [preludeAnchor_tape, matchTerminalRecursiveTerms_tape]
  rfl

/-- A key that lies in the buffer is taken at once; only a scan that does not capture does so. -/
theorem took_plainKey {s : State} {f : Flat} (h : Rel total s.tape f) (hc : ctx.capture = false)
    (d : Nat) (recursiveTerms active : Mask) (w : State × Mask) (hw : w.1.tape = s.tape) :
    Sim JsonFault (keyAfter ctx d recursiveTerms active w
        (tryPlainKeyMatch ctx w.1 active recursiveTerms d)) stringP s f
      fun _ s' str f' => Took total ctx s s' str.quoted f' := by
  cases hk : plainKey w.1.tape.input.buffer with
  | none =>
      rw [tryPlainKeyMatch, hk]
      exact took_keyAfter h d _ _ _ hw
  | some key =>
      obtain ⟨f', hstr, hrel⟩ := plainKey_string (hw ▸ h) hk
      simp only [tryPlainKeyMatch, hk, keyAfter]
      refine Sim.of_some hstr rfl ⟨?_, ?_⟩
      · rw [preludeAnchor_tape]
        exact hrel
      · have hquiet : emitted ctx (plainStr key).quoted = [] := by rw [emitted, hc]; rfl
        rw [preludeAnchor_tape, hquiet, ← hw]
        exact step_input w.1.tape _

theorem took_objectKey {s : State} {f : Flat} (h : Rel total s.tape f) (d : Nat) :
    Sim JsonFault (objectKey ctx d) stringP s f
      fun _ s' str f' => Took total ctx s s' str.quoted f' := by
  refine Sim.congr (s := s) (t := f) ?_ (objectKey_eq ctx d s) rfl
  dsimp only
  generalize (if s.flatEqActive && !stopHitReady ctx s.hits then s.pathActive d else 0) = A
  generalize (if s.flatEqActive && !stopHitReady ctx s.hits then s.recursiveActive d else 0) = R
  have hw : (preludeWild ctx (preludeRec ctx s d A R).1 d A).1.tape = s.tape := by
    rw [preludeWild_tape, preludeRec_tape]
  by_cases hfast : (!ctx.capture && decide
      ((preludeWild ctx (preludeRec ctx s d A R).1 d A).1.capturePathActive d = 0)) = true
  · rw [if_pos hfast]
    rw [Bool.and_eq_true, Bool.not_eq_true'] at hfast
    exact took_plainKey h hfast.1 d _ _ _ hw
  · rw [if_neg hfast]
    exact took_keyAfter h d _ _ _ hw

/-! ## Values -/

/-- A value has been read at depth `d`: all of it, within the limit, and with room for a scan when it
was looked at. -/
structure TookValue (total : Nat) (ctx : Ctx) (d : Nat) (s s' : State) (v : Value) (f' : Flat) :
    Prop where
  took : Took total ctx s s' v.compact f'
  fits : v.fits maxDepth d = true
  scans : ctx.capture = true → v.scans d = true

/-- A scan of a value at depth `d` against the parser: it may only refuse what lacks the one level. -/
def Accepts (total : Nat) (ctx : Ctx) (d : Nat) (x : ScanM Unit) (p : P Value) (s : State)
    (f : Flat) : Prop :=
  SimUpTo JsonFault (fun v => v.scans d = false) x p s f
    fun _ s' v f' => TookValue total ctx d s s' v f'

/-- The parser of a value that starts with `first`. -/
def valueOf (n : Nat) : Option UInt8 → P Value
  | none => failure
  | some c =>
    if c = chLBrace then objectP (valueP n) n
    else if c = chLBracket then arrayP (valueP n) n
    else if c = chQuote then do let s ← stringP; return .str s
    else if c = chT then do literalP txtTrue; return .lit .tt
    else if c = chF then do literalP txtFalse; return .lit .ff
    else if c = chN then do literalP txtNull; return .lit .nul
    else do let token ← numberP; return .num token

theorem valueP_eq (n : Nat) (f : Flat) : valueP (n + 1) f = valueOf n f.rest.head? f := rfl

/-- The scanner of a value that starts with `first`. -/
def scanOf (ctx : Ctx) (n : Nat) : Option UInt8 → ScanM Unit
  | none => number ctx
  | some c =>
    if c = chLBrace then object ctx (value ctx n) n
    else if c = chLBracket then array ctx (value ctx n) n
    else if c = chQuote then string ctx
    else if c = chT then literal ctx txtTrue
    else if c = chF then literal ctx txtFalse
    else if c = chN then literal ctx txtNull
    else number ctx

/-- The first byte decides. -/
theorem value_ok (ctx : Ctx) {s : State} {f : Flat} (h : Rel total s.tape f) (n : Nat) :
    ∃ i, value ctx (n + 1) s =
        scanOf ctx n f.rest.head? { s with tape := { s.tape with input := i } } ∧
      Rel total { s.tape with input := i } f := by
  obtain ⟨i, hx, hok, hrest, -⟩ := peek_ok h
  refine ⟨i, ?_, h.input hok hrest⟩
  rw [value, bind_ok (onTape_ok hx)]
  rfl

theorem Accepts.congr {x y : ScanM Unit} {p q : P Value} {d : Nat} {s r : State} {f : Flat}
    (h : Accepts total ctx d x p s f) (hx : y r = x s) (hp : q f = p f) (ht : r.tape = s.tape) :
    Accepts total ctx d y q r f := by
  have h' : Accepts total ctx d y q r f ↔ SimUpTo JsonFault (fun v => v.scans d = false) y q r f
    fun _ s' v f' => TookValue total ctx d r s' v f' := Iff.rfl
  rw [h', SimUpTo, hx, hp]
  have hsame := h
  rw [Accepts, SimUpTo] at hsame
  cases hpf : p f with
  | none => rw [hpf] at hsame; exact hsame
  | some b =>
      rw [hpf] at hsame
      rcases hsame with ⟨a, s', hx, hq⟩ | hfail
      · exact .inl ⟨a, s', hx, hq.took.congr ht rfl, hq.fits, hq.scans⟩
      · exact .inr hfail

/-- The same run, counted from a state with the same tape. -/
theorem Accepts.since {x : ScanM Unit} {p : P Value} {d : Nat} {s r : State} {f : Flat}
    (h : Accepts total ctx d x p r f) (ht : s.tape = r.tape) :
    SimUpTo JsonFault (fun v => v.scans d = false) x p r f
      fun _ s' v f' => TookValue total ctx d s s' v f' := by
  refine SimUpTo.mono h ?_
  intro _ s' v f' hq
  exact ⟨hq.took.congr ht rfl, hq.fits, hq.scans⟩

/-- A look ahead changes nothing. -/
theorem Accepts.peeked {x y : ScanM Unit} {p q : P Value} {d : Nat} {s : State} {f : Flat} {i : Input}
    (h : Accepts total ctx d x p { s with tape := { s.tape with input := i } } f)
    (hx : y s = x { s with tape := { s.tape with input := i } }) (hp : q f = p f) :
    Accepts total ctx d y q s f := by
  rw [Accepts, SimUpTo, hx, hp]
  rw [Accepts, SimUpTo] at h
  cases hpf : p f with
  | none => rw [hpf] at h; exact h
  | some b =>
      rw [hpf] at h
      rcases h with ⟨a, s', hx, hq⟩ | hfail
      · refine .inl ⟨a, s', hx, ⟨hq.took.rel, ?_⟩, hq.fits, hq.scans⟩
        simpa using (step_input s.tape i).trans hq.took.step
      · exact .inr hfail

/-- A first byte that opens nothing and is no string or literal. -/
def startsNumber (c : UInt8) : Prop :=
  c ≠ chLBrace ∧ c ≠ chLBracket ∧ c ≠ chQuote ∧ c ≠ chT ∧ c ≠ chF ∧ c ≠ chN

/-- A number that the value scanner reads. -/
theorem value_number {s : State} {f : Flat} (h : Rel total s.tape f) (n : Nat)
    (hc : ∀ c, f.rest.head? = some c → startsNumber c) :
    Sim JsonFault (value ctx (n + 1)) numberP s f
      fun _ s' token f' => Tokened total ctx s token s' f' := by
  obtain ⟨i, hx, h1⟩ := value_ok ctx h n
  have hnum : scanOf ctx n f.rest.head? = number ctx := by
    cases hh : f.rest.head? with
    | none => rfl
    | some c =>
        obtain ⟨c1, c2, c3, c4, c5, c6⟩ := hc c hh
        simp only [scanOf, if_neg c1, if_neg c2, if_neg c3, if_neg c4, if_neg c5, if_neg c6]
  rw [hnum] at hx
  refine ((number_sim (s := { s with tape := { s.tape with input := i } }) h1).congr hx rfl).mono ?_
  intro _ s' token f' ht
  exact ⟨ht.state, ht.rel, by simpa using (step_input s.tape i).trans ht.step⟩

/-- A scalar is accepted wherever it stands. -/
theorem accepts_scalar {α : Type} {x : ScanM Unit} {q : P α} {g : α → Value} {bytes : α → Bytes}
    {d : Nat} {s : State} {f : Flat}
    (h : Sim JsonFault x q s f fun _ s' b f' => Took total ctx s s' (bytes b) f')
    (hfits : ∀ b, (g b).fits maxDepth d = true) (hscans : ∀ b, (g b).scans d = true)
    (hbytes : ∀ b, (g b).compact = bytes b) :
    Accepts total ctx d x (do let b ← q; return g b) s f := by
  refine (h.map_right (P := fun _ s' b f' => Took total ctx s s' (bytes b) f') g ?_ ?_).upTo
  · show (q f).bind _ = _
    cases q f <;> rfl
  · intro _ s' b f' ht
    exact ⟨hbytes b ▸ ht, hfits b, fun _ => hscans b⟩

section Scalars

variable {m d : Nat} {s : State} {f : Flat}

theorem accepts_string {x : ScanM Unit} (hh : f.rest.head? = some chQuote)
    (hx : Sim JsonFault x stringP s f fun _ s' str f' => Took total ctx s s' str.quoted f') :
    Accepts total ctx d x (valueP (m + 1)) s f := by
  refine (accepts_scalar (g := .str) hx (fun _ => rfl) (fun _ => rfl) (fun _ => rfl)).congr
    (q := valueP (m + 1)) rfl ?_ rfl
  rw [valueP_eq, hh]
  rfl

theorem accepts_literal {x : ScanM Unit} (l : Literal) (hh : f.rest.head? = l.text.head?)
    (hx : Sim JsonFault x (literalP l.text) s f fun _ s' _ f' => Took total ctx s s' l.text f') :
    Accepts total ctx d x (valueP (m + 1)) s f := by
  refine (accepts_scalar (g := fun _ => .lit l) hx (fun _ => rfl) (fun _ => rfl)
    (fun _ => rfl)).congr (q := valueP (m + 1)) rfl ?_ rfl
  rw [valueP_eq, hh]
  cases l <;> rfl

theorem accepts_number {x : ScanM Unit} (hc : ∀ c, f.rest.head? = some c → startsNumber c)
    (hx : Sim JsonFault x numberP s f fun _ s' token f' => Took total ctx s s' token f') :
    Accepts total ctx d x (valueP (m + 1)) s f := by
  refine (accepts_scalar (g := .num) hx (fun _ => rfl) (fun _ => rfl) (fun _ => rfl)).congr
    (q := valueP (m + 1)) rfl ?_ rfl
  rw [valueP_eq]
  cases hh : f.rest.head? with
  | none =>
      have hnone : numberP f = none := by
        cases hn : numberP f with
        | none => rfl
        | some r =>
            have hnil : f.rest = [] := by simpa using hh
            have := numberP_eats _ _ _ hn
            rw [hnil] at this
            exact absurd this (Nat.not_lt_zero _)
      exact (bind_eq_none hnone).symm
  | some c =>
      obtain ⟨c1, c2, c3, c4, c5, c6⟩ := hc c hh
      simp only [valueOf, if_neg c1, if_neg c2, if_neg c3, if_neg c4, if_neg c5, if_neg c6]

/-- A scalar under terms: `memberValue` reads what the plain scanner reads. -/
theorem accepts_memberValue (hn : ∀ i < ctx.n, (ctx.term i).NumberOk) (h : Rel total s.tape f)
    (hv : Accepts total ctx d (value ctx (m + 1)) (valueP (m + 1)) s f) (matched : Mask) :
    Accepts total ctx d (memberValue ctx (value ctx (m + 1)) matched f.rest.head?) (valueP (m + 1))
      s f := by
  refine SimUpTo.bind_left (a := s) rfl ?_
  cases hh : f.rest.head? with
  | none => exact hv
  | some c =>
  by_cases c1 : c = chQuote
  · subst c1
    exact accepts_string hh (took_matchedString h _ _)
  by_cases c2 : c = chT ∨ c = chF
  · dsimp only
    rw [if_neg c1, if_pos c2]
    rcases c2 with rfl | rfl
    · exact accepts_literal .tt hh (took_matchedLiteral h _ _ _)
    · exact accepts_literal .ff hh (took_matchedLiteral h _ _ _)
  by_cases c3 : c = chN
  · subst c3
    exact accepts_literal .nul hh (took_matchedLiteral h _ _ _)
  by_cases c4 : c = chMinus ∨ isDigit c
  · dsimp only
    rw [if_neg c1, if_neg c2, if_neg c3, if_pos c4]
    have hc : ∀ c', f.rest.head? = some c' → startsNumber c' := by
      intro c' hc'
      obtain rfl : c = c' := Option.some.inj (hh.symm.trans hc')
      have hb : c ≠ chLBrace ∧ c ≠ chLBracket := by
        rcases c4 with rfl | c4
        · decide
        · constructor <;> · rintro rfl; revert c4; decide
      exact ⟨hb.1, hb.2, c1, fun e => c2 (.inl e), fun e => c2 (.inr e), c3⟩
    exact accepts_number hc (took_matchedNumber hn h (fun s hs => value_number hs m hc) _ _ _)
  · dsimp only
    rw [if_neg c1, if_neg c2, if_neg c3, if_neg c4]
    exact hv

/-- The same for an element of an array. -/
theorem accepts_matchedScalarValue (hn : ∀ i < ctx.n, (ctx.term i).NumberOk) (h : Rel total s.tape f)
    (hv : ∀ r : State, r.tape = s.tape →
      Accepts total ctx d (value ctx (m + 1)) (valueP (m + 1)) r f) (matched : Mask) :
    Accepts total ctx d (matchedScalarValue ctx (value ctx (m + 1)) matched f.rest.head?)
      (valueP (m + 1)) s f := by
  refine SimUpTo.bind_left (a := s) rfl ?_
  obtain ⟨r, hx, hr⟩ := addHits_ok (matchValuelessPresent ctx s matched) s
  have h1 : Rel total r.tape f := hr ▸ h
  refine SimUpTo.bind_left hx ?_
  simp only
  by_cases c0 : f.rest.head? = some chN
  · have c1 : ¬ f.rest.head? = some chQuote := by rw [c0]; decide
    have c2 : ¬ (f.rest.head? = some chT ∨ f.rest.head? = some chF) := by rw [c0]; decide
    rw [if_neg (not_not.mpr c0), if_neg c1, if_neg c2, if_pos c0]
    split
    · exact (hv r hr).since hr.symm
    · exact (accepts_literal .nul c0 (took_matchedLiteral h1 _ _ _)).since hr.symm
  · rw [if_pos c0]
    obtain ⟨q, hy, hq⟩ := addHits_ok
      (valueTerms ctx matched s.m.termSegment fun k => decide (k = .exist)) r
    have ht : q.tape = s.tape := hq.trans hr
    have h2 : Rel total q.tape f := ht ▸ h
    refine SimUpTo.bind_left hy ?_
    by_cases c1 : f.rest.head? = some chQuote
    · rw [if_pos c1]
      split
      · exact (accepts_string c1 (took_string h2)).since ht.symm
      · exact (accepts_string c1 (took_matchedString h2 _ _)).since ht.symm
    rw [if_neg c1]
    by_cases c2 : f.rest.head? = some chT ∨ f.rest.head? = some chF
    · rw [if_pos c2]
      split
      · exact (hv q ht).since ht.symm
      · rcases c2 with c2 | c2
        · rw [if_pos c2]
          exact (accepts_literal .tt c2 (took_matchedLiteral h2 _ _ _)).since ht.symm
        · rw [if_neg (by rw [c2]; decide)]
          exact (accepts_literal .ff c2 (took_matchedLiteral h2 _ _ _)).since ht.symm
    rw [if_neg c2, if_neg c0]
    by_cases c3 : f.rest.head? ≠ some chLBrace ∧ f.rest.head? ≠ some chLBracket
    · rw [if_pos c3]
      split
      · exact (hv q ht).since ht.symm
      · have hc : ∀ c, f.rest.head? = some c → startsNumber c := by
          intro c hc
          rw [hc] at c0 c1 c2 c3
          simp only [Option.some.injEq, not_or, ne_eq] at c0 c1 c2 c3
          exact ⟨c3.1, c3.2, c1, c2.1, c2.2, c0⟩
        exact (accepts_number hc
          (took_matchedNumber hn h2 (fun s hs => value_number hs m hc) _ _ _)).since ht.symm
    · rw [if_neg c3]
      exact (hv q ht).since ht.symm

end Scalars

/-- Skipping accepts what fits. -/
theorem accepts_skip {n d : Nat} {s : State} {f : Flat} (hc : ctx.capture = false)
    (h : Rel total s.tape f) (hd : s.tape.depth = d) (hle : d ≤ maxDepth) :
    Accepts total ctx d (onTape (skipValueFast n)) (valueP n) s f := by
  have hskip := sim_onTape (skipValueFast_sim n d s.tape f h hd hle)
  cases hp : valueP n f with
  | none => exact .of_none hp (hskip.fails (bind_eq_none hp))
  | some r =>
      obtain ⟨v, f'⟩ := r
      refine .of_some hp ?_
      cases hfit : checkFits d v with
      | none =>
          refine .inr ⟨?_, hskip.fails (by rw [bind_eq hp, hfit]; rfl)⟩
          have hno := checkFits_none hfit
          cases hs : v.scans d with
          | false => rfl
          | true =>
              rw [v.fits_of_scans d hs] at hno
              cases hno
      | some u =>
          obtain ⟨_, s', hx, t', rfl, hrel, hstep⟩ :=
            hskip.ends (u := f') (b := u) (by rw [bind_eq hp, hfit]; rfl)
          have hquiet : emitted ctx v.compact = [] := by rw [emitted, hc]; rfl
          refine .inl ⟨_, _, hx, ⟨hrel, ?_⟩, checkFits_some hfit, fun ht => ?_⟩
          · rw [hquiet]
            exact hstep
          · rw [hc] at ht
            cases ht

/-! ## Members -/

/-- A conditional step that leaves the tape alone. -/
theorem ite_modify {α : Type} (c : Prop) [Decidable c] (g : State → State) (k : ScanM α) (s : State)
    (hg : (g s).tape = s.tape) :
    ∃ s', (if c then modify g >>= fun _ => k else k) s = k s' ∧ s'.tape = s.tape := by
  by_cases hc : c
  · exact ⟨g s, by rw [if_pos hc]; rfl, hg⟩
  · exact ⟨s, by rw [if_neg hc], rfl⟩

/-- One member: its key and its value. -/
def memberP (p : P Value) : P (Str × Value) := do
  let key ← stringP
  spaceP
  expectP chColon
  spaceP
  let v ← p
  return (key, v)

theorem membersP_succ (p : P Value) (n : Nat) :
    membersP p (n + 1) = memberP p >>= fun kv => memberEndP (membersP p n) kv.1 kv.2 := by
  simp only [membersP, memberP, bind_assoc, pure_bind]

/-- A member has been read at depth `d` of its value. -/
structure TookMember (total : Nat) (ctx : Ctx) (d : Nat) (s s' : State) (kv : Str × Value)
    (f' : Flat) : Prop where
  took : Took total ctx s s' (kv.1.quoted ++ [chColon] ++ kv.2.compact) f'
  fits : kv.2.fits maxDepth d = true
  scans : ctx.capture = true → kv.2.scans d = true

/-- The value part of `objectMember`. -/
def memberRest (ctx : Ctx) (value : ScanM Unit) (skipFuel objectDepth : Nat) (member : Member)
    (first : Option UInt8) (d : Mask × Mask × Mask) : ScanM Unit := do
  let start := captureOffset d.2.1 (← get)
  (if member.key.matched ≠ 0 then memberValue ctx value member.key.matched first
    else if !ctx.capture && d.1 = 0 && member.recursiveTerms = 0 && d.2.1 = 0 && d.2.2 = 0 then
      onTape (skipValueFast skipFuel)
    else value)
  recordCaptures ctx d.2.1 start
  if objectDepth + 1 < maxDepth then modify fun s => setMasks s (objectDepth + 1) 0 0 0

theorem accepts_memberRest (hn : ∀ i < ctx.n, (ctx.term i).NumberOk) {m d : Nat} {s : State}
    {f : Flat} (h : Rel total s.tape f) (hd : s.tape.depth = d + 1) (hle : d + 1 ≤ maxDepth)
    (hv : Accepts total ctx (d + 1) (value ctx (m + 1)) (valueP (m + 1)) s f)
    (member : Member) (masks : Mask × Mask × Mask) :
    Accepts total ctx (d + 1) (memberRest ctx (value ctx (m + 1)) (m + 1) d member f.rest.head? masks)
      (valueP (m + 1)) s f := by
  have hvalue : Accepts total ctx (d + 1) (if member.key.matched ≠ 0 then
        memberValue ctx (value ctx (m + 1)) member.key.matched f.rest.head?
      else if !ctx.capture && masks.1 = 0 && member.recursiveTerms = 0 && masks.2.1 = 0 &&
          masks.2.2 = 0 then onTape (skipValueFast (m + 1))
      else value ctx (m + 1)) (valueP (m + 1)) s f := by
    split
    · exact accepts_memberValue hn h hv member.key.matched
    · split
      · next hskip =>
        simp only [Bool.and_eq_true, Bool.not_eq_true'] at hskip
        exact accepts_skip hskip.1.1.1.1 h hd hle
      · exact hv
  have hend : ∀ s' : State, ∃ s2 : State, (do
      recordCaptures ctx masks.2.1 (captureOffset masks.2.1 s)
      if d + 1 < maxDepth then modify fun s => setMasks s (d + 1) 0 0 0 : ScanM Unit) s' = .ok () s2 ∧
      s2.tape = s'.tape := by
    intro s'
    by_cases hlt : d + 1 < maxDepth
    · refine ⟨_, by simp only [if_pos hlt]; rfl, ?_⟩
      rfl
    · refine ⟨_, by simp only [if_neg hlt]; rfl, ?_⟩
      rfl
  refine SimUpTo.bind_left (a := s) rfl ?_
  refine SimUpTo.congr (s := s) (t := f) (SimUpTo.bind (q := pure) hvalue ?_ ?_) rfl ?_
  · intro v _ v' _ _ hv hq
    cases hq
    exact hv
  · intro _ s' v f' _ hq
    obtain ⟨s2, hx, ht⟩ := hend s'
    exact .of_some rfl (.inl ⟨_, s2, hx, hq.took.congr rfl ht, hq.fits, hq.scans⟩)
  · show valueP (m + 1) f = (valueP (m + 1) f).bind _
    cases valueP (m + 1) f <;> rfl

/-- The end of `objectMember`, from the first byte of the value on. -/
theorem objectMember_rest (ctx : Ctx) (value : ScanM Unit) (n d : Nat) (member : Member) (existsTerms : Mask)
    (first : Option UInt8) (r : Mask × Mask × Mask) (s : State) :
    (do
      if first ≠ some chN then addHits existsTerms
      let start := captureOffset r.2.1 (← get)
      if member.key.matched ≠ 0 then memberValue ctx value member.key.matched first
      else if !ctx.capture && r.1 = 0 && member.recursiveTerms = 0 && r.2.1 = 0 && r.2.2 = 0 then
        onTape (skipValueFast n)
      else value
      recordCaptures ctx r.2.1 start
      if d + 1 < maxDepth then modify fun s => setMasks s (d + 1) 0 0 0 : ScanM Unit) s =
      memberRest ctx value n d member first r
        { s with hits := s.hits ||| if first = some chN then 0 else existsTerms } := by
  have hrest : ∀ s : State, (do
      let start := captureOffset r.2.1 (← get)
      if member.key.matched ≠ 0 then memberValue ctx value member.key.matched first
      else if !ctx.capture && r.1 = 0 && member.recursiveTerms = 0 && r.2.1 = 0 && r.2.2 = 0 then
        onTape (skipValueFast n)
      else value
      recordCaptures ctx r.2.1 start
      if d + 1 < maxDepth then modify fun s => setMasks s (d + 1) 0 0 0 : ScanM Unit) s =
      memberRest ctx value n d member first r s := by
    intro s
    rw [memberRest, get_bind, get_bind]
    dsimp only
    by_cases h1 : member.key.matched ≠ 0
    · rw [if_pos h1, if_pos h1]
    · rw [if_neg h1, if_neg h1]
      split <;> rfl
  by_cases h0 : first = some chN
  · rw [if_neg (not_not.mpr h0), if_pos h0, Mask.or_zero]
    exact hrest s
  · rw [if_pos h0, if_neg h0]
    exact hrest _

/-- A reading step after another. -/
theorem onTape_bind {α β : Type} (x : TapeM α) (k : α → TapeM β) :
    onTape (x >>= k) = onTape x >>= fun a => onTape (k a) := by
  funext s
  simp only [onTape, bind, EStateM.bind]
  cases x s.tape <;> rfl

/-- A member that is only skipped. -/
theorem took_skipMember {m d : Nat} {s : State} {f : Flat} (hc : ctx.capture = false)
    (h : Rel total s.tape f) (hd : s.tape.depth = d + 1) (hle : d + 1 ≤ maxDepth) :
    SimUpTo JsonFault (fun kv => kv.2.scans (d + 1) = false) (onTape (skipMember (m + 1)))
      (memberP (valueP (m + 1))) s f fun _ s' kv f' => TookMember total ctx (d + 1) s s' kv f' := by
  have hquiet : ∀ bytes, emitted ctx bytes = [] := fun bytes => by rw [emitted, hc]; rfl
  simp only [skipMember, onTape_bind]
  refine Sim.bind_upTo (took_moves ctx (skipStringFast_sim h)) fun _ s1 key f1 _ h1 => ?_
  refine Sim.bind_upTo (took_moves ctx (skipSpace_sim h1.rel)) fun _ s2 _ f2 _ h2 => ?_
  refine Sim.bind_upTo (took_moves ctx (takeExpected_sim h2.rel chColon)) fun _ s3 _ f3 _ h3 => ?_
  refine Sim.bind_upTo (took_moves ctx (skipSpace_sim h3.rel)) fun _ s4 _ f4 _ h4 => ?_
  have h14 := ((h1.trans h2).trans h3).trans h4
  have hval := accepts_skip (n := m + 1) hc h4.rel (h14.step.depth.trans hd) hle
  refine SimUpTo.map_right (fun v => (key, v)) hval ?_ (fun _ hF => hF) ?_
  · show (valueP (m + 1) f4).bind _ = _
    cases valueP (m + 1) f4 <;> rfl
  · intro _ s' v f' hq
    have hstep := (h14.trans hq.took).step
    rw [hquiet] at hstep
    exact ⟨⟨hq.took.rel, by rw [hquiet]; exact hstep⟩, hq.fits, hq.scans⟩

theorem took_objectMember (hn : ∀ i < ctx.n, (ctx.term i).NumberOk) {m d : Nat} {s : State}
    {f : Flat} (h : Rel total s.tape f) (hd : s.tape.depth = d + 1) (hle : d + 1 ≤ maxDepth)
    (hv : ∀ (s : State) (f : Flat), Rel total s.tape f → s.tape.depth = d + 1 →
      Accepts total ctx (d + 1) (value ctx (m + 1)) (valueP (m + 1)) s f) :
    SimUpTo JsonFault (fun kv => kv.2.scans (d + 1) = false)
      (objectMember ctx (value ctx (m + 1)) (m + 1) d) (memberP (valueP (m + 1))) s f
      fun _ s' kv f' => TookMember total ctx (d + 1) s s' kv f' := by
  refine Sim.bind_upTo (took_objectKey h d) fun member s1 key f1 _ h1 => ?_
  dsimp only
  obtain ⟨s2, e2, t2⟩ := ite_modify (member.key.matched ≠ 0)
    (fun s => setKeySegment ctx s member.key.matched) _ s1 rfl
  refine SimUpTo.congr ?_ e2 rfl
  refine SimUpTo.bind_left (a := s2) rfl (SimUpTo.bind_left (a := ()) rfl
    (SimUpTo.bind_left (a := ()) rfl ?_))
  have h2 : Rel total s2.tape f1 := t2 ▸ h1.rel
  refine Sim.bind_upTo (took_moves ctx (skipSpace_sim h2)) fun _ s4 _ f4 _ h4 => ?_
  refine Sim.bind_upTo (took_moves ctx (takeExpected_sim h4.rel chColon))
    fun _ s5 _ f5 _ h5 => ?_
  obtain ⟨s6, e6, h6⟩ := took_copy ctx h5.rel chColon
  refine SimUpTo.bind_left e6 ?_
  refine Sim.bind_upTo (took_moves ctx (skipSpace_sim h6.rel)) fun _ s7 _ f7 _ h7 => ?_
  obtain ⟨i, hx, hok, hrest, -⟩ := peek_ok h7.rel
  refine SimUpTo.bind_left (onTape_ok hx) ?_
  obtain ⟨r, s9, e9, t9⟩ := enterMember_tape ctx d member f7.rest.head?
    { s7 with tape := { s7.tape with input := i } }
  refine SimUpTo.bind_left e9 ?_
  have e10 := objectMember_rest ctx (value ctx (m + 1)) (m + 1) d member
    (if member.key.matched = 0 then 0 else matchExists ctx s2 member.key.matched) f7.rest.head? r s9
  obtain ⟨s10, t10⟩ : ∃ s10 : State, s10 = { s9 with hits := s9.hits ||| if f7.rest.head? = some chN then 0
    else if member.key.matched = 0 then 0 else matchExists ctx s2 member.key.matched } := ⟨_, rfl⟩
  rw [← t10] at e10
  refine SimUpTo.congr (s := s10) (t := f7) ?_ e10 rfl
  -- everything up to the value
  have hkey : Took total ctx s s10 (key.quoted ++ [chColon]) f7 := by
    have ht : s10.tape = { s7.tape with input := i } := by
      rw [t10]
      exact t9
    have h47 : Took total ctx s1 s7 ([] ++ [] ++ [chColon] ++ []) f7 :=
      (((h4.congr t2.symm rfl).trans h5).trans h6).trans h7
    refine ⟨ht ▸ h7.rel.input hok hrest, ?_⟩
    have hstep := (h1.trans h47).step.trans (step_input s7.tape i)
    rw [ht]
    simpa using hstep
  have hdepth : s10.tape.depth = d + 1 := hkey.step.depth.trans hd
  have hval := accepts_memberRest hn hkey.rel hdepth hle (hv s10 f7 hkey.rel hdepth) member r
  refine SimUpTo.map_right (fun v => (key, v)) hval ?_ (fun _ hF => hF) ?_
  · show (valueP (m + 1) f7).bind _ = _
    cases valueP (m + 1) f7 <;> rfl
  · intro _ s' v f' hq
    exact ⟨hkey.trans hq.took, hq.fits, hq.scans⟩

/-- The bytes up to the end of a container have been read, and the container left. -/
structure TookOut (total : Nat) (ctx : Ctx) (s s' : State) (bytes : Bytes) (f' : Flat) : Prop where
  rel : Rel total s'.tape f'
  step : Step { s.tape with depth := s.tape.depth - 1 } s'.tape (emitted ctx bytes)

theorem Took.out {s1 s2 s3 : State} {a b : Bytes} {f2 f3 : Flat} (h1 : Took total ctx s1 s2 a f2)
    (h2 : TookOut total ctx s2 s3 b f3) : TookOut total ctx s1 s3 (a ++ b) f3 := by
  refine ⟨h2.rel, ?_⟩
  have hstep : Step { s1.tape with depth := s1.tape.depth - 1 }
      { s2.tape with depth := s2.tape.depth - 1 } (emitted ctx a) :=
    ⟨h1.step.out, by rw [h1.step.depth], h1.step.active⟩
  rw [emitted_append]
  exact hstep.trans h2.step

theorem took_leave (ctx : Ctx) {s : State} {f : Flat} (h : Rel total s.tape f) :
    ∃ s', onTape leave s = .ok () s' ∧ TookOut total ctx s s' [] f := by
  obtain ⟨hx, hrel⟩ := leave_ok h
  exact ⟨_, onTape_ok hx, hrel, by simpa using Step.refl _⟩

/-- Without capture nothing is copied. -/
theorem copyByte_quiet (hc : ctx.capture = false) (c : UInt8) :
    onTape (copyByte ctx.capture c) = pure () := by
  funext s
  rw [hc]
  rfl

/-- What `lql_json_object` does behind the value of a member; `more` reads the next one. -/
def membersTail (ctx : Ctx) (more : Option UInt8 → ScanM Unit) : ScanM Unit := do
  onTape skipSpace
  let c ← onTape take
  if c = chRBrace then
    onTape (copyByte ctx.capture chRBrace)
    onTape leave
  else if c ≠ chComma then jsonError "JSON object member separator is missing"
  else
    onTape (copyByte ctx.capture chComma)
    onTape skipSpace
    more (← onTape peek)

/-- The members from here on have been read. -/
structure TookMembers (total : Nat) (ctx : Ctx) (d : Nat) (s s' : State) (bytes : Bytes)
    (ms : Members) (f' : Flat) : Prop where
  took : TookOut total ctx s s' bytes f'
  fits : ms.fits maxDepth d = true
  scans : ctx.capture = true → ms.scans d = true

theorem took_reads (ctx : Ctx) {α : Type} {x : TapeM α} {p : P α} {s : State} {f : Flat}
    (h : Sim JsonFault x p s.tape f (Reads total s.tape)) :
    Sim JsonFault (onTape x) p s f fun a s' b f' => a = b ∧ Took total ctx s s' [] f' := by
  refine (sim_onTape h).mono ?_
  rintro a s' b f' ⟨t', rfl, hab, hrel, hstep⟩
  exact ⟨hab, hrel, by simpa using hstep⟩

theorem took_membersTail {d : Nat} {more : Option UInt8 → ScanM Unit} {r : P Members} {key : Str}
    {v : Value} {s : State} {f : Flat} (h : Rel total s.tape f) (hd : s.tape.depth = d)
    (hmore : ∀ (s : State) (f : Flat), Rel total s.tape f → s.tape.depth = d →
      SimUpTo JsonFault (fun ms => ms.scans d = false) (more f.rest.head?) r s f
        fun _ s' ms f' => TookMembers total ctx d s s' ms.compact ms f' ∧ ms ≠ .nil) :
    SimUpTo JsonFault (fun ms => ms.scans d = false) (membersTail ctx more) (memberEndP r key v) s f
      fun _ s' ms f' => ∃ rest, ms = .cons key v rest ∧
        TookMembers total ctx d s s' rest.tail rest f' := by
  refine Sim.bind_upTo (took_moves ctx (skipSpace_sim h)) fun _ s1 _ f1 _ h1 => ?_
  refine Sim.bind_upTo (took_reads ctx (take_sim h1.rel)) fun c s2 c' f2 _ h2 => ?_
  obtain ⟨rfl, h2⟩ := h2
  have h12 := h1.trans h2
  by_cases hc : c = chRBrace
  · rw [if_pos hc, if_pos hc]
    obtain ⟨s3, e3, h3⟩ := took_copy ctx h2.rel chRBrace
    obtain ⟨s4, e4, h4⟩ := took_leave ctx h3.rel
    refine SimUpTo.bind_left e3 (.of_some rfl (.inl ⟨_, s4, e4, .nil, rfl, ?_, rfl, fun _ => rfl⟩))
    have := (h12.trans h3).out h4
    rwa [List.append_nil] at this
  rw [if_neg hc, if_neg hc]
  by_cases hc' : c ≠ chComma
  · rw [if_pos hc', if_pos hc']
    exact .of_none rfl ⟨_, s2, rfl, rfl⟩
  rw [if_neg hc', if_neg hc']
  obtain ⟨s3, e3, h3⟩ := took_copy ctx h2.rel chComma
  refine SimUpTo.bind_left e3 ?_
  refine Sim.bind_upTo (took_moves ctx (skipSpace_sim h3.rel)) fun _ s4 _ f4 _ h4 => ?_
  obtain ⟨i, hx, hok, hrest, -⟩ := peek_ok h4.rel
  refine SimUpTo.bind_left (onTape_ok hx) ?_
  have h5 : Took total ctx s { s4 with tape := { s4.tape with input := i } } [chComma] f4 := by
    have h14 := (h12.trans h3).trans h4
    refine ⟨h4.rel.input hok hrest, ?_⟩
    simpa using h14.step.trans (step_input s4.tape i)
  refine SimUpTo.map_right (fun rest => .cons key v rest)
    (hmore _ f4 h5.rel (h5.step.depth.trans hd)) ?_ ?_ ?_
  · show (r f4).bind _ = _
    cases r f4 <;> rfl
  · intro rest hrest
    show (Members.cons key v rest).scans d = false
    rw [Members.scans, hrest, Bool.and_false]
  · rintro _ s' rest f' ⟨hq, hne⟩
    refine ⟨rest, rfl, ?_, hq.fits, hq.scans⟩
    cases rest with
    | nil => exact absurd rfl hne
    | cons key' v' rest => exact h5.out hq.took

/-- **The member loop.** -/
theorem took_objectMembers (hn : ∀ i < ctx.n, (ctx.term i).NumberOk) {m d : Nat}
    (hle : d + 1 ≤ maxDepth)
    (hv : ∀ (s : State) (f : Flat), Rel total s.tape f → s.tape.depth = d + 1 →
      Accepts total ctx (d + 1) (value ctx (m + 1)) (valueP (m + 1)) s f) :
    ∀ (fuel : Nat) (s : State) (f : Flat), Rel total s.tape f → s.tape.depth = d + 1 →
      SimUpTo JsonFault (fun ms => ms.scans (d + 1) = false)
        (objectMembers ctx (value ctx (m + 1)) (m + 1) d fuel f.rest.head?)
        (membersP (valueP (m + 1)) fuel) s f
        fun _ s' ms f' => TookMembers total ctx (d + 1) s s' ms.compact ms f' ∧ ms ≠ .nil := by
  intro fuel
  induction fuel with
  | zero =>
      intro s f _ _
      exact .of_none rfl ⟨_, s, rfl, rfl⟩
  | succ fuel ih =>
      intro s f h hd
      rw [membersP_succ]
      by_cases hq : f.rest.head? = some chQuote
      · -- a member, then what follows it
        have hstep : ∀ {x : ScanM Unit}, SimUpTo JsonFault (fun kv => kv.2.scans (d + 1) = false) x
            (memberP (valueP (m + 1))) s f
            (fun _ s' kv f' => TookMember total ctx (d + 1) s s' kv f') →
            SimUpTo JsonFault (fun ms => ms.scans (d + 1) = false)
              (x >>= fun _ => membersTail ctx
                (objectMembers ctx (value ctx (m + 1)) (m + 1) d fuel))
              (memberP (valueP (m + 1)) >>= fun kv =>
                memberEndP (membersP (valueP (m + 1)) fuel) kv.1 kv.2) s f
              fun _ s' ms f' => TookMembers total ctx (d + 1) s s' ms.compact ms f' ∧ ms ≠ .nil := by
          intro x hx
          refine hx.bind ?_ ?_
          · intro kv f' ms f2 _ hF hms
            obtain ⟨rest, rfl⟩ := memberEndP_some hms
            rw [Members.scans, hF, Bool.false_and]
          · intro _ s1 kv f1 _ h1
            refine (took_membersTail h1.took.rel (h1.took.step.depth.trans hd) ih).mono ?_
            rintro _ s2 ms f2 ⟨rest, rfl, h2⟩
            refine ⟨⟨?_, ?_, ?_⟩, fun hf => nomatch hf⟩
            · rw [Members.compact_cons]
              exact h1.took.out h2.took
            · rw [Members.fits, h1.fits, h2.fits]
              rfl
            · intro hc
              rw [Members.scans, h1.scans hc, h2.scans hc]
              rfl
        rw [objectMembers, if_neg (not_not.mpr hq)]
        refine SimUpTo.bind_left (a := s) rfl ?_
        by_cases hskip : (!ctx.capture && stopHitReady ctx s.hits &&
            decide (s.capturePathActive d = 0)) = true
        · rw [if_pos hskip]
          simp only [Bool.and_eq_true, Bool.not_eq_true'] at hskip
          have := hstep (took_skipMember hskip.1.1 h hd hle)
          simpa only [membersTail, copyByte_quiet hskip.1.1, pure_bind] using this
        · rw [if_neg hskip]
          exact hstep (took_objectMember hn h hd hle hv)
      · refine .of_none (bind_eq_none (bind_eq_none (stringP_none hq)))
          ⟨.json "JSON object key must be a string", s, ?_, rfl⟩
        rw [objectMembers, if_pos hq]
        rfl

/-! ## Objects -/

section Containers

variable {n d : Nat} {s : State} {f : Flat}

/-- A container is entered. -/
theorem took_enter (h : Rel total s.tape f) (hd : s.tape.depth < maxDepth) :
    onTape enter s = .ok () { s with tape := { s.tape with depth := s.tape.depth + 1 } } ∧
      Rel total { s.tape with depth := s.tape.depth + 1 } f :=
  ⟨onTape_ok (enter_ok h hd).1, (enter_ok h hd).2⟩

/-- From inside a container back to where it was entered. -/
theorem TookOut.took {s' : State} {bytes : Bytes} {f' : Flat}
    (h : TookOut total ctx { s with tape := { s.tape with depth := s.tape.depth + 1 } } s' bytes f') :
    Took total ctx s s' bytes f' := ⟨h.rel, h.step⟩

theorem took_peek (ctx : Ctx) (h : Rel total s.tape f) :
    ∃ s', onTape peek s = .ok f.rest.head? s' ∧ Took total ctx s s' [] f ∧
      s'.tape.input.buffer.head? = f.rest.head? := by
  obtain ⟨i, hx, hok, hrest, hhead⟩ := peek_ok h
  exact ⟨_, onTape_ok hx, ⟨h.input hok hrest, by simpa using step_input s.tape i⟩, hhead⟩

/-- An empty container is closed. -/
theorem took_close (ctx : Ctx) {c : UInt8} {rest : Bytes} (h : Rel total s.tape f)
    (hb : s.tape.input.buffer.head? = some c) (hf : f.rest = c :: rest) :
    ∃ s', (do onTape advance; onTape (copyByte ctx.capture c); onTape leave : ScanM Unit) s =
        .ok () s' ∧ TookOut total ctx s s' [c] { f with rest } := by
  obtain ⟨ha, h1⟩ := advance_ok h rfl hb hf
  have e1 := onTape_ok (s := s) ha
  have h2 : Took total ctx s { s with tape := { s.tape with input := s.tape.input.advance } } []
      { f with rest } := ⟨h1, by simpa using step_input s.tape _⟩
  obtain ⟨s3, e3, h3⟩ := took_copy ctx h2.rel c
  obtain ⟨s4, e4, h4⟩ := took_leave ctx h3.rel
  refine ⟨s4, ?_, ?_⟩
  · rw [bind_ok e1, bind_ok e3]
    exact e4
  · have := (h2.trans h3).out h4
    rwa [List.append_nil] at this

theorem onTape_error {x : TapeM Unit} {e : Err} {t : Tape} (h : x s.tape = .error e t) :
    onTape x s = .error e { s with tape := t } := by
  simp [onTape, h]

theorem accepts_object (hn : ∀ i < ctx.n, (ctx.term i).NumberOk) (h : Rel total s.tape f)
    (hd : s.tape.depth = d) (hle : d ≤ maxDepth)
    (hv : d < maxDepth → ∀ (s : State) (f : Flat), Rel total s.tape f → s.tape.depth = d + 1 →
      Accepts total ctx (d + 1) (value ctx n) (valueP n) s f) :
    Accepts total ctx d (object ctx (value ctx n) n) (objectP (valueP n) n) s f := by
  subst hd
  -- without fuel neither side gets to a member
  have hmembers : s.tape.depth < maxDepth → ∀ (s' : State) (f : Flat), Rel total s'.tape f →
      s'.tape.depth = s.tape.depth + 1 →
      SimUpTo JsonFault (fun ms => ms.scans (s.tape.depth + 1) = false)
        (objectMembers ctx (value ctx n) n s.tape.depth n f.rest.head?) (membersP (valueP n) n) s' f
        fun _ s2 ms f' => TookMembers total ctx (s.tape.depth + 1) s' s2 ms.compact ms f' ∧
          ms ≠ .nil := by
    intro hlt s' f h' hd'
    cases n with
    | zero => exact .of_none rfl ⟨_, s', rfl, rfl⟩
    | succ m => exact took_objectMembers hn hlt (hv hlt) (m + 1) s' f h' hd'
  refine SimUpTo.bind_left (a := s) rfl ?_
  by_cases hmax : s.tape.depth < maxDepth
  · obtain ⟨e1, h1⟩ := took_enter h hmax
    refine SimUpTo.bind_left e1 ?_
    refine Sim.bind_upTo (took_moves ctx (takeExpected_sim h1 chLBrace)) fun _ s2 _ f2 _ h2 => ?_
    obtain ⟨s3, e3, h3⟩ := took_copy ctx h2.rel chLBrace
    refine SimUpTo.bind_left e3 ?_
    refine Sim.bind_upTo (took_moves ctx (skipSpace_sim h3.rel)) fun _ s4 _ f4 _ h4 => ?_
    obtain ⟨s5, e5, h5, hb⟩ := took_peek ctx h4.rel
    refine SimUpTo.bind_left e5 (SimUpTo.bind_right
      (show peekP f4 = some (f4.rest.head?, f4) from rfl) ?_)
    have h15 := (((h2.trans h3).trans h4).trans h5)
    by_cases hc : f4.rest.head? = some chRBrace
    · rw [if_pos hc, if_pos hc]
      obtain ⟨rest, hr⟩ := head_eq_cons hc
      obtain ⟨s6, e6, h6⟩ := took_close ctx h5.rel (hb.trans hc) hr
      refine SimUpTo.bind_right (takeP_cons hr) (.of_some rfl (.inl ⟨_, s6, e6, ?_, ?_, ?_⟩))
      · exact (h15.out h6).took
      · simp [Value.fits, Members.fits, hmax]
      · simp [Value.scans, Members.scans, hmax]
    · rw [if_neg hc, if_neg hc]
      refine SimUpTo.map_right Value.obj (hmembers hmax s5 f4 h5.rel (h15.step.depth)) ?_ ?_ ?_
      · show (membersP (valueP n) n f4).bind _ = _
        cases membersP (valueP n) n f4 <;> rfl
      · intro ms hF
        show (Value.obj ms).scans s.tape.depth = false
        rw [Value.scans, hF, Bool.and_false]
      · rintro _ s' ms f' ⟨hq, -⟩
        refine ⟨(h15.out hq.took).took, ?_, ?_⟩
        · rw [Value.fits, hq.fits, decide_eq_true hmax]
          rfl
        · intro hcap
          rw [Value.scans, hq.scans hcap, decide_eq_true hmax]
          rfl
  · have hdeep : s.tape.depth = maxDepth := by omega
    refine .of_fails ⟨_, _, bind_error (onTape_error (enter_error hdeep)) _, rfl⟩ ?_
    intro v f' hv
    obtain ⟨ms, rfl⟩ := objectP_some hv
    rw [Value.scans, decide_eq_false hmax, Bool.false_and]

/-! ## Arrays -/

theorem elementMasks_tape (a : ArrayScan) (carry : Option UInt8) (element : Mask) (s : State) :
    (elementMasks ctx a carry element s).tape = s.tape := by
  rw [elementMasks]
  split
  · rw [carryRecursiveSegments_tape]
  · rfl

theorem enterElement_tape (ctx : Ctx) (a : ArrayScan) (index : Nat) (carry : Option UInt8)
    (s : State) : ∃ r s', enterElement ctx a index carry s = .ok r s' ∧ s'.tape = s.tape := by
  rw [enterElement_eq]
  refine ⟨_, _, rfl, ?_⟩
  show (elementMasks ctx a carry _ _).tape = s.tape
  rw [elementMasks_tape]
  show (preludeAnchor ctx _ _ _).1.tape = s.tape
  rw [preludeAnchor_tape, matchTerminalRecursiveTerms_tape]
  rfl

/-- The same run, counted from before a quiet step. -/
theorem Accepts.after {x : ScanM Unit} {p : P Value} {d : Nat} {s r : State} {f : Flat}
    (h : Accepts total ctx d x p r f) (ht : Took total ctx s r [] f) :
    SimUpTo JsonFault (fun v => v.scans d = false) x p r f
      fun _ s' v f' => TookValue total ctx d s s' v f' := by
  refine SimUpTo.mono h ?_
  intro _ s' v f' hq
  exact ⟨ht.trans hq.took, hq.fits, hq.scans⟩

theorem accepts_arrayElement (hn : ∀ i < ctx.n, (ctx.term i).NumberOk) {m : Nat}
    (h : Rel total s.tape f) (hd : s.tape.depth = d)
    (hv : ∀ (s : State) (f : Flat), Rel total s.tape f → s.tape.depth = d →
      Accepts total ctx d (value ctx (m + 1)) (valueP (m + 1)) s f)
    (a : ArrayScan) (index : Nat) (carry : Option UInt8) :
    Accepts total ctx d (arrayElement ctx (value ctx (m + 1)) a index carry) (valueP (m + 1)) s f := by
  obtain ⟨⟨element, values⟩, s1, e1, t1⟩ := enterElement_tape ctx a index carry s
  have h1 : Took total ctx s s1 [] f := .refl h t1
  refine SimUpTo.bind_left e1 (SimUpTo.bind_left (a := s1) rfl ?_)
  have hend : ∀ s' : State, ∃ s2 : State, (do
      recordCaptures ctx values (captureOffset values s1)
      modify fun s => setMasks s s.tape.depth 0 0 0 : ScanM Unit) s' = .ok () s2 ∧
      s2.tape = s'.tape := fun s' => ⟨_, rfl, rfl⟩
  -- the value, then the captures
  have hrest : ∀ {x : ScanM Unit} {r : State}, Took total ctx s r [] f →
      Accepts total ctx d x (valueP (m + 1)) r f →
      SimUpTo JsonFault (fun v => v.scans d = false) (x >>= fun _ => do
        recordCaptures ctx values (captureOffset values s1)
        modify fun s => setMasks s s.tape.depth 0 0 0) (valueP (m + 1)) r f
        fun _ s' v f' => TookValue total ctx d s s' v f' := by
    intro x r ht hx
    refine SimUpTo.congr (s := r) (t := f) (SimUpTo.bind (q := pure) (hx.after ht) ?_ ?_) rfl ?_
    · intro v _ v' _ _ hv hq
      cases hq
      exact hv
    · intro _ s' v f' _ hq
      obtain ⟨s2, e2, t2⟩ := hend s'
      exact .of_some rfl (.inl ⟨_, s2, e2, hq.took.congr rfl t2, hq.fits, hq.scans⟩)
    · show valueP (m + 1) f = (valueP (m + 1) f).bind _
      cases valueP (m + 1) f <;> rfl
  by_cases he : element ≠ 0
  · simp only [if_pos he]
    obtain ⟨s2, e2, h2, -⟩ := took_peek ctx h1.rel
    refine SimUpTo.bind_left e2 ?_
    have h12 := h1.trans h2
    refine hrest h12 (accepts_matchedScalarValue hn h2.rel ?_ element)
    intro r hr
    exact hv r f (hr ▸ h2.rel) (by rw [hr]; exact h12.step.depth.trans hd)
  · simp only [if_neg he]
    exact hrest h1 (hv s1 f h1.rel (h1.step.depth.trans hd))

/-- What `lql_json_array` does behind an element; `more` reads the next one. -/
def elementsTail (ctx : Ctx) (more : UInt8 → ScanM Unit) : ScanM Unit := do
  onTape skipSpace
  let c ← onTape take
  if c = chRBracket then
    onTape (copyByte ctx.capture chRBracket)
    onTape leave
  else if c ≠ chComma then jsonError "JSON array separator is missing"
  else
    onTape (copyByte ctx.capture chComma)
    onTape skipSpace
    more c

/-- The elements from here on have been read. -/
structure TookElements (total : Nat) (ctx : Ctx) (d : Nat) (s s' : State) (bytes : Bytes)
    (es : Elements) (f' : Flat) : Prop where
  took : TookOut total ctx s s' bytes f'
  fits : es.fits maxDepth d = true
  scans : ctx.capture = true → es.scans d = true

theorem took_elementsTail {more : UInt8 → ScanM Unit} {r : P Elements} {v : Value} (h : Rel total s.tape f)
    (hd : s.tape.depth = d)
    (hmore : ∀ (c : UInt8) (s : State) (f : Flat), Rel total s.tape f → s.tape.depth = d →
      SimUpTo JsonFault (fun es => es.scans d = false) (more c) r s f
        fun _ s' es f' => TookElements total ctx d s s' es.compact es f' ∧ es ≠ .nil) :
    SimUpTo JsonFault (fun es => es.scans d = false) (elementsTail ctx more) (elementEndP r v) s f
      fun _ s' es f' => ∃ rest, es = .cons v rest ∧
        TookElements total ctx d s s' rest.tail rest f' := by
  refine Sim.bind_upTo (took_moves ctx (skipSpace_sim h)) fun _ s1 _ f1 _ h1 => ?_
  refine Sim.bind_upTo (took_reads ctx (take_sim h1.rel)) fun c s2 c' f2 _ h2 => ?_
  obtain ⟨rfl, h2⟩ := h2
  have h12 := h1.trans h2
  by_cases hc : c = chRBracket
  · rw [if_pos hc, if_pos hc]
    obtain ⟨s3, e3, h3⟩ := took_copy ctx h2.rel chRBracket
    obtain ⟨s4, e4, h4⟩ := took_leave ctx h3.rel
    refine SimUpTo.bind_left e3 (.of_some rfl (.inl ⟨_, s4, e4, .nil, rfl, ?_, rfl, fun _ => rfl⟩))
    have := (h12.trans h3).out h4
    rwa [List.append_nil] at this
  rw [if_neg hc, if_neg hc]
  by_cases hc' : c ≠ chComma
  · rw [if_pos hc', if_pos hc']
    exact .of_none rfl ⟨_, s2, rfl, rfl⟩
  rw [if_neg hc', if_neg hc']
  obtain ⟨s3, e3, h3⟩ := took_copy ctx h2.rel chComma
  refine SimUpTo.bind_left e3 ?_
  refine Sim.bind_upTo (took_moves ctx (skipSpace_sim h3.rel)) fun _ s4 _ f4 _ h4 => ?_
  have h5 := (h12.trans h3).trans h4
  refine SimUpTo.map_right (fun rest => .cons v rest)
    (hmore c _ f4 h5.rel (h5.step.depth.trans hd)) ?_ ?_ ?_
  · show (r f4).bind _ = _
    cases r f4 <;> rfl
  · intro rest hrest
    show (Elements.cons v rest).scans d = false
    rw [Elements.scans, hrest, Bool.and_false]
  · rintro _ s' rest f' ⟨hq, hne⟩
    refine ⟨rest, rfl, ?_, hq.fits, hq.scans⟩
    cases rest with
    | nil => exact absurd rfl hne
    | cons v' rest => exact h5.out hq.took

/-- **The element loop.** -/
theorem took_arrayElements (hn : ∀ i < ctx.n, (ctx.term i).NumberOk) {m : Nat}
    (hv : ∀ (s : State) (f : Flat), Rel total s.tape f → s.tape.depth = d →
      Accepts total ctx d (value ctx (m + 1)) (valueP (m + 1)) s f) (a : ArrayScan) :
    ∀ (fuel index : Nat) (carry : Option UInt8) (s : State) (f : Flat), Rel total s.tape f →
      s.tape.depth = d →
      SimUpTo JsonFault (fun es => es.scans d = false)
        (arrayElements ctx (value ctx (m + 1)) a fuel index carry)
        (elementsP (valueP (m + 1)) fuel) s f
        fun _ s' es f' => TookElements total ctx d s s' es.compact es f' ∧ es ≠ .nil := by
  intro fuel
  induction fuel with
  | zero =>
      intro index carry s f _ _
      exact .of_none rfl ⟨_, s, rfl, rfl⟩
  | succ fuel ih =>
      intro index carry s f h hd
      refine SimUpTo.bind (accepts_arrayElement hn h hd hv a index carry) ?_ ?_
      · intro v f' es f2 _ hF hes
        obtain ⟨rest, rfl⟩ := elementEndP_some hes
        show (Elements.cons v rest).scans d = false
        rw [Elements.scans, hF, Bool.false_and]
      · intro _ s1 v f1 _ h1
        refine (took_elementsTail h1.took.rel (h1.took.step.depth.trans hd)
          (fun c => ih (index + 1) (some c))).mono ?_
        rintro _ s2 es f2 ⟨rest, rfl, h2⟩
        refine ⟨⟨?_, ?_, ?_⟩, fun hf => nomatch hf⟩
        · rw [Elements.compact_cons]
          exact h1.took.out h2.took
        · rw [Elements.fits, h1.fits, h2.fits]
          rfl
        · intro hc
          rw [Elements.scans, h1.scans hc, h2.scans hc]
          rfl

theorem elementsP_isNil {p : P Value} {n : Nat} {es : Elements} {f f' : Flat}
    (h : elementsP p n f = some (es, f')) : es.isNil = false := by
  cases n with
  | zero => cases h
  | succ n =>
      obtain ⟨v, f1, -, h⟩ := bind_eq_some.mp h
      obtain ⟨rest, rfl⟩ := elementEndP_some h
      rfl

theorem accepts_array (hn : ∀ i < ctx.n, (ctx.term i).NumberOk) (h : Rel total s.tape f)
    (hd : s.tape.depth = d) (hle : d ≤ maxDepth)
    (hv : d < maxDepth → ∀ (s : State) (f : Flat), Rel total s.tape f → s.tape.depth = d + 1 →
      Accepts total ctx (d + 1) (value ctx n) (valueP n) s f) :
    Accepts total ctx d (array ctx (value ctx n) n) (arrayP (valueP n) n) s f := by
  subst hd
  have helements : s.tape.depth < maxDepth → ∀ (a : ArrayScan) (carry : Option UInt8) (s' : State)
      (f : Flat), Rel total s'.tape f → s'.tape.depth = s.tape.depth + 1 →
      SimUpTo JsonFault (fun es => es.scans (s.tape.depth + 1) = false)
        (arrayElements ctx (value ctx n) a n 0 carry) (elementsP (valueP n) n) s' f
        fun _ s2 es f' => TookElements total ctx (s.tape.depth + 1) s' s2 es.compact es f' ∧
          es ≠ .nil := by
    intro hlt a carry s' f h' hd'
    cases n with
    | zero => exact .of_none rfl ⟨_, s', rfl, rfl⟩
    | succ m => exact took_arrayElements hn (hv hlt) a (m + 1) 0 carry s' f h' hd'
  refine SimUpTo.bind_left (a := s) rfl ?_
  by_cases hmax : s.tape.depth < maxDepth
  · rw [if_neg (Nat.ne_of_lt hmax)]
    obtain ⟨s1, e1, t1⟩ : ∃ s1 : State, (set (if s.tape.depth + 1 < maxDepth then
        { (matchRecursiveTerms ctx s (s.pathActive s.tape.depth) s.tape.depth).1 with
          pathActive := setAt (matchRecursiveTerms ctx s (s.pathActive s.tape.depth)
            s.tape.depth).1.pathActive (s.tape.depth + 1) 0
          capturePathActive := setAt (matchRecursiveTerms ctx s (s.pathActive s.tape.depth)
            s.tape.depth).1.capturePathActive (s.tape.depth + 1) 0 }
        else (matchRecursiveTerms ctx s (s.pathActive s.tape.depth) s.tape.depth).1) : ScanM PUnit) s =
        .ok ⟨⟩ s1 ∧ s1.tape = s.tape := by
      refine ⟨_, rfl, ?_⟩
      split <;> exact matchRecursiveTerms_tape s _ _
    refine SimUpTo.bind_left e1 ?_
    have hmax1 : s1.tape.depth < maxDepth := t1 ▸ hmax
    obtain ⟨e2, h2⟩ := took_enter (s := s1) (t1 ▸ h) hmax1
    refine SimUpTo.bind_left e2 ?_
    refine Sim.bind_upTo (took_moves ctx (takeExpected_sim h2 chLBracket)) fun _ s3 _ f3 _ h3 => ?_
    obtain ⟨s4, e4, h4⟩ := took_copy ctx h3.rel chLBracket
    refine SimUpTo.bind_left e4 ?_
    refine Sim.bind_upTo (took_moves ctx (skipSpace_sim h4.rel)) fun _ s5 _ f5 _ h5 => ?_
    obtain ⟨s6, e6, h6, hb⟩ := took_peek ctx h5.rel
    refine SimUpTo.bind_left e6 (SimUpTo.bind_right
      (show peekP f5 = some (f5.rest.head?, f5) from rfl) ?_)
    have h16 := ((h3.trans h4).trans h5).trans h6
    have hdepth : s6.tape.depth = s.tape.depth + 1 := by
      rw [h16.step.depth]
      exact congrArg (· + 1) (congrArg Tape.depth t1)
    by_cases hc : f5.rest.head? = some chRBracket
    · rw [if_pos hc, if_pos hc]
      obtain ⟨rest, hr⟩ := head_eq_cons hc
      obtain ⟨s7, e7, h7⟩ := took_close ctx h6.rel (hb.trans hc) hr
      refine SimUpTo.bind_right (takeP_cons hr) (.of_some rfl (.inl ⟨_, s7, e7, ?_, ?_, ?_⟩))
      · exact (h16.out h7).took.congr t1.symm rfl
      · simp [Value.fits, Elements.fits, hmax]
      · simp [Value.scans, Elements.scans, Elements.isNil, hmax]
    · rw [if_neg hc, if_neg hc]
      refine SimUpTo.bind_left (a := s6) rfl ?_
      by_cases hroom : s6.tape.depth ≥ maxDepth
      · rw [if_pos hroom]
        refine .of_fails ⟨_, _, rfl, rfl⟩ ?_
        intro v f' hv
        obtain ⟨es, f'', hes, hv⟩ := bind_eq_some.mp hv
        cases hv
        have hnil : es.isNil = false := elementsP_isNil hes
        rw [hdepth] at hroom
        rw [Value.scans, hnil, Bool.false_or, decide_eq_false (Nat.not_lt.mpr hroom), Bool.and_false,
          Bool.false_and]
      · rw [if_neg hroom]
        refine SimUpTo.map_right Value.arr (helements hmax _ _ s6 f5 h6.rel hdepth) ?_ ?_ ?_
        · show (elementsP (valueP n) n f5).bind _ = _
          cases elementsP (valueP n) n f5 <;> rfl
        · intro es hF
          show (Value.arr es).scans s.tape.depth = false
          rw [Value.scans, hF, Bool.and_false]
        · rintro _ s' es f' ⟨hq, -⟩
          refine ⟨(h16.out hq.took).took.congr t1.symm rfl, ?_, ?_⟩
          · rw [Value.fits, hq.fits, decide_eq_true hmax]
            rfl
          · intro hcap
            have hlt : s.tape.depth + 1 < maxDepth := by omega
            rw [Value.scans, hq.scans hcap, decide_eq_true hmax, decide_eq_true hlt, Bool.or_true]
            rfl
  · have hdeep : s.tape.depth = maxDepth := by omega
    rw [if_pos hdeep]
    refine .of_fails ⟨_, _, rfl, rfl⟩ ?_
    intro v f' hv
    obtain ⟨es, rfl⟩ := arrayP_some hv
    rw [Value.scans, decide_eq_false hmax, Bool.false_and, Bool.false_and]

end Containers

/-- **A scan reads a value as the parser does.** It fails where the parser does, it may fail where the
value lacks the one level an array needs, and otherwise it has read the value, copied it without its
spaces if it captures, and is back at its depth. -/
theorem value_accepts (hn : ∀ i < ctx.n, (ctx.term i).NumberOk) :
    ∀ (n d : Nat) (s : State) (f : Flat), Rel total s.tape f → s.tape.depth = d → d ≤ maxDepth →
      Accepts total ctx d (value ctx n) (valueP n) s f := by
  intro n
  induction n with
  | zero =>
      intro d s f _ _ _
      exact .of_none rfl ⟨_, s, rfl, rfl⟩
  | succ n ih =>
      intro d s f h hd hle
      have hv : d < maxDepth → ∀ (s : State) (f : Flat), Rel total s.tape f →
          s.tape.depth = d + 1 → Accepts total ctx (d + 1) (value ctx n) (valueP n) s f :=
        fun hlt s f h hd => ih (d + 1) s f h hd hlt
      obtain ⟨i, hx, h1⟩ := value_ok ctx h n
      suffices hgoal : ∀ s : State, Rel total s.tape f → s.tape.depth = d →
          Accepts total ctx d (scanOf ctx n f.rest.head?) (valueP (n + 1)) s f from
        (hgoal { s with tape := { s.tape with input := i } } h1 hd).peeked hx rfl
      intro s h hd
      by_cases c1 : f.rest.head? = some chLBrace
      · refine (accepts_object hn h hd hle hv).congr ?_ ?_ rfl
        · rw [c1]
          rfl
        · rw [valueP_eq, c1]
          rfl
      by_cases c2 : f.rest.head? = some chLBracket
      · refine (accepts_array hn h hd hle hv).congr ?_ ?_ rfl
        · rw [c2]
          rfl
        · rw [valueP_eq, c2]
          rfl
      by_cases c3 : f.rest.head? = some chQuote
      · rw [c3]
        exact accepts_string c3 (took_string h)
      by_cases c4 : f.rest.head? = some chT
      · rw [c4]
        exact accepts_literal .tt c4 (took_literal h _)
      by_cases c5 : f.rest.head? = some chF
      · rw [c5]
        exact accepts_literal .ff c5 (took_literal h _)
      by_cases c6 : f.rest.head? = some chN
      · rw [c6]
        exact accepts_literal .nul c6 (took_literal h _)
      have hc : ∀ c, f.rest.head? = some c → startsNumber c := by
        intro c hc
        rw [hc, Option.some.injEq] at c1 c2 c3 c4 c5 c6
        exact ⟨c1, c2, c3, c4, c5, c6⟩
      have hnum : scanOf ctx n f.rest.head? = number ctx := by
        cases hh : f.rest.head? with
        | none => rfl
        | some c =>
            obtain ⟨c1, c2, c3, c4, c5, c6⟩ := hc c hh
            simp only [scanOf, if_neg c1, if_neg c2, if_neg c3, if_neg c4, if_neg c5, if_neg c6]
      rw [hnum]
      refine accepts_number hc ((number_sim h).mono ?_)
      intro _ s' token f' ht
      exact ⟨ht.rel, ht.step⟩

end Lql.Scan
