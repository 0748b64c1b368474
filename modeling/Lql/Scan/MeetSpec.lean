import Lql.Scan.Descend

/-!
# Scalars under a path

A scalar that some terms have arrived at is read with the cursor or the number set up for
them; between values both are at rest. What the scan adds to its hits is what the walk does.
-/

namespace Lql.Scan

open Lib Json

variable {total : Nat} {ctx : Ctx}

/-- Between values nothing is being compared. -/
structure Idle (s : State) : Prop where
  active : s.m.active = 0
  key : s.m.key = false
  icontains : s.m.icontains = 0
  dates : s.m.temporalActive = 0
  number : s.num.active = 0

/-- The builder's promises about a term's literals. -/
structure Term.LiteralsOk (t : Term) : Prop where
  needle : t.NeedleOk
  number : t.NumberOk

/-- A scalar has been read, copied, and held against the terms of `here`. -/
structure Met (total : Nat) (ctx : Ctx) (here : Mask) (s s' : State) (v : Value) (f' : Flat) : Prop where
  rel : Rel total s'.tape f'
  step : Step s.tape s'.tape (emitted ctx v.compact)
  idle : Idle s'
  state : s' = { s with
    tape := s'.tape
    m := s'.m
    num := s'.num
    hits := s.hits ||| maskOf ctx.n fun i =>
      here.has i && (ctx.term i).holds (overflows ctx here s.num.cap v).1 v }
  cap : s'.num.cap = (overflows ctx here s.num.cap v).2

theorem cuttable_idle (hc : CtxRoom ctx) {s : State} (h : Idle s) : Cuttable ctx s.m := by
  refine ⟨hc.terms, hc.captures, ?_, fun hk => ?_⟩
  · rw [h.icontains, h.active]
    refine (Mask.eq_zero_iff.mpr fun i => ?_).symm
    rw [maskOf_has]
    simp
  · rw [h.key] at hk
    cases hk

/-- Reading a text between values leaves the cursor at rest. -/
theorem Idle.feed (hc : CtxRoom ctx) {s : State} (h : Idle s) {ps : Str} {m' : Match}
    (hf : Feed ctx s.m ps m') : Same s.m m' := by
  refine (hf.seen (cuttable_idle hc h) (q := []) ⟨.refl _, fun hne => absurd h.icontains hne,
    fun i _ ha => ?_⟩).same
  rw [h.active] at ha
  simp at ha

theorem Idle.same {s s' : State} (h : Idle s) (hm : Same s.m s'.m) (hn : s'.num.active = 0) : Idle s' :=
  ⟨hm.active.trans h.active, hm.key.trans h.key, hm.icontains.trans h.icontains,
    hm.temporalActive.trans h.dates, hn⟩

theorem number_rest : ∀ (token : Bytes) {num : Num}, num.active = 0 →
    token.foldl (numberRangeByte ctx) num = num
  | [], _, _ => rfl
  | c :: token, num, h => by
    have : numberRangeByte ctx num c = num := by rw [numberRangeByte, if_pos h]
    rw [List.foldl_cons, this]
    exact number_rest token h

theorem numberTerms_none : numberTerms ctx 0 = 0 := by
  refine Mask.eq_zero_iff.mpr fun i => ?_
  rw [numberTerms, maskOf_has]
  simp

theorem overflows_none (cap : Nat) (v : Value) : overflows ctx 0 cap v = (false, cap) := by
  cases v with
  | num token => rw [overflows, if_pos numberTerms_none]
  | obj _ => rfl
  | arr _ => rfl
  | str _ => rfl
  | lit _ => rfl

/-- Without terms nothing is added. -/
theorem hits_none (hits : Mask) (p : Nat → Bool) :
    hits ||| maskOf ctx.n (fun i => (0 : Mask).has i && p i) = hits := by
  refine Mask.ext fun i => ?_
  rw [Mask.has_or, maskOf_has]
  simp

/-- A scalar that no term looks at. -/
theorem Met.plain {s s' : State} {v : Value} {f' : Flat} (hidle : Idle s) (hrel : Rel total s'.tape f')
    (hstep : Step s.tape s'.tape (emitted ctx v.compact)) (hsame : Same s.m s'.m)
    (hnum : s'.num = s.num) (hstate : s' = { s with tape := s'.tape, m := s'.m }) :
    Met total ctx 0 s s' v f' := by
  refine ⟨hrel, hstep, hidle.same hsame (by rw [hnum]; exact hidle.number), ?_, ?_⟩
  · rw [hits_none, hnum]
    exact hstate
  · rw [overflows_none, hnum]

theorem string_met (hc : CtxRoom ctx) {s : State} {f : Flat} (h : Rel total s.tape f) (hidle : Idle s) :
    Sim JsonFault (string ctx) stringP s f fun _ s' str f' => Met total ctx 0 s s' (.str str) f' := by
  refine (string_sim _ h).mono ?_
  rintro _ s' str f' ⟨m', hfeed, hfed⟩
  have hsame := hidle.feed hc hfeed
  refine Met.plain hidle hfed.rel hfed.step (hfed.m ▸ hsame) (by rw [hfed.state]) ?_
  rw [hfed.state]

theorem Tokened.met (hc : CtxRoom ctx) {s s' : State} {token : Bytes} {f' : Flat} {v : Value}
    (h : Tokened total ctx s token s' f') (hidle : Idle s) (hascii : ∀ c ∈ token, c < 0x80)
    (hv : v.compact = token) : Met total ctx 0 s s' v f' := by
  have hnum : s'.num = s.num := by
    rw [h.state]
    exact number_rest token hidle.number
  refine Met.plain hidle h.rel (hv ▸ h.step) ?_ hnum ?_
  · rw [h.state]
    exact hidle.feed hc (Feed.token _ s.m token hascii)
  · rw [h.state, number_rest token hidle.number]

/-! ## With terms -/

/-- The cursor set up for a value. -/
theorem matchStart_ready (hc : CtxRoom ctx) (m : Match) (terms : Mask) :
    Cuttable ctx (matchStart ctx m terms false 0) ∧ Fresh ctx (matchStart ctx m terms false 0) := by
  refine ⟨⟨hc.terms, hc.captures, ?_, fun hk => nomatch hk⟩, rfl, rfl, rfl, fun i hi ha => ?_⟩
  · refine Mask.ext fun i => ?_
    simp [matchStart, cased, maskOf_has]
  · have ha' : terms.has i = true := ha
    simp [matchStart, updWhere, hi, ha']

/-- The terms that compare text have read the text. -/
theorem textual_hits (hc : CtxRoom ctx) (terms : Mask) {m m' : Match} {ps : Str}
    (hcut : Cuttable ctx m) (hfresh : Fresh ctx m) (hact : m.active = terms) (hk : m.key = false)
    (hf : Feed ctx m ps m') (hok : ∀ i < ctx.n, terms.has i = true → (ctx.term i).NeedleOk) :
    matchComplete ctx m' =
      maskOf ctx.n fun i => terms.has i && (ctx.term i).holdsText ps.text ps.lower := by
  have hseen := hfresh.seen hcut hf
  refine Mask.ext fun i => ?_
  rw [maskOf_has_le hc.terms]
  by_cases hi : i < ctx.n
  · cases ha : terms.has i with
    | false =>
      rw [matchComplete_inactive (by rw [hseen.same.active, hact]; exact ha)]
      simp
    | true =>
      rw [matchComplete_value hseen hcut hk hi (hact ▸ ha) (hok i hi ha)]
      simp [hi]
  · rw [matchComplete, maskOf_has]
    simp [hi]

/-- The cursor after a value, at rest again. -/
theorem Idle.rest {s : State} (hn : s.num.active = 0) (m : Match) :
    Idle { s with m := matchStart ctx (temporalRangeStart m 0) 0 false 0 } := by
  refine ⟨rfl, rfl, ?_, rfl, hn⟩
  refine Mask.eq_zero_iff.mpr fun i => ?_
  show (maskOf ctx.n _).has i = false
  rw [maskOf_has]
  simp

theorem temporal_hits (hc : CtxRoom ctx) (terms : Mask) (text : Bytes) :
    temporalHits ctx terms text =
      maskOf ctx.n fun i => terms.has i && (ctx.term i).holdsDate text := by
  refine Mask.ext fun i => ?_
  rw [maskOf_has_le hc.terms]
  unfold temporalHits Term.holdsDate
  by_cases hlen : text.length ≥ numberMatchBytes
  · rw [if_pos hlen, decide_eq_false (Nat.not_lt.mpr hlen)]
    simp
  · rw [if_neg hlen, decide_eq_true (Nat.not_le.mp hlen)]
    cases Temporal.parseTemporalLiteral text with
    | none => simp
    | some value =>
      dsimp only
      rw [maskOf_has_le hc.terms]
      rfl

/-- **A string, for the terms that have arrived at it.** -/
theorem matchedString_met (hc : CtxRoom ctx) {s : State} {f : Flat} (h : Rel total s.tape f)
    (hidle : Idle s) {here eqTerms temporalTerms : Mask}
    (hE : ∀ i < ctx.n, eqTerms.has i = (here.has i && (ctx.term i).kind.isString))
    (hT : ∀ i, temporalTerms.has i =
      (decide (i < ctx.n) && (here.has i && decide ((ctx.term i).kind = .temporalRange))))
    (hok : ∀ i < ctx.n, here.has i = true → (ctx.term i).LiteralsOk) :
    Sim JsonFault (matchedString ctx eqTerms temporalTerms) stringP s f
      fun _ s' str f' => Met total ctx here s s' (.str str) f' := by
  obtain ⟨hcut, hfresh⟩ := matchStart_ready hc s.m eqTerms
  have hcut' : Cuttable ctx (temporalRangeStart (matchStart ctx s.m eqTerms false 0) temporalTerms) :=
    ⟨hcut.terms, hcut.captures, hcut.icontains, hcut.cut⟩
  have hfresh' : Fresh ctx (temporalRangeStart (matchStart ctx s.m eqTerms false 0) temporalTerms) :=
    ⟨hfresh.failed, hfresh.contains, hfresh.caseNeed, hfresh.pos⟩
  refine Sim.bind_left (a := ()) rfl ?_
  refine Sim.bind (q := pure) (string_sim ctx (s := { s with
    m := temporalRangeStart (matchStart ctx s.m eqTerms false 0) temporalTerms }) h)
    (fun _ s2 str f2 _ hq => ?_) |>.congr rfl (by
      show stringP f = (stringP f).bind _
      cases stringP f <;> rfl)
  obtain ⟨m2, hfeed, hfed⟩ := hq
  refine Sim.bind_left (a := s2) rfl (Sim.bind_left (a := ()) rfl (Sim.of_some rfl rfl ?_))
  have htext := textual_hits hc eqTerms hcut' hfresh' rfl rfl hfeed fun i hi ha =>
    (hok i hi (by rw [hE i hi, Bool.and_eq_true] at ha; exact ha.1)).needle
  have hdate : temporalRangeComplete ctx m2 = temporalHits ctx temporalTerms str.text := by
    by_cases hz : temporalTerms = 0
    · have hsame := (hfresh'.seen hcut' hfeed).same
      have : m2.temporalActive = 0 := hsame.temporalActive.trans hz
      rw [temporalRangeComplete, if_pos (Or.inl this), hz]
      refine (Mask.eq_zero_iff.mpr fun i => ?_).symm
      rw [temporal_hits hc 0 str.text, maskOf_has]
      simp
    · exact temporalRangeComplete_value (hfeed.date (n := temporalRangeStart
        (matchStart ctx s.m eqTerms false 0) temporalTerms) (t := []) hcut' rfl hz
        ⟨rfl, fun _ => ⟨rfl, rfl⟩, fun hlen => absurd hlen (by decide)⟩)
  have hhits : matchComplete ctx s2.m ||| temporalRangeComplete ctx s2.m =
      maskOf ctx.n fun i => here.has i && (ctx.term i).holds false (.str str) := by
    rw [hfed.m, htext, hdate, temporal_hits hc]
    refine Mask.ext fun i => ?_
    rw [Mask.has_or, maskOf_has_le hc.terms, maskOf_has_le hc.terms, maskOf_has_le hc.terms]
    by_cases hi : i < ctx.n
    · rw [hE i hi, hT]
      simp only [hi, decide_true, Bool.true_and, Term.holds]
      cases here.has i <;> simp
    · simp [hi]
  refine ⟨hfed.rel, hfed.step, ?_, ?_, ?_⟩
  · exact Idle.rest (s := { s2 with hits := _ }) (by rw [hfed.state]; exact hidle.number) s2.m
  · dsimp only
    rw [hhits, hfed.state]
    rfl
  · dsimp only
    rw [hfed.state]
    rfl

theorem literal_ascii (l : Literal) : ∀ c ∈ l.text, c < 0x80 := by
  have hall : l.text.all (fun c => decide (c < 0x80)) = true := by cases l <;> rfl
  exact fun c hc => of_decide_eq_true (List.all_eq_true.mp hall c hc)

/-- **A literal, for the terms that have arrived at it.** `k` is the kind that wants its value,
and `b` says whether its text counts. -/
theorem matchedLiteral_met (hc : CtxRoom ctx) {s : State} {f : Flat} (h : Rel total s.tape f)
    (hidle : Idle s) {here scalarTerms textualTerms : Mask} {l : Literal} {k : TermKind} {b : Bool}
    (hholds : ∀ t : Term, t.holds false (.lit l) = ((decide (t.kind = k) && decide (t.value = l.text)) ||
      (b && t.kind.isTextual && t.holdsText l.text (plainStr l.text).lower)))
    (hS : ∀ i < ctx.n, scalarTerms.has i = (here.has i && decide ((ctx.term i).kind = k)))
    (hX : ∀ i < ctx.n, textualTerms.has i = (here.has i && (b && (ctx.term i).kind.isTextual)))
    (hok : ∀ i < ctx.n, here.has i = true → (ctx.term i).LiteralsOk) :
    Sim JsonFault (matchedLiteral ctx scalarTerms textualTerms l.text) (literalP l.text) s f
      fun _ s' _ f' => Met total ctx here s s' (.lit l) f' := by
  obtain ⟨hcut, hfresh⟩ := matchStart_ready hc s.m textualTerms
  refine Sim.bind_left (a := ()) rfl ?_
  refine Sim.bind (q := pure) (literal_sim ctx l.text [] { s with
    m := matchStart ctx s.m textualTerms false 0 } f (.start h))
    (fun _ s2 _ f2 _ hq => ?_) |>.congr rfl (by
      show literalP l.text f = (literalP l.text f).bind _
      cases literalP l.text f <;> rfl)
  rw [List.nil_append] at hq
  refine Sim.bind_left (a := s2) rfl (Sim.bind_left (a := ()) rfl (Sim.of_some rfl rfl ?_))
  have hnum : l.text.foldl (numberRangeByte ctx) s.num = s.num := number_rest _ hidle.number
  have hfeed := Feed.token ctx (matchStart ctx s.m textualTerms false 0) l.text (literal_ascii l)
  have htext := textual_hits hc textualTerms hcut hfresh rfl rfl hfeed fun i hi ha =>
    (hok i hi (by rw [hX i hi, Bool.and_eq_true] at ha; exact ha.1)).needle
  have hsame := (hfresh.seen hcut hfeed).same
  have hm : s2.m = l.text.foldl (matchGate ctx) (matchStart ctx s.m textualTerms false 0) := by
    rw [hq.state]
  have hhits : scalarLiteralHits ctx scalarTerms l.text ||| matchComplete ctx s2.m =
      maskOf ctx.n fun i => here.has i && (ctx.term i).holds false (.lit l) := by
    rw [hm, htext]
    refine Mask.ext fun i => ?_
    rw [Mask.has_or, scalarLiteralHits, termsWhere_has hc, maskOf_has_le hc.terms, maskOf_has_le hc.terms]
    by_cases hi : i < ctx.n
    · rw [hS i hi, hX i hi, text_plainStr, hholds]
      simp only [hi, decide_true, Bool.true_and]
      cases here.has i <;> simp
    · simp [hi]
  refine ⟨hq.rel, hq.step, ?_, ?_, ?_⟩
  · have hnum2 : s2.num = s.num := by
      rw [hq.state]
      exact hnum
    refine ⟨rfl, rfl, ?_, ?_, (congrArg Num.active hnum2).trans hidle.number⟩
    · refine Mask.eq_zero_iff.mpr fun i => ?_
      show (maskOf ctx.n _).has i = false
      rw [maskOf_has]
      simp
    · show s2.m.temporalActive = 0
      rw [hm]
      exact hsame.temporalActive.trans hidle.dates
  · dsimp only
    rw [hhits, hq.state, hnum]
    rfl
  · dsimp only
    rw [hq.state, hnum]
    rfl

theorem isDigit_ascii {c : UInt8} (h : isDigit c = true) : c < 0x80 := by
  simp only [isDigit, Bool.and_eq_true, decide_eq_true_eq] at h
  exact Nat.lt_of_le_of_lt h.2 (by decide)

theorem NumberParts.ascii {sign int fraction exponent : Bytes}
    (h : NumberParts sign int fraction exponent) :
    ∀ c ∈ sign ++ int ++ fraction ++ exponent, c < 0x80 := by
  have hdigits : ∀ {digits : Bytes}, (∀ d ∈ digits, isDigit d = true) → ∀ c ∈ digits, c < 0x80 :=
    fun hd c hc => isDigit_ascii (hd c hc)
  intro c hc
  simp only [List.mem_append] at hc
  rcases hc with ((hc | hc) | hc) | hc
  · rcases h.sign with rfl | rfl
    · cases hc
    · rw [List.mem_singleton.mp hc]; decide
  · rcases h.int with rfl | ⟨d, rest, rfl, hd, hrest⟩
    · rw [List.mem_singleton.mp hc]; decide
    · rcases List.mem_cons.mp hc with rfl | hc
      · exact isDigit_ascii (isDigit_of_isDigit19 hd)
      · exact hdigits hrest c hc
  · rcases h.fraction with rfl | ⟨digits, rfl, -, hd⟩
    · cases hc
    · rcases List.mem_cons.mp hc with rfl | hc
      · decide
      · exact hdigits hd c hc
  · rcases h.exponent with rfl | ⟨e, sg, digits, rfl, he, hsg, -, hd⟩
    · cases hc
    · rcases List.mem_cons.mp hc with rfl | hc
      · rcases he with rfl | rfl <;> decide
      rcases List.mem_append.mp hc with hc | hc
      · rcases hsg with rfl | rfl | rfl
        · cases hc
        · rw [List.mem_singleton.mp hc]; decide
        · rw [List.mem_singleton.mp hc]; decide
      · exact hdigits hd c hc

theorem numberP_ascii {f f' : Flat} {token : Bytes} (h : numberP f = some (token, f')) :
    ∀ c ∈ token, c < 0x80 := by
  obtain ⟨sign, int, fraction, exponent, rfl, hp⟩ := numberP_parts h
  exact hp.ascii

/-- The terms that compare the value of a number. -/
theorem numberTerms_eq (hc : CtxRoom ctx) {here rangeTerms eqTerms : Mask}
    (hR : ∀ i, rangeTerms.has i =
      (decide (i < ctx.n) && (here.has i && decide ((ctx.term i).kind = .numberRange))))
    (hE : ∀ i, eqTerms.has i =
      (decide (i < ctx.n) && (here.has i && decide ((ctx.term i).kind = .numberEq)))) :
    rangeTerms ||| eqTerms = numberTerms ctx here := by
  refine Mask.ext fun i => ?_
  rw [Mask.has_or, hR, hE, numberTerms, maskOf_has_le hc.terms]
  cases decide (i < ctx.n) <;> cases here.has i <;> rfl

/-- What the three comparisons of a number find together. -/
theorem number_hits (hc : CtxRoom ctx) {here textualTerms rangeTerms eqTerms : Mask} {excess : Bool}
    {token : Bytes}
    (hX : ∀ i < ctx.n, textualTerms.has i = (here.has i && (ctx.term i).kind.isTextual))
    (hR : ∀ i, rangeTerms.has i =
      (decide (i < ctx.n) && (here.has i && decide ((ctx.term i).kind = .numberRange))))
    (hE : ∀ i, eqTerms.has i =
      (decide (i < ctx.n) && (here.has i && decide ((ctx.term i).kind = .numberEq)))) (hits : Mask) :
    hits ||| (maskOf ctx.n fun i => textualTerms.has i &&
          (ctx.term i).holdsText token (plainStr token).lower) |||
        (maskOf ctx.n fun i => (rangeTerms ||| eqTerms).has i &&
          decide ((ctx.term i).kind = .numberRange) && (ctx.term i).numInRange excess token) |||
        (maskOf ctx.n fun i => eqTerms.has i && decide ((ctx.term i).kind = .numberEq) &&
          (ctx.term i).numEqual excess token) =
      hits ||| maskOf ctx.n fun i => here.has i && (ctx.term i).holds excess (.num token) := by
  refine Mask.ext fun i => ?_
  simp only [Mask.has_or, maskOf_has_le hc.terms]
  by_cases hi : i < ctx.n
  · rw [hX i hi, hR, hE]
    simp only [hi, decide_true, Bool.true_and, Term.holds]
    cases here.has i with
    | false => simp
    | true =>
      by_cases h1 : (ctx.term i).kind = .numberRange
      · simp [h1, TermKind.isTextual]
      · by_cases h2 : (ctx.term i).kind = .numberEq
        · simp [h2, TermKind.isTextual]
        · simp [h1, h2]
  · simp [hi]

/-- **A number, for the terms that have arrived at it.** -/
theorem matchedNumber_met (hc : CtxRoom ctx) {s : State} {f : Flat} (h : Rel total s.tape f)
    (hidle : Idle s) {value : ScanM Unit}
    (hv : ∀ s, Rel total s.tape f → Sim JsonFault value numberP s f
      fun _ s' token f' => Tokened total ctx s token s' f')
    {here textualTerms rangeTerms eqTerms : Mask}
    (hX : ∀ i < ctx.n, textualTerms.has i = (here.has i && (ctx.term i).kind.isTextual))
    (hR : ∀ i, rangeTerms.has i =
      (decide (i < ctx.n) && (here.has i && decide ((ctx.term i).kind = .numberRange))))
    (hE : ∀ i, eqTerms.has i =
      (decide (i < ctx.n) && (here.has i && decide ((ctx.term i).kind = .numberEq))))
    (hok : ∀ i < ctx.n, here.has i = true → (ctx.term i).LiteralsOk) :
    Sim JsonFault (matchedNumber ctx value textualTerms rangeTerms eqTerms) numberP s f
      fun _ s' token f' => Met total ctx here s s' (.num token) f' := by
  obtain ⟨hcut, hfresh⟩ := matchStart_ready hc s.m textualTerms
  have hactive := numberTerms_eq hc hR hE
  refine Sim.bind_left (a := ()) rfl (Sim.bind_left (a := ()) rfl ?_)
  refine Sim.bind (q := pure) (hv { s with
    m := matchStart ctx s.m textualTerms false 0
    num := numberRangeStart ctx s.num (rangeTerms ||| eqTerms) } h)
    (fun _ s2 token f2 hnum hq => ?_) |>.congr rfl (by
      show numberP f = (numberP f).bind _
      cases numberP f <;> rfl)
  have hjson := numberP_isJson hnum
  have hfeed := Feed.token ctx (matchStart ctx s.m textualTerms false 0) token
    (numberP_ascii hnum)
  have htext := textual_hits hc textualTerms hcut hfresh rfl rfl hfeed fun i hi ha =>
    (hok i hi (by rw [hX i hi, Bool.and_eq_true] at ha; exact ha.1)).needle
  rw [text_plainStr] at htext
  have hsame := (hfresh.seen hcut hfeed).same
  have hm : s2.m = token.foldl (matchGate ctx) (matchStart ctx s.m textualTerms false 0) := by
    rw [hq.state]
  have hn : s2.num = token.foldl (numberRangeByte ctx)
      (numberRangeStart ctx s.num (rangeTerms ||| eqTerms)) := by rw [hq.state]
  -- the two comparisons succeed, with the size of the buffer that the walk foresees
  obtain ⟨hrange, heq, hcap⟩ : numberRangeComplete ctx s2.num = .ok (maskOf ctx.n fun i =>
        (rangeTerms ||| eqTerms).has i && decide ((ctx.term i).kind = .numberRange) &&
          (ctx.term i).numInRange (overflows ctx here s.num.cap (.num token)).1 token) ∧
      numberEqComplete ctx s2.num eqTerms = .ok (maskOf ctx.n fun i =>
        eqTerms.has i && decide ((ctx.term i).kind = .numberEq) &&
          (ctx.term i).numEqual (overflows ctx here s.num.cap (.num token)).1 token) ∧
      s2.num.cap = (overflows ctx here s.num.cap (.num token)).2 := by
    by_cases hz : rangeTerms ||| eqTerms = 0
    · have hrest : s2.num = numberRangeStart ctx s.num 0 := by
        rw [hn, hz]
        exact number_rest token rfl
      have heq0 : eqTerms = 0 := by
        refine Mask.eq_zero_iff.mpr fun i => ?_
        have := Mask.eq_zero_iff.mp hz i
        rw [Mask.has_or, Bool.or_eq_false_iff] at this
        exact this.2
      rw [overflows, if_pos (hactive ▸ hz), hrest]
      refine ⟨?_, ?_, rfl⟩
      · rw [numberRangeComplete, hz,
          if_pos (show (numberRangeStart ctx s.num 0).active = 0 from rfl)]
        refine congrArg Except.ok (Mask.eq_zero_iff.mpr fun i => ?_).symm
        rw [maskOf_has]
        simp
      · rw [numberEqComplete, if_pos heq0, heq0]
        refine congrArg Except.ok (Mask.eq_zero_iff.mpr fun i => ?_).symm
        rw [maskOf_has]
        simp
    · have hrun := (Holds.start ctx hz s.num).run hz token
      rw [List.nil_append, List.length_nil, ← hn] at hrun
      have hover : overflows ctx here s.num.cap (.num token) =
          growTo (numberLimit ctx (rangeTerms ||| eqTerms)) token.length 0 s.num.cap := by
        rw [overflows, ← hactive, if_neg hz]
      rw [hover]
      refine ⟨hrun.rangeComplete hz hjson fun i hi ha => ?_, hrun.eqComplete hjson (fun i ha => ?_)
        fun i hi ha => ?_, hrun.cap⟩
      · rw [Mask.has_or, hR, hE, decide_eq_true hi] at ha
        refine (hok i hi ?_).number
        cases hh : here.has i with
        | true => rfl
        | false => rw [hh] at ha; simp at ha
      · rw [Mask.has_or, ha, Bool.or_true]
      · rw [hE, decide_eq_true hi, Bool.true_and, Bool.and_eq_true] at ha
        exact (hok i hi ha.1).number
  refine Sim.bind_left (a := s2) rfl (Sim.bind_left (a := ()) rfl ?_)
  rw [hrange]
  refine Sim.bind_left (a := ()) rfl ?_
  rw [heq]
  refine Sim.bind_left (a := ()) rfl (Sim.bind_left (a := ()) rfl (Sim.of_some rfl rfl ?_))
  refine ⟨hq.rel, hq.step, ⟨rfl, rfl, ?_, ?_, rfl⟩, ?_, hcap⟩
  · refine Mask.eq_zero_iff.mpr fun i => ?_
    show (maskOf ctx.n _).has i = false
    rw [maskOf_has]
    simp
  · show s2.m.temporalActive = 0
    rw [hm]
    exact hsame.temporalActive.trans hidle.dates
  · have hhits : s2.hits = s.hits := by rw [hq.state]
    dsimp only
    rw [hhits, hm, htext, number_hits hc hX hR hE, hq.state]

end Lql.Scan
