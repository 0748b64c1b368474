import Lql.Scan.Runs

/-!
# A text and its cuts

What the string cursor knows after a text depends on the text alone: however its pieces
were handed over, a term stands where a reading byte by byte would leave it. The answers at
the end of a key or a value are then questions about the whole text.
-/

namespace Lql.Scan

open Lib Json

variable {ctx : Ctx}

/-- What holds of the terms once a text has been read up to the pieces `ps`. -/
structure Seen (ctx : Ctx) (m0 : Match) (ps : Str) (m : Match) : Prop where
  same : Same m0 m
  whole : m0.icontains ≠ 0 → m.caseNeed = 0
  terms : ∀ i < ctx.n, m0.active.has i = true →
    Agree (m.cursor i) (feedBytes (textStep ctx m0 i) (heard ctx m0 i ps) { pos := 0 })

theorem isPlain_ascii {c : UInt8} (h : isPlain c = true) : c < 0x80 := by
  simp only [isPlain, Bool.and_eq_true, decide_eq_true_eq] at h
  tauto

/-- One more code point. -/
theorem Seen.coded {m0 m : Match} {ps : Str} (hcut : Cuttable ctx m0) (h : Seen ctx m0 ps m)
    (raw text : Bytes) (hw : Whole text) :
    Seen ctx m0 (ps ++ [.coded raw text]) (text.foldl (matchByte ctx) m) := by
  have hs := fold_same ctx text m
  obtain ⟨c, rest, rfl⟩ : ∃ c rest, text = c :: rest := by
    cases text with
    | nil => exact absurd hw.symm (caseNeedOf_pos _)
    | cons c rest => exact ⟨c, rest, rfl⟩
  have hcase : m0.icontains ≠ 0 → ∀ i < ctx.n, m.active.has i = true → cased ctx m i = true →
      _ := fun hic i hi ha hc =>
    cursor_fold_cased hcut.terms hi (c :: rest) m ha hc (by rw [h.same.icontains]; exact hic)
      ⟨c, rest, rfl, by
        rw [Match.casePending, Match.caseTotal, h.whole hic, if_pos rfl, if_pos rfl]
        exact hw⟩
  refine ⟨h.same.trans hs, fun hic => ?_, fun i hi ha => ?_⟩
  · -- some active term is lowered, and it has seen the last byte
    obtain ⟨i, hi⟩ := Mask.ne_zero_iff.mp hic
    rw [hcut.icontains, maskOf_has_le hcut.terms] at hi
    simp only [Bool.and_eq_true, decide_eq_true_eq] at hi
    exact (hcase hic i hi.1 (by rw [h.same.active]; exact hi.2.1)
      (by rw [cased_same h.same]; exact hi.2.2)).2
  · have ha' : m.active.has i = true := by rw [h.same.active]; exact ha
    rw [heard_append, feedBytes_append]
    cases hc : cased ctx m0 i with
    | true =>
      have hic : m0.icontains ≠ 0 := Mask.ne_zero_iff.mpr ⟨i, by
        rw [hcut.icontains_has hi ha]; exact hc⟩
      obtain ⟨e, -⟩ := hcase hic i hi ha' (by rw [cased_same h.same]; exact hc)
      rw [e, Match.casePending, h.whole hic, if_pos rfl, List.nil_append]
      have hheard : heard ctx m0 i [.coded raw (c :: rest)] = lowerBytes (c :: rest) := by
        simp [heard, hc, Str.lower, Piece.text]
      rw [hheard, textStep, hc, if_pos rfl]
      have := h.terms i hi ha
      rw [textStep, hc, if_pos rfl] at this
      exact this.feed _ _
    | false =>
      have hheard : heard ctx m0 i [.coded raw (c :: rest)] = c :: rest := by
        simp [heard, hc, Str.text, Piece.text]
      have hfold := cursor_fold hcut.terms hi (c :: rest) m ha' (by rw [cased_same h.same]; exact hc)
      rw [cursorStep_same h.same] at hfold
      have := h.terms i hi ha
      rw [textStep, hc, if_neg (by simp)] at this
      rw [hheard, textStep, hc, if_neg (by simp)]
      exact hfold.trans (this.feed _ _)

/-- When nothing can match any more, what follows is not looked at. -/
theorem Seen.dead {m0 m : Match} {ps : Str} (h : Seen ctx m0 ps m) (hlive : matchLive m = false)
    (qs : Str) : Seen ctx m0 (ps ++ qs) m := by
  refine ⟨h.same, h.whole, fun i hi ha => ?_⟩
  rw [heard_append, feedBytes_append]
  refine (h.terms i hi ha).frozen ?_ _ _
  simp only [matchLive, Bool.or_eq_false_iff, decide_eq_false_iff_not, not_not] at hlive
  have hz := Mask.eq_zero_iff.mp hlive.1.1 i
  rw [Mask.has_and_not, h.same.active, ha] at hz
  show m.failed.has i = true
  simpa using hz

/-- One more run of plain bytes. -/
theorem Seen.span {m0 m : Match} {ps : Str} (hcut : Cuttable ctx m0) (h : Seen ctx m0 ps m)
    (data : Bytes) (hplain : ∀ c ∈ data, isPlain c = true) :
    Seen ctx m0 (ps ++ plainStr data) (matchSpan ctx m data) := by
  by_cases hdata : data = []
  · subst hdata
    rw [matchSpan, if_pos rfl, plainStr, List.map_nil, List.append_nil]
    exact h
  have hcut' := hcut.same h.same
  cases hk : m.key with
  | true =>
    obtain ⟨hs, hterms, -⟩ := matchSpan_key hcut' hk hdata
    have hic : m0.icontains = 0 := hcut.icontains_key (by rw [← h.same.key]; exact hk)
    refine ⟨h.same.trans hs, fun hn => absurd hic hn, fun i hi ha => ?_⟩
    have hc : cased ctx m0 i = false := by
      rw [← cased_same h.same, cased, hk]
      rfl
    have ht := hterms i hi (by rw [h.same.active]; exact ha)
    rw [cursorStep_same h.same] at ht
    have hold := h.terms i hi ha
    rw [textStep, heard, hc, if_neg (by simp), if_neg (by simp)] at hold ⊢
    rw [text_append, text_plainStr, feedBytes_append]
    exact ht.trans (hold.feed _ _)
  | false =>
    obtain ⟨hs, hterms, hneed, -, -⟩ := matchSpan_value hcut' hk hdata
      fun c hc => isPlain_ascii (hplain c hc)
    refine ⟨h.same.trans hs, fun hn => hneed.trans (h.whole hn), fun i hi ha => ?_⟩
    have ht := hterms i hi (by rw [h.same.active]; exact ha)
    have e1 : textStep ctx m i = textStep ctx m0 i := by
      rw [textStep, textStep, cased_same h.same, cursorStep_same h.same]
    have e2 : heard ctx m i (plainStr data) = heard ctx m0 i (plainStr data) := by
      rw [heard, heard, cased_same h.same]
    rw [e1, e2] at ht
    rw [heard_append, feedBytes_append]
    exact ht.trans ((h.terms i hi ha).feed _ _)

/-- **However a text is cut, every term has read it.** -/
theorem Feed.seen {m m' : Match} {ps : Str} (hf : Feed ctx m ps m') :
    ∀ {m0 : Match} {q : Str}, Cuttable ctx m0 → Seen ctx m0 q m → Seen ctx m0 (q ++ ps) m' := by
  induction hf with
  | nil m =>
    intro m0 qs _ h
    rw [List.append_nil]
    exact h
  | @span m m' ps data plain _ ih =>
    intro m0 qs hcut h
    rw [← List.append_assoc]
    refine ih hcut ?_
    cases hlive : matchLive m with
    | true =>
      rw [if_pos rfl]
      exact h.span hcut data plain
    | false =>
      rw [if_neg (by simp)]
      exact h.dead hlive _
  | @byte m m' ps c ascii _ ih =>
    intro m0 qs hcut h
    rw [← List.append_assoc]
    refine ih hcut ?_
    unfold matchGate
    cases hlive : matchLive m with
    | true =>
      rw [if_pos rfl]
      have := h.coded hcut [c] [c] (whole_ascii ascii)
      refine ⟨this.same, this.whole, fun i hi ha => ?_⟩
      have hheard : heard ctx m0 i (qs ++ plainStr [c]) = heard ctx m0 i (qs ++ [.coded [c] [c]]) := by
        rw [heard_append, heard_append]
        rfl
      rw [hheard]
      exact this.terms i hi ha
    | false =>
      rw [if_neg (by simp)]
      exact h.dead hlive _
  | @coded m m' ps raw text whole _ ih =>
    intro m0 qs hcut h
    rw [List.append_cons]
    exact ih hcut (h.coded hcut raw text whole)

/-- The cursor before the first byte of a text. -/
structure Fresh (ctx : Ctx) (m : Match) : Prop where
  failed : m.failed = 0
  contains : m.contains = 0
  caseNeed : m.caseNeed = 0
  pos : ∀ i < ctx.n, m.active.has i = true → m.pos i = 0

theorem Fresh.seen {m m' : Match} {ps : Str} (h : Fresh ctx m) (hcut : Cuttable ctx m)
    (hf : Feed ctx m ps m') : Seen ctx m ps m' := by
  refine hf.seen hcut (q := []) ⟨.refl m, fun _ => h.caseNeed, fun i hi ha => ?_⟩
  have : m.cursor i = { pos := 0 } := by
    simp [Match.cursor, h.failed, h.contains, h.pos i hi ha]
  have hnil : heard ctx m i [] = [] := by
    unfold heard
    split <;> rfl
  rw [this, hnil]
  exact .refl _

/-! ## Captures -/

theorem captureCursor_matchByte (hn : ctx.captureKeys.length ≤ 64) (m : Match) (c : UInt8) {i : Nat}
    (hi : i < ctx.captureKeys.length) (ha : m.captureActive.has i = true) :
    (matchByte ctx m c).captureCursor i =
      if m.captureFailed.has i then m.captureCursor i
      else feedBytes (captureStep ctx m i) [c] (m.captureCursor i) := by
  have hact : m.captureActive ≠ 0 := Mask.ne_zero_iff.mpr ⟨i, ha⟩
  rw [matchByte_eq (Or.inr hact)]
  have ht : ∃ failed text, temporalRangeByte m c =
      { m with temporalFailed := failed, temporalMatch := text } := by
    unfold temporalRangeByte
    split
    · exact ⟨_, _, rfl⟩
    split <;> exact ⟨_, _, rfl⟩
  obtain ⟨failed, text, e⟩ := ht
  -- the other two loops do not touch the captures
  have hloops : ∀ m : Match, m.captureActive ≠ 0 →
      (byteLoops ctx m c).captureCursor i = (captureByte ctx m c).captureCursor i := by
    intro m hact
    have h1 : ∃ pos failed contains, (if m.active ≠ 0 then matchByteTerms ctx m c else m) =
        { m with pos := pos, failed := failed, contains := contains } := by
      split <;> exact ⟨_, _, _, rfl⟩
    obtain ⟨pos, failed, contains, e⟩ := h1
    unfold byteLoops
    rw [e]
    dsimp only
    rw [if_pos hact]
    split
    · rw [matchIcontainsByte_eq]
      split <;> rfl
    · rfl
  rw [e]
  refine (hloops _ ?_).trans (captureByte_cursor hn _ c hi ha)
  exact hact

/-- What holds of the captures once a key has been read up to `ps`. -/
structure SeenCaptures (ctx : Ctx) (m0 : Match) (ps : Str) (m : Match) : Prop where
  same : Same m0 m
  captures : ∀ i < ctx.captureKeys.length, m0.captureActive.has i = true →
    Agree (m.captureCursor i) (feedBytes (captureStep ctx m0 i) ps.text { pos := 0 })

theorem SeenCaptures.fold {m0 : Match} (hn : ctx.captureKeys.length ≤ 64) :
    ∀ (text : Bytes) {ps : Str} {m : Match}, SeenCaptures ctx m0 ps m →
      ∀ {qs : Str}, qs.text = text → SeenCaptures ctx m0 (ps ++ qs) (text.foldl (matchByte ctx) m)
  | [], ps, m, h, qs, hq => by
    refine ⟨h.same, fun i hi ha => ?_⟩
    rw [text_append, hq, List.append_nil]
    exact h.captures i hi ha
  | c :: text, ps, m, h, qs, hq => by
    have hs := matchByte_same ctx m c
    have h1 : SeenCaptures ctx m0 (ps ++ plainStr [c]) (matchByte ctx m c) := by
      refine ⟨h.same.trans hs, fun i hi ha => ?_⟩
      have hold := h.captures i hi ha
      rw [captureCursor_matchByte hn m c hi (by rw [h.same.captureActive]; exact ha),
        captureStep_same h.same, text_append, text_plainStr, feedBytes_append]
      split
      · next hf => exact hold.frozen hf _ _
      · exact hold.feed _ _
    have h2 := SeenCaptures.fold hn text h1 (text_plainStr text)
    refine ⟨h2.same, fun i hi ha => ?_⟩
    have := h2.captures i hi ha
    rw [text_append, text_append, text_plainStr, text_plainStr, List.append_assoc] at this
    rw [text_append, hq]
    exact this

theorem SeenCaptures.dead {m0 m : Match} {ps : Str} (h : SeenCaptures ctx m0 ps m)
    (hlive : matchLive m = false) (qs : Str) : SeenCaptures ctx m0 (ps ++ qs) m := by
  refine ⟨h.same, fun i hi ha => ?_⟩
  rw [text_append, feedBytes_append]
  refine (h.captures i hi ha).frozen ?_ _ _
  simp only [matchLive, Bool.or_eq_false_iff, decide_eq_false_iff_not, not_not] at hlive
  have hz := Mask.eq_zero_iff.mp hlive.1.2 i
  rw [Mask.has_and_not, h.same.captureActive, ha] at hz
  show m.captureFailed.has i = true
  simpa using hz

/-- **However a key is cut, every capture has read it.** -/
theorem Feed.captures {m m' : Match} {ps : Str} (hf : Feed ctx m ps m') :
    ∀ {m0 : Match} {q : Str}, Cuttable ctx m0 → m0.key = true → SeenCaptures ctx m0 q m →
      SeenCaptures ctx m0 (q ++ ps) m' := by
  induction hf with
  | nil m =>
    intro m0 qs _ _ h
    rw [List.append_nil]
    exact h
  | @span m m' ps data plain _ ih =>
    intro m0 qs hcut hk h
    rw [← List.append_assoc]
    refine ih hcut hk ?_
    cases hlive : matchLive m with
    | false =>
      rw [if_neg (by simp)]
      exact h.dead hlive _
    | true =>
      rw [if_pos rfl]
      by_cases hdata : data = []
      · subst hdata
        rw [matchSpan, if_pos rfl, plainStr, List.map_nil, List.append_nil]
        exact h
      obtain ⟨hs, -, hcap⟩ := matchSpan_key (hcut.same h.same) (by rw [h.same.key]; exact hk) hdata
      refine ⟨h.same.trans hs, fun i hi ha => ?_⟩
      have := hcap i hi (by rw [h.same.captureActive]; exact ha)
      rw [captureStep_same h.same] at this
      rw [text_append, text_plainStr, feedBytes_append]
      exact this.trans ((h.captures i hi ha).feed _ _)
  | @byte m m' ps c ascii _ ih =>
    intro m0 qs hcut hk h
    rw [← List.append_assoc]
    refine ih hcut hk ?_
    unfold matchGate
    cases hlive : matchLive m with
    | false =>
      rw [if_neg (by simp)]
      exact h.dead hlive _
    | true =>
      rw [if_pos rfl]
      exact h.fold hcut.captures [c] (text_plainStr [c])
  | @coded m m' ps raw text whole _ ih =>
    intro m0 qs hcut hk h
    rw [List.append_cons]
    exact ih hcut hk (h.fold hcut.captures text (by simp [Str.text, Piece.text]))

/-- The same from the first byte of a key on. -/
theorem Feed.captures_start {m m' : Match} {ps : Str} (hf : Feed ctx m ps m') (hcut : Cuttable ctx m)
    (hk : m.key = true) (hfail : m.captureFailed = 0)
    (hpos : ∀ i < ctx.captureKeys.length, m.captureActive.has i = true → m.capturePos i = 0) :
    SeenCaptures ctx m ps m' := by
  refine hf.captures hcut hk (q := []) ⟨.refl m, fun i hi ha => ?_⟩
  have : m.captureCursor i = { pos := 0 } := by
    simp [Match.captureCursor, hfail, hpos i hi ha]
  rw [this]
  exact .refl _

/-! ## Dates -/

/-- What holds of the collected date once a value has been read up to `text`: it is the text,
unless that is too long for the buffer. -/
structure SeenDate (m0 : Match) (text : Bytes) (m : Match) : Prop where
  active : m.temporalActive = m0.temporalActive
  short : text.length < numberMatchBytes → m.temporalMatch = text ∧ m.temporalFailed = 0
  long : numberMatchBytes ≤ text.length → ∀ i, m0.temporalActive.has i = true →
    m.temporalFailed.has i = true

theorem temporal_matchByte (ctx : Ctx) (m : Match) (c : UInt8) :
    (matchByte ctx m c).temporalFailed = (temporalRangeByte m c).temporalFailed ∧
      (matchByte ctx m c).temporalMatch = (temporalRangeByte m c).temporalMatch := by
  by_cases h : m.active ≠ 0 ∨ m.captureActive ≠ 0
  · rw [matchByte_eq h]
    generalize temporalRangeByte m c = m1
    have h1 : ∃ pos failed contains, (if m1.active ≠ 0 then matchByteTerms ctx m1 c else m1) =
        { m1 with pos := pos, failed := failed, contains := contains } := by
      split <;> exact ⟨_, _, _, rfl⟩
    obtain ⟨pos, failed, contains, e1⟩ := h1
    have h2 : ∀ m2 : Match, ∃ pos failed, (if m2.captureActive ≠ 0 then captureByte ctx m2 c else m2) =
        { m2 with capturePos := pos, captureFailed := failed } := by
      intro m2
      split <;> exact ⟨_, _, rfl⟩
    unfold byteLoops
    rw [e1]
    dsimp only
    obtain ⟨cpos, cfailed, e2⟩ := h2 { m1 with pos := pos, failed := failed, contains := contains }
    dsimp only at e2
    rw [e2]
    split
    · rw [matchIcontainsByte_eq]
      split <;> exact ⟨rfl, rfl⟩
    · exact ⟨rfl, rfl⟩
  · have h0 : m.active = 0 ∧ m.captureActive = 0 := by tauto
    have hs := temporalRangeByte_same m c
    rw [matchByte]
    split
    · next hidle =>
      rw [temporalRangeByte, if_pos hidle.2.2]
      exact ⟨rfl, rfl⟩
    · dsimp only
      rw [if_pos ⟨hs.active.trans h0.1, hs.captureActive.trans h0.2⟩]
      exact ⟨rfl, rfl⟩

theorem SeenDate.byte {m0 m : Match} {text : Bytes} (h : SeenDate m0 text m)
    (hact : m0.temporalActive ≠ 0) (c : UInt8) : SeenDate m0 (text ++ [c]) (matchByte ctx m c) := by
  obtain ⟨e1, e2⟩ := temporal_matchByte ctx m c
  have hne : m.temporalActive ≠ 0 := by rw [h.active]; exact hact
  rw [temporalRangeByte, if_neg hne] at e1 e2
  refine ⟨(matchByte_same _ m c).temporalActive.trans h.active, fun hlen => ?_, fun hlen i ha => ?_⟩
  · rw [List.length_append, List.length_singleton] at hlen
    obtain ⟨ht, hf⟩ := h.short (by omega)
    rw [ht] at e1 e2
    rw [if_neg (by omega)] at e1 e2
    exact ⟨e2, e1.trans hf⟩
  · rw [List.length_append, List.length_singleton] at hlen
    rw [e1]
    by_cases hshort : text.length < numberMatchBytes
    · rw [(h.short hshort).1, if_pos (by omega)]
      simp [h.active, ha]
    · have hf := h.long (by omega) i ha
      split
      · simp [hf]
      · exact hf

theorem SeenDate.fold {m0 : Match} (hact : m0.temporalActive ≠ 0) : ∀ (data : Bytes) {text : Bytes}
    {m : Match}, SeenDate m0 text m → SeenDate m0 (text ++ data) (data.foldl (matchByte ctx) m)
  | [], text, m, h => by rw [List.append_nil]; exact h
  | c :: data, text, m, h => by
    rw [List.append_cons]
    exact SeenDate.fold hact data (h.byte hact c)

theorem SeenDate.dead {m0 m : Match} {text : Bytes} (h : SeenDate m0 text m)
    (hact : m0.temporalActive ≠ 0) (hlive : matchLive m = false) (data : Bytes) :
    SeenDate m0 (text ++ data) m := by
  simp only [matchLive, Bool.or_eq_false_iff, decide_eq_false_iff_not, not_not] at hlive
  have hall : ∀ i, m0.temporalActive.has i = true → m.temporalFailed.has i = true := by
    intro i ha
    have hz := Mask.eq_zero_iff.mp hlive.2 i
    rw [Mask.has_and_not, h.active, ha] at hz
    simpa using hz
  refine ⟨h.active, fun hlen => ?_, fun _ => hall⟩
  -- a date that has failed was too long already
  obtain ⟨i, hi⟩ := Mask.ne_zero_iff.mp hact
  rw [List.length_append] at hlen
  have hf := (h.short (by omega)).2
  have := hall i hi
  rw [hf] at this
  simp at this

theorem SeenDate.span {m0 m : Match} {text data : Bytes} (h : SeenDate m0 text m)
    (hact : m0.temporalActive ≠ 0) (hdata : data ≠ []) {m' : Match}
    (hsame : m'.temporalActive = m.temporalActive)
    (e1 : m'.temporalFailed = (temporalRangeBytes m data).temporalFailed)
    (e2 : m'.temporalMatch = (temporalRangeBytes m data).temporalMatch) :
    SeenDate m0 (text ++ data) m' := by
  have hne : m.temporalActive ≠ 0 := by rw [h.active]; exact hact
  rw [temporalRangeBytes, if_neg (by tauto)] at e1 e2
  dsimp only at e1 e2
  by_cases hshort : text.length < numberMatchBytes
  · obtain ⟨ht, hf⟩ := h.short hshort
    have hmask : m.temporalActive &&& ~~~m.temporalFailed = m.temporalActive := by
      refine Mask.ext fun i => ?_
      rw [Mask.has_and_not, hf]
      simp
    rw [hmask, if_neg hne, ht] at e1 e2
    refine ⟨hsame.trans h.active, fun hlen => ?_, fun hlen i ha => ?_⟩
    · rw [List.length_append] at hlen
      rw [if_neg (by omega)] at e1 e2
      exact ⟨e2, e1.trans hf⟩
    · rw [List.length_append] at hlen
      rw [if_pos (by omega)] at e1
      rw [e1]
      simp [h.active, ha]
  · have hlong := h.long (by omega)
    have hmask : m.temporalActive &&& ~~~m.temporalFailed = 0 := by
      refine Mask.ext fun i => ?_
      rw [Mask.has_and_not]
      cases ha : m.temporalActive.has i with
      | false => simp
      | true => simp [hlong i (by rw [← h.active]; exact ha)]
    rw [if_pos hmask] at e1 e2
    refine ⟨hsame.trans h.active, fun hlen => ?_, fun _ i ha => ?_⟩
    · rw [List.length_append] at hlen
      omega
    · rw [e1]
      exact hlong i ha

/-- **However a value is cut, the date collected is its text.** -/
theorem Feed.date {m m' : Match} {ps : Str} (hf : Feed ctx m ps m') :
    ∀ {n : Match} {t : Bytes}, Cuttable ctx m → m.key = false → n.temporalActive ≠ 0 →
      SeenDate n t m → SeenDate n (t ++ ps.text) m' := by
  induction hf with
  | nil m =>
    intro m0 text _ _ _ h
    simpa [Str.text] using h
  | @span m m' ps data plain _ ih =>
    intro m0 text hcut hk hact h
    rw [text_append, text_plainStr, ← List.append_assoc]
    cases hlive : matchLive m with
    | false =>
      simp only [hlive, Bool.false_eq_true, if_false] at ih
      exact ih hcut hk hact (h.dead hact hlive data)
    | true =>
      simp only [hlive, if_true] at ih
      by_cases hdata : data = []
      · subst hdata
        rw [matchSpan, if_pos rfl] at ih
        rw [List.append_nil]
        exact ih hcut hk hact h
      obtain ⟨hs, -, -, e1, e2⟩ := matchSpan_value hcut hk hdata fun c hc => isPlain_ascii (plain c hc)
      exact ih (hcut.same hs) (by rw [hs.key]; exact hk) hact
        (h.span hact hdata hs.temporalActive e1 e2)
  | @byte m m' ps c ascii _ ih =>
    intro m0 text hcut hk hact h
    rw [text_append, text_plainStr, ← List.append_assoc]
    have hs := matchByte_same ctx m c
    unfold matchGate at ih
    cases hlive : matchLive m with
    | false =>
      simp only [hlive, Bool.false_eq_true, if_false] at ih
      exact ih hcut hk hact (h.dead hact hlive [c])
    | true =>
      simp only [hlive, if_true] at ih
      exact ih (hcut.same hs) (by rw [hs.key]; exact hk) hact (h.byte hact c)
  | @coded m m' ps raw text' whole _ ih =>
    intro m0 text hcut hk hact h
    have hs := fold_same ctx text' m
    have e : Str.text (.coded raw text' :: ps) = text' ++ ps.text := rfl
    rw [e, ← List.append_assoc]
    exact ih (hcut.same hs) (by rw [hs.key]; exact hk) hact (h.fold hact text')

/-! ## Answers -/

theorem feed_pointer (target : Bytes) (step : Nat → UInt8 → ByteStep)
    (hstep : ∀ pos c, step pos c = match pointerTargetByte target pos with
      | none => { pos, failed := true }
      | some (d, advance) => if d = c then { pos := pos + advance } else { pos, failed := true }) :
    ∀ (key : Bytes) (s : ByteStep), s.failed = false →
      (!(feedBytes step key s).failed && decide ((feedBytes step key s).pos = target.length)) =
        pointerSegmentEqualFrom target s.pos key
  | [], s, hf => by
    rw [feedBytes, hf, pointerSegmentEqualFrom]
    rfl
  | c :: key, s, hf => by
    rw [pointerSegmentEqualFrom]
    have hs := hstep s.pos c
    cases hp : pointerTargetByte target s.pos with
    | none =>
      rw [hp] at hs
      rw [feed_first_failed key (by rw [hs])]
      rfl
    | some d =>
      obtain ⟨d, advance⟩ := d
      rw [hp] at hs
      dsimp only at hs ⊢
      by_cases hd : d = c
      · rw [if_pos hd] at hs
        have ih := feed_pointer target step hstep key { s with pos := s.pos + advance } hf
        rw [feedBytes, hs]
        simp only [Bool.or_false, hd, decide_true, Bool.true_and]
        exact ih
      · rw [if_neg hd] at hs
        rw [feed_first_failed key (by rw [hs])]
        simp [hd]

/-- **A term matches a key when its segment names it.** -/
theorem matchComplete_key {m0 m : Match} {ps : Str} (h : Seen ctx m0 ps m) (hcut : Cuttable ctx m0)
    (hk : m0.key = true) {i : Nat} (hi : i < ctx.n) (ha : m0.active.has i = true) :
    (matchComplete ctx m).has i =
      match keyTarget ctx m0 i with
      | none => false
      | some target => pointerSegmentEqual target ps.text := by
  have hagree := h.terms i hi ha
  have hc : cased ctx m0 i = false := by simp [cased, hk]
  rw [textStep, heard, hc, if_neg (by simp), if_neg (by simp)] at hagree
  have hkt : keyTarget ctx m i = keyTarget ctx m0 i := by simp only [keyTarget, h.same.termSegment]
  have hkm : m.key = true := by rw [h.same.key]; exact hk
  rw [matchComplete, maskOf_has_le hcut.terms]
  simp only [hi, decide_true, h.same.active, ha, Bool.true_and, hkm, if_true, hkt]
  cases ht : keyTarget ctx m0 i with
  | none => simp
  | some target =>
    have hstep := feed_pointer target (cursorStep ctx m0 i) (fun pos c => by
      cases hr : pointerTargetByte target pos <;> simp only [cursorStep_key hk, ht, hr]) ps.text { pos := 0 } rfl
    simp only [Bool.not_true, Bool.false_and, Bool.false_or, Bool.or_false, Bool.true_or,
      Bool.true_and]
    rw [pointerSegmentEqual, ← hstep]
    cases hf : (feedBytes (cursorStep ctx m0 i) ps.text { pos := 0 }).failed with
    | true => simp [show m.failed.has i = true from hagree.1.trans hf]
    | false =>
      have hpos := congrArg ByteStep.pos (hagree.2 hf)
      simp [show m.failed.has i = false from hagree.1.trans hf, show m.pos i = _ from hpos]

/-- The test of a term on the text of a scalar; `lower` is the lowered text. -/
def Term.holdsText (t : Term) (text lower : Bytes) : Bool :=
  match t.kind with
  | .pfx => decide (t.value <+: text)
  | .contains => decide (t.value <:+: text)
  | .icontains => decide (t.value <:+: lower)
  | .ipfx => decide (t.value <+: lower)
  | _ => decide (text = t.value)

/-- A term that looks for a needle has its prefix table. -/
def Term.NeedleOk (t : Term) : Prop := t.kind = .contains ∨ t.kind = .icontains → TermTable t

theorem icontainsStep_ipfx {t : Term} (h : t.kind = .ipfx) : ∀ (data : Bytes) (s : ByteStep),
    s.pos ≤ t.value.length →
    Agree (feedBytes (icontainsStep t) data s) (feedBytes (pfxStep t.value) data s)
  | [], s, _ => .refl s
  | c :: data, s, hle => by
    rcases Nat.lt_or_eq_of_le hle with hlt | heq
    · have hne : s.pos ≠ t.value.length := Nat.ne_of_lt hlt
      by_cases hc : t.value[s.pos]? = some c
      · have e1 : icontainsStep t s.pos c = { pos := s.pos + 1 } := by
          rw [icontainsStep, if_pos h, if_pos hlt, hc]
          simp
        have e2 : pfxStep t.value s.pos c = { pos := s.pos + 1 } := by
          rw [pfxStep, if_neg hne, eqStep, if_pos hc]
        rw [feedBytes, feedBytes, e1, e2]
        exact icontainsStep_ipfx h data _ hlt
      · refine .of_failed (feed_first_failed data ?_) (feed_first_failed data ?_)
        · rw [icontainsStep, if_pos h, if_pos hlt]
          exact decide_eq_true fun e => hc e.symm
        · rw [pfxStep, if_neg hne, eqStep, if_neg hc]
    · have e1 : icontainsStep t s.pos c = { pos := s.pos } := by
        rw [icontainsStep, if_pos h, if_neg (by omega)]
      have e2 : pfxStep t.value s.pos c = { pos := s.pos } := by rw [pfxStep, if_pos heq]
      rw [feedBytes, feedBytes, e1, e2]
      exact icontainsStep_ipfx h data _ hle

/-- The end of a text in value mode, as a question about the cursor. -/
def Term.found (t : Term) (r : ByteStep) : Bool :=
  !r.failed &&
    match t.kind with
    | .pfx => decide (r.pos ≥ t.value.length)
    | .ipfx => decide (r.pos ≥ t.value.length)
    | .contains => r.contains || decide (r.pos = t.value.length)
    | .icontains => r.contains || decide (r.pos = t.value.length)
    | _ => decide (r.pos = t.value.length)

theorem Term.found_agree {t : Term} {a b : ByteStep} (h : Agree a b) : t.found a = t.found b := by
  cases hf : b.failed with
  | true => rw [found, found, h.1, hf]; rfl
  | false => rw [h.2 hf]

theorem matchComplete_found {m : Match} (hn : ctx.n ≤ 64) (hk : m.key = false) {i : Nat}
    (hi : i < ctx.n) (ha : m.active.has i = true) :
    (matchComplete ctx m).has i = (ctx.term i).found (m.cursor i) := by
  rw [matchComplete, maskOf_has_le hn, Term.found, Bool.eq_iff_iff]
  simp only [hi, decide_true, ha, Bool.true_and, hk, Bool.not_false, if_false, Bool.false_eq_true,
    Bool.false_or, Match.cursor]
  cases (ctx.term i).kind <;> simp
  case ipfx => exact fun _ h => Nat.le_of_eq (Eq.symm h)
  case contains => exact fun _ => or_congr Iff.rfl decide_eq_true_iff.symm
  case icontains => exact fun _ => or_congr Iff.rfl decide_eq_true_iff.symm
  all_goals exact fun _ => decide_eq_true_iff.symm

/-- The cursor of a term on its whole text answers the term's test. -/
theorem Term.found_feed {m : Match} (hk : m.key = false) {i : Nat} (ht : (ctx.term i).NeedleOk)
    (ps : Str) :
    (ctx.term i).found (feedBytes (textStep ctx m i) (heard ctx m i ps) { pos := 0 }) =
      (ctx.term i).holdsText ps.text ps.lower := by
  have hcased : cased ctx m i =
      (decide ((ctx.term i).kind = .icontains) || decide ((ctx.term i).kind = .ipfx)) := by
    simp [cased, hk]
  have hvalue : ∀ step : Nat → UInt8 → ByteStep, (∀ pos c, cursorStep ctx m i pos c = step pos c) →
      cursorStep ctx m i = step := fun step h => funext fun pos => funext fun c => h pos c
  unfold textStep heard
  rw [hcased]
  cases hkind : (ctx.term i).kind
  case pfx =>
    have hstep := hvalue (pfxStep (ctx.term i).value) fun pos c => by
      rw [cursorStep_value hk, if_neg (by simp [hkind]), if_pos hkind]
    simp only [hstep, Term.found, Term.holdsText, hkind, reduceCtorEq, decide_false, Bool.or_self,
      Bool.false_eq_true, if_false]
    exact pfx_found _ _
  case contains =>
    have hstep := hvalue (needleStep (ctx.term i)) fun pos c => by
      rw [cursorStep_value hk, if_pos hkind]
    simp only [hstep, Term.found, Term.holdsText, hkind, reduceCtorEq, decide_false, Bool.or_self,
      Bool.false_eq_true, if_false]
    exact needle_found (ht (by simp [hkind])) _
  case icontains =>
    have hstep : icontainsStep (ctx.term i) = needleStep (ctx.term i) := by
      funext pos c
      rw [icontainsStep, if_neg (by simp [hkind])]
    simp only [hstep, Term.found, Term.holdsText, hkind, decide_true, Bool.true_or, if_true]
    exact needle_found (ht (by simp [hkind])) _
  case ipfx =>
    simp only [decide_true, Bool.or_true, if_true]
    rw [Term.found_agree (icontainsStep_ipfx hkind ps.lower { pos := 0 } (Nat.zero_le _))]
    simp only [Term.found, Term.holdsText, hkind]
    exact pfx_found _ _
  all_goals
    have hstep := hvalue (eqStep (ctx.term i).value) fun pos c => by
      rw [cursorStep_value hk, if_neg (by simp [hkind]), if_neg (by simp [hkind])]
    simp only [hstep, Term.found, Term.holdsText, hkind, reduceCtorEq, decide_false, Bool.or_self,
      Bool.false_eq_true, if_false]
    exact eq_found _ _

/-- **A string term holds of a value when its test holds of the text.** -/
theorem matchComplete_value {m0 m : Match} {ps : Str} (h : Seen ctx m0 ps m) (hcut : Cuttable ctx m0)
    (hk : m0.key = false) {i : Nat} (hi : i < ctx.n) (ha : m0.active.has i = true)
    (ht : (ctx.term i).NeedleOk) :
    (matchComplete ctx m).has i = (ctx.term i).holdsText ps.text ps.lower := by
  rw [matchComplete_found hcut.terms (by rw [h.same.key]; exact hk) hi
    (by rw [h.same.active]; exact ha), Term.found_agree (h.terms i hi ha), Term.found_feed hk ht]

theorem matchComplete_inactive {m : Match} {i : Nat} (ha : m.active.has i = false) :
    (matchComplete ctx m).has i = false := by
  rw [matchComplete, maskOf_has]
  simp [ha]

/-- **A capture matches a key that is its segment.** -/
theorem captureComplete_key {m0 m : Match} {ps : Str} (h : SeenCaptures ctx m0 ps m)
    (hn : ctx.captureKeys.length ≤ 64) (i : Nat) :
    (captureComplete ctx m).has i =
      (decide (i < ctx.captureKeys.length) && m0.captureActive.has i &&
        decide ((ctx.captureKey i)[m0.captureSegment i]? = some ps.text)) := by
  rw [captureComplete, maskOf_has_le hn, h.same.captureActive, h.same.captureSegment]
  by_cases hi : i < ctx.captureKeys.length
  · cases ha : m0.captureActive.has i with
    | false => simp
    | true =>
      have hagree := h.captures i hi ha
      simp only [hi, decide_true, Bool.true_and]
      cases ht : (ctx.captureKey i)[m0.captureSegment i]? with
      | none => simp
      | some target =>
        have hstep : captureStep ctx m0 i = eqStep target := by
          funext pos c
          rw [captureStep, ht]
        rw [hstep] at hagree
        have hfound := eq_found target ps.text
        dsimp only at hfound ⊢
        have hiff : (some target = some ps.text) ↔ ps.text = target := by
          rw [Option.some.injEq]
          exact eq_comm
        rw [decide_eq_decide.mpr hiff, ← hfound]
        cases hf : (feedBytes (eqStep target) ps.text { pos := 0 }).failed with
        | true => rw [show m.captureFailed.has i = true from hagree.1.trans hf]; rfl
        | false =>
          have hpos := congrArg ByteStep.pos (hagree.2 hf)
          rw [show m.captureFailed.has i = false from hagree.1.trans hf,
            show m.capturePos i = _ from hpos]
  · simp [hi]

/-- The date terms that hold of a text. -/
def temporalHits (ctx : Ctx) (active : Mask) (text : Bytes) : Mask :=
  if text.length ≥ numberMatchBytes then 0
  else
    match Temporal.parseTemporalLiteral text with
    | none => 0
    | some value => maskOf ctx.n fun i => active.has i && temporalSatisfies (ctx.term i) value

/-- **A date term holds of a value when its bounds hold of the date the text is.** -/
theorem temporalRangeComplete_value {m0 m : Match} {text : Bytes} (h : SeenDate m0 text m) :
    temporalRangeComplete ctx m = temporalHits ctx m0.temporalActive text := by
  by_cases hact : m0.temporalActive = 0
  · rw [temporalRangeComplete, if_pos (Or.inl (h.active.trans hact)), temporalHits, hact]
    split
    · rfl
    cases Temporal.parseTemporalLiteral text with
    | none => rfl
    | some value =>
      refine Mask.ext fun i => ?_
      rw [maskOf_has]
      simp
  · have hne : m.temporalActive ≠ 0 := by rw [h.active]; exact hact
    by_cases hlen : text.length ≥ numberMatchBytes
    · rw [temporalHits, if_pos hlen]
      have hlong := h.long hlen
      unfold temporalRangeComplete
      split
      · rfl
      cases Temporal.parseTemporalLiteral m.temporalMatch with
      | none => rfl
      | some value =>
        refine Mask.ext fun i => ?_
        rw [maskOf_has, h.active]
        cases ha : m0.temporalActive.has i with
        | false => simp
        | true => simp [hlong i ha]
    · obtain ⟨htext, hf⟩ := h.short (by omega)
      rw [temporalHits, if_neg hlen, temporalRangeComplete, htext,
        if_neg (by rw [not_or]; exact ⟨hne, hlen⟩)]
      cases Temporal.parseTemporalLiteral text with
      | none => rfl
      | some value =>
        refine Mask.ext fun i => ?_
        rw [maskOf_has, maskOf_has, h.active, hf]
        simp

end Lql.Scan
