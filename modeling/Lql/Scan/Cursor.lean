import Lql.Scan.Needle
import Lql.Scan.ScalarSpec

/-!
# One byte for one term

The matching loops treat all terms at once. Here each term and each capture is followed on
its own: where it stands (`Match.cursor`), and what one byte of a text, or the bytes of one
code point, do to it.
-/

namespace Lql.Scan

open Lib Json

/-- Where a term stands in the text being read. -/
def Match.cursor (m : Match) (i : Nat) : ByteStep :=
  { pos := m.pos i, failed := m.failed.has i, contains := m.contains.has i }

/-- Where a capture stands in the key being read. -/
def Match.captureCursor (m : Match) (i : Nat) : ByteStep :=
  { pos := m.capturePos i, failed := m.captureFailed.has i }

/-- Two cursors that a failure has made equal, or that are. -/
def Agree (a b : ByteStep) : Prop := a.failed = b.failed ∧ (b.failed = false → a = b)

theorem Agree.refl (a : ByteStep) : Agree a a := ⟨rfl, fun _ => rfl⟩

theorem Agree.of_failed {a b : ByteStep} (ha : a.failed = true) (hb : b.failed = true) : Agree a b :=
  ⟨ha.trans hb.symm, fun hn => absurd (hb.symm.trans hn) (by simp)⟩

theorem Agree.feed {a b : ByteStep} (h : Agree a b) (step : Nat → UInt8 → ByteStep) (data : Bytes) :
    Agree (feedBytes step data a) (feedBytes step data b) := by
  cases hb : b.failed with
  | false => rw [h.2 hb]; exact .refl _
  | true =>
    exact .of_failed (feedBytes_failed step data (h.1.trans hb)) (feedBytes_failed step data hb)

theorem Agree.frozen {a b : ByteStep} (h : Agree a b) (ha : a.failed = true)
    (step : Nat → UInt8 → ByteStep) (data : Bytes) : Agree a (feedBytes step data b) := by
  exact .of_failed ha (feedBytes_failed step data (h.1.symm.trans ha))

theorem Agree.trans {a b c : ByteStep} (h1 : Agree a b) (h2 : Agree b c) : Agree a c :=
  ⟨h1.1.trans h2.1, fun hc => (h1.2 (h2.1.trans hc)).trans (h2.2 hc)⟩

theorem feed_first_failed {step : Nat → UInt8 → ByteStep} {s : ByteStep} {c : UInt8} (data : Bytes)
    (h : (step s.pos c).failed = true) : (feedBytes step (c :: data) s).failed = true :=
  feedBytes_failed step data (by simp [h])

/-- What reading a text leaves alone. -/
structure Same (m m' : Match) : Prop where
  active : m'.active = m.active
  key : m'.key = m.key
  icontains : m'.icontains = m.icontains
  termSegment : m'.termSegment = m.termSegment
  captureActive : m'.captureActive = m.captureActive
  captureSegment : m'.captureSegment = m.captureSegment
  temporalActive : m'.temporalActive = m.temporalActive

theorem Same.refl (m : Match) : Same m m := ⟨rfl, rfl, rfl, rfl, rfl, rfl, rfl⟩

theorem Same.trans {a b c : Match} (h1 : Same a b) (h2 : Same b c) : Same a c :=
  ⟨h2.1.trans h1.1, h2.2.trans h1.2, h2.3.trans h1.3, h2.4.trans h1.4, h2.5.trans h1.5,
    h2.6.trans h1.6, h2.7.trans h1.7⟩

variable {ctx : Ctx}

/-! ## What one term hears -/

/-- The term compares the lowered value. -/
def cased (ctx : Ctx) (m : Match) (i : Nat) : Bool :=
  !m.key && ((ctx.term i).kind = .icontains || (ctx.term i).kind = .ipfx)

/-- The step of a term that is not lowered, from any position. -/
def cursorStep (ctx : Ctx) (m : Match) (i pos : Nat) (c : UInt8) : ByteStep :=
  byteStep ctx { m with pos := fun _ => pos } c i

theorem cursorStep_same {m m' : Match} (h : Same m m') (i : Nat) :
    cursorStep ctx m' i = cursorStep ctx m i := by
  funext pos c
  simp only [cursorStep, byteStep, keyTarget, h.key, h.termSegment]

theorem cased_same {m m' : Match} (h : Same m m') (i : Nat) : cased ctx m' i = cased ctx m i := by
  simp only [cased, h.key]

/-- The step of a term on the bytes it hears. -/
def textStep (ctx : Ctx) (m : Match) (i : Nat) : Nat → UInt8 → ByteStep :=
  if cased ctx m i then icontainsStep (ctx.term i) else cursorStep ctx m i

/-- The bytes a term hears of a text. -/
def heard (ctx : Ctx) (m : Match) (i : Nat) (ps : Str) : Bytes :=
  if cased ctx m i then ps.lower else ps.text

theorem heard_append (m : Match) (i : Nat) (a b : Str) :
    heard ctx m i (a ++ b) = heard ctx m i a ++ heard ctx m i b := by
  unfold heard
  split
  · exact lower_append a b
  · exact text_append a b

/-- The step of a capture on a key. -/
def captureStep (ctx : Ctx) (m : Match) (i pos : Nat) (c : UInt8) : ByteStep :=
  match (ctx.captureKey i)[m.captureSegment i]? with
  | none => { pos, failed := true }
  | some target => eqStep target pos c

theorem captureStep_same {m m' : Match} (h : Same m m') (i : Nat) :
    captureStep ctx m' i = captureStep ctx m i := by
  funext pos c
  simp only [captureStep, h.captureSegment]

theorem cursor_applySteps (hn : ctx.n ≤ 64) (m : Match) (p : Nat → Bool) (r : Nat → ByteStep)
    {i : Nat} (hi : i < ctx.n) :
    (applySteps ctx m p r).cursor i =
      if p i then
        { pos := (r i).pos, failed := m.failed.has i || (r i).failed
          contains := m.contains.has i || (r i).contains }
      else m.cursor i := by
  simp only [Match.cursor, applySteps, updWhere, Mask.has_or, maskOf_has_le hn, hi, decide_true,
    Bool.true_and]
  cases p i <;> simp

/-- A loop that feeds the same bytes to every term it treats. -/
theorem cursor_feed (hn : ctx.n ≤ 64) (m : Match) (p : Nat → Bool)
    (step : Nat → Nat → UInt8 → ByteStep) (data : Bytes) {i : Nat} (hi : i < ctx.n) :
    (applySteps ctx m p fun i => feedBytes (step i) data { pos := m.pos i }).cursor i =
      if p i then feedBytes (step i) data (m.cursor i) else m.cursor i := by
  rw [cursor_applySteps hn _ _ _ hi, feedBytes_from _ _ (m.cursor i)]
  rfl

/-! ## One byte -/

theorem temporalRangeByte_same (m : Match) (c : UInt8) : Same m (temporalRangeByte m c) := by
  unfold temporalRangeByte
  split
  · exact .refl m
  split <;> exact ⟨rfl, rfl, rfl, rfl, rfl, rfl, rfl⟩

/-- The bytes of the code point being collected. -/
def Match.casePending (m : Match) : Bytes := if m.caseNeed = 0 then [] else m.caseBytes

/-- How many bytes that code point takes, when `c` is its next one. -/
def Match.caseTotal (m : Match) (c : UInt8) : Nat := if m.caseNeed = 0 then caseNeedOf c else m.caseNeed

theorem matchIcontainsByte_eq (m : Match) (c : UInt8) :
    matchIcontainsByte ctx m c =
      if (m.casePending ++ [c]).length ≠ m.caseTotal c then
        { m with caseNeed := m.caseTotal c, caseBytes := m.casePending ++ [c] }
      else { matchIcontainsBytes ctx m (lowerBytes (m.casePending ++ [c])) with
        caseNeed := 0, caseBytes := [] } := rfl

theorem matchIcontainsByte_same (m : Match) (c : UInt8) : Same m (matchIcontainsByte ctx m c) := by
  rw [matchIcontainsByte_eq]
  split <;> exact ⟨rfl, rfl, rfl, rfl, rfl, rfl, rfl⟩

theorem cursor_matchIcontainsByte (hn : ctx.n ≤ 64) (m : Match) (c : UInt8) {i : Nat}
    (hi : i < ctx.n) :
    (matchIcontainsByte ctx m c).cursor i =
      if (m.active.has i && cased ctx m i) = true ∧ (m.casePending ++ [c]).length = m.caseTotal c then
        feedBytes (icontainsStep (ctx.term i)) (lowerBytes (m.casePending ++ [c])) (m.cursor i)
      else m.cursor i := by
  rw [matchIcontainsByte_eq]
  by_cases hl : (m.casePending ++ [c]).length = m.caseTotal c
  · rw [if_neg (not_not.mpr hl)]
    have h := cursor_feed hn m (fun i => m.active.has i && !m.key &&
      ((ctx.term i).kind = .icontains || (ctx.term i).kind = .ipfx))
      (fun i => icontainsStep (ctx.term i)) (lowerBytes (m.casePending ++ [c])) hi
    simp only [hl, and_true, cased, ← Bool.and_assoc]
    exact h
  · rw [if_pos hl, if_neg fun h => hl h.2]
    rfl

/-- The three loops of `lql_json_match_byte` behind the date. -/
def byteLoops (ctx : Ctx) (m : Match) (value : UInt8) : Match :=
  let m := if m.active ≠ 0 then matchByteTerms ctx m value else m
  let m := if m.captureActive ≠ 0 then captureByte ctx m value else m
  if m.icontains ≠ 0 then matchIcontainsByte ctx m value else m

theorem matchByte_eq {m : Match} (h : m.active ≠ 0 ∨ m.captureActive ≠ 0) (c : UInt8) :
    matchByte ctx m c = byteLoops ctx (temporalRangeByte m c) c := by
  have hs := temporalRangeByte_same m c
  have h1 : ¬ (m.active = 0 ∧ m.captureActive = 0 ∧ m.temporalActive = 0) := by tauto
  have h2 : ¬ ((temporalRangeByte m c).active = 0 ∧ (temporalRangeByte m c).captureActive = 0) := by
    rw [hs.active, hs.captureActive]
    tauto
  rw [matchByte, if_neg h1]
  dsimp only
  rw [if_neg h2]
  rfl

theorem byteLoops_same (m : Match) (c : UInt8) : Same m (byteLoops ctx m c) := by
  unfold byteLoops
  dsimp only
  have h1 : Same m (if m.active ≠ 0 then matchByteTerms ctx m c else m) := by
    split
    · exact ⟨rfl, rfl, rfl, rfl, rfl, rfl, rfl⟩
    · exact .refl m
  refine h1.trans ?_
  generalize (if m.active ≠ 0 then matchByteTerms ctx m c else m) = m1
  have h2 : Same m1 (if m1.captureActive ≠ 0 then captureByte ctx m1 c else m1) := by
    split
    · exact ⟨rfl, rfl, rfl, rfl, rfl, rfl, rfl⟩
    · exact .refl m1
  refine h2.trans ?_
  generalize (if m1.captureActive ≠ 0 then captureByte ctx m1 c else m1) = m2
  split
  · exact matchIcontainsByte_same m2 c
  · exact .refl m2

theorem matchByte_same (ctx : Ctx) (m : Match) (c : UInt8) : Same m (matchByte ctx m c) := by
  by_cases h : m.active ≠ 0 ∨ m.captureActive ≠ 0
  · rw [matchByte_eq h]
    exact (temporalRangeByte_same m c).trans (byteLoops_same _ c)
  · have h0 : m.active = 0 ∧ m.captureActive = 0 := by tauto
    have hs := temporalRangeByte_same m c
    rw [matchByte]
    split
    · exact .refl m
    dsimp only
    rw [if_pos ⟨hs.active.trans h0.1, hs.captureActive.trans h0.2⟩]
    exact hs

theorem cursor_temporalRangeByte (m : Match) (c : UInt8) (i : Nat) :
    (temporalRangeByte m c).cursor i = m.cursor i := by
  unfold temporalRangeByte
  split
  · rfl
  split <;> rfl

/-- The first two loops, for one term. -/
theorem cursor_matchByteTerms (hn : ctx.n ≤ 64) {m : Match} {i : Nat} (hi : i < ctx.n)
    (ha : m.active.has i = true) (c : UInt8) :
    (matchByteTerms ctx m c).cursor i =
      if (!m.failed.has i && !cased ctx m i) = true then
        feedBytes (cursorStep ctx m i) [c] (m.cursor i) else m.cursor i := by
  rw [matchByteTerms, cursor_applySteps hn _ _ _ hi]
  have hp : (m.active.has i && !m.failed.has i &&
      (m.key || !((ctx.term i).kind = .icontains || (ctx.term i).kind = .ipfx))) =
      (!m.failed.has i && !cased ctx m i) := by
    simp [ha, cased]
  rw [hp]
  rfl

/-- **One byte for one term**: a term that is not lowered moves by its own step until it has
failed; a lowered one moves when the byte completes a code point. -/
theorem cursor_matchByte (hn : ctx.n ≤ 64) {m : Match} {i : Nat} (hi : i < ctx.n)
    (ha : m.active.has i = true) (c : UInt8) :
    (matchByte ctx m c).cursor i =
      if cased ctx m i then
        if m.icontains ≠ 0 ∧ (m.casePending ++ [c]).length = m.caseTotal c then
          feedBytes (icontainsStep (ctx.term i)) (lowerBytes (m.casePending ++ [c])) (m.cursor i)
        else m.cursor i
      else if m.failed.has i then m.cursor i
      else feedBytes (cursorStep ctx m i) [c] (m.cursor i) := by
  have hact : m.active ≠ 0 := Mask.ne_zero_iff.mpr ⟨i, ha⟩
  rw [matchByte_eq (Or.inl hact)]
  have hs := temporalRangeByte_same m c
  have hcur := cursor_temporalRangeByte m c i
  have hcase : (temporalRangeByte m c).casePending = m.casePending ∧
      (temporalRangeByte m c).caseTotal c = m.caseTotal c := by
    unfold temporalRangeByte
    split
    · exact ⟨rfl, rfl⟩
    split <;> exact ⟨rfl, rfl⟩
  have hstep : cursorStep ctx (temporalRangeByte m c) i = _ := cursorStep_same hs i
  have hcased : cased ctx (temporalRangeByte m c) i = _ := cased_same hs i
  have hfailed : (temporalRangeByte m c).failed.has i = m.failed.has i := congrArg ByteStep.failed hcur
  rw [← hcase.1, ← hcase.2, ← hcur, ← hstep, ← hcased, ← hfailed, ← hs.icontains]
  have ha' : (temporalRangeByte m c).active.has i = true := by rw [hs.active]; exact ha
  have hact' : (temporalRangeByte m c).active ≠ 0 := by rw [hs.active]; exact hact
  generalize temporalRangeByte m c = m at ha' hact'
  unfold byteLoops
  dsimp only
  rw [if_pos hact']
  -- the captures do not touch the terms
  have h2 : ∀ m1 : Match, m1 = matchByteTerms ctx m c →
      let m2 := if m1.captureActive ≠ 0 then captureByte ctx m1 c else m1
      m2.cursor i = (matchByteTerms ctx m c).cursor i ∧ m2.active = m.active ∧
        cased ctx m2 i = cased ctx m i ∧ m2.icontains = m.icontains ∧
        m2.casePending = m.casePending ∧ m2.caseTotal c = m.caseTotal c := by
    rintro m1 rfl
    dsimp only
    split <;> exact ⟨rfl, rfl, rfl, rfl, rfl, rfl⟩
  obtain ⟨e1, e2, e3, e4, e5, e6⟩ := h2 _ rfl
  generalize (if (matchByteTerms ctx m c).captureActive ≠ 0 then
    captureByte ctx (matchByteTerms ctx m c) c else matchByteTerms ctx m c) = m2 at *
  rw [cursor_matchByteTerms hn hi ha'] at e1
  by_cases hic : m.icontains = 0
  · rw [if_neg (by rw [e4, hic]; simp), e1]
    cases hcs : cased ctx m i <;> cases hf : m.failed.has i <;> simp [hic]
  · have hic' : m.icontains ≠ 0#64 := hic
    rw [if_pos (by rw [e4]; exact hic), cursor_matchIcontainsByte hn _ _ hi, e1, e2, e3, e5, e6, ha']
    cases hcs : cased ctx m i <;> cases hf : m.failed.has i <;> simp [hic']

/-! ## Code points -/

/-- The code point being collected, after one more byte. -/
theorem case_matchByte (ctx : Ctx) {m : Match} (ha : m.active ≠ 0) (hic : m.icontains ≠ 0) (c : UInt8) :
    ((m.casePending ++ [c]).length = m.caseTotal c → (matchByte ctx m c).caseNeed = 0) ∧
      ((m.casePending ++ [c]).length ≠ m.caseTotal c →
        (matchByte ctx m c).caseNeed = m.caseTotal c ∧
          (matchByte ctx m c).caseBytes = m.casePending ++ [c]) := by
  rw [matchByte_eq (Or.inl ha)]
  have hm : ∃ m2 : Match, byteLoops ctx (temporalRangeByte m c) c = matchIcontainsByte ctx m2 c ∧
      m2.casePending = m.casePending ∧ m2.caseTotal c = m.caseTotal c := by
    have hs := temporalRangeByte_same m c
    have hcase : (temporalRangeByte m c).casePending = m.casePending ∧
        (temporalRangeByte m c).caseTotal c = m.caseTotal c := by
      unfold temporalRangeByte
      split
      · exact ⟨rfl, rfl⟩
      split <;> exact ⟨rfl, rfl⟩
    have hic' : (temporalRangeByte m c).icontains ≠ 0 := by rw [hs.icontains]; exact hic
    have ha' : (temporalRangeByte m c).active ≠ 0 := by rw [hs.active]; exact ha
    rw [← hcase.1, ← hcase.2]
    generalize temporalRangeByte m c = m1 at *
    unfold byteLoops
    dsimp only
    rw [if_pos ha']
    by_cases hcap : (matchByteTerms ctx m1 c).captureActive ≠ 0
    · rw [if_pos hcap, if_pos (show (captureByte ctx (matchByteTerms ctx m1 c) c).icontains ≠ 0 from hic')]
      exact ⟨_, rfl, rfl, rfl⟩
    · rw [if_neg hcap, if_pos (show (matchByteTerms ctx m1 c).icontains ≠ 0 from hic')]
      exact ⟨_, rfl, rfl, rfl⟩
  obtain ⟨m2, e, h1, h2⟩ := hm
  rw [e, ← h1, ← h2, matchIcontainsByte_eq]
  refine ⟨fun h => ?_, fun h => ?_⟩
  · rw [if_neg (not_not.mpr h)]
  · rw [if_pos h]
    exact ⟨rfl, rfl⟩

theorem caseNeedOf_pos (c : UInt8) : caseNeedOf c ≠ 0 := by
  unfold caseNeedOf
  split
  · simp
  split
  · simp
  split <;> simp

theorem caseTotal_pos (m : Match) (c : UInt8) : m.caseTotal c ≠ 0 := by
  unfold Match.caseTotal
  split
  · exact caseNeedOf_pos c
  · assumption

/-- A code point has been handed over once its last byte has. -/
theorem cursor_fold_cased (hn : ctx.n ≤ 64) {i : Nat} (hi : i < ctx.n) :
    ∀ (rest : Bytes) (m : Match), m.active.has i = true → cased ctx m i = true → m.icontains ≠ 0 →
      (∃ c rest', rest = c :: rest' ∧ (m.casePending ++ rest).length = m.caseTotal c) →
      (rest.foldl (matchByte ctx) m).cursor i =
          feedBytes (icontainsStep (ctx.term i)) (lowerBytes (m.casePending ++ rest)) (m.cursor i) ∧
        (rest.foldl (matchByte ctx) m).caseNeed = 0
  | [], _, _, _, _, h => by obtain ⟨c, rest', e, -⟩ := h; cases e
  | c :: rest, m, ha, hc, hic, h => by
    obtain ⟨_, _, e, hlen⟩ := h
    cases e
    have hact : m.active ≠ 0 := Mask.ne_zero_iff.mpr ⟨i, ha⟩
    have hs := matchByte_same ctx m c
    obtain ⟨hdone, hmore⟩ := case_matchByte ctx hact hic c
    have hcur := cursor_matchByte hn hi ha c
    rw [hc, if_pos rfl] at hcur
    rw [List.foldl_cons]
    cases rest with
    | nil =>
      rw [if_pos ⟨hic, hlen⟩] at hcur
      exact ⟨hcur, hdone hlen⟩
    | cons d rest =>
      have hne : (m.casePending ++ [c]).length ≠ m.caseTotal c := by
        simp only [List.length_append, List.length_cons, List.length_nil] at hlen ⊢
        omega
      obtain ⟨hneed, hbytes⟩ := hmore hne
      have hpend : (matchByte ctx m c).casePending = m.casePending ++ [c] := by
        rw [Match.casePending, hneed, if_neg (caseTotal_pos m c), hbytes]
      obtain ⟨h1, h2⟩ := cursor_fold_cased hn hi (d :: rest) (matchByte ctx m c)
        (by rw [hs.active]; exact ha) (by rw [cased_same hs]; exact hc)
        (by rw [hs.icontains]; exact hic)
        ⟨d, rest, rfl, by
          rw [hpend, Match.caseTotal, hneed, if_neg (caseTotal_pos m c), ← hlen]
          simp⟩
      refine ⟨?_, h2⟩
      rw [h1, hpend, hcur, if_neg fun h => hne h.2]
      simp

theorem fold_same (ctx : Ctx) : ∀ (text : Bytes) (m : Match), Same m (text.foldl (matchByte ctx) m)
  | [], m => .refl m
  | c :: text, m => (matchByte_same _ m c).trans (fold_same _ text _)

/-- The other terms take a code point byte by byte. -/
theorem cursor_fold (hn : ctx.n ≤ 64) {i : Nat} (hi : i < ctx.n) : ∀ (text : Bytes) (m : Match),
    m.active.has i = true → cased ctx m i = false →
    Agree ((text.foldl (matchByte ctx) m).cursor i)
      (feedBytes (cursorStep ctx m i) text (m.cursor i))
  | [], m, _, _ => .refl _
  | c :: text, m, ha, hc => by
    have hs := matchByte_same ctx m c
    have ih := cursor_fold hn hi text (matchByte ctx m c) (by rw [hs.active]; exact ha)
      (by rw [cased_same hs]; exact hc)
    rw [cursorStep_same hs, cursor_matchByte hn hi ha, hc, if_neg (by simp)] at ih
    rw [List.foldl_cons]
    refine ih.trans ?_
    have e : feedBytes (cursorStep ctx m i) (c :: text) (m.cursor i) =
        feedBytes (cursorStep ctx m i) text (feedBytes (cursorStep ctx m i) [c] (m.cursor i)) :=
      feedBytes_append _ [c] text _
    rw [e]
    refine Agree.feed ?_ _ _
    split
    · next hf => exact Agree.frozen (.refl _) hf _ _
    · exact .refl _

end Lql.Scan
