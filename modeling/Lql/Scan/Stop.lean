import Lql.Scan.Independence

/-!
# Scans that stop early

A scan that has found what it looks for hands no term on, and what no capture looks at it only
checks. What a scan puts out and where its captures are does not depend on the terms; and what is
found stays found. So a scan that stops when it has found all its terms reports what it would have
reported without stopping, as long as it has room for what it would only have checked.
-/

namespace Lql.Scan

open Lib Json

/-- Both walks have put out the same, and their captures are in the same places. -/
structure Traced (w1 w2 : Walk) : Prop where
  out : w1.out = w2.out
  spans : w1.spans = w2.spans

theorem Traced.refl (w : Walk) : Traced w w := ⟨rfl, rfl⟩

theorem Traced.symm {w1 w2 : Walk} (h : Traced w1 w2) : Traced w2 w1 := ⟨h.out.symm, h.spans.symm⟩

theorem Traced.trans {w1 w2 w3 : Walk} (h1 : Traced w1 w2) (h2 : Traced w2 w3) : Traced w1 w3 :=
  ⟨h1.out.trans h2.out, h1.spans.trans h2.spans⟩

/-! ## Where no capture is looked for -/

section Uncaptured

variable {ctx : Ctx} {A R : Mask} {d : Nat}

theorem keyDescent_uncaptured (hits : Mask) (key : Bytes) : (keyDescent ctx d A R 0 hits key).captures = 0 :=
  maskOf_false fun i _ => by simp

theorem indexDescent_uncaptured (index : Nat) : (indexDescent ctx d A R 0 index).captures = 0 :=
  maskOf_false fun i _ => by simp

theorem captureDescendants_none : captureDescendants ctx 0 d = 0 := maskOf_false fun i _ => by simp

theorem captureValues_none : captureValues ctx 0 d = 0 := maskOf_false fun i _ => by simp

/-- The walk puts nothing out and notes nothing. -/
def Silent (ctx : Ctx) (d : Nat) (v : Value) : Prop :=
  ∀ ⦃A R : Mask⦄ ⦃w w' : Walk⦄, walkValue ctx d A R 0 v w = some w' → Traced w w'

/-- A value that no capture looks at leaves no trace. -/
theorem silent_below {v : Value} (ih : Silent ctx (d + 1) v) {captures below recursive : Mask}
    (hnone : captures = 0) {w w2 : Walk}
    (h : walkValue ctx (d + 1) below recursive (captureDescendants ctx captures d) v w = some w2) (start : Nat) :
    Traced w (w2.note ctx (captureValues ctx captures d) start) := by
  rw [hnone, captureDescendants_none] at h
  rw [hnone, captureValues_none, Walk.note_none]
  exact ih h

mutual

theorem walkValue_silent (hq : ctx.capture = false) : ∀ (v : Value) {d : Nat}, Silent ctx d v
  | .obj ms, d => by
    intro A R w w' h
    rw [walkValue] at h
    split at h
    · rw [Walk.put_quiet hq] at h
      exact walkMembers_silent hq ms h
    · cases h
  | .arr es, d => by
    intro A R w w' h
    rw [walkValue] at h
    split at h
    · rw [Walk.put_quiet hq] at h
      exact walkElements_silent hq es h
    · cases h
  | .str s, d => by
    intro A R w w' h
    rw [walkValue, Walk.put_quiet hq] at h
    cases h
    exact .refl w
  | .num token, d => by
    intro A R w w' h
    rw [walkValue, Walk.put_quiet hq] at h
    cases h
    exact .refl w
  | .lit l, d => by
    intro A R w w' h
    rw [walkValue, Walk.put_quiet hq] at h
    cases h
    exact .refl w

theorem walkMembers_silent (hq : ctx.capture = false) : ∀ (ms : Json.Members) {d : Nat} {A R : Mask} {w w' : Walk},
    walkMembers ctx d A R 0 ms w = some w' → Traced w w'
  | .nil, d, A, R, w, w', h => by
    rw [walkMembers, Walk.put_quiet hq] at h
    cases h
    exact .refl w
  | .cons key v rest, d, A, R, w, w', h => by
    rw [walkMembers_cons] at h
    obtain ⟨w1, h1, h2⟩ := Option.bind_eq_some_iff.mp h
    rw [Walk.comma_quiet hq] at h2
    refine .trans ?_ (walkMembers_silent hq rest h2)
    rw [walkMember] at h1
    dsimp only at h1
    split at h1
    · split at h1
      · cases h1
        exact .refl w
      · cases h1
    · obtain ⟨w2, hv, rfl⟩ := Option.map_eq_some_iff.mp h1
      rw [Walk.put_quiet hq] at hv
      have hbelow := silent_below (walkValue_silent hq v) (keyDescent_uncaptured _ _) hv
      exact ⟨(hbelow _).out, (hbelow _).spans⟩

theorem walkElements_silent (hq : ctx.capture = false) : ∀ (es : Json.Elements) {d index : Nat} {A R : Mask}
    {w w' : Walk}, walkElements ctx d A R 0 index es w = some w' → Traced w w'
  | .nil, d, index, A, R, w, w', h => by
    rw [walkElements, Walk.put_quiet hq] at h
    cases h
    exact .refl w
  | .cons v rest, d, index, A, R, w, w', h => by
    rw [walkElements_cons] at h
    obtain ⟨w1, h1, h2⟩ := Option.bind_eq_some_iff.mp h
    rw [Walk.comma_quiet hq] at h2
    refine .trans ?_ (walkElements_silent hq rest h2)
    rw [walkElement] at h1
    obtain ⟨w2, hv, rfl⟩ := Option.map_eq_some_iff.mp h1
    have hbelow := silent_below (walkValue_silent hq v) (indexDescent_uncaptured _) hv
    exact ⟨(hbelow _).out, (hbelow _).spans⟩

end

end Uncaptured

/-! ## The same captures -/

/-- The scans put out the same and look for the same captures. -/
structure SameOutput (c1 c2 : Ctx) : Prop where
  capture : c1.capture = c2.capture
  keys : c1.captureKeys = c2.captureKeys

section SameOutput

variable {c1 c2 : Ctx} {A1 R1 A2 R2 C : Mask} {d : Nat}

theorem SameOutput.key (h : SameOutput c1 c2) (hits1 hits2 : Mask) (key : Bytes) :
    (keyDescent c1 d A1 R1 C hits1 key).captures = (keyDescent c2 d A2 R2 C hits2 key).captures := by
  cases c1
  cases c2
  cases h.keys
  rfl

theorem SameOutput.index (h : SameOutput c1 c2) (index : Nat) :
    (indexDescent c1 d A1 R1 C index).captures = (indexDescent c2 d A2 R2 C index).captures := by
  cases c1
  cases c2
  cases h.keys
  rfl

theorem SameOutput.descendants (h : SameOutput c1 c2) (captures : Mask) :
    captureDescendants c1 captures d = captureDescendants c2 captures d := by
  cases c1
  cases c2
  cases h.keys
  rfl

theorem SameOutput.values (h : SameOutput c1 c2) (captures : Mask) :
    captureValues c1 captures d = captureValues c2 captures d := by
  cases c1
  cases c2
  cases h.keys
  rfl

theorem Traced.put {w1 w2 : Walk} (hw : Traced w1 w2) (h : SameOutput c1 c2) (bytes : Bytes) :
    Traced (w1.put c1 bytes) (w2.put c2 bytes) := by
  refine ⟨?_, hw.spans⟩
  show w1.out ++ emitted c1 bytes = w2.out ++ emitted c2 bytes
  rw [hw.out, emitted, emitted, h.capture]

theorem Traced.meet {w1 w2 : Walk} (hw : Traced w1 w2) (here1 here2 : Mask) (v : Value) :
    Traced (w1.meet c1 here1 v) (w2.meet c2 here2 v) := ⟨hw.out, hw.spans⟩

theorem Traced.comma {w1 w2 : Walk} (hw : Traced w1 w2) (h : SameOutput c1 c2) (last : Bool) :
    Traced (w1.comma c1 last) (w2.comma c2 last) := by
  unfold Walk.comma
  split
  · exact hw
  · exact hw.put h _

theorem Traced.note {w1 w2 : Walk} (hw : Traced w1 w2) (h : SameOutput c1 c2) (values : Mask) (start : Nat) :
    Traced (w1.note c1 values start) (w2.note c2 values start) := by
  refine ⟨hw.out, ?_⟩
  simp only [Walk.note, hw.out, hw.spans, h.keys]

/-- Two walks over the value leave the same trace. -/
def TracesAlike (c1 c2 : Ctx) (d : Nat) (v : Value) : Prop :=
  ∀ ⦃A1 R1 A2 R2 C : Mask⦄ ⦃w1 w2 w1' w2' : Walk⦄, Traced w1 w2 → walkValue c1 d A1 R1 C v w1 = some w1' →
    walkValue c2 d A2 R2 C v w2 = some w2' → Traced w1' w2'

/-- A member that a scan skips is none that a capture looks at. -/
theorem skipped_silent {ctx : Ctx} {A R : Mask} {hits : Mask} {key : Bytes}
    (h : (!ctx.capture && ((stopHitReady ctx hits && decide (C = 0)) || (keyDescent ctx d A R C hits key).idle)) = true) :
    ctx.capture = false ∧ (keyDescent ctx d A R C hits key).captures = 0 := by
  simp only [Bool.and_eq_true, Bool.not_eq_true', Bool.or_eq_true, decide_eq_true_eq] at h
  refine ⟨h.1, ?_⟩
  rcases h.2 with ⟨-, hC⟩ | hidle
  · rw [hC]
    exact keyDescent_uncaptured hits key
  · simp only [Descent.idle, Bool.and_eq_true, decide_eq_true_eq] at hidle
    exact hidle.2

/-- A member that no capture looks at leaves no trace, skipped or not. -/
theorem walkMember_silent {ctx : Ctx} {A R : Mask} {key : Str} {v : Value} {w w' : Walk} (hq : ctx.capture = false)
    (hnone : (keyDescent ctx d A R C w.hits key.text).captures = 0) (h : walkMember ctx d A R C key v w = some w') :
    Traced w w' := by
  rw [walkMember] at h
  dsimp only at h
  split at h
  · split at h
    · cases h
      exact .refl w
    · cases h
  · obtain ⟨w2, hv, rfl⟩ := Option.map_eq_some_iff.mp h
    rw [Walk.put_quiet hq] at hv
    have hbelow := silent_below (walkValue_silent hq v) hnone hv
    exact ⟨(hbelow _).out, (hbelow _).spans⟩

theorem walkMember_traced (h : SameOutput c1 c2) {key : Str} {v : Value} {w1 w2 w1' w2' : Walk}
    (ih : TracesAlike c1 c2 (d + 1) v) (hw : Traced w1 w2) (h1 : walkMember c1 d A1 R1 C key v w1 = some w1')
    (h2 : walkMember c2 d A2 R2 C key v w2 = some w2') : Traced w1' w2' := by
  have hcaptures : (keyDescent c1 d A1 R1 C w1.hits key.text).captures =
      (keyDescent c2 d A2 R2 C w2.hits key.text).captures := h.key _ _ _
  have hsilent : c1.capture = false → (keyDescent c1 d A1 R1 C w1.hits key.text).captures = 0 → Traced w1' w2' := by
    intro hq hnone
    have hleft := walkMember_silent hq hnone h1
    have hright := walkMember_silent (h.capture ▸ hq) (hcaptures ▸ hnone) h2
    exact hleft.symm.trans (hw.trans hright)
  rw [walkMember] at h1 h2
  dsimp only at h1 h2
  split at h1
  · next hskip => exact hsilent (skipped_silent hskip).1 (skipped_silent hskip).2
  split at h2
  · next hskip =>
    obtain ⟨hq, hnone⟩ := skipped_silent hskip
    exact hsilent (h.capture.trans hq) (hcaptures.trans hnone)
  -- both scans look into the value
  obtain ⟨y1, hv1, rfl⟩ := Option.map_eq_some_iff.mp h1
  obtain ⟨y2, hv2, rfl⟩ := Option.map_eq_some_iff.mp h2
  rw [← hcaptures, ← h.descendants] at hv2
  have hput : Traced (w1.put c1 (key.quoted ++ [chColon])) (w2.put c2 (key.quoted ++ [chColon])) := hw.put h _
  have hy : Traced y1 y2 := ih (hput.meet _ _ v) hv1 hv2
  have hstart := congrArg List.length hput.out
  rw [← hcaptures, ← h.values]
  simpa only [Walk.meet, hstart] using hy.note h _ _

theorem walkElement_traced (h : SameOutput c1 c2) {index : Nat} {v : Value} {w1 w2 w1' w2' : Walk}
    (ih : TracesAlike c1 c2 (d + 1) v) (hw : Traced w1 w2) (h1 : walkElement c1 d A1 R1 C index v w1 = some w1')
    (h2 : walkElement c2 d A2 R2 C index v w2 = some w2') : Traced w1' w2' := by
  rw [walkElement] at h1 h2
  obtain ⟨y1, hv1, rfl⟩ := Option.map_eq_some_iff.mp h1
  obtain ⟨y2, hv2, rfl⟩ := Option.map_eq_some_iff.mp h2
  have hindex : (indexDescent c1 d A1 R1 C index).captures = (indexDescent c2 d A2 R2 C index).captures := h.index index
  rw [← hindex, ← h.descendants] at hv2
  have hy : Traced y1 y2 := ih (hw.meet _ _ v) hv1 hv2
  rw [← hindex, ← h.values, ← hw.out]
  exact hy.note h _ _

mutual

/-- **What a scan puts out does not depend on its terms.** -/
theorem walkValue_traced (h : SameOutput c1 c2) : ∀ (v : Value) {d : Nat}, TracesAlike c1 c2 d v
  | .obj ms, d => by
    intro A1 R1 A2 R2 C w1 w2 w1' w2' hw h1 h2
    rw [walkValue] at h1 h2
    split at h1
    · next hd =>
      rw [if_pos hd] at h2
      exact walkMembers_traced h ms (hw.put h _) h1 h2
    · cases h1
  | .arr es, d => by
    intro A1 R1 A2 R2 C w1 w2 w1' w2' hw h1 h2
    rw [walkValue] at h1 h2
    split at h1
    · next hd =>
      rw [if_pos hd] at h2
      exact walkElements_traced h es (hw.put h _) h1 h2
    · cases h1
  | .str s, d => by
    intro A1 R1 A2 R2 C w1 w2 w1' w2' hw h1 h2
    cases h1
    cases h2
    exact hw.put h _
  | .num token, d => by
    intro A1 R1 A2 R2 C w1 w2 w1' w2' hw h1 h2
    cases h1
    cases h2
    exact hw.put h _
  | .lit l, d => by
    intro A1 R1 A2 R2 C w1 w2 w1' w2' hw h1 h2
    cases h1
    cases h2
    exact hw.put h _

theorem walkMembers_traced (h : SameOutput c1 c2) : ∀ (ms : Json.Members) {d : Nat} {A1 R1 A2 R2 C : Mask}
    {w1 w2 w1' w2' : Walk}, Traced w1 w2 → walkMembers c1 d A1 R1 C ms w1 = some w1' →
    walkMembers c2 d A2 R2 C ms w2 = some w2' → Traced w1' w2'
  | .nil, d, A1, R1, A2, R2, C, w1, w2, w1', w2', hw, h1, h2 => by
    cases h1
    cases h2
    exact hw.put h _
  | .cons key v rest, d, A1, R1, A2, R2, C, w1, w2, w1', w2', hw, h1, h2 => by
    rw [walkMembers_cons] at h1 h2
    obtain ⟨x1, hx1, hr1⟩ := Option.bind_eq_some_iff.mp h1
    obtain ⟨x2, hx2, hr2⟩ := Option.bind_eq_some_iff.mp h2
    have hx := walkMember_traced h (walkValue_traced h v) hw hx1 hx2
    exact walkMembers_traced h rest (hx.comma h _) hr1 hr2

theorem walkElements_traced (h : SameOutput c1 c2) : ∀ (es : Json.Elements) {d index : Nat} {A1 R1 A2 R2 C : Mask}
    {w1 w2 w1' w2' : Walk}, Traced w1 w2 → walkElements c1 d A1 R1 C index es w1 = some w1' →
    walkElements c2 d A2 R2 C index es w2 = some w2' → Traced w1' w2'
  | .nil, d, index, A1, R1, A2, R2, C, w1, w2, w1', w2', hw, h1, h2 => by
    cases h1
    cases h2
    exact hw.put h _
  | .cons v rest, d, index, A1, R1, A2, R2, C, w1, w2, w1', w2', hw, h1, h2 => by
    rw [walkElements_cons] at h1 h2
    obtain ⟨x1, hx1, hr1⟩ := Option.bind_eq_some_iff.mp h1
    obtain ⟨x2, hx2, hr2⟩ := Option.bind_eq_some_iff.mp h2
    have hx := walkElement_traced h (walkValue_traced h v) hw hx1 hx2
    exact walkElements_traced h rest (hx.comma h _) hr1 hr2

end

end SameOutput

/-! ## Whole runs -/

section Unstopped

variable {ctx : Ctx}

/-- The same scan, that looks for its terms to the end. -/
def Ctx.unstopped (ctx : Ctx) : Ctx := { ctx with stopMatchingOnHit := false }

/-- Whether a scan is sound does not depend on when it stops. -/
theorem Ctx.Sound.of_same {c1 c2 : Ctx} (h : c1.Sound) (hterms : c1.terms = c2.terms) (hsame : SameOutput c1 c2) :
    c2.Sound := by
  cases c1
  cases c2
  cases hterms
  cases hsame.capture
  cases hsame.keys
  exact ⟨⟨h.ok.terms, h.ok.captures, h.ok.escapes⟩, h.regular, h.literals, h.captures⟩

theorem Ctx.Sound.unstopped (h : ctx.Sound) : ctx.unstopped.Sound := h.of_same rfl ⟨rfl, rfl⟩

theorem Ctx.unstopped_of_off (h : ctx.stopMatchingOnHit = false) : ctx.unstopped = ctx := by
  rw [Ctx.unstopped, ← h]

/-- Words with the same bits for the terms, and no others, are the same. -/
theorem hits_ext {hits hits' : Mask} (hb : Bounded ctx hits) (hb' : Bounded ctx hits')
    (h : ∀ i < ctx.n, hits.has i = hits'.has i) : hits = hits' := by
  refine Mask.ext fun i => ?_
  by_cases hi : i < ctx.n
  · exact h i hi
  · have hno : hits.has i = false := Bool.eq_false_iff.mpr fun e => hi (hb i e)
    have hno' : hits'.has i = false := Bool.eq_false_iff.mpr fun e => hi (hb' i e)
    rw [hno, hno']

/-- **Stopping early does not matter** for a scan that stops only when it has found all its terms: the records and the
status are the same. -/
theorem stop_independent (h : ctx.Sound) (hp : Patient ctx) (chunks : List Bytes) (hc : ReaderOk chunks)
    (hroom : Roomy chunks.flatten) (hm : ctx.Measures (documents (chunks.flatten.length + 2) chunks.flatten)) :
    scanAll ctx chunks = scanAll ctx.unstopped chunks := by
  obtain ⟨sizes, hfirst, hg⟩ := hm.gauge
  rw [scanAll_run h hc, scanAll_run h.unstopped hc]
  have hruns : (scanRun ctx chunks.flatten).1.map id = (scanRun ctx.unstopped chunks.flatten).1.map id ∧
      (scanRun ctx chunks.flatten).2 = (scanRun ctx.unstopped chunks.flatten).2 := by
    refine runRecords_map (fun c c' => sizes c ∧ sizes c') (fun w w' => w.hits = w'.hits ∧ Traced w w') ?_ _ 0 _ _ _
      ⟨hfirst, hfirst⟩ ?_
    · intro index offset bytes v mid w w' hw
      simp only [id, report, hw.1, hw.2.out, hw.2.spans]
      rfl
    · intro v hv cap cap' hcaps
      rcases walkRecord_both ctx ctx.unstopped (hroom v hv) cap cap' with hnone | ⟨w, w', hw, hw'⟩
      · exact .inl hnone
      -- both scans find what each term finds on its own
      obtain ⟨hcap, hbits⟩ := walkRecord_finds h.ok hp (hg v hv) hcaps.1 hw
      obtain ⟨hcap', hbits'⟩ := walkRecord_finds h.unstopped.ok (.off rfl) (hg v hv) hcaps.2 hw'
      have hb : Bounded ctx w.hits := (keeps_bounded ctx).value v hw (recordStart_bounded cap _ h.ok.terms)
      have hb' : Bounded ctx w'.hits :=
        (keeps_bounded ctx.unstopped).value v hw' (recordStart_bounded cap' _ h.unstopped.ok.terms)
      have hhits : w.hits = w'.hits := hits_ext hb hb' fun i hi => (hbits i hi).trans (hbits' i hi).symm
      have hsame : SameOutput ctx ctx.unstopped := ⟨rfl, rfl⟩
      have hstart : Traced (recordStart ctx cap v.isObject) (recordStart ctx.unstopped cap' v.isObject) := ⟨rfl, rfl⟩
      exact .inr ⟨w, w', hw, hw', ⟨hcap, hcap'⟩, hhits, walkValue_traced hsame v hstart hw hw'⟩
  rw [List.map_id, List.map_id] at hruns
  exact Prod.ext hruns.1 hruns.2

end Unstopped

end Lql.Scan
