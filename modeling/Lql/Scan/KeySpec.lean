import Lql.Scan.KeyStep
import Lql.Scan.Feed

/-!
# The key of a member

What `lql_json_object` knows about a member once its key has been read: which terms the key
leads on, with which segment, which terms are below their `...`, and which captures it names.
None of it depends on how the key was read.
-/

namespace Lql.Scan

open Lib Json

/-- The terms below their `...` at depth `d`. -/
def recTerms (ctx : Ctx) (d : Nat) (A R : Mask) : Mask :=
  maskOf ctx.n fun i => (ctx.term i).joins d (A.has i) (R.has i)

/-- The terms a key leads on. -/
def keyTerms (ctx : Ctx) (d : Nat) (A R : Mask) (key : Bytes) : Mask :=
  maskOf ctx.n fun i => (A.has i && (ctx.term i).ordKey d key) ||
    ((ctx.term i).joins d (A.has i) (R.has i) && (ctx.term i).recKey key)

/-- The captures a key names. -/
def keyCaptures (ctx : Ctx) (d : Nat) (C : Mask) (key : Bytes) : Mask :=
  maskOf ctx.captureKeys.length fun i => C.has i && decide ((ctx.captureKey i)[d]? = some key)

/-- Segment `k` of the term is compared with the keys at depth `d`. -/
def Term.compares (t : Term) (d k : Nat) : Prop :=
  k < t.segments.length ∧ ((k = d ∧ d < t.fixed) ∨ ∃ p, t.deep = some p ∧ p ≤ d ∧ k = p + 1)

/-- An escaped segment is compared alone: where it is, no other term and no capture looks at
the key. -/
def EscapesAlone (ctx : Ctx) : Prop :=
  ∀ i < ctx.n, ∀ d k, (ctx.term i).compares d k →
    pointerSegmentHasEscape ((ctx.term i).seg k) = true →
    (∀ j < ctx.n, j ≠ i → ∀ k', ¬ (ctx.term j).compares d k') ∧
      ∀ c < ctx.captureKeys.length, (ctx.captureKey c).length ≤ d

/-- The terms and captures alive at depth `d`. `followed` are the terms whose slots are kept
in order; the others are never alive. -/
structure Alive (ctx : Ctx) (followed : Nat → Prop) (d : Nat) (A R C : Mask) : Prop where
  bound : ∀ i, A.has i = true ∨ R.has i = true → i < ctx.n
  regular : ∀ i < ctx.n, A.has i = true ∨ R.has i = true ∨ (ctx.term i).deep = some 0 →
    followed i ∧ (ctx.term i).Regular ∧ AliveAt (ctx.term i) d (A.has i) (R.has i)
  captures : ∀ c, C.has c = true → c < ctx.captureKeys.length ∧ d < (ctx.captureKey c).length

/-- What the scan as a whole promises. -/
structure CtxOk (ctx : Ctx) : Prop where
  terms : ctx.n ≤ 64
  captures : ctx.captureKeys.length ≤ 64
  escapes : EscapesAlone ctx

/-- A word has room for the terms and for the captures. -/
structure CtxRoom (ctx : Ctx) : Prop where
  terms : ctx.n ≤ 64
  captures : ctx.captureKeys.length ≤ 64

theorem CtxOk.room {ctx : Ctx} (hc : CtxOk ctx) : CtxRoom ctx := ⟨hc.terms, hc.captures⟩

/-- The slots of the followed terms are in order. -/
def SlotsOk (ctx : Ctx) (followed : Nat → Prop) (s : State) : Prop :=
  ∀ i < ctx.n, followed i → SlotOk s (ctx.term i) i

section Masks

variable {ctx : Ctx} {followed : Nat → Prop} {d : Nat} {A R C : Mask}

theorem recTerms_has (hc : CtxOk ctx) (i : Nat) :
    (recTerms ctx d A R).has i = (decide (i < ctx.n) && (ctx.term i).joins d (A.has i) (R.has i)) :=
  maskOf_has_le hc.terms _ i

theorem keyTerms_has (hc : CtxOk ctx) (key : Bytes) (i : Nat) :
    (keyTerms ctx d A R key).has i = (decide (i < ctx.n) &&
      ((A.has i && (ctx.term i).ordKey d key) ||
        ((ctx.term i).joins d (A.has i) (R.has i) && (ctx.term i).recKey key))) :=
  maskOf_has_le hc.terms _ i

/-- A `...` in front of everything. -/
theorem deep_zero (t : Term) : decide (t.deep = some 0) = t.pathRecursiveSegments.has 0 := by
  cases h : t.pathRecursiveSegments.has 0 with
  | true => exact decide_eq_true (firstRecursive_eq (by decide) h fun k hk => absurd hk (Nat.not_lt_zero k))
  | false =>
    refine decide_eq_false fun hd => ?_
    have := List.find?_some hd
    rw [h] at this
    cases this

theorem Term.Regular.recursive_at {t : Term} (h : t.Regular) (d : Nat) :
    t.pathRecursiveSegments.has d = decide (t.deep = some d) := by
  rcases h with h | ⟨p, h⟩
  · rw [h.recursives, h.deep]
    rfl
  · rw [h.recursives, h.deep]
    simp [eq_comm]

/-- The flags of a live term, also when the scan has stopped looking. -/
theorem Alive.gate (h : Alive ctx followed d A R C) (live : Bool) :
    Alive ctx followed d (if live then A else 0) (if live then R else 0) C := by
  cases live with
  | true => exact h
  | false =>
    refine ⟨fun i hi => ?_, fun i hi ha => ?_, h.captures⟩
    · simp at hi
    · have ha' : (ctx.term i).deep = some 0 := by simpa using ha
      obtain ⟨h1, h2, -⟩ := h.regular i hi (Or.inr (Or.inr ha'))
      refine ⟨h1, h2, fun hr => ?_, fun p ho => ?_⟩
      · simp at hr
      · simp at ho

/-- The terms that share a depth with a live one and are not alive themselves. -/
theorem Alive.dead (h : Alive ctx followed d A R C) {i : Nat} (hi : i < ctx.n)
    (hr : ¬ (followed i ∧ (ctx.term i).Regular ∧ AliveAt (ctx.term i) d (A.has i) (R.has i))) :
    A.has i = false ∧ R.has i = false ∧ (ctx.term i).joins d (A.has i) (R.has i) = false := by
  have hno : ¬ (A.has i = true ∨ R.has i = true ∨ (ctx.term i).deep = some 0) :=
    fun ha => hr (h.regular i hi ha)
  simp only [not_or, Bool.not_eq_true] at hno
  refine ⟨hno.1, hno.2.1, ?_⟩
  simp [Term.joins, hno.1, hno.2.1, hno.2.2]

end Masks

/-! ## Before the key -/

/-- The first step of `lql_json_object` at a key: note a `...` that is reached here. -/
def preludeRec (ctx : Ctx) (s : State) (d : Nat) (A R : Mask) : State × Mask :=
  if ctx.hasRecursiveTerms then
    let (s, found) := matchRecursiveTerms ctx s A d
    (s, R ||| found ||| ctx.leadingRecursiveTerms)
  else (s, R)

/-- The terms whose segment is compared with the key. -/
def preludeActive (ctx : Ctx) (s : State) (d : Nat) (A : Mask) : Mask :=
  if ctx.hasArrayTerms then matchObjectTerms ctx s A d else A

/-- The terms that take any key. -/
def preludeWild (ctx : Ctx) (s : State) (d : Nat) (A : Mask) : State × Mask :=
  if ctx.hasObjectWildcards then matchObjectWildcards ctx s A d else (s, 0)

/-- The step for several `...`. -/
def preludeAnchor (ctx : Ctx) (s : State) (d : Nat) (active : Mask) : State × Mask :=
  if ctx.hasRepeatedRecursiveTerms then matchTerminalRecursiveAnchorTerms ctx s active d else (s, 0)

section Prelude

variable {ctx : Ctx} {followed : Nat → Prop} {d : Nat} {A R C : Mask} {s : State}

theorem any_false {ctx : Ctx} {p : Term → Bool} (h : ctx.terms.any p = false) {i : Nat}
    (hi : i < ctx.n) : p (ctx.term i) = false := by
  rw [List.any_eq_false] at h
  have hmem : ctx.term i ∈ ctx.terms := by
    rw [Ctx.term, List.getD_eq_getElem?_getD, List.getElem?_eq_getElem hi]
    exact List.getElem_mem hi
  simpa using h _ hmem

theorem termsWhere_has (hc : CtxRoom ctx) (p : Nat → Term → Bool) (i : Nat) :
    (termsWhere ctx p).has i = (decide (i < ctx.n) && p i (ctx.term i)) := maskOf_has_le hc.terms _ i

theorem leading_has (hc : CtxOk ctx) (i : Nat) :
    ctx.leadingRecursiveTerms.has i = (decide (i < ctx.n) && decide ((ctx.term i).deep = some 0)) := by
  rw [Ctx.leadingRecursiveTerms, maskOf_has_le hc.terms, deep_zero]

theorem found_has (hc : CtxOk ctx) (h : Alive ctx followed d A R C) (i : Nat) :
    (matchRecursiveTerms ctx s A d).2.has i =
      (decide (i < ctx.n) && (A.has i && decide ((ctx.term i).deep = some d))) := by
  have hreg : ∀ i < ctx.n, A.has i = true → (ctx.term i).pathRecursiveSegments.has d =
      decide ((ctx.term i).deep = some d) := fun i hi ha =>
    (h.regular i hi (Or.inl ha)).2.1.recursive_at d
  unfold matchRecursiveTerms
  split
  · next h64 =>
    rw [Mask.has_zero]
    by_cases hi : i < ctx.n
    · cases ha : A.has i with
      | false => simp
      | true =>
        rw [← hreg i hi ha, Mask.has_of_ge _ h64]
        simp
    · simp [hi]
  · dsimp only
    rw [termsWhere_has hc.room]
    by_cases hi : i < ctx.n
    · cases ha : A.has i with
      | false => simp
      | true => rw [hreg i hi ha]
    · simp [hi]

/-- The terms below their `...`, as the scanner finds them. -/
theorem preludeRec_mask (hc : CtxOk ctx) (h : Alive ctx followed d A R C) :
    (preludeRec ctx s d A R).2 = recTerms ctx d A R := by
  refine Mask.ext fun i => ?_
  rw [recTerms_has hc]
  have hR : i < ctx.n ∨ R.has i = false := by
    cases hr : R.has i with
    | false => exact Or.inr rfl
    | true => exact Or.inl (h.bound i (Or.inr hr))
  unfold preludeRec
  cases hrec : ctx.hasRecursiveTerms with
  | true =>
    rw [if_pos rfl]
    dsimp only
    rw [Mask.has_or, Mask.has_or, found_has hc h, leading_has hc]
    rcases hR with hi | hr
    · simp [hi, Term.joins]
    · by_cases hi : i < ctx.n <;> simp [hi, hr, Term.joins]
  | false =>
    rw [if_neg (by simp)]
    rcases hR with hi | hr
    · have hmask : (ctx.term i).pathRecursiveSegments = 0 := by
        simpa using any_false hrec hi
      have hdeep : (ctx.term i).deep = none := by
        rw [Term.deep, hmask]
        exact firstRecursive_none fun k => by simp
      simp [hi, Term.joins, hdeep]
    · by_cases hi : i < ctx.n
      · have hmask : (ctx.term i).pathRecursiveSegments = 0 := by
          simpa using any_false hrec hi
        have hdeep : (ctx.term i).deep = none := by
          rw [Term.deep, hmask]
          exact firstRecursive_none fun k => by simp
        simp [hi, hr, Term.joins, hdeep]
      · simp [hi, hr]

theorem matchRecursiveTerms_state (hc : CtxOk ctx) (h : Alive ctx followed d A R C)
    (hs : SlotsOk ctx followed s) :
    ∃ slots, (matchRecursiveTerms ctx s A d).1 = { s with recursiveTermSegment := slots } ∧
      SlotsOk ctx followed { s with recursiveTermSegment := slots } := by
  have hf := found_has (s := s) hc h
  unfold matchRecursiveTerms at hf ⊢
  split
  · exact ⟨s.recursiveTermSegment, rfl, hs⟩
  · next h64 =>
    rw [if_neg h64] at hf
    refine ⟨_, rfl, fun i hi hfol => ⟨fun p hp e => ?_, (hs i hi hfol).path⟩⟩
    dsimp only [setRow]
    split
    · next hrow =>
      rw [Bool.and_eq_true, hf] at hrow
      simp only [hi, decide_true, Bool.true_and, Bool.and_eq_true, decide_eq_true_eq] at hrow
      rw [hp.deep] at hrow
      cases hrow.2.2
      exact Or.inr rfl
    · exact (hs i hi hfol).term p hp e

theorem preludeRec_state (hc : CtxOk ctx) (h : Alive ctx followed d A R C)
    (hs : SlotsOk ctx followed s) :
    ∃ slots, (preludeRec ctx s d A R).1 = { s with recursiveTermSegment := slots } ∧
      SlotsOk ctx followed { s with recursiveTermSegment := slots } := by
  unfold preludeRec
  split
  · exact matchRecursiveTerms_state hc h hs
  · exact ⟨s.recursiveTermSegment, rfl, hs⟩

/-- The terms that look at the letters of a key. -/
theorem preludeActive_has (hc : CtxOk ctx) (h : Alive ctx followed d A R C)
    (hs : SlotsOk ctx followed s) (i : Nat) :
    (preludeActive ctx s d A).has i = (A.has i && !(ctx.term i).wild d) := by
  cases ha : A.has i with
  | false =>
    unfold preludeActive
    split
    · rw [matchObjectTerms, termsWhere_has hc.room]
      simp [ha]
    · simp [ha]
  | true =>
    have hi := h.bound i (Or.inl ha)
    obtain ⟨hf, hr, -⟩ := h.regular i hi (Or.inl ha)
    have hwild := Term.wild_eq hr.path d
    unfold preludeActive
    split
    · rw [matchObjectTerms, termsWhere_has hc.room]
      simp only [(hs i hi hf).activePath_self hr, hwild, ha, hi, decide_true, Bool.true_and]
      by_cases h64 : d ≥ wordBits
      · have : (ctx.term i).wild d = false := by
          rw [← hwild]
          exact Mask.has_of_ge _ h64
        simp [this]
      · simp [h64]
    · next hno =>
      have hmasks := any_false (Bool.eq_false_iff.mpr hno) hi
      simp only [Bool.or_eq_false_iff, decide_eq_false_iff_not, not_not] at hmasks
      rw [ha, ← hwild, hmasks.1.1.1.2, hmasks.1.1.2, hmasks.1.2, hmasks.2]
      simp

/-- Segment `d` takes any key. -/
def Term.anyKey (t : Term) (d : Nat) : Bool :=
  d < t.segments.length && (t.seg d = segObject || t.seg d = segAny)

theorem Term.anyKey_eq {t : Term} (hp : PathOk t) (d : Nat) :
    (t.pathObjectWildcards ||| t.pathAnyWildcards).has d = t.anyKey d := by
  simp only [Mask.has_or, hp.objectWildcards, hp.anyWildcards, Term.anyKey, Bool.and_or_distrib_left]

/-- The terms that take any key, noted with their segment. -/
theorem preludeWild_spec (hc : CtxOk ctx) (h : Alive ctx followed d A R C)
    (hs : SlotsOk ctx followed s) :
    ∃ segments, (preludeWild ctx s d A).1 = { s with m := { s.m with termSegment := segments } } ∧
      ∀ i, (preludeWild ctx s d A).2.has i = (A.has i && (ctx.term i).anyKey d) ∧
        ((A.has i && (ctx.term i).anyKey d) = true → segments i = d) := by
  have alive : ∀ i, A.has i = true → i < ctx.n ∧ followed i ∧ (ctx.term i).Regular := fun i ha =>
    have hi := h.bound i (Or.inl ha)
    have hr := h.regular i hi (Or.inl ha)
    ⟨hi, hr.1, hr.2.1⟩
  have far : 64 ≤ d → ∀ i, A.has i = true → (ctx.term i).anyKey d = false := fun h64 i ha => by
    rw [← Term.anyKey_eq (alive i ha).2.2.path]
    exact Mask.has_of_ge _ h64
  have none_found : (∀ i, A.has i = true → (ctx.term i).anyKey d = false) →
      ∀ i, (0 : Mask).has i = (A.has i && (ctx.term i).anyKey d) ∧
        ((A.has i && (ctx.term i).anyKey d) = true → s.m.termSegment i = d) := by
    intro hno i
    cases ha : A.has i with
    | false => simp
    | true => simp [hno i ha]
  unfold preludeWild
  split
  · unfold matchObjectWildcards
    split
    · next h64 => exact ⟨s.m.termSegment, rfl, none_found (far h64)⟩
    · next h64 =>
      have hfound : ∀ i, (termsWhere ctx fun i t => A.has i &&
          decide (activePathSegment s (ctx.term i) i d d < wordBits) &&
          (t.pathObjectWildcards ||| t.pathAnyWildcards).has (activePathSegment s (ctx.term i) i d d)).has
            i = (A.has i && (ctx.term i).anyKey d) := by
        intro i
        rw [termsWhere_has hc.room]
        cases ha : A.has i with
        | false => simp
        | true =>
          obtain ⟨hi, hf, hr⟩ := alive i ha
          rw [(hs i hi hf).activePath_self hr, Term.anyKey_eq hr.path]
          simp [hi, Nat.not_le.mp h64]
      refine ⟨_, rfl, fun i => ⟨hfound i, fun hw => ?_⟩⟩
      rw [Bool.and_eq_true] at hw
      obtain ⟨hi, hf, hr⟩ := alive i hw.1
      have hboth := Bool.and_eq_true_iff.mpr hw
      simp only [updWhere, hfound, hi, hboth, decide_true, Bool.and_self, if_true]
      exact (hs i hi hf).activePath_self hr d
  · next hno =>
    refine ⟨s.m.termSegment, rfl, none_found fun i ha => ?_⟩
    obtain ⟨hi, -, hr⟩ := alive i ha
    have hmasks := any_false (Bool.eq_false_iff.mpr hno) hi
    simp only [Bool.or_eq_false_iff, decide_eq_false_iff_not, not_not] at hmasks
    rw [← Term.anyKey_eq hr.path, hmasks.1, hmasks.2]
    simp

theorem setTermSegment_none (s : State) (segment : Nat → Nat) : setTermSegment ctx s 0 segment = s := by
  have : updWhere ctx.n (Mask.has 0) segment s.m.termSegment = s.m.termSegment := by
    funext i
    simp [updWhere]
  rw [setTermSegment, this]

/-- No regular term has several `...`. -/
theorem preludeAnchor_eq (hc : CtxOk ctx) (active : Mask)
    (h : ∀ i < ctx.n, active.has i = true → (ctx.term i).Regular) :
    preludeAnchor ctx s d active = (s, 0) := by
  have hzero : (termsWhere ctx fun i t => active.has i &&
      decide (t.pathRecursiveSegments &&& (t.pathRecursiveSegments - 1) ≠ 0) &&
      termTerminalRecursiveAnchor t d) = 0 := by
    refine Mask.eq_zero_iff.mpr fun i => ?_
    rw [termsWhere_has hc.room]
    by_cases hi : i < ctx.n
    · cases ha : active.has i with
      | false => simp
      | true => rw [decide_eq_false (not_not.mpr (h i hi ha).single)]; simp
    · simp [hi]
  unfold preludeAnchor
  split
  · unfold matchTerminalRecursiveAnchorTerms
    dsimp only
    rw [hzero, setTermSegment_none]
  · rfl

end Prelude

/-! ## One term and one key -/

section Hit

variable {t : Term} {d : Nat} {o r : Bool}

/-- A wildcard that a live term waits for leads it on. -/
theorem Term.anyKey_hit (ht : t.Regular) (ha : AliveAt t d o r) (ho : o = true)
    (hw : t.anyKey d = true) (key : Bytes) :
    ((o && t.ordKey d key) || (t.joins d o r && t.recKey key)) = true ∧
      t.hitSeg d (t.joins d o r) = d := by
  simp only [Term.anyKey, Bool.and_eq_true, decide_eq_true_eq, Bool.or_eq_true] at hw
  have hseg : segKey (t.seg d) key = true := by
    rcases hw.2 with h | h <;> simp [segKey, h]
  have hne : t.seg d ≠ segRecursive := by
    rcases hw.2 with h | h <;> rw [h] <;> decide
  rcases ht with ht | ⟨p, ht⟩
  · refine ⟨?_, ?_⟩
    · simp [ho, Term.ordKey, ht.fixed, hw.1, hseg]
    · simp [Term.hitSeg, ht.deep]
  rcases Nat.lt_trichotomy d p with hlt | heq | hgt
  · have hj : t.joins d o r = false := by
      cases hj : t.joins d o r with
      | false => rfl
      | true => exact absurd (ha.deep_le ht hj) (by omega)
    refine ⟨?_, ?_⟩
    · simp [ho, Term.ordKey, ht.fixed, hlt, hseg]
    · simp [Term.hitSeg, ht.deep, hj]
  · exact absurd (heq ▸ ht.here) hne
  · obtain ⟨hj, hl⟩ := ha.late p ho ht hgt
    have hlen : t.segments.length = p + 2 ∧ d = p + 1 := by
      rcases ht.last with h | h
      · omega
      · omega
    refine ⟨?_, ?_⟩
    · rw [hlen.2] at hseg
      simp [hj, Term.recKey, ht.deep, hseg]
    · simp [Term.hitSeg, ht.deep, hlen]

/-- A key leads a term on where its letters do, or where they do not matter. -/
theorem Term.hit_split (ht : t.Regular) (ha : AliveAt t d o r) (key : Bytes) :
    ((o && t.ordKey d key) || (t.joins d o r && t.recKey key)) =
      (((o && !t.wild d && t.ordKey d key) || (t.joins d o r && t.recKey key)) ||
        (o && t.anyKey d)) := by
  cases ho : o with
  | false => simp
  | true =>
    cases hany : t.anyKey d with
    | true =>
      have := (Term.anyKey_hit ht (ho ▸ ha) rfl hany key).1
      simp only [Bool.true_and] at this ⊢
      rw [this]
      simp
    | false =>
      cases hk : t.ordKey d key with
      | false => simp
      | true =>
        -- a segment that is compared one by one and names a key is a literal
        have hwild : t.wild d = false := by
          simp only [Term.ordKey, Bool.and_eq_true, decide_eq_true_eq] at hk
          have hlt := Nat.lt_of_lt_of_le hk.1 ht.fixed_le
          simp only [Term.anyKey, hlt, decide_true, Bool.true_and, Bool.or_eq_false_iff,
            decide_eq_false_iff_not] at hany
          have harr : t.seg d ≠ segArray := fun e => by
            have := hk.2
            rw [e] at this
            simp [segKey] at this
          simp [Term.wild, hany.1, hany.2, harr, ht.seg_ne hk.1]
        simp [hwild]

end Hit

/-! ## A key in the buffer -/

section Fast

variable {ctx : Ctx} {followed : Nat → Prop} {d : Nat} {A R C : Mask} {s : State}

/-- What the terms that look at the letters of a key make of it. -/
def letterTerms (ctx : Ctx) (d : Nat) (A R : Mask) (key : Bytes) : Mask :=
  maskOf ctx.n fun i => (A.has i && !(ctx.term i).wild d && (ctx.term i).ordKey d key) ||
    ((ctx.term i).joins d (A.has i) (R.has i) && (ctx.term i).recKey key)

theorem letterTerms_has (hc : CtxOk ctx) (key : Bytes) (i : Nat) :
    (letterTerms ctx d A R key).has i = (decide (i < ctx.n) &&
      ((A.has i && !(ctx.term i).wild d && (ctx.term i).ordKey d key) ||
        ((ctx.term i).joins d (A.has i) (R.has i) && (ctx.term i).recKey key))) :=
  maskOf_has_le hc.terms _ i

/-- With the terms that take any key these are all. -/
theorem letterTerms_or (hc : CtxOk ctx) (h : Alive ctx followed d A R C) {wildcards : Mask}
    (hw : ∀ i, wildcards.has i = (A.has i && (ctx.term i).anyKey d)) (key : Bytes) :
    letterTerms ctx d A R key ||| wildcards = keyTerms ctx d A R key := by
  refine Mask.ext fun i => ?_
  rw [Mask.has_or, letterTerms_has hc, keyTerms_has hc, hw]
  by_cases hi : i < ctx.n
  · by_cases hr : followed i ∧ (ctx.term i).Regular ∧ AliveAt (ctx.term i) d (A.has i) (R.has i)
    · rw [decide_eq_true hi, Bool.true_and, Bool.true_and]
      exact (Term.hit_split hr.2.1 hr.2.2 key).symm
    · obtain ⟨h1, h2, h3⟩ := h.dead hi hr
      rw [h3]
      simp [h1]
  · have : A.has i = false := by
      cases ha : A.has i with
      | false => rfl
      | true => exact absurd (h.bound i (Or.inl ha)) hi
    simp [hi, this]

/-- A round of the loop over the terms, for a term that is active. -/
theorem keyStep_spec (hc : CtxOk ctx) (h : Alive ctx followed d A R C) (hs : SlotsOk ctx followed s)
    {ordinary : Mask} (ho : ∀ i, ordinary.has i = (A.has i && !(ctx.term i).wild d)) (key : Bytes)
    {i : Nat} (hi : i < ctx.n) (hact : (ordinary ||| recTerms ctx d A R).has i = true) :
    StepOk (ctx.term i) d (A.has i) (R.has i) key
      ((if recTerms ctx d A R = 0 ∧ d = 0 then rootKeyStep ctx s key
        else plainKeyStep ctx s ordinary (recTerms ctx d A R) d key) i) := by
  have hrec : (recTerms ctx d A R).has i = (ctx.term i).joins d (A.has i) (R.has i) := by
    rw [recTerms_has hc, decide_eq_true hi, Bool.true_and]
  by_cases hr : followed i ∧ (ctx.term i).Regular ∧ AliveAt (ctx.term i) d (A.has i) (R.has i)
  · obtain ⟨hf, hreg, hal⟩ := hr
    rw [Mask.has_or] at hact
    split
    · next hroot =>
      obtain ⟨hz, rfl⟩ := hroot
      rw [hz, Mask.has_zero] at hrec hact
      rw [ho, Bool.or_false, Bool.and_eq_true, Bool.not_eq_true'] at hact
      exact rootKeyStep_spec hreg hal hact.1 hact.2 hrec.symm key
    · exact plainKeyStep_spec (hs i hi hf) hreg hal (ho i) hrec hact key
  · obtain ⟨h1, h2, h3⟩ := h.dead hi hr
    rw [Mask.has_or, ho, hrec, h1, ← h1, h3] at hact
    simp [h1] at hact

/-- **A key in the buffer**: the terms that look at letters, each with its segment. -/
theorem tryPlainKeyMatch_spec (hc : CtxOk ctx) (h : Alive ctx followed d A R C)
    (hs : SlotsOk ctx followed s) {ordinary : Mask}
    (ho : ∀ i, ordinary.has i = (A.has i && !(ctx.term i).wild d)) {key : Bytes}
    (hk : plainKey s.tape.input.buffer = some key) :
    ∃ segments k, tryPlainKeyMatch ctx s ordinary (recTerms ctx d A R) d =
        some ({ s with
          tape := { s.tape with input := s.tape.input.skip (key.length + 2) }
          m := { s.m with termSegment := segments } }, k) ∧
      k.matched = letterTerms ctx d A R key ∧ k.ordinary &&& k.recursive = 0 ∧
      ∀ i < ctx.n, segments i = if (letterTerms ctx d A R key).has i then
        (ctx.term i).hitSeg d ((ctx.term i).joins d (A.has i) (R.has i)) else s.m.termSegment i := by
  have hstep := fun i => keyStep_spec (i := i) hc h hs ho key
  unfold tryPlainKeyMatch
  rw [hk]
  dsimp only
  generalize (if recTerms ctx d A R = 0 ∧ d = 0 then rootKeyStep ctx s key
    else plainKeyStep ctx s ordinary (recTerms ctx d A R) d key) = step at hstep ⊢
  have hfound : ∀ (p : KeyStep → Bool) i, (maskOf ctx.n fun i =>
      (ordinary ||| recTerms ctx d A R).has i && p (step i)).has i =
      (decide (i < ctx.n) && ((ordinary ||| recTerms ctx d A R).has i && p (step i))) :=
    fun p i => maskOf_has_le hc.terms _ i
  have hmatched : (maskOf ctx.n fun i => (ordinary ||| recTerms ctx d A R).has i &&
      ((step i).ordinary || (step i).recursive)) = letterTerms ctx d A R key := by
    refine Mask.ext fun i => ?_
    rw [hfound fun k => k.ordinary || k.recursive, letterTerms_has hc]
    by_cases hi : i < ctx.n
    · simp only [hi, decide_true, Bool.true_and]
      cases hact : (ordinary ||| recTerms ctx d A R).has i with
      | true =>
        rw [Bool.true_and]
        exact (hstep i hi hact).hit
      | false =>
        rw [Mask.has_or, ho, recTerms_has hc, decide_eq_true hi, Bool.true_and,
          Bool.or_eq_false_iff] at hact
        rw [hact.1, hact.2]
        rfl
    · simp [hi]
  rw [hmatched]
  refine ⟨_, _, rfl, rfl, ?_, ?_⟩
  · refine Mask.eq_zero_iff.mpr fun i => ?_
    rw [Mask.has_and, hfound (·.ordinary), hfound (·.recursive)]
    by_cases hi : i < ctx.n
    · cases hact : (ordinary ||| recTerms ctx d A R).has i with
      | true =>
        simp only [hi, decide_true, Bool.true_and]
        exact (hstep i hi hact).one
      | false => simp
    · simp [hi]
  · intro i hi
    simp only [updWhere, hi, decide_true, Bool.true_and]
    split
    · next hin =>
      have hin' := hin
      rw [← hmatched, hfound fun k => k.ordinary || k.recursive, Bool.and_eq_true,
        Bool.and_eq_true] at hin'
      exact (hstep i hi hin'.2.1).seg hin'.2.2
    · rfl

end Fast

/-! ## A key read byte by byte -/

section Slow

variable {ctx : Ctx} {followed : Nat → Prop} {d : Nat} {A R C : Mask} {s : State}

theorem SlotsOk.congr {s' : State} (hs : SlotsOk ctx followed s)
    (h1 : s'.recursiveTermSegment = s.recursiveTermSegment)
    (h2 : s'.recursivePathSegment = s.recursivePathSegment) : SlotsOk ctx followed s' :=
  fun i hi hf => ⟨h1 ▸ (hs i hi hf).term, h2 ▸ (hs i hi hf).path⟩

/-- The segment whose letters a live term compares with a key. -/
def Term.startSeg (t : Term) (d : Nat) (letters : Bool) : Nat :=
  if letters then d else t.deep.getD 0 + 1

/-- The cursor at the start of a key: the live terms stand at the segment they compare. -/
theorem matchStartKey_spec (hc : CtxOk ctx) (h : Alive ctx followed d A R C)
    (hs : SlotsOk ctx followed s) {ordinary : Mask}
    (ho : ∀ i, ordinary.has i = (A.has i && !(ctx.term i).wild d)) :
    ∃ m, matchStartKey ctx s ordinary (recTerms ctx d A R) d = { s with m := m } ∧
      m.active = ordinary ||| recTerms ctx d A R ∧ m.key = true ∧ Fresh ctx m ∧ m.icontains = 0 ∧
      m.captureActive = s.m.captureActive ∧ m.captureFailed = s.m.captureFailed ∧
      m.capturePos = s.m.capturePos ∧ m.captureSegment = s.m.captureSegment ∧
      m.temporalActive = s.m.temporalActive ∧
      ∀ i < ctx.n, (m.active.has i = true →
          m.termSegment i = (ctx.term i).startSeg d (ordinary.has i)) ∧
        (m.active.has i = false → m.termSegment i = s.m.termSegment i) := by
  refine ⟨_, rfl, rfl, rfl, ⟨rfl, rfl, rfl, fun i hi ha => ?_⟩, ?_, rfl, rfl, rfl, rfl, rfl,
    fun i hi => ⟨fun ha => ?_, fun ha => ?_⟩⟩
  · have ha' : (ordinary ||| recTerms ctx d A R).has i = true := ha
    simp [matchStart, updWhere, hi, ha']
  · refine Mask.eq_zero_iff.mpr fun i => ?_
    show (maskOf ctx.n _).has i = false
    rw [maskOf_has]
    simp
  · have ha' : (ordinary ||| recTerms ctx d A R).has i = true := ha
    · have hrec : (recTerms ctx d A R).has i = (ctx.term i).joins d (A.has i) (R.has i) := by
        rw [recTerms_has hc, decide_eq_true hi, Bool.true_and]
      have hr : followed i ∧ (ctx.term i).Regular ∧ AliveAt (ctx.term i) d (A.has i) (R.has i) := by
        by_contra hr
        obtain ⟨h1, h2, h3⟩ := h.dead hi hr
        rw [Mask.has_or, ho, hrec, h3, h1] at ha'
        simp at ha'
      obtain ⟨hf, hreg, hal⟩ := hr
      simp only [updWhere, hi, decide_true, Bool.true_and, if_true, Term.startSeg]
      cases hord : ordinary.has i with
      | true => exact (hs i hi hf).activePath_self hreg d
      | false =>
        rw [Mask.has_or, hord, Bool.false_or] at ha'
        rw [hrec] at ha'
        rcases hreg with hreg | ⟨p, hreg⟩
        · rw [hal.shallow hreg] at ha'
          cases ha'
        · simp only [Bool.false_eq_true, if_false, hrec, ha', if_true,
            (hs i hi hf).activeRecursive hreg, hreg.next, hreg.deep, Option.getD_some]
  · have ha' : (ordinary ||| recTerms ctx d A R).has i = false := ha
    rw [Mask.has_or, Bool.or_eq_false_iff] at ha'
    simp [updWhere, matchStart, ha'.1, ha'.2]

/-- Where a live term compares letters. -/
theorem startSeg_compares {t : Term} {o r : Bool} (ht : t.Regular) (ha : AliveAt t d o r)
    {letters : Bool} (hl : letters = (o && !t.wild d))
    (hact : (letters || t.joins d o r) = true)
    (hk : t.startSeg d letters < t.segments.length) : t.compares d (t.startSeg d letters) := by
  refine ⟨hk, ?_⟩
  cases letters with
  | true =>
    rw [Eq.comm, Bool.and_eq_true, Bool.not_eq_true'] at hl
    refine Or.inl ⟨rfl, ?_⟩
    rcases ht with ht | ⟨p, ht⟩
    · rw [ht.fixed]
      exact hk
    · rw [ht.fixed]
      by_contra hle
      exact absurd (ha.late_end ht hl.1 (Nat.not_lt.mp hle) hl.2) (Nat.not_le.mpr hk)
  | false =>
    rw [Bool.false_or] at hact
    rcases ht with ht | ⟨p, ht⟩
    · rw [ha.shallow ht] at hact
      cases hact
    · refine Or.inr ⟨p, ht.deep, ha.deep_le ht hact, ?_⟩
      simp [Term.startSeg, ht.deep]

/-- The letters of a key, compared at the start segment, and the terms below their `...` that
do not need them. -/
theorem Term.letters_hit {t : Term} {o r : Bool} (ht : t.Regular) (ha : AliveAt t d o r)
    {letters : Bool} (hl : letters = (o && !t.wild d)) (key : Bytes) :
    (((letters || t.joins d o r) && (decide (t.startSeg d letters < t.segments.length) &&
        pointerSegmentEqual (t.seg (t.startSeg d letters)) key)) ||
      (t.joins d o r && (decide (t.segments.length = t.deep.getD 0 + 1) || t.anyKey (t.deep.getD 0 + 1)))) =
      ((o && !t.wild d && t.ordKey d key) || (t.joins d o r && t.recKey key)) := by
  rw [← hl]
  cases hj : t.joins d o r with
  | false =>
    cases hlet : letters with
    | false => simp
    | true =>
      rw [hlet, Eq.comm, Bool.and_eq_true, Bool.not_eq_true'] at hl
      have hfix : decide (d < t.fixed) = decide (d < t.segments.length) := by
        rcases ht with ht | ⟨p, ht⟩
        · rw [ht.fixed]
        · have h1 := ha.before ht hl.1 hj
          have h2 := ht.lt
          rw [ht.fixed, decide_eq_true h1, decide_eq_true (by omega)]
      simp only [Term.startSeg, if_true, Term.ordKey, hfix]
      by_cases hlt : d < t.segments.length
      · simp [hlt, Term.segKey_literal hlt hl.2]
      · simp [hlt]
  | true =>
    rcases ht with ht | ⟨p, ht⟩
    · rw [ha.shallow ht] at hj
      cases hj
    have hle := ha.deep_le ht hj
    have hord : t.ordKey d key = false := by
      rw [Term.ordKey, ht.fixed, decide_eq_false (by omega)]
      rfl
    have hrec : t.recKey key = (decide (t.segments.length = p + 1) || segKey (t.seg (p + 1)) key) := by
      simp [Term.recKey, ht.deep]
    simp only [hord, Bool.and_false, Bool.false_or, Bool.true_and, Bool.or_true, hrec, ht.deep,
      Option.getD_some]
    cases hlet : letters with
    | true =>
      rw [hlet, Eq.comm, Bool.and_eq_true, Bool.not_eq_true'] at hl
      have hend := ha.late_end ht hl.1 hle hl.2
      have hlt : p < d := by
        have := ht.lt
        omega
      simp only [Term.startSeg, if_true, decide_eq_false (Nat.not_lt.mpr hend), Bool.false_and,
        Bool.false_or]
      rcases (ha.late p hl.1 ht hlt).2 with hl1 | hany
      · simp [hl1]
      · rcases ht.last with h1 | h1
        · simp [h1]
        · simp [Term.anyKey, h1.1, hany, segKey]
    | false =>
      simp only [Term.startSeg, Bool.false_eq_true, if_false, ht.deep, Option.getD_some]
      rcases ht.last with h1 | h1
      · simp [h1]
      · have hne : t.seg (p + 1) ≠ segRecursive := fun e => by
          have := ht.only (p + 1) (by omega) e
          omega
        simp only [h1.1, show p + 1 < p + 2 by omega, decide_true, Bool.true_and, Term.anyKey,
          segKey]
        by_cases h2 : t.seg (p + 1) = segObject
        · simp [h2]
        by_cases h3 : t.seg (p + 1) = segAny
        · simp [h3]
        simp [h2, h3, h1.2.1, hne]

/-- The text a live term compares a key with. -/
theorem start_target (hc : CtxOk ctx) (h : Alive ctx followed d A R C) {ordinary : Mask}
    (ho : ∀ i, ordinary.has i = (A.has i && !(ctx.term i).wild d)) {m : Match}
    (hact : m.active = ordinary ||| recTerms ctx d A R)
    (hseg : ∀ i < ctx.n, m.active.has i = true →
      m.termSegment i = (ctx.term i).startSeg d (ordinary.has i))
    {i : Nat} (hi : i < ctx.n) (ha : m.active.has i = true) :
    followed i ∧ (ctx.term i).Regular ∧ AliveAt (ctx.term i) d (A.has i) (R.has i) ∧
      (ordinary.has i || (ctx.term i).joins d (A.has i) (R.has i)) = true ∧
      keyTarget ctx m i =
        if (ctx.term i).startSeg d (ordinary.has i) < (ctx.term i).segments.length then
          some ((ctx.term i).seg ((ctx.term i).startSeg d (ordinary.has i))) else none := by
  have ha' := ha
  rw [hact, Mask.has_or, recTerms_has hc, decide_eq_true hi, Bool.true_and] at ha'
  have hr : followed i ∧ (ctx.term i).Regular ∧ AliveAt (ctx.term i) d (A.has i) (R.has i) := by
    by_contra hr
    obtain ⟨h1, h2, h3⟩ := h.dead hi hr
    rw [ho, h3, h1] at ha'
    simp at ha'
  refine ⟨hr.1, hr.2.1, hr.2.2, ha', ?_⟩
  rw [keyTarget, hseg i hi ha, hr.2.1.path.target]

/-- A key may be cut anywhere: an escaped segment is compared alone. -/
theorem start_cuttable (hc : CtxOk ctx) (h : Alive ctx followed d A R C) {ordinary : Mask}
    (ho : ∀ i, ordinary.has i = (A.has i && !(ctx.term i).wild d)) {m : Match}
    (hact : m.active = ordinary ||| recTerms ctx d A R) (hkey : m.key = true) (hic : m.icontains = 0)
    (hcap : m.captureActive = C)
    (hseg : ∀ i < ctx.n, m.active.has i = true →
      m.termSegment i = (ctx.term i).startSeg d (ordinary.has i)) : Cuttable ctx m := by
  have compares : ∀ i < ctx.n, m.active.has i = true → ∀ target, keyTarget ctx m i = some target →
      ∃ k, (ctx.term i).compares d k ∧ target = (ctx.term i).seg k := by
    intro i hi ha target ht
    obtain ⟨-, hreg, hal, hlive, htarget⟩ := start_target hc h ho hact hseg hi ha
    rw [htarget] at ht
    split at ht
    · next hlt =>
      cases ht
      exact ⟨_, startSeg_compares hreg hal (ho i) hlive hlt, rfl⟩
    · cases ht
  refine ⟨hc.terms, hc.captures, ?_, fun _ i hi ha hb => ?_⟩
  · rw [hic]
    refine (Mask.eq_zero_iff.mpr fun i => ?_).symm
    rw [maskOf_has]
    simp [cased, hkey]
  · rw [Bulk, if_pos hkey] at hb
    simp only [not_forall] at hb
    obtain ⟨target, ht, hesc⟩ := hb
    rw [Bool.not_eq_false] at hesc
    obtain ⟨k, hk, rfl⟩ := compares i hi ha target ht
    obtain ⟨hterms, hcaps⟩ := hc.escapes i hi d k hk hesc
    refine ⟨?_, fun j hj haj hne => ?_⟩
    · rw [hcap]
      refine Mask.eq_zero_iff.mpr fun c => ?_
      cases hcc : C.has c with
      | false => rfl
      | true =>
        obtain ⟨h1, h2⟩ := h.captures c hcc
        exact absurd (hcaps c h1) (Nat.not_le.mpr h2)
    · cases htj : keyTarget ctx m j with
      | none => rfl
      | some target =>
        obtain ⟨k', hk', -⟩ := compares j hj haj target htj
        exact absurd hk' (hterms j hj hne k')

/-- Behind the key: the terms below their `...` that take any key. -/
theorem matchRecursiveObjectWildcards_spec (hc : CtxOk ctx) (h : Alive ctx followed d A R C)
    (hs : SlotsOk ctx followed s) :
    ∃ segments, (matchRecursiveObjectWildcards ctx s (recTerms ctx d A R) d).1 =
        { s with m := { s.m with termSegment := segments } } ∧
      (∀ i, ¬ i < ctx.n →
        (matchRecursiveObjectWildcards ctx s (recTerms ctx d A R) d).2.has i = false) ∧
      ∀ i < ctx.n, (matchRecursiveObjectWildcards ctx s (recTerms ctx d A R) d).2.has i =
          ((ctx.term i).joins d (A.has i) (R.has i) &&
            (decide ((ctx.term i).segments.length = (ctx.term i).deep.getD 0 + 1) ||
              (ctx.term i).anyKey ((ctx.term i).deep.getD 0 + 1))) ∧
        (segments i = s.m.termSegment i ∨
          ((ctx.term i).joins d (A.has i) (R.has i) = true ∧
            segments i = (ctx.term i).hitSeg d true)) ∧
        ((ctx.term i).joins d (A.has i) (R.has i) = true →
          (ctx.term i).segments.length ≠ (ctx.term i).deep.getD 0 + 1 →
          (ctx.term i).anyKey ((ctx.term i).deep.getD 0 + 1) = true →
          segments i = (ctx.term i).hitSeg d true) := by
  refine ⟨_, rfl, fun i hi => by
    simp [matchRecursiveObjectWildcards, termsWhere_has hc.room, hi], fun i hi => ?_⟩
  have hrec : (recTerms ctx d A R).has i = (ctx.term i).joins d (A.has i) (R.has i) := by
    rw [recTerms_has hc, decide_eq_true hi, Bool.true_and]
  dsimp only [matchRecursiveObjectWildcards, updWhere]
  simp only [Mask.has_or, termsWhere_has hc.room, hi, decide_true, Bool.true_and, hrec]
  cases hj : (ctx.term i).joins d (A.has i) (R.has i) with
  | false => simp
  | true =>
    have hr : followed i ∧ (ctx.term i).Regular ∧ AliveAt (ctx.term i) d (A.has i) (R.has i) := by
      by_contra hr
      have := (h.dead hi hr).2.2
      rw [hj] at this
      cases this
    obtain ⟨hf, hreg | ⟨p, hreg⟩, hal⟩ := hr
    · rw [hal.shallow hreg] at hj
      cases hj
    have hle := hal.deep_le hreg hj
    have hp := hreg.path
    simp only [(hs i hi hf).activeRecursive hreg, hreg.next, hreg.deep, hp.count, Option.getD_some,
      Option.isSome_some, Bool.and_true, Bool.true_and, decide_eq_true hle]
    rcases hreg.last with h1 | h1
    · simp [h1]
    · have hlen := h1.1
      have h64 : p + 1 < wordBits := by
        have := hp.le
        show p + 1 < 64
        omega
      have hne : (ctx.term i).seg (p + 1) ≠ segRecursive := fun e => by
        have := hreg.only (p + 1) (by omega) e
        omega
      have hseg := (hs i hi hf).activePath_tail hreg hlen d
      have hmask : ((ctx.term i).pathObjectWildcards.has (p + 1) ||
          (ctx.term i).pathAnyWildcards.has (p + 1) ||
          (ctx.term i).pathRecursiveSegments.has (p + 1)) = (ctx.term i).anyKey (p + 1) := by
        rw [← Mask.has_or, Term.anyKey_eq hp, hp.recursives, hlen]
        simp [hne]
      have hhit : (ctx.term i).hitSeg d true = p + 1 := by simp [Term.hitSeg, hreg.deep, hlen]
      simp only [hseg, hmask, hlen, h64, hhit, decide_true, Bool.true_and,
        show ¬ p + 2 ≤ p + 1 by omega, show ¬ p + 2 = p + 1 by omega, decide_false, Bool.false_or,
        Bool.not_false, ne_eq, not_false_eq_true, forall_const]
      cases hany : (ctx.term i).anyKey (p + 1) <;> simp

/-- The terms whose `...` is last and has been reached take the value here. -/
theorem matchTerminalRecursiveTerms_spec (hc : CtxOk ctx) (h : Alive ctx followed d A R C) :
    ∃ segments, (matchTerminalRecursiveTerms ctx s (recTerms ctx d A R) d).1 =
        { s with m := { s.m with termSegment := segments } } ∧
      (∀ i, ¬ i < ctx.n →
        (matchTerminalRecursiveTerms ctx s (recTerms ctx d A R) d).2.has i = false) ∧
      ∀ i < ctx.n, (matchTerminalRecursiveTerms ctx s (recTerms ctx d A R) d).2.has i =
          ((ctx.term i).joins d (A.has i) (R.has i) &&
            decide ((ctx.term i).segments.length = (ctx.term i).deep.getD 0 + 1)) ∧
        segments i = if (ctx.term i).joins d (A.has i) (R.has i) &&
            decide ((ctx.term i).segments.length = (ctx.term i).deep.getD 0 + 1) then d
          else s.m.termSegment i := by
  have hrec : ∀ i < ctx.n, (recTerms ctx d A R).has i = (ctx.term i).joins d (A.has i) (R.has i) :=
    fun i hi => by rw [recTerms_has hc, decide_eq_true hi, Bool.true_and]
  have hdeep : ∀ i < ctx.n, (ctx.term i).joins d (A.has i) (R.has i) = true →
      ∃ p, (ctx.term i).Deep p ∧ p ≤ d := by
    intro i hi hj
    have hr : followed i ∧ (ctx.term i).Regular ∧ AliveAt (ctx.term i) d (A.has i) (R.has i) := by
      by_contra hr
      rw [(h.dead hi hr).2.2] at hj
      cases hj
    obtain ⟨-, hreg | ⟨p, hreg⟩, hal⟩ := hr
    · rw [hal.shallow hreg] at hj
      cases hj
    · exact ⟨p, hreg, hal.deep_le hreg hj⟩
  have hterm : ∀ i < ctx.n, (recTerms ctx d A R &&& ctx.terminalRecursiveTerms).has i =
      ((ctx.term i).joins d (A.has i) (R.has i) &&
        decide ((ctx.term i).segments.length = (ctx.term i).deep.getD 0 + 1)) := by
    intro i hi
    rw [Mask.has_and, hrec i hi, Ctx.terminalRecursiveTerms, maskOf_has_le hc.terms,
      decide_eq_true hi, Bool.true_and]
    cases hj : (ctx.term i).joins d (A.has i) (R.has i) with
    | false => rfl
    | true =>
      obtain ⟨p, hp, -⟩ := hdeep i hi hj
      have hle := hp.path.le
      have hlt := hp.lt
      dsimp only
      rw [hp.path.count, hp.recursives, hp.deep, Bool.eq_iff_iff]
      simp only [Bool.true_and, Bool.and_eq_true, decide_eq_true_eq, ne_eq, Option.getD_some,
        show wordBits = 64 from rfl]
      omega
  unfold matchTerminalRecursiveTerms
  dsimp only
  split
  · next hz =>
    refine ⟨s.m.termSegment, rfl, fun i _ => Mask.has_zero i, fun i hi => ?_⟩
    rw [← hterm i hi, hz]
    simp
  · have hfound : ∀ i < ctx.n, (termsWhere ctx fun i t =>
        (recTerms ctx d A R &&& ctx.terminalRecursiveTerms).has i &&
          (List.range wordBits).any fun segment => t.pathRecursiveSegments.has segment &&
            decide (t.pathSegmentCount = segment + 1) && decide (d ≥ segment)).has i =
        ((ctx.term i).joins d (A.has i) (R.has i) &&
          decide ((ctx.term i).segments.length = (ctx.term i).deep.getD 0 + 1)) := by
      intro i hi
      rw [termsWhere_has hc.room, decide_eq_true hi, Bool.true_and, hterm i hi]
      cases hj : (ctx.term i).joins d (A.has i) (R.has i) with
      | false => rfl
      | true =>
        obtain ⟨p, hp, hle⟩ := hdeep i hi hj
        by_cases hl : (ctx.term i).segments.length = p + 1
        · have hany : ((List.range wordBits).any fun segment =>
              (ctx.term i).pathRecursiveSegments.has segment &&
              decide ((ctx.term i).pathSegmentCount = segment + 1) && decide (d ≥ segment)) = true := by
            rw [List.any_eq_true]
            refine ⟨p, List.mem_range.mpr hp.lt64, ?_⟩
            simp [hp.recursives, hp.path.count, hl, hle]
          rw [hany]
          simp
        · simp [hp.deep, hl]
    refine ⟨_, rfl, fun i hi => by simp [termsWhere_has hc.room, hi], fun i hi => ⟨hfound i hi, ?_⟩⟩
    dsimp only [updWhere]
    rw [hfound i hi]
    simp [hi]

end Slow

/-! ## The key -/

section Key

variable {ctx : Ctx} {followed : Nat → Prop} {d : Nat} {A R C : Mask} {s : State} {total : Nat}

/-- What `lql_json_object` does at a key once it knows whether the key lies in the buffer. -/
def keyAfter (ctx : Ctx) (d : Nat) (recursiveTerms active : Mask) (w : State × Mask) :
    Option (State × KeyMatch) → ScanM Member
  | some (s, k) => do
    let a := preludeAnchor ctx s d active
    set a.1
    return { key := { k with matched := k.matched ||| w.2 ||| a.2 }, recursiveTerms, captures := 0 }
  | none => do
    let s := { w.1 with m := captureStart ctx w.1.m (w.1.capturePathActive d) d }
    set (matchStartKey ctx s active recursiveTerms d)
    string ctx
    let s ← get
    let x := matchRecursiveObjectWildcards ctx s recursiveTerms d
    let y := matchTerminalRecursiveTerms ctx x.1 recursiveTerms d
    let a := preludeAnchor ctx y.1 d active
    set a.1
    return { key := { matched := matchComplete ctx s.m ||| w.2 ||| x.2 ||| y.2 ||| a.2 }
             recursiveTerms, captures := captureComplete ctx s.m }

theorem objectKey_eq (ctx : Ctx) (d : Nat) (s : State) :
    objectKey ctx d s =
      let live := s.flatEqActive && !stopHitReady ctx s.hits
      let A := if live then s.pathActive d else 0
      let R := if live then s.recursiveActive d else 0
      let r := preludeRec ctx s d A R
      let active := preludeActive ctx r.1 d A
      let w := preludeWild ctx r.1 d A
      keyAfter ctx d r.2 active w
        (if !ctx.capture && decide (w.1.capturePathActive d = 0) then
          tryPlainKeyMatch ctx w.1 active r.2 d else none) s := rfl

/-- A key that lies in the buffer is the string the parser reads. -/
theorem plainKey_string {t : Tape} {f : Flat} {key : Bytes} (h : Rel total t f)
    (hk : plainKey t.input.buffer = some key) :
    ∃ f', stringP f = some (plainStr key, f') ∧
      Rel total { t with input := t.input.skip (key.length + 2) } f' := by
  unfold plainKey at hk
  split at hk
  · cases hk
  next c rest hb =>
  split at hk
  · cases hk
  next hq =>
  have hq : c = chQuote := not_not.mp hq
  dsimp only at hk
  split at hk
  · next hend =>
    cases hk
    have hle := plainKeySpan_le rest
    have hlen : (rest.take (plainKeySpan rest)).length = plainKeySpan rest := by
      rw [List.length_take, Nat.min_eq_left hle]
    have hplain := plain_of_mem_span rest
    obtain ⟨hlt, hget⟩ := List.getElem?_eq_some_iff.mp hend
    have hsplit : rest = rest.take (plainKeySpan rest) ++
        chQuote :: rest.drop (plainKeySpan rest + 1) := by
      rw [← hget, ← List.drop_eq_getElem_cons hlt, List.take_append_drop]
    generalize rest.take (plainKeySpan rest) = key at hlen hplain hsplit ⊢
    generalize rest.drop (plainKeySpan rest + 1) = tail at hsplit
    have hbuf : t.input.buffer = chQuote :: (key ++ chQuote :: tail) := by rw [hb, hq, hsplit]
    have hskip : (t.input.skip (key.length + 2)).rest = tail ++ t.input.chunks.flatten := by
      have : t.input.buffer.drop (key.length + 2) = tail := by
        rw [hbuf, show chQuote :: (key ++ chQuote :: tail) = (chQuote :: key ++ [chQuote]) ++ tail by simp]
        exact List.drop_left' (by simp)
      simp [Input.rest, Input.skip, this]
    have hrest : f.rest = chQuote :: (key ++ (chQuote :: (tail ++ t.input.chunks.flatten))) := by
      rw [← h.rest, Input.rest, hbuf]
      simp
    refine ⟨{ f with rest := tail ++ t.input.chunks.flatten }, ?_, h.input (h.ok.skip _) hskip⟩
    rw [stringP, bind_eq (expectP_some hrest)]
    have hpieces := piecesP_plain ((tail ++ t.input.chunks.flatten).length + 1 + 1)
      (chQuote :: (tail ++ t.input.chunks.flatten)) f.compact key hplain
    have hfuel : (tail ++ t.input.chunks.flatten).length + 1 + 1 + key.length =
        (key ++ (chQuote :: (tail ++ t.input.chunks.flatten))).length + 1 := by
      simp only [List.length_append, List.length_cons]
      omega
    rw [hfuel] at hpieces
    refine hpieces.trans ?_
    rw [piecesP, bind_eq (takeP_cons rfl)]
    have hnp : isPlain chQuote = false := by decide
    rw [hnp]
    simp only [Bool.false_eq_true, if_false, if_true]
    show some (List.map Piece.plain key ++ [], _) = _
    rw [List.append_nil]
    rfl
  · cases hk

/-- What the key of a member leaves. -/
structure KeyRead (total : Nat) (ctx : Ctx) (followed : Nat → Prop) (d : Nat) (A R C : Mask)
    (s : State) (key : Str) (member : Member) (s' : State) (f' : Flat) : Prop where
  matched : member.key.matched = keyTerms ctx d A R key.text
  once : member.key.ordinary &&& member.key.recursive = 0
  recursive : member.recursiveTerms = recTerms ctx d A R
  captures : member.captures = keyCaptures ctx d C key.text
  segments : ∀ i < ctx.n, (keyTerms ctx d A R key.text).has i = true →
    s'.m.termSegment i = (ctx.term i).hitSeg d ((ctx.term i).joins d (A.has i) (R.has i))
  state : s' = { s with
    tape := s'.tape
    m := s'.m
    recursiveTermSegment := s'.recursiveTermSegment }
  dates : s'.m.temporalActive = s.m.temporalActive
  slots : SlotsOk ctx followed s'
  rel : Rel total s'.tape f'
  step : Step s.tape s'.tape (emitted ctx ([chQuote] ++ key.raw ++ [chQuote]))

/-- A key in the buffer, in full. -/
theorem keyAfter_plain (hc : CtxOk ctx) (h : Alive ctx followed d A R 0)
    (hs : SlotsOk ctx followed s) {f : Flat} (hrel : Rel total s.tape f) {wildcards active : Mask}
    (hact : ∀ i, active.has i = (A.has i && !(ctx.term i).wild d))
    (hw : ∀ i, wildcards.has i = (A.has i && (ctx.term i).anyKey d) ∧
      ((A.has i && (ctx.term i).anyKey d) = true → s.m.termSegment i = d))
    (hcap : ctx.capture = false) {key : Bytes} (hk : plainKey s.tape.input.buffer = some key)
    (s0 : State) :
    ∃ member s' f', keyAfter ctx d (recTerms ctx d A R) active (s, wildcards)
        (tryPlainKeyMatch ctx s active (recTerms ctx d A R) d) s0 = .ok member s' ∧
      stringP f = some (plainStr key, f') ∧
      KeyRead total ctx followed d A R 0 s (plainStr key) member s' f' := by
  obtain ⟨f', hstr, hrel'⟩ := plainKey_string hrel hk
  obtain ⟨segments, k, hplain, hmatched, honce, hsegs⟩ := tryPlainKeyMatch_spec hc h hs hact hk
  have hreg : ∀ i < ctx.n, active.has i = true → (ctx.term i).Regular := fun i hi ha => by
    rw [hact, Bool.and_eq_true] at ha
    exact (h.regular i hi (Or.inl ha.1)).2.1
  rw [hplain]
  dsimp only [keyAfter]
  rw [preludeAnchor_eq hc _ hreg, set_bind]
  refine ⟨_, _, f', rfl, hstr, ?_⟩
  have hall : k.matched ||| wildcards ||| 0 = keyTerms ctx d A R key := by
    rw [hmatched, letterTerms_or hc h (fun i => (hw i).1)]
    simp
  refine ⟨by rw [text_plainStr]; exact hall, honce, rfl, ?_, fun i hi hin => ?_, rfl, rfl,
    hs.congr rfl rfl, hrel', ?_⟩
  · refine (Mask.eq_zero_iff.mpr fun i => ?_).symm
    rw [keyCaptures, maskOf_has]
    simp
  · rw [text_plainStr, ← letterTerms_or hc h (fun i => (hw i).1), Mask.has_or, (hw i).1] at hin
    dsimp only
    rw [hsegs i hi]
    split
    · rfl
    · next hno =>
      rw [Bool.not_eq_true] at hno
      rw [hno, Bool.false_or] at hin
      have hin' := Bool.and_eq_true_iff.mp hin
      obtain ⟨-, hr, hal⟩ := h.regular i hi (Or.inl hin'.1)
      rw [(hw i).2 hin]
      exact (Term.anyKey_hit hr hal hin'.1 hin'.2 key).2.symm
  · have : emitted ctx ([chQuote] ++ (plainStr key).raw ++ [chQuote]) = [] := by simp [emitted, hcap]
    rw [this]
    exact step_input _ _

/-- The segment that a key read byte by byte leaves for a term it leads on: the last of the
steps that set it was the right one. -/
theorem hitSeg_found {t : Term} {o r letters : Bool} {key : Bytes} {seg start : Nat} (ht : t.Regular)
    (ha : AliveAt t d o r) (hl : letters = (o && !t.wild d))
    (hhit : ((o && t.ordKey d key) || (t.joins d o r && t.recKey key)) = true)
    (hseg : seg = start ∨ (t.joins d o r = true ∧ seg = t.hitSeg d true))
    (hany : t.joins d o r = true → t.segments.length ≠ t.deep.getD 0 + 1 →
      t.anyKey (t.deep.getD 0 + 1) = true → seg = t.hitSeg d true)
    (hstart : (letters || t.joins d o r) = true → start = t.startSeg d letters)
    (hwild : (letters || t.joins d o r) = false → (o && t.anyKey d) = true → start = d) :
    (if t.joins d o r && decide (t.segments.length = t.deep.getD 0 + 1) then d else seg) =
      t.hitSeg d (t.joins d o r) := by
  cases hj : t.joins d o r with
  | false =>
    rw [hj] at hseg hstart hwild
    have hseg' : seg = start := by simpa using hseg
    have hhitSeg : t.hitSeg d false = d := by
      unfold Term.hitSeg
      cases t.deep <;> simp
    rw [hhitSeg, hseg']
    cases hlet : letters with
    | true => simpa [hlet, Term.startSeg] using hstart
    | false =>
      -- a wildcard, noted before the key was read
      have hsplit := Term.hit_split ht ha key
      rw [hhit, ← hl, hlet, hj] at hsplit
      simp only [Bool.false_and, Bool.or_false, Bool.false_or] at hsplit
      simpa [hlet] using hwild (by rw [hlet]; rfl) hsplit.symm
  | true =>
    rw [hj] at hseg hany hstart
    rcases ht with ht | ⟨p, ht⟩
    · rw [ha.shallow ht] at hj
      cases hj
    have hle := ha.deep_le ht hj
    simp only [ht.deep, Option.getD_some] at hany ⊢
    rcases ht.last with h1 | h1
    · simp [h1, Term.hitSeg, ht.deep]
    · have hne : t.segments.length ≠ p + 1 := by omega
      rw [decide_eq_false hne, Bool.and_false, if_neg (by simp)]
      rcases hseg with hs | hs
      · cases hlet : letters with
        | false =>
          rw [hs, hstart (by simp), hlet]
          simp [Term.startSeg, Term.hitSeg, ht.deep, hne]
        | true =>
          -- a term that still compares segment `d` has nothing left, or `**`
          rw [hlet, Eq.comm, Bool.and_eq_true, Bool.not_eq_true'] at hl
          have hend := ha.late_end ht hl.1 hle hl.2
          rcases (ha.late p hl.1 ht (by omega)).2 with h2 | h2
          · exact absurd h2 hne
          · exact hany trivial hne (by simp [Term.anyKey, h1.1, h2])
      · exact hs.2

theorem or_rearrange (c w j l a : Bool) :
    (c || w || (j && (l || a)) || (j && l)) = (c || (j && (l || a)) || w) := by
  cases c <;> cases w <;> cases j <;> cases l <;> cases a <;> rfl

/-- A key read byte by byte, in full. -/
theorem keyAfter_bytes (hc : CtxOk ctx) (h : Alive ctx followed d A R C)
    (hs : SlotsOk ctx followed s) {f : Flat} (hrel : Rel total s.tape f) {wildcards active : Mask}
    (hact : ∀ i, active.has i = (A.has i && !(ctx.term i).wild d))
    (hw : ∀ i, wildcards.has i = (A.has i && (ctx.term i).anyKey d) ∧
      ((A.has i && (ctx.term i).anyKey d) = true → s.m.termSegment i = d))
    (hC : s.capturePathActive d = C) (s0 : State) :
    Sim JsonFault (keyAfter ctx d (recTerms ctx d A R) active (s, wildcards) none) stringP s0 f
      fun member s' key f' => KeyRead total ctx followed d A R C s key member s' f' := by
  have hreg : ∀ i < ctx.n, active.has i = true → (ctx.term i).Regular := fun i hi ha => by
    rw [hact, Bool.and_eq_true] at ha
    exact (h.regular i hi (Or.inl ha.1)).2.1
  dsimp only [keyAfter]
  rw [hC]
  have hs1 : SlotsOk ctx followed { s with m := captureStart ctx s.m C d } := hs.congr rfl rfl
  obtain ⟨m, hm, mact, mkey, mfresh, mic, mcap, mcapf, mcapp, mcaps, mtemp, mseg⟩ :=
    matchStartKey_spec hc h hs1 hact
  have hcut : Cuttable ctx m := start_cuttable hc h hact mact mkey mic mcap
    fun i hi ha => (mseg i hi).1 ha
  rw [hm]
  refine Sim.bind_left (a := ⟨⟩) (r := { s with m := m }) rfl ?_
  have hstr := string_sim ctx (s := { s with m := m }) hrel
  refine Sim.bind (q := pure) hstr (fun _ s2 key f2 _ hq => ?_) |>.congr rfl (by
    show stringP f = (stringP f).bind _
    cases stringP f <;> rfl)
  obtain ⟨m2, hfeed, hfed⟩ := hq
  refine Sim.bind_left (a := s2) rfl ?_
  have hslots : SlotsOk ctx followed s2 := hs.congr (by rw [hfed.state]) (by rw [hfed.state])
  have hseen := mfresh.seen hcut hfeed
  have hsame := hseen.same
  obtain ⟨xsegs, ex, hxout, hx⟩ := matchRecursiveObjectWildcards_spec hc h hslots
  obtain ⟨ysegs, ey, hyout, hy⟩ := matchTerminalRecursiveTerms_spec
    (s := (matchRecursiveObjectWildcards ctx s2 (recTerms ctx d A R) d).1) hc h
  rw [preludeAnchor_eq hc _ hreg]
  have hcomplete : ∀ i < ctx.n, (matchComplete ctx m2).has i =
      ((active.has i || (ctx.term i).joins d (A.has i) (R.has i)) &&
        (decide ((ctx.term i).startSeg d (active.has i) < (ctx.term i).segments.length) &&
          pointerSegmentEqual ((ctx.term i).seg ((ctx.term i).startSeg d (active.has i))) key.text)) := by
    intro i hi
    have hlive : m.active.has i = (active.has i || (ctx.term i).joins d (A.has i) (R.has i)) := by
      rw [mact, Mask.has_or, recTerms_has hc, decide_eq_true hi, Bool.true_and]
    cases ha : m.active.has i with
    | false =>
      rw [← hlive, ha, matchComplete_inactive (by rw [hsame.active]; exact ha)]
      rfl
    | true =>
      have htarget := (start_target hc h hact mact (fun i hi ha => (mseg i hi).1 ha) hi ha).2.2.2.2
      rw [matchComplete_key hseen hcut mkey hi ha, htarget, ← hlive, ha]
      split
      · next heq =>
        split at heq
        · cases heq
        · next hlt => simp [hlt]
      · next heq =>
        split at heq
        · next hlt =>
          cases heq
          simp [hlt]
        · cases heq
  have hall : matchComplete ctx s2.m ||| wildcards |||
      (matchRecursiveObjectWildcards ctx s2 (recTerms ctx d A R) d).2 |||
      (matchTerminalRecursiveTerms ctx (matchRecursiveObjectWildcards ctx s2 (recTerms ctx d A R) d).1
        (recTerms ctx d A R) d).2 ||| 0 = keyTerms ctx d A R key.text := by
    rw [← letterTerms_or hc h (fun i => (hw i).1)]
    refine Mask.ext fun i => ?_
    rw [hfed.m]
    simp only [Mask.has_or, Mask.has_zero, Bool.or_false, letterTerms_has hc]
    by_cases hi : i < ctx.n
    · rw [hcomplete i hi, (hx i hi).1, (hy i hi).1, decide_eq_true hi, Bool.true_and]
      by_cases hr : followed i ∧ (ctx.term i).Regular ∧ AliveAt (ctx.term i) d (A.has i) (R.has i)
      · rw [← Term.letters_hit hr.2.1 hr.2.2 (hact i) key.text]
        exact or_rearrange _ _ _ _ _
      · obtain ⟨h1, h2, h3⟩ := h.dead hi hr
        rw [hact i, h3]
        simp [h1]
    · rw [hxout i hi, hyout i hi, matchComplete, maskOf_has]
      simp [hi]
  have hend : (matchTerminalRecursiveTerms ctx (matchRecursiveObjectWildcards ctx s2
      (recTerms ctx d A R) d).1 (recTerms ctx d A R) d).1 =
      { s with tape := s2.tape, m := { m2 with termSegment := ysegs } } := by
    rw [ey, ex, hfed.state]
  refine Sim.of_some rfl rfl ⟨hall, by simp, rfl, ?_, fun i hi hin => ?_, ?_, ?_, ?_, ?_, ?_⟩
  · refine Mask.ext fun i => ?_
    have hcaps := hfeed.captures_start hcut mkey mcapf fun i hi ha => by
      rw [mcap] at ha
      have ha' : C.has i = true := ha
      rw [mcapp]
      simp [captureStart, updWhere, hi, ha']
    rw [hfed.m, captureComplete_key hcaps hc.captures, mcap, mcaps, keyCaptures,
      maskOf_has_le hc.captures]
    by_cases hi : i < ctx.captureKeys.length
    · cases hCi : C.has i <;> simp [captureStart, updWhere, hi, hCi]
    · simp [hi]
  · dsimp only
    rw [hend]
    dsimp only
    rw [(hy i hi).2, ex]
    dsimp only
    have hmseg : s2.m.termSegment i = m.termSegment i := by rw [hfed.m, hsame.termSegment]
    have hlive : m.active.has i = (active.has i || (ctx.term i).joins d (A.has i) (R.has i)) := by
      rw [mact, Mask.has_or, recTerms_has hc, decide_eq_true hi, Bool.true_and]
    rw [keyTerms_has hc, decide_eq_true hi, Bool.true_and] at hin
    have hr : followed i ∧ (ctx.term i).Regular ∧ AliveAt (ctx.term i) d (A.has i) (R.has i) := by
      by_contra hr
      obtain ⟨h1, -, h3⟩ := h.dead hi hr
      rw [h3, h1] at hin
      simp at hin
    refine hitSeg_found hr.2.1 hr.2.2 (hact i) hin (hmseg ▸ (hx i hi).2.1) (hx i hi).2.2 ?_ ?_
    · intro hl
      exact (mseg i hi).1 (hlive.trans hl)
    · intro hl hany
      rw [(mseg i hi).2 (hlive.trans hl)]
      exact (hw i).2 hany
  · dsimp only
    rw [hend]
  · dsimp only
    rw [hend]
    exact hsame.temporalActive.trans mtemp
  · dsimp only
    rw [hend]
    exact hs.congr rfl rfl
  · dsimp only
    rw [hend]
    exact hfed.rel
  · dsimp only
    rw [hend]
    exact hfed.step

/-- **The key of a member** is the parser's string, and which terms and captures it leads on
does not depend on how it was read. -/
theorem objectKey_sim (hc : CtxOk ctx) {live : Bool}
    (hlive : live = (s.flatEqActive && !stopHitReady ctx s.hits))
    (h : Alive ctx followed d (s.pathActive d) (s.recursiveActive d) (s.capturePathActive d))
    (hs : SlotsOk ctx followed s) {f : Flat} (hrel : Rel total s.tape f) :
    Sim JsonFault (objectKey ctx d) stringP s f fun member s' key f' =>
      KeyRead total ctx followed d (if live then s.pathActive d else 0)
        (if live then s.recursiveActive d else 0) (s.capturePathActive d) s key member s' f' := by
  have hal := h.gate live
  refine Sim.congr (x := keyAfter ctx d _ _ _ _) ?_ (objectKey_eq ctx d s) rfl
  rw [← hlive]
  generalize (if live = true then s.pathActive d else 0) = A at hal ⊢
  generalize (if live = true then s.recursiveActive d else 0) = R at hal ⊢
  obtain ⟨slots, e1, hs1⟩ := preludeRec_state hc hal hs
  rw [preludeRec_mask hc hal, e1]
  have hact := preludeActive_has hc hal hs1
  obtain ⟨segments, e2, hw⟩ := preludeWild_spec hc hal hs1
  generalize preludeActive ctx { s with recursiveTermSegment := slots } d A = active at hact ⊢
  rw [show preludeWild ctx { s with recursiveTermSegment := slots } d A =
    ((preludeWild ctx { s with recursiveTermSegment := slots } d A).1,
      (preludeWild ctx { s with recursiveTermSegment := slots } d A).2) from rfl, e2]
  generalize (preludeWild ctx { s with recursiveTermSegment := slots } d A).2 = wildcards at hw ⊢
  have hs2 : SlotsOk ctx followed { s with
      m := { s.m with termSegment := segments }, recursiveTermSegment := slots } := hs1.congr rfl rfl
  have weaken : ∀ {member : Member} {s' : State} {key : Str} {f' : Flat},
      KeyRead total ctx followed d A R (s.capturePathActive d) { s with
        m := { s.m with termSegment := segments }, recursiveTermSegment := slots } key member s' f' →
      KeyRead total ctx followed d A R (s.capturePathActive d) s key member s' f' := by
    intro member s' key f' hk
    exact ⟨hk.matched, hk.once, hk.recursive, hk.captures, hk.segments, by rw [hk.state], hk.dates,
      hk.slots, hk.rel, hk.step⟩
  have slow := keyAfter_bytes hc hal hs2 (f := f) hrel hact hw rfl s
  dsimp only
  split
  · next hfast =>
    rw [Bool.and_eq_true, Bool.not_eq_true', decide_eq_true_eq] at hfast
    cases hk : plainKey s.tape.input.buffer with
    | none =>
      have : tryPlainKeyMatch ctx { s with
          m := { s.m with termSegment := segments }, recursiveTermSegment := slots } active
          (recTerms ctx d A R) d = none := by
        rw [tryPlainKeyMatch, hk]
      rw [this]
      exact slow.mono fun _ _ _ _ => weaken
    | some key =>
      have hC : s.capturePathActive d = 0 := hfast.2
      rw [hC] at hal
      obtain ⟨member, s', f', hx, hstr, hread⟩ :=
        keyAfter_plain hc hal hs2 (f := f) hrel hact hw hfast.1 hk s
      refine Sim.of_some hstr hx (weaken ?_)
      rw [hC]
      exact hread
  · exact slow.mono fun _ _ _ _ => weaken

end Key

end Lql.Scan
