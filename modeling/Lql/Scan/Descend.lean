import Lql.Scan.Walk

/-!
# Handing terms on

From a key or an index to the value behind it. The scanner keeps, for each term that has
matched, the segment it has matched with, and asks from there whether the value is the term's
and whether the term goes on. For regular terms the answers are those of the walk, and the
terms handed on are alive one level deeper.
-/

namespace Lql.Scan

open Lib Json

/-! ## One term -/

section Term

variable {t : Term} {d : Nat} {o r : Bool}

/-- Where a term that has matched stands: at its value or not. -/
theorem Term.value_of_hit (ht : t.Regular) (ha : AliveAt t d o r) (ok rk : Bool)
    (hok : ok = true → d < t.fixed) :
    (((o && ok) || (t.joins d o r && rk)) && termValueAt t (t.hitSeg d (t.joins d o r))) =
      ((o && ok && t.ordValue d) || (t.joins d o r && rk)) := by
  rcases ht with ht | ⟨p, ht⟩
  · have hj := ha.shallow ht
    simp [hj, Term.hitSeg, Term.ordValue, ht.deep, ht.valueAt]
  cases hj : t.joins d o r with
  | true =>
    have hle := ha.deep_le ht hj
    have hno : ok = false := by
      cases hk : ok with
      | false => rfl
      | true =>
        have := hok hk
        rw [ht.fixed] at this
        omega
    have hat : termValueAt t (t.hitSeg d true) = true := by
      rcases ht.last with hl | hl
      · rw [Term.hitSeg, ht.deep, ht.valueAt_last hl]
        simp [hl]
        omega
      · rw [Term.hitSeg, ht.deep, ht.valueAt_tail hl.1]
        simp [hl.1]
    simp [hno, hat]
  | false =>
    cases ho : o with
    | false => simp
    | true =>
      have hlt := ha.before ht ho hj
      have hat : termValueAt t (t.hitSeg d false) = t.ordValue d := by
        have hseg : t.hitSeg d false = d := by simp [Term.hitSeg, ht.deep]
        rw [hseg, Term.ordValue, ht.deep, Bool.eq_iff_iff]
        rcases ht.last with hl | hl
        · rw [ht.valueAt_last hl, hl]
          simp only [decide_eq_true_eq, Bool.or_eq_true, Bool.and_eq_true, Option.some.injEq]
          omega
        · rw [ht.valueAt_tail hl.1, hl.1]
          simp only [decide_eq_true_eq, Bool.or_eq_true, Bool.and_eq_true, Option.some.injEq]
          omega
      simp [hat]

/-- Whether a term that has matched goes on. -/
theorem Term.below_of_hit (ht : t.Regular) (ha : AliveAt t d o r) (ok rk : Bool)
    (hok : ok = true → d < t.fixed) :
    (((o && ok) || (t.joins d o r && rk)) &&
      !(termValueAt t (t.hitSeg d (t.joins d o r)) &&
        !termTerminalRecursiveAnchor t (t.hitSeg d (t.joins d o r))) &&
      (termPathSegment t (t.hitSeg d (t.joins d o r) + 1)).isSome) =
      (o && ok && decide (d + 1 < t.segments.length)) := by
  have hnext : ∀ k, (termPathSegment t k).isSome = decide (k < t.segments.length) := fun k => by
    rw [ht.path.segment]
    split
    · next h => rw [decide_eq_true h]; rfl
    · next h => rw [decide_eq_false h]; rfl
  rw [hnext]
  rcases ht with ht | ⟨p, ht⟩
  · have hj := ha.shallow ht
    have hseg : t.hitSeg d false = d := by simp [Term.hitSeg, ht.deep]
    rw [hj, hseg, ht.valueAt, ht.anchor, Bool.eq_iff_iff]
    simp only [Bool.false_and, Bool.or_false, Bool.not_false, Bool.and_true, Bool.and_eq_true,
      Bool.not_eq_true', decide_eq_false_iff_not, decide_eq_true_eq]
    constructor
    · rintro ⟨⟨h1, -⟩, h2⟩
      exact ⟨h1, h2⟩
    · rintro ⟨h1, h2⟩
      exact ⟨⟨h1, by omega⟩, h2⟩
  cases hj : t.joins d o r with
  | true =>
    have hle := ha.deep_le ht hj
    have hno : ok = false := by
      cases hk : ok with
      | false => rfl
      | true =>
        have := hok hk
        rw [ht.fixed] at this
        omega
    have hstop : (termValueAt t (t.hitSeg d true) && !termTerminalRecursiveAnchor t (t.hitSeg d true)) =
        true := by
      rw [ht.anchor]
      rcases ht.last with hl | hl
      · have hseg : t.hitSeg d true = d := by simp [Term.hitSeg, ht.deep, hl]
        rw [hseg, ht.valueAt_last hl, hl, Bool.eq_iff_iff]
        simp only [Bool.and_eq_true, decide_eq_true_eq, Bool.not_eq_true', Bool.and_eq_false_iff,
          decide_eq_false_iff_not, iff_true]
        omega
      · have hseg : t.hitSeg d true = p + 1 := by simp [Term.hitSeg, ht.deep, hl.1]
        rw [hseg, ht.valueAt_tail hl.1, hl.1]
        simp
    simp [hno, hstop]
  | false =>
    cases ho : o with
    | false => simp
    | true =>
      have hlt := ha.before ht ho hj
      have hgt := ht.lt
      have hseg : t.hitSeg d false = d := by simp [Term.hitSeg, ht.deep]
      have hgo : (termValueAt t d && !termTerminalRecursiveAnchor t d) = false := by
        rw [ht.anchor]
        rcases ht.last with hl | hl
        · rw [ht.valueAt_last hl, hl]
          by_cases he : d + 1 = p
          · simp [he]
          · simp only [he, decide_true, decide_false, Bool.and_false, Bool.not_false, Bool.and_true,
              decide_eq_false_iff_not]
            omega
        · rw [ht.valueAt_tail hl.1, decide_eq_false (by omega)]
          rfl
      rw [hseg, hgo]
      simp

/-- The flags one level below a key. -/
theorem AliveAt.key (ht : t.Regular) (ha : AliveAt t d o r) (key : Bytes) :
    AliveAt t (d + 1) (t.belowKey d o key) (t.joins d o r) := by
  refine ⟨fun hj => ?_, fun p ho hp hlt => ?_⟩
  · rcases ht with ht | ⟨p, ht⟩
    · rw [ha.shallow ht] at hj
      cases hj
    · exact ⟨p, ht, Nat.le_succ_of_le (ha.deep_le ht hj)⟩
  · -- below its `...` a key leaves no term waiting
    simp only [Term.belowKey, Term.ordKey, hp.fixed, Bool.and_eq_true, decide_eq_true_eq] at ho
    omega

theorem segIndex_recursive (index : Nat) : segIndex segRecursive index = false := by
  have : isNumeric segRecursive = false := by decide
  simp [segIndex, this]

/-- The index named by segment `d`, whether or not that is behind the `...`. -/
def Term.directIndex (t : Term) (d index : Nat) : Bool :=
  d < t.segments.length && segIndex (t.seg d) index

/-- A live term whose segment `d` names the index is led on, with segment `d`. -/
theorem Term.direct_hit (ht : t.Regular) (ha : AliveAt t d o r) (ho : o = true) {index : Nat}
    (hd : t.directIndex d index = true) :
    t.atIndex d o r index = true ∧ t.hitSeg d (t.joins d o r) = d := by
  simp only [Term.directIndex, Bool.and_eq_true, decide_eq_true_eq] at hd
  rcases ht with ht | ⟨p, ht⟩
  · have hj := ha.shallow ht
    refine ⟨?_, by simp [Term.hitSeg, ht.deep]⟩
    simp [Term.atIndex, Term.ordIndex, ho, ht.fixed, hd.1, hd.2]
  rcases Nat.lt_trichotomy d p with hlt | heq | hgt
  · have hj : t.joins d o r = false := by
      cases hj : t.joins d o r with
      | false => rfl
      | true => exact absurd (ha.deep_le ht hj) (by omega)
    refine ⟨?_, by simp [Term.hitSeg, ht.deep, hj]⟩
    simp [Term.atIndex, Term.ordIndex, ho, ht.fixed, hlt, hd.2]
  · rw [heq, ht.here, segIndex_recursive] at hd
    exact absurd hd.2 (by simp)
  · obtain ⟨hj, hl⟩ := ha.late p ho ht hgt
    have hlen : t.segments.length = p + 2 ∧ d = p + 1 := by
      rcases ht.last with h | h
      · omega
      · omega
    refine ⟨?_, by simp [Term.hitSeg, ht.deep, hlen]⟩
    rw [hlen.2] at hd
    simp [Term.atIndex, hj, Term.recIndex, ht.deep, hd.2]

theorem Term.atIndex_split (ht : t.Regular) (ha : AliveAt t d o r) (index : Nat) :
    t.atIndex d o r index =
      ((o && t.directIndex d index) || (t.joins d o r && t.recIndex index)) := by
  cases ho : o with
  | false => simp [Term.atIndex]
  | true =>
    cases hd : t.directIndex d index with
    | true =>
      have := (Term.direct_hit ht (ho ▸ ha) rfl hd).1
      simp [this]
    | false =>
      have : t.ordIndex d index = false := by
        by_contra hne
        rw [Bool.not_eq_false, Term.ordIndex, Bool.and_eq_true, decide_eq_true_eq] at hne
        have := Nat.lt_of_lt_of_le hne.1 ht.fixed_le
        simp [Term.directIndex, this, hne.2] at hd
      simp [Term.atIndex, this]

/-- Below the `...` only `**` names an index. -/
theorem Term.recIndex_eq {p : Nat} (ht : t.Deep p) (index : Nat) :
    t.recIndex index = (decide (t.segments.length = p + 1) || decide (t.seg (p + 1) = segAny)) := by
  rw [Term.recIndex, ht.deep]
  dsimp only
  rcases ht.last with hl | hl
  · simp [hl]
  · simp [hl.1, segIndex, hl.2.1, hl.2.2]

/-- The flags one level below an index. -/
theorem AliveAt.index (ht : t.Regular) (ha : AliveAt t d o r) (hpos : 0 < d ∨ o = false) (index : Nat) :
    AliveAt t (d + 1) (t.atIndex d o r index) (t.carries d o r index) := by
  refine ⟨fun hc => ?_, fun p ho hp hlt => ?_⟩
  · rcases ht with ht | ⟨p, ht⟩
    · have hj := ha.shallow ht
      simp [Term.carries, hj, ht.deep] at hc
    · refine ⟨p, ht, ?_⟩
      cases hj : t.joins d o r with
      | true => exact Nat.le_succ_of_le (ha.deep_le ht hj)
      | false =>
        -- an element in front of the `...` stands right in front of it
        simp only [Term.carries, hj, Bool.false_or, Term.atIndex, Bool.false_and, Bool.or_false,
          Bool.and_eq_true] at hc
        have hord := hc.1.2
        simp only [Term.ordIndex, ht.fixed, Bool.and_eq_true, decide_eq_true_eq] at hord
        have hlike : t.arrayLike d = true := by
          have := hord.2
          simp only [segIndex, Bool.or_eq_true, decide_eq_true_eq, Bool.and_eq_true] at this
          simp only [Term.arrayLike, Bool.or_eq_true, decide_eq_true_eq]
          tauto
        rcases hpos with h0 | h0
        · have := ht.before d h0 hord.1 hlike
          omega
        · rw [h0] at hc
          exact absurd hc.1.1 (by simp)
  · have hfix : t.ordIndex d index = false := by
      cases h : t.ordIndex d index with
      | false => rfl
      | true =>
        simp only [Term.ordIndex, hp.fixed, Bool.and_eq_true, decide_eq_true_eq] at h
        omega
    have hho := ho
    simp only [Term.atIndex, hfix, Bool.and_false, Bool.false_or, Bool.and_eq_true] at hho
    have hcarry : t.carries d o r index = true := by
      rw [Term.carries, hho.1]
      rfl
    refine ⟨by simp [Term.joins, hcarry], ?_⟩
    have := hho.2
    rw [Term.recIndex_eq hp, Bool.or_eq_true, decide_eq_true_eq, decide_eq_true_eq] at this
    exact this

end Term

/-! ## All terms -/

section Masks

variable {ctx : Ctx} {followed : Nat → Prop} {d : Nat} {A R C : Mask}

theorem hereTerms_has (hc : CtxOk ctx) (key : Bytes) (i : Nat) :
    (hereTerms ctx d A R key).has i =
      (decide (i < ctx.n) && (ctx.term i).hereKey d (A.has i) (R.has i) key) :=
  maskOf_has_le hc.terms _ i

theorem belowTerms_has (hc : CtxOk ctx) (key : Bytes) (i : Nat) :
    (belowTerms ctx d A key).has i = (decide (i < ctx.n) && (ctx.term i).belowKey d (A.has i) key) :=
  maskOf_has_le hc.terms _ i

theorem elementTerms_has (hc : CtxOk ctx) (index i : Nat) :
    (elementTerms ctx d A R index).has i =
      (decide (i < ctx.n) && (ctx.term i).atIndex d (A.has i) (R.has i) index) :=
  maskOf_has_le hc.terms _ i

theorem elementHere_has (hc : CtxOk ctx) (index i : Nat) :
    (elementHere ctx d A R index).has i =
      (decide (i < ctx.n) && (ctx.term i).hereIndex d (A.has i) (R.has i) index) :=
  maskOf_has_le hc.terms _ i

theorem elementRec_has (hc : CtxOk ctx) (index i : Nat) :
    (elementRec ctx d A R index).has i =
      (decide (i < ctx.n) && (ctx.term i).carries d (A.has i) (R.has i) index) :=
  maskOf_has_le hc.terms _ i

/-- The terms of `keys`, at their segments, that arrive at their value are those of `here`. -/
def Arrived (ctx : Ctx) (keys : Mask) (segments : Nat → Nat) (here : Mask) : Prop :=
  ∀ i < ctx.n, (keys.has i && termValueAt (ctx.term i) (segments i)) = here.has i

/-- An alive term, or one that no mask knows. -/
theorem Alive.cases (h : Alive ctx followed d A R C) {i : Nat} (hi : i < ctx.n) :
    (followed i ∧ (ctx.term i).Regular ∧ AliveAt (ctx.term i) d (A.has i) (R.has i)) ∨
      (A.has i = false ∧ R.has i = false ∧ (ctx.term i).joins d (A.has i) (R.has i) = false) := by
  by_cases hr : followed i ∧ (ctx.term i).Regular ∧ AliveAt (ctx.term i) d (A.has i) (R.has i)
  · exact Or.inl hr
  · exact Or.inr (h.dead hi hr)

theorem keyTerms_arrived (hc : CtxOk ctx) (h : Alive ctx followed d A R C) {key : Bytes}
    {segments : Nat → Nat}
    (hseg : ∀ i < ctx.n, (keyTerms ctx d A R key).has i = true →
      segments i = (ctx.term i).hitSeg d ((ctx.term i).joins d (A.has i) (R.has i))) :
    Arrived ctx (keyTerms ctx d A R key) segments (hereTerms ctx d A R key) := by
  intro i hi
  rw [hereTerms_has hc, decide_eq_true hi, Bool.true_and]
  have hhas : (keyTerms ctx d A R key).has i = ((A.has i && (ctx.term i).ordKey d key) ||
      ((ctx.term i).joins d (A.has i) (R.has i) && (ctx.term i).recKey key)) := by
    rw [keyTerms_has hc, decide_eq_true hi, Bool.true_and]
  rcases h.cases hi with ⟨-, hr, hal⟩ | ⟨h1, h2, h3⟩
  · have hval := Term.value_of_hit hr hal ((ctx.term i).ordKey d key)
      ((ctx.term i).recKey key) fun hk => by
        simp only [Term.ordKey, Bool.and_eq_true, decide_eq_true_eq] at hk
        exact hk.1
    rw [Term.hereKey, ← hval, ← hhas]
    cases hin : (keyTerms ctx d A R key).has i with
    | false => rfl
    | true => rw [hseg i hi hin]
  · rw [hhas, Term.hereKey, h3, h1]
    simp

theorem matchDescendants_eq (hc : CtxOk ctx) (h : Alive ctx followed d A R C) {key : Bytes} {s : State}
    (hseg : ∀ i < ctx.n, (keyTerms ctx d A R key).has i = true →
      s.keyTermSegment i = (ctx.term i).hitSeg d ((ctx.term i).joins d (A.has i) (R.has i))) :
    matchDescendants ctx s (keyTerms ctx d A R key) = belowTerms ctx d A key := by
  refine Mask.ext fun i => ?_
  rw [matchDescendants, termsWhere_has hc.room, belowTerms_has hc]
  by_cases hi : i < ctx.n
  · rw [decide_eq_true hi, Bool.true_and, Bool.true_and]
    have hhas : (keyTerms ctx d A R key).has i = ((A.has i && (ctx.term i).ordKey d key) ||
        ((ctx.term i).joins d (A.has i) (R.has i) && (ctx.term i).recKey key)) := by
      rw [keyTerms_has hc, decide_eq_true hi, Bool.true_and]
    rcases h.cases hi with ⟨-, hr, hal⟩ | ⟨h1, h2, h3⟩
    · have hval := Term.below_of_hit hr hal ((ctx.term i).ordKey d key)
        ((ctx.term i).recKey key) fun hk => by
          simp only [Term.ordKey, Bool.and_eq_true, decide_eq_true_eq] at hk
          exact hk.1
      rw [Term.belowKey, ← hval, ← hhas]
      cases hin : (keyTerms ctx d A R key).has i with
      | false => rfl
      | true => rw [hseg i hi hin]
    · rw [hhas, Term.belowKey, h3, h1]
      simp
  · simp [hi]

/-- The terms and captures behind a key are alive there. -/
theorem Alive.key (hc : CtxOk ctx) (h : Alive ctx followed d A R C) (key : Bytes) :
    Alive ctx followed (d + 1) (belowTerms ctx d A key) (recTerms ctx d A R)
      (captureDescendants ctx (keyCaptures ctx d C key) d) := by
  refine ⟨fun i hi => ?_, fun i hi ha => ?_, fun c hcap => ?_⟩
  · rw [belowTerms_has hc, recTerms_has hc] at hi
    by_contra hlt
    simp [hlt] at hi
  · rw [belowTerms_has hc, recTerms_has hc, decide_eq_true hi, Bool.true_and, Bool.true_and] at ha ⊢
    rcases h.cases hi with ⟨hf, hr, hal⟩ | ⟨h1, h2, h3⟩
    · exact ⟨hf, hr, hal.key hr key⟩
    · have hdeep : (ctx.term i).deep = some 0 := by
        rw [h3, Term.belowKey, h1] at ha
        simpa using ha
      simp [Term.joins, hdeep] at h3
  · rw [captureDescendants, maskOf_has_le hc.captures, keyCaptures, maskOf_has_le hc.captures] at hcap
    simp only [Bool.and_eq_true, decide_eq_true_eq] at hcap
    obtain ⟨hlt, ⟨-, -, hkey⟩, hne⟩ := hcap
    have := (List.getElem?_eq_some_iff.mp hkey).1
    exact ⟨hlt, by omega⟩

/-- The terms and captures behind an index are alive there. -/
theorem Alive.index (hc : CtxOk ctx) (h : Alive ctx followed d A R C) (hpos : 0 < d ∨ A = 0)
    (index : Nat) :
    Alive ctx followed (d + 1) (elementTerms ctx d A R index) (elementRec ctx d A R index)
      (captureDescendants ctx (elementCaptures ctx d C index) d) := by
  refine ⟨fun i hi => ?_, fun i hi ha => ?_, fun c hcap => ?_⟩
  · rw [elementTerms_has hc, elementRec_has hc] at hi
    by_contra hlt
    simp [hlt] at hi
  · rw [elementTerms_has hc, elementRec_has hc, decide_eq_true hi, Bool.true_and, Bool.true_and] at ha ⊢
    rcases h.cases hi with ⟨hf, hr, hal⟩ | ⟨h1, h2, h3⟩
    · refine ⟨hf, hr, hal.index hr ?_ index⟩
      rcases hpos with h0 | h0
      · exact Or.inl h0
      · exact Or.inr (by rw [h0]; simp)
    · have hat : (ctx.term i).atIndex d (A.has i) (R.has i) index = false := by
        rw [Term.atIndex, h3, h1]
        simp
      have hdeep : (ctx.term i).deep = some 0 := by
        rw [Term.carries, h3, hat] at ha
        simpa using ha
      simp [Term.joins, hdeep] at h3
  · rw [captureDescendants, maskOf_has_le hc.captures, elementCaptures, maskOf_has_le hc.captures] at hcap
    simp only [Bool.and_eq_true, decide_eq_true_eq] at hcap
    obtain ⟨hlt, ⟨-, -, hkey⟩, hne⟩ := hcap
    unfold captureArrayIndex at hkey
    split at hkey
    · cases hkey
    · next text htext =>
      have := (List.getElem?_eq_some_iff.mp htext).1
      exact ⟨hlt, by omega⟩

end Masks

/-! ## Slots -/

section Slots

variable {ctx : Ctx} {followed : Nat → Prop} {d : Nat} {A R C : Mask} {s : State}

theorem setKeySegment_none (s : State) : setKeySegment ctx s 0 = s := by
  have : updWhere ctx.n (Mask.has 0) s.m.termSegment s.keyTermSegment = s.keyTermSegment := by
    funext i
    simp [updWhere]
  rw [setKeySegment, this]

theorem setSegments_none {terms : Mask} (s : State) (segment : Nat → Nat)
    (h : ∀ i, terms.has i = false) :
    setKeySegment ctx (setTermSegment ctx s terms segment) terms = s := by
  rw [Mask.eq_zero_iff.mpr h, setTermSegment_none, setKeySegment_none]

/-- A regular term never stands at two segments at once. -/
theorem reconcile_eq (hc : CtxOk ctx) (h : Alive ctx followed d A R C) (hs : SlotsOk ctx followed s)
    {k : KeyMatch} {key : Bytes} (hm : k.matched = keyTerms ctx d A R key)
    (honce : k.ordinary &&& k.recursive = 0)
    (hseg : ∀ i < ctx.n, (keyTerms ctx d A R key).has i = true →
      s.keyTermSegment i = (ctx.term i).hitSeg d ((ctx.term i).joins d (A.has i) (R.has i))) :
    reconcile ctx s k (recTerms ctx d A R) d = s := by
  unfold reconcile
  dsimp only
  rw [setSegments_none s k.recursiveSegments fun i => by rw [termsWhere_has hc.room, honce]; simp]
  split
  · rfl
  refine setSegments_none s _ fun i => ?_
  rw [termsWhere_has hc.room]
  by_cases hi : i < ctx.n
  · rw [decide_eq_true hi, Bool.true_and, hm]
    cases hin : (keyTerms ctx d A R key).has i with
    | false => rfl
    | true =>
      have hrec : (recTerms ctx d A R).has i = (ctx.term i).joins d (A.has i) (R.has i) := by
        rw [recTerms_has hc, decide_eq_true hi, Bool.true_and]
      cases hj : (ctx.term i).joins d (A.has i) (R.has i) with
      | false => rw [hrec, hj]; rfl
      | true =>
        rcases h.cases hi with ⟨hf, hr, hal⟩ | ⟨-, -, h3⟩
        · rcases hr with hr | ⟨p, hr⟩
          · rw [hal.shallow hr] at hj
            cases hj
          · -- the segment behind the `...` is past the end, or where the term stands
            simp only [hseg i hi hin, hj, (hs i hi hf).activeRecursive hr, hr.next, hr.path.count]
            rcases hr.last with hl | hl
            · simp [hl]
            · simp [Term.hitSeg, hr.deep, hl.1]
        · rw [h3] at hj
          cases hj
  · simp [hi]

/-- Handing positions on keeps the slots in order. -/
theorem carry_slots (hs : SlotsOk ctx followed s) (parent child : Nat) (rec matched : Mask)
    (hstop : ∀ i < ctx.n, followed i → ∀ p, (ctx.term i).Deep p → rec.has i = true →
      matched.has i = true → s.keyTermSegment i + 1 < (ctx.term i).segments.length →
      (ctx.term i).segments.length = p + 1 ∧ child = p ∧ s.keyTermSegment i + 1 = p) :
    SlotsOk ctx followed (carryRecursiveSegments ctx s parent child rec matched) := by
  unfold carryRecursiveSegments
  split
  · exact hs
  · intro i hi hf
    refine ⟨fun p hp e => ?_, fun p hp e => ?_⟩
    · dsimp only [setRow]
      split
      · split
        · exact Or.inl rfl
        split
        · next hmatch =>
          simp only [Bool.and_eq_true, hp.recursives, decide_eq_true_eq] at hmatch
          exact Or.inr (by rw [hmatch.2])
        split
        · next hne =>
          rcases (hs i hi hf).term p hp parent with h0 | h0
          · exact absurd h0 hne
          · exact Or.inr h0
        · have hd := hp.deep
          rw [Term.deep] at hd
          rw [hd]
          exact Or.inr rfl
      · exact (hs i hi hf).term p hp e
    · dsimp only [setRow]
      split
      · next hrow =>
        rw [Bool.and_eq_true, decide_eq_true_eq] at hrow
        split
        · exact Or.inl rfl
        next hrec =>
        split
        · next hmatch =>
          rw [hp.path.count, Bool.and_eq_true, decide_eq_true_eq] at hmatch
          obtain ⟨h1, h2, h3⟩ := hstop i hi hf p hp (by simpa using hrec) hmatch.1 hmatch.2
          exact Or.inr ⟨h1, by rw [hrow.1, h2], by omega⟩
        · exact Or.inl rfl
      · exact (hs i hi hf).path p hp e

/-- Behind a key no position is handed on. -/
theorem carry_key (hc : CtxOk ctx) (h : Alive ctx followed d A R C) (hs : SlotsOk ctx followed s)
    {key : Bytes} {child : Nat}
    (hseg : ∀ i < ctx.n, (keyTerms ctx d A R key).has i = true →
      s.keyTermSegment i = (ctx.term i).hitSeg d ((ctx.term i).joins d (A.has i) (R.has i))) :
    SlotsOk ctx followed
      (carryRecursiveSegments ctx s d child (recTerms ctx d A R) (keyTerms ctx d A R key)) := by
  refine carry_slots hs _ _ _ _ fun i hi hf p hp hrec hin hlt => ?_
  rw [recTerms_has hc, decide_eq_true hi, Bool.true_and] at hrec
  rw [hseg i hi hin, hrec] at hlt
  rcases h.cases hi with ⟨-, hr, hal⟩ | ⟨-, -, h3⟩
  · have hle := hal.deep_le hp hrec
    rcases hp.last with hl | hl
    · simp only [Term.hitSeg, hp.deep, hl] at hlt
      simp at hlt
      omega
    · simp only [Term.hitSeg, hp.deep, hl.1] at hlt
      simp at hlt
  · rw [h3] at hrec
    cases hrec

end Slots

/-! ## Elements -/

section Elements

variable {ctx : Ctx} {followed : Nat → Prop} {d index : Nat} {A R C : Mask} {s : State}

/-- The index that segment `d` names, as the scanner tests it. -/
theorem directIndex_eq {t : Term} (hp : PathOk t) (d index : Nat) :
    ((t.pathArrayWildcards ||| t.pathAnyWildcards).has d ||
      (t.pathArraySegments.has d && decide (termArrayIndex t d = some index))) =
      t.directIndex d index := by
  rw [Mask.has_or, hp.arrayWildcards, hp.anyWildcards, hp.arrays, Term.directIndex]
  by_cases hd : d < t.segments.length
  · cases hn : isNumeric (t.seg d) with
    | true =>
      rw [hp.arrayIndex hd hn]
      simp [hd, segIndex, hn]
    | false => simp [hd, segIndex, hn]
  · simp [hd]

/-- The terms whose segment `d` names the index. -/
theorem matchArrayIndex_spec (hc : CtxOk ctx) (h : Alive ctx followed d A R C)
    (hs : SlotsOk ctx followed s) (index : Nat) :
    ∃ segments, (matchArrayIndex ctx s A d index).1 =
        { s with m := { s.m with termSegment := segments } } ∧
      ∀ i, (matchArrayIndex ctx s A d index).2.has i =
          (A.has i && (ctx.term i).directIndex d index) ∧
        ((A.has i && (ctx.term i).directIndex d index) = true → segments i = d) := by
  have alive : ∀ i, A.has i = true → i < ctx.n ∧ followed i ∧ (ctx.term i).Regular := fun i ha =>
    have hi := h.bound i (Or.inl ha)
    have hr := h.regular i hi (Or.inl ha)
    ⟨hi, hr.1, hr.2.1⟩
  have hfound : ∀ i, (matchArrayIndex ctx s A d index).2.has i =
      (A.has i && (ctx.term i).directIndex d index) := by
    intro i
    rw [matchArrayIndex]
    dsimp only
    rw [termsWhere_has hc.room]
    cases ha : A.has i with
    | false => simp
    | true =>
      obtain ⟨hi, hf, hr⟩ := alive i ha
      simp only [(hs i hi hf).activePath_self hr, directIndex_eq hr.path]
      by_cases h64 : d < wordBits
      · simp [hi, h64]
      · have hle := hr.path.le
        have : ¬ d < (ctx.term i).segments.length := fun hlt => h64 (Nat.lt_of_lt_of_le hlt hle)
        simp [Term.directIndex, this]
  refine ⟨_, rfl, fun i => ⟨hfound i, fun hw => ?_⟩⟩
  have ha : A.has i = true := (Bool.and_eq_true_iff.mp hw).1
  obtain ⟨hi, hf, hr⟩ := alive i ha
  have hin : (matchArrayIndex ctx s A d index).2.has i = true := (hfound i).trans hw
  dsimp only [updWhere]
  rw [show (termsWhere ctx fun i t => A.has i && decide (activePathSegment s (ctx.term i) i d d < wordBits) &&
    ((t.pathArrayWildcards ||| t.pathAnyWildcards).has (activePathSegment s (ctx.term i) i d d) ||
      t.pathArraySegments.has (activePathSegment s (ctx.term i) i d d) &&
        decide (termArrayIndex t (activePathSegment s (ctx.term i) i d d) = some index))).has i = true
      from hin]
  simp only [hi, decide_true, Bool.and_self, if_true]
  exact (hs i hi hf).activePath_self hr d

/-- The terms below their `...` that the index leads on. -/
theorem matchRecursiveArrayTerms_spec (hc : CtxOk ctx) (h : Alive ctx followed d A R C)
    (hs : SlotsOk ctx followed s) (index : Nat) :
    ∃ segments, (matchRecursiveArrayTerms ctx s (recTerms ctx d A R) d index).1 =
        { s with m := { s.m with termSegment := segments } } ∧
      (∀ i, ¬ i < ctx.n →
        (matchRecursiveArrayTerms ctx s (recTerms ctx d A R) d index).2.has i = false) ∧
      ∀ i < ctx.n, (matchRecursiveArrayTerms ctx s (recTerms ctx d A R) d index).2.has i =
          ((ctx.term i).joins d (A.has i) (R.has i) && (ctx.term i).recIndex index) ∧
        ((ctx.term i).joins d (A.has i) (R.has i) = true →
          (ctx.term i).segments.length ≠ (ctx.term i).deep.getD 0 + 1 →
          (ctx.term i).recIndex index = true → segments i = (ctx.term i).hitSeg d true) := by
  refine ⟨_, rfl, fun i hi => by
    simp [matchRecursiveArrayTerms, termsWhere_has hc.room, hi], fun i hi => ?_⟩
  have hrec : (recTerms ctx d A R).has i = (ctx.term i).joins d (A.has i) (R.has i) := by
    rw [recTerms_has hc, decide_eq_true hi, Bool.true_and]
  dsimp only [matchRecursiveArrayTerms, updWhere]
  simp only [Mask.has_or, termsWhere_has hc.room, hi, decide_true, Bool.true_and, hrec]
  cases hj : (ctx.term i).joins d (A.has i) (R.has i) with
  | false => simp
  | true =>
    rcases h.cases hi with ⟨hf, hr, hal⟩ | ⟨-, -, h3⟩
    · rcases hr with hr | ⟨p, hr⟩
      · rw [hal.shallow hr] at hj
        cases hj
      have hle := hal.deep_le hr hj
      have hp := hr.path
      simp only [(hs i hi hf).activeRecursive hr, hr.next, hr.deep, hp.count, Option.getD_some,
        Option.isSome_some, Bool.and_true, Bool.true_and, decide_eq_true hle, Term.recIndex_eq hr]
      rcases hr.last with hl | hl
      · simp [hl]
      · have hlen := hl.1
        have h64 : p + 1 < wordBits := by
          have := hp.le
          show p + 1 < 64
          omega
        have hne : (ctx.term i).seg (p + 1) ≠ segRecursive := fun e => by
          have := hr.only (p + 1) (by omega) e
          omega
        have hseg := (hs i hi hf).activePath_tail hr hlen d
        have hmask : ((ctx.term i).pathArrayWildcards.has (p + 1) ||
            (ctx.term i).pathAnyWildcards.has (p + 1) ||
            (ctx.term i).pathRecursiveSegments.has (p + 1)) =
            decide ((ctx.term i).seg (p + 1) = segAny) := by
          rw [hp.arrayWildcards, hp.anyWildcards, hp.recursives, hlen]
          simp [hl.2.1, hne]
        have harr : (ctx.term i).pathArraySegments.has (p + 1) = false := by
          rw [hp.arrays, hl.2.2]
          simp
        have hhit : (ctx.term i).hitSeg d true = p + 1 := by simp [Term.hitSeg, hr.deep, hlen]
        simp only [hseg, hmask, harr, hlen, h64, hhit, decide_true, Bool.true_and, Bool.false_and,
          show ¬ p + 2 ≤ p + 1 by omega, show ¬ p + 2 = p + 1 by omega, decide_false, Bool.false_or,
          Bool.not_false, ne_eq, not_false_eq_true, forall_const, decide_eq_true_eq]
        by_cases hany : (ctx.term i).seg (p + 1) = segAny <;> simp [hany]
    · rw [h3] at hj
      cases hj

/-- The masks of the depth below an element, and the positions handed on. -/
def elementMasks (ctx : Ctx) (a : ArrayScan) (carry : Option UInt8) (element : Mask) (s : State) : State :=
  let recursiveCarry := a.recursiveTerms ||| termsWhere ctx fun i t =>
    element.has i && t.pathRecursiveSegments ≠ 0
  let depth := s.tape.depth
  let s := { s with
    pathActive := setAt s.pathActive depth element
    recursiveActive := setAt s.recursiveActive depth recursiveCarry }
  if isContainer carry && recursiveCarry ≠ 0 then
    carryRecursiveSegments ctx s a.segment depth recursiveCarry element
  else s

theorem enterElement_eq (ctx : Ctx) (a : ArrayScan) (index : Nat) (carry : Option UInt8) (s : State) :
    enterElement ctx a index carry s =
      let x := matchArrayIndex ctx s a.active a.segment index
      let y := matchRecursiveArrayTerms ctx x.1 a.recursiveTerms a.segment index
      let z := matchTerminalRecursiveTerms ctx y.1 a.recursiveTerms a.segment
      let q := preludeAnchor ctx z.1 a.segment a.active
      let element := x.2 ||| y.2 ||| z.2 ||| q.2
      let s1 := setKeySegment ctx (setTermSegment ctx q.1 element fun i =>
        if x.2.has i then x.1.m.termSegment i else q.1.m.termSegment i) element
      let captures := elementCaptures ctx a.segment a.captureActive index
      let s2 := elementMasks ctx a carry element s1
      .ok (element, captureValues ctx captures a.segment) { s2 with
        capturePathActive := setAt s2.capturePathActive s1.tape.depth
          (captureDescendants ctx captures a.segment) } := rfl

/-- What an element hands on. -/
structure ElementRead (ctx : Ctx) (followed : Nat → Prop) (d index : Nat) (A R C : Mask) (s s' : State) :
    Prop where
  segments : ∀ i < ctx.n, (elementTerms ctx d A R index).has i = true →
    s'.m.termSegment i = (ctx.term i).hitSeg d ((ctx.term i).joins d (A.has i) (R.has i)) ∧
      s'.keyTermSegment i = s'.m.termSegment i
  state : s' = { s with
    m := { s.m with termSegment := s'.m.termSegment }
    keyTermSegment := s'.keyTermSegment
    pathActive := setAt s.pathActive (d + 1) (elementTerms ctx d A R index)
    recursiveActive := setAt s.recursiveActive (d + 1) (elementRec ctx d A R index)
    capturePathActive := setAt s.capturePathActive (d + 1)
      (captureDescendants ctx (elementCaptures ctx d C index) d)
    recursiveTermSegment := s'.recursiveTermSegment
    recursivePathSegment := s'.recursivePathSegment }
  slots : SlotsOk ctx followed s'

theorem carry_state (ctx : Ctx) (s : State) (parent child : Nat) (rec matched : Mask) :
    ∃ x y, carryRecursiveSegments ctx s parent child rec matched =
      { s with recursiveTermSegment := x, recursivePathSegment := y } := by
  unfold carryRecursiveSegments
  split
  · exact ⟨_, _, rfl⟩
  · exact ⟨_, _, rfl⟩

/-- The segment of a term that an element leads on. -/
theorem elementSeg {t : Term} {o r : Bool} (ht : t.Regular) (ha : AliveAt t d o r) {direct : Bool}
    {dseg rseg : Nat} (hd : direct = (o && t.directIndex d index)) (hdseg : direct = true → dseg = d)
    (hhit : t.atIndex d o r index = true)
    (hrseg : t.joins d o r = true → t.segments.length ≠ t.deep.getD 0 + 1 →
      t.recIndex index = true → rseg = t.hitSeg d true) :
    (if direct then dseg else
      if t.joins d o r && decide (t.segments.length = t.deep.getD 0 + 1) then d else rseg) =
      t.hitSeg d (t.joins d o r) := by
  cases hdir : direct with
  | true =>
    rw [hdir, Eq.comm, Bool.and_eq_true] at hd
    rw [if_pos rfl, hdseg hdir]
    exact (Term.direct_hit ht ha hd.1 hd.2).2.symm
  | false =>
    rw [if_neg (by simp)]
    rw [Term.atIndex_split ht ha, ← hd, hdir, Bool.false_or, Bool.and_eq_true] at hhit
    obtain ⟨hj, hrec⟩ := hhit
    rw [hj]
    rcases ht with ht | ⟨p, ht⟩
    · rw [ha.shallow ht] at hj
      cases hj
    · by_cases hl : t.segments.length = p + 1
      · simp [ht.deep, hl, Term.hitSeg]
      · rw [if_neg (by simp [ht.deep, hl])]
        exact hrseg hj (by simpa [ht.deep] using hl) hrec

/-- An element in front of a last `...` stands right in front of it. -/
theorem elementSeg_stop {t : Term} {o r : Bool} {p : Nat} (ht : t.Deep p) (ha : AliveAt t d o r)
    (hpos : 0 < d ∨ o = false) (hhit : t.atIndex d o r index = true)
    (hlt : t.hitSeg d (t.joins d o r) + 1 < t.segments.length) :
    t.segments.length = p + 1 ∧ d + 1 = p ∧ t.hitSeg d (t.joins d o r) + 1 = p := by
  cases hj : t.joins d o r with
  | true =>
    have hle := ha.deep_le ht hj
    rw [hj] at hlt
    rcases ht.last with hl | hl
    · simp only [Term.hitSeg, ht.deep, hl] at hlt
      simp at hlt
      omega
    · simp only [Term.hitSeg, ht.deep, hl.1] at hlt
      simp at hlt
  | false =>
    have hseg : t.hitSeg d false = d := by simp [Term.hitSeg, ht.deep]
    rw [Term.atIndex, hj, Bool.false_and, Bool.or_false, Bool.and_eq_true] at hhit
    have hord := hhit.2
    simp only [Term.ordIndex, ht.fixed, Bool.and_eq_true, decide_eq_true_eq] at hord
    have hlike : t.arrayLike d = true := by
      have := hord.2
      simp only [segIndex, Bool.or_eq_true, decide_eq_true_eq, Bool.and_eq_true] at this
      simp only [Term.arrayLike, Bool.or_eq_true, decide_eq_true_eq]
      tauto
    rcases hpos with h0 | h0
    · have := ht.before d h0 hord.1 hlike
      exact ⟨this.2, this.1, by rw [hseg]; exact this.1⟩
    · rw [h0] at hhit
      exact absurd hhit.1 (by simp)

theorem elementRec_eq (hc : CtxOk ctx) (h : Alive ctx followed d A R C) (index : Nat) :
    (recTerms ctx d A R ||| termsWhere ctx fun i t =>
      (elementTerms ctx d A R index).has i && decide (t.pathRecursiveSegments ≠ 0)) =
      elementRec ctx d A R index := by
  refine Mask.ext fun i => ?_
  rw [Mask.has_or, recTerms_has hc, termsWhere_has hc.room, elementTerms_has hc, elementRec_has hc]
  by_cases hi : i < ctx.n
  · rw [decide_eq_true hi]
    simp only [Bool.true_and, Term.carries]
    rcases h.cases hi with ⟨-, hr, -⟩ | ⟨h1, -, h3⟩
    · have : decide ((ctx.term i).pathRecursiveSegments ≠ 0) = (ctx.term i).deep.isSome := by
        rcases hr with hr | ⟨p, hr⟩
        · rw [hr.deep, hr.mask]
          rfl
        · rw [hr.deep, decide_eq_true hr.mask_ne]
          rfl
      rw [this]
    · have hat : (ctx.term i).atIndex d (A.has i) (R.has i) index = false := by
        rw [Term.atIndex, h3, h1]
        rfl
      rw [hat]
      rfl
  · simp [hi]

/-- **An element of an array**: the terms and captures it leads on, noted for the value. -/
theorem enterElement_spec (hc : CtxOk ctx) (h : Alive ctx followed d A R C)
    (hs : SlotsOk ctx followed s) (hpos : 0 < d ∨ A = 0) (hdepth : s.tape.depth = d + 1)
    (index : Nat) (carry : Option UInt8) :
    ∃ s', enterElement ctx ⟨d, A, C, recTerms ctx d A R⟩ index carry s =
        .ok (elementTerms ctx d A R index, captureValues ctx (elementCaptures ctx d C index) d) s' ∧
      ElementRead ctx followed d index A R C s s' := by
  obtain ⟨xsegs, ex, hx⟩ := matchArrayIndex_spec hc h hs index
  have hs1 : SlotsOk ctx followed (matchArrayIndex ctx s A d index).1 := by
    rw [ex]
    exact hs.congr rfl rfl
  obtain ⟨ysegs, ey, hyout, hy⟩ := matchRecursiveArrayTerms_spec hc h hs1 index
  obtain ⟨zsegs, ez, hzout, hz⟩ := matchTerminalRecursiveTerms_spec
    (s := (matchRecursiveArrayTerms ctx (matchArrayIndex ctx s A d index).1 (recTerms ctx d A R) d
      index).1) hc h
  have hreg : ∀ i < ctx.n, A.has i = true → (ctx.term i).Regular := fun i hi ha =>
    (h.regular i hi (Or.inl ha)).2.1
  have helem : (matchArrayIndex ctx s A d index).2 |||
      (matchRecursiveArrayTerms ctx (matchArrayIndex ctx s A d index).1 (recTerms ctx d A R) d index).2 |||
      (matchTerminalRecursiveTerms ctx (matchRecursiveArrayTerms ctx
        (matchArrayIndex ctx s A d index).1 (recTerms ctx d A R) d index).1 (recTerms ctx d A R) d).2 |||
      0 = elementTerms ctx d A R index := by
    refine Mask.ext fun i => ?_
    simp only [Mask.has_or, Mask.has_zero, Bool.or_false, elementTerms_has hc, (hx i).1]
    by_cases hi : i < ctx.n
    · rw [(hy i hi).1, (hz i hi).1, decide_eq_true hi, Bool.true_and]
      rcases h.cases hi with ⟨-, hr, hal⟩ | ⟨h1, -, h3⟩
      · rw [Term.atIndex_split hr hal]
        cases hj : (ctx.term i).joins d (A.has i) (R.has i) with
        | false => simp
        | true =>
          rcases hr with hr | ⟨p, hr⟩
          · rw [hal.shallow hr] at hj
            cases hj
          · rw [Term.recIndex_eq hr, hr.deep]
            simp only [Option.getD_some, Bool.true_and]
            cases decide ((ctx.term i).segments.length = p + 1) <;> simp
      · rw [Term.atIndex, h3, h1]
        simp
    · have hA : A.has i = false := by
        cases ha : A.has i with
        | false => rfl
        | true => exact absurd (h.bound i (Or.inl ha)) hi
      rw [hyout i hi, hzout i hi, hA]
      simp [hi]
  have hend : (matchTerminalRecursiveTerms ctx (matchRecursiveArrayTerms ctx
        (matchArrayIndex ctx s A d index).1 (recTerms ctx d A R) d index).1 (recTerms ctx d A R) d).1 =
      { s with m := { s.m with termSegment := zsegs } } := by
    rw [ez, ey, ex]
  rw [enterElement_eq]
  dsimp only
  rw [preludeAnchor_eq hc _ hreg]
  dsimp only
  rw [helem, hend, ex]
  dsimp only
  -- the segments that are noted
  obtain ⟨s1, e1⟩ : ∃ s1, s1 = setKeySegment ctx (setTermSegment ctx
      { s with m := { s.m with termSegment := zsegs } } (elementTerms ctx d A R index) fun i =>
      if (matchArrayIndex ctx s A d index).2.has i then xsegs i else zsegs i)
      (elementTerms ctx d A R index) := ⟨_, rfl⟩
  rw [← e1]
  have hsegs : ∀ i < ctx.n, (elementTerms ctx d A R index).has i = true →
      s1.m.termSegment i = (ctx.term i).hitSeg d ((ctx.term i).joins d (A.has i) (R.has i)) ∧
        s1.keyTermSegment i = s1.m.termSegment i := by
    intro i hi hin
    have hin' := hin
    rw [elementTerms_has hc, decide_eq_true hi, Bool.true_and] at hin'
    rw [e1]
    simp only [setKeySegment, setTermSegment, updWhere, hi, hin, decide_true, Bool.and_self, if_true,
      and_true]
    rcases h.cases hi with ⟨-, hr, hal⟩ | ⟨h1, -, h3⟩
    · rw [(hz i hi).2]
      refine elementSeg hr hal (hx i).1 (fun hd => (hx i).2 ((hx i).1 ▸ hd)) hin' fun hj hl hrec => ?_
      rw [ey]
      exact (hy i hi).2 hj hl hrec
    · rw [Term.atIndex, h3, h1] at hin'
      simp at hin'
  have hs1' : SlotsOk ctx followed s1 := by
    rw [e1]
    exact hs.congr rfl rfl
  have hstate : s1 = { s with m := { s.m with termSegment := s1.m.termSegment }, keyTermSegment := s1.keyTermSegment } := by
    rw [e1]
    rfl
  have hmasks : ∃ x y, elementMasks ctx ⟨d, A, C, recTerms ctx d A R⟩ carry (elementTerms ctx d A R index) s1 =
      { s1 with
        pathActive := setAt s.pathActive (d + 1) (elementTerms ctx d A R index)
        recursiveActive := setAt s.recursiveActive (d + 1) (elementRec ctx d A R index)
        recursiveTermSegment := x, recursivePathSegment := y } ∧
      SlotsOk ctx followed { s1 with recursiveTermSegment := x, recursivePathSegment := y } := by
    have hd1 : s1.tape.depth = d + 1 := by
      rw [hstate]
      exact hdepth
    have hp1 : s1.pathActive = s.pathActive := by rw [hstate]
    have hr1 : s1.recursiveActive = s.recursiveActive := by rw [hstate]
    unfold elementMasks
    dsimp only
    rw [elementRec_eq hc h, hd1, hp1, hr1]
    split
    · obtain ⟨x, y, exy⟩ := carry_state ctx { s1 with
        pathActive := setAt s.pathActive (d + 1) (elementTerms ctx d A R index)
        recursiveActive := setAt s.recursiveActive (d + 1) (elementRec ctx d A R index) } d (d + 1)
        (elementRec ctx d A R index) (elementTerms ctx d A R index)
      refine ⟨x, y, exy, ?_⟩
      have := carry_slots (s := { s1 with
        pathActive := setAt s.pathActive (d + 1) (elementTerms ctx d A R index)
        recursiveActive := setAt s.recursiveActive (d + 1) (elementRec ctx d A R index) })
        (hs1'.congr rfl rfl) d (d + 1) (elementRec ctx d A R index)
        (elementTerms ctx d A R index) ?_
      · rw [exy] at this
        exact this.congr rfl rfl
      · intro i hi hf p hp hrec hin hlt
        dsimp only at hlt ⊢
        rw [(hsegs i hi hin).2, (hsegs i hi hin).1] at hlt ⊢
        rw [elementTerms_has hc, decide_eq_true hi, Bool.true_and] at hin
        rcases h.cases hi with ⟨-, hr, hal⟩ | ⟨h1, -, h3⟩
        · refine elementSeg_stop hp hal ?_ hin hlt
          rcases hpos with h0 | h0
          · exact Or.inl h0
          · exact Or.inr (by rw [h0]; simp)
        · rw [Term.atIndex, h3, h1] at hin
          simp at hin
    · exact ⟨s1.recursiveTermSegment, s1.recursivePathSegment, rfl, hs1'.congr rfl rfl⟩
  obtain ⟨x, y, em, hslots⟩ := hmasks
  have hd1 : s1.tape.depth = d + 1 := by
    rw [hstate]
    exact hdepth
  rw [em, hd1]
  refine ⟨_, rfl, hsegs, ?_, hslots.congr rfl rfl⟩
  dsimp only
  rw [hstate]

end Elements

end Lql.Scan
