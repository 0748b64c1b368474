import Lql.Scan.Regular

/-!
# One key for one term

The scanner matches an object key in two ways: at once, when the key lies plain in the buffer
(`tryPlainKeyMatch`), or byte by byte. For a regular term both find the same, and leave the
same segment for what follows: the key continues the segments matched one by one, or it is
one that the segment behind the `...` names.
-/

namespace Lql.Scan

open Lib

/-! ## Slots -/

/-- The slots of a term hold nothing but what the lookups would find without them. -/
structure SlotOk (s : State) (t : Term) (i : Nat) : Prop where
  term : ∀ p, t.Deep p → ∀ d, s.recursiveTermSegment d i = 0 ∨ s.recursiveTermSegment d i = p + 1
  path : ∀ p, t.Deep p → ∀ d, s.recursivePathSegment d i = 0 ∨
    (t.segments.length = p + 1 ∧ d = p ∧ s.recursivePathSegment d i = p + 1)

section Slots

variable {s : State} {t : Term} {i p : Nat}

theorem SlotOk.activeRecursive (h : SlotOk s t i) (hd : t.Deep p) (d : Nat) :
    activeRecursiveSegment s t i d = some p := by
  unfold activeRecursiveSegment
  split
  · next hc =>
    rcases h.term p hd d with h0 | h0
    · exact absurd h0 hc.2.2
    · rw [h0]; rfl
  · exact hd.deep

theorem SlotOk.activePath_self (h : SlotOk s t i) (hr : t.Regular) (d : Nat) :
    activePathSegment s t i d d = d := by
  unfold activePathSegment
  split
  · next hc =>
    rcases hr with hr | ⟨p, hr⟩
    · exact absurd hr.mask hc.1
    · rcases h.path p hr d with h0 | ⟨-, rfl, h0⟩
      · exact absurd h0 hc.2.2.2
      · rw [h0]; rfl
  · rfl

theorem SlotOk.activePath_tail (h : SlotOk s t i) (hd : t.Deep p) (hl : t.segments.length = p + 2)
    (d : Nat) : activePathSegment s t i d (p + 1) = p + 1 := by
  unfold activePathSegment
  split
  · next hc =>
    rcases h.path p hd d with h0 | ⟨h1, -, -⟩
    · exact absurd h0 hc.2.2.2
    · omega
  · rfl

end Slots

/-! ## Being alive -/

/-- The flags of a term at a depth: `recursive` only below its `...`; an `ordinary` that has
outlived the segments matched one by one stands beside a `recursive`, and behind the `...` is
nothing or `**`. -/
structure AliveAt (t : Term) (d : Nat) (ordinary recursive : Bool) : Prop where
  deep : recursive = true → ∃ p, t.Deep p ∧ p ≤ d
  late : ∀ p, ordinary = true → t.Deep p → p < d →
    t.joins d ordinary recursive = true ∧ (t.segments.length = p + 1 ∨ t.seg (p + 1) = segAny)

/-- The segment of a term that has matched at depth `d`. -/
def Term.hitSeg (t : Term) (d : Nat) (joined : Bool) : Nat :=
  match t.deep with
  | none => d
  | some p => if joined && t.segments.length ≠ p + 1 then p + 1 else d

/-- Segment `d` is not compared with a key byte by byte. -/
def Term.wild (t : Term) (d : Nat) : Bool :=
  d < t.segments.length && (t.seg d = segObject || t.seg d = segArray || t.seg d = segAny ||
    t.seg d = segRecursive)

section Alive

variable {t : Term} {d p : Nat} {o r : Bool}

theorem AliveAt.shallow (h : AliveAt t d o r) (ht : t.Shallow) : t.joins d o r = false := by
  have hr : r = false := by
    cases hr : r with
    | false => rfl
    | true =>
      obtain ⟨p, hp, -⟩ := h.deep hr
      exact absurd hp.here (ht.noDeep p hp.lt)
  simp [Term.joins, hr, ht.deep]

theorem AliveAt.deep_le (h : AliveAt t d o r) (ht : t.Deep p) (hj : t.joins d o r = true) : p ≤ d := by
  simp only [Term.joins, ht.deep, Bool.or_eq_true, Bool.and_eq_true, decide_eq_true_eq,
    Option.some.injEq] at hj
  rcases hj with (hr | ⟨-, he⟩) | he
  · obtain ⟨q, hq, hle⟩ := h.deep hr
    have := ht.only q hq.lt hq.here
    omega
  · omega
  · omega

/-- Before its `...` is reached an ordinary term waits for segment `d`. -/
theorem AliveAt.before (h : AliveAt t d o r) (ht : t.Deep p) (ho : o = true)
    (hj : t.joins d o r = false) : d < p := by
  rcases Nat.lt_trichotomy d p with hlt | heq | hgt
  · exact hlt
  · rw [Term.joins, ho, ht.deep, heq] at hj
    simp at hj
  · have := (h.late p ho ht hgt).1
    rw [hj] at this
    cases this

theorem Term.wild_eq (hp : PathOk t) (d : Nat) :
    (t.pathObjectWildcards ||| t.pathArrayWildcards ||| t.pathAnyWildcards |||
      t.pathRecursiveSegments).has d = t.wild d := by
  simp only [Mask.has_or, hp.objectWildcards, hp.arrayWildcards, hp.anyWildcards, hp.recursives,
    Term.wild, Bool.and_or_distrib_left]

/-- A segment that is compared names the keys it spells. -/
theorem Term.segKey_literal (hd : d < t.segments.length) (hw : t.wild d = false) (key : Bytes) :
    segKey (t.seg d) key = pointerSegmentEqual (t.seg d) key := by
  simp only [Term.wild, hd, decide_true, Bool.true_and, Bool.or_eq_false_iff,
    decide_eq_false_iff_not] at hw
  simp [segKey, hw.1.1.1, hw.1.1.2, hw.1.2, hw.2]

/-- Below the `...` an ordinary term that is still compared has nothing left to compare. -/
theorem AliveAt.late_end (h : AliveAt t d o r) (ht : t.Deep p) (ho : o = true) (hle : p ≤ d)
    (hw : t.wild d = false) : t.segments.length ≤ d := by
  by_contra hlt
  rw [Nat.not_le] at hlt
  rcases Nat.lt_or_eq_of_le hle with hgt | heq
  · have hany := (h.late p ho ht hgt).2
    have hlen : t.segments.length = p + 2 ∧ d = p + 1 := by
      rcases ht.last with hl | hl
      · omega
      · omega
    rcases hany with hl | hs
    · omega
    · rw [hlen.2] at hw hlt
      simp [Term.wild, hlt, hs] at hw
  · subst heq
    simp [Term.wild, ht.lt, ht.here] at hw

end Alive

/-! ## A key in the buffer -/

section Plain

variable {ctx : Ctx} {s : State} {ordinary recursive : Mask} {d i : Nat} {o r : Bool}

/-- What one round of `lql_json_try_plain_key_match` says of a term: what it should, with the
right segment, and never in both ways. -/
structure StepOk (t : Term) (d : Nat) (o r : Bool) (key : Bytes) (k : KeyStep) : Prop where
  hit : (k.ordinary || k.recursive) =
    ((o && !t.wild d && t.ordKey d key) || (t.joins d o r && t.recKey key))
  seg : (k.ordinary || k.recursive) = true → k.segment = t.hitSeg d (t.joins d o r)
  one : (k.ordinary && k.recursive) = false

/-- Before the `...`, or without one: the key decides on segment `d`. -/
theorem StepOk.of_ordinary {t : Term} {key : Bytes} {k : KeyStep} (seg : Nat) (ht : t.Regular)
    (ha : AliveAt t d o r) (ho : o = true) (hw : t.wild d = false) (hj : t.joins d o r = false)
    (hk : k = if segKey (t.seg d) key && decide (d < t.segments.length) then
        { ordinary := true, segment := d } else { segment := seg }) :
    StepOk t d o r key k := by
  have hfix : decide (d < t.fixed) = decide (d < t.segments.length) := by
    rcases ht with ht | ⟨p, ht⟩
    · rw [ht.fixed]
    · have := ha.before ht ho hj
      have := ht.lt
      rw [ht.fixed, decide_eq_true (by omega), decide_eq_true (by omega)]
  have hseg : t.hitSeg d (t.joins d o r) = d := by
    rw [hj, Term.hitSeg]
    cases t.deep <;> simp
  have hhit : (o && !t.wild d && t.ordKey d key || t.joins d o r && t.recKey key) =
      (segKey (t.seg d) key && decide (d < t.segments.length)) := by
    rw [hj, ho, hw, Term.ordKey, hfix, Bool.and_comm (segKey _ _)]
    simp
  subst hk
  refine ⟨?_, fun _ => ?_, ?_⟩
  · rw [hhit]
    cases segKey (t.seg d) key && decide (d < t.segments.length) <;> rfl
  · rw [hseg]
    split
    · rfl
    · next h1 h2 => rw [if_neg h2] at h1; cases h1
  · split <;> rfl

theorem rootKeyStep_spec (ht : (ctx.term i).Regular) (ha : AliveAt (ctx.term i) 0 o r) (ho : o = true)
    (hw : (ctx.term i).wild 0 = false) (hj : (ctx.term i).joins 0 o r = false) (key : Bytes) :
    StepOk (ctx.term i) 0 o r key (rootKeyStep ctx s key i) := by
  refine StepOk.of_ordinary (s.m.termSegment i) ht ha ho hw hj ?_
  have hp := ht.path
  rw [rootKeyStep, hp.field, hp.fieldPlain, plainSegmentEqual_eq,
    Term.segKey_literal hp.pos hw, decide_eq_true hp.pos, Bool.and_true]

theorem plainKeyStep_spec (hs : SlotOk s (ctx.term i) i) (ht : (ctx.term i).Regular)
    (ha : AliveAt (ctx.term i) d o r) (ho : ordinary.has i = (o && !(ctx.term i).wild d))
    (hr : recursive.has i = (ctx.term i).joins d o r)
    (hact : (ordinary.has i || recursive.has i) = true) (key : Bytes) :
    StepOk (ctx.term i) d o r key (plainKeyStep ctx s ordinary recursive d key i) := by
  have hp := ht.path
  have hself := hs.activePath_self ht d
  cases hj : (ctx.term i).joins d o r with
  | false =>
    -- only the ordinary flag is set, and both tests look at segment `d`
    rw [hr, hj, Bool.or_false] at hact
    have how := ho.symm.trans hact
    rw [Bool.and_eq_true, Bool.not_eq_true'] at how
    have hmatch : termSegmentMatchesObjectKey (ctx.term i) d key =
        (segKey ((ctx.term i).seg d) key && decide (d < (ctx.term i).segments.length)) := by
      rw [hp.matchesKey, Bool.and_comm (segKey _ _)]
      by_cases hlt : d < (ctx.term i).segments.length
      · have hne : (ctx.term i).seg d ≠ segRecursive := by
          intro e
          simp [Term.wild, hlt, e] at how
        simp [hlt, hne]
      · simp [hlt]
    refine StepOk.of_ordinary (s.m.termSegment i) ht ha how.1 how.2 hj ?_
    unfold plainKeyStep
    simp only [hself, hact, hr.trans hj, Bool.true_and, Bool.false_eq_true, if_false, hmatch]
    split <;> rfl
  | true =>
    rcases ht with ht | ⟨p, ht⟩
    · rw [ha.shallow ht] at hj
      cases hj
    have hle := ha.deep_le ht hj
    have hfix : (ctx.term i).ordKey d key = false := by
      rw [Term.ordKey, ht.fixed, decide_eq_false (by omega)]
      rfl
    have hord : (ordinary.has i && termSegmentMatchesObjectKey (ctx.term i) d key) = false := by
      rw [ho, hp.matchesKey]
      cases hw : (ctx.term i).wild d with
      | true => simp
      | false =>
        cases hoo : o with
        | false => simp
        | true =>
          have := ha.late_end ht hoo hle hw
          simp [Nat.not_lt.mpr this]
    have hrec := hs.activeRecursive ht d
    have hcount := hp.count
    unfold plainKeyStep
    simp only [hself, hord, hr.trans hj, hrec, ht.next, hcount, Bool.false_eq_true, if_false, if_true]
    rcases ht.last with hl | ⟨hl, hna, hnn⟩
    · rw [if_pos ⟨by omega, hle⟩]
      refine ⟨?_, fun _ => ?_, rfl⟩
      · simp [hj, hfix, Term.recKey, ht.deep, hl]
      · simp [Term.hitSeg, ht.deep, hl]
    · rw [if_neg (by omega)]
      have hne : (ctx.term i).seg (p + 1) ≠ segRecursive := fun e => by
        have := ht.only (p + 1) (by omega) e
        omega
      have hmatch : termSegmentMatchesObjectKey (ctx.term i) (p + 1) key =
          (ctx.term i).recKey key := by
        rw [hp.matchesKey, Term.recKey, ht.deep]
        simp [hl, hne]
      rw [hmatch, hs.activePath_tail ht hl]
      have hseg : (ctx.term i).hitSeg d true = p + 1 := by
        simp [Term.hitSeg, ht.deep, hl]
      cases hk : (ctx.term i).recKey key with
      | true =>
        rw [if_pos rfl]
        exact ⟨by simp [hj, hk], fun _ => by rw [hj, hseg], rfl⟩
      | false =>
        rw [if_neg (by simp), if_pos rfl]
        exact ⟨by simp [hfix, hk], fun h => absurd h (by simp), rfl⟩

end Plain

end Lql.Scan
