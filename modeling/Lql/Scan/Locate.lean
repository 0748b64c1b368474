import Lql.Scan.Independence

/-!
# Paths and the locations they name

What a path is for: it names locations of a document, segment by segment, where `...` stands for any
number of steps. A term is found in a record exactly when the value at one of its locations satisfies
it. The scanner follows a path depth by depth; at each depth, what is left to match is either the
segments behind that depth or those from the `...` on.
-/

namespace Lql.Json

/-- A step from a container to a value in it. -/
inductive Hop where
  | key (name : Bytes)
  | index (i : Nat)

def Members.list : Members → List (Str × Value)
  | .nil => []
  | .cons key v rest => (key, v) :: rest.list

def Elements.list : Elements → List Value
  | .nil => []
  | .cons v rest => v :: rest.list

/-- These steps lead from the first value to the second; of members with the same key, each has its
own. -/
inductive Value.At : Value → List Hop → Value → Prop where
  | here (v : Value) : v.At [] v
  | member {ms : Members} {key : Str} {v u : Value} {hops : List Hop} (hmem : (key, v) ∈ ms.list)
    (hat : v.At hops u) : (Value.obj ms).At (.key key.text :: hops) u
  | element {es : Elements} {i : Nat} {v u : Value} {hops : List Hop} (hget : es.list[i]? = some v)
    (hat : v.At hops u) : (Value.arr es).At (.index i :: hops) u

end Lql.Json

namespace Lql.Scan

open Lib Json

/-! ## Segments -/

/-- A segment with its escapes `~0` and `~1` resolved. -/
def unescape : Bytes → Bytes
  | [] => []
  | [c] => [c]
  | c :: d :: rest =>
    if c = chTilde ∧ d = chZero then chTilde :: unescape rest
    else if c = chTilde ∧ d = chOne then chSlash :: unescape rest
    else c :: unescape (d :: rest)

/-- The segment names the step: a literal the key it spells, a number that key and that index, and the
wildcards what they stand for. -/
def Takes (seg : Bytes) : Hop → Prop
  | .key name => seg = segObject ∨ seg = segAny ∨ (seg ≠ segArray ∧ unescape seg = name)
  | .index i => seg = segArray ∨ seg = segAny ∨ (isNumeric seg = true ∧ parseIndex seg = some i)

/-- The steps match the path, where `...` stands for zero or more steps. -/
inductive Matches : List Bytes → List Hop → Prop where
  | nil : Matches [] []
  | seg {seg : Bytes} {segs : List Bytes} {hop : Hop} {hops : List Hop} (hne : seg ≠ segRecursive)
    (htake : Takes seg hop) (hrest : Matches segs hops) : Matches (seg :: segs) (hop :: hops)
  | done {segs : List Bytes} {hops : List Hop} (hrest : Matches segs hops) :
    Matches (segRecursive :: segs) hops
  | deeper {segs : List Bytes} {hop : Hop} {hops : List Hop} (hrest : Matches (segRecursive :: segs) hops) :
    Matches (segRecursive :: segs) (hop :: hops)

theorem unescape_eq_nil {l : Bytes} : unescape l = [] ↔ l = [] := by
  match l with
  | [] => simp [unescape]
  | [c] => simp [unescape]
  | c :: d :: rest =>
    rw [unescape]
    split
    · simp
    · split <;> simp

/-- The scanner compares a segment with a key as it reads. -/
theorem pointerSegmentEqualFrom_eq {target : Bytes} : ∀ (key : Bytes) (pos : Nat), pos ≤ target.length →
    pointerSegmentEqualFrom target pos key = decide (unescape (target.drop pos) = key)
  | [], pos, hle => by
    rw [pointerSegmentEqualFrom]
    refine decide_eq_decide.mpr ?_
    rw [unescape_eq_nil, List.drop_eq_nil_iff]
    omega
  | k :: key, pos, hle => by
    have hlen : (target.drop pos).length = target.length - pos := List.length_drop
    have hdrop : ∀ n, (target.drop pos).drop n = target.drop (pos + n) := fun n => List.drop_drop
    rw [pointerSegmentEqualFrom, pointerTargetByte]
    cases hd : target.drop pos with
    | nil => simp [unescape]
    | cons c rest =>
        have hone := hdrop 1
        rw [hd] at hlen hone
        cases rest with
        | nil =>
            have hlt : pos + 1 ≤ target.length := by
              rw [List.length_singleton] at hlen
              omega
            dsimp only
            rw [pointerSegmentEqualFrom_eq key (pos + 1) hlt, ← hone, Bool.eq_iff_iff]
            simp [unescape]
        | cons d rest =>
            have htwo := hdrop 2
            rw [hd] at htwo
            simp only [List.drop_succ_cons, List.drop_zero] at hone htwo
            simp only [List.length_cons] at hlen
            dsimp only
            rw [unescape]
            by_cases h0 : c = chTilde ∧ d = chZero
            · rw [if_pos h0, if_pos h0]
              dsimp only
              rw [pointerSegmentEqualFrom_eq key (pos + 2) (by omega), ← htwo, Bool.eq_iff_iff]
              simp
            rw [if_neg h0, if_neg h0]
            by_cases h1 : c = chTilde ∧ d = chOne
            · rw [if_pos h1, if_pos h1]
              dsimp only
              rw [pointerSegmentEqualFrom_eq key (pos + 2) (by omega), ← htwo, Bool.eq_iff_iff]
              simp
            · rw [if_neg h1, if_neg h1]
              dsimp only
              rw [pointerSegmentEqualFrom_eq key (pos + 1) (by omega), ← hone, Bool.eq_iff_iff]
              simp

theorem pointerSegmentEqual_eq (seg key : Bytes) : pointerSegmentEqual seg key = decide (unescape seg = key) := by
  have := pointerSegmentEqualFrom_eq key 0 (Nat.zero_le seg.length)
  rwa [List.drop_zero] at this

theorem takes_key {seg key : Bytes} (h : seg ≠ segRecursive) : segKey seg key = true ↔ Takes seg (.key key) := by
  simp [segKey, Takes, pointerSegmentEqual_eq, h, or_assoc]

theorem takes_index {seg : Bytes} {i : Nat} : segIndex seg i = true ↔ Takes seg (.index i) := by
  simp [segIndex, Takes, or_assoc]

/-! ## What is left to match -/

theorem matches_nil {hops : List Hop} : Matches [] hops ↔ hops = [] := by
  constructor
  · intro h
    cases h
    rfl
  · rintro rfl
    exact .nil

theorem matches_seg {seg : Bytes} {segs : List Bytes} (hne : seg ≠ segRecursive) {hops : List Hop} :
    Matches (seg :: segs) hops ↔ ∃ hop rest, hops = hop :: rest ∧ Takes seg hop ∧ Matches segs rest := by
  constructor
  · intro h
    cases h with
    | seg _ ht hr => exact ⟨_, _, rfl, ht, hr⟩
    | done _ => exact absurd rfl hne
    | deeper _ => exact absurd rfl hne
  · rintro ⟨hop, rest, rfl, ht, hr⟩
    exact .seg hne ht hr

theorem matches_deep_cons {segs : List Bytes} {hop : Hop} {hops : List Hop} :
    Matches (segRecursive :: segs) (hop :: hops) ↔
      Matches (segRecursive :: segs) hops ∨ Matches segs (hop :: hops) := by
  constructor
  · intro h
    cases h with
    | seg hne _ _ => exact absurd rfl hne
    | done hr => exact .inr hr
    | deeper hr => exact .inl hr
  · rintro (h | h)
    · exact .deeper h
    · exact .done h

theorem matches_deep_nil {segs : List Bytes} : Matches (segRecursive :: segs) [] ↔ Matches segs [] := by
  constructor
  · intro h
    cases h with
    | done hr => exact hr
  · exact .done

section Waits

variable {t : Term} {d : Nat} {o r : Bool} {p : Nat}

/-- The steps match what the term waits for at depth `d`: the segments from `d` on, or those from its
`...` on. -/
def Term.Waits (t : Term) (d : Nat) (o r : Bool) (hops : List Hop) : Prop :=
  (o = true ∧ d ≤ t.fixed ∧ Matches (t.segments.drop d) hops) ∨
    ∃ p, t.deep = some p ∧ t.joins d o r = true ∧ Matches (t.segments.drop p) hops

/-- A term below its `...` is past it. -/
def Term.Past (t : Term) (d : Nat) (r : Bool) : Prop := ∀ p, t.deep = some p → r = true → p ≤ d

theorem drop_seg {k : Nat} (hk : k < t.segments.length) : t.segments.drop k = t.seg k :: t.segments.drop (k + 1) := by
  rw [List.drop_eq_getElem_cons hk, Term.seg, segAt, List.getD_eq_getElem?_getD, List.getElem?_eq_getElem hk]
  rfl

/-- A path without `...`: one segment, one step. -/
theorem Term.Shallow.waits_cons (h : t.Shallow) {hop : Hop} {hops : List Hop} :
    t.Waits d o r (hop :: hops) ↔ o = true ∧ d < t.segments.length ∧ Takes (t.seg d) hop ∧
      Matches (t.segments.drop (d + 1)) hops := by
  rw [Term.Waits, h.deep, h.fixed]
  constructor
  · rintro (⟨ho, hle, hm⟩ | ⟨p, he, -⟩)
    · rcases Nat.lt_or_eq_of_le hle with hlt | rfl
      · rw [drop_seg hlt, matches_seg (h.noDeep d hlt)] at hm
        obtain ⟨hop', rest, he, ht, hr⟩ := hm
        cases he
        exact ⟨ho, hlt, ht, hr⟩
      · rw [List.drop_length, matches_nil] at hm
        cases hm
    · cases he
  · rintro ⟨ho, hlt, ht, hr⟩
    exact .inl ⟨ho, Nat.le_of_lt hlt, by rw [drop_seg hlt]; exact .seg (h.noDeep d hlt) ht hr⟩

theorem Term.Shallow.matches_nil (h : t.Shallow) {k : Nat} (hk : k ≤ t.segments.length) :
    Matches (t.segments.drop k) [] ↔ t.segments.length = k := by
  rcases Nat.lt_or_eq_of_le hk with hlt | rfl
  · rw [drop_seg hlt, matches_seg (h.noDeep k hlt)]
    constructor
    · rintro ⟨hop, rest, he, -⟩
      cases he
    · intro he
      omega
  · simp [Scan.matches_nil]

/-- What a path waits for from its `...` on. -/
theorem Term.Deep.matches_cons (h : t.Deep p) {hop : Hop} {hops : List Hop} :
    Matches (t.segments.drop p) (hop :: hops) ↔ Matches (t.segments.drop p) hops ∨
      (t.segments.length = p + 2 ∧ Takes (t.seg (p + 1)) hop ∧ hops = []) := by
  rw [drop_seg h.lt, h.here, matches_deep_cons]
  refine or_congr_right ?_
  rcases h.last with hl | ⟨hl, -, -⟩
  · rw [List.drop_eq_nil_iff.mpr (by omega), Scan.matches_nil]
    constructor
    · intro he
      cases he
    · intro he
      omega
  · have hne : t.seg (p + 1) ≠ segRecursive := by
      intro he
      have := h.only (p + 1) (by omega) he
      omega
    rw [drop_seg (by omega), matches_seg hne, List.drop_eq_nil_iff.mpr (by omega)]
    constructor
    · rintro ⟨hop', rest, he, ht, hr⟩
      cases he
      exact ⟨hl, ht, Scan.matches_nil.mp hr⟩
    · rintro ⟨-, ht, rfl⟩
      exact ⟨hop, [], rfl, ht, .nil⟩

theorem Term.Deep.matches_nil (h : t.Deep p) : Matches (t.segments.drop p) [] ↔ t.segments.length = p + 1 := by
  rw [drop_seg h.lt, h.here, matches_deep_nil]
  rcases h.last with hl | ⟨hl, -, -⟩
  · rw [List.drop_eq_nil_iff.mpr (by omega)]
    exact ⟨fun _ => hl, fun _ => .nil⟩
  · have hne : t.seg (p + 1) ≠ segRecursive := by
      intro he
      have := h.only (p + 1) (by omega) he
      omega
    rw [drop_seg (by omega), matches_seg hne]
    constructor
    · rintro ⟨hop, rest, he, -⟩
      cases he
    · intro he
      omega

/-- A path with a `...`, in front of it or below it. -/
theorem Term.Deep.waits_cons (h : t.Deep p) {hop : Hop} {hops : List Hop} :
    t.Waits d o r (hop :: hops) ↔
      (o = true ∧ d < p ∧ Takes (t.seg d) hop ∧ Matches (t.segments.drop (d + 1)) hops) ∨
        (t.joins d o r = true ∧ (Matches (t.segments.drop p) hops ∨
          (t.segments.length = p + 2 ∧ Takes (t.seg (p + 1)) hop ∧ hops = []))) := by
  rw [Term.Waits, h.deep, h.fixed]
  have hfront : ∀ {k : Nat}, k < p → (Matches (t.segments.drop k) (hop :: hops) ↔
      Takes (t.seg k) hop ∧ Matches (t.segments.drop (k + 1)) hops) := by
    intro k hk
    have hlt := h.lt
    have hne : t.seg k ≠ segRecursive := by
      intro he
      have := h.only k (by omega) he
      omega
    rw [drop_seg (by omega), matches_seg hne]
    constructor
    · rintro ⟨hop', rest, he, ht, hr⟩
      cases he
      exact ⟨ht, hr⟩
    · rintro ⟨ht, hr⟩
      exact ⟨hop, hops, rfl, ht, hr⟩
  constructor
  · rintro (⟨ho, hle, hm⟩ | ⟨p', he, hj, hm⟩)
    · rcases Nat.lt_or_eq_of_le hle with hlt | rfl
      · exact .inl ⟨ho, hlt, (hfront hlt).mp hm⟩
      · exact .inr ⟨by simp [Term.joins, ho, h.deep], h.matches_cons.mp hm⟩
    · cases he
      exact .inr ⟨hj, h.matches_cons.mp hm⟩
  · rintro (⟨ho, hlt, hm⟩ | ⟨hj, hm⟩)
    · exact .inl ⟨ho, Nat.le_of_lt hlt, (hfront hlt).mpr hm⟩
    · exact .inr ⟨p, rfl, hj, h.matches_cons.mpr hm⟩

/-! ## One step down -/

theorem Term.joins_past (h : t.Past d r) (hd : t.deep = some p) (hj : t.joins d o r = true) : p ≤ d := by
  simp only [Term.joins, hd, Bool.or_eq_true, Bool.and_eq_true, decide_eq_true_eq, Option.some.injEq] at hj
  rcases hj with (hr | ⟨-, rfl⟩) | rfl
  · exact h p hd hr
  · exact Nat.le_refl _
  · exact Nat.zero_le _

theorem Term.Past.key (h : t.Past d r) : t.Past (d + 1) (t.joins d o r) :=
  fun _ hd hj => Nat.le_succ_of_le (Term.joins_past h hd hj)

/-- What `hereKey` and `hereIndex` have in common: `takes` is the step. -/
def Term.hereBy (t : Term) (takes : Bytes → Bool) (d : Nat) (o r : Bool) : Bool :=
  (o && (decide (d < t.fixed) && takes (t.seg d)) && t.ordValue d) ||
    (t.joins d o r && match t.deep with
      | none => false
      | some p => t.segments.length = p + 1 || takes (t.seg (p + 1)))

/-- A step arrives at the value when nothing is left to match. -/
theorem Term.Regular.here_by (h : t.Regular) (takes : Bytes → Bool) (hop : Hop)
    (htakes : ∀ k, t.seg k ≠ segRecursive → (takes (t.seg k) = true ↔ Takes (t.seg k) hop)) :
    t.hereBy takes d o r = true ↔ t.Waits d o r [hop] := by
  rcases h with hs | ⟨p, hp⟩
  · rw [hs.waits_cons]
    simp only [Term.hereBy, Term.ordValue, hs.fixed, hs.deep, Bool.and_false,
      Bool.or_false, Bool.and_eq_true, decide_eq_true_eq, reduceCtorEq, decide_false, Bool.false_and]
    constructor
    · rintro ⟨⟨ho, hlt, hk⟩, hl⟩
      exact ⟨ho, hlt, (htakes d (hs.noDeep d hlt)).mp hk, (hs.matches_nil hlt).mpr hl⟩
    · rintro ⟨ho, hlt, hk, hl⟩
      exact ⟨⟨ho, hlt, (htakes d (hs.noDeep d hlt)).mpr hk⟩, (hs.matches_nil hlt).mp hl⟩
  · rw [hp.waits_cons]
    have hlt := hp.lt
    have hseg : ∀ k < t.segments.length, k ≠ p → t.seg k ≠ segRecursive :=
      fun k hk hne he => hne (hp.only k hk he)
    simp only [Term.hereBy, Term.ordValue, hp.fixed, hp.deep, Bool.or_eq_true,
      Bool.and_eq_true, decide_eq_true_eq, Option.some.injEq]
    refine or_congr ?_ (and_congr_right fun _ => ?_)
    · constructor
      · rintro ⟨⟨ho, hd, hk⟩, hl⟩
        obtain ⟨rfl, hl⟩ : p = d + 1 ∧ t.segments.length = d + 2 := by omega
        exact ⟨ho, hd, (htakes d (hseg d (by omega) (by omega))).mp hk, hp.matches_nil.mpr (by omega)⟩
      · rintro ⟨ho, hd, hk, hm⟩
        refine ⟨⟨ho, hd, (htakes d (hseg d (by omega) (by omega))).mpr hk⟩, .inr ?_⟩
        by_cases hpd : p = d + 1
        · subst hpd
          exact ⟨rfl, hp.matches_nil.mp hm⟩
        · rw [drop_seg (by omega), matches_seg (hseg (d + 1) (by omega) (by omega))] at hm
          obtain ⟨_, _, he, -⟩ := hm
          cases he
    · rw [hp.matches_nil]
      constructor
      · rintro (hl | hk)
        · exact .inl hl
        · rcases hp.last with hl | ⟨hl, -, -⟩
          · exact .inl hl
          · exact .inr ⟨hl, (htakes _ (hseg (p + 1) (by omega) (by omega))).mp hk, trivial⟩
      · rintro (hl | ⟨hl, hk, -⟩)
        · exact .inl hl
        · exact .inr ((htakes _ (hseg (p + 1) (by omega) (by omega))).mpr hk)

theorem Term.Regular.here_key (h : t.Regular) (key : Bytes) :
    t.hereKey d o r key = true ↔ t.Waits d o r [.key key] :=
  h.here_by (segKey · key) (.key key) fun _ hne => takes_key hne

theorem Term.Regular.here_index (h : t.Regular) (i : Nat) :
    t.hereIndex d o r i = true ↔ t.Waits d o r [.index i] :=
  h.here_by (segIndex · i) (.index i) fun _ _ => takes_index

/-- Below a key the rest is left to match. -/
theorem Term.Regular.below_key (h : t.Regular) (key : Bytes) {hops : List Hop} (hne : hops ≠ []) :
    t.Waits (d + 1) (t.belowKey d o key) (t.joins d o r) hops ↔ t.Waits d o r (.key key :: hops) := by
  rcases h with hs | ⟨p, hp⟩
  · rw [hs.waits_cons, Term.Waits, hs.deep]
    simp only [Term.belowKey, Term.ordKey, hs.fixed, Bool.and_eq_true, decide_eq_true_eq, reduceCtorEq,
      false_and, exists_false, or_false]
    constructor
    · rintro ⟨⟨⟨ho, hd, hk⟩, -⟩, -, hm⟩
      exact ⟨ho, hd, (takes_key (hs.noDeep d hd)).mp hk, hm⟩
    · rintro ⟨ho, hd, hk, hm⟩
      refine ⟨⟨⟨ho, hd, (takes_key (hs.noDeep d hd)).mpr hk⟩, ?_⟩, hd, hm⟩
      -- steps are left, so segments are left
      by_contra hl
      rw [List.drop_eq_nil_iff.mpr (by omega), matches_nil] at hm
      exact hne hm
  · rw [hp.waits_cons, Term.Waits, hp.deep]
    have hlt := hp.lt
    have hseg : ∀ k < t.segments.length, k ≠ p → t.seg k ≠ segRecursive :=
      fun k hk hne he => hne (hp.only k hk he)
    simp only [Term.belowKey, Term.ordKey, hp.fixed, Bool.and_eq_true, decide_eq_true_eq, Option.some.injEq,
      hne, and_false, or_false]
    constructor
    · rintro (⟨⟨⟨ho, hd, hk⟩, -⟩, -, hm⟩ | ⟨p', rfl, hj, hm⟩)
      · exact .inl ⟨ho, hd, (takes_key (hseg d (by omega) (by omega))).mp hk, hm⟩
      · rw [Term.joins, hp.deep] at hj
        simp only [Bool.or_eq_true, Bool.and_eq_true, decide_eq_true_eq, Option.some.injEq] at hj
        rcases hj with (hj | ⟨⟨⟨ho, hd, hk⟩, -⟩, rfl⟩) | rfl
        · exact .inr ⟨hj, hm⟩
        · exact .inl ⟨ho, hd, (takes_key (hseg d (by omega) (by omega))).mp hk, hm⟩
        · exact .inr ⟨by simp [Term.joins, hp.deep], hm⟩
    · rintro (⟨ho, hd, hk, hm⟩ | ⟨hj, hm⟩)
      · exact .inl ⟨⟨⟨ho, hd, (takes_key (hseg d (by omega) (by omega))).mpr hk⟩, by omega⟩, by omega, hm⟩
      · exact .inr ⟨p, rfl, by rw [Term.joins, hj]; rfl, hm⟩

/-- An element in front of a `...` stands right in front of it. -/
theorem Term.Deep.carries_front (h : t.Deep p) (h0 : 0 < d) (hd : d < p) {i : Nat}
    (hi : segIndex (t.seg d) i = true) : d + 1 = p := by
  refine (h.before d h0 hd ?_).1
  simp only [segIndex, Bool.or_eq_true, Bool.and_eq_true, decide_eq_true_eq] at hi
  simp only [Term.arrayLike, Bool.or_eq_true, decide_eq_true_eq]
  tauto

/-- Below an index the rest is left to match. -/
theorem Term.Regular.below_index (h : t.Regular) (h0 : 0 < d) (hpast : t.Past d r) (i : Nat) {hops : List Hop}
    (hne : hops ≠ []) :
    t.Waits (d + 1) (t.atIndex d o r i) (t.carries d o r i) hops ↔ t.Waits d o r (.index i :: hops) := by
  rcases h with hs | ⟨p, hp⟩
  · rw [hs.waits_cons, Term.Waits, hs.deep]
    simp only [Term.atIndex, Term.ordIndex, Term.recIndex, hs.fixed, hs.deep, Bool.and_eq_true,
      decide_eq_true_eq, reduceCtorEq, false_and, exists_false, or_false, Bool.and_false, Bool.or_false]
    constructor
    · rintro ⟨⟨ho, hd, hk⟩, -, hm⟩
      exact ⟨ho, hd, takes_index.mp hk, hm⟩
    · rintro ⟨ho, hd, hk, hm⟩
      exact ⟨⟨ho, hd, takes_index.mpr hk⟩, hd, hm⟩
  · have hjoin : t.joins d o r = true → p ≤ d := Term.joins_past hpast hp.deep
    have hat : t.atIndex d o r i = true ↔
        (o = true ∧ d < p ∧ segIndex (t.seg d) i = true) ∨ (t.joins d o r = true ∧ t.recIndex i = true) := by
      simp only [Term.atIndex, Term.ordIndex, hp.fixed, Bool.or_eq_true, Bool.and_eq_true, decide_eq_true_eq]
    rw [hp.waits_cons, Term.Waits, hp.deep, hp.fixed]
    simp only [Option.some.injEq, hne, and_false, or_false]
    constructor
    · rintro (⟨hatd, hle, hm⟩ | ⟨p', rfl, hj, hm⟩)
      · rcases hat.mp hatd with ⟨ho, hd, hk⟩ | ⟨hj, -⟩
        · exact .inl ⟨ho, hd, takes_index.mp hk, hm⟩
        · have := hjoin hj
          omega
      · -- the `...` was alive before, or is reached by this step
        rw [Term.joins, hp.deep, Term.carries, hp.deep] at hj
        simp only [Bool.or_eq_true, Bool.and_eq_true, decide_eq_true_eq, Option.some.injEq,
          Option.isSome_some, and_true] at hj
        have hcase : t.joins d o r = true ∨ t.atIndex d o r i = true := by
          rcases hj with ((hj | hj) | ⟨hj, -⟩) | rfl
          · exact .inl hj
          · exact .inr hj
          · exact .inr hj
          · exact .inl (by simp [Term.joins, hp.deep])
        rcases hcase with hj | hj
        · exact .inr ⟨hj, hm⟩
        · rcases hat.mp hj with ⟨ho, hd, hk⟩ | ⟨hj, -⟩
          · have hdp := hp.carries_front h0 hd hk
            rw [← hdp] at hm
            exact .inl ⟨ho, hd, takes_index.mp hk, hm⟩
          · exact .inr ⟨hj, hm⟩
    · rintro (⟨ho, hd, hk, hm⟩ | ⟨hj, hm⟩)
      · exact .inl ⟨hat.mpr (.inl ⟨ho, hd, takes_index.mpr hk⟩), hd, hm⟩
      · refine .inr ⟨p, rfl, ?_, hm⟩
        rw [Term.joins, Term.carries, hj]
        rfl

theorem Term.Regular.past_index (h : t.Regular) (h0 : 0 < d) (hpast : t.Past d r) (i : Nat) :
    t.Past (d + 1) (t.carries d o r i) := by
  intro q hq hc
  rw [Term.carries, Bool.or_eq_true, Bool.and_eq_true] at hc
  rcases hc with hj | ⟨hat, -⟩
  · exact Nat.le_succ_of_le (Term.joins_past hpast hq hj)
  · rcases h with hs | ⟨p, hp⟩
    · rw [hs.deep] at hq
      cases hq
    · rw [hp.deep] at hq
      cases hq
      simp only [Term.atIndex, Term.ordIndex, hp.fixed, Bool.or_eq_true, Bool.and_eq_true,
        decide_eq_true_eq] at hat
      rcases hat with ⟨-, hd, hk⟩ | ⟨hj, -⟩
      · exact Nat.le_of_eq (hp.carries_front h0 hd hk).symm
      · exact Nat.le_succ_of_le (Term.joins_past hpast hp.deep hj)

end Waits

/-! ## A term and its locations -/

section Reaches

variable {t : Term} {lim : Nat}

/-- Some value strictly below is at the end of what the term waits for, and satisfies it. -/
def Term.Reaches (t : Term) (lim d : Nat) (o r : Bool) (v : Value) : Prop :=
  ∃ hops u, hops ≠ [] ∧ v.At hops u ∧ t.Waits d o r hops ∧ t.satisfies (u.long lim) u = true

/-- At a member or an element the term has arrived, or waits for more. -/
theorem reaches_step (lim : Nat) (v : Value) {d : Nat} {o r o' r' here : Bool} {hop : Hop}
    (hhere : here = true ↔ t.Waits d o r [hop])
    (hbelow : ∀ hops, hops ≠ [] → (t.Waits (d + 1) o' r' hops ↔ t.Waits d o r (hop :: hops))) :
    (here = true ∧ t.satisfies (v.long lim) v = true) ∨ t.Reaches lim (d + 1) o' r' v ↔
      ∃ hops u, v.At hops u ∧ t.Waits d o r (hop :: hops) ∧ t.satisfies (u.long lim) u = true := by
  constructor
  · rintro (⟨hh, hs⟩ | ⟨hops, u, hne, hat, hw, hs⟩)
    · exact ⟨[], v, .here v, hhere.mp hh, hs⟩
    · exact ⟨hops, u, hat, (hbelow hops hne).mp hw, hs⟩
  · rintro ⟨hops, u, hat, hw, hs⟩
    cases hops with
    | nil =>
        cases hat
        exact .inl ⟨hhere.mpr hw, hs⟩
    | cons hop' hops =>
        exact .inr ⟨_, u, List.cons_ne_nil _ _, hat, (hbelow _ (List.cons_ne_nil _ _)).mpr hw, hs⟩

theorem scalar_reaches {d : Nat} {o r : Bool} {v : Value} (h : ∀ hops u, hops ≠ [] → ¬ v.At hops u) :
    false = true ↔ t.Reaches lim d o r v := by
  constructor
  · intro hf
    cases hf
  · rintro ⟨hops, u, hne, hat, -⟩
    exact absurd hat (h hops u hne)

mutual

/-- **A term finds what is at its locations.** -/
theorem Term.Regular.finds_iff (h : t.Regular) : ∀ (v : Value) (d : Nat) (o r : Bool),
    (v.isObject = false → 0 < d) → t.Past d r → (t.finds lim d o r v = true ↔ t.Reaches lim d o r v)
  | .obj ms, d, o, r, _, hp => by
    rw [Term.finds, h.findsMembers_iff ms d o r hp]
    constructor
    · rintro ⟨key, v, hops, u, hmem, hat, hw, hs⟩
      exact ⟨_, u, List.cons_ne_nil _ _, .member hmem hat, hw, hs⟩
    · rintro ⟨hops, u, hne, hat, hw, hs⟩
      cases hat with
      | here => exact absurd rfl hne
      | member hmem hat => exact ⟨_, _, _, u, hmem, hat, hw, hs⟩
  | .arr es, d, o, r, h0, hp => by
    rw [Term.finds, h.findsElements_iff es d 0 o r (h0 rfl) hp]
    constructor
    · rintro ⟨i, v, hops, u, hget, hat, hw, hs⟩
      rw [Nat.zero_add] at hw
      exact ⟨_, u, List.cons_ne_nil _ _, .element hget hat, hw, hs⟩
    · rintro ⟨hops, u, hne, hat, hw, hs⟩
      cases hat with
      | here => exact absurd rfl hne
      | element hget hat => exact ⟨_, _, _, u, hget, hat, by rwa [Nat.zero_add], hs⟩
  | .str _, _, _, _, _, _ => scalar_reaches fun _ _ hne hat => by
    cases hat
    exact hne rfl
  | .num _, _, _, _, _, _ => scalar_reaches fun _ _ hne hat => by
    cases hat
    exact hne rfl
  | .lit _, _, _, _, _, _ => scalar_reaches fun _ _ hne hat => by
    cases hat
    exact hne rfl

theorem Term.Regular.findsMembers_iff (h : t.Regular) : ∀ (ms : Json.Members) (d : Nat) (o r : Bool),
    t.Past d r → (t.findsMembers lim d o r ms = true ↔ ∃ key v hops u, (key, v) ∈ ms.list ∧
      v.At hops u ∧ t.Waits d o r (.key key.text :: hops) ∧ t.satisfies (u.long lim) u = true)
  | .nil, d, o, r, _ => by
    rw [Term.findsMembers]
    simp [Members.list]
  | .cons key v rest, d, o, r, hp => by
    have hv := h.finds_iff v (d + 1) (t.belowKey d o key.text) (t.joins d o r) (fun _ => Nat.succ_pos d) hp.key
    have hstep := reaches_step lim v (h.here_key key.text) fun hops hne =>
      h.below_key (d := d) (o := o) (r := r) key.text hne
    rw [Term.findsMembers, Bool.or_eq_true, Bool.or_eq_true, Bool.and_eq_true, hv, hstep,
      h.findsMembers_iff rest d o r hp]
    simp only [Members.list, List.mem_cons, Prod.mk.injEq]
    constructor
    · rintro (⟨hops, u, hat, hw, hs⟩ | ⟨key', v', hops, u, hmem, hat, hw, hs⟩)
      · exact ⟨key, v, hops, u, .inl ⟨rfl, rfl⟩, hat, hw, hs⟩
      · exact ⟨key', v', hops, u, .inr hmem, hat, hw, hs⟩
    · rintro ⟨key', v', hops, u, ⟨rfl, rfl⟩ | hmem, hat, hw, hs⟩
      · exact .inl ⟨hops, u, hat, hw, hs⟩
      · exact .inr ⟨key', v', hops, u, hmem, hat, hw, hs⟩

theorem Term.Regular.findsElements_iff (h : t.Regular) : ∀ (es : Json.Elements) (d index : Nat) (o r : Bool),
    0 < d → t.Past d r → (t.findsElements lim d o r index es = true ↔ ∃ i v hops u,
      es.list[i]? = some v ∧ v.At hops u ∧ t.Waits d o r (.index (index + i) :: hops) ∧
        t.satisfies (u.long lim) u = true)
  | .nil, d, index, o, r, _, _ => by
    rw [Term.findsElements]
    simp [Elements.list]
  | .cons v rest, d, index, o, r, h0, hp => by
    have hv := h.finds_iff v (d + 1) (t.atIndex d o r index) (t.carries d o r index)
      (fun _ => Nat.succ_pos d) (h.past_index h0 hp index)
    have hstep := reaches_step lim v (h.here_index index) fun hops hne => h.below_index (o := o) h0 hp index hne
    rw [Term.findsElements, Bool.or_eq_true, Bool.or_eq_true, Bool.and_eq_true, hv, hstep,
      h.findsElements_iff rest d (index + 1) o r h0 hp]
    constructor
    · rintro (⟨hops, u, hat, hw, hs⟩ | ⟨i, v', hops, u, hget, hat, hw, hs⟩)
      · exact ⟨0, v, hops, u, rfl, hat, hw, hs⟩
      · exact ⟨i + 1, v', hops, u, hget, hat, by rwa [Nat.add_right_comm] at hw, hs⟩
    · rintro ⟨i, v', hops, u, hget, hat, hw, hs⟩
      cases i with
      | zero =>
          cases hget
          exact .inl ⟨hops, u, hat, hw, hs⟩
      | succ i =>
          refine .inr ⟨i, v', hops, u, hget, hat, ?_, hs⟩
          rwa [Nat.add_right_comm]

end

end Reaches

/-! ## A scan for one term -/

/-- A scan for one term and nothing else. -/
def soloScan (t : Term) (capture stop : Bool) (mask : Mask) : Ctx :=
  { terms := [t], capture, stopMatchingOnHit := stop, stopHitMask := mask, captureKeys := [] }

/-- How long a number may get before the term only summarises it. -/
def Term.limit (t : Term) : Nat := min (max (literalLen t + 64) numberMatchBytes) numberMatchHeapLimit

/-- The value satisfies the term's predicate: present and not null for `exist`, present at all without
a value, or within the comparison. -/
def Term.accepts (t : Term) (v : Value) : Bool := t.satisfies (v.long t.limit) v

section Solo

variable {t : Term} {capture stop : Bool} {mask : Mask}

theorem soloScan_sound (ht : t.Regular) (hl : t.LiteralsOk) : (soloScan t capture stop mask).Sound := by
  have hlast : ∀ j < (soloScan t capture stop mask).n, j = 0 := fun j hj => Nat.lt_one_iff.mp hj
  refine ⟨⟨Nat.le_of_ble_eq_true rfl, Nat.le_of_ble_eq_true rfl, fun j hj d k hk he => ?_⟩, fun j hj => ?_,
    fun j hj => ?_, fun c hc => absurd hc (Nat.not_lt_zero c)⟩
  · exact ⟨fun j' hj' hne => absurd ((hlast j' hj').trans (hlast j hj).symm) hne,
      fun c hc => absurd hc (Nat.not_lt_zero c)⟩
  · rw [hlast j hj]
    exact ht
  · rw [hlast j hj]
    exact hl

/-- A number of a record is too long to keep exactly from the term's limit on. -/
theorem soloScan_gauge (hc : CtxOk (soloScan t capture stop mask)) (token : Bytes) :
    Gauge (soloScan t capture stop mask) t.limit (· ≤ t.limit) token := by
  refine .of_limit ?_ (fun here hne => ?_) token
  · have : 0 < min numberMatchBytes numberMatchHeapLimit := by decide
    rw [Term.limit]
    omega
  · obtain ⟨j, hj⟩ := Mask.ne_zero_iff.mp hne
    have hj0 : j = 0 := by
      have := hj
      rw [numberTerms, maskOf_has_le hc.terms, Bool.and_eq_true, decide_eq_true_eq] at this
      exact Nat.lt_one_iff.mp this.1
    rw [hj0] at hj
    rw [numberLimit, Term.limit, show (soloScan t capture stop mask).n = 1 from rfl, List.range_one,
      List.foldl_cons, List.foldl_nil, if_pos hj, Nat.zero_max]
    rfl

/-- What a scan of one document says about its one term. -/
theorem soloScan_hit (ht : t.Regular) (hl : t.LiteralsOk) {chunks : List Bytes} (hc : ReaderOk chunks)
    {v : Value} (hv : v.Writes chunks.flatten) (hobj : v.isObject = true) :
    (v.scans 0 = true → ∃ r, scanAll (soloScan t capture stop mask) chunks = ([r], .ok)) ∧
      ∀ r ∈ (scanAll (soloScan t capture stop mask) chunks).1,
        r.hits.has 0 = (t.rootPresent || t.finds t.limit 0 true false v) := by
  have hsound : (soloScan t capture stop mask).Sound := soloScan_sound ht hl
  have hroot : v.isArray = false := by
    cases v with
    | arr _ => cases hobj
    | obj _ => rfl
    | str _ => rfl
    | num _ => rfl
    | lit _ => rfl
  obtain ⟨mid, hrun⟩ := scanRun_alone (soloScan t capture stop mask) hv hroot
  rw [scanAll_run hsound hc, hrun]
  refine ⟨fun hs => ?_, fun r hr => ?_⟩
  · obtain ⟨w, hw⟩ : ∃ w, walkRecord (soloScan t capture stop mask) numberMatchBytes v = some w :=
      Option.isSome_iff_exists.mp (walkValue_scans v hs)
    rw [hw]
    exact ⟨_, rfl⟩
  · cases hw : walkRecord (soloScan t capture stop mask) numberMatchBytes v with
    | none =>
        rw [hw] at hr
        cases hr
    | some w =>
        rw [hw] at hr
        cases List.mem_singleton.mp hr
        have hstart : numberMatchBytes ≤ t.limit := by
          have : numberMatchBytes ≤ numberMatchHeapLimit := by decide
          rw [Term.limit]
          omega
        obtain ⟨-, hbits⟩ := walkRecord_finds hsound.ok (.single rfl) (fun token _ => soloScan_gauge hsound.ok token)
          hstart hw
        have := hbits 0 Nat.one_pos
        rw [hobj, Bool.true_and] at this
        rw [report, hobj]
        exact this

end Solo

/-! ## The two readings -/

/-- Without `...` a path is matched segment by segment. -/
theorem matches_iff_forall₂ : ∀ {segs : List Bytes} {hops : List Hop}, (∀ seg ∈ segs, seg ≠ segRecursive) →
    (Matches segs hops ↔ List.Forall₂ Takes segs hops)
  | [], hops, _ => by
    rw [matches_nil, List.forall₂_nil_left_iff]
  | seg :: segs, hops, h => by
    rw [matches_seg (h seg List.mem_cons_self), List.forall₂_cons_left_iff]
    constructor
    · rintro ⟨hop, rest, rfl, ht, hr⟩
      exact ⟨hop, rest, ht, (matches_iff_forall₂ fun s hs => h s (List.mem_cons_of_mem _ hs)).mp hr, rfl⟩
    · rintro ⟨hop, rest, ht, hr, rfl⟩
      exact ⟨hop, rest, rfl, ht, (matches_iff_forall₂ fun s hs => h s (List.mem_cons_of_mem _ hs)).mpr hr⟩

theorem waits_root {t : Term} (ht : t.Regular) {hops : List Hop} :
    t.Waits 0 true false hops ↔ Matches t.segments hops := by
  constructor
  · rintro (⟨-, -, hm⟩ | ⟨p, hd, hj, hm⟩)
    · exact hm
    · simp only [Term.joins, hd, Bool.false_or, Bool.true_and, Bool.or_self, decide_eq_true_eq,
        Option.some.injEq] at hj
      rw [hj] at hm
      exact hm
  · intro hm
    exact .inl ⟨rfl, Nat.zero_le _, hm⟩

theorem reaches_root {t : Term} (ht : t.Regular) {lim : Nat} {v : Value} :
    t.Reaches lim 0 true false v ↔
      ∃ hops u, hops ≠ [] ∧ v.At hops u ∧ Matches t.segments hops ∧ t.satisfies (u.long lim) u = true := by
  simp only [Term.Reaches, waits_root ht]

/-- **A path without `...`**: a record is a hit exactly when one of its locations matches the path
segment by segment and the value there satisfies the term. -/
theorem hit_iff_located (t : Term) (ht : t.Shallow) (hl : t.LiteralsOk) (capture stop : Bool) (mask : Mask)
    (chunks : List Bytes) (hc : ReaderOk chunks) (v : Value) (hv : v.Writes chunks.flatten)
    (hobj : v.isObject = true) :
    (v.scans 0 = true → ∃ r, scanAll (soloScan t capture stop mask) chunks = ([r], .ok)) ∧
      ∀ r ∈ (scanAll (soloScan t capture stop mask) chunks).1,
        (r.hits.has 0 = true ↔
          ∃ hops u, v.At hops u ∧ List.Forall₂ Takes t.segments hops ∧ t.accepts u = true) := by
  obtain ⟨hall, hhit⟩ := @soloScan_hit t capture stop mask (.inl ht) hl chunks hc v hv hobj
  refine ⟨hall, fun r hr => ?_⟩
  have hreg : t.Regular := .inl ht
  have hnone : t.rootPresent = false := by simp [Term.rootPresent, ht.deep]
  have hsegs : ∀ seg ∈ t.segments, seg ≠ segRecursive := by
    intro seg hmem
    obtain ⟨k, hk, rfl⟩ := List.getElem_of_mem hmem
    have := ht.noDeep k hk
    rwa [Term.seg, segAt, List.getD_eq_getElem?_getD, List.getElem?_eq_getElem hk] at this
  rw [hhit r hr, hnone, Bool.false_or, hreg.finds_iff v 0 true false (by simp [hobj])
    (fun _ _ hf => by cases hf), reaches_root (.inl ht)]
  constructor
  · rintro ⟨hops, u, -, hat, hm, hs⟩
    exact ⟨hops, u, hat, (matches_iff_forall₂ hsegs).mp hm, hs⟩
  · rintro ⟨hops, u, hat, hm, hs⟩
    refine ⟨hops, u, ?_, hat, (matches_iff_forall₂ hsegs).mpr hm, hs⟩
    rintro rfl
    have := hm.length_eq
    have := ht.path.pos
    simp only [List.length_nil] at *
    omega

/-- What the parser reads to the end is written so. -/
theorem writes_of_parse {input : Bytes} {v : Value} {n : Nat}
    (h : valueP n { rest := input } = some (v, { rest := [] })) : v.Writes input := by
  obtain ⟨text, hw, hwrote⟩ := valueP_sound n _ _ v h
  have := hwrote.rest
  rw [List.append_nil] at this
  rw [show input = text from this]
  exact hw

/-- The document `{"a":1}`. -/
def oneKey : Value := .obj (.cons (plainStr [0x61]) (.num [0x31]) .nil)

theorem hit_iff_located_key :
    ∃ r, scanAll (soloScan ((presenceScan false).term 0) false false 0) [oneKey.compact] = ([r], .ok) ∧
      (r.hits.has 0 = true ↔ ∃ hops u, oneKey.At hops u ∧
        List.Forall₂ Takes ((presenceScan false).term 0).segments hops ∧
          ((presenceScan false).term 0).accepts u = true) := by
  obtain ⟨hshallow, hliterals, -⟩ := presenceScan_term false
  have hw : oneKey.Writes (List.flatten [oneKey.compact]) := writes_of_parse (n := 20) (by decide +kernel)
  obtain ⟨hall, hhit⟩ :=
    hit_iff_located _ hshallow hliterals false false 0 _ (by unfold ReaderOk; decide) _ hw rfl
  obtain ⟨r, hr⟩ := hall (by decide)
  exact ⟨r, hr, hhit r (by rw [hr]; exact List.mem_singleton_self r)⟩

/-- The document `{"a":{"a":{"b":1}}}`. -/
def nestedKeys : Value :=
  .obj (.cons (plainStr [0x61]) (.obj (.cons (plainStr [0x61])
    (.obj (.cons (plainStr [0x62]) (.num [0x31]) .nil)) .nil)) .nil)

end Lql.Scan
