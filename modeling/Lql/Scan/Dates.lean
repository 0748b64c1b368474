import Mathlib.Data.Prod.Lex
import Mathlib.Data.Int.Order.Basic
import Lql.Temporal.Fast
import Lql.Scan.Predicates

/-!
# What the date terms mean

A date term reads a string as a date through a buffer that ends at the first NUL. It answers for the whole string
as long as the string is not cut there.
-/

namespace Lql.Temporal

/-- The instant on the time line; nanoseconds count within a second. -/
def instant (t : Temporal) : Lex (Int × Nat) := toLex (t.seconds, t.nanoseconds)

/-- Two dates are the same: the same day where one of them has no time, else the same instant. -/
def SameDate (a b : Temporal) : Prop :=
  if a.dateOnly = true ∨ b.dateOnly = true then a.year = b.year ∧ a.month = b.month ∧ a.day = b.day
  else instant a = instant b

theorem SameDate.refl (a : Temporal) : SameDate a a := by
  rw [SameDate]
  split
  · exact ⟨rfl, rfl, rfl⟩
  · rfl

/-- The date that the whole of a string is; no date has a NUL in it. -/
def wholeLiteral (text : Bytes) : Option Temporal := if 0 ∈ text then none else parseTemporalLiteral text

/-- `lql_temporal_compare` orders the instants. -/
theorem temporalCompare_pos {a b : Temporal} : temporalCompare a b > 0 ↔ instant b < instant a := by
  rw [instant, instant, Prod.Lex.toLex_lt_toLex, temporalCompare]
  split_ifs <;> simp <;> omega

theorem temporalCompare_neg {a b : Temporal} : temporalCompare a b < 0 ↔ instant a < instant b := by
  rw [instant, instant, Prod.Lex.toLex_lt_toLex, temporalCompare]
  split_ifs <;> simp <;> omega

theorem temporalCompare_nonneg {a b : Temporal} : temporalCompare a b ≥ 0 ↔ instant b ≤ instant a := by
  rw [ge_iff_le, ← not_lt, temporalCompare_neg, not_lt]

theorem temporalCompare_nonpos {a b : Temporal} : temporalCompare a b ≤ 0 ↔ instant a ≤ instant b := by
  rw [← not_lt, ← gt_iff_lt, temporalCompare_pos, not_lt]

theorem temporalCompare_zero {a b : Temporal} : temporalCompare a b = 0 ↔ instant a = instant b := by
  rw [instant, instant, toLex_inj, Prod.mk.injEq, temporalCompare]
  split_ifs <;> simp <;> omega

theorem temporalEqual_iff {a b : Temporal} : temporalEqual a b = true ↔ SameDate a b := by
  rw [temporalEqual, SameDate]
  by_cases h : a.dateOnly = true ∨ b.dateOnly = true
  · rw [if_pos (by simpa using h), if_pos h]
    simp only [Bool.and_eq_true, decide_eq_true_eq, and_assoc]
  · rw [if_neg (by simpa using h), if_neg h, decide_eq_true_eq, temporalCompare_zero]

/-- The parser sees what stands before the first NUL. -/
theorem parse_cstr (text : Bytes) : parseTemporalLiteral text = wholeLiteral (cstr text) := by
  rw [wholeLiteral, if_neg (cstr_no_nul text), parseTemporalLiteral, parseTemporalLiteral,
    cstr_whole (cstr_no_nul text)]

end Lql.Temporal

namespace Lql.Scan

open Lib Json
open Temporal (instant wholeLiteral SameDate cstr parse_cstr temporalEqual_iff temporalCompare_pos temporalCompare_neg
  temporalCompare_nonneg temporalCompare_nonpos)

/-- The date is the term's date and within all of its bounds. -/
def Term.AcceptsDate (t : Term) (value : Temporal.Temporal) : Prop :=
  (∀ b ∈ t.temporalEq, SameDate value b) ∧ (∀ b ∈ t.temporalGt, instant b < instant value) ∧
    (∀ b ∈ t.temporalGte, instant b ≤ instant value) ∧ (∀ b ∈ t.temporalLt, instant value < instant b) ∧
      (∀ b ∈ t.temporalLte, instant value ≤ instant b)

/-- The whole string is a date that the term accepts. -/
def Term.AcceptsText (t : Term) (text : Bytes) : Prop := ∃ value, wholeLiteral text = some value ∧ t.AcceptsDate value

/-- A hit means that the whole string is such a date, and none is longer than the buffer. -/
def Term.LooksWhole (t : Term) (text : Bytes) (hit : Prop) : Prop :=
  (hit ↔ t.AcceptsText text) ∧ (numberMatchBytes ≤ text.length → ¬hit)

/-- A string that fits the buffer and is a date before its first NUL only. -/
def Term.Misreads (t : Term) (text : Bytes) : Prop :=
  text.length < numberMatchBytes ∧ 0 ∈ text ∧ t.AcceptsText (cstr text)

/-- A date in more spaces than the buffer holds. -/
def Term.Overruns (t : Term) (text : Bytes) : Prop := numberMatchBytes ≤ text.length ∧ t.AcceptsText text

theorem temporalSatisfies_iff {t : Term} (hk : t.kind = .temporalRange) (value : Temporal.Temporal) :
    temporalSatisfies t value = true ↔ t.AcceptsDate value := by
  simp only [temporalSatisfies, hk, decide_true, Bool.true_and, Bool.and_eq_true, Option.all_eq_true,
    decide_eq_true_eq, temporalEqual_iff, temporalCompare_pos, temporalCompare_neg, temporalCompare_nonneg,
    temporalCompare_nonpos, Term.AcceptsDate, Option.mem_def, and_assoc]

theorem holdsDate_iff {t : Term} (hk : t.kind = .temporalRange) (text : Bytes) :
    t.holdsDate text = true ↔ text.length < numberMatchBytes ∧ t.AcceptsText (cstr text) := by
  rw [Term.holdsDate, Bool.and_eq_true, decide_eq_true_eq, Term.AcceptsText, ← parse_cstr]
  refine and_congr_right fun _ => ?_
  cases Temporal.parseTemporalLiteral text with
  | none => simp
  | some value => simp [temporalSatisfies_iff hk]

theorem date_literalsOk {t : Term} (hk : t.kind = .temporalRange) : t.LiteralsOk :=
  ⟨fun hn => by simp [hk] at hn, Term.numberOk_of_kind (by simp [hk])⟩

/-- A date term compares nothing but strings. -/
theorem holds_date {t : Term} (hk : t.kind = .temporalRange) (excess : Bool) (v : Value) :
    t.holds excess v = true ↔ ∃ s, v = .str s ∧ t.holdsDate s.text = true := by
  cases v with
  | str s => simp [Term.holds, hk, TermKind.isString, TermKind.isTextual]
  | obj _ => simp [Term.holds]
  | arr _ => simp [Term.holds]
  | num _ => simp [Term.holds, hk, TermKind.isTextual]
  | lit l => cases l <;> simp [Term.holds, hk, TermKind.isTextual]

/-- **The comparison looks at the whole string** unless a NUL cuts a date off or spaces fill the buffer. -/
theorem looksWhole_iff {t : Term} (hk : t.kind = .temporalRange) (text : Bytes) :
    t.LooksWhole text (t.holdsDate text = true) ↔ ¬ t.Misreads text ∧ ¬ t.Overruns text := by
  have hnul : 0 ∈ text → ¬ t.AcceptsText text := by
    rintro h0 ⟨value, hv, -⟩
    rw [wholeLiteral, if_pos h0] at hv
    cases hv
  rw [Term.LooksWhole, holdsDate_iff hk, Term.Misreads, Term.Overruns]
  by_cases hlen : text.length < numberMatchBytes
  · by_cases h0 : 0 ∈ text
    · have := hnul h0
      constructor
      · rintro ⟨h, -⟩
        exact ⟨fun ⟨_, _, ha⟩ => this (h.mp ⟨hlen, ha⟩), fun ⟨hle, _⟩ => absurd hlen (Nat.not_lt.mpr hle)⟩
      · rintro ⟨h, -⟩
        exact ⟨⟨fun ⟨_, ha⟩ => absurd ⟨hlen, h0, ha⟩ h, fun ha => absurd ha this⟩,
          fun hle => absurd hlen (Nat.not_lt.mpr hle)⟩
    · rw [Temporal.cstr_whole h0]
      simp only [hlen, h0, true_and, false_and, and_false, not_false_iff, Nat.not_le.mpr hlen,
        false_implies]
  · have hle := Nat.not_lt.mp hlen
    simp only [hlen, false_and, not_false_iff, true_and, hle, implies_true, and_true]
    constructor
    · rintro h ha
      exact h.mpr ha
    · intro h
      exact ⟨False.elim, h⟩

/-- **A date term looks at the whole string exactly where no NUL cuts a date off and no date overruns the
buffer.** So it is with every string that the scanner stands before; and where no string on the term's path is
of that kind, a record is a hit exactly when one of them is a date that the term accepts. -/
theorem date_hit_iff (t : Term) (hk : t.kind = .temporalRange) :
    (∀ (total : Nat) (ctx : Ctx) (m : Nat) (str : Str) (s : State) (f f' : Flat) (matched : Mask) (i : Nat),
      Facing total ctx m (.str str) s f f' → i < ctx.n → ctx.term i = t → matched.has i = true →
        s.hits.has i = false →
        (termValueAt t (s.keyTermSegment i) = true →
          ∃ s', memberValue ctx (value ctx (m + 1)) matched f.rest.head? s = .ok () s' ∧ Rel total s'.tape f' ∧
            (t.LooksWhole str.text (s'.hits.has i = true) ↔ ¬ t.Misreads str.text ∧ ¬ t.Overruns str.text)) ∧
        (termValueAt t (s.m.termSegment i) = true →
          ∃ s', matchedScalarValue ctx (value ctx (m + 1)) matched f.rest.head? s = .ok () s' ∧
            Rel total s'.tape f' ∧
            (t.LooksWhole str.text (s'.hits.has i = true) ↔ ¬ t.Misreads str.text ∧ ¬ t.Overruns str.text))) ∧
    (t.Regular → ∀ (capture stop : Bool) (mask : Mask) (chunks : List Bytes) (v : Value),
      ReaderOk chunks → v.Writes chunks.flatten → v.isObject = true →
      (∀ hops str, v.At hops (.str str) → Matches t.segments hops → ¬ t.Misreads str.text ∧ ¬ t.Overruns str.text) →
        (v.scans 0 = true → ∃ r, scanAll (soloScan t capture stop mask) chunks = ([r], .ok)) ∧
        ∀ r ∈ (scanAll (soloScan t capture stop mask) chunks).1,
          (r.hits.has 0 = true ↔
            ∃ hops str, v.At hops (.str str) ∧ Matches t.segments hops ∧ t.AcceptsText str.text)) := by
  have k1 : t.kind ≠ .valuelessPresent := by simp [hk]
  have k2 : t.kind ≠ .exist := by simp [hk]
  constructor
  · intro total ctx m str s f f' matched i hf hi he hm hs
    have hmeans : ∀ {segments : Nat → Nat} {x : ScanM Unit}, Compares total ctx matched segments (.str str) x s f' →
        termValueAt t (segments i) = true → ∃ s', x s = .ok () s' ∧ Rel total s'.tape f' ∧
          (t.LooksWhole str.text (s'.hits.has i = true) ↔ ¬ t.Misreads str.text ∧ ¬ t.Overruns str.text) := by
      rintro segments x ⟨s', hx, hr, -, excess, hits⟩ hat
      refine ⟨s', hx, hr, ?_⟩
      rw [hits i hi (by rwa [he]) (by rwa [he]), he, ← looksWhole_iff hk, holds_date hk]
      simp [hs, hm, hat]
    exact ⟨hmeans (hf.member matched), hmeans (hf.element matched)⟩
  · intro hreg capture stop mask chunks v hc hv hobj hclean
    obtain ⟨hall, hhit⟩ := @compared_hit t capture stop mask hreg (date_literalsOk hk) k1 k2 chunks hc v hv hobj
    refine ⟨hall, fun r hr => ?_⟩
    rw [hhit r hr]
    constructor
    · rintro ⟨hops, u, hat, hmatch, hholds⟩
      obtain ⟨str, rfl, hd⟩ := (holds_date hk _ _).mp hholds
      have hlook := (looksWhole_iff hk str.text).mpr (hclean hops str hat hmatch)
      exact ⟨hops, str, hat, hmatch, hlook.1.mp hd⟩
    · rintro ⟨hops, str, hat, hmatch, ha⟩
      have hlook := (looksWhole_iff hk str.text).mpr (hclean hops str hat hmatch)
      exact ⟨hops, _, hat, hmatch, (holds_date hk _ _).mpr ⟨str, rfl, hlook.1.mpr ha⟩⟩

/-- The bytes of `2020-01-01`. -/
def dayText : Bytes := [0x32, 0x30, 0x32, 0x30, 0x2d, 0x30, 0x31, 0x2d, 0x30, 0x31]

/-- The date term that asks for `2020-01-01` at `/a`. -/
def dayTerm : Term :=
  { (presenceScan false).term 0 with kind := .temporalRange, temporalEq := Temporal.parseTemporalLiteral dayText }

theorem dayTerm_shallow : dayTerm.Shallow := by
  obtain ⟨hp, hd⟩ := (presenceScan_term false).1
  exact ⟨⟨hp.count, hp.pos, hp.le, hp.field, hp.arrays, hp.objectWildcards, hp.arrayWildcards, hp.anyWildcards,
    hp.recursives, hp.found, hp.cache, hp.fieldPlain, hp.foundPlain⟩, hd⟩

/-- The document `{"a":s}`. -/
def oneMember (s : Str) : Value := .obj (.cons (plainStr [0x61]) (.str s) .nil)

/-- `/a` leads to the string of the document and nowhere else. -/
theorem oneMember_at {s : Str} {hops : List Hop} {u : Value} (hat : (oneMember s).At hops u)
    (hm : Matches dayTerm.segments hops) : u = .str s := by
  have hsegs : dayTerm.segments = [[0x61]] := (presenceScan_term false).2.2.2
  rw [hsegs] at hm
  obtain ⟨hop, rest, rfl, -, hrest⟩ := (matches_seg (by decide)).mp hm
  obtain rfl := matches_nil.mp hrest
  cases hat with
  | member hmem hin =>
    obtain ⟨-, rfl⟩ := Prod.mk.inj (List.mem_singleton.mp hmem)
    cases hin
    rfl

theorem oneMember_found (s : Str) : (oneMember s).At [.key (plainStr [0x61]).text] (.str s) ∧
    Matches dayTerm.segments [.key (plainStr [0x61]).text] := by
  have hsegs : dayTerm.segments = [[0x61]] := (presenceScan_term false).2.2.2
  refine ⟨.member List.mem_cons_self (.here _), ?_⟩
  rw [hsegs]
  exact .seg (by decide) (.inr (.inr ⟨by decide, by decide⟩)) .nil

/-- The day, as a string. -/
def dayString : Str := plainStr dayText

/-- The day with an escaped NUL and an `x` behind it. -/
def cutString : Str := dayString ++ [.coded [chBackslash, chU, 0x30, 0x30, 0x30, 0x30] [0], .plain 0x78]

/-- In front of the day, and over `{"a":"2020-01-01"}`. -/
theorem date_hit_iff_day :
    (∃ s', memberValue (soloScan dayTerm false false 0) (value (soloScan dayTerm false false 0) 1) 1 (some chQuote)
        { tape := { input := ⟨dayString.quoted, [], 12, false⟩ } } = .ok () s' ∧ s'.hits.has 0 = true) ∧
      ∃ r, scanAll (soloScan dayTerm false false 0) [(oneMember dayString).compact] = ([r], .ok) ∧
        r.hits.has 0 = true := by
  have haccepts : dayTerm.AcceptsText dayString.text := by
    obtain ⟨value, hv⟩ : ∃ value, Temporal.parseTemporalLiteral dayText = some value := ⟨_, rfl⟩
    refine ⟨value, (if_neg (by decide)).trans hv, fun b hb => ?_, nofun, nofun, nofun, nofun⟩
    obtain rfl : value = b := Option.some.inj (hv.symm.trans hb)
    exact SameDate.refl value
  have hclean : ¬ dayTerm.Misreads dayString.text ∧ ¬ dayTerm.Overruns dayString.text :=
    ⟨fun h => absurd h.2.1 (by decide), fun h => absurd h.1 (by decide)⟩
  obtain ⟨hvalue, hrecord⟩ := date_hit_iff dayTerm rfl
  constructor
  · have hface : Facing 12 (soloScan dayTerm false false 0) 0 (.str dayString)
        { tape := { input := ⟨dayString.quoted, [], 12, false⟩ } } { rest := dayString.quoted } { rest := [] } := by
      refine ⟨⟨Nat.le_of_ble_eq_true rfl, Nat.le_of_ble_eq_true rfl⟩, fun i hi => ?_, ?_, ⟨rfl, rfl, rfl, rfl, rfl⟩,
        by decide +kernel, rfl⟩
      · obtain rfl : i = 0 := Nat.lt_one_iff.mp hi
        exact date_literalsOk rfl
      · exact ⟨⟨fun c hc => absurd hc List.not_mem_nil, nofun, rfl, Nat.le_of_ble_eq_true rfl⟩, Nat.zero_le _,
          List.append_nil _, nofun⟩
    obtain ⟨hmember, -⟩ := hvalue 12 _ 0 _ _ _ _ 1 0 hface Nat.one_pos rfl (by decide) (by decide)
    obtain ⟨s', hs, -, hits⟩ := hmember (by decide +kernel)
    exact ⟨s', hs, (hits.mpr hclean).1.mpr haccepts⟩
  · obtain ⟨hall, hhit⟩ := hrecord (.inl dayTerm_shallow) false false 0 [(oneMember dayString).compact]
      (oneMember dayString) (by unfold ReaderOk; decide) (writes_of_parse (n := 20) (by decide +kernel)) rfl
      fun hops str hat hm => by
        cases oneMember_at hat hm
        exact hclean
    obtain ⟨r, hr⟩ := hall (by decide)
    obtain ⟨hat, hm⟩ := oneMember_found dayString
    exact ⟨r, hr, (hhit r (by rw [hr]; exact List.mem_singleton_self r)).mpr ⟨_, _, hat, hm, haccepts⟩⟩

/-- `{"a":"2020-01-01\u0000x"}` is a hit, though its only string at `/a` is no date. -/
theorem date_cut_by_nul :
    ReaderOk [(oneMember cutString).compact] ∧ (oneMember cutString).Writes [(oneMember cutString).compact].flatten ∧
      (∀ hops u, (oneMember cutString).At hops u → Matches dayTerm.segments hops → u = .str cutString) ∧
      ¬ dayTerm.AcceptsText cutString.text ∧
      (scanAll (soloScan dayTerm false false 0) [(oneMember cutString).compact]).1.map (·.hits) = [1] := by
  refine ⟨by unfold ReaderOk; decide, writes_of_parse (n := 20) (by decide +kernel), fun _ _ => oneMember_at, ?_,
    by decide +kernel⟩
  rintro ⟨value, hv, -⟩
  rw [wholeLiteral, if_pos (by decide)] at hv
  cases hv

end Lql.Scan
