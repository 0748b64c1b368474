import Lql.Selector.Cuts
import Lql.Selector.WellFormed

/-!
# What a predicate has been given

The members of a predicate come in any order, and the payload that they leave is the same in all of them: it is what follows
from the texts that have been given. So a payload is known by these texts, and they are what the writer writes.
-/

namespace Lql.Selector

open Temporal (parseTemporalLiteral Temporal)

namespace Bounds

variable {α : Type}

/-- The bounds that a function gives. -/
def ofKeys (f : BoundKey → Option α) : Bounds α := ⟨f .gt, f .gte, f .lt, f .lte⟩

@[simp] theorem get_ofKeys (f : BoundKey → Option α) (key : BoundKey) : (ofKeys f).get key = f key := by cases key <;> rfl

/-- One bound, given or taken away. -/
def put (b : Bounds α) (key : BoundKey) (v : Option α) : Bounds α :=
  match key with
  | .gt => { b with gt := v }
  | .gte => { b with gte := v }
  | .lt => { b with lt := v }
  | .lte => { b with lte := v }

theorem put_some (b : Bounds α) (key : BoundKey) (v : α) : b.put key (some v) = b.set key v := by cases key <;> rfl

theorem get_put (b : Bounds α) (key other : BoundKey) (v : Option α) :
    (b.put key v).get other = if other = key then v else b.get other := by
  cases key <;> cases other <;> rfl

theorem ofKeys_set {f g : BoundKey → Option α} (key : BoundKey) {v : α} (hkey : g key = some v)
    (hother : ∀ other, other ≠ key → g other = f other) : (ofKeys f).set key v = ofKeys g := by
  have hget : ∀ other, g other = if other = key then some v else f other := by
    intro other
    by_cases ho : other = key
    · rw [if_pos ho, ho, hkey]
    · rw [if_neg ho, hother other ho]
  unfold ofKeys
  rw [hget .gt, hget .gte, hget .lt, hget .lte]
  cases key <;> rfl

theorem eq_empty {b : Bounds α} (h : ∀ key, b.get key = none) : b = {} := by
  obtain ⟨gt, gte, lt, lte⟩ := b
  obtain rfl : gt = none := h .gt
  obtain rfl : gte = none := h .gte
  obtain rfl : lt = none := h .lt
  obtain rfl : lte = none := h .lte
  rfl

end Bounds

namespace DateTexts

def get (d : DateTexts) : DateSlot → Option Bytes
  | .value => d.value
  | .since => d.since
  | .after => d.after
  | .before => d.before
  | .bound key => d.bounds.get key

/-- One date, given or taken away. -/
def put (d : DateTexts) (slot : DateSlot) (v : Option Bytes) : DateTexts :=
  match slot with
  | .value => { d with value := v }
  | .since => { d with since := v }
  | .after => { d with after := v }
  | .before => { d with before := v }
  | .bound key => { d with bounds := d.bounds.put key v }

theorem get_put (d : DateTexts) (slot other : DateSlot) (v : Option Bytes) :
    (d.put slot v).get other = if other = slot then v else d.get other := by
  cases slot with
  | bound key =>
    cases other with
    | bound key' =>
      rw [put, get, Bounds.get_put]
      by_cases h : key' = key
      · rw [if_pos h, if_pos (by rw [h])]
      · rw [if_neg h, if_neg fun heq => h (DateSlot.bound.inj heq)]
        rfl
    | value => rfl
    | since => rfl
    | after => rfl
    | before => rfl
  | value => cases other <;> rfl
  | since => cases other <;> rfl
  | after => cases other <;> rfl
  | before => cases other <;> rfl

theorem eq_empty {d : DateTexts} (h : ∀ slot, d.get slot = none) : d = {} := by
  obtain ⟨value, since, after, before, bounds⟩ := d
  obtain rfl : value = none := h .value
  obtain rfl : since = none := h .since
  obtain rfl : after = none := h .after
  obtain rfl : before = none := h .before
  obtain rfl : bounds = {} := Bounds.eq_empty fun key => h (.bound key)
  rfl

/-- The date of a bound that is given by its word: `after`, `before`, or `since` unless it names a day. -/
def word (d : DateTexts) : BoundKey → Option Bytes
  | .gt => d.after
  | .gte => d.since.filter fun text => sinceMacroOf text = none
  | .lt => d.before
  | .lte => none

end DateTexts

/-- The texts that a predicate has been given. -/
structure PredicateText where
  field : Option Bytes := none
  value : Option (Bytes × LiteralKind) := none
  any : List AnyValue := []
  ignoreCase : Bool := false
  range : Bounds Bytes := {}
  dates : DateTexts := {}

namespace PredicateText

/-- The text of the date that a bound is. -/
def dateText (w : PredicateText) (key : BoundKey) : Option Bytes :=
  (w.range.get key).or ((w.dates.word key).or (w.dates.bounds.get key))

/-- The bounds that are numbers. -/
def numbers (w : PredicateText) : Bounds Unit := .ofKeys fun key =>
  (w.range.get key).bind fun text => if (parseTemporalLiteral text).isSome then none else some ()

/-- The bounds that are dates. -/
def temporals (w : PredicateText) : Bounds Temporal := .ofKeys fun key => (w.dateText key).bind parseTemporalLiteral

/-- One of the bounds of a range is a date. -/
def rangeIsTemporal (w : PredicateText) : Bool :=
  (Bounds.ofKeys fun key => (w.range.get key).bind parseTemporalLiteral).any

/-- **The payload that follows from the texts.** -/
def payload (w : PredicateText) : Payload where
  field := w.field
  value := w.value.map Prod.fst
  valueSet := w.value.isSome
  valueIsString := w.value.any fun v => v.2 = .string
  valueFromJson := w.value.isSome
  valueKind := (w.value.map Prod.snd).getD .string
  ignoreCase := w.ignoreCase
  anyValues := w.any
  rangeTexts := w.range
  dateTexts := w.dates
  hasRange := w.numbers
  temporalEq := w.dates.value.bind parseTemporalLiteral
  temporal := w.temporals
  rangeIsTemporal := w.rangeIsTemporal
  sinceMacro := (w.dates.since.bind sinceMacroOf).getD .none

/-- One bound of a range more. -/
def giveRange (w : PredicateText) (key : BoundKey) (text : Bytes) : PredicateText :=
  { w with range := w.range.set key text }

/-- One date more. -/
def giveDate (w : PredicateText) (slot : DateSlot) (text : Bytes) : PredicateText :=
  { w with dates := w.dates.put slot (some text) }

end PredicateText

/-! ## One text more -/

/-- The text of a bound of a range. -/
def RangeText (text : Bytes) : Prop := (parseTemporalLiteral text).isSome ∨ Number.isJson text = true

/-- The text of a date. -/
def DateText (slot : DateSlot) (text : Bytes) : Prop :=
  (parseTemporalLiteral text).isSome ∨ slot = .since ∧ (sinceMacroOf text).isSome

theorem setRangeBound_valid {p q : Payload} {key : BoundKey} {text : Bytes} (h : setRangeBound p key text = .ok q) :
    RangeText (trim text) := by
  unfold setRangeBound at h
  dsimp only at h
  split at h
  · next hdate => exact .inl (by rw [hdate]; rfl)
  · split at h
    · next hnumber => exact .inr hnumber
    · cases h

theorem setDateBound_valid {p q : Payload} {slot : DateSlot} {text : Bytes} (h : setDateBound p slot text = .ok q) :
    DateText slot text := by
  unfold setDateBound at h
  split at h
  · next wordDate hdateWord =>
    split at hdateWord
    · next hslot => exact .inr ⟨hslot, by rw [hdateWord]; rfl⟩
    · cases hdateWord
  · split at h
    · cases h
    · next hdate => exact .inl (by rw [hdate]; rfl)

section Range

variable (w : PredicateText) {key : BoundKey} {text : Bytes} {date : Temporal}

theorem get_giveRange (other : BoundKey) :
    (w.giveRange key text).range.get other = if other = key then some text else w.range.get other := Bounds.get_set _ _ _ _

theorem temporals_date (h : parseTemporalLiteral text = some date) :
    w.temporals.set key date = (w.giveRange key text).temporals := by
  refine Bounds.ofKeys_set _ ?_ fun other ho => ?_
  · rw [PredicateText.dateText, get_giveRange, if_pos rfl]
    exact h
  · rw [PredicateText.dateText, get_giveRange, if_neg ho]
    rfl

/-- A number is no date, and the bound had no date. -/
theorem temporals_number (h : parseTemporalLiteral text = none) (hdates : w.dates = {}) (hnone : w.range.get key = none) :
    w.temporals = (w.giveRange key text).temporals := by
  refine congrArg Bounds.ofKeys (funext fun other => ?_)
  rw [PredicateText.dateText, PredicateText.dateText, get_giveRange]
  by_cases ho : other = key
  · rw [if_pos ho, ho, hnone, hdates]
    cases key <;> exact h.symm
  · rw [if_neg ho]
    rfl

theorem numbers_date (h : parseTemporalLiteral text = some date) (hnone : w.range.get key = none) :
    w.numbers = (w.giveRange key text).numbers := by
  refine congrArg Bounds.ofKeys (funext fun other => ?_)
  rw [get_giveRange]
  by_cases ho : other = key
  · rw [if_pos ho, ho, hnone, Option.bind_some, h]
    rfl
  · rw [if_neg ho]

theorem numbers_number (h : parseTemporalLiteral text = none) :
    w.numbers.set key () = (w.giveRange key text).numbers := by
  refine Bounds.ofKeys_set _ ?_ fun other ho => ?_
  · rw [get_giveRange, if_pos rfl, Option.bind_some, h]
    rfl
  · rw [get_giveRange, if_neg ho]

theorem rangeIsTemporal_date (h : parseTemporalLiteral text = some date) :
    (w.giveRange key text).rangeIsTemporal = true := by
  have hset := Bounds.ofKeys_set key (f := fun other => (w.range.get other).bind parseTemporalLiteral)
    (g := fun other => ((w.giveRange key text).range.get other).bind parseTemporalLiteral) (v := date)
    (by rw [get_giveRange, if_pos rfl]; exact h) fun other ho => by rw [get_giveRange, if_neg ho]
  rw [PredicateText.rangeIsTemporal, ← hset, Bounds.any_set]

theorem rangeIsTemporal_number (h : parseTemporalLiteral text = none) (hnone : w.range.get key = none) :
    w.rangeIsTemporal = (w.giveRange key text).rangeIsTemporal := by
  refine congrArg (fun f => (Bounds.ofKeys f).any) (funext fun other => ?_)
  rw [get_giveRange]
  by_cases ho : other = key
  · rw [if_pos ho, ho, hnone]
    exact h.symm
  · rw [if_neg ho]

/-- **A bound of a range is one text more.** -/
theorem payload_range (hdates : w.dates = {}) (hnone : w.range.get key = none) (hvalid : RangeText (trim text)) :
    setRangeBound w.payload key text = .ok (w.giveRange key (trim text)).payload := by
  unfold setRangeBound
  dsimp only
  cases hdate : parseTemporalLiteral (trim text) with
  | some date =>
    dsimp only
    refine congrArg Except.ok ?_
    unfold PredicateText.payload
    dsimp only
    rw [temporals_date w hdate, numbers_date w hdate hnone, rangeIsTemporal_date w hdate]
    rfl
  | none =>
    have hnumber : Number.isJson (trim text) = true := hvalid.resolve_left (by rw [hdate]; exact Bool.false_ne_true)
    dsimp only
    rw [if_pos hnumber]
    refine congrArg Except.ok ?_
    unfold PredicateText.payload
    dsimp only
    rw [temporals_number w hdate hdates hnone, numbers_number w hdate, rangeIsTemporal_number w hdate hnone]
    rfl

end Range

section Date

variable (w : PredicateText) {slot : DateSlot} {key : BoundKey} {text : Bytes} {date : Temporal}

theorem temporals_giveDate (h : parseTemporalLiteral text = some date)
    (hkey : (w.giveDate slot text).dateText key = some text)
    (hother : ∀ other, other ≠ key → (w.giveDate slot text).dateText other = w.dateText other) :
    w.temporals.set key date = (w.giveDate slot text).temporals := by
  refine Bounds.ofKeys_set _ ?_ fun other ho => ?_
  · rw [hkey]
    exact h
  · rw [hother other ho]

theorem since_date (hrange : w.range = {}) (hdateWord : sinceMacroOf text = none) (h : parseTemporalLiteral text = some date) :
    w.temporals.set .gte date = (w.giveDate .since text).temporals := by
  refine temporals_giveDate w h ?_ fun other ho => ?_
  · show (w.range.gte).or (((some text).filter fun text => sinceMacroOf text = none).or w.dates.bounds.gte) = some text
    rw [hrange, Option.filter_some_pos (by simpa using hdateWord)]
    rfl
  · cases other with
    | gte => exact absurd rfl ho
    | gt => rfl
    | lt => rfl
    | lte => rfl

/-- The name of a day is no bound. -/
theorem since_word {word : SinceMacro} (hnone : w.dates.since = none) (hdateWord : sinceMacroOf text = some word) :
    w.temporals = (w.giveDate .since text).temporals := by
  refine congrArg Bounds.ofKeys (funext fun other => ?_)
  cases other with
  | gte =>
    show ((w.range.gte).or ((w.dates.since.filter fun text => sinceMacroOf text = none).or w.dates.bounds.gte)).bind _ =
      ((w.range.gte).or (((some text).filter fun text => sinceMacroOf text = none).or w.dates.bounds.gte)).bind _
    rw [hnone, Option.filter_some_neg (by simp [hdateWord])]
    rfl
  | gt => rfl
  | lt => rfl
  | lte => rfl

theorem after_date (hrange : w.range = {}) (h : parseTemporalLiteral text = some date) :
    w.temporals.set .gt date = (w.giveDate .after text).temporals := by
  refine temporals_giveDate w h ?_ fun other ho => ?_
  · show (w.range.gt).or ((some text).or w.dates.bounds.gt) = some text
    rw [hrange]
    rfl
  · cases other with
    | gt => exact absurd rfl ho
    | gte => rfl
    | lt => rfl
    | lte => rfl

theorem before_date (hrange : w.range = {}) (h : parseTemporalLiteral text = some date) :
    w.temporals.set .lt date = (w.giveDate .before text).temporals := by
  refine temporals_giveDate w h ?_ fun other ho => ?_
  · show (w.range.lt).or ((some text).or w.dates.bounds.lt) = some text
    rw [hrange]
    rfl
  · cases other with
    | lt => exact absurd rfl ho
    | gt => rfl
    | gte => rfl
    | lte => rfl

theorem bound_date (hrange : w.range = {}) (hfree : w.dates.word key = none) (h : parseTemporalLiteral text = some date) :
    w.temporals.set key date = (w.giveDate (.bound key) text).temporals := by
  have hword : ∀ other, (w.giveDate (.bound key) text).dates.word other = w.dates.word other := fun other => by
    cases other <;> rfl
  refine temporals_giveDate w h ?_ fun other ho => ?_
  · rw [PredicateText.dateText, hword, hfree]
    show (w.range.get key).or (none.or ((w.dates.bounds.put key (some text)).get key)) = some text
    rw [hrange, Bounds.get_put, if_pos rfl]
    cases key <;> rfl
  · rw [PredicateText.dateText, hword]
    show (w.range.get other).or ((w.dates.word other).or ((w.dates.bounds.put key (some text)).get other)) = _
    rw [Bounds.get_put, if_neg ho]
    rfl

/-- **A date is one text more**, unless its bound is already given by a word. -/
theorem payload_date (hrange : w.range = {}) (hnone : w.dates.get slot = none)
    (hfree : ∀ key, slot = .bound key → w.dates.word key = none) (hvalid : DateText slot text) :
    setDateBound w.payload slot text = .ok (w.giveDate slot text).payload := by
  unfold setDateBound
  cases hdateWord : if slot = .since then sinceMacroOf text else none with
  | some word =>
    obtain rfl : slot = .since := by
      by_contra hne
      rw [if_neg hne] at hdateWord
      cases hdateWord
    rw [if_pos rfl] at hdateWord
    refine congrArg Except.ok ?_
    unfold PredicateText.payload
    dsimp only
    rw [since_word w hnone hdateWord]
    show _ = { (w.giveDate .since text).payload with sinceMacro := ((some text).bind sinceMacroOf).getD .none }
    rw [Option.bind_some, hdateWord]
    rfl
  | none =>
    have hvalid : (parseTemporalLiteral text).isSome := by
      rcases hvalid with h | ⟨rfl, h⟩
      · exact h
      · rw [if_pos rfl] at hdateWord
        rw [hdateWord] at h
        cases h
    obtain ⟨date, hdate⟩ := Option.isSome_iff_exists.mp hvalid
    rw [hdate]
    refine congrArg Except.ok ?_
    unfold PredicateText.payload storeDate
    cases slot with
    | value =>
      dsimp only
      show _ = { (w.giveDate .value text).payload with temporalEq := parseTemporalLiteral text }
      rw [hdate]
      rfl
    | since =>
      rw [if_pos rfl] at hdateWord
      dsimp only
      rw [since_date w hrange hdateWord hdate, show w.dates.since = none from hnone]
      show _ = { (w.giveDate .since text).payload with sinceMacro := ((some text).bind sinceMacroOf).getD .none }
      rw [Option.bind_some, hdateWord]
      rfl
    | after =>
      dsimp only
      rw [after_date w hrange hdate]
      rfl
    | before =>
      dsimp only
      rw [before_date w hrange hdate]
      rfl
    | bound key =>
      dsimp only
      rw [bound_date w hrange (hfree key rfl) hdate, ← Bounds.put_some]
      rfl

end Date

end Lql.Selector
