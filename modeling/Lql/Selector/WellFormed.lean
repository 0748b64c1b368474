import Lql.Selector.Clauses
import Lql.Selector.Group
import Lql.Selector.Machine

/-!
# Well-formed selectors

What the evaluator relies on and no type says: a `not` has one child and a predicate none, a predicate has a field that is
a pointer and what its kind asks for, and what has been derived from a text is what the text says. Nothing is evaluated
that would not be written out again.
-/

namespace Lql.Selector

open Temporal (parseTemporalLiteral Temporal)

/-- The numbers of a payload are JSON numbers, those of a range unless its bounds are dates. -/
structure Payload.NumbersOk (p : Payload) : Prop where
  value : p.valueKind = .number → p.valueSet = true ∧ Number.isJson (p.value.getD []) = true
  any : ∀ item ∈ p.anyValues, item.kind = .number → Number.isJson item.text = true
  range : p.rangeIsTemporal = false → ∀ key, (p.hasRange.get key).isSome →
    Number.isJson ((p.rangeTexts.get key).getD []) = true

/-- The dates of a payload are those that its texts spell. -/
structure Payload.DatesOk (kind : SelectorKind) (p : Payload) : Prop where
  /-- A value is compared as a date where it is one. -/
  value : p.valueIsTemporal = true → (kind = .eq ∨ kind = .ne) ∧
    ∃ text date, p.value = some text ∧ parseTemporalLiteral text = some date ∧ p.temporalEq = some date
  /-- A range of dates has dates for its bounds, and no numbers. -/
  range : kind = .range → p.rangeIsTemporal = true → p.hasRange.any = false ∧
    ∀ key date, p.temporal.get key = some date → ∃ text, p.rangeTexts.get key = some text ∧
      parseTemporalLiteral text = some date

/-- A node that the evaluator can rely on. -/
structure NodeFits (kind : SelectorKind) (p : Payload) (children : List Selector) : Prop where
  inner : kind.isInner = true → p = {}
  negated : kind = .not → children.length = 1
  leaf : kind ≠ .and → kind ≠ .or → kind ≠ .not → children = []
  field : kind.isInner = false → ∃ rest, p.field = some (chSlash :: rest)
  isIn : kind = .isIn → p.anyValues ≠ []
  needles : kind = .contains ∨ kind = .icontains → p.anyValues ≠ [] → p.valueSet = false ∧ p.value = none
  range : kind = .range → p.hasRange.any = true ∨ p.temporal.any = true
  rangeKind : kind = .range → p.rangeIsTemporal = p.temporal.any
  date : kind = .date → p.temporalEq ≠ none ∨ p.temporal.any = true ∨ p.sinceMacro ≠ .none
  numbers : p.NumbersOk
  dates : p.DatesOk kind

/-- Every node of the selector is. -/
def Selector.WellFormed (s : Selector) : Prop := s.Each NodeFits

theorem numbersOk_empty : ({} : Payload).NumbersOk where
  value h := by cases h
  any := List.forall_mem_nil _
  range _ key h := by cases key <;> cases h

theorem datesOk_empty (kind : SelectorKind) : ({} : Payload).DatesOk kind where
  value h := by cases h
  range _ h := by cases h

/-- A node that is no predicate has nothing but its children. -/
theorem nodeFits_inner {kind : SelectorKind} {children : List Selector} (h : kind.isInner = true)
    (hnot : kind = .not → children.length = 1) (hall : kind = .all → children = []) : NodeFits kind {} children where
  inner _ := rfl
  negated := hnot
  leaf hand hor hneg := by
    refine hall ?_
    cases kind <;> simp_all [SelectorKind.isInner]
  field hp := absurd (h.symm.trans hp) (by decide)
  isIn hk := by subst hk; cases h
  needles hk := by rcases hk with rfl | rfl <;> cases h
  range hk := by subst hk; cases h
  rangeKind hk := by subst hk; cases h
  date hk := by subst hk; cases h
  numbers := numbersOk_empty
  dates := datesOk_empty kind

theorem wellFormed_all : (Selector.leaf .all {}).WellFormed :=
  ⟨nodeFits_inner rfl (fun h => by cases h) fun _ => rfl, trivial⟩

/-! ## What a predicate becomes -/

/-- What holds of the payload of a predicate while its members are read. -/
structure Payload.Growing (kind : SelectorKind) (p : Payload) : Prop where
  field : p.field = none ∨ ∃ rest, p.field = some (chSlash :: rest)
  rangeKind : kind = .range → p.rangeIsTemporal = p.temporal.any
  /-- The text of a bound is that of its number, and that of its date, unless there are bounds of both kinds. -/
  dates : p.hasRange.any = false → kind = .range → ∀ key date, p.temporal.get key = some date →
    ∃ text, p.rangeTexts.get key = some text ∧ parseTemporalLiteral text = some date
  numbers : p.NumbersOk

theorem growing_empty (kind : SelectorKind) : ({} : Payload).Growing kind where
  field := .inl rfl
  rangeKind _ := rfl
  dates _ _ key date h := by cases key <;> cases h
  numbers := numbersOk_empty

theorem Bounds.get_set {α : Type} (b : Bounds α) (key other : BoundKey) (v : α) :
    (b.set key v).get other = if other = key then some v else b.get other := by
  cases key <;> cases other <;> rfl

theorem Bounds.any_set {α : Type} (b : Bounds α) (key : BoundKey) (v : α) : (b.set key v).any = true := by
  cases key <;> simp [Bounds.set, Bounds.any]

theorem normalizeSegments_append : ∀ (fuel : Nat) (out seg : Bytes), ∃ tail, normalizeSegments fuel out seg = out ++ tail
  | 0, out, _ => ⟨[], (List.append_nil out).symm⟩
  | fuel + 1, out, seg => by
    rw [normalizeSegments]
    split
    · exact ⟨[], (List.append_nil out).symm⟩
    · dsimp only
      have hout : ∃ tail, (if 1 < out.length then out ++ [chSlash] else out) ++ normalizeSegment (cutSlash seg).1 =
          out ++ tail := by
        split
        · exact ⟨_, List.append_assoc _ _ _⟩
        · exact ⟨_, rfl⟩
      obtain ⟨tail, htail⟩ := hout
      rw [htail]
      split
      · exact ⟨tail, rfl⟩
      · next rest _ =>
        obtain ⟨more, hmore⟩ := normalizeSegments_append fuel (out ++ tail) rest
        exact ⟨tail ++ more, by rw [hmore, List.append_assoc]⟩

/-- A field that is kept is a pointer. -/
theorem normalizeFieldPath_slash {text field : Bytes} (h : normalizeFieldPath text = some field) :
    ∃ rest, field = chSlash :: rest := by
  cases text with
  | nil => cases h
  | cons c rest =>
    rw [normalizeFieldPath] at h
    split at h
    · cases h
      exact normalizeSegments_append _ _ _
    · cases h

section Growing

variable {kind : SelectorKind} {p q : Payload}

theorem Payload.Growing.setField (h : p.Growing kind) {text field : Bytes} (hf : normalizeFieldPath text = some field) :
    ({ p with field := some field } : Payload).Growing kind where
  field := by
    obtain ⟨rest, rfl⟩ := normalizeFieldPath_slash hf
    exact .inr ⟨rest, rfl⟩
  rangeKind := h.rangeKind
  dates := h.dates
  numbers := ⟨h.numbers.value, h.numbers.any, h.numbers.range⟩

/-- Another value, which is a JSON number if it is kept as a number. -/
theorem Payload.Growing.setValue (h : p.Growing kind) (hfield : q.field = p.field)
    (hvalue : q.valueKind = .number → q.valueSet = true ∧ Number.isJson (q.value.getD []) = true)
    (hany : q.anyValues = p.anyValues)
    (htexts : q.rangeTexts = p.rangeTexts) (hrange : q.hasRange = p.hasRange) (htemporal : q.temporal = p.temporal)
    (hdates : q.rangeIsTemporal = p.rangeIsTemporal) : q.Growing kind where
  field := by rw [hfield]; exact h.field
  rangeKind hk := by rw [hdates, htemporal]; exact h.rangeKind hk
  dates := by rw [hrange, htemporal, htexts]; exact h.dates
  numbers := ⟨hvalue, by rw [hany]; exact h.numbers.any, by rw [hdates, hrange, htexts]; exact h.numbers.range⟩

/-- A change to what `Growing` does not look at. -/
theorem Payload.Growing.same (h : p.Growing kind) (hfield : q.field = p.field) (hkind : q.valueKind = p.valueKind)
    (hset : q.valueSet = p.valueSet) (hvalue : q.value = p.value) (hany : q.anyValues = p.anyValues)
    (htexts : q.rangeTexts = p.rangeTexts) (hrange : q.hasRange = p.hasRange) (htemporal : q.temporal = p.temporal)
    (hdates : q.rangeIsTemporal = p.rangeIsTemporal) : q.Growing kind :=
  h.setValue hfield (by rw [hkind, hset, hvalue]; exact h.numbers.value) hany htexts hrange htemporal hdates

theorem Payload.Growing.setAny (h : p.Growing kind) {values : List AnyValue}
    (hv : ∀ item ∈ values, item.kind = .number → Number.isJson item.text = true) :
    ({ p with anyValues := values } : Payload).Growing kind where
  field := h.field
  rangeKind := h.rangeKind
  dates := h.dates
  numbers := ⟨h.numbers.value, hv, h.numbers.range⟩

/-- A bound is kept with its text: a date as a date, a number as a number. -/
theorem Payload.Growing.setRangeBound (h : p.Growing kind) {key : BoundKey} {text : Bytes}
    (hs : Selector.setRangeBound p key text = .ok q) : q.Growing kind := by
  unfold Selector.setRangeBound at hs
  dsimp only at hs
  cases hdate : parseTemporalLiteral (trim text) with
  | some date =>
    rw [hdate] at hs
    cases hs
    refine ⟨h.field, fun _ => (Bounds.any_set _ _ _).symm, fun hrange hk other d hd => ?_,
      ⟨h.numbers.value, h.numbers.any, fun hnot => absurd hnot (by simp)⟩⟩
    simp only [Bounds.get_set] at hd ⊢
    by_cases ho : other = key
    · rw [if_pos ho] at hd ⊢
      cases hd
      exact ⟨_, rfl, hdate⟩
    · rw [if_neg ho] at hd ⊢
      exact h.dates hrange hk other d hd
  | none =>
    rw [hdate] at hs
    dsimp only at hs
    split at hs
    · next hnumber =>
      cases hs
      refine ⟨h.field, h.rangeKind, fun hrange => ?_, ⟨h.numbers.value, h.numbers.any, fun hnot other ho => ?_⟩⟩
      · exact absurd ((Bounds.any_set _ _ _).symm.trans hrange) (by simp)
      · simp only [Bounds.get_set] at ho ⊢
        by_cases hkey : other = key
        · rw [if_pos hkey]
          exact hnumber
        · rw [if_neg hkey] at ho ⊢
          exact h.numbers.range hnot other ho
    · cases hs

/-- The dates of a `date` predicate are kept beside its ranges. -/
theorem Payload.Growing.setDateBound (h : p.Growing kind) (hk : kind = .date) {slot : DateSlot} {text : Bytes}
    (hs : Selector.setDateBound p slot text = .ok q) : q.Growing kind := by
  subst hk
  have hsame : q.field = p.field ∧ q.valueKind = p.valueKind ∧ q.valueSet = p.valueSet ∧ q.value = p.value ∧
      q.anyValues = p.anyValues ∧ q.rangeTexts = p.rangeTexts ∧ q.hasRange = p.hasRange ∧
      q.rangeIsTemporal = p.rangeIsTemporal := by
    unfold Selector.setDateBound at hs
    split at hs
    · cases hs
      exact ⟨rfl, rfl, rfl, rfl, rfl, rfl, rfl, rfl⟩
    · split at hs
      · cases hs
      · cases hs
        cases slot <;> exact ⟨rfl, rfl, rfl, rfl, rfl, rfl, rfl, rfl⟩
  obtain ⟨hfield, hkind, hset, hvalue, hany, htexts, hrange, hdates⟩ := hsame
  exact ⟨by rw [hfield]; exact h.field, (fun hk => by cases hk), (fun _ hk => by cases hk),
    ⟨by rw [hkind, hset, hvalue]; exact h.numbers.value, by rw [hany]; exact h.numbers.any,
      by rw [hdates, hrange, htexts]; exact h.numbers.range⟩⟩

theorem selectorLiteralKind_number {raw : Bytes} (h : selectorLiteralKind raw = .number) : Number.isJson raw = true := by
  unfold selectorLiteralKind at h
  split at h
  · cases h
  split at h
  · cases h
  split at h
  · assumption
  · cases h

theorem pushAnyValues_numbers {reject textual : Bool} : ∀ {items : List Bytes} {values result : List AnyValue},
    (∀ item ∈ values, item.kind = .number → Number.isJson item.text = true) →
    pushAnyValues reject textual items values = .ok result →
      ∀ item ∈ result, item.kind = .number → Number.isJson item.text = true
  | [], values, result, hv, h => by
    cases h
    exact hv
  | cursor :: rest, values, result, hv, h => by
    rw [pushAnyValues] at h
    dsimp only at h
    split at h
    · cases h
    split at h
    · exact pushAnyValues_numbers hv h
    · refine pushAnyValues_numbers (fun item hmem hkind => ?_) h
      rcases List.mem_append.mp hmem with hmem | hmem
      · exact hv item hmem hkind
      · rw [List.mem_singleton] at hmem
        subst hmem
        dsimp only at hkind ⊢
        split at hkind
        · cases hkind
        · exact selectorLiteralKind_number hkind

theorem Payload.Growing.parseAny (h : p.Growing kind) {text : Bytes} {reject textual : Bool}
    (hs : parseAnyValues text p reject textual = .ok q) : q.Growing kind := by
  unfold parseAnyValues at hs
  obtain ⟨values, hv, hs⟩ := bind_ok_iff.mp hs
  split at hs
  · cases hs
  · cases hs
    exact h.setAny (pushAnyValues_numbers h.numbers.any hv)

/-- What is found out about the value when the members have been read. -/
theorem prepareValue_eq (kind : SelectorKind) (p : Payload) :
    ∃ temporal date, prepareSelectorValueTemporal kind p = { p with valueIsTemporal := temporal, temporalEq := date } ∧
      (temporal = false → date = p.temporalEq) ∧ (temporal = true → (kind = .eq ∨ kind = .ne) ∧
        ∃ text d, p.value = some text ∧ parseTemporalLiteral text = some d ∧ date = some d) := by
  unfold prepareSelectorValueTemporal
  cases hv : p.value with
  | none => exact ⟨false, p.temporalEq, rfl, fun _ => rfl, fun h => by cases h⟩
  | some value =>
    dsimp only
    split
    · next hk =>
      cases hd : parseTemporalLiteral value with
      | some d => exact ⟨true, some d, rfl, (fun h => by cases h), fun _ => ⟨by simpa using hk, value, d, rfl, hd, rfl⟩⟩
      | none => exact ⟨false, p.temporalEq, rfl, fun _ => rfl, fun h => by cases h⟩
    · exact ⟨false, p.temporalEq, rfl, fun _ => rfl, fun h => by cases h⟩

/-- What makes a predicate of a payload, beside what `Growing` says. -/
structure Payload.Complete (kind : SelectorKind) (p : Payload) : Prop where
  field : p.field ≠ none
  isIn : kind = .isIn → p.anyValues ≠ []
  needles : kind = .contains ∨ kind = .icontains → p.anyValues ≠ [] → p.valueSet = false ∧ p.value = none
  range : kind = .range → (p.hasRange.any = true ∨ p.temporal.any = true) ∧
    ¬ (p.hasRange.any = true ∧ p.temporal.any = true)
  date : kind = .date → p.temporalEq ≠ none ∨ p.temporal.any = true ∨ p.sinceMacro ≠ .none

/-- A complete payload, with its value looked at, is that of a predicate. -/
theorem Payload.Growing.nodeFits (h : p.Growing kind) (hc : p.Complete kind) (hk : kind.isInner = false)
    {temporal : Bool} {date : Option Temporal} (hsame : temporal = false → date = p.temporalEq)
    (hvalue : temporal = true → (kind = .eq ∨ kind = .ne) ∧
      ∃ text d, p.value = some text ∧ parseTemporalLiteral text = some d ∧ date = some d) :
    NodeFits kind { p with valueIsTemporal := temporal, temporalEq := date } [] where
  inner hi := absurd (hk.symm.trans hi) (by simp)
  negated hn := by subst hn; cases hk
  leaf _ _ _ := rfl
  field _ := h.field.resolve_left hc.field
  isIn := hc.isIn
  needles := hc.needles
  range hr := (hc.range hr).1
  rangeKind := h.rangeKind
  date hd := by
    cases temporal with
    | false =>
      rw [hsame rfl]
      exact hc.date hd
    | true => rcases (hvalue rfl).1 with he | he <;> exact absurd (hd.symm.trans he) (by simp)
  numbers := ⟨h.numbers.value, h.numbers.any, h.numbers.range⟩
  dates := by
    refine ⟨fun ht => ?_, fun hr hdates => ?_⟩
    · obtain ⟨heq, text, d, hv, hd, rfl⟩ := hvalue ht
      exact ⟨heq, text, d, hv, hd, rfl⟩
    · have hany : p.temporal.any = true := (h.rangeKind hr).symm.trans hdates
      have hnone : p.hasRange.any = false := Bool.eq_false_of_not_eq_true fun hn => (hc.range hr).2 ⟨hn, hany⟩
      exact ⟨hnone, h.dates hnone hr⟩

end Growing

/-! ## The steps of the machine -/

theorem jsonLiteralKind_number {kind : SelectorKind} {literal : LiteralKind} (h : jsonLiteralKind kind literal = .number) :
    literal = .number := by
  unfold jsonLiteralKind at h
  split at h
  · cases h
  · exact h

section Store

variable {kind : SelectorKind} {p q : Payload}

theorem Payload.Growing.storeValue (h : p.Growing kind) {value : Bytes} {literal : LiteralKind}
    (hv : literal = .number → Number.isJson value = true) : (jsonStoreValue kind p value literal).Growing kind :=
  h.setValue rfl (fun hk => ⟨rfl, hv (jsonLiteralKind_number hk)⟩) rfl rfl rfl rfl rfl

theorem Payload.Growing.pushAny (h : p.Growing kind) {value : Bytes} {literal : LiteralKind}
    (hv : literal = .number → Number.isJson value = true) : (jsonPushAny kind p value literal).Growing kind := by
  refine h.setAny fun item hmem hk => ?_
  rcases List.mem_append.mp hmem with hmem | hmem
  · exact h.numbers.any item hmem hk
  · rw [List.mem_singleton] at hmem
    subst hmem
    exact hv (jsonLiteralKind_number hk)

/-- Whatever is stored, the payload grows. -/
theorem Payload.Growing.stored (h : p.Growing kind) {slot : SeenKey} (hs : Stored kind p slot q) : q.Growing kind := by
  cases hs with
  | field _ _ hf => exact h.setField hf
  | @value text literal _ hspells =>
    refine h.storeValue fun hl => ?_
    subst hl
    exact hspells
  | date hk _ _ hset => exact h.setDateBound hk hset
  | range _ _ _ hset => exact h.setRangeBound hset
  | any _ _ _ hset => exact h.parseAny hset
  | ignoreCase => exact h.same rfl rfl rfl rfl rfl rfl rfl rfl rfl

end Store

/-- A predicate whose members are being read. -/
structure GrowingNode (s : Selector) : Prop where
  inner : s.kind.isInner = false
  payload : s.payload.Growing s.kind
  children : s.children = []

theorem GrowingNode.store {s : Selector} (h : GrowingNode s) {p : Payload} (hp : p.Growing s.kind) :
    GrowingNode (withPayload s p) := ⟨h.inner, hp, h.children⟩

/-- The path of an `exists`. -/
theorem nodeFits_exist {text field : Bytes} (hf : normalizeFieldPath text = some field) :
    NodeFits .exist { field := some field } [] := by
  have hgrow := (growing_empty .exist).setField hf
  have hcomplete : ({ field := some field } : Payload).Complete .exist :=
    ⟨Option.some_ne_none _, by simp, by simp, by simp, by simp⟩
  exact hgrow.nodeFits hcomplete rfl (fun _ => rfl) fun h => Bool.noConfusion h

theorem prepareValueTemporal_eq (kind : SelectorKind) (p : Payload) :
    ∃ temporal date, prepareValueTemporal kind p = { p with valueIsTemporal := temporal, temporalEq := date } ∧
      (temporal = false → date = p.temporalEq) ∧ (temporal = true → (kind = .eq ∨ kind = .ne) ∧
        ∃ text d, p.value = some text ∧ parseTemporalLiteral text = some d ∧ date = some d) := by
  unfold prepareValueTemporal
  split
  · exact ⟨false, p.temporalEq, rfl, fun _ => rfl, fun h => by cases h⟩
  · exact prepareValue_eq kind p

/-- What the checks on a predicate leave. -/
theorem jsonValidatePredicate_ok {f : JsonFrame} {p : Payload} (hs : jsonValidatePredicate f = .ok p) :
    f.selector.payload.Complete f.selector.kind ∧ p = prepareValueTemporal f.selector.kind f.selector.payload := by
  unfold jsonValidatePredicate at hs
  dsimp only at hs
  split at hs
  · cases hs
  next hfield =>
  split at hs
  · cases hs
  next hin =>
  split at hs
  · cases hs
  next hneedles =>
  split at hs
  · cases hs
  next hrange =>
  split at hs
  · cases hs
  next hmix =>
  split at hs
  · cases hs
  split at hs
  · cases hs
  split at hs
  · cases hs
  split at hs
  · cases hs
  next hdate =>
  cases hs
  simp only [Bool.and_eq_true, Bool.or_eq_true, Bool.not_eq_true', decide_eq_true_eq, not_and, not_or] at hin hneedles hrange hmix hdate
  refine ⟨⟨hfield, fun hk hnil => hin hk hnil, fun hk hany => ?_, fun hk => ⟨?_, fun hboth => ?_⟩, fun hk => ?_⟩, rfl⟩
  · have hnot := hneedles ⟨hk, hany⟩
    exact ⟨by simpa using hnot.1, by simpa using hnot.2⟩
  · by_contra hnone
    rw [not_or, Bool.not_eq_true, Bool.not_eq_true] at hnone
    exact hrange ⟨hk, hnone.1⟩ hnone.2
  · exact hmix ⟨hk, hboth.1⟩ hboth.2
  · by_contra hnone
    rw [not_or, not_or, not_not, Bool.not_eq_true, not_not] at hnone
    exact hdate ⟨⟨hk, hnone.1⟩, hnone.2.1⟩ hnone.2.2

theorem jsonEndPredicate_ok {f : JsonFrame} {s : Selector} (h : GrowingNode f.selector)
    (hs : jsonEndPredicate f = .ok s) : s.WellFormed := by
  unfold jsonEndPredicate at hs
  cases hv : jsonValidatePredicate f with
  | error e =>
    rw [hv] at hs
    cases hs
  | ok p =>
    rw [hv] at hs
    obtain ⟨hcomplete, rfl⟩ := jsonValidatePredicate_ok hv
    cases hs
    split
    · exact wellFormed_all
    · obtain ⟨temporal, date, hp, hsame, hvalue⟩ := prepareValueTemporal_eq f.selector.kind f.selector.payload
      rw [withPayload, hp, h.children]
      exact ⟨h.payload.nodeFits hcomplete h.inner hsame hvalue, trivial⟩
/-- The machine keeps its nodes well formed. -/
theorem wellFormed_rules : MachineRules NodeFits (fun f => GrowingNode f.selector) (fun f => GrowingNode f.selector) where
  all := wellFormed_all.1
  joined children hk := by
    rcases hk with rfl | rfl
    · exact nodeFits_inner rfl (fun h => by cases h) (fun h => by cases h)
    · exact nodeFits_inner rfl (fun h => by cases h) (fun h => by cases h)
  negated _ := nodeFits_inner rfl (fun _ => rfl) (fun h => by cases h)
  exist _ _ hf := nodeFits_exist hf
  fresh hinner _ _ := ⟨hinner, growing_empty _, rfl⟩
  key h _ _ := h
  store h hs := by
    obtain ⟨key, slot, q, -, -, hstored, rfl⟩ := hs
    exact h.store (h.payload.stored hstored)
  opens h _ _ _ := h
  push literal h hspells := by
    refine h.store (h.payload.pushAny fun hl => ?_)
    subst hl
    exact hspells
  closes h := h
  finish h hs := jsonEndPredicate_ok h hs

end Lql.Selector
