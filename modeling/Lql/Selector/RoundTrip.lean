import Lql.Selector.Reread

/-!
# The round trip of a selector

Every selector that was read as JSON is written as a text that is read again, and what comes back is the selector up to what
no text says: where the values of an `any` came from, and the values that a date was given beside its bounds. A path is
normalized once more on the way.
-/

namespace Lql.Selector

/-! ## What comes back -/

/-- A payload that has been written and read again. -/
def rereadPayload (kind : SelectorKind) (p : Payload) : Payload :=
  { p with
    field := p.field.bind normalizeFieldPath
    anyValues := if kind = .date then [] else p.anyValues.map AnyValue.reread }

namespace Selector

mutual

/-- A selector that has been written and read again. -/
def reread : Selector → Selector
  | .node kind p children =>
    if stringPredicateIsMatchAllAlias kind (rereadPayload kind p) then .leaf .all {}
    else .node kind (rereadPayload kind p) (rereadAll children)

def rereadAll : List Selector → List Selector
  | [] => []
  | child :: rest => reread child :: rereadAll rest

end

end Selector

/-- The texts of a predicate that has been written and read again. -/
def PredicateText.reread (kind : SelectorKind) (w : PredicateText) : PredicateText :=
  { w with
    field := w.field.bind normalizeFieldPath
    any := if kind = .date then [] else w.any.map AnyValue.reread }

theorem payload_reread (kind : SelectorKind) (w : PredicateText) : (w.reread kind).payload = rereadPayload kind w.payload := rfl

/-- The value is looked at alike. -/
theorem prepare_reread (kind : SelectorKind) (p : Payload) :
    prepareValueTemporal kind (rereadPayload kind p) = rereadPayload kind (prepareValueTemporal kind p) := by
  unfold prepareValueTemporal
  rw [show (rereadPayload kind p).value = p.value from rfl]
  split
  · rfl
  · unfold prepareSelectorValueTemporal
    rw [show (rereadPayload kind p).value = p.value from rfl]
    cases p.value with
    | none => rfl
    | some value =>
      dsimp only
      split
      · cases Temporal.parseTemporalLiteral value with
        | none => rfl
        | some date => rfl
      · rfl

/-! ## The checks -/

/-- Without a bound that is named twice the keys of a date pass. -/
theorem noClash_checks {seen : SeenKey → Bool} (h : ¬ DateClash seen) :
    (seen .since && (seen .value || seen .after || seen .before || seen (.bound .gt) || seen (.bound .gte) ||
      seen (.bound .lt) || seen (.bound .lte))) = false ∧ (seen .after && seen (.bound .gt)) = false ∧
        (seen .before && seen (.bound .lt)) = false := by
  refine ⟨Bool.eq_false_of_not_eq_true fun hs => h ?_, Bool.eq_false_of_not_eq_true fun hs => h ?_,
    Bool.eq_false_of_not_eq_true fun hs => h ?_⟩
  · rw [Bool.and_eq_true] at hs
    refine .inl ⟨hs.1, ?_⟩
    simp only [Bool.or_eq_true] at hs
    rcases hs.2 with (((((h1 | h1) | h1) | h1) | h1) | h1) | h1
    · exact ⟨.value, by simp, h1⟩
    · exact ⟨.after, by simp, h1⟩
    · exact ⟨.before, by simp, h1⟩
    · exact ⟨.bound .gt, by simp, h1⟩
    · exact ⟨.bound .gte, by simp, h1⟩
    · exact ⟨.bound .lt, by simp, h1⟩
    · exact ⟨.bound .lte, by simp, h1⟩
  · exact .inr (.inl (Bool.and_eq_true_iff.mp hs))
  · exact .inr (.inr (Bool.and_eq_true_iff.mp hs))

/-- What passes with some keys passes with the keys that are written. -/
theorem validate_reread {kind : SelectorKind} {w : PredicateText} {seen seen' : SeenKey → Bool} {p : Payload}
    (hfits : w.Fits kind) (hgiven : ∀ slot, w.Given slot → seen slot = true)
    (h : jsonValidatePredicate (givenFrame kind w seen) = .ok p) (hmarks : Marks (w.reread kind) seen') :
    jsonValidatePredicate (givenFrame kind (w.reread kind) seen') = .ok (rereadPayload kind p) := by
  obtain ⟨hcomplete, hp⟩ := jsonValidatePredicate_ok h
  have hcomplete : w.payload.Complete kind := hcomplete
  have hp : p = prepareValueTemporal kind w.payload := hp
  have hnoclash : kind = .date → ¬ DateClash seen' := by
    intro hk hclash
    refine validate_clash (f := givenFrame kind w seen) hk ?_ h
    have hvalue : w.value = none := by
      cases hv : w.value with
      | none => rfl
      | some v =>
        obtain ⟨value, literal⟩ := v
        rcases (hfits.value value literal hv).1 with he | he
        · exact absurd (hk.symm.trans he) (by decide)
        · rw [hk] at he
          cases he
    have hrange : w.range = {} := hfits.range_empty (by rw [hk]; decide)
    have hslot : ∀ date : DateSlot, seen' date.seen = true → seen date.seen = true := by
      intro date hd
      refine hgiven _ (.inr ⟨date, rfl, ?_⟩)
      have hhas := hmarks _ hd
      cases date with
      | value => exact hhas.resolve_left fun hne => hne hvalue
      | bound key =>
        refine hhas.resolve_left fun hne => hne ?_
        show w.range.get key = none
        rw [hrange]
        cases key <;> rfl
      | since => exact hhas
      | after => exact hhas
      | before => exact hhas
    rcases hclash with ⟨hsince, date, hne, hd⟩ | ⟨hafter, hgt⟩ | ⟨hbefore, hlt⟩
    · exact .inl ⟨hslot .since hsince, date, hne, hslot date hd⟩
    · exact .inr (.inl ⟨hslot .after hafter, hslot (.bound .gt) hgt⟩)
    · exact .inr (.inr ⟨hslot .before hbefore, hslot (.bound .lt) hlt⟩)
  obtain ⟨field, hfield⟩ : ∃ field, w.field = some field := Option.ne_none_iff_exists'.mp hcomplete.field
  obtain ⟨rest, rfl⟩ := (hfits.field field hfield).2.slash
  have hfield' : ¬ (w.reread kind).payload.field = none := by
    show ¬ w.field.bind normalizeFieldPath = none
    rw [hfield, Option.bind_some, normalizeFieldPath, if_pos rfl]
    exact Option.some_ne_none _
  have hany : kind ≠ .date → ((w.reread kind).payload.anyValues = [] ↔ w.any = []) := by
    intro hd
    show (if kind = .date then [] else w.any.map AnyValue.reread) = [] ↔ _
    rw [if_neg hd, List.map_eq_nil_iff]
  unfold jsonValidatePredicate
  dsimp only
  rw [show (givenFrame kind (w.reread kind) seen').selector.kind = kind from rfl,
    show (givenFrame kind (w.reread kind) seen').selector.payload = (w.reread kind).payload from rfl,
    show (givenFrame kind (w.reread kind) seen').seen = seen' from rfl, if_neg hfield', if_neg, if_neg, if_neg, if_neg,
    if_neg, if_neg, if_neg, if_neg, payload_reread, prepare_reread, hp]
  · intro hs
    simp only [Bool.and_eq_true, decide_eq_true_eq, Bool.not_eq_true'] at hs
    obtain ⟨⟨⟨hk, heq⟩, htemporal⟩, hdateWord⟩ := hs
    rcases hcomplete.date hk with hne | hbound | hword
    · exact hne heq
    · exact Bool.false_ne_true (htemporal.symm.trans hbound)
    · exact hword hdateWord
  · intro hs
    simp only [Bool.and_eq_true, decide_eq_true_eq] at hs
    have hcheck := (noClash_checks (hnoclash hs.1.1)).2.2
    rw [hs.1.2, hs.2] at hcheck
    cases hcheck
  · intro hs
    simp only [Bool.and_eq_true, decide_eq_true_eq] at hs
    have hcheck := (noClash_checks (hnoclash hs.1.1)).2.1
    rw [hs.1.2, hs.2] at hcheck
    cases hcheck
  · intro hs
    rw [Bool.and_eq_true, Bool.and_eq_true, decide_eq_true_eq] at hs
    have hcheck := (noClash_checks (hnoclash hs.1.1)).1
    rw [hs.1.2, hs.2] at hcheck
    cases hcheck
  · intro hs
    simp only [Bool.and_eq_true, decide_eq_true_eq] at hs
    exact (hcomplete.range hs.1.1).2 ⟨hs.1.2, hs.2⟩
  · intro hs
    simp only [Bool.and_eq_true, decide_eq_true_eq, Bool.not_eq_true'] at hs
    rcases (hcomplete.range hs.1.1).1 with hn | ht
    · exact Bool.false_ne_true (hs.1.2.symm.trans hn)
    · exact Bool.false_ne_true (hs.2.symm.trans ht)
  · intro hs
    simp only [Bool.and_eq_true, Bool.or_eq_true, decide_eq_true_eq] at hs
    have hd : kind ≠ .date := by rcases hs.1.1 with rfl | rfl <;> decide
    obtain ⟨hset, hnone⟩ := hcomplete.needles hs.1.1 fun hnil => hs.1.2 ((hany hd).mpr hnil)
    rcases hs.2 with hv | hv
    · exact Bool.false_ne_true (hset.symm.trans hv)
    · have hv : w.payload.value.isSome = true := hv
      rw [hnone] at hv
      cases hv
  · intro hs
    simp only [Bool.and_eq_true, decide_eq_true_eq] at hs
    obtain ⟨rfl, hnil⟩ := hs
    exact hcomplete.isIn rfl ((hany (by decide)).mp hnil)

/-! ## The members, one behind the other -/

section Pieces

variable {kind : SelectorKind} {u v w : PredicateText}

theorem Gives.append {first : Bool} {a b : Bytes} (ha : Gives first a kind u v) (hb : Gives false b kind v w) :
    Gives first (a ++ b) kind u w := by
  intro seen hmarks
  obtain ⟨seen1, hmarks1, hbrings1⟩ := ha seen hmarks
  obtain ⟨seen2, hmarks2, hbrings2⟩ := hb seen1 hmarks1
  refine ⟨seen2, hmarks2, fun {tail g} hadds => ?_⟩
  rw [List.append_assoc]
  exact hbrings1 (hbrings2 hadds)

/-- The member of a value, if there is one. -/
def optionalValueMember : Option (Bytes × LiteralKind) → Bytes
  | none => []
  | some (value, literal) => selectorJsonMember false (ascii "value") (writeSelectorLiteralJson value literal)

/-- The member of a bound of a range, if there is one. -/
def optionalRangeMember (key : BoundKey) : Option Bytes → Bytes
  | none => []
  | some text => rangeMember key text

theorem gives_optional_value {given : Option (Bytes × LiteralKind)}
    (hgiven : ∀ value literal, given = some (value, literal) → (kind = .eq ∨ selectorKindUsesTextualNeedles kind = true) ∧
      literal.Spells value ∧ (selectorKindUsesTextualNeedles kind = true → literal = .string))
    (hnone : u.value = none) (hdates : u.dates = {}) :
    Gives false (optionalValueMember given) kind u { u with value := given } := by
  cases given with
  | none =>
    rw [show ({ u with value := none } : PredicateText) = u by rw [← hnone]]
    exact gives_nothing kind u
  | some v =>
    obtain ⟨value, literal⟩ := v
    obtain ⟨hk, hspells, hliteral⟩ := hgiven value literal rfl
    exact gives_value hk hspells hliteral hnone hdates

/-- The values of an `any`, if there are any. -/
theorem gives_optional_any {items : List AnyValue} (hk : items ≠ [] → kind = .contains ∨ kind = .icontains ∨ kind = .isIn)
    (hitems : ∀ item ∈ items, item.kind.Spells item.text ∧
      (selectorKindUsesTextualNeedles kind = true → item.kind = .string)) (hnone : u.any = []) :
    Gives false
      (if items ≠ [] then
        selectorJsonMember false (ascii "any") ([chLBracket] ++ writeAnyJson items ++ [chRBracket])
      else [])
      kind u { u with any := items.map AnyValue.reread } := by
  by_cases hne : items ≠ []
  · rw [if_pos hne]
    exact gives_any (hk hne) hne hitems hnone
  · rw [if_neg hne, not_not.mp hne, List.map_nil, show ({ u with any := [] } : PredicateText) = u by rw [← hnone]]
    exact gives_nothing kind u

theorem gives_optional_ignoreCase {ignore : Bool} (hk : ignore = true → selectorKindUsesTextualNeedles kind = true)
    (hnone : u.ignoreCase = false) :
    Gives false (if ignore then selectorJsonMember false (ascii "ignoreCase") txtTrue else []) kind u
      { u with ignoreCase := ignore } := by
  cases ignore with
  | true => exact gives_ignoreCase (hk rfl) hnone
  | false =>
    rw [if_neg (by decide), show ({ u with ignoreCase := false } : PredicateText) = u by rw [← hnone]]
    exact gives_nothing kind u

theorem Bounds.put_none {α : Type} {b : Bounds α} {key : BoundKey} (h : b.get key = none) : b.put key none = b := by
  obtain ⟨gt, gte, lt, lte⟩ := b
  cases key <;>
    · cases h
      rfl

theorem DateTexts.put_none {d : DateTexts} {slot : DateSlot} (h : d.get slot = none) : d.put slot none = d := by
  obtain ⟨value, since, after, before, bounds⟩ := d
  cases slot with
  | bound key =>
    show DateTexts.mk value since after before (bounds.put key none) = _
    rw [Bounds.put_none h]
  | value =>
    cases h
    rfl
  | since =>
    cases h
    rfl
  | after =>
    cases h
    rfl
  | before =>
    cases h
    rfl

theorem gives_optional_range (key : BoundKey) {given : Option Bytes}
    (hgiven : ∀ text, given = some text → Clean text ∧ trim text = text ∧ RangeText text) (hnone : u.range.get key = none)
    (hdates : u.dates = {}) :
    Gives false (optionalRangeMember key given) .range u { u with range := u.range.put key given } := by
  cases given with
  | none =>
    rw [Bounds.put_none hnone]
    exact gives_nothing .range u
  | some text =>
    obtain ⟨hclean, htrim, hvalid⟩ := hgiven text rfl
    rw [Bounds.put_some]
    exact gives_range hclean htrim hvalid hnone hdates

/-- A date, if it is given. -/
theorem gives_optional_date {slot : DateSlot} {given : Option Bytes}
    (hgiven : ∀ text, given = some text → Clean text ∧ DateText slot text) (hnone : u.dates.get slot = none)
    (hvalue : u.value = none) (hrange : u.range = {})
    (hfree : given ≠ none → ∀ key, slot = .bound key → u.dates.word key = none) :
    Gives false (writeOptionalStringMember slot.name given) .date u { u with dates := u.dates.put slot given } := by
  cases given with
  | none =>
    rw [DateTexts.put_none hnone]
    exact gives_nothing .date u
  | some text =>
    obtain ⟨hclean, hvalid⟩ := hgiven text rfl
    rw [writeOptionalStringMember, cText_of_not_mem hclean.2]
    exact gives_date hclean hvalid hnone hvalue hrange (hfree (Option.some_ne_none text))

/-- The path of a predicate. -/
theorem gives_path (kind : SelectorKind) {field : Bytes} {p : Payload} (hp : p.field = some field) (hclean : Clean field)
    (hslash : ∃ rest, field = chSlash :: rest) :
    Gives true (writeFieldJson p) kind {} { field := p.field.bind normalizeFieldPath } := by
  rw [hp, Option.bind_some, show writeFieldJson p = writeFieldJson { field := some field } by
    unfold writeFieldJson
    rw [hp]]
  exact gives_field hclean hslash

/-! ## The predicates -/

/-- **The members of a predicate on texts** are written as they are read. -/
theorem gives_string_predicate (hfits : w.Fits kind) (hd : kind ≠ .date) (hr : kind ≠ .range)
    (hfield : ∃ field, w.field = some field) {p : Payload} {temporal : Bool} {date : Option Temporal.Temporal}
    (hp : p = { w.payload with valueIsTemporal := temporal, temporalEq := date }) :
    ∃ body, writeStringPredicateJson p = [chLBrace] ++ (body ++ [chRBrace]) ∧ Gives true body kind {} (w.reread kind) := by
  obtain ⟨field, hfield⟩ := hfield
  obtain ⟨hclean, hnormal⟩ := hfits.field field hfield
  have hrange := hfits.range_empty hr
  have hdates := hfits.dates_empty hd
  subst hp
  have hpath := gives_path kind
    (p := { w.payload with valueIsTemporal := temporal, temporalEq := date }) hfield hclean hnormal.slash
  have hvalue := gives_optional_value (u := { field := w.field.bind normalizeFieldPath }) hfits.value rfl rfl
  have hany := gives_optional_any (u := { field := w.field.bind normalizeFieldPath, value := w.value })
    (fun hne => by
      rcases hfits.anyKind hne with h | h | h | h
      · exact .inl h
      · exact .inr (.inl h)
      · exact .inr (.inr h)
      · exact absurd h hd) hfits.any rfl
  have hcase := gives_optional_ignoreCase
    (u := { field := w.field.bind normalizeFieldPath, value := w.value, any := w.any.map AnyValue.reread })
    hfits.ignoreCase rfl
  have hall := ((hpath.append hvalue).append hany).append hcase
  have hend : PredicateText.mk (w.field.bind normalizeFieldPath) w.value (w.any.map AnyValue.reread) w.ignoreCase {} {} =
      w.reread kind := by
    unfold PredicateText.reread
    rw [if_neg hd, hrange, hdates]
  have hall : Gives true _ kind {} (w.reread kind) := hend ▸ hall
  refine ⟨_, ?_, hall⟩
  have hpiece : (if w.payload.valueSet || w.payload.value.getD [] ≠ [] then
      selectorJsonMember false (ascii "value") (writeSelectorLiteralJson (w.payload.value.getD []) w.payload.valueKind)
    else []) = optionalValueMember w.value := by
    unfold PredicateText.payload
    cases w.value with
    | none => rfl
    | some v => rfl
  unfold writeStringPredicateJson
  dsimp only
  rw [hpiece]
  simp only [List.append_assoc]
  rfl

/-- A bound of a range is written as the text that was given. -/
theorem writeRangeBoundMember_given (key : BoundKey) (hfits : w.Fits .range) {p : Payload} (htemporal : p.temporal = w.temporals)
    (hnumbers : p.hasRange = w.numbers) (htexts : p.rangeTexts = w.range) :
    writeRangeBoundMember key (rangeBound p key) = .ok (optionalRangeMember key (w.range.get key)) := by
  have hdate : p.temporal.get key = (w.range.get key).bind Temporal.parseTemporalLiteral := by
    rw [htemporal, PredicateText.temporals, Bounds.get_ofKeys, PredicateText.dateText, hfits.dates_empty (by decide)]
    cases w.range.get key with
    | none => cases key <;> rfl
    | some text => rfl
  have hnumber : p.hasRange.get key = (w.range.get key).bind fun text =>
      if (Temporal.parseTemporalLiteral text).isSome then none else some () := by
    rw [hnumbers, PredicateText.numbers, Bounds.get_ofKeys]
  unfold rangeBound
  rw [hdate, hnumber, htexts]
  cases hget : w.range.get key with
  | none => rfl
  | some text =>
    obtain ⟨-, hclean, -, hvalid⟩ := hfits.range key text hget
    have hright : optionalRangeMember key (some text) = selectorJsonMember false key.name
        (if (Temporal.parseTemporalLiteral text).isSome then selectorJsonString text else text) := rfl
    rw [hright, Option.getD_some, cText_of_not_mem hclean.2, Option.bind_some, Option.bind_some]
    cases hparse : Temporal.parseTemporalLiteral text with
    | some date => rfl
    | none =>
      have hjson : Number.isJson text = true := hvalid.resolve_left (by rw [hparse]; exact Bool.false_ne_true)
      have hne : text ≠ [] := by
        rintro rfl
        cases hjson
      show writeRangeBoundMember key (.number text) = _
      rw [writeRangeBoundMember, if_neg hne]
      rfl

/-- **The members of a range** are written as they are read. -/
theorem gives_range_predicate (hfits : w.Fits .range) (hfield : ∃ field, w.field = some field) {p : Payload} {temporal : Bool}
    {date : Option Temporal.Temporal} (hp : p = { w.payload with valueIsTemporal := temporal, temporalEq := date }) :
    ∃ body, writeRangePredicateJson p = .ok ([chLBrace] ++ (body ++ [chRBrace])) ∧
      Gives true body .range {} (w.reread .range) := by
  obtain ⟨field, hfield⟩ := hfield
  obtain ⟨hclean, hnormal⟩ := hfits.field field hfield
  have hdates := hfits.dates_empty (by decide)
  have hvalue : w.value = none := by
    cases hv : w.value with
    | none => rfl
    | some v =>
      obtain ⟨value, literal⟩ := v
      rcases (hfits.value value literal hv).1 with h | h <;> cases h
  have hany : w.any = [] := by
    by_contra hne
    rcases hfits.anyKind hne with h | h | h | h <;> cases h
  have hcase : w.ignoreCase = false := Bool.eq_false_of_not_eq_true fun h => by cases hfits.ignoreCase h
  subst hp
  have hmember := fun key => writeRangeBoundMember_given key hfits
    (p := { w.payload with valueIsTemporal := temporal, temporalEq := date }) rfl rfl rfl
  have hgiven : ∀ key text, w.range.get key = some text → Clean text ∧ trim text = text ∧ RangeText text :=
    fun key text h => (hfits.range key text h).2
  have hpath := gives_path .range
    (p := { w.payload with valueIsTemporal := temporal, temporalEq := date }) hfield hclean hnormal.slash
  have h1 := gives_optional_range (u := { field := w.field.bind normalizeFieldPath }) .gt (hgiven .gt) rfl rfl
  have h2 := gives_optional_range (u := { field := w.field.bind normalizeFieldPath, range := ⟨w.range.gt, none, none, none⟩ })
    .gte (hgiven .gte) rfl rfl
  have h3 := gives_optional_range
    (u := { field := w.field.bind normalizeFieldPath, range := ⟨w.range.gt, w.range.gte, none, none⟩ })
    .lt (hgiven .lt) rfl rfl
  have h4 := gives_optional_range
    (u := { field := w.field.bind normalizeFieldPath, range := ⟨w.range.gt, w.range.gte, w.range.lt, none⟩ })
    .lte (hgiven .lte) rfl rfl
  have hall := (((hpath.append h1).append h2).append h3).append h4
  have hend : ({ field := w.field.bind normalizeFieldPath, range := w.range } : PredicateText) = w.reread .range := by
    unfold PredicateText.reread
    rw [if_neg (by decide), hdates, hvalue, hany, hcase]
    rfl
  have hall : Gives true _ .range {} (w.reread .range) := hend ▸ hall
  refine ⟨_, ?_, hall⟩
  unfold writeRangePredicateJson
  rw [hmember, ok_then, hmember, ok_then, hmember, ok_then, hmember, ok_then]
  simp only [List.append_assoc]

/-- **The members of a date** are written as they are read. -/
theorem gives_date_predicate (hfits : w.Fits .date) (hfield : ∃ field, w.field = some field) {p : Payload} {temporal : Bool}
    {date : Option Temporal.Temporal} (hp : p = { w.payload with valueIsTemporal := temporal, temporalEq := date })
    (hfree : ∀ key, w.dates.bounds.get key ≠ none → w.dates.word key = none) :
    ∃ body, writeDatePredicateJson p = [chLBrace] ++ (body ++ [chRBrace]) ∧ Gives true body .date {} (w.reread .date) := by
  obtain ⟨field, hfield⟩ := hfield
  obtain ⟨hclean, hnormal⟩ := hfits.field field hfield
  have hrange := hfits.range_empty (by decide)
  have hvalue : w.value = none := by
    cases hv : w.value with
    | none => rfl
    | some v =>
      obtain ⟨value, literal⟩ := v
      rcases (hfits.value value literal hv).1 with h | h <;> cases h
  have hcase : w.ignoreCase = false := Bool.eq_false_of_not_eq_true fun h => by cases hfits.ignoreCase h
  subst hp
  have hgiven : ∀ slot text, w.dates.get slot = some text → Clean text ∧ DateText slot text :=
    fun slot text h => (hfits.dates slot text h).2
  -- the dates are given one after the other, the words before the bounds
  have hpath := gives_path .date
    (p := { w.payload with valueIsTemporal := temporal, temporalEq := date }) hfield hclean hnormal.slash
  have step : ∀ (d : DateTexts) (slot : DateSlot), d.get slot = none →
      (w.dates.get slot ≠ none → ∀ key, slot = .bound key → d.word key = none) →
        Gives false (writeOptionalStringMember slot.name (w.dates.get slot)) .date
          { field := w.field.bind normalizeFieldPath, dates := d }
          { field := w.field.bind normalizeFieldPath, dates := d.put slot (w.dates.get slot) } :=
    fun d slot hnone hword => gives_optional_date (u := { field := w.field.bind normalizeFieldPath, dates := d })
      (hgiven slot) hnone rfl rfl hword
  have hno : ∀ slot : DateSlot, (∀ key, slot ≠ .bound key) → ∀ d : DateTexts, w.dates.get slot ≠ none →
      ∀ key, slot = .bound key → d.word key = none := fun slot hslot d _ key hkey => absurd hkey (hslot key)
  have h1 := step {} .value rfl (hno _ (by simp) _)
  have h2 := step ⟨w.dates.value, none, none, none, {}⟩ .since rfl (hno _ (by simp) _)
  have h3 := step ⟨w.dates.value, w.dates.since, none, none, {}⟩ .after rfl (hno _ (by simp) _)
  have h4 := step ⟨w.dates.value, w.dates.since, w.dates.after, none, {}⟩ .before rfl (hno _ (by simp) _)
  have hbound : ∀ (key : BoundKey) (bounds : Bounds Bytes), w.dates.get (.bound key) ≠ none →
      ∀ other, DateSlot.bound key = .bound other →
        (DateTexts.mk w.dates.value w.dates.since w.dates.after w.dates.before bounds).word other = none := by
    intro key bounds hne other ho
    cases ho
    rw [← hfree key hne]
    cases key <;> rfl
  have h5 := step ⟨w.dates.value, w.dates.since, w.dates.after, w.dates.before, {}⟩ (.bound .gte) rfl (hbound .gte _)
  have h6 := step ⟨w.dates.value, w.dates.since, w.dates.after, w.dates.before, ⟨none, w.dates.bounds.gte, none, none⟩⟩
    (.bound .gt) rfl (hbound .gt _)
  have h7 := step ⟨w.dates.value, w.dates.since, w.dates.after, w.dates.before,
    ⟨w.dates.bounds.gt, w.dates.bounds.gte, none, none⟩⟩ (.bound .lte) rfl (hbound .lte _)
  have h8 := step ⟨w.dates.value, w.dates.since, w.dates.after, w.dates.before,
    ⟨w.dates.bounds.gt, w.dates.bounds.gte, none, w.dates.bounds.lte⟩⟩ (.bound .lt) rfl (hbound .lt _)
  have hall := (((((((hpath.append h1).append h2).append h3).append h4).append h5).append h6).append h7).append h8
  have hend : PredicateText.mk (w.field.bind normalizeFieldPath) none [] false {} w.dates = w.reread .date := by
    unfold PredicateText.reread
    rw [if_pos rfl, hrange, hvalue, hcase]
  have hall : Gives true _ .date {} (w.reread .date) := hend ▸ hall
  refine ⟨_, ?_, hall⟩
  unfold writeDatePredicateJson
  simp only [List.append_assoc]
  rfl

/-- **The members of an `in`** are written as they are read. -/
theorem gives_in_predicate (hfits : w.Fits .isIn) (hfield : ∃ field, w.field = some field) (hne : w.any ≠ [])
    {p : Payload} {temporal : Bool} {date : Option Temporal.Temporal}
    (hp : p = { w.payload with valueIsTemporal := temporal, temporalEq := date }) :
    ∃ body, writeInPredicateJson p = [chLBrace] ++ (body ++ [chRBrace]) ∧ Gives true body .isIn {} (w.reread .isIn) := by
  obtain ⟨field, hfield⟩ := hfield
  obtain ⟨hclean, hnormal⟩ := hfits.field field hfield
  have hvalue : w.value = none := by
    cases hv : w.value with
    | none => rfl
    | some v =>
      obtain ⟨value, literal⟩ := v
      rcases (hfits.value value literal hv).1 with h | h <;> cases h
  have hcase : w.ignoreCase = false := Bool.eq_false_of_not_eq_true fun h => by cases hfits.ignoreCase h
  subst hp
  have hpath := gives_path .isIn
    (p := { w.payload with valueIsTemporal := temporal, temporalEq := date }) hfield hclean hnormal.slash
  have hany := gives_any (w := { field := w.field.bind normalizeFieldPath }) (.inr (.inr rfl)) hne hfits.any
    rfl
  have hend : PredicateText.mk (w.field.bind normalizeFieldPath) none (w.any.map AnyValue.reread) false {} {} =
      w.reread .isIn := by
    unfold PredicateText.reread
    rw [if_neg (by decide), hfits.range_empty (by decide), hfits.dates_empty (by decide), hvalue, hcase]
  have hall : Gives true _ .isIn {} (w.reread .isIn) := hend ▸ hpath.append hany
  refine ⟨_, ?_, hall⟩
  unfold writeInPredicateJson
  simp only [List.append_assoc]
  rfl

end Pieces

/-! ## Objects -/

/-- A selector object before its operator. -/
def freshFrame : JsonFrame := { kind := .selector, selector := .leaf .all {} }

/-- A selector object whose operator waits for its value. -/
def operatorFrame (kind : SelectorKind) (key : Bytes) : JsonFrame :=
  { kind := .selector, selector := .leaf kind {}, pendingKey := some key, keyCount := 1 }

/-- A selector object with its operator's value. -/
def doneFrame (node : Selector) : JsonFrame := { kind := .selector, selector := node, keyCount := 1 }

/-- The text is an object that is read as this selector. -/
def SelectorText (text : Bytes) (s : Selector) : Prop :=
  ∃ body f, text = [chLBrace] ++ body ∧ Adds true body freshFrame f ∧ f.kind = .selector ∧ f.pendingKey = none ∧
    jsonEndSelector f = .ok s

theorem selectorText_empty : SelectorText [chLBrace, chRBrace] (.leaf .all {}) :=
  ⟨[chRBrace], freshFrame, rfl, ⟨.nil, rfl, fun _ _ => by rw [replayMembers]⟩, rfl, rfl, rfl⟩

/-- An operator and its value. -/
theorem selectorText_operator (kind : SelectorKind) {key value : Bytes} {node : Selector} (hkey : Clean key)
    (hname : kindFromName key = kind) (hvalid : jsonKindIsValidOperator kind = true)
    (hvalue : Takes value (operatorFrame kind key) (doneFrame node)) (hnot : node.kind = .not → node.children.length = 1) :
    SelectorText (writeOperatorJson key value) node := by
  have hend : jsonEndKey freshFrame key = .ok (operatorFrame kind key) := by
    unfold jsonEndKey freshFrame
    rw [if_neg hkey.2]
    dsimp only
    rw [hname, hvalid, if_neg (by decide), if_neg (by decide)]
    rfl
  have hadds : Adds true _ freshFrame (doneFrame node) := brings_member hkey.1 hend hvalue (adds_end (doneFrame node))
  refine ⟨_, doneFrame node, ?_, hadds, rfl, rfl, ?_⟩
  · unfold writeOperatorJson selectorJsonMember
    simp
  · have hcount : ¬ (doneFrame node).keyCount = 0 := Nat.one_ne_zero
    have hone : ¬ (decide (node.kind = .not) && decide (node.children.length ≠ 1)) = true := by
      intro h
      rw [Bool.and_eq_true, decide_eq_true_eq, decide_eq_true_eq] at h
      exact h.2 (hnot h.1)
    unfold jsonEndSelector
    dsimp only
    rw [if_neg hcount]
    exact if_neg hone

/-- A whole text. -/
theorem SelectorText.parse {text : Bytes} {s : Selector} (h : SelectorText text s) : parseSelectorJson text = .ok s := by
  obtain ⟨body, f, rfl, ⟨ms, hms, hreplay⟩, hk, hp, hend⟩ := h
  have hdoc : replay (.obj ms) {} = .ok { selector := s, frames := [] } := by
    rw [replay]
    show (replayMembers ms ⟨.leaf .all {}, [freshFrame]⟩ >>= fun s => jsonStep s .objectEnd) = _
    rw [hreplay, ok_then]
    show jsonObjectEnd ⟨.leaf .all {}, [f]⟩ = _
    unfold jsonObjectEnd
    dsimp only
    rw [hk, hp, if_neg (by decide), if_neg (fun h => h rfl), if_pos rfl, hend]
    rfl
  have hwrites : (Json.Value.obj ms).Writes ([chLBrace] ++ body) := ⟨[], body, rfl, Json.spaces_nil, hms⟩
  have hparse := parseSelectorJson_of_replay Json.spaces_nil Json.spaces_nil hwrites hdoc
  rwa [List.nil_append, List.append_nil] at hparse

/-- An object on a frame below. -/
theorem SelectorText.takes {text : Bytes} {s : Selector} (h : SelectorText text s) {f f' : JsonFrame} (below : JsonFrame)
    (hbegin : ∀ sel rest, jsonStep ⟨sel, f :: rest⟩ .objectBegin = .ok ⟨sel, freshFrame :: below :: rest⟩)
    (hpop : { below with selector := below.selector.append s } = f') : Takes text f f' := by
  obtain ⟨body, top, rfl, hadds, hk, hp, hend⟩ := h
  refine takes_object below hbegin hadds fun sel rest => ?_
  show jsonObjectEnd ⟨sel, top :: below :: rest⟩ = _
  unfold jsonObjectEnd
  dsimp only
  rw [hk, hp, if_neg (by decide), if_neg (fun h => h rfl), if_pos rfl, hend]
  dsimp only
  unfold jsonPop
  dsimp only
  rw [if_pos rfl, hpop]

/-- The frame of the children of a node. -/
def childFrame (kind : SelectorKind) (children : List Selector) : JsonFrame :=
  { kind := .childArray, selector := .node kind {} children }

theorem SelectorText.child {text : Bytes} {s : Selector} (h : SelectorText text s) (kind : SelectorKind)
    (children : List Selector) : Takes text (childFrame kind children) (childFrame kind (children ++ [s])) :=
  h.takes (childFrame kind children) (fun _ _ => rfl) rfl

/-- The child of a `not`. -/
theorem SelectorText.negated {text : Bytes} {s : Selector} (h : SelectorText text s) (key : Bytes) :
    Takes text (operatorFrame .not key) (doneFrame (.node .not {} [s])) :=
  h.takes { operatorFrame .not key with pendingKey := none } (fun _ _ => rfl) rfl

/-- The children of a node, in their brackets. -/
theorem takes_children {kind : SelectorKind} {key : Bytes} {texts : List Bytes} {children : List Selector}
    (hk : kind = .and ∨ kind = .or) (h : TakesAll texts (childFrame kind []) (childFrame kind children)) :
    Takes ([chLBracket] ++ commaJoin texts ++ [chRBracket]) (operatorFrame kind key) (doneFrame (.node kind {} children)) := by
  refine takes_array { operatorFrame kind key with pendingKey := none } (fun sel rest => ?_) h fun _ _ => rfl
  rcases hk with rfl | rfl
  · rfl
  · rfl

/-- An object of a predicate. -/
theorem takes_predicate {kind : SelectorKind} {key body : Bytes} {w : PredicateText} {node : Selector}
    (hinner : kind.isInner = false) (hexist : kind ≠ .exist) (h : Gives true body kind {} w)
    (hend : ∀ seen, Marks w seen → jsonEndPredicate (givenFrame kind w seen) = .ok node) :
    Takes ([chLBrace] ++ (body ++ [chRBrace])) (operatorFrame kind key) (doneFrame node) := by
  obtain ⟨seen, hmarks, hbrings⟩ := h (fun _ => false) fun slot hs => by cases hs
  refine takes_object { operatorFrame kind key with pendingKey := none } (fun sel rest => ?_)
    (hbrings (adds_end _)) fun sel rest => ?_
  · cases kind <;> first | rfl | exact absurd rfl hexist | cases hinner
  · show jsonObjectEnd ⟨sel, givenFrame kind w seen :: _ :: rest⟩ = _
    unfold jsonObjectEnd
    dsimp only
    rw [if_neg (by simp [givenFrame]), if_neg (by simp [givenFrame]), if_neg (by simp [givenFrame]), hend seen hmarks]
    rfl

/-! ## Selectors -/

/-- A predicate at its end, which may stand for every record. -/
theorem end_reread {kind : SelectorKind} {w : PredicateText} {seen : SeenKey → Bool} {p : Payload} (hfits : w.Fits kind)
    (hgiven : ∀ slot, w.Given slot → seen slot = true)
    (h : jsonValidatePredicate (givenFrame kind w seen) = .ok p) (seen' : SeenKey → Bool) (hmarks : Marks (w.reread kind) seen') :
    jsonEndPredicate (givenFrame kind (w.reread kind) seen') = .ok (Selector.leaf kind p).reread := by
  unfold jsonEndPredicate
  rw [validate_reread hfits hgiven h hmarks]
  rfl

theorem reread_not {kind : SelectorKind} {p : Payload} (hk : kind ≠ .not) :
    (Selector.leaf kind p).reread.kind = .not → (Selector.leaf kind p).reread.children.length = 1 := by
  intro h
  rw [Selector.leaf, Selector.reread] at h
  split at h
  · cases h
  · exact absurd h hk

/-- **A predicate is read as it was written.** -/
theorem predicate_text {kind : SelectorKind} {w : PredicateText} {seen : SeenKey → Bool} {p : Payload}
    (hinner : kind.isInner = false) (hexist : kind ≠ .exist) (hne : kind ≠ .ne) (hfits : w.Fits kind)
    (hgiven : ∀ slot, w.Given slot → seen slot = true) (h : jsonValidatePredicate (givenFrame kind w seen) = .ok p) :
    ∃ out, writePredicateJson kind p = .ok out ∧ SelectorText out (Selector.leaf kind p).reread := by
  obtain ⟨hcomplete, hprepare⟩ := jsonValidatePredicate_ok h
  have hcomplete : w.payload.Complete kind := hcomplete
  have hprepare : p = prepareValueTemporal kind w.payload := hprepare
  obtain ⟨temporal, date, hp, -, -⟩ := prepareValueTemporal_eq kind w.payload
  rw [← hprepare] at hp
  have hfield : ∃ field, w.field = some field := Option.ne_none_iff_exists'.mp hcomplete.field
  have hend := end_reread hfits hgiven h
  -- each kind has its name and the members that it writes
  have hobject : ∀ (key body : Bytes), Clean key → kindFromName key = kind → jsonKindIsValidOperator kind = true →
      Gives true body kind {} (w.reread kind) →
        SelectorText (writeOperatorJson key ([chLBrace] ++ (body ++ [chRBrace]))) (Selector.leaf kind p).reread := by
    intro key body hkey hname hvalid hgives
    refine selectorText_operator kind hkey hname hvalid (takes_predicate hinner hexist hgives hend) (reread_not ?_)
    rintro rfl
    cases hinner
  have hstring : ∀ key : Bytes, Clean key → kindFromName key = kind → jsonKindIsValidOperator kind = true → kind ≠ .date →
      kind ≠ .range → SelectorText (writeOperatorJson key (writeStringPredicateJson p)) (Selector.leaf kind p).reread := by
    intro key hkey hname hvalid hd hr
    obtain ⟨body, hbody, hgives⟩ := gives_string_predicate hfits hd hr hfield hp
    rw [hbody]
    exact hobject key body hkey hname hvalid hgives
  cases kind with
  | all => cases hinner
  | and => cases hinner
  | or => cases hinner
  | not => cases hinner
  | exist => exact absurd rfl hexist
  | ne => exact absurd rfl hne
  | eq => exact ⟨_, rfl, hstring _ (clean_ascii rfl) rfl rfl (by decide) (by decide)⟩
  | contains => exact ⟨_, rfl, hstring _ (clean_ascii rfl) rfl rfl (by decide) (by decide)⟩
  | icontains => exact ⟨_, rfl, hstring _ (clean_ascii rfl) rfl rfl (by decide) (by decide)⟩
  | pfx => exact ⟨_, rfl, hstring _ (clean_ascii rfl) rfl rfl (by decide) (by decide)⟩
  | ipfx => exact ⟨_, rfl, hstring _ (clean_ascii rfl) rfl rfl (by decide) (by decide)⟩
  | range =>
    obtain ⟨body, hbody, hgives⟩ := gives_range_predicate hfits hfield hp
    refine ⟨_, ?_, hobject (ascii "range") body (clean_ascii rfl) rfl rfl hgives⟩
    rw [writePredicateJson, hbody]
    rfl
  | date =>
    have hfree : ∀ key, w.dates.bounds.get key ≠ none → w.dates.word key = none := by
      intro key hbound
      cases hword : w.dates.word key with
      | none => rfl
      | some text =>
        have hseen : seen (.bound key) = true := hgiven _ (.inr ⟨.bound key, rfl, hbound⟩)
        exact absurd h (validate_clash rfl (clash_of_word hgiven hword hseen))
    obtain ⟨body, hbody, hgives⟩ := gives_date_predicate hfits hfield hp hfree
    refine ⟨_, rfl, ?_⟩
    rw [hbody]
    exact hobject (ascii "date") body (clean_ascii rfl) rfl rfl hgives
  | isIn =>
    obtain ⟨body, hbody, hgives⟩ := gives_in_predicate hfits hfield (hcomplete.isIn rfl) hp
    refine ⟨_, rfl, ?_⟩
    rw [hbody]
    exact hobject (ascii "in") body (clean_ascii rfl) rfl rfl hgives

/-- The path of an `exists`. -/
theorem exist_text {field : Bytes} (hclean : Clean field) (hslash : ∃ rest, field = chSlash :: rest) :
    ∃ out, writePredicateJson .exist { field := some field } = .ok out ∧
      SelectorText out (Selector.leaf .exist { field := some field }).reread := by
  obtain ⟨rest, rfl⟩ := hslash
  obtain ⟨field, hfield⟩ : ∃ field, normalizeFieldPath (chSlash :: rest) = some field :=
    ⟨_, by rw [normalizeFieldPath, if_pos rfl]⟩
  have hreread : (Selector.leaf .exist { field := some (chSlash :: rest) }).reread = .leaf .exist { field := some field } := by
    have halias : ¬ stringPredicateIsMatchAllAlias .exist (rereadPayload .exist { field := some (chSlash :: rest) }) = true :=
      Bool.false_ne_true
    rw [Selector.leaf, Selector.reread, if_neg halias, rereadPayload, Option.bind_some, hfield]
    rfl
  refine ⟨_, rfl, ?_⟩
  rw [hreread, Option.getD_some, cText_of_not_mem hclean.2]
  refine selectorText_operator .exist (clean_ascii rfl) rfl rfl
    (takes_scalar (reads_string hclean.1) fun sel below => step_string sel below ?_) fun h => by cases h
  unfold jsonStringEnd operatorFrame
  dsimp only
  have hhead : ¬ (chSlash :: rest).headD 0 = 0 := (by decide : ¬ chSlash = 0)
  rw [if_neg (fun h => h rfl), if_neg hhead, if_neg hclean.2, jsonStoreField, if_neg (List.cons_ne_nil _ _), hfield]
  rfl

mutual

/-- **What is written of a selector is read as that selector.** -/
theorem selector_text : ∀ s : Selector, s.Each Written → ∃ out, writeSelectorJson s = .ok out ∧ SelectorText out s.reread
  | .node kind p children, ⟨hnode, hchildren⟩ => by
    cases hnode with
    | all => exact ⟨_, rfl, selectorText_empty⟩
    | joined children hk =>
      obtain ⟨texts, hwrite, -, htakes⟩ := selector_texts children kind [] hchildren
      rcases hk with rfl | rfl
      · refine ⟨_, by rw [writeSelectorJson, hwrite]; rfl, ?_⟩
        exact selectorText_operator .and (clean_ascii rfl) rfl rfl
          (takes_children (.inl rfl) htakes) fun h => by cases h
      · refine ⟨_, by rw [writeSelectorJson, hwrite]; rfl, ?_⟩
        exact selectorText_operator .or (clean_ascii rfl) rfl rfl
          (takes_children (.inr rfl) htakes) fun h => by cases h
    | negated child =>
      obtain ⟨out, hwrite, htext⟩ := selector_text child hchildren.1
      refine ⟨_, by rw [writeSelectorJson, hwrite]; rfl, ?_⟩
      exact selectorText_operator .not (clean_ascii rfl) rfl rfl
        (htext.negated _) fun _ => rfl
    | exist hclean hnormal =>
      obtain ⟨out, hwrite, htext⟩ := exist_text hclean hnormal.slash
      exact ⟨out, by rw [← hwrite]; rfl, htext⟩
    | predicate hinner hexist hne hfits hgiven hvalid _ =>
      obtain ⟨out, hwrite, htext⟩ := predicate_text hinner hexist hne hfits hgiven hvalid
      refine ⟨out, ?_, htext⟩
      rw [← hwrite]
      cases kind <;> first | rfl | cases hinner

theorem selector_texts : ∀ (children : List Selector) (kind : SelectorKind) (front : List Selector),
    Selector.EachOf Written children → ∃ texts, writeSelectorChildrenJson children = .ok (commaJoin texts) ∧
      texts.length = children.length ∧ TakesAll texts (childFrame kind front) (childFrame kind (front ++ Selector.rereadAll children))
  | [], kind, front, _ => ⟨[], rfl, rfl, by rw [Selector.rereadAll, List.append_nil]; exact .nil _⟩
  | [child], kind, front, ⟨hchild, _⟩ => by
    obtain ⟨out, hwrite, htext⟩ := selector_text child hchild
    exact ⟨[out], by rw [writeSelectorChildrenJson, hwrite]; rfl, rfl, .cons (htext.child kind front) (.nil _)⟩
  | child :: next :: rest, kind, front, ⟨hchild, hrest⟩ => by
    obtain ⟨out, hwrite, htext⟩ := selector_text child hchild
    obtain ⟨texts, hwrites, hlen, htakes⟩ := selector_texts (next :: rest) kind (front ++ [child.reread]) hrest
    refine ⟨out :: texts, ?_, congrArg (· + 1) hlen, .cons (htext.child kind front) ?_⟩
    · rw [writeSelectorChildrenJson, hwrite, ok_then, hwrites, ok_then]
      cases texts with
      | nil => cases hlen
      | cons text texts => rfl
    · rw [List.append_assoc] at htakes
      exact htakes

end

/-- **Whatever is accepted as JSON is written as JSON, and read again it is the same selector**, its paths normalized once
more. -/
theorem parseSelectorJson_roundTrip {json : Bytes} {s : Selector} (h : parseSelectorJson json = .ok s) :
    ∃ out, writeSelectorJson s = .ok out ∧ parseSelectorJson out = .ok s.reread := by
  obtain ⟨out, hwrite, htext⟩ := selector_text s (parseSelectorJson_made h)
  exact ⟨out, hwrite, htext.parse⟩

/-- An `in` over the elements of `/a`, its values in one text. -/
theorem parseSelectorJson_roundTrip_in :
    ∃ s out, parseSelectorJson (ascii "\x7b\"in\":\x7b\"field\":\"/a[]\",\"any\":\"x|2\"\x7d\x7d") = .ok s ∧
      writeSelectorJson s = .ok out ∧ parseSelectorJson out = .ok s.reread := by
  have haccepted : (parseSelectorJson
      (ascii "\x7b\"in\":\x7b\"field\":\"/a[]\",\"any\":\"x|2\"\x7d\x7d")).isOk = true := by decide +kernel
  cases h : parseSelectorJson (ascii "\x7b\"in\":\x7b\"field\":\"/a[]\",\"any\":\"x|2\"\x7d\x7d") with
  | error e =>
    rw [h] at haccepted
    cases haccepted
  | ok s =>
    obtain ⟨out, hwrite, hread⟩ := parseSelectorJson_roundTrip h
    exact ⟨s, out, rfl, hwrite, hread⟩

end Lql.Selector
