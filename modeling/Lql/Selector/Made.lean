import Lql.Selector.Given

/-!
# How a predicate is made

While its members are read, a predicate is known by the texts it has been given. The machine keeps it so, unless the members
name one bound of a date twice: then the predicate is refused at its end.
-/

namespace Lql.Selector

open Temporal (parseTemporalLiteral)

/-! ## What may be given -/

/-- The texts are those that a predicate of this kind may be given. -/
structure PredicateText.Fits (kind : SelectorKind) (w : PredicateText) : Prop where
  field : ∀ field, w.field = some field → Clean field ∧ Normal field
  value : ∀ value literal, w.value = some (value, literal) → (kind = .eq ∨ selectorKindUsesTextualNeedles kind = true) ∧
    literal.Spells value ∧ (selectorKindUsesTextualNeedles kind = true → literal = .string)
  any : ∀ item ∈ w.any, item.kind.Spells item.text ∧ (selectorKindUsesTextualNeedles kind = true → item.kind = .string)
  anyKind : w.any ≠ [] → kind = .contains ∨ kind = .icontains ∨ kind = .isIn ∨ kind = .date
  ignoreCase : w.ignoreCase = true → selectorKindUsesTextualNeedles kind = true
  range : ∀ key text, w.range.get key = some text → kind = .range ∧ Clean text ∧ trim text = text ∧ RangeText text
  dates : ∀ slot text, w.dates.get slot = some text → kind = .date ∧ Clean text ∧ DateText slot text

theorem fits_empty (kind : SelectorKind) : ({} : PredicateText).Fits kind where
  field _ h := by cases h
  value _ _ h := by cases h
  any := List.forall_mem_nil _
  anyKind h := absurd rfl h
  ignoreCase h := by cases h
  range key _ h := by cases key <;> cases h
  dates slot _ h := by
    cases slot with
    | bound key => cases key <;> cases h
    | value => cases h
    | since => cases h
    | after => cases h
    | before => cases h

section Fits

variable {kind : SelectorKind} {w : PredicateText}

theorem PredicateText.Fits.range_empty (h : w.Fits kind) (hk : kind ≠ .range) : w.range = {} := by
  refine Bounds.eq_empty fun key => ?_
  cases hget : w.range.get key with
  | none => rfl
  | some text => exact absurd (h.range key text hget).1 hk

theorem PredicateText.Fits.dates_empty (h : w.Fits kind) (hk : kind ≠ .date) : w.dates = {} := by
  refine DateTexts.eq_empty fun slot => ?_
  cases hget : w.dates.get slot with
  | none => rfl
  | some text => exact absurd (h.dates slot text hget).1 hk

/-- A literal is made of characters. -/
theorem spells_isUtf8 {literal : LiteralKind} {value : Bytes} (h : literal.Spells value) : IsUtf8 value := by
  cases literal with
  | string => exact h
  | number => exact (isJson_ascii h).1
  | bool =>
    rcases h with rfl | rfl
    · exact (clean_ascii rfl).1
    · exact (clean_ascii rfl).1
  | null =>
    obtain rfl : value = txtNull := h
    exact (clean_ascii rfl).1

/-- What is kept of a literal spells it, also where every value is a text. -/
theorem jsonLiteralKind_spells {literal : LiteralKind} {value : Bytes} (h : literal.Spells value) :
    (jsonLiteralKind kind literal).Spells value ∧
      (selectorKindUsesTextualNeedles kind = true → jsonLiteralKind kind literal = .string) := by
  unfold jsonLiteralKind
  by_cases hk : selectorKindUsesTextualNeedles kind = true
  · rw [if_pos hk]
    exact ⟨spells_isUtf8 h, fun _ => rfl⟩
  · rw [if_neg hk]
    exact ⟨h, fun ht => absurd ht hk⟩

theorem selectorLiteralKind_spells {raw : Bytes} (h : IsUtf8 raw) : (selectorLiteralKind raw).Spells raw := by
  unfold selectorLiteralKind
  split
  · next hbool => exact by simpa [LiteralKind.Spells] using hbool
  split
  · next hnull => exact hnull
  split
  · next hnumber => exact hnumber
  · exact h

/-- The values of an `any` that is written as one text. -/
theorem pushAnyValues_fits {reject textual : Bool} {items : List Bytes} {values result : List AnyValue}
    (hitems : ∀ item ∈ items, IsUtf8 item)
    (hvalues : ∀ item ∈ values, item.kind.Spells item.text ∧ (textual = true → item.kind = .string))
    (h : pushAnyValues reject textual items values = .ok result) :
    ∀ item ∈ result, item.kind.Spells item.text ∧ (textual = true → item.kind = .string) := by
  induction items generalizing values with
  | nil =>
    cases h
    exact hvalues
  | cons cursor rest ih =>
    rw [pushAnyValues] at h
    dsimp only at h
    have hrest : ∀ item ∈ rest, IsUtf8 item := fun item hmem => hitems item (List.mem_cons_of_mem _ hmem)
    split at h
    · cases h
    split at h
    · exact ih hrest hvalues h
    · refine ih hrest (fun item hmem => ?_) h
      rcases List.mem_append.mp hmem with hmem | hmem
      · exact hvalues item hmem
      · rw [List.mem_singleton] at hmem
        subst hmem
        have hcursor : IsUtf8 (trim cursor) := trim_isUtf8 (hitems cursor List.mem_cons_self)
        cases textual with
        | true => exact ⟨hcursor, fun _ => rfl⟩
        | false => exact ⟨selectorLiteralKind_spells hcursor, fun ht => by cases ht⟩

end Fits

/-! ## What has been seen -/

/-- The text that is remembered in this place is that of a bound. -/
def PredicateText.Given (w : PredicateText) (slot : SeenKey) : Prop :=
  (∃ key, slot = .bound key ∧ w.range.get key ≠ none) ∨ ∃ date : DateSlot, slot = date.seen ∧ w.dates.get date ≠ none

/-- The keys name a bound of a date twice. -/
def DateClash (seen : SeenKey → Bool) : Prop :=
  (seen .since = true ∧ ∃ date : DateSlot, date ≠ .since ∧ seen date.seen = true) ∨
    (seen .after = true ∧ seen (.bound .gt) = true) ∨ (seen .before = true ∧ seen (.bound .lt) = true)

theorem DateClash.mono {seen seen' : SeenKey → Bool} (h : DateClash seen)
    (hmore : ∀ slot, seen slot = true → seen' slot = true) : DateClash seen' := by
  rcases h with ⟨hsince, date, hne, hdate⟩ | ⟨hafter, hgt⟩ | ⟨hbefore, hlt⟩
  · exact .inl ⟨hmore _ hsince, date, hne, hmore _ hdate⟩
  · exact .inr (.inl ⟨hmore _ hafter, hmore _ hgt⟩)
  · exact .inr (.inr ⟨hmore _ hbefore, hmore _ hlt⟩)

/-- A bound that is given by its word and by its name is named twice. -/
theorem clash_of_word {w : PredicateText} {seen : SeenKey → Bool} {key : BoundKey} {text : Bytes}
    (hgiven : ∀ slot, w.Given slot → seen slot = true) (hword : w.dates.word key = some text)
    (hseen : seen (.bound key) = true) : DateClash seen := by
  have hslot : ∀ date : DateSlot, w.dates.get date ≠ none → seen date.seen = true :=
    fun date hne => hgiven _ (.inr ⟨date, rfl, hne⟩)
  cases key with
  | gt =>
    have hafter : w.dates.after = some text := hword
    exact .inr (.inl ⟨hslot .after (by rw [DateTexts.get, hafter]; simp), hseen⟩)
  | gte =>
    obtain ⟨hsince, -⟩ := Option.filter_eq_some_iff.mp (hword : w.dates.since.filter _ = some text)
    exact .inl ⟨hslot .since (by rw [DateTexts.get, hsince]; simp), .bound .gte, by simp, hseen⟩
  | lt =>
    have hbefore : w.dates.before = some text := hword
    exact .inr (.inr ⟨hslot .before (by rw [DateTexts.get, hbefore]; simp), hseen⟩)
  | lte => cases hword

/-! ## One member more -/

/-- The predicate is known by its texts: they fit, their places have been seen, and the key that waits brings a new one. -/
structure JsonFrame.KnownBy (f : JsonFrame) (w : PredicateText) : Prop where
  fits : w.Fits f.selector.kind
  payload : f.selector.payload = w.payload
  given : ∀ slot, w.Given slot → f.seen slot = true
  waits : ∀ key slot, f.pendingKey = some key → jsonSeenSlot f.selector.kind key = some slot →
    f.seen slot = true ∧ ¬ w.Given slot

/-- A predicate while its members are read. -/
structure JsonFrame.Made (f : JsonFrame) : Prop where
  inner : f.selector.kind.isInner = false
  exist : f.selector.kind ≠ .exist
  ne : f.selector.kind ≠ .ne
  children : f.selector.children = []
  texts : f.selector.kind = .date ∧ DateClash f.seen ∨ ∃ w, f.KnownBy w

section Steps

variable {kind : SelectorKind} {w : PredicateText} {p q : Payload}

theorem PredicateText.Fits.giveRange (h : w.Fits kind) {key : BoundKey} {text : Bytes} (hk : kind = .range)
    (hclean : Clean text) (htrim : trim text = text) (hvalid : RangeText text) : (w.giveRange key text).Fits kind where
  field := h.field
  value := h.value
  any := h.any
  anyKind := h.anyKind
  ignoreCase := h.ignoreCase
  range other t ht := by
    rw [get_giveRange] at ht
    split at ht
    · cases ht
      exact ⟨hk, hclean, htrim, hvalid⟩
    · exact h.range other t ht
  dates := h.dates

theorem PredicateText.Fits.giveDate (h : w.Fits kind) {slot : DateSlot} {text : Bytes} (hk : kind = .date)
    (hclean : Clean text) (hvalid : DateText slot text) : (w.giveDate slot text).Fits kind where
  field := h.field
  value := h.value
  any := h.any
  anyKind := h.anyKind
  ignoreCase := h.ignoreCase
  range := h.range
  dates other t ht := by
    rw [PredicateText.giveDate, DateTexts.get_put] at ht
    split at ht
    · next ho =>
      cases ht
      exact ⟨hk, hclean, ho ▸ hvalid⟩
    · exact h.dates other t ht

theorem given_giveRange (w : PredicateText) {key : BoundKey} {text : Bytes} {slot : SeenKey}
    (h : (w.giveRange key text).Given slot) : slot = .bound key ∨ w.Given slot := by
  rcases h with ⟨other, rfl, hne⟩ | hdates
  · rw [get_giveRange] at hne
    by_cases ho : other = key
    · exact .inl (by rw [ho])
    · rw [if_neg ho] at hne
      exact .inr (.inl ⟨other, rfl, hne⟩)
  · exact .inr (.inr hdates)

theorem given_giveDate (w : PredicateText) {date : DateSlot} {text : Bytes} {slot : SeenKey}
    (h : (w.giveDate date text).Given slot) : slot = date.seen ∨ w.Given slot := by
  rcases h with hrange | ⟨other, rfl, hne⟩
  · exact .inr (.inl hrange)
  · rw [PredicateText.giveDate, DateTexts.get_put] at hne
    by_cases ho : other = date
    · exact .inl (by rw [ho])
    · rw [if_neg ho] at hne
      exact .inr (.inr ⟨other, rfl, hne⟩)

/-- Whatever is stored, it is a text more, or a bound named twice. -/
theorem stored_text (h : w.Fits kind) {seen : SeenKey → Bool} (hgiven : ∀ slot, w.Given slot → seen slot = true)
    {slot : SeenKey} (hseen : seen slot = true) (hnew : ¬ w.Given slot) (hs : Stored kind w.payload slot q) :
    kind = .date ∧ DateClash seen ∨
      ∃ w' : PredicateText, w'.Fits kind ∧ q = w'.payload ∧ ∀ slot, w'.Given slot → seen slot = true := by
  cases hs with
  | @field text field htext hnul hf =>
    have hclean := normalizeFieldPath_clean ⟨htext, hnul⟩ hf
    refine .inr ⟨{ w with field := some field }, ⟨fun other ho => ?_, h.value, h.any, h.anyKind, h.ignoreCase, h.range,
      h.dates⟩, rfl, hgiven⟩
    cases ho
    exact ⟨hclean, text, hf⟩
  | @value text literal hk hspells =>
    refine .inr ⟨{ w with value := some (text, jsonLiteralKind kind literal) }, ⟨h.field, fun value other ho => ?_, h.any,
      h.anyKind, h.ignoreCase, h.range, h.dates⟩, rfl, hgiven⟩
    cases ho
    exact ⟨hk, jsonLiteralKind_spells hspells⟩
  | @date slot text _ hk htext hnul hset =>
    by_cases hword : ∃ key t, slot = .bound key ∧ w.dates.word key = some t
    · obtain ⟨key, t, rfl, hword⟩ := hword
      exact .inl ⟨hk, clash_of_word hgiven hword hseen⟩
    · have hfree : ∀ key, slot = .bound key → w.dates.word key = none := by
        intro key hslot
        cases hw : w.dates.word key with
        | none => rfl
        | some t => exact absurd ⟨key, t, hslot, hw⟩ hword
      have hvalid := setDateBound_valid hset
      have hpayload := payload_date w (h.range_empty (by rw [hk]; decide))
        (not_not.mp fun hne => hnew (.inr ⟨slot, rfl, hne⟩)) hfree hvalid
      rw [hpayload] at hset
      cases hset
      refine .inr ⟨_, h.giveDate hk ⟨htext, hnul⟩ hvalid, rfl, fun other ho => ?_⟩
      rcases given_giveDate w ho with rfl | ho
      · exact hseen
      · exact hgiven other ho
  | @range bound text _ hk htext hnul hset =>
    have hvalid := setRangeBound_valid hset
    have hpayload := payload_range w (h.dates_empty (by rw [hk]; decide))
      (not_not.mp fun hne => hnew (.inl ⟨bound, rfl, hne⟩)) hvalid
    rw [hpayload] at hset
    cases hset
    refine .inr ⟨_, h.giveRange hk (trim_clean ⟨htext, hnul⟩) (trim_trim text) hvalid, rfl, fun other ho => ?_⟩
    rcases given_giveRange w ho with rfl | ho
    · exact hseen
    · exact hgiven other ho
  | @any text _ hk htext hnul hparse =>
    unfold parseAnyValues at hparse
    obtain ⟨values, hvalues, hparse⟩ := bind_ok_iff.mp hparse
    split at hparse
    · cases hparse
    cases hparse
    refine .inr ⟨{ w with any := values }, ⟨h.field, h.value, ?_, fun _ => ?_, h.ignoreCase, h.range, h.dates⟩, rfl, hgiven⟩
    · exact pushAnyValues_fits (splitBars_pieces htext) h.any hvalues
    · rcases hk with hk | hk | hk
      · exact .inl hk
      · exact .inr (.inl hk)
      · exact .inr (.inr (.inl hk))
  | ignoreCase value hk =>
    exact .inr ⟨{ w with ignoreCase := value }, ⟨h.field, h.value, h.any, h.anyKind, fun _ => hk, h.range, h.dates⟩, rfl,
      hgiven⟩

/-- A value more in an open `any`. -/
theorem pushAny_fits (h : w.Fits kind) {value : Bytes} {literal : LiteralKind} (hspells : literal.Spells value)
    (hk : kind = .contains ∨ kind = .icontains ∨ kind = .isIn ∨ kind = .date) :
    ({ w with any := w.any ++ [⟨value, jsonLiteralKind kind literal, true⟩] } : PredicateText).Fits kind where
  field := h.field
  value := h.value
  any item hmem := by
    rcases List.mem_append.mp hmem with hmem | hmem
    · exact h.any item hmem
    · rw [List.mem_singleton] at hmem
      subst hmem
      exact jsonLiteralKind_spells hspells
  anyKind _ := hk
  ignoreCase := h.ignoreCase
  range := h.range
  dates := h.dates

end Steps

/-! ## The predicate at its end -/

/-- A predicate that has been given these texts, by members with these keys. -/
def givenFrame (kind : SelectorKind) (w : PredicateText) (seen : SeenKey → Bool) : JsonFrame :=
  { kind := .predicate, selector := .leaf kind w.payload, seen }

/-- What the nodes are that the machine makes. -/
inductive Written : SelectorKind → Payload → List Selector → Prop where
  | all : Written .all {} []
  | joined {kind : SelectorKind} (children : List Selector) : kind = .and ∨ kind = .or → Written kind {} children
  | negated (child : Selector) : Written .not {} [child]
  | exist {field : Bytes} : Clean field → Normal field → Written .exist { field := some field } []
  | predicate {kind : SelectorKind} {w : PredicateText} {seen : SeenKey → Bool} {p : Payload} : kind.isInner = false →
    kind ≠ .exist → kind ≠ .ne → w.Fits kind → (∀ slot, w.Given slot → seen slot = true) →
    jsonValidatePredicate (givenFrame kind w seen) = .ok p → stringPredicateIsMatchAllAlias kind p = false →
    Written kind p []

/-- The checks look at the node and at the keys. -/
theorem validate_congr {f g : JsonFrame} (hk : g.selector.kind = f.selector.kind)
    (hp : g.selector.payload = f.selector.payload) (hs : g.seen = f.seen) :
    jsonValidatePredicate g = jsonValidatePredicate f := by
  unfold jsonValidatePredicate
  rw [hk, hp, hs]

/-- A bound that is named twice is refused. -/
theorem validate_clash {f : JsonFrame} {p : Payload} (hk : f.selector.kind = .date) (hclash : DateClash f.seen) :
    jsonValidatePredicate f ≠ .ok p := by
  intro h
  unfold jsonValidatePredicate at h
  dsimp only at h
  rw [hk] at h
  simp only [reduceCtorEq, decide_false, decide_true, Bool.false_and, Bool.true_and, Bool.or_self, if_false,
    Bool.false_eq_true] at h
  split at h
  · cases h
  split at h
  · cases h
  next hsince =>
  split at h
  · cases h
  next hafter =>
  split at h
  · cases h
  next hbefore =>
  rcases hclash with ⟨h1, date, hne, h2⟩ | hgt | hlt
  · refine hsince ?_
    cases date with
    | since => exact absurd rfl hne
    | value => simp [h1, show f.seen .value = true from h2]
    | after => simp [h1, show f.seen .after = true from h2]
    | before => simp [h1, show f.seen .before = true from h2]
    | bound key =>
      have hkey : f.seen (.bound key) = true := h2
      cases key <;> simp [h1, hkey]
  · exact hafter (by simp [hgt.1, hgt.2])
  · exact hbefore (by simp [hlt.1, hlt.2])

section Frames

variable {f f' : JsonFrame}

theorem made_finish {s : Selector} (h : f.Made) (hs : jsonEndPredicate f = .ok s) : s.Each Written := by
  unfold jsonEndPredicate at hs
  cases hv : jsonValidatePredicate f with
  | error e =>
    rw [hv] at hs
    cases hs
  | ok p =>
    rw [hv] at hs
    cases hs
    split
    · exact ⟨.all, trivial⟩
    next halias =>
    rcases h.texts with ⟨hk, hclash⟩ | ⟨w, hw⟩
    · exact absurd hv (validate_clash hk hclash)
    · have hgiven : jsonValidatePredicate (givenFrame f.selector.kind w f.seen) = .ok p := by
        rw [← hv]
        exact validate_congr rfl hw.payload.symm rfl
      rw [withPayload, h.children]
      exact ⟨.predicate h.inner h.exist h.ne hw.fits hw.given hgiven (Bool.eq_false_of_not_eq_true halias), trivial⟩

theorem made_key {text : Bytes} {slot : SeenKey} (h : f.Made) (hslot : jsonSeenSlot f.selector.kind text = some slot)
    (hseen : f.seen slot = false) :
    ({ f with seen := fun k => k = slot || f.seen k, pendingKey := some text } : JsonFrame).Made where
  inner := h.inner
  exist := h.exist
  ne := h.ne
  children := h.children
  texts := by
    have hmore : ∀ other, f.seen other = true → (decide (other = slot) || f.seen other) = true := by
      intro other ho
      rw [ho, Bool.or_true]
    rcases h.texts with ⟨hk, hclash⟩ | ⟨w, hw⟩
    · exact .inl ⟨hk, hclash.mono hmore⟩
    · refine .inr ⟨w, hw.fits, hw.payload, fun other ho => hmore other (hw.given other ho), fun key other hkey ho => ?_⟩
      cases hkey
      obtain rfl : slot = other := Option.some.inj (hslot.symm.trans ho)
      refine ⟨by simp, fun hgiven => ?_⟩
      rw [hw.given slot hgiven] at hseen
      cases hseen

/-- A predicate with another payload, whose key waits no longer. -/
theorem made_store {q : Payload} (h : f.Made)
    (htexts : f.selector.kind = .date ∧ DateClash f.seen ∨ ∃ w' : PredicateText, w'.Fits f.selector.kind ∧ q = w'.payload ∧
      ∀ slot, w'.Given slot → f.seen slot = true) :
    ({ f.store q with pendingKey := none } : JsonFrame).Made where
  inner := h.inner
  exist := h.exist
  ne := h.ne
  children := h.children
  texts := by
    rcases htexts with hclash | ⟨w', hfits, hq, hgiven⟩
    · exact .inl hclash
    · exact .inr ⟨w', hfits, hq, hgiven, fun key slot hkey => by cases hkey⟩

theorem made_stores (h : f.Made) (hs : Stores f f') : f'.Made := by
  obtain ⟨key, slot, q, hp, hslot, hstored, rfl⟩ := hs
  refine made_store h ?_
  rcases h.texts with hclash | ⟨w, hw⟩
  · exact .inl hclash
  · obtain ⟨hseen, hnew⟩ := hw.waits key slot hp hslot
    rw [hw.payload] at hstored
    exact stored_text hw.fits hw.given hseen hnew hstored

/-- A predicate whose `any` is open. -/
structure JsonFrame.Opened (f : JsonFrame) : Prop where
  made : f.Made
  waits : f.pendingKey = none
  kind : f.selector.kind = .contains ∨ f.selector.kind = .icontains ∨ f.selector.kind = .isIn ∨ f.selector.kind = .date

theorem made_opens {key : Bytes} (h : f.Made) (ha : keyAllowedForKind f.selector.kind key = true)
    (hany : keyIsAny key = true) : ({ f with pendingKey := none } : JsonFrame).Opened where
  made := ⟨h.inner, h.exist, h.ne, h.children, h.texts.imp id fun ⟨w, hw⟩ =>
    ⟨w, hw.fits, hw.payload, hw.given, fun key slot hkey => by cases hkey⟩⟩
  waits := rfl
  kind := by
    obtain ⟨hf, hv, hcase, hbound, hbefore, hsince⟩ := any_key hany
    unfold keyAllowedForKind at ha
    rw [hf, Bool.false_or] at ha
    show f.selector.kind = .contains ∨ f.selector.kind = .icontains ∨ f.selector.kind = .isIn ∨ f.selector.kind = .date
    cases hk : f.selector.kind <;> simp_all

theorem opened_push {value : Bytes} (literal : LiteralKind) (h : f.Opened) (hspells : literal.Spells value) :
    (f.store (jsonPushAny f.selector.kind f.selector.payload value literal)).Opened := by
  have hstore := made_store h.made (q := jsonPushAny f.selector.kind f.selector.payload value literal) (by
    rcases h.made.texts with hclash | ⟨w, hw⟩
    · exact .inl hclash
    · refine .inr ⟨_, pushAny_fits hw.fits hspells h.kind, ?_, hw.given⟩
      rw [hw.payload]
      rfl)
  refine ⟨?_, h.waits, h.kind⟩
  have hsame : f.store (jsonPushAny f.selector.kind f.selector.payload value literal) =
      { f.store (jsonPushAny f.selector.kind f.selector.payload value literal) with pendingKey := none } := by
    unfold JsonFrame.store
    rw [h.waits]
  rw [hsame]
  exact hstore

end Frames

theorem made_rules : MachineRules Written JsonFrame.Made JsonFrame.Opened where
  all := .all
  joined children hk := .joined children hk
  negated child := .negated child
  exist htext hnul hf := .exist (normalizeFieldPath_clean ⟨htext, hnul⟩ hf) ⟨_, hf⟩
  fresh hinner hexist hne := ⟨hinner, hexist, hne, rfl, .inr ⟨{}, fits_empty _, rfl,
    fun slot hgiven => by
      rcases hgiven with ⟨key, -, hrange⟩ | ⟨date, -, hdate⟩
      · cases key <;> exact absurd rfl hrange
      · exact absurd (Option.eq_none_iff_forall_ne_some.mpr fun text ht => by
          cases ((fits_empty .eq).dates date text ht).1) hdate,
    fun key slot hkey => by cases hkey⟩⟩
  key h hslot hseen := made_key h hslot hseen
  store h hs := made_stores h hs
  opens h _ ha hany := made_opens h ha hany
  push literal h hspells := opened_push literal h hspells
  closes h := h.made
  finish h hs := made_finish h hs

/-- **Every node of a selector that was read as JSON follows from texts that it can be given again.** -/
theorem parseSelectorJson_made {json : Bytes} {s : Selector} (h : parseSelectorJson json = .ok s) : s.Each Written :=
  parseSelectorJson_each made_rules h

end Lql.Selector
