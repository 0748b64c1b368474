import Lql.Selector.Made

/-!
# Writing a selector and reading it again

What is written of a selector is read by the same machine that has read the selector. Each member that is written gives the
predicate one of its texts again, so that the payload is the one that follows from them.
-/

namespace Lql.Selector

open Json (Value Members Elements Str)

/-! ## Values, members and elements -/

/-- The text is a value, and it takes the frame on top to another. -/
def Takes (text : Bytes) (f f' : JsonFrame) : Prop :=
  ∃ v : Value, v.Writes text ∧ ∀ sel rest, replay v ⟨sel, f :: rest⟩ = .ok ⟨sel, f' :: rest⟩

/-- The text is that of members up to their brace, and they take the frame on top to another. -/
def Adds (first : Bool) (text : Bytes) (f f' : JsonFrame) : Prop :=
  ∃ ms : Members, ms.Writes first text ∧ ∀ sel rest, replayMembers ms ⟨sel, f :: rest⟩ = .ok ⟨sel, f' :: rest⟩

/-- The piece is a member, or nothing, and it takes the frame on top to another. -/
def Brings (first : Bool) (piece : Bytes) (f f' : JsonFrame) : Prop :=
  ∀ {tail : Bytes} {g : JsonFrame}, Adds false tail f' g → Adds first (piece ++ tail) f g

/-- The texts are values, and one after the other they take the frame on top to another. -/
inductive TakesAll : List Bytes → JsonFrame → JsonFrame → Prop where
  | nil (f : JsonFrame) : TakesAll [] f f
  | cons {text : Bytes} {texts : List Bytes} {f g h : JsonFrame} : Takes text f g → TakesAll texts g h →
    TakesAll (text :: texts) f h

/-- Texts with commas between them. -/
def commaJoin : List Bytes → Bytes
  | [] => []
  | [text] => text
  | text :: next :: rest => text ++ [chComma] ++ commaJoin (next :: rest)

section Takes

variable {f f' g : JsonFrame}

theorem takes_scalar {text : Bytes} {event : JsonEvent} (h : Reads text event)
    (hstep : ∀ sel rest, jsonStep ⟨sel, f :: rest⟩ event = .ok ⟨sel, f' :: rest⟩) : Takes text f f' := by
  obtain ⟨v, hv, hreplay⟩ := h
  exact ⟨v, hv, fun sel rest => by rw [hreplay, hstep]⟩

theorem adds_end (f : JsonFrame) : Adds false [chRBrace] f f := ⟨.nil, rfl, fun _ _ => by rw [replayMembers]⟩

theorem brings_nothing (f : JsonFrame) : Brings false [] f f := fun h => h

theorem brings_member {first : Bool} {key value : Bytes} {mid : JsonFrame} (hkey : IsUtf8 key)
    (hend : jsonEndKey f key = .ok mid) (hvalue : Takes value mid f') :
    Brings first (selectorJsonMember first key value) f f' := by
  intro tail g ⟨ms, hms, hreplay⟩
  obtain ⟨k, hk, hquoted, htext⟩ := selectorJsonString_spells hkey
  obtain ⟨v, hv, hvreplay⟩ := hvalue
  have hlead : Json.Lead first (if first then [] else [chComma]) := by
    cases first with
    | true => rfl
    | false => exact ⟨[], Json.spaces_nil, rfl⟩
  refine ⟨.cons k v ms, ⟨_, [], [], value, [], tail, ?_, hlead, hk, Json.spaces_nil, Json.spaces_nil, hv, Json.spaces_nil, hms⟩,
    fun sel rest => ?_⟩
  · rw [selectorJsonMember, selectorJsonKey, hquoted]
    simp
  · have hstep : jsonStep ⟨sel, f :: rest⟩ (.key k.text) = .ok ⟨sel, mid :: rest⟩ := by
      rw [htext]
      show (jsonEndKey f key).map _ = _
      rw [hend]
      rfl
    rw [replayMembers, hstep, ok_then, hvreplay, ok_then, hreplay]

theorem TakesAll.append {texts more : List Bytes} (h : TakesAll texts f f') (hm : TakesAll more f' g) :
    TakesAll (texts ++ more) f g := by
  induction h with
  | nil _ => exact hm
  | cons htext _ ih => exact .cons htext (ih hm)

/-- The elements behind the first. -/
theorem TakesAll.later {texts : List Bytes} (h : TakesAll texts f f') :
    ∃ es : Elements, es.Writes false ((texts.flatMap (chComma :: ·)) ++ [chRBracket]) ∧
      ∀ sel rest, replayElements es ⟨sel, f :: rest⟩ = .ok ⟨sel, f' :: rest⟩ := by
  induction h with
  | nil f => exact ⟨.nil, rfl, fun _ _ => by rw [replayElements]⟩
  | @cons text texts f g h htext hrest ih =>
    obtain ⟨v, hv, hreplay⟩ := htext
    obtain ⟨es, hes, heach⟩ := ih
    refine ⟨.cons v es, ⟨[chComma], text, [], _, ?_, ⟨[], Json.spaces_nil, rfl⟩, hv, Json.spaces_nil, hes⟩, fun sel rest => ?_⟩
    · simp
    · rw [replayElements, hreplay, ok_then, heach]

theorem commaJoin_cons (text : Bytes) (texts : List Bytes) :
    commaJoin (text :: texts) = text ++ texts.flatMap (chComma :: ·) := by
  induction texts generalizing text with
  | nil => simp [commaJoin]
  | cons next rest ih =>
    rw [commaJoin, ih next]
    simp

theorem TakesAll.elements {texts : List Bytes} (h : TakesAll texts f f') :
    ∃ es : Elements, es.Writes true (commaJoin texts ++ [chRBracket]) ∧
      ∀ sel rest, replayElements es ⟨sel, f :: rest⟩ = .ok ⟨sel, f' :: rest⟩ := by
  cases h with
  | nil f => exact ⟨.nil, rfl, fun _ _ => by rw [replayElements]⟩
  | @cons text texts f g h htext hrest =>
    obtain ⟨v, hv, hreplay⟩ := htext
    obtain ⟨es, hes, heach⟩ := hrest.later
    refine ⟨.cons v es, ⟨[], text, [], _, ?_, rfl, hv, Json.spaces_nil, hes⟩, fun sel rest => ?_⟩
    · rw [commaJoin_cons]
      simp
    · rw [replayElements, hreplay, ok_then, heach]

/-- An array, whose frame stands on the one that it is a value for. -/
theorem takes_array {texts : List Bytes} {top top' : JsonFrame} (below : JsonFrame)
    (hbegin : ∀ sel rest, jsonStep ⟨sel, f :: rest⟩ .arrayBegin = .ok ⟨sel, top :: below :: rest⟩)
    (h : TakesAll texts top top')
    (hend : ∀ sel rest, jsonStep ⟨sel, top' :: below :: rest⟩ .arrayEnd = .ok ⟨sel, f' :: rest⟩) :
    Takes ([chLBracket] ++ commaJoin texts ++ [chRBracket]) f f' := by
  obtain ⟨es, hes, heach⟩ := h.elements
  refine ⟨.arr es, ⟨[], _, ?_, Json.spaces_nil, hes⟩, fun sel rest => ?_⟩
  · simp
  · rw [replay, hbegin, ok_then, heach, ok_then, hend]

/-- An object, whose frame stands on the one that it is a value for. -/
theorem takes_object {text : Bytes} {top top' : JsonFrame} (below : JsonFrame)
    (hbegin : ∀ sel rest, jsonStep ⟨sel, f :: rest⟩ .objectBegin = .ok ⟨sel, top :: below :: rest⟩)
    (h : Adds true text top top')
    (hend : ∀ sel rest, jsonStep ⟨sel, top' :: below :: rest⟩ .objectEnd = .ok ⟨sel, f' :: rest⟩) :
    Takes ([chLBrace] ++ text) f f' := by
  obtain ⟨ms, hms, heach⟩ := h
  refine ⟨.obj ms, ⟨[], _, rfl, Json.spaces_nil, hms⟩, fun sel rest => ?_⟩
  rw [replay, hbegin, ok_then, heach, ok_then, hend]

end Takes

/-! ## The members of a predicate -/

/-- The text that is remembered in this place has been given. -/
def PredicateText.Has (w : PredicateText) : SeenKey → Prop
  | .field => w.field ≠ none
  | .any => w.any ≠ []
  | .ignoreCase => w.ignoreCase = true
  | .value => w.value ≠ none ∨ w.dates.value ≠ none
  | .bound key => w.range.get key ≠ none ∨ w.dates.bounds.get key ≠ none
  | .since => w.dates.since ≠ none
  | .after => w.dates.after ≠ none
  | .before => w.dates.before ≠ none

/-- A key more has been seen. -/
def mark (slot : SeenKey) (seen : SeenKey → Bool) : SeenKey → Bool := fun k => k = slot || seen k

/-- Only the keys of texts that have been given have been seen. -/
def Marks (w : PredicateText) (seen : SeenKey → Bool) : Prop := ∀ slot, seen slot = true → w.Has slot

/-- The piece gives a predicate that has the texts of `w` those of `w'`. -/
def Gives (first : Bool) (piece : Bytes) (kind : SelectorKind) (w w' : PredicateText) : Prop :=
  ∀ seen, Marks w seen → ∃ seen', Marks w' seen' ∧ Brings first piece (givenFrame kind w seen) (givenFrame kind w' seen')

theorem gives_nothing (kind : SelectorKind) (w : PredicateText) : Gives false [] kind w w :=
  fun seen h => ⟨seen, h, brings_nothing _⟩

/-- A predicate whose key waits for its value. -/
def waitingFrame (kind : SelectorKind) (w : PredicateText) (seen : SeenKey → Bool) (key : Bytes) : JsonFrame :=
  { givenFrame kind w seen with pendingKey := some key }

section Members

variable {kind : SelectorKind} {w w' : PredicateText} {seen : SeenKey → Bool}

theorem jsonEndKey_given {key : Bytes} {slot : SeenKey} (hnul : 0 ∉ key) (ha : keyAllowedForKind kind key = true)
    (hslot : jsonSeenSlot kind key = some slot) (hseen : seen slot = false) :
    jsonEndKey (givenFrame kind w seen) key = .ok (waitingFrame kind w (mark slot seen) key) := by
  unfold jsonEndKey givenFrame
  rw [if_neg hnul]
  dsimp only
  rw [show (Selector.leaf kind w.payload).kind = kind from rfl, ha, if_neg (by decide), jsonMarkSeen]
  dsimp only
  rw [show (Selector.leaf kind w.payload).kind = kind from rfl, hslot]
  dsimp only
  have hnew : ¬ seen slot = true := by
    rw [hseen]
    decide
  rw [if_neg hnew]
  rfl

/-- **A member that is not there yet gives its text.** -/
theorem gives_member {first : Bool} {key value : Bytes} (slot : SeenKey) (hkey : Clean key)
    (ha : keyAllowedForKind kind key = true) (hslot : jsonSeenSlot kind key = some slot) (hnew : ¬ w.Has slot)
    (hmore : ∀ other, w.Has other → w'.Has other) (hhas : w'.Has slot)
    (hvalue : ∀ seen, Takes value (waitingFrame kind w seen key) (givenFrame kind w' seen)) :
    Gives first (selectorJsonMember first key value) kind w w' := by
  intro seen hmarks
  have hseen : seen slot = false := Bool.eq_false_of_not_eq_true fun h => hnew (hmarks slot h)
  refine ⟨mark slot seen, fun other ho => ?_, brings_member hkey.1 (jsonEndKey_given hkey.2 ha hslot hseen) (hvalue _)⟩
  unfold mark at ho
  rw [Bool.or_eq_true, decide_eq_true_eq] at ho
  rcases ho with rfl | ho
  · exact hhas
  · exact hmore other (hmarks other ho)

theorem jsonText_ok {text : Bytes} {message : String} (h : 0 ∉ text) : jsonText text message = .ok text := by
  rw [jsonText, if_neg h]

section Scalars

variable {f f' : JsonFrame} (sel : Selector) (rest : List JsonFrame)

theorem step_string {text : Bytes} (h : jsonStringEnd f text = .ok f') :
    jsonStep ⟨sel, f :: rest⟩ (.string text) = .ok ⟨sel, f' :: rest⟩ := by
  show (jsonStringEnd f text).map _ = _
  rw [h]
  rfl

theorem step_number {text : Bytes} (h : jsonNumberEnd f text = .ok f') :
    jsonStep ⟨sel, f :: rest⟩ (.number text) = .ok ⟨sel, f' :: rest⟩ := by
  show (jsonNumberEnd f text).map _ = _
  rw [h]
  rfl

theorem step_boolean {value : Bool} (h : jsonBoolean f value = .ok f') :
    jsonStep ⟨sel, f :: rest⟩ (.boolean value) = .ok ⟨sel, f' :: rest⟩ := by
  show (jsonBoolean f value).map _ = _
  rw [h]
  rfl

theorem step_null (h : jsonNull f = .ok f') : jsonStep ⟨sel, f :: rest⟩ .null = .ok ⟨sel, f' :: rest⟩ := by
  show (jsonNull f).map _ = _
  rw [h]
  rfl

end Scalars

/-- A string that is stored in a predicate. -/
theorem takes_string {key text : Bytes} {q : Payload} (ht : IsUtf8 text)
    (hstore : jsonStorePredicateString kind w.payload key text = .ok q) (hq : q = w'.payload) (seen : SeenKey → Bool) :
    Takes (selectorJsonString text) (waitingFrame kind w seen key) (givenFrame kind w' seen) := by
  refine takes_scalar (reads_string ht) fun sel rest => ?_
  have hend : jsonStringEnd (waitingFrame kind w seen key) text = .ok (givenFrame kind w' seen) := by
    unfold jsonStringEnd waitingFrame givenFrame
    dsimp only
    rw [show (Selector.leaf kind w.payload).kind = kind from rfl,
      show (Selector.leaf kind w.payload).payload = w.payload from rfl, hstore, hq]
    rfl
  exact step_string sel rest hend

/-! ### The path -/

theorem field_clean : Clean (ascii "field") := clean_ascii rfl

theorem field_isField : keyIsField (ascii "field") = true := rfl

/-- The path that is read is the path normalized once more. -/
theorem gives_field {field : Bytes} (hclean : Clean field) (hslash : ∃ rest, field = chSlash :: rest) :
    Gives true (writeFieldJson { field := some field }) kind {} { field := normalizeFieldPath field } := by
  obtain ⟨rest, rfl⟩ := hslash
  obtain ⟨out, hout⟩ : ∃ out, normalizeFieldPath (chSlash :: rest) = some out := ⟨_, by rw [normalizeFieldPath, if_pos rfl]⟩
  unfold writeFieldJson
  rw [Option.getD_some, cText_of_not_mem hclean.2, hout]
  refine gives_member .field field_clean ?_ ?_ (fun h => h rfl) (fun other ho => ?_) (Option.some_ne_none _) ?_
  · unfold keyAllowedForKind
    rw [field_isField, Bool.true_or]
  · rw [jsonSeenSlot, if_pos field_isField]
  · cases other with
    | field => exact Option.some_ne_none _
    | value => exact ho
    | any => exact ho
    | ignoreCase => exact ho
    | bound key => exact ho
    | after => exact ho
    | before => exact ho
    | since => exact ho
  · intro seen
    refine takes_string hclean.1 ?_ rfl seen
    rw [jsonStorePredicateString, if_pos field_isField, jsonText_ok hclean.2, ok_then, jsonStoreField,
      if_neg (List.cons_ne_nil _ _), hout]
    rfl

/-! ### Values -/

theorem value_clean : Clean (ascii "value") := clean_ascii rfl

theorem value_isValue : keyIsValue (ascii "value") = true := rfl

theorem jsonLiteralKind_same {literal : LiteralKind} (h : selectorKindUsesTextualNeedles kind = true → literal = .string) :
    jsonLiteralKind kind literal = literal := by
  unfold jsonLiteralKind
  split
  · next hk => exact (h hk).symm
  · rfl

theorem jsonStoreScalar_value {key value : Bytes} {literal : LiteralKind} (hd : kind ≠ .date) (hkey : keyIsValue key = true)
    (hnumber : literal = .number → Number.isJson value = true) :
    (jsonStoreScalar (waitingFrame kind w seen key) value literal).map (fun f => { f with pendingKey := none }) =
      .ok { (givenFrame kind w seen).store (jsonStoreValue kind w.payload value literal) with pendingKey := none } := by
  unfold jsonStoreScalar waitingFrame
  dsimp only
  have hn : ¬ (decide (literal = .number) && !Number.isJson value) = true := by
    intro h
    rw [Bool.and_eq_true, decide_eq_true_eq, Bool.not_eq_true'] at h
    exact Bool.false_ne_true (h.2.symm.trans (hnumber h.1))
  rw [if_neg hn, Option.any_some, hkey]
  have hyes : (decide ((givenFrame kind w seen).kind = .predicate) && true &&
      decide ((givenFrame kind w seen).selector.kind ≠ .date)) = true := by
    rw [Bool.and_true, Bool.and_eq_true, decide_eq_true_eq, decide_eq_true_eq]
    exact ⟨rfl, hd⟩
  rw [if_pos hyes]
  rfl

/-- **A value of a predicate is read as it was.** -/
theorem gives_value {value : Bytes} {literal : LiteralKind} (hk : kind = .eq ∨ selectorKindUsesTextualNeedles kind = true)
    (hspells : literal.Spells value) (hliteral : selectorKindUsesTextualNeedles kind = true → literal = .string)
    (hnone : w.value = none) (hdates : w.dates = {}) :
    Gives false (selectorJsonMember false (ascii "value") (writeSelectorLiteralJson value literal)) kind w
      { w with value := some (value, literal) } := by
  obtain ⟨hf, hb, ha, hc⟩ := value_key value_isValue
  have hd : kind ≠ .date := by
    rintro rfl
    rcases hk with h | h <;> cases h
  have hr : kind ≠ .range := by
    rintro rfl
    rcases hk with h | h <;> cases h
  have hstore : jsonStoreValue kind w.payload value literal =
      ({ w with value := some (value, literal) } : PredicateText).payload := by
    rw [jsonStoreValue, jsonLiteralKind_same hliteral]
    rfl
  refine gives_member .value value_clean ?_ ?_ ?_ (fun other ho => ?_) (.inl (Option.some_ne_none _)) ?_
  · unfold keyAllowedForKind
    rcases hk with rfl | hk
    · simp [value_isValue]
    · cases kind <;> simp_all [selectorKindUsesTextualNeedles, value_isValue]
  · rw [jsonSeenSlot, if_neg (by rw [hf]; decide), if_pos value_isValue]
  · rintro (h | h)
    · exact h hnone
    · rw [hdates] at h
      exact h rfl
  · cases other with
    | value => exact .inl (Option.some_ne_none _)
    | field => exact ho
    | any => exact ho
    | ignoreCase => exact ho
    | bound key => exact ho
    | after => exact ho
    | before => exact ho
    | since => exact ho
  · intro seen
    have hscalar : ∀ literal' : LiteralKind, literal' = literal →
        (jsonStoreScalar (waitingFrame kind w seen (ascii "value")) value literal').map
          (fun f => { f with pendingKey := none }) =
            .ok (givenFrame kind { w with value := some (value, literal) } seen) := by
      intro literal' hl
      subst hl
      rw [jsonStoreScalar_value hd value_isValue fun hn => by subst hn; exact hspells, hstore]
      rfl
    cases literal with
    | string =>
      refine takes_string hspells ?_ hstore seen
      rw [jsonStorePredicateString, if_neg (by rw [hf]; decide), if_neg (by simp [hd]), if_pos value_isValue]
    | number =>
      refine takes_scalar (reads_literal hspells) fun sel rest => ?_
      have hend : jsonNumberEnd (waitingFrame kind w seen (ascii "value")) value =
          .ok (givenFrame kind { w with value := some (value, .number) } seen) := by
        unfold jsonNumberEnd
        rw [if_neg (by simp [waitingFrame, givenFrame, Selector.leaf, Selector.kind, hr])]
        exact hscalar .number rfl
      exact step_number sel rest hend
    | bool =>
      refine takes_scalar (reads_literal hspells) fun sel rest => ?_
      have htext : (if decide (value = txtTrue) = true then txtTrue else txtFalse) = value := by
        rcases hspells with rfl | rfl
        · rfl
        · rfl
      have hend : jsonBoolean (waitingFrame kind w seen (ascii "value")) (decide (value = txtTrue)) =
          .ok (givenFrame kind { w with value := some (value, .bool) } seen) := by
        unfold jsonBoolean
        rw [if_neg (by simp [waitingFrame, hc]), htext]
        exact hscalar .bool rfl
      exact step_boolean sel rest hend
    | null =>
      refine takes_scalar (reads_literal hspells) fun sel rest => ?_
      obtain rfl : value = txtNull := hspells
      exact step_null sel rest (hscalar .null rfl)

/-! ### The case -/

theorem ignoreCase_clean : Clean (ascii "ignoreCase") := clean_ascii rfl

theorem ignoreCase_isIgnoreCase : keyIsIgnoreCase (ascii "ignoreCase") = true := rfl

theorem gives_ignoreCase (hk : selectorKindUsesTextualNeedles kind = true) (hnone : w.ignoreCase = false) :
    Gives false (selectorJsonMember false (ascii "ignoreCase") txtTrue) kind w { w with ignoreCase := true } := by
  obtain ⟨hf, hv, hb, ha, hw⟩ := ignoreCase_key ignoreCase_isIgnoreCase
  refine gives_member .ignoreCase ignoreCase_clean ?_ ?_ (fun h => ?_) (fun other ho => ?_) rfl ?_
  · unfold keyAllowedForKind
    cases kind <;> simp_all [selectorKindUsesTextualNeedles, ignoreCase_isIgnoreCase]
  · rw [jsonSeenSlot, if_neg (by rw [hf]; decide), if_neg (by rw [hv]; decide), if_pos ignoreCase_isIgnoreCase]
  · rw [PredicateText.Has, hnone] at h
    cases h
  · cases other with
    | ignoreCase => rfl
    | value => exact ho
    | field => exact ho
    | any => exact ho
    | bound key => exact ho
    | after => exact ho
    | before => exact ho
    | since => exact ho
  · intro seen
    refine takes_scalar reads_tt fun sel rest => ?_
    have hend : jsonBoolean (waitingFrame kind w seen (ascii "ignoreCase")) true =
        .ok (givenFrame kind { w with ignoreCase := true } seen) := by
      unfold jsonBoolean
      rw [if_pos (by simp [waitingFrame, givenFrame, ignoreCase_isIgnoreCase])]
      rfl
    exact step_boolean sel rest hend

/-! ### Values of an `any` -/

/-- What an item becomes: it is one of a JSON array now. -/
def AnyValue.reread (item : AnyValue) : AnyValue := { item with fromJson := true }

theorem any_clean : Clean (ascii "any") := clean_ascii rfl

theorem any_isAny : keyIsAny (ascii "any") = true := rfl

theorem writeAnyJson_join : ∀ items : List AnyValue,
    writeAnyJson items = commaJoin (items.map fun item => writeSelectorLiteralJson item.text item.kind)
  | [] => rfl
  | [item] => rfl
  | item :: next :: rest => by
    rw [writeAnyJson, writeAnyJson_join (next :: rest)]
    rfl

/-- The frame of the values of a predicate. -/
def anyFrame (kind : SelectorKind) (w : PredicateText) : JsonFrame :=
  { kind := .anyArray, selector := .leaf kind w.payload }

theorem takes_item {item : AnyValue} (hspells : item.kind.Spells item.text)
    (hkind : selectorKindUsesTextualNeedles kind = true → item.kind = .string) :
    Takes (writeSelectorLiteralJson item.text item.kind) (anyFrame kind w)
      (anyFrame kind { w with any := w.any ++ [item.reread] }) := by
  obtain ⟨text, literal, fromJson⟩ := item
  have hsame := jsonLiteralKind_same hkind
  have hpush : (anyFrame kind w).store (jsonPushAny kind w.payload text literal) =
      anyFrame kind { w with any := w.any ++ [⟨text, literal, true⟩] } := by
    rw [jsonPushAny, hsame]
    rfl
  have hscalar : ∀ literal' : LiteralKind, literal' = literal →
      (jsonStoreScalar (anyFrame kind w) text literal').map (fun f => { f with pendingKey := none }) =
        .ok (anyFrame kind { w with any := w.any ++ [⟨text, literal, true⟩] }) := by
    intro literal' hl
    subst hl
    unfold jsonStoreScalar
    have hn : ¬ (decide (literal' = .number) && !Number.isJson text) = true := by
      intro h
      rw [Bool.and_eq_true, decide_eq_true_eq, Bool.not_eq_true'] at h
      obtain ⟨rfl, h⟩ := h
      exact Bool.false_ne_true (h.symm.trans hspells)
    dsimp only
    have hany : (anyFrame kind w).kind = .anyArray := rfl
    rw [if_neg hn, if_neg (by simp [anyFrame]), if_pos hany]
    show Except.ok { (anyFrame kind w).store (jsonPushAny kind w.payload text literal') with pendingKey := none } = _
    rw [hpush]
    rfl
  refine takes_scalar (reads_literal hspells) fun sel rest => ?_
  cases literal with
  | string =>
    refine step_string sel rest ?_
    show Except.ok ((anyFrame kind w).store (jsonPushAny kind w.payload text .string)) = _
    rw [hpush]
    rfl
  | number =>
    refine step_number sel rest ?_
    unfold jsonNumberEnd
    rw [if_neg (by simp [anyFrame])]
    exact hscalar .number rfl
  | bool =>
    refine step_boolean sel rest ?_
    have htext : (if decide (text = txtTrue) = true then txtTrue else txtFalse) = text := by
      rcases hspells with h | h
      · have h : text = txtTrue := h
        subst h
        rfl
      · have h : text = txtFalse := h
        subst h
        rfl
    unfold jsonBoolean
    rw [if_neg (by simp [anyFrame]), htext]
    exact hscalar .bool rfl
  | null =>
    have htext : text = txtNull := hspells
    subst htext
    exact step_null sel rest (hscalar .null rfl)

theorem takes_items : ∀ {items : List AnyValue} {w : PredicateText},
    (∀ item ∈ items, item.kind.Spells item.text ∧ (selectorKindUsesTextualNeedles kind = true → item.kind = .string)) →
      TakesAll (items.map fun item => writeSelectorLiteralJson item.text item.kind) (anyFrame kind w)
        (anyFrame kind { w with any := w.any ++ items.map AnyValue.reread })
  | [], w, _ => by
    rw [List.map_nil, List.map_nil, List.append_nil]
    exact .nil _
  | item :: items, w, h => by
    obtain ⟨⟨hspells, hkind⟩, hitems⟩ := List.forall_mem_cons.mp h
    have hrest := takes_items (w := { w with any := w.any ++ [item.reread] }) hitems
    rw [List.append_assoc] at hrest
    exact .cons (takes_item hspells hkind) hrest

/-- **The values are read as they were.** -/
theorem gives_any {items : List AnyValue} (hk : kind = .contains ∨ kind = .icontains ∨ kind = .isIn) (hne : items ≠ [])
    (hitems : ∀ item ∈ items, item.kind.Spells item.text ∧
      (selectorKindUsesTextualNeedles kind = true → item.kind = .string)) (hnone : w.any = []) :
    Gives false (selectorJsonMember false (ascii "any") ([chLBracket] ++ writeAnyJson items ++ [chRBracket])) kind w
      { w with any := items.map AnyValue.reread } := by
  obtain ⟨hf, hv, hc, hb, hbefore, hsince⟩ := any_key any_isAny
  have hd : kind ≠ .date := by rcases hk with rfl | rfl | rfl <;> decide
  refine gives_member .any any_clean ?_ ?_ (fun h => h hnone) (fun other ho => ?_) ?_ fun seen => ?_
  · unfold keyAllowedForKind
    rcases hk with rfl | rfl | rfl <;> simp [any_isAny]
  · unfold jsonSeenSlot
    simp [hf, hv, hc, hb, hd, hsince, any_isAny]
  · cases other with
    | any => exact absurd hnone ho
    | ignoreCase => exact ho
    | value => exact ho
    | field => exact ho
    | bound key => exact ho
    | after => exact ho
    | before => exact ho
    | since => exact ho
  · exact fun h => hne (List.map_eq_nil_iff.mp h)
  · rw [writeAnyJson_join]
    have hall := takes_items (w := w) hitems
    rw [hnone, List.nil_append] at hall
    refine takes_array (givenFrame kind w seen) (fun sel rest => ?_) hall fun sel rest => ?_
    · show jsonArrayBegin ⟨sel, waitingFrame kind w seen (ascii "any") :: rest⟩ = _
      unfold jsonArrayBegin
      dsimp only
      rw [if_neg (by simp [waitingFrame, givenFrame]), if_pos (by simp [waitingFrame, givenFrame, any_isAny])]
      rfl
    · rfl

/-! ### Bounds of a range -/

theorem name_clean (key : BoundKey) : Clean key.name := by
  cases key <;> exact clean_ascii rfl

theorem name_bound (key : BoundKey) : keyBound key.name = some key := by
  cases key <;> rfl

/-- A bound of a range as a member: dates are strings, and numbers are written as they are. -/
def rangeMember (key : BoundKey) (text : Bytes) : Bytes :=
  selectorJsonMember false key.name
    (if (Temporal.parseTemporalLiteral text).isSome then selectorJsonString text else text)

theorem gives_range {key : BoundKey} {text : Bytes} (hclean : Clean text) (htrim : trim text = text)
    (hvalid : RangeText text) (hnone : w.range.get key = none) (hdates : w.dates = {}) :
    Gives false (rangeMember key text) .range w (w.giveRange key text) := by
  have hbound := name_bound key
  obtain ⟨hf, hv, hc⟩ := bound_key hbound
  have hstore : setRangeBound w.payload key text = .ok (w.giveRange key text).payload := by
    have hpayload := payload_range w hdates hnone (show RangeText (trim text) by rwa [htrim])
    rwa [htrim] at hpayload
  have hword : ∀ word : Bytes → Bool, (word = keyIsAfter ∨ word = keyIsBefore ∨ word = keyIsSince ∨ word = keyIsAny) →
      word key.name = false := by
    intro word hw
    rcases hw with rfl | rfl | rfl | rfl <;> cases key <;> rfl
  refine gives_member _ (name_clean key) ?_ (seenSlot_bound hbound) (fun h => ?_) (fun other ho => ?_) ?_ fun seen => ?_
  · unfold keyAllowedForKind
    rw [hf, hbound]
    rfl
  · rcases h with h | h
    · exact h hnone
    · rw [hdates] at h
      cases key <;> exact h rfl
  · cases other with
    | bound other =>
      refine ho.imp (fun h => ?_) id
      rw [get_giveRange]
      by_cases heq : other = key
      · rw [if_pos heq]
        exact Option.some_ne_none _
      · rwa [if_neg heq]
    | any => exact ho
    | ignoreCase => exact ho
    | value => exact ho
    | field => exact ho
    | after => exact ho
    | before => exact ho
    | since => exact ho
  · refine .inl ?_
    rw [get_giveRange, if_pos rfl]
    exact Option.some_ne_none _
  · split
    · refine takes_string hclean.1 ?_ rfl seen
      rw [jsonStorePredicateString, if_neg (by rw [hf]; decide), if_neg (by rw [hv]; decide), if_neg (by rw [hv]; decide),
        if_neg (by simp), if_neg (by rw [hword _ (.inr (.inr (.inr rfl)))]; decide), if_neg (by rw [hc]; decide), hbound]
      dsimp only
      rw [jsonText_ok hclean.2, ok_then, if_neg (by decide)]
      exact hstore
    · next hdate =>
      have hnumber : Number.isJson text = true := hvalid.resolve_left hdate
      refine takes_scalar (reads_number hnumber) fun sel rest => step_number sel rest ?_
      unfold jsonNumberEnd
      have hkind : (decide ((waitingFrame .range w seen key.name).kind = .predicate) &&
          decide ((waitingFrame .range w seen key.name).selector.kind = .range)) = true := rfl
      have hwaits : (waitingFrame .range w seen key.name).pendingKey.bind keyBound = some key := hbound
      have hbounded : setRangeBound (waitingFrame .range w seen key.name).selector.payload key text =
          .ok (w.giveRange key text).payload := hstore
      rw [if_pos hkind, hwaits]
      dsimp only
      rw [hbounded]
      rfl

/-! ### Dates -/

/-- The name of a date. -/
def DateSlot.name : DateSlot → Bytes
  | .value => ascii "value"
  | .since => ascii "since"
  | .after => ascii "after"
  | .before => ascii "before"
  | .bound key => key.name

theorem slot_clean (slot : DateSlot) : Clean slot.name := by
  cases slot with
  | bound key => exact name_clean key
  | value => exact clean_ascii rfl
  | since => exact clean_ascii rfl
  | after => exact clean_ascii rfl
  | before => exact clean_ascii rfl

theorem slot_seen (slot : DateSlot) : jsonSeenSlot .date slot.name = some slot.seen ∧
    keyAllowedForKind .date slot.name = true := by
  cases slot with
  | bound key => cases key <;> exact ⟨rfl, rfl⟩
  | value => exact ⟨rfl, rfl⟩
  | since => exact ⟨rfl, rfl⟩
  | after => exact ⟨rfl, rfl⟩
  | before => exact ⟨rfl, rfl⟩

theorem jsonStorePredicateString_date (p : Payload) (slot : DateSlot) {text : Bytes} (hnul : 0 ∉ text) :
    jsonStorePredicateString .date p slot.name text = setDateBound p slot text := by
  have htext : ∀ message, jsonText text message = .ok text := fun message => jsonText_ok hnul
  cases slot with
  | bound key =>
    obtain ⟨hf, hv, hc⟩ := bound_key (name_bound key)
    have hword : (keyIsAfter key.name || keyIsBefore key.name || keyIsSince key.name) = false ∧
        keyIsAny key.name = false := by cases key <;> exact ⟨rfl, rfl⟩
    rw [jsonStorePredicateString]
    simp only [DateSlot.name, hf, hv, hc, hword.1, hword.2, name_bound, htext, ok_then, Bool.false_eq_true, if_false,
      Bool.and_false, if_true]
  | value =>
    obtain ⟨hf, -⟩ := value_key value_isValue
    rw [jsonStorePredicateString]
    simp only [DateSlot.name, hf, value_isValue, htext, ok_then, Bool.false_eq_true, if_false, decide_true, Bool.and_true,
      if_true]
  | since =>
    have hkeys : keyIsField (ascii "since") = false ∧ keyIsValue (ascii "since") = false ∧
        keyIsAfter (ascii "since") = false ∧ keyIsBefore (ascii "since") = false ∧ keyIsSince (ascii "since") = true :=
      ⟨rfl, rfl, rfl, rfl, rfl⟩
    rw [jsonStorePredicateString]
    simp only [DateSlot.name, hkeys, htext, ok_then, Bool.false_eq_true, if_false, decide_true, Bool.and_true, Bool.and_false,
      Bool.or_true, if_true]
  | after =>
    have hkeys : keyIsField (ascii "after") = false ∧ keyIsValue (ascii "after") = false ∧
        keyIsAfter (ascii "after") = true := ⟨rfl, rfl, rfl⟩
    rw [jsonStorePredicateString]
    simp only [DateSlot.name, hkeys, htext, ok_then, Bool.false_eq_true, if_false, decide_true, Bool.and_true, Bool.and_false,
      Bool.true_or, if_true]
  | before =>
    have hkeys : keyIsField (ascii "before") = false ∧ keyIsValue (ascii "before") = false ∧
        keyIsAfter (ascii "before") = false ∧ keyIsBefore (ascii "before") = true := ⟨rfl, rfl, rfl, rfl⟩
    rw [jsonStorePredicateString]
    simp only [DateSlot.name, hkeys, htext, ok_then, Bool.false_eq_true, if_false, decide_true, Bool.and_true, Bool.and_false,
      Bool.true_or, Bool.false_or, if_true]

theorem gives_date {slot : DateSlot} {text : Bytes} (hclean : Clean text) (hvalid : DateText slot text)
    (hnone : w.dates.get slot = none) (hvalue : w.value = none) (hrange : w.range = {})
    (hfree : ∀ key, slot = .bound key → w.dates.word key = none) :
    Gives false (selectorJsonMember false slot.name (selectorJsonString text)) .date w (w.giveDate slot text) := by
  have hhas : ∀ w : PredicateText, w.dates.get slot ≠ none → w.Has slot.seen := by
    intro w h
    cases slot with
    | bound key => exact .inr h
    | value => exact .inr h
    | since => exact h
    | after => exact h
    | before => exact h
  have hmore : ∀ other : DateSlot, w.dates.get other ≠ none → (w.giveDate slot text).dates.get other ≠ none := by
    intro other h
    rw [PredicateText.giveDate, DateTexts.get_put]
    by_cases ho : other = slot
    · rw [if_pos ho]
      exact Option.some_ne_none _
    · rwa [if_neg ho]
  refine gives_member _ (slot_clean slot) (slot_seen slot).2 (slot_seen slot).1 (fun h => ?_) (fun other ho => ?_) ?_ fun seen => ?_
  · cases slot with
    | bound key =>
      rcases h with h | h
      · rw [hrange] at h
        cases key <;> exact h rfl
      · exact h hnone
    | value =>
      rcases h with h | h
      · exact h hvalue
      · exact h hnone
    | since => exact h hnone
    | after => exact h hnone
    | before => exact h hnone
  · cases other with
    | bound key => exact ho.imp id (hmore (.bound key))
    | value => exact ho.imp id (hmore .value)
    | since => exact hmore .since ho
    | after => exact hmore .after ho
    | before => exact hmore .before ho
    | any => exact ho
    | ignoreCase => exact ho
    | field => exact ho
  · refine hhas _ ?_
    rw [PredicateText.giveDate, DateTexts.get_put, if_pos rfl]
    exact Option.some_ne_none _
  · refine takes_string hclean.1 ?_ rfl seen
    rw [jsonStorePredicateString_date _ _ hclean.2, payload_date w hrange hnone hfree hvalid]

end Members

end Lql.Selector
