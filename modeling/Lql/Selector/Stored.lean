import Lql.Scan.Predicates
import Lql.Selector.Replay

/-!
# What a value does to its predicate

Whichever event brings the value of a key, it stores what the key stands for in the payload of the predicate, and the key
waits no longer. This is said once, for all the events and all the names of a key.
-/

namespace Lql.Selector

open Json (Str)
open Unicode (utf8)

/-- The bytes of characters. -/
def IsUtf8 (text : Bytes) : Prop := ∃ cs : List Char, text = utf8 cs

theorem text_isUtf8 {s : Str} (h : s.Ok) : IsUtf8 s.text := by
  obtain ⟨cs, hcs, -⟩ := Json.Str.chars fun p hp => (h p hp).coded
  exact ⟨cs, hcs⟩

theorem isUtf8_ascii : ∀ {text : Bytes}, (∀ c ∈ text, c < 0x80) → IsUtf8 text
  | [], _ => ⟨[], rfl⟩
  | c :: text, h => by
    obtain ⟨ch, hch⟩ := Json.coded_ascii (h c List.mem_cons_self)
    obtain ⟨cs, rfl⟩ := isUtf8_ascii fun d hd => h d (List.mem_cons_of_mem _ hd)
    exact ⟨ch :: cs, by rw [Unicode.utf8_cons, ← hch]; rfl⟩

/-- The value is one of this kind. -/
def LiteralKind.Spells : LiteralKind → Bytes → Prop
  | .string, value => IsUtf8 value
  | .number, value => Number.isJson value = true
  | .bool, value => value = txtTrue ∨ value = txtFalse
  | .null, value => value = txtNull

/-! ## The names of a key -/

section Keys

variable {key : Bytes}

theorem field_key (h : keyIsField key = true) : keyIsValue key = false ∧ keyIsIgnoreCase key = false ∧
    keyBound key = none := by
  unfold keyIsField at h
  rw [Bool.or_eq_true, decide_eq_true_eq, decide_eq_true_eq] at h
  rcases h with rfl | rfl <;> exact ⟨rfl, rfl, rfl⟩

theorem value_key (h : keyIsValue key = true) : keyIsField key = false ∧ keyBound key = none ∧
    keyIsAny key = false ∧ keyIsIgnoreCase key = false := by
  unfold keyIsValue at h
  rw [Bool.or_eq_true, decide_eq_true_eq, decide_eq_true_eq] at h
  rcases h with rfl | rfl <;> exact ⟨rfl, rfl, rfl, rfl⟩

theorem any_key (h : keyIsAny key = true) : keyIsField key = false ∧ keyIsValue key = false ∧
    keyIsIgnoreCase key = false ∧ keyBound key = none ∧ keyIsBefore key = false ∧ keyIsSince key = false := by
  unfold keyIsAny at h
  rw [Bool.or_eq_true, decide_eq_true_eq, decide_eq_true_eq] at h
  rcases h with rfl | rfl <;> exact ⟨rfl, rfl, rfl, rfl, rfl, rfl⟩

theorem ignoreCase_key (h : keyIsIgnoreCase key = true) : keyIsField key = false ∧ keyIsValue key = false ∧
    keyBound key = none ∧ keyIsAny key = false ∧ (keyIsAfter key || keyIsBefore key || keyIsSince key) = false := by
  unfold keyIsIgnoreCase at h
  rw [Bool.or_eq_true, Bool.or_eq_true, decide_eq_true_eq, decide_eq_true_eq, decide_eq_true_eq] at h
  rcases h with (rfl | rfl) | rfl <;> exact ⟨rfl, rfl, rfl, rfl, rfl⟩

theorem date_key (h : (keyIsAfter key || keyIsBefore key || keyIsSince key) = true) : keyIsField key = false ∧
    keyIsValue key = false ∧ keyIsIgnoreCase key = false ∧ keyBound key = none := by
  unfold keyIsAfter keyIsBefore keyIsSince at h
  simp only [Bool.or_eq_true, decide_eq_true_eq] at h
  rcases h with ((rfl | rfl) | rfl | rfl) | rfl <;> exact ⟨rfl, rfl, rfl, rfl⟩

theorem bound_key {bound : BoundKey} (h : keyBound key = some bound) : keyIsField key = false ∧
    keyIsValue key = false ∧ keyIsIgnoreCase key = false := by
  refine ⟨Bool.eq_false_of_not_eq_true fun hf => ?_, Bool.eq_false_of_not_eq_true fun hv => ?_,
    Bool.eq_false_of_not_eq_true fun hc => ?_⟩
  · exact Option.some_ne_none _ (h.symm.trans (field_key hf).2.2)
  · exact Option.some_ne_none _ (h.symm.trans (value_key hv).2.1)
  · exact Option.some_ne_none _ (h.symm.trans (ignoreCase_key hc).2.2.1)

theorem seenSlot_bound {kind : SelectorKind} {bound : BoundKey} (h : keyBound key = some bound) :
    jsonSeenSlot kind key = some (.bound bound) := by
  obtain ⟨hf, hv, hc⟩ := bound_key h
  simp [jsonSeenSlot, hf, hv, hc, h]

/-- The case is ignored by predicates on texts. -/
theorem allowed_ignoreCase {kind : SelectorKind} (ha : keyAllowedForKind kind key = true)
    (hc : keyIsIgnoreCase key = true) : selectorKindUsesTextualNeedles kind = true ∧
      jsonSeenSlot kind key = some .ignoreCase := by
  obtain ⟨hf, hv, hb, hany, hword⟩ := ignoreCase_key hc
  refine ⟨?_, by simp [jsonSeenSlot, hf, hv, hc]⟩
  unfold keyAllowedForKind at ha
  rw [hf, Bool.false_or] at ha
  cases kind <;> simp_all [selectorKindUsesTextualNeedles]

end Keys

/-! ## What is stored -/

/-- Where the date of a slot is remembered. -/
def DateSlot.seen : DateSlot → SeenKey
  | .value => .value
  | .since => .since
  | .after => .after
  | .before => .before
  | .bound key => .bound key

/-- A value of the key that is remembered in this place, stored in the payload of a predicate. -/
inductive Stored (kind : SelectorKind) (p : Payload) : SeenKey → Payload → Prop where
  | field {text field : Bytes} : IsUtf8 text → 0 ∉ text → normalizeFieldPath text = some field →
    Stored kind p .field { p with field := some field }
  | value {text : Bytes} {literal : LiteralKind} : kind = .eq ∨ selectorKindUsesTextualNeedles kind = true →
    literal.Spells text → Stored kind p .value (jsonStoreValue kind p text literal)
  | date {slot : DateSlot} {text : Bytes} {q : Payload} : kind = .date → IsUtf8 text → 0 ∉ text →
    setDateBound p slot text = .ok q → Stored kind p slot.seen q
  | range {bound : BoundKey} {text : Bytes} {q : Payload} : kind = .range → IsUtf8 text → 0 ∉ text →
    setRangeBound p bound text = .ok q → Stored kind p (.bound bound) q
  | any {text : Bytes} {q : Payload} : kind = .contains ∨ kind = .icontains ∨ kind = .isIn → IsUtf8 text → 0 ∉ text →
    parseAnyValues text p (kind = .isIn) (selectorKindUsesTextualNeedles kind) = .ok q → Stored kind p .any q
  | ignoreCase (value : Bool) : selectorKindUsesTextualNeedles kind = true →
    Stored kind p .ignoreCase { p with ignoreCase := value }

/-- The value of the key that waited is stored, and it waits no longer. -/
def Stores (f f' : JsonFrame) : Prop :=
  ∃ key slot q, f.pendingKey = some key ∧ jsonSeenSlot f.selector.kind key = some slot ∧
    Stored f.selector.kind f.selector.payload slot q ∧ f' = { f.store q with pendingKey := none }

/-- The key that waits is one that the predicate may have. -/
def JsonFrame.Allowed (f : JsonFrame) : Prop :=
  ∀ key, f.pendingKey = some key → keyAllowedForKind f.selector.kind key = true

theorem jsonText_bind {α : Type} {text : Bytes} {message : String} {k : Bytes → Except Err α} {a : α}
    (h : (jsonText text message >>= k) = .ok a) : 0 ∉ text ∧ k text = .ok a := by
  unfold jsonText at h
  split at h
  · cases h
  · next hnul => exact ⟨hnul, h⟩

theorem jsonStoreField_ok {p q : Payload} {value : Bytes} (hs : jsonStoreField p value = .ok q) :
    ∃ field, normalizeFieldPath value = some field ∧ q = { p with field := some field } := by
  unfold jsonStoreField at hs
  split at hs
  · cases hs
  · cases hn : normalizeFieldPath value with
    | none =>
      rw [hn] at hs
      cases hs
    | some field =>
      rw [hn] at hs
      cases hs
      exact ⟨field, rfl, rfl⟩

/-- A key with a value belongs to `eq`, to a predicate on texts or to a date. -/
theorem allowed_value {kind : SelectorKind} {key : Bytes} (ha : keyAllowedForKind kind key = true)
    (hv : keyIsValue key = true) (hd : kind ≠ .date) : kind = .eq ∨ selectorKindUsesTextualNeedles kind = true := by
  obtain ⟨hf, hb, hn, -⟩ := value_key hv
  unfold keyAllowedForKind at ha
  rw [hf, Bool.false_or] at ha
  cases kind <;> simp_all [selectorKindUsesTextualNeedles]

theorem jsonStorePredicateString_stored {kind : SelectorKind} {p q : Payload} {key text : Bytes}
    (ha : keyAllowedForKind kind key = true) (ht : IsUtf8 text) (hs : jsonStorePredicateString kind p key text = .ok q) :
    ∃ slot, jsonSeenSlot kind key = some slot ∧ Stored kind p slot q := by
  unfold jsonStorePredicateString at hs
  split at hs
  · next hfield =>
    obtain ⟨hnul, hs⟩ := jsonText_bind hs
    obtain ⟨field, hf, rfl⟩ := jsonStoreField_ok hs
    exact ⟨.field, by rw [jsonSeenSlot, if_pos hfield], .field ht hnul hf⟩
  next hfield =>
  split at hs
  · next hdate =>
    obtain ⟨hnul, hs⟩ := jsonText_bind hs
    rw [Bool.and_eq_true, decide_eq_true_eq] at hdate
    exact ⟨.value, by rw [jsonSeenSlot, if_neg hfield, if_pos hdate.2], .date hdate.1 ht hnul hs⟩
  next hdate =>
  split at hs
  · next hvalue =>
    cases hs
    have hd : kind ≠ .date := fun hd => hdate (by rw [hvalue, hd]; rfl)
    exact ⟨.value, by rw [jsonSeenSlot, if_neg hfield, if_pos hvalue], .value (allowed_value ha hvalue hd) ht⟩
  next hvalue =>
  split at hs
  · next hword =>
    obtain ⟨hnul, hs⟩ := jsonText_bind hs
    rw [Bool.and_eq_true, decide_eq_true_eq] at hword
    obtain ⟨rfl, hword⟩ := hword
    obtain ⟨-, -, hcase, hbound⟩ := date_key hword
    have hstored := Stored.date rfl ht hnul hs
    refine ⟨_, ?_, hstored⟩
    rw [jsonSeenSlot, if_neg hfield, if_neg hvalue, hcase, hbound]
    by_cases hafter : keyIsAfter key = true
    · simp [hafter, DateSlot.seen]
    · by_cases hbefore : keyIsBefore key = true
      · simp [hafter, hbefore, DateSlot.seen]
      · have hsince : keyIsSince key = true := by simpa [hafter, hbefore] using hword
        simp [hafter, hbefore, hsince, DateSlot.seen]
  next hword =>
  split at hs
  · next hany =>
    obtain ⟨hnul, hs⟩ := jsonText_bind hs
    obtain ⟨hf, hv, hcase, hbound, hbefore, hsince⟩ := any_key hany
    have hkind : kind = .contains ∨ kind = .icontains ∨ kind = .isIn := by
      unfold keyAllowedForKind at ha
      rw [hf, Bool.false_or] at ha
      cases kind <;> simp_all
    refine ⟨.any, ?_, .any hkind ht hnul hs⟩
    have hd : kind ≠ .date := by rcases hkind with rfl | rfl | rfl <;> decide
    simp [jsonSeenSlot, hf, hv, hcase, hbound, hd, hsince, hany]
  next hany =>
  split at hs
  · next hcase =>
    obtain ⟨-, hs⟩ := jsonText_bind hs
    obtain ⟨hkind, hslot⟩ := allowed_ignoreCase ha hcase
    split at hs
    · cases hs
    · cases hs
      exact ⟨.ignoreCase, hslot, .ignoreCase _ hkind⟩
  next hcase =>
  split at hs
  · next hbound =>
    -- no other key is allowed
    have hword' : kind = .date → (keyIsAfter key || keyIsBefore key || keyIsSince key) = false := by
      intro hd
      simpa [hd] using hword
    unfold keyAllowedForKind at ha
    exfalso
    cases kind <;> simp_all
  next bound hbound =>
  obtain ⟨hnul, hs⟩ := jsonText_bind hs
  refine ⟨_, seenSlot_bound hbound, ?_⟩
  split at hs
  · next hd => exact (Stored.date hd ht hnul hs : Stored kind p (DateSlot.bound bound).seen q)
  · next hd =>
    refine .range ?_ ht hnul hs
    unfold keyAllowedForKind at ha
    cases kind <;> simp_all

/-- A key that is allowed has a place where it is remembered. -/
theorem allowed_slot {kind : SelectorKind} {key : Bytes} (ha : keyAllowedForKind kind key = true) :
    ∃ slot, jsonSeenSlot kind key = some slot := by
  unfold jsonSeenSlot
  split
  · exact ⟨_, rfl⟩
  split
  · exact ⟨_, rfl⟩
  split
  · exact ⟨_, rfl⟩
  split
  · exact ⟨_, rfl⟩
  split
  · exact ⟨_, rfl⟩
  split
  · exact ⟨_, rfl⟩
  split
  · exact ⟨_, rfl⟩
  split
  · exact ⟨_, rfl⟩
  · unfold keyAllowedForKind at ha
    exfalso
    cases kind <;> simp_all

/-- A key is remembered, and waits for its value. -/
theorem jsonEndKey_predicate {f f' : JsonFrame} {text : Bytes} (hk : f.kind = .predicate)
    (hs : jsonEndKey f text = .ok f') : keyAllowedForKind f.selector.kind text = true ∧
      ∃ slot, jsonSeenSlot f.selector.kind text = some slot ∧ f.seen slot = false ∧
        f' = { f with seen := fun k => k = slot || f.seen k, pendingKey := some text } := by
  unfold jsonEndKey at hs
  rw [hk] at hs
  split at hs
  · cases hs
  dsimp only at hs
  split at hs
  · cases hs
  next hallowed =>
  rw [Bool.not_eq_true', Bool.not_eq_false] at hallowed
  obtain ⟨slot, hslot⟩ := allowed_slot hallowed
  refine ⟨hallowed, slot, hslot, ?_⟩
  rw [jsonMarkSeen, hslot] at hs
  dsimp only at hs
  cases hseen : f.seen slot with
  | true =>
    rw [hseen, if_pos rfl] at hs
    cases hs
  | false =>
    rw [hseen, if_neg (by decide)] at hs
    cases hs
    exact ⟨rfl, rfl⟩

section Events

variable {f f' : JsonFrame}

theorem jsonStringEnd_stores {text : Bytes} (hk : f.kind = .predicate) (ha : f.Allowed) (ht : IsUtf8 text)
    (hs : jsonStringEnd f text = .ok f') : Stores f f' := by
  unfold jsonStringEnd at hs
  rw [hk] at hs
  cases hp : f.pendingKey with
  | none =>
    rw [hp] at hs
    cases hs
  | some key =>
    rw [hp] at hs
    dsimp only at hs
    obtain ⟨q, hq, rfl⟩ := mapped_ok_iff.mp hs
    obtain ⟨slot, hslot, hstored⟩ := jsonStorePredicateString_stored (ha key hp) ht hq
    exact ⟨key, slot, q, hp, hslot, hstored, rfl⟩

/-- A scalar that is no string is the value of the key `value`. -/
theorem jsonStoreScalar_stores {value : Bytes} {literal : LiteralKind} (hk : f.kind = .predicate) (ha : f.Allowed)
    (hv : (literal = .number → Number.isJson value = true) → literal.Spells value)
    (hs : (jsonStoreScalar f value literal).map (fun f => { f with pendingKey := none }) = .ok f') : Stores f f' := by
  obtain ⟨g, hg, rfl⟩ := mapped_ok_iff.mp hs
  unfold jsonStoreScalar at hg
  dsimp only at hg
  split at hg
  · cases hg
  next hnumber =>
  have hspells : literal.Spells value := by
    refine hv fun hl => ?_
    by_contra hj
    exact hnumber (by simp [hl, hj])
  split at hg
  · next hvalue =>
    cases hg
    simp only [Bool.and_eq_true, decide_eq_true_eq] at hvalue
    obtain ⟨⟨-, hkey⟩, hd⟩ := hvalue
    cases hp : f.pendingKey with
    | none => simp [hp] at hkey
    | some key =>
      rw [hp, Option.any_some] at hkey
      obtain ⟨hf, -⟩ := value_key hkey
      have hslot : jsonSeenSlot f.selector.kind key = some .value := by simp [jsonSeenSlot, hf, hkey]
      exact ⟨key, .value, _, hp, hslot, .value (allowed_value (ha key hp) hkey hd) hspells, rfl⟩
  split at hg
  · next hany => simp [hk] at hany
  · cases hg

theorem token_isUtf8 {token : Bytes} (h : Json.NumberToken token) : IsUtf8 token ∧ 0 ∉ token := by
  have hall : ∀ c ∈ token, c < 0x80 ∧ c ≠ 0 := h.forall (by decide +kernel) (by decide +kernel)
  exact ⟨isUtf8_ascii fun c hc => (hall c hc).1, fun h0 => (hall 0 h0).2 rfl⟩

theorem jsonNumberEnd_stores {token : Bytes} (hk : f.kind = .predicate) (ha : f.Allowed) (ht : Json.NumberToken token)
    (hs : jsonNumberEnd f token = .ok f') : Stores f f' := by
  unfold jsonNumberEnd at hs
  split at hs
  · next bound hbound =>
    obtain ⟨q, hq, rfl⟩ := mapped_ok_iff.mp hs
    split at hbound
    · next hrange =>
      obtain ⟨key, hp, hkey⟩ := Option.bind_eq_some_iff.mp hbound
      simp only [Bool.and_eq_true, decide_eq_true_eq] at hrange
      obtain ⟨htext, hnul⟩ := token_isUtf8 ht
      exact ⟨key, _, q, hp, seenSlot_bound hkey, .range hrange.2 htext hnul hq, rfl⟩
    · cases hbound
  · exact jsonStoreScalar_stores hk ha (fun hn => hn rfl) hs

theorem jsonBoolean_stores {value : Bool} (hk : f.kind = .predicate) (ha : f.Allowed)
    (hs : jsonBoolean f value = .ok f') : Stores f f' := by
  unfold jsonBoolean at hs
  split at hs
  · next hcase =>
    cases hs
    have hkey := (Bool.and_eq_true_iff.mp hcase).2
    cases hp : f.pendingKey with
    | none => simp [hp] at hkey
    | some key =>
      rw [hp, Option.any_some] at hkey
      obtain ⟨hkind, hslot⟩ := allowed_ignoreCase (ha key hp) hkey
      exact ⟨key, .ignoreCase, _, hp, hslot, .ignoreCase _ hkind, rfl⟩
  · refine jsonStoreScalar_stores hk ha (fun _ => ?_) hs
    cases value
    · exact .inr rfl
    · exact .inl rfl

theorem jsonNull_stores (hk : f.kind = .predicate) (ha : f.Allowed) (hs : jsonNull f = .ok f') : Stores f f' := by
  unfold jsonNull at hs
  exact jsonStoreScalar_stores hk ha (fun _ => rfl : _ → LiteralKind.null.Spells txtNull) hs

end Events

end Lql.Selector
