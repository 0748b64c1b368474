import Lql.Scan.Locate
import Lql.Json.Validate
import Lql.Utf8

/-!
# What the text and date terms mean

A term that compares text looks at the whole text of a value, however it is written: the bytes that the
string stands for, or the token of a number or a boolean. A date term looks at the date that a string is. This
holds of every scalar that the scanner hands to its comparisons, and so of the values a path leads to.
-/

namespace Lql.Json

open Lql.Unicode (utf8 lowerChar utf8_cons utf8Encode utf8Encode_char utf8Decode_char utf8DecodeOne simpleLower
  lowerChar_toNat)
open Lql.Scan (isPlain lowerBytes unicodeBytes shortEscapeByte isShortEscape NumberParts.ascii)

/-- The text of a value: the bytes a string stands for, the token of a number or a boolean. -/
def Value.text? : Value → Option Bytes
  | .str s => some s.text
  | .num token => some token
  | .lit .tt => some txtTrue
  | .lit .ff => some txtFalse
  | .lit .nul => none
  | .obj _ => none
  | .arr _ => none

def Value.isScalar : Value → Bool
  | .obj _ => false
  | .arr _ => false
  | _ => true

/-! ## Characters -/

/-- The piece stands for one character. -/
def Piece.Coded (p : Piece) : Prop := ∃ c : Char, p.text = String.utf8EncodeChar c

theorem simpleLower_ascii : ∀ n < 128, (if 0x41 ≤ n ∧ n ≤ 0x5a then n + 32 else n) = simpleLower n := by
  decide +kernel

/-- The matcher lowers a character as the mapping does. -/
theorem lowerBytes_char (c : Char) : lowerBytes (String.utf8EncodeChar c) = String.utf8EncodeChar (lowerChar c) := by
  have hd : utf8DecodeOne (String.utf8EncodeChar c) = some c.toNat := by
    have := utf8Decode_char c []
    rw [List.append_nil] at this
    rw [utf8DecodeOne, this]
  have hlow : (if 0x41 ≤ c.toNat ∧ c.toNat ≤ 0x5a then c.toNat + 32
      else if c.toNat ≥ 0x80 then simpleLower c.toNat else c.toNat) = simpleLower c.toNat := by
    by_cases hlt : c.toNat < 128
    · have := simpleLower_ascii c.toNat hlt
      rw [← this, if_neg (c := c.toNat ≥ 0x80) (by omega)]
    · rw [if_neg (by omega), if_pos (by omega)]
  calc lowerBytes (String.utf8EncodeChar c) = utf8Encode (if 0x41 ≤ c.toNat ∧ c.toNat ≤ 0x5a then c.toNat + 32
        else if c.toNat ≥ 0x80 then simpleLower c.toNat else c.toNat) := by simp only [lowerBytes, hd]
    _ = utf8Encode (simpleLower c.toNat) := congrArg utf8Encode hlow
    _ = utf8Encode (lowerChar c).toNat := congrArg utf8Encode (lowerChar_toNat c).symm
    _ = String.utf8EncodeChar (lowerChar c) := utf8Encode_char (lowerChar c)

theorem coded_ascii {b : UInt8} (h : b < 0x80) : ∃ c : Char, [b] = String.utf8EncodeChar c := by
  have hlt : b.toNat < 128 := UInt8.lt_iff_toNat_lt.mp h
  obtain ⟨c, hc⟩ := Unicode.exists_char (v := b.toNat) (by omega)
  refine ⟨c, ?_⟩
  rw [← utf8Encode_char, hc, utf8Encode, if_neg (by omega), if_pos hlt, UInt8.ofNat_toNat]

theorem coded_unicode {v : Nat} (hv : v < 0xd800 ∨ 0xdfff < v ∧ v < 0x110000) :
    ∃ c : Char, unicodeBytes v = String.utf8EncodeChar c := by
  obtain ⟨c, hc⟩ := Unicode.exists_char hv
  exact ⟨c, by rw [unicodeBytes_eq hv, ← hc, utf8Encode_char]⟩

theorem coded_piece {raw bytes : Bytes} (h : ∃ c : Char, bytes = String.utf8EncodeChar c) :
    (Piece.coded raw bytes).Coded := h

/-- Every piece of a string is one character. -/
theorem Piece.Ok.coded {p : Piece} (h : p.Ok) : p.Coded := by
  cases h with
  | @plain c hc =>
    refine coded_ascii ?_
    simp only [isPlain, Bool.and_eq_true, decide_eq_true_eq] at hc
    exact hc.2
  | utf8 c _ => exact ⟨c, rfl⟩
  | @short c hc =>
    refine coded_ascii ?_
    simp only [isShortEscape, Bool.or_eq_true, decide_eq_true_eq] at hc
    rcases hc with ((((((rfl | rfl) | rfl) | rfl) | rfl) | rfl) | rfl) | rfl <;> decide
  | @unicode digits value hx hv =>
    have := hexNumber_lt hx.2
    rw [hx.1] at this
    exact coded_piece (coded_unicode (by omega))
  | @pair high low hi lo hh hl hhi hlo => exact coded_piece (coded_unicode (.inr (pair_range hhi hlo)))

/-- **A string lowered piece by piece is lowered character by character.** -/
theorem Str.chars : ∀ {s : Str}, (∀ p ∈ s, p.Coded) →
    ∃ cs, s.text = utf8 cs ∧ s.lower = utf8 (cs.map lowerChar)
  | [], _ => ⟨[], rfl, rfl⟩
  | p :: s, h => by
    obtain ⟨c, hc⟩ := h p List.mem_cons_self
    obtain ⟨cs, h1, h2⟩ := Str.chars fun q hq => h q (List.mem_cons_of_mem _ hq)
    refine ⟨c :: cs, ?_, ?_⟩
    · rw [utf8_cons, ← h1, ← hc]
      rfl
    · rw [List.map_cons, utf8_cons, ← h2, ← lowerBytes_char, ← hc]
      rfl

theorem plainStr_coded {data : Bytes} (h : ∀ c ∈ data, c < 0x80) : ∀ p ∈ plainStr data, p.Coded := by
  intro p hp
  obtain ⟨c, hc, rfl⟩ := List.mem_map.mp hp
  exact coded_ascii (h c hc)

/-! ## Values of a document -/

theorem Members.Writes.mem : ∀ {ms : Members} {first : Bool} {text : Bytes}, ms.Writes first text →
    ∀ {key : Str} {v : Value}, (key, v) ∈ ms.list → ∃ t, v.Writes t
  | .nil, _, _, _, _, _, hm => absurd hm List.not_mem_nil
  | .cons _ _ _, _, _, h, _, _, hm => by
    rw [Members.Writes] at h
    obtain ⟨_, _, _, tv, _, _, -, -, -, -, -, hv, -, hrest⟩ := h
    rcases List.mem_cons.mp hm with he | hm
    · obtain ⟨-, rfl⟩ := Prod.mk.inj he
      exact ⟨tv, hv⟩
    · exact hrest.mem hm

theorem Elements.Writes.mem : ∀ {es : Elements} {first : Bool} {text : Bytes}, es.Writes first text →
    ∀ {v : Value}, v ∈ es.list → ∃ t, v.Writes t
  | .nil, _, _, _, _, hm => absurd hm List.not_mem_nil
  | .cons _ _, _, _, h, _, hm => by
    rw [Elements.Writes] at h
    obtain ⟨_, tv, _, _, -, -, hv, -, hrest⟩ := h
    rcases List.mem_cons.mp hm with rfl | hm
    · exact ⟨tv, hv⟩
    · exact hrest.mem hm

/-- What stands at a location of a document is written there. -/
theorem Value.At.writes {v u : Value} {hops : List Hop} (h : v.At hops u) :
    ∀ {text : Bytes}, v.Writes text → ∃ t, u.Writes t := by
  induction h with
  | here v => exact fun hw => ⟨_, hw⟩
  | member hmem _ ih =>
    intro text hw
    rw [Value.Writes] at hw
    obtain ⟨_, _, -, -, hm⟩ := hw
    obtain ⟨t, ht⟩ := hm.mem hmem
    exact ih ht
  | element hget _ ih =>
    intro text hw
    rw [Value.Writes] at hw
    obtain ⟨_, _, -, -, he⟩ := hw
    obtain ⟨t, ht⟩ := he.mem (List.mem_of_getElem? hget)
    exact ih ht

end Lql.Json

namespace Lql.Scan

open Lib Json
open Unicode (utf8 lowerChar)

variable {total : Nat} {ctx : Ctx}

/-! ## The comparisons of text -/

/-- The predicates on text that a selector has. -/
inductive TextTest where
  | eq
  | contains
  | pfx
  | icontains
  | ipfx
  deriving DecidableEq, Repr

/-- The term that `lql_flat_eq_append` or `lql_flat_eq_append_contains` makes of a path and a needle; the
needle of a case-insensitive predicate is lowered, which fails when it is no text. -/
def TextTest.term (test : TextTest) (path : Term) (needle : Bytes) : Option Term :=
  match test with
  | .eq => some { path with kind := .eq, value := needle }
  | .pfx => some { path with kind := .pfx, value := needle }
  | .contains => some
    { path with kind := .contains, value := needle, containsFailure := containsFailure needle }
  | .icontains => (Unicode.utf8Lower needle).map fun lowered =>
    { path with kind := .icontains, value := lowered, containsFailure := containsFailure lowered }
  | .ipfx => (Unicode.utf8Lower needle).map fun lowered => { path with kind := .ipfx, value := lowered }

/-- What a predicate says of a value: it is a string of this text, or its text has the needle in it or in
front, perhaps after both are lowered character by character. -/
def TextTest.Passes (needle : Bytes) (v : Value) : TextTest → Prop
  | .eq => ∃ s, v = .str s ∧ s.text = needle
  | .contains => ∃ text, v.text? = some text ∧ needle <:+: text
  | .pfx => ∃ text, v.text? = some text ∧ needle <+: text
  | .icontains => ∃ cs ns, v.text? = some (utf8 cs) ∧ needle = utf8 ns ∧
    utf8 (ns.map lowerChar) <:+: utf8 (cs.map lowerChar)
  | .ipfx => ∃ cs ns, v.text? = some (utf8 cs) ∧ needle = utf8 ns ∧
    utf8 (ns.map lowerChar) <+: utf8 (cs.map lowerChar)

/-- A value with a text has characters. -/
theorem text_chars {v : Value} {written text : Bytes} (hw : v.Writes written) (ht : v.text? = some text) :
    ∃ ps : Str, ps.text = text ∧ (∀ p ∈ ps, p.Coded) ∧ ∀ (t : Term) (excess : Bool), t.kind.isTextual = true →
      t.holds excess v = t.holdsText text ps.lower := by
  have hfree : ∀ {t : Term}, t.kind.isTextual = true → t.kind ≠ .numberRange ∧ t.kind ≠ .numberEq ∧
      t.kind ≠ .temporalRange ∧ t.kind ≠ .boolEq ∧ t.kind.isString = true := by
    intro t
    generalize t.kind = k
    cases k <;> decide
  cases v with
  | obj _ => cases ht
  | arr _ => cases ht
  | str s =>
    cases ht
    refine ⟨s, rfl, fun p hp => (hw.2 p hp).coded, fun t excess h => ?_⟩
    obtain ⟨-, -, h3, -, h5⟩ := hfree h
    simp [Term.holds, h3, h5]
  | num token =>
    cases ht
    obtain ⟨sign, int, fraction, exponent, rfl, hp⟩ := hw.2
    refine ⟨plainStr _, text_plainStr _, plainStr_coded hp.ascii, fun t excess h => ?_⟩
    obtain ⟨h1, h2, -, -, -⟩ := hfree h
    simp [Term.holds, h1, h2, h]
  | lit l =>
    cases l with
    | nul => cases ht
    | tt =>
      cases ht
      refine ⟨plainStr _, text_plainStr _, plainStr_coded (literal_ascii .tt), fun t excess h => ?_⟩
      obtain ⟨-, -, -, h4, -⟩ := hfree h
      simp [Term.holds, h4, h]
      rfl
    | ff =>
      cases ht
      refine ⟨plainStr _, text_plainStr _, plainStr_coded (literal_ascii .ff), fun t excess h => ?_⟩
      obtain ⟨-, -, -, h4, -⟩ := hfree h
      simp [Term.holds, h4, h]
      rfl

/-- A value without a text passes no comparison of text. -/
theorem no_text {v : Value} (ht : v.text? = none) {t : Term} (h : t.kind.isTextual = true) (excess : Bool) :
    t.holds excess v = false := by
  have hn : t.kind ≠ .nullEq := by
    rintro e
    rw [e] at h
    cases h
  cases v with
  | obj _ => rfl
  | arr _ => rfl
  | str _ => cases ht
  | num _ => cases ht
  | lit l =>
    cases l with
    | nul => simp [Term.holds, hn]
    | tt => cases ht
    | ff => cases ht

/-- The mapping of a text depends on the text only. -/
theorem lowered_unique {a b : List Char} (h : utf8 a = utf8 b) : utf8 (a.map lowerChar) = utf8 (b.map lowerChar) := by
  have := Unicode.utf8Lower_chars a
  rw [h, Unicode.utf8Lower_chars b] at this
  exact (Option.some.inj this).symm

/-- The terms of the text predicates, one by one. -/
theorem TextTest.term_cases {test : TextTest} {path t : Term} {needle : Bytes} (h : test.term path needle = some t) :
    (test = .eq ∧ t.kind = .eq ∧ t.value = needle) ∨
    (test = .contains ∧ t.kind = .contains ∧ t.value = needle ∧ TermTable t) ∨
    (test = .pfx ∧ t.kind = .pfx ∧ t.value = needle) ∨
    (test = .icontains ∧ t.kind = .icontains ∧ TermTable t ∧
      ∃ ns, needle = utf8 ns ∧ t.value = utf8 (ns.map lowerChar)) ∨
    (test = .ipfx ∧ t.kind = .ipfx ∧ ∃ ns, needle = utf8 ns ∧ t.value = utf8 (ns.map lowerChar)) := by
  cases test with
  | eq =>
    cases h
    exact .inl ⟨rfl, rfl, rfl⟩
  | contains =>
    cases h
    exact .inr (.inl ⟨rfl, rfl, rfl, rfl⟩)
  | pfx =>
    cases h
    exact .inr (.inr (.inl ⟨rfl, rfl, rfl⟩))
  | icontains =>
    obtain ⟨low, hlow, rfl⟩ := Option.map_eq_some_iff.mp h
    obtain ⟨ns, h1, h2⟩ := Unicode.utf8Lower_some hlow
    exact .inr (.inr (.inr (.inl ⟨rfl, rfl, rfl, ns, h1, h2⟩)))
  | ipfx =>
    obtain ⟨low, hlow, rfl⟩ := Option.map_eq_some_iff.mp h
    obtain ⟨ns, h1, h2⟩ := Unicode.utf8Lower_some hlow
    exact .inr (.inr (.inr (.inr ⟨rfl, rfl, ns, h1, h2⟩)))

theorem TextTest.literalsOk {test : TextTest} {path t : Term} {needle : Bytes}
    (h : test.term path needle = some t) : t.LiteralsOk := by
  rcases TextTest.term_cases h with ⟨-, hk, -⟩ | ⟨-, hk, -, ht⟩ | ⟨-, hk, -⟩ | ⟨-, hk, ht, -⟩ | ⟨-, hk, -⟩
  · exact ⟨fun hn => by simp [hk] at hn, Term.numberOk_of_kind (by simp [hk])⟩
  · exact ⟨fun _ => ht, Term.numberOk_of_kind (by simp [hk])⟩
  · exact ⟨fun hn => by simp [hk] at hn, Term.numberOk_of_kind (by simp [hk])⟩
  · exact ⟨fun _ => ht, Term.numberOk_of_kind (by simp [hk])⟩
  · exact ⟨fun hn => by simp [hk] at hn, Term.numberOk_of_kind (by simp [hk])⟩

/-- The term has no other way to be satisfied than its comparison. -/
theorem TextTest.satisfies {test : TextTest} {path t : Term} {needle : Bytes} (h : test.term path needle = some t)
    (excess : Bool) (v : Value) : t.satisfies excess v = t.holds excess v := by
  have hp : t.present v = false := by
    rcases TextTest.term_cases h with ⟨-, hk, -⟩ | ⟨-, hk, -⟩ | ⟨-, hk, -⟩ | ⟨-, hk, -⟩ | ⟨-, hk, -⟩ <;>
      simp [Term.present, hk]
  rw [Term.satisfies, hp, Bool.false_or]

/-- **The comparison of a text term is its predicate.** -/
theorem TextTest.holds_iff {test : TextTest} {path t : Term} {needle : Bytes} (h : test.term path needle = some t)
    {v : Value} {written : Bytes} (hw : v.Writes written) (excess : Bool) :
    t.holds excess v = true ↔ test.Passes needle v := by
  have hfold : ∀ {rel : Bytes → Bytes → Prop} {ns : List Char}, t.kind.isTextual = true →
      (∀ text ps, v.text? = some text → Str.text ps = text → (∀ p ∈ ps, p.Coded) →
        t.holds excess v = t.holdsText text ps.lower → (t.holds excess v = true ↔ rel (utf8 (ns.map lowerChar)) ps.lower)) →
      needle = utf8 ns →
      (t.holds excess v = true ↔ ∃ cs ns', v.text? = some (utf8 cs) ∧ needle = utf8 ns' ∧
        rel (utf8 (ns'.map lowerChar)) (utf8 (cs.map lowerChar))) := by
    intro rel ns hk hrel hns
    cases ht : v.text? with
    | none =>
      rw [no_text ht hk]
      simp
    | some text =>
      obtain ⟨ps, h1, h2, h3⟩ := text_chars hw ht
      obtain ⟨cs, h4, h5⟩ := Str.chars h2
      rw [hrel text ps ht h1 h2 (h3 t excess hk), h5]
      constructor
      · intro hr
        exact ⟨cs, ns, by rw [← h1, h4], hns, hr⟩
      · rintro ⟨cs', ns', e1, e2, hr⟩
        rwa [lowered_unique (hns.symm.trans e2), lowered_unique (a := cs) (b := cs') (by
          rw [← h4, h1]
          exact Option.some.inj e1)]
  rcases TextTest.term_cases h with ⟨rfl, hk, hv⟩ | ⟨rfl, hk, hv, -⟩ | ⟨rfl, hk, hv⟩ | ⟨rfl, hk, -, ns, hns, hv⟩ |
    ⟨rfl, hk, ns, hns, hv⟩
  · rw [TextTest.Passes]
    cases v with
    | str s => simp [Term.holds, hk, TermKind.isString, Term.holdsText, hv]
    | obj _ => simp [Term.holds]
    | arr _ => simp [Term.holds]
    | num _ => simp [Term.holds, hk, TermKind.isTextual]
    | lit l => cases l <;> simp [Term.holds, hk, TermKind.isTextual]
  · rw [TextTest.Passes]
    cases ht : v.text? with
    | none => simp [no_text ht (t := t) (by rw [hk]; rfl)]
    | some text =>
      obtain ⟨ps, h1, h2, h3⟩ := text_chars hw ht
      rw [h3 t excess (by rw [hk]; rfl)]
      simp [Term.holdsText, hk, hv]
  · rw [TextTest.Passes]
    cases ht : v.text? with
    | none => simp [no_text ht (t := t) (by rw [hk]; rfl)]
    | some text =>
      obtain ⟨ps, h1, h2, h3⟩ := text_chars hw ht
      rw [h3 t excess (by rw [hk]; rfl)]
      simp [Term.holdsText, hk, hv]
  · refine hfold (by rw [hk]; rfl) (fun text ps _ _ _ he => ?_) hns
    rw [he]
    simp [Term.holdsText, hk, hv]
  · refine hfold (by rw [hk]; rfl) (fun text ps _ _ _ he => ?_) hns
    rw [he]
    simp [Term.holdsText, hk, hv]

/-! ## A scalar that some terms have arrived at -/

/-- The scanner stands before the scalar `v`, and the parser behind it. -/
structure Facing (total : Nat) (ctx : Ctx) (m : Nat) (v : Value) (s : State) (f f' : Flat) : Prop where
  room : CtxRoom ctx
  literals : ∀ i < ctx.n, (ctx.term i).LiteralsOk
  rel : Rel total s.tape f
  idle : Idle s
  parsed : valueP (m + 1) f = some (v, f')
  scalar : v.isScalar = true

/-- The terms of `matched` whose path ends at its segment. -/
def arrivedTerms (ctx : Ctx) (matched : Mask) (segments : Nat → Nat) : Mask :=
  maskOf ctx.n fun i => matched.has i && termValueAt (ctx.term i) (segments i)

theorem arrivedTerms_has (hc : CtxRoom ctx) (matched : Mask) (segments : Nat → Nat) (i : Nat) :
    (arrivedTerms ctx matched segments).has i =
      (decide (i < ctx.n) && (matched.has i && termValueAt (ctx.term i) (segments i))) :=
  maskOf_has_le hc.terms _ i

theorem arrivedTerms_arrived (hc : CtxRoom ctx) (matched : Mask) (segments : Nat → Nat) :
    Arrived ctx matched segments (arrivedTerms ctx matched segments) := by
  intro i hi
  rw [arrivedTerms_has hc, decide_eq_true hi, Bool.true_and]

section Facing

variable {m : Nat} {v : Value} {s : State} {f f' : Flat}

/-- The walk that stands where the scanner stands. -/
def State.walk (s : State) : Walk :=
  { hits := s.hits, cap := s.num.cap, out := s.tape.out, spans := s.captureSpans }

theorem Facing.good (h : Facing total ctx m v s f f') :
    Good total ctx (fun _ => False) s.tape.depth s.walk s f where
  rel := h.rel
  depth := rfl
  idle := h.idle
  slots := fun _ _ hf => absurd hf id
  hits := rfl
  cap := rfl
  out := rfl
  spans := rfl

theorem Facing.hit (h : Facing total ctx m v s f f') (found : Mask) :
    Facing total ctx m v { s with hits := s.hits ||| found } f f' :=
  ⟨h.room, h.literals, h.rel, ⟨h.idle.active, h.idle.key, h.idle.icontains, h.idle.dates, h.idle.number⟩,
    h.parsed, h.scalar⟩

theorem Facing.head (h : Facing total ctx m v s f f') :
    f.rest.head? ≠ some chLBrace ∧ f.rest.head? ≠ some chLBracket := by
  have hp := h.parsed
  rw [valueP_eq] at hp
  constructor
  · intro hh
    rw [hh] at hp
    obtain ⟨ms, rfl⟩ := objectP_some hp
    cases h.scalar
  · intro hh
    rw [hh] at hp
    obtain ⟨es, rfl⟩ := arrayP_some hp
    cases h.scalar

theorem Facing.writes (h : Facing total ctx m v s f f') : ∃ written, v.Writes written := by
  obtain ⟨written, hw, -⟩ := valueP_sound _ _ _ _ h.parsed
  exact ⟨written, hw⟩

theorem walkValue_scalar {v : Value} (h : v.isScalar = true) (d : Nat) (A R C : Mask) (w : Walk) :
    walkValue ctx d A R C v w = some (w.put ctx v.compact) := by
  cases v with
  | obj _ => cases h
  | arr _ => cases h
  | str _ => rfl
  | num _ => rfl
  | lit _ => rfl

/-- Behind the scalar, the scanner is at rest and has the hits of the walk. -/
theorem Facing.ends {here : Mask} {x : ScanM Unit} (h : Facing total ctx m v s f f')
    (hx : Walks total ctx (fun _ => False) s.tape.depth 0 0 0 (Walk.hold ctx here · s.walk) x
      (valueP (m + 1)) s f) :
    ∃ s', x s = .ok () s' ∧ Rel total s'.tape f' ∧ Idle s' ∧
      s'.hits = s.hits ||| maskOf ctx.n fun i =>
        here.has i && (ctx.term i).holds (overflows ctx here s.num.cap v).1 v := by
  rcases SimUpTo.ends hx h.parsed with ⟨_, s', hs, w', hw, hr⟩ | ⟨hn, -⟩
  · rw [walkValue_scalar h.scalar] at hw
    refine ⟨s', hs, hr.good.rel, hr.good.idle, ?_⟩
    rw [hr.good.hits, ← Option.some.inj hw]
    rfl
  · rw [walkValue_scalar h.scalar] at hn
    cases hn

theorem Facing.value (h : Facing total ctx m v s f f') {w : Walk} {s1 : State}
    (hg : Good total ctx (fun _ => False) s.tape.depth w s1 f) :
    Walks total ctx (fun _ => False) s.tape.depth 0 0 0 (fun _ => w) (value ctx (m + 1)) (valueP (m + 1)) s1 f :=
  value_scalar_walks h.room hg h.head.1 h.head.2

/-- The scanner compared the scalar `v` with the terms of `matched` that have come to their end, and
stands behind it. -/
def Compares (total : Nat) (ctx : Ctx) (matched : Mask) (segments : Nat → Nat) (v : Value) (x : ScanM Unit)
    (s : State) (f' : Flat) : Prop :=
  ∃ s', x s = .ok () s' ∧ Rel total s'.tape f' ∧ Idle s' ∧
    ∃ excess, ∀ i < ctx.n, (ctx.term i).kind ≠ .valuelessPresent → (ctx.term i).kind ≠ .exist →
      (s'.hits.has i = true ↔ s.hits.has i = true ∨
        (matched.has i = true ∧ termValueAt (ctx.term i) (segments i) = true) ∧ (ctx.term i).holds excess v = true)

theorem hits_or (hc : CtxRoom ctx) {matched found : Mask} {segments : Nat → Nat} {excess : Bool} {i : Nat}
    (hi : i < ctx.n) :
    ((found ||| maskOf ctx.n fun i =>
        (arrivedTerms ctx matched segments).has i && (ctx.term i).holds excess v).has i = true ↔
      found.has i = true ∨ (matched.has i = true ∧ termValueAt (ctx.term i) (segments i) = true) ∧
        (ctx.term i).holds excess v = true) := by
  rw [Mask.has_or, maskOf_has_le hc.terms, arrivedTerms_has hc, decide_eq_true hi]
  simp only [Bool.true_and, Bool.or_eq_true, Bool.and_eq_true]

theorem Facing.member (h : Facing total ctx m v s f f') (matched : Mask) :
    Compares total ctx matched s.keyTermSegment v
      (memberValue ctx (Scan.value ctx (m + 1)) matched f.rest.head?) s f' := by
  have hw := memberValue_walks h.room h.good (arrivedTerms_arrived h.room matched s.keyTermSegment)
    (fun i hi _ => h.literals i hi) (h.value h.good)
  obtain ⟨s', hs, hr, hidle, hh⟩ := h.ends hw
  refine ⟨s', hs, hr, hidle, (overflows ctx (arrivedTerms ctx matched s.keyTermSegment) s.num.cap v).1, fun i hi _ _ => ?_⟩
  rw [hh]
  exact hits_or h.room hi

theorem Facing.element (h : Facing total ctx m v s f f') (matched : Mask) :
    Compares total ctx matched s.m.termSegment v
      (matchedScalarValue ctx (Scan.value ctx (m + 1)) matched f.rest.head?) s f' := by
  have h1 := h.hit (scalarPresent ctx matched f.rest.head? s)
  have hw := scalarValue_walks h1.room h1.good (arrivedTerms_arrived h.room matched s.m.termSegment)
    (fun i hi _ => h.literals i hi) (h1.value h1.good)
  obtain ⟨s', hs, hr, hidle, hh⟩ := h1.ends hw
  refine ⟨s', (matchedScalarValue_eq _ _ _ _).trans hs, hr, hidle,
    (overflows ctx (arrivedTerms ctx matched s.m.termSegment) s.num.cap v).1, fun i hi k1 k2 => ?_⟩
  have hnone : (scalarPresent ctx matched f.rest.head? s).has i = false := by
    rw [scalarPresent, Mask.has_or, valuelessPresent_has h.room (arrivedTerms_arrived h.room matched s.keyTermSegment)]
    by_cases c0 : f.rest.head? = some chN
    · simp [c0, k1]
    · rw [if_neg c0, valueTerms_has h.room (arrivedTerms_arrived h.room matched s.m.termSegment)]
      simp [k1, k2]
  rw [hh, hits_or h.room hi]
  simp only [Mask.has_or, hnone, Bool.or_false]

end Facing

/-! ## Records -/

/-- A term that only compares is a hit of a record exactly when one of the locations on its path holds a value
that passes. -/
theorem compared_hit {t : Term} {capture stop : Bool} {mask : Mask} (ht : t.Regular) (hl : t.LiteralsOk)
    (k1 : t.kind ≠ .valuelessPresent) (k2 : t.kind ≠ .exist) {chunks : List Bytes} (hc : ReaderOk chunks)
    {v : Value} (hv : v.Writes chunks.flatten) (hobj : v.isObject = true) :
    (v.scans 0 = true → ∃ r, scanAll (soloScan t capture stop mask) chunks = ([r], .ok)) ∧
      ∀ r ∈ (scanAll (soloScan t capture stop mask) chunks).1,
        (r.hits.has 0 = true ↔ ∃ hops u, v.At hops u ∧ Matches t.segments hops ∧ t.holds (u.long t.limit) u = true) := by
  have hsat : ∀ (excess : Bool) (u : Value), t.satisfies excess u = t.holds excess u := by
    intro excess u
    simp [Term.satisfies, Term.present, k1, k2]
  have hroot : t.rootPresent = false := by simp [Term.rootPresent, k1, k2]
  have hobject : ∀ excess, t.holds excess v = false := by
    intro excess
    cases v with
    | obj _ => rfl
    | arr _ => cases hobj
    | str _ => cases hobj
    | num _ => cases hobj
    | lit _ => cases hobj
  obtain ⟨hall, hhit⟩ := @soloScan_hit t capture stop mask ht hl chunks hc v hv hobj
  refine ⟨hall, fun r hr => ?_⟩
  rw [hhit r hr, hroot, Bool.false_or, ht.finds_iff v 0 true false (by simp [hobj]) (fun _ _ hf => by cases hf),
    reaches_root ht]
  simp only [hsat]
  constructor
  · rintro ⟨hops, u, -, hat, hm, hs⟩
    exact ⟨hops, u, hat, hm, hs⟩
  · rintro ⟨hops, u, hat, hm, hs⟩
    refine ⟨hops, u, ?_, hat, hm, hs⟩
    -- the root is an object, which nothing compares
    rintro rfl
    cases hat
    rw [hobject] at hs
    cases hs

theorem TextTest.kind_ne {test : TextTest} {path t : Term} {needle : Bytes} (h : test.term path needle = some t) :
    t.kind ≠ .valuelessPresent ∧ t.kind ≠ .exist := by
  rcases TextTest.term_cases h with ⟨-, hk, -⟩ | ⟨-, hk, -⟩ | ⟨-, hk, -⟩ | ⟨-, hk, -⟩ | ⟨-, hk, -⟩ <;>
    rw [hk] <;> decide

/-- **A text predicate looks at the whole text of a value.** Whatever scalar the scanner stands before, and
however the reader has cut it, a text term that has arrived there becomes a hit exactly when its predicate
holds of the value; and so a record is a hit exactly when a location on the term's path holds such a value. -/
theorem text_hit_iff (test : TextTest) (needle : Bytes) (path t : Term) (ht : test.term path needle = some t) :
    (∀ (total : Nat) (ctx : Ctx) (m : Nat) (v : Value) (s : State) (f f' : Flat) (matched : Mask) (i : Nat),
      Facing total ctx m v s f f' → i < ctx.n → ctx.term i = t →
        (∃ s', memberValue ctx (value ctx (m + 1)) matched f.rest.head? s = .ok () s' ∧ Rel total s'.tape f' ∧
          (s'.hits.has i = true ↔ s.hits.has i = true ∨
            (matched.has i = true ∧ termValueAt t (s.keyTermSegment i) = true) ∧ test.Passes needle v)) ∧
        (∃ s', matchedScalarValue ctx (value ctx (m + 1)) matched f.rest.head? s = .ok () s' ∧
          Rel total s'.tape f' ∧
          (s'.hits.has i = true ↔ s.hits.has i = true ∨
            (matched.has i = true ∧ termValueAt t (s.m.termSegment i) = true) ∧ test.Passes needle v))) ∧
    (t.Regular → ∀ (capture stop : Bool) (mask : Mask) (chunks : List Bytes) (v : Value), ReaderOk chunks →
      v.Writes chunks.flatten → v.isObject = true →
        (v.scans 0 = true → ∃ r, scanAll (soloScan t capture stop mask) chunks = ([r], .ok)) ∧
        ∀ r ∈ (scanAll (soloScan t capture stop mask) chunks).1,
          (r.hits.has 0 = true ↔
            ∃ hops u, v.At hops u ∧ Matches t.segments hops ∧ test.Passes needle u)) := by
  obtain ⟨k1, k2⟩ := TextTest.kind_ne ht
  constructor
  · intro total ctx m v s f f' matched i hf hi he
    obtain ⟨written, hw⟩ := hf.writes
    have hmeans : ∀ {segments : Nat → Nat} {x : ScanM Unit}, Compares total ctx matched segments v x s f' →
        ∃ s', x s = .ok () s' ∧ Rel total s'.tape f' ∧ (s'.hits.has i = true ↔ s.hits.has i = true ∨
          (matched.has i = true ∧ termValueAt t (segments i) = true) ∧ test.Passes needle v) := by
      rintro segments x ⟨s', hs, hr, -, excess, hits⟩
      refine ⟨s', hs, hr, ?_⟩
      rw [hits i hi (by rwa [he]) (by rwa [he]), he, TextTest.holds_iff ht hw]
    exact ⟨hmeans (hf.member matched), hmeans (hf.element matched)⟩
  · intro hreg capture stop mask chunks v hc hv hobj
    obtain ⟨hall, hhit⟩ := @compared_hit t capture stop mask hreg (TextTest.literalsOk ht) k1 k2 chunks hc v hv hobj
    refine ⟨hall, fun r hr => ?_⟩
    rw [hhit r hr]
    refine exists_congr fun hops => exists_congr fun u => and_congr_right fun hat => and_congr_right fun _ => ?_
    obtain ⟨written, hw⟩ := hat.writes hv
    exact TextTest.holds_iff ht hw _

/-- A text term follows the path it was given. -/
theorem TextTest.shallow {test : TextTest} {path t : Term} {needle : Bytes} (h : test.term path needle = some t)
    (hp : path.Shallow) : t.Shallow ∧ t.segments = path.segments := by
  obtain ⟨hp, hd⟩ := hp
  cases test with
  | eq | contains | pfx =>
    cases h
    exact ⟨⟨⟨hp.count, hp.pos, hp.le, hp.field, hp.arrays, hp.objectWildcards, hp.arrayWildcards,
      hp.anyWildcards, hp.recursives, hp.found, hp.cache, hp.fieldPlain, hp.foundPlain⟩, hd⟩, rfl⟩
  | icontains | ipfx =>
    obtain ⟨low, -, rfl⟩ := Option.map_eq_some_iff.mp h
    exact ⟨⟨⟨hp.count, hp.pos, hp.le, hp.field, hp.arrays, hp.objectWildcards, hp.arrayWildcards,
      hp.anyWildcards, hp.recursives, hp.found, hp.cache, hp.fieldPlain, hp.foundPlain⟩, hd⟩, rfl⟩

/-- The document `{"a":"b"}`. -/
def oneText : Value := .obj (.cons (plainStr [0x61]) (.str (plainStr [0x62])) .nil)

/-- The scanner in front of `"b"`. -/
def facingText : State := { tape := { input := ⟨[chQuote, 0x62, chQuote], [], 3, false⟩ } }

/-- `eq` of `/a` and `b`, in front of `"b"` and over `{"a":"b"}`, whose text lies in two chunks. -/
theorem text_hit_iff_key :
    ∃ t, TextTest.eq.term ((presenceScan false).term 0) [0x62] = some t ∧
      (∃ s', memberValue (soloScan t false false 0) (value (soloScan t false false 0) 1) 1 (some chQuote) facingText =
        .ok () s' ∧ s'.hits.has 0 = true) ∧
      ∃ r, scanAll (soloScan t false false 0)
        [[chLBrace, chQuote, 0x61, chQuote, chColon, chQuote], [0x62, chQuote, chRBrace]] = ([r], .ok) ∧
          r.hits.has 0 = true := by
  obtain ⟨t, ht⟩ : ∃ t, TextTest.eq.term ((presenceScan false).term 0) [0x62] = some t := ⟨_, rfl⟩
  obtain ⟨hshallow, hsegs⟩ := TextTest.shallow ht (presenceScan_term false).1
  obtain ⟨hvalue, hrecord⟩ := text_hit_iff .eq [0x62] _ t ht
  refine ⟨t, ht, ?_, ?_⟩
  · have hface : Facing 3 (soloScan t false false 0) 0 (.str (plainStr [0x62])) facingText
        { rest := [chQuote, 0x62, chQuote] } { rest := [] } := by
      refine ⟨⟨Nat.le_of_ble_eq_true rfl, Nat.le_of_ble_eq_true rfl⟩, fun i hi => ?_, ?_, ⟨rfl, rfl, rfl, rfl, rfl⟩,
        by decide +kernel, rfl⟩
      · obtain rfl : i = 0 := Nat.lt_one_iff.mp hi
        exact TextTest.literalsOk ht
      · exact ⟨⟨fun c hc => absurd hc List.not_mem_nil, nofun, rfl, Nat.le_refl 3⟩,
          Nat.zero_le _, rfl, nofun⟩
    obtain ⟨⟨s', hs, -, hits⟩, -⟩ := hvalue 3 _ 0 _ _ _ _ 1 0 hface Nat.one_pos rfl
    refine ⟨s', hs, hits.mpr (.inr ⟨⟨by decide, ?_⟩, _, rfl, rfl⟩)⟩
    cases ht
    decide +kernel
  · have hw : oneText.Writes (List.flatten
        [[chLBrace, chQuote, 0x61, chQuote, chColon, chQuote], [0x62, chQuote, chRBrace]]) :=
      writes_of_parse (n := 20) (by decide +kernel)
    obtain ⟨hall, hhit⟩ := hrecord (.inl hshallow) false false 0 _ _ (by unfold ReaderOk; decide) hw rfl
    obtain ⟨r, hr⟩ := hall (by decide)
    refine ⟨r, hr, (hhit r (by rw [hr]; exact List.mem_singleton_self r)).mpr ?_⟩
    have hat : oneText.At [.key (plainStr [0x61]).text] (.str (plainStr [0x62])) :=
      .member List.mem_cons_self (.here _)
    refine ⟨_, _, hat, ?_, _, rfl, rfl⟩
    rw [hsegs, (presenceScan_term false).2.2.2]
    exact .seg (by decide) (.inr (.inr ⟨by decide, by decide⟩)) .nil

end Lql.Scan
