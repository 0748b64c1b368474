import Lql.Json.Grammar

/-!
# A document as a run of bytes

What can be said of a text without parsing it: whether a byte stands inside a string, the text
without the spaces outside strings, and how many braces and brackets are open at once. For a
text that a document is written as, the first is the document without its spaces and the second
its nesting.
-/

namespace Lql.Json

open Lql.Scan (isPlain isSpace hexValue leadInfo)

/-- Outside a string, inside one, or behind a backslash inside one. -/
inductive Mode where
  | outside
  | inside
  | escaped
  deriving DecidableEq, Repr

def Mode.next : Mode → UInt8 → Mode
  | .outside, c => if c = chQuote then .inside else .outside
  | .inside, c => if c = chQuote then .outside else if c = chBackslash then .escaped else .inside
  | .escaped, _ => .inside

/-- The bytes without the spaces that stand outside a string. -/
def squeeze : Mode → Bytes → Bytes
  | _, [] => []
  | m, c :: rest =>
    if m = .outside ∧ isSpace c = true then squeeze m rest else c :: squeeze (m.next c) rest

def isOpen (c : UInt8) : Bool := c = chLBrace || c = chLBracket

def isClose (c : UInt8) : Bool := c = chRBrace || c = chRBracket

/-- With `d` braces and brackets open already, no more than `limit` are ever open at once. -/
def nests (limit : Nat) : Mode → Nat → Bytes → Bool
  | _, _, [] => true
  | m, d, c :: rest =>
    if m = .outside ∧ isOpen c = true then d < limit && nests limit .outside (d + 1) rest
    else if m = .outside ∧ isClose c = true then nests limit .outside (d - 1) rest
    else nests limit (m.next c) d rest

theorem squeeze_sublist : ∀ (m : Mode) (text : Bytes), (squeeze m text).Sublist text
  | _, [] => .slnil
  | m, c :: rest => by
    rw [squeeze]
    split
    · exact (squeeze_sublist m rest).cons c
    · exact (squeeze_sublist _ rest).cons_cons c

/-! ## Strings -/

/-- Bytes that a string keeps to itself: no quote ends it and no escape is left open. -/
structure Inert (raw : Bytes) : Prop where
  squeeze : ∀ rest, squeeze .inside (raw ++ rest) = raw ++ squeeze .inside rest
  nests : ∀ limit d rest, nests limit .inside d (raw ++ rest) = nests limit .inside d rest

theorem Inert.nil : Inert [] := ⟨fun _ => rfl, fun _ _ _ => rfl⟩

theorem Inert.append {a b : Bytes} (ha : Inert a) (hb : Inert b) : Inert (a ++ b) := by
  constructor
  · intro rest
    rw [List.append_assoc, ha.squeeze, hb.squeeze, List.append_assoc]
  · intro limit d rest
    rw [List.append_assoc, ha.nests, hb.nests]

theorem Inert.byte {c : UInt8} (hq : c ≠ chQuote) (hb : c ≠ chBackslash) : Inert [c] := by
  have hnext : Mode.inside.next c = .inside := by
    rw [Mode.next, if_neg hq, if_neg hb]
  constructor
  · intro rest
    rw [List.singleton_append, Json.squeeze, if_neg (by simp), hnext]
    rfl
  · intro limit d rest
    rw [List.singleton_append, Json.nests, if_neg (by simp), if_neg (by simp), hnext]

theorem Inert.escape (c : UInt8) : Inert [chBackslash, c] := by
  constructor
  · intro rest
    rfl
  · intro limit d rest
    rfl

theorem inert_of_forall {raw : Bytes} (h : ∀ c ∈ raw, c ≠ chQuote ∧ c ≠ chBackslash) :
    Inert raw := by
  induction raw with
  | nil => exact .nil
  | cons c raw ih =>
    obtain ⟨hc, hraw⟩ := List.forall_mem_cons.mp h
    exact (Inert.byte hc.1 hc.2).append (ih hraw)

theorem hexNumber_digits : ∀ (digits : Bytes) (value v : Nat), hexNumber value digits = some v →
    ∀ c ∈ digits, ∃ d, hexValue c = some d
  | [], _, _, _ => by simp
  | c :: digits, value, v, h => by
    rw [hexNumber] at h
    cases hc : hexValue c with
    | none => rw [hc] at h; cases h
    | some d =>
      rw [hc] at h
      exact List.forall_mem_cons.mpr ⟨⟨d, hc⟩, hexNumber_digits digits _ _ h⟩

/-- A hex digit is neither a quote nor a backslash. -/
theorem hex_plain {digits : Bytes} {value : Nat} (h : Hex4 digits value) :
    ∀ c ∈ digits, c ≠ chQuote ∧ c ≠ chBackslash := by
  intro c hc
  obtain ⟨d, hd⟩ := hexNumber_digits _ _ _ h.2 c hc
  constructor
  · rintro rfl
    exact absurd (show none = some d from hd) (by simp)
  · rintro rfl
    exact absurd (show none = some d from hd) (by simp)

theorem hex_inert {digits : Bytes} {value : Nat} (h : Hex4 digits value) : Inert digits :=
  inert_of_forall (hex_plain h)

theorem continues_high : ∀ {k : Nat} {lo hi : UInt8} {cs : Bytes}, 0x80 ≤ lo → Continues k lo hi cs →
    ∀ c ∈ cs, 0x80 ≤ c
  | 0, _, _, _, _, h => by rw [h]; simp
  | k + 1, lo, hi, cs, hlo, h => by
    obtain ⟨c, rest, rfl, h1, -, hrest⟩ := h
    exact List.forall_mem_cons.mpr ⟨UInt8.le_trans hlo h1, continues_high (UInt8.le_refl _) hrest⟩

theorem leadInfo_high {c lo hi : UInt8} {k : Nat} (h : leadInfo c = some (k, lo, hi)) :
    0x80 ≤ lo := by
  unfold leadInfo at h
  split at h
  · cases h; decide
  split at h
  · cases h; split <;> decide
  split at h
  · cases h; split <;> decide
  · cases h

/-- No byte of a code point beyond ASCII is ASCII. -/
theorem char_high {ch : Char} (h : 0x80 ≤ ch.val.toNat) :
    ∀ b ∈ String.utf8EncodeChar ch, 0x80 ≤ b := by
  obtain ⟨c, cs, htext, ⟨k, lo, hi, hlead, hcs⟩, hc⟩ := lead_of_utf8 ch h
  rw [htext]
  exact List.forall_mem_cons.mpr ⟨hc, continues_high (leadInfo_high hlead) hcs⟩

/-- Nor is a byte of a code point beyond ASCII. -/
theorem char_plain {ch : Char} (h : 0x80 ≤ ch.val.toNat) :
    ∀ b ∈ String.utf8EncodeChar ch, b ≠ chQuote ∧ b ≠ chBackslash := by
  intro b hb
  have hhigh := char_high h b hb
  constructor
  · rintro rfl
    exact absurd hhigh (by decide)
  · rintro rfl
    exact absurd hhigh (by decide)

theorem piece_inert {p : Piece} (h : p.Ok) : Inert p.raw := by
  cases h with
  | @plain c h =>
    simp only [isPlain, Bool.and_eq_true, decide_eq_true_eq] at h
    exact .byte h.1.1.1 h.1.1.2
  | utf8 ch h => exact inert_of_forall (char_plain h)
  | short h => exact .escape _
  | unicode h _ => exact (Inert.escape chU).append (hex_inert h)
  | pair hh hl _ _ =>
    exact (((Inert.escape chU).append (hex_inert hh)).append (Inert.escape chU)).append (hex_inert hl)

theorem str_inert {s : Str} (h : s.Ok) : Inert s.raw := by
  induction s with
  | nil => exact .nil
  | cons p s ih =>
    obtain ⟨hp, hs⟩ := List.forall_mem_cons.mp h
    exact (piece_inert hp).append (ih hs)

/-! ## Outside strings -/

theorem squeeze_spaces {w : Bytes} (hw : Spaces w) (rest : Bytes) :
    squeeze .outside (w ++ rest) = squeeze .outside rest := by
  induction w with
  | nil => rfl
  | cons c w ih =>
    obtain ⟨hc, hw⟩ := List.forall_mem_cons.mp hw
    rw [List.cons_append, squeeze, if_pos ⟨rfl, hc⟩]
    exact ih hw

theorem squeeze_quoted {s : Str} (h : s.Ok) (rest : Bytes) :
    squeeze .outside (s.quoted ++ rest) = s.quoted ++ squeeze .outside rest := by
  have h1 : squeeze .outside (s.quoted ++ rest) =
      chQuote :: squeeze .inside (s.raw ++ chQuote :: rest) := by
    rw [Str.quoted, List.append_assoc, List.append_assoc]
    rfl
  rw [h1, (str_inert h).squeeze]
  show chQuote :: (s.raw ++ chQuote :: squeeze .outside rest) = _
  simp [Str.quoted]

/-- A byte of a token that is no string: the lexer passes it by. -/
def isDull (c : UInt8) : Bool := c ≠ chQuote && !isSpace c && !isOpen c && !isClose c

theorem dull_next {c : UInt8} (h : isDull c = true) : Mode.outside.next c = .outside := by
  simp only [isDull, Bool.and_eq_true, decide_eq_true_eq] at h
  rw [Mode.next, if_neg h.1.1.1]

theorem squeeze_dull {raw : Bytes} (h : ∀ c ∈ raw, isDull c = true) (rest : Bytes) :
    squeeze .outside (raw ++ rest) = raw ++ squeeze .outside rest := by
  induction raw with
  | nil => rfl
  | cons c raw ih =>
    obtain ⟨hc, hraw⟩ := List.forall_mem_cons.mp h
    have hs : ¬ isSpace c = true := by
      simp only [isDull, Bool.and_eq_true, Bool.not_eq_true'] at hc
      rw [hc.1.1.2]
      exact Bool.false_ne_true
    rw [List.cons_append, squeeze, if_neg (fun h => hs h.2), dull_next hc, ih hraw]
    rfl

theorem nests_dull (limit d : Nat) {raw : Bytes} (h : ∀ c ∈ raw, isDull c = true) (rest : Bytes) :
    nests limit .outside d (raw ++ rest) = nests limit .outside d rest := by
  induction raw with
  | nil => rfl
  | cons c raw ih =>
    obtain ⟨hc, hraw⟩ := List.forall_mem_cons.mp h
    have hb : isOpen c = false ∧ isClose c = false := by
      simp only [isDull, Bool.and_eq_true, Bool.not_eq_true'] at hc
      exact ⟨hc.1.2, hc.2⟩
    rw [List.cons_append, nests, if_neg (by simp [hb.1]), if_neg (by simp [hb.2]), dull_next hc, ih hraw]

theorem nests_spaces (limit d : Nat) {w : Bytes} (hw : Spaces w) (rest : Bytes) :
    nests limit .outside d (w ++ rest) = nests limit .outside d rest := by
  induction w with
  | nil => rfl
  | cons c w ih =>
    obtain ⟨hc, hw⟩ := List.forall_mem_cons.mp hw
    simp only [isSpace, Bool.or_eq_true, decide_eq_true_eq] at hc
    rw [List.cons_append, ← ih hw]
    rcases hc with ((rfl | rfl) | rfl) | rfl <;> rfl

theorem nests_quoted (limit d : Nat) {s : Str} (h : s.Ok) (rest : Bytes) :
    nests limit .outside d (s.quoted ++ rest) = nests limit .outside d rest := by
  have h1 : nests limit .outside d (s.quoted ++ rest) =
      nests limit .inside d (s.raw ++ chQuote :: rest) := by
    rw [Str.quoted, List.append_assoc, List.append_assoc]
    rfl
  rw [h1, (str_inert h).nests]
  rfl

/-- What holds of the ten digits holds of every digit. -/
theorem digit_forall {p : UInt8 → Prop} (h : ∀ k < 10, p (UInt8.ofNat (48 + k))) {c : UInt8}
    (hc : isDigit c = true) : p c := by
  simp only [isDigit, Bool.and_eq_true, decide_eq_true_eq, UInt8.le_iff_toNat_le] at hc
  have hz : chZero.toNat = 48 := rfl
  have hn : chNine.toNat = 57 := rfl
  have heq : c = UInt8.ofNat (48 + (c.toNat - 48)) := by
    rw [Nat.add_sub_cancel' (by omega)]
    exact (UInt8.ofNat_toNat).symm
  rw [heq]
  exact h _ (by omega)

/-- What holds of the digits and of the five other bytes of numbers holds of every byte of a number. -/
theorem NumberToken.forall {p : UInt8 → Prop} (hdigits : ∀ k < 10, p (UInt8.ofNat (48 + k)))
    (hothers : ∀ c ∈ [chMinus, chPlus, chDot, chLowerE, chUpperE], p c) {token : Bytes} (h : NumberToken token) :
    ∀ c ∈ token, p c := by
  obtain ⟨sign, int, fraction, exponent, rfl, hp⟩ := h
  have hdigit : ∀ {c : UInt8}, isDigit c = true → p c := digit_forall hdigits
  intro c hc
  simp only [List.mem_append] at hc
  rcases hc with ((hc | hc) | hc) | hc
  · rcases hp.sign with rfl | rfl
    · cases hc
    · rw [List.mem_singleton.mp hc]
      exact hothers _ (by simp)
  · rcases hp.int with rfl | ⟨d, ds, rfl, hd, hds⟩
    · rw [List.mem_singleton.mp hc]
      exact hdigits 0 (by decide)
    · rcases List.mem_cons.mp hc with rfl | hc
      · exact hdigit (isDigit_of_isDigit19 hd)
      · exact hdigit (hds c hc)
  · rcases hp.fraction with rfl | ⟨ds, rfl, -, hds⟩
    · cases hc
    · rcases List.mem_cons.mp hc with rfl | hc
      · exact hothers _ (by simp)
      · exact hdigit (hds c hc)
  · rcases hp.exponent with rfl | ⟨e, sg, ds, rfl, he, hsg, -, hds⟩
    · cases hc
    · rcases List.mem_cons.mp hc with rfl | hc
      · rcases he with rfl | rfl <;> exact hothers _ (by simp)
      · rcases List.mem_append.mp hc with hc | hc
        · rcases hsg with rfl | rfl | rfl
          · cases hc
          · rw [List.mem_singleton.mp hc]
            exact hothers _ (by simp)
          · rw [List.mem_singleton.mp hc]
            exact hothers _ (by simp)
        · exact hdigit (hds c hc)

theorem number_dull {token : Bytes} (h : NumberToken token) : ∀ c ∈ token, isDull c = true :=
  h.forall (by decide) (List.all_eq_true.mp rfl)

theorem literal_dull (l : Literal) : ∀ c ∈ l.text, isDull c = true := by
  have hall : l.text.all isDull = true := by cases l <;> rfl
  exact fun c hc => List.all_eq_true.mp hall c hc

theorem lead_squeeze {first : Bool} {lead : Bytes} (h : Lead first lead) (rest : Bytes) :
    squeeze .outside (lead ++ rest) = (if first then [] else [chComma]) ++ squeeze .outside rest := by
  cases first with
  | true =>
    rw [show lead = [] from h]
    rfl
  | false =>
    obtain ⟨w, hw, rfl⟩ := h
    show chComma :: squeeze .outside (w ++ rest) = _
    rw [squeeze_spaces hw]
    rfl

theorem lead_nests {first : Bool} {lead : Bytes} (h : Lead first lead) (limit d : Nat) (rest : Bytes) :
    nests limit .outside d (lead ++ rest) = nests limit .outside d rest := by
  cases first with
  | true =>
    rw [show lead = [] from h]
    rfl
  | false =>
    obtain ⟨w, hw, rfl⟩ := h
    show nests limit .outside d (w ++ rest) = _
    exact nests_spaces limit d hw rest

/-! ## Documents -/

/-- What the members are without their spaces, behind the opening brace or behind a value. -/
def Members.squeezed (ms : Members) : Bool → Bytes
  | true => ms.compact
  | false => ms.tail

def Elements.squeezed (es : Elements) : Bool → Bytes
  | true => es.compact
  | false => es.tail

theorem Members.squeezed_cons (key : Str) (v : Value) (rest : Members) (first : Bool) :
    (Members.cons key v rest).squeezed first =
      (if first then [] else [chComma]) ++ (key.quoted ++ (chColon :: (v.compact ++ rest.tail))) := by
  cases first with
  | true =>
    rw [Members.squeezed, Members.compact_cons]
    simp
  | false =>
    rw [Members.squeezed, Members.tail, Members.compact_cons]
    simp

theorem Elements.squeezed_cons (v : Value) (rest : Elements) (first : Bool) :
    (Elements.cons v rest).squeezed first =
      (if first then [] else [chComma]) ++ (v.compact ++ rest.tail) := by
  cases first with
  | true =>
    rw [Elements.squeezed, Elements.compact_cons]
    simp
  | false =>
    rw [Elements.squeezed, Elements.tail, Elements.compact_cons]
    simp

mutual

/-- **A document without its spaces is its text without the spaces outside strings.** -/
theorem Value.squeeze_text : ∀ (v : Value) (text rest : Bytes), v.Writes text →
    squeeze .outside (text ++ rest) = v.compact ++ squeeze .outside rest
  | .obj members, _, rest, h => by
    obtain ⟨w, t, rfl, hw, ht⟩ := h
    show chLBrace :: squeeze .outside ((w ++ t) ++ rest) = _
    rw [List.append_assoc, squeeze_spaces hw, members.squeeze_text true t rest ht]
    rfl
  | .arr elements, _, rest, h => by
    obtain ⟨w, t, rfl, hw, ht⟩ := h
    show chLBracket :: squeeze .outside ((w ++ t) ++ rest) = _
    rw [List.append_assoc, squeeze_spaces hw, elements.squeeze_text true t rest ht]
    rfl
  | .str s, _, rest, h => by
    obtain ⟨rfl, hs⟩ := h
    exact squeeze_quoted hs rest
  | .num token, _, rest, h => by
    obtain ⟨rfl, ht⟩ := h
    exact squeeze_dull (number_dull ht) rest
  | .lit l, _, rest, h => by
    rw [show _ = l.text from h]
    exact squeeze_dull (literal_dull l) rest

theorem Members.squeeze_text : ∀ (ms : Members) (first : Bool) (text rest : Bytes),
    ms.Writes first text →
    squeeze .outside (text ++ rest) = ms.squeezed first ++ squeeze .outside rest
  | .nil, first, _, rest, h => by
    rw [show _ = [chRBrace] from h]
    cases first <;> rfl
  | .cons key v ms, first, _, rest, h => by
    obtain ⟨lead, w1, w2, tv, w3, t, rfl, hlead, hkey, hw1, hw2, hv, hw3, ht⟩ := h
    have hms := ms.squeeze_text false t rest ht
    simp only [List.append_assoc, List.cons_append]
    rw [lead_squeeze hlead, squeeze_quoted hkey, squeeze_spaces hw1, Members.squeezed_cons]
    show _ ++ (_ ++ chColon :: squeeze .outside _) = _
    rw [squeeze_spaces hw2, v.squeeze_text tv _ hv, squeeze_spaces hw3, hms]
    simp [Members.squeezed]

theorem Elements.squeeze_text : ∀ (es : Elements) (first : Bool) (text rest : Bytes),
    es.Writes first text →
    squeeze .outside (text ++ rest) = es.squeezed first ++ squeeze .outside rest
  | .nil, first, _, rest, h => by
    rw [show _ = [chRBracket] from h]
    cases first <;> rfl
  | .cons v es, first, _, rest, h => by
    obtain ⟨lead, tv, w, t, rfl, hlead, hv, hw, ht⟩ := h
    have hes := es.squeeze_text false t rest ht
    simp only [List.append_assoc]
    rw [lead_squeeze hlead, v.squeeze_text tv _ hv, squeeze_spaces hw, hes, Elements.squeezed_cons]
    simp [Elements.squeezed]

end

/-- Without spaces, the text is what is left of it when the spaces are taken out. -/
theorem Value.Writes.squeezed {v : Value} {text : Bytes} (h : v.Writes text) :
    squeeze .outside text = v.compact := by
  simpa [squeeze] using v.squeeze_text text [] h

/-- A text is written without spaces when it is no longer than that. -/
theorem compact_iff_length {v : Value} {text : Bytes} (h : v.Writes text) :
    text = v.compact ↔ text.length = v.compact.length := by
  constructor
  · intro he
    rw [← he]
  · intro hlen
    have hsub := squeeze_sublist .outside text
    rw [h.squeezed] at hsub
    exact (hsub.eq_of_length hlen.symm).symm

theorem spaces_nil : Spaces [] := List.forall_mem_nil _

theorem lead_compact (first : Bool) : Lead first (if first then [] else [chComma]) := by
  cases first with
  | true => exact rfl
  | false => exact ⟨[], spaces_nil, rfl⟩

mutual

/-- A document may be written without spaces. -/
theorem Value.writes_compact : ∀ (v : Value) (text : Bytes), v.Writes text → v.Writes v.compact
  | .obj members, _, h => by
    obtain ⟨w, t, rfl, -, ht⟩ := h
    exact ⟨[], members.compact, rfl, spaces_nil, members.writes_compact true t ht⟩
  | .arr elements, _, h => by
    obtain ⟨w, t, rfl, -, ht⟩ := h
    exact ⟨[], elements.compact, rfl, spaces_nil, elements.writes_compact true t ht⟩
  | .str s, _, h => ⟨rfl, h.2⟩
  | .num token, _, h => ⟨rfl, h.2⟩
  | .lit l, _, _ => rfl

theorem Members.writes_compact : ∀ (ms : Members) (first : Bool) (text : Bytes), ms.Writes first text →
    ms.Writes first (ms.squeezed first)
  | .nil, first, _, _ => by cases first <;> rfl
  | .cons key v ms, first, _, h => by
    obtain ⟨lead, w1, w2, tv, w3, t, -, -, hkey, -, -, hv, -, ht⟩ := h
    refine ⟨_, [], [], v.compact, [], ms.tail, ?_, lead_compact first, hkey, spaces_nil, spaces_nil,
      v.writes_compact tv hv, spaces_nil, ms.writes_compact false t ht⟩
    rw [Members.squeezed_cons]
    rfl

theorem Elements.writes_compact : ∀ (es : Elements) (first : Bool) (text : Bytes),
    es.Writes first text → es.Writes first (es.squeezed first)
  | .nil, first, _, _ => by cases first <;> rfl
  | .cons v es, first, _, h => by
    obtain ⟨lead, tv, w, t, -, -, hv, -, ht⟩ := h
    refine ⟨_, v.compact, [], es.tail, ?_, lead_compact first, v.writes_compact tv hv, spaces_nil,
      es.writes_compact false t ht⟩
    rw [Elements.squeezed_cons]
    rfl

end

mutual

/-- **A text that never has more than `limit` containers open holds a document of that nesting.** -/
theorem Value.fits_text (limit : Nat) : ∀ (v : Value) (d : Nat) (text rest : Bytes), v.Writes text →
    nests limit .outside d (text ++ rest) = true →
    v.fits limit d = true ∧ nests limit .outside d rest = true
  | .obj members, d, _, rest, h, hn => by
    obtain ⟨w, t, rfl, hw, ht⟩ := h
    have hn : (decide (d < limit) && nests limit .outside (d + 1) (w ++ t ++ rest)) = true := hn
    rw [Bool.and_eq_true, List.append_assoc, nests_spaces _ _ hw] at hn
    obtain ⟨hms, hrest⟩ := members.fits_text limit true d t rest ht hn.2
    exact ⟨by rw [Value.fits, hn.1, hms]; rfl, hrest⟩
  | .arr elements, d, _, rest, h, hn => by
    obtain ⟨w, t, rfl, hw, ht⟩ := h
    have hn : (decide (d < limit) && nests limit .outside (d + 1) (w ++ t ++ rest)) = true := hn
    rw [Bool.and_eq_true, List.append_assoc, nests_spaces _ _ hw] at hn
    obtain ⟨hes, hrest⟩ := elements.fits_text limit true d t rest ht hn.2
    exact ⟨by rw [Value.fits, hn.1, hes]; rfl, hrest⟩
  | .str s, d, _, rest, h, hn => by
    obtain ⟨rfl, hs⟩ := h
    exact ⟨rfl, by rwa [nests_quoted _ _ hs] at hn⟩
  | .num token, d, _, rest, h, hn => by
    obtain ⟨rfl, ht⟩ := h
    exact ⟨rfl, by rwa [nests_dull _ _ (number_dull ht)] at hn⟩
  | .lit l, d, _, rest, h, hn => by
    rw [show _ = l.text from h, nests_dull _ _ (literal_dull l)] at hn
    exact ⟨rfl, hn⟩

theorem Members.fits_text (limit : Nat) : ∀ (ms : Members) (first : Bool) (d : Nat)
    (text rest : Bytes), ms.Writes first text →
    nests limit .outside (d + 1) (text ++ rest) = true →
    ms.fits limit (d + 1) = true ∧ nests limit .outside d rest = true
  | .nil, first, d, _, rest, h, hn => by
    rw [show _ = [chRBrace] from h] at hn
    exact ⟨rfl, hn⟩
  | .cons key v ms, first, d, _, rest, h, hn => by
    obtain ⟨lead, w1, w2, tv, w3, t, rfl, hlead, hkey, hw1, hw2, hv, hw3, ht⟩ := h
    have hcolon : ∀ y, nests limit .outside (d + 1) (chColon :: y) = nests limit .outside (d + 1) y :=
      fun _ => rfl
    simp only [List.append_assoc, List.cons_append] at hn
    rw [lead_nests hlead, nests_quoted _ _ hkey, nests_spaces _ _ hw1, hcolon,
      nests_spaces _ _ hw2] at hn
    obtain ⟨hfits, hn⟩ := v.fits_text limit (d + 1) tv _ hv hn
    rw [nests_spaces _ _ hw3] at hn
    obtain ⟨hms, hrest⟩ := ms.fits_text limit false d t rest ht hn
    exact ⟨by rw [Members.fits, hfits, hms]; rfl, hrest⟩

theorem Elements.fits_text (limit : Nat) : ∀ (es : Elements) (first : Bool) (d : Nat)
    (text rest : Bytes), es.Writes first text →
    nests limit .outside (d + 1) (text ++ rest) = true →
    es.fits limit (d + 1) = true ∧ nests limit .outside d rest = true
  | .nil, first, d, _, rest, h, hn => by
    rw [show _ = [chRBracket] from h] at hn
    exact ⟨rfl, hn⟩
  | .cons v es, first, d, _, rest, h, hn => by
    obtain ⟨lead, tv, w, t, rfl, hlead, hv, hw, ht⟩ := h
    simp only [List.append_assoc] at hn
    rw [lead_nests hlead] at hn
    obtain ⟨hfits, hn⟩ := v.fits_text limit (d + 1) tv _ hv hn
    rw [nests_spaces _ _ hw] at hn
    obtain ⟨hes, hrest⟩ := es.fits_text limit false d t rest ht hn
    exact ⟨by rw [Elements.fits, hfits, hes]; rfl, hrest⟩

end

end Lql.Json
