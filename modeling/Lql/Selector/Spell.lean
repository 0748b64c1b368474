import Lql.Selector.Write

/-!
# What is written can be read

Every string, number and literal that the writer of selectors writes is a value of the grammar, and what the scanner reports
of it is what was written.
-/

namespace Lql.Selector

open Json (Str Piece Value Members Elements)
open Scan (isPlain)
open Unicode (utf8)

/-! ## Strings -/

theorem hexNumber_control : ∀ k < 32, Json.hexNumber 0 [chZero, chZero, hexDigit (UInt8.ofNat k / 16),
    hexDigit (UInt8.ofNat k % 16)] = some k := by decide

theorem unicodeBytes_control : ∀ k < 32, Scan.unicodeBytes k = [UInt8.ofNat k] := by decide

/-- A byte of ASCII is one piece of the string. -/
theorem selectorJsonByte_ascii {c : UInt8} (h : c < 0x80) :
    ∃ piece : Piece, piece.Ok ∧ piece.raw = selectorJsonByte c ∧ piece.text = [c] := by
  unfold selectorJsonByte
  have short : ∀ e : UInt8, Scan.isShortEscape e = true → ∃ piece : Piece, piece.Ok ∧ piece.raw = [chBackslash, e] ∧
      piece.text = [Scan.shortEscapeByte e] := fun e he => ⟨_, .short he, rfl, rfl⟩
  split
  · next hc =>
    subst hc
    exact short chQuote (by decide)
  next hquote =>
  split
  · next hc =>
    subst hc
    exact short chBackslash (by decide)
  next hslash =>
  split
  · next hc =>
    subst hc
    exact short 0x62 (by decide)
  split
  · next hc =>
    subst hc
    exact short 0x66 (by decide)
  split
  · next hc =>
    subst hc
    exact short 0x6e (by decide)
  split
  · next hc =>
    subst hc
    exact short 0x72 (by decide)
  split
  · next hc =>
    subst hc
    exact short 0x74 (by decide)
  split
  · next hctl =>
    have hk : c.toNat < 32 := UInt8.lt_iff_toNat_lt.mp hctl
    have hnumber := hexNumber_control c.toNat hk
    have htext := unicodeBytes_control c.toNat hk
    rw [UInt8.ofNat_toNat] at hnumber htext
    exact ⟨_, .unicode ⟨rfl, hnumber⟩ (.inl (by omega)), rfl, htext⟩
  · next hctl =>
    have hplain : isPlain c = true := by
      simp only [isPlain, ne_eq, hquote, hslash, not_false_eq_true, decide_true, Bool.true_and, Bool.and_eq_true,
        decide_eq_true_eq]
      exact ⟨UInt8.not_lt.mp hctl, h⟩
    exact ⟨_, .plain hplain, rfl, rfl⟩

/-- A byte beyond ASCII is written as it is. -/
theorem selectorJsonByte_high {c : UInt8} (h : 0x80 ≤ c) : selectorJsonByte c = [c] := by
  have hne : ∀ d : UInt8, d < 0x80 → c ≠ d := by
    intro d hd hc
    subst hc
    exact absurd hd (UInt8.not_lt.mpr h)
  have hctl : ¬ c < 0x20 := UInt8.not_lt.mpr (UInt8.le_trans (by decide) h)
  unfold selectorJsonByte
  rw [if_neg (hne _ (by decide)), if_neg (hne _ (by decide)), if_neg (hne _ (by decide)), if_neg (hne _ (by decide)),
    if_neg (hne _ (by decide)), if_neg (hne _ (by decide)), if_neg (hne _ (by decide)), if_neg hctl]

/-- **A text of characters is written as a string that stands for it.** -/
theorem selectorJsonString_spells {data : Bytes} (h : IsUtf8 data) :
    ∃ s : Str, s.Ok ∧ s.quoted = selectorJsonString data ∧ s.text = data := by
  obtain ⟨cs, rfl⟩ := h
  suffices hs : ∃ s : Str, s.Ok ∧ s.raw = (utf8 cs).flatMap selectorJsonByte ∧ s.text = utf8 cs by
    obtain ⟨s, hok, hraw, htext⟩ := hs
    exact ⟨s, hok, by rw [Str.quoted, selectorJsonString, hraw], htext⟩
  induction cs with
  | nil => exact ⟨[], List.forall_mem_nil _, rfl, rfl⟩
  | cons ch cs ih =>
    obtain ⟨s, hok, hraw, htext⟩ := ih
    have hpiece : ∃ piece : Piece, piece.Ok ∧ piece.raw = (String.utf8EncodeChar ch).flatMap selectorJsonByte ∧
        piece.text = String.utf8EncodeChar ch := by
      rcases Json.utf8_head ch with ⟨b, hb, hch⟩ | ⟨hhigh, -⟩
      · obtain ⟨piece, hp, hpraw, hptext⟩ := selectorJsonByte_ascii hb
        rw [hch]
        exact ⟨piece, hp, by rw [hpraw, List.flatMap_singleton], hptext⟩
      · have hbytes : (String.utf8EncodeChar ch).flatMap selectorJsonByte = String.utf8EncodeChar ch := by
          rw [List.flatMap_congr fun b hb => selectorJsonByte_high (Json.char_high hhigh b hb)]
          exact List.flatMap_singleton' _
        exact ⟨_, .utf8 ch hhigh, hbytes.symm, rfl⟩
    obtain ⟨piece, hp, hpraw, hptext⟩ := hpiece
    refine ⟨piece :: s, List.forall_mem_cons.mpr ⟨hp, hok⟩, ?_, ?_⟩
    · rw [Unicode.utf8_cons, List.flatMap_append, ← hpraw, ← hraw]
      rfl
    · rw [Unicode.utf8_cons, ← hptext, ← htext]
      rfl

/-! ## Numbers -/

theorem parseInteger_parts {p int rest : Bytes} (h : Number.parseInteger p = some (int, rest)) :
    p = int ++ rest ∧ (int = [chZero] ∨ ∃ c tail, int = c :: tail ∧ isDigit19 c = true ∧ ∀ d ∈ tail, isDigit d = true) := by
  cases p with
  | nil => cases h
  | cons c p =>
    rw [Number.parseInteger.eq_def] at h
    dsimp only at h
    split at h
    · next hz =>
      have hrest : some ([c], p) = some (int, rest) := by
        cases p with
        | nil => exact h
        | cons d p =>
          dsimp only at h
          split at h
          · cases h
          · exact h
      cases hrest
      exact ⟨rfl, .inl (by rw [hz])⟩
    split at h
    · next hd =>
      cases h
      exact ⟨by rw [List.cons_append, List.takeWhile_append_dropWhile],
        .inr ⟨c, _, rfl, hd, fun d hmem => List.mem_takeWhile_imp hmem⟩⟩
    · cases h

theorem parseFraction_parts {p digits rest : Bytes} (h : Number.parseFraction p = some (digits, rest)) :
    ∃ fraction, p = fraction ++ rest ∧ (fraction = [] ∨ ∃ digits, fraction = chDot :: digits ∧ digits ≠ [] ∧
      ∀ d ∈ digits, isDigit d = true) := by
  cases p with
  | nil =>
    cases h
    exact ⟨[], rfl, .inl rfl⟩
  | cons c p =>
    rw [Number.parseFraction] at h
    split at h
    · next hc =>
      unfold Number.spanDigits at h
      dsimp only at h
      split at h
      · cases h
      next hne =>
      cases h
      refine ⟨chDot :: p.takeWhile isDigit, ?_, .inr ⟨_, rfl, hne, fun d hmem => List.mem_takeWhile_imp hmem⟩⟩
      rw [List.cons_append, List.takeWhile_append_dropWhile, hc]
    · cases h
      exact ⟨[], rfl, .inl rfl⟩

theorem parseExponent_parts {p digits rest : Bytes} {negative : Bool}
    (h : Number.parseExponent p = some (negative, digits, rest)) : rest = p ∨ ∃ exponent, p = exponent ++ rest ∧
      ∃ e sign digits, exponent = e :: (sign ++ digits) ∧ (e = chLowerE ∨ e = chUpperE) ∧
        (sign = [] ∨ sign = [chPlus] ∨ sign = [chMinus]) ∧ digits ≠ [] ∧ ∀ d ∈ digits, isDigit d = true := by
  cases p with
  | nil =>
    cases h
    exact .inl rfl
  | cons c p =>
    rw [Number.parseExponent] at h
    by_cases hc : c = chLowerE ∨ c = chUpperE
    · rw [if_pos hc] at h
      -- the sign is what stands in front of the digits
      have hsign : ∃ sign : Bytes, (sign = [] ∨ sign = [chPlus] ∨ sign = [chMinus]) ∧
          p = sign ++ if p.head? = some chPlus ∨ p.head? = some chMinus then p.tail else p := by
        by_cases hs : p.head? = some chPlus ∨ p.head? = some chMinus
        · rw [if_pos hs]
          rcases hs with hs | hs
          · obtain ⟨tail, rfl⟩ := List.head?_eq_some_iff.mp hs
            exact ⟨[chPlus], .inr (.inl rfl), rfl⟩
          · obtain ⟨tail, rfl⟩ := List.head?_eq_some_iff.mp hs
            exact ⟨[chMinus], .inr (.inr rfl), rfl⟩
        · rw [if_neg hs]
          exact ⟨[], .inl rfl, rfl⟩
      obtain ⟨sign, hsign, hp⟩ := hsign
      dsimp only at h
      generalize (if p.head? = some chPlus ∨ p.head? = some chMinus then p.tail else p) = all at h hp
      unfold Number.spanDigits at h
      by_cases hne : all.takeWhile isDigit = []
      · rw [if_pos hne] at h
        cases h
      rw [if_neg hne] at h
      obtain ⟨-, hrest⟩ := Prod.mk.inj (Prod.mk.inj (Option.some.inj h)).2
      refine .inr ⟨c :: (sign ++ all.takeWhile isDigit), ?_, c, sign, _, rfl, hc, hsign, hne,
        fun d hmem => List.mem_takeWhile_imp hmem⟩
      rw [hp, ← hrest]
      simp
    · rw [if_neg hc] at h
      cases h
      exact .inl rfl

/-- **What the comparison reads as a number is the token of one.** -/
theorem numberToken_of_isJson {text : Bytes} (h : Number.isJson text = true) : Json.NumberToken text := by
  unfold Number.isJson at h
  obtain ⟨n, hn⟩ := Option.isSome_iff_exists.mp h
  unfold Number.decimalParse at hn
  obtain ⟨⟨int, p1⟩, hint, hn⟩ := Option.bind_eq_some_iff.mp hn
  obtain ⟨⟨fraction, p2⟩, hfraction, hn⟩ := Option.bind_eq_some_iff.mp hn
  obtain ⟨⟨negative, exponent, p3⟩, hexponent, hn⟩ := Option.bind_eq_some_iff.mp hn
  dsimp only at hfraction hexponent hn
  obtain ⟨hbody, hint⟩ := parseInteger_parts hint
  obtain ⟨fraction', hp1, hfraction⟩ := parseFraction_parts hfraction
  have hp3 : p3 = [] := by
    by_contra hne
    rw [if_pos hne] at hn
    cases hn
  subst hp3
  have hsign : ∃ sign : Bytes, (sign = [] ∨ sign = [chMinus]) ∧
      text = sign ++ if text.head? = some chMinus then text.tail else text := by
    by_cases hs : text.head? = some chMinus
    · obtain ⟨tail, rfl⟩ := List.head?_eq_some_iff.mp hs
      exact ⟨[chMinus], .inr rfl, rfl⟩
    · exact ⟨[], .inl rfl, by rw [if_neg hs, List.nil_append]⟩
  obtain ⟨sign, hsign, htext⟩ := hsign
  rw [hbody, hp1] at htext
  have hexp : p2 = [] ∨ ∃ e s digits, p2 = e :: (s ++ digits) ∧ (e = chLowerE ∨ e = chUpperE) ∧
      (s = [] ∨ s = [chPlus] ∨ s = [chMinus]) ∧ digits ≠ [] ∧ ∀ d ∈ digits, isDigit d = true := by
    rcases parseExponent_parts hexponent with hrest | ⟨exponent', hp2, hparts⟩
    · exact .inl hrest.symm
    · rw [List.append_nil] at hp2
      subst hp2
      exact .inr hparts
  exact ⟨sign, int, fraction', p2, by rw [htext, List.append_assoc, List.append_assoc],
    hsign, hint, hfraction, hexp⟩

/-! ## Values -/

/-- The text is a value, of which this is reported. -/
def Reads (text : Bytes) (event : JsonEvent) : Prop := ∃ v : Value, v.Writes text ∧ ∀ s, replay v s = jsonStep s event

theorem reads_string {data : Bytes} (h : IsUtf8 data) : Reads (selectorJsonString data) (.string data) := by
  obtain ⟨s, hok, hquoted, htext⟩ := selectorJsonString_spells h
  refine ⟨.str s, ⟨hquoted.symm, hok⟩, fun state => ?_⟩
  rw [replay, htext]

theorem reads_number {text : Bytes} (h : Number.isJson text = true) : Reads text (.number text) :=
  ⟨.num text, ⟨rfl, numberToken_of_isJson h⟩, fun s => by rw [replay]⟩

theorem reads_tt : Reads txtTrue (.boolean true) := ⟨.lit .tt, rfl, fun s => by rw [replay]⟩

theorem reads_ff : Reads txtFalse (.boolean false) := ⟨.lit .ff, rfl, fun s => by rw [replay]⟩

theorem reads_nul : Reads txtNull .null := ⟨.lit .nul, rfl, fun s => by rw [replay]⟩

/-- What is reported of a scalar. -/
def scalarEvent (value : Bytes) : LiteralKind → JsonEvent
  | .string => .string value
  | .number => .number value
  | .bool => .boolean (value = txtTrue)
  | .null => .null

theorem cText_of_not_mem {text : Bytes} (h : 0 ∉ text) : cText text = text :=
  List.takeWhile_eq_self_iff.mpr fun c hc => by
    have hne : c ≠ 0 := fun h0 => h (h0 ▸ hc)
    simpa using hne

theorem isJson_ascii {text : Bytes} (h : Number.isJson text = true) : IsUtf8 text ∧ 0 ∉ text :=
  token_isUtf8 (numberToken_of_isJson h)

/-- **A scalar is written as what it is.** -/
theorem reads_literal {value : Bytes} {kind : LiteralKind} (h : kind.Spells value) :
    Reads (writeSelectorLiteralJson value kind) (scalarEvent value kind) := by
  unfold writeSelectorLiteralJson
  cases kind with
  | string => exact reads_string h
  | number =>
    rw [if_neg (by decide), cText_of_not_mem (isJson_ascii h).2]
    exact reads_number h
  | bool =>
    rcases h with rfl | rfl
    · exact reads_tt
    · exact reads_ff
  | null =>
    obtain rfl : value = txtNull := h
    exact reads_nul

end Lql.Selector
