import Mathlib.Tactic.IntervalCases
import Lql.Scan.NumberSpec
import Lql.Json.Text

/-!
# The grammar of documents

RFC 8259, as a relation between a document and the bytes it is written as: which bytes stand
where, with any run of spaces between two tokens. The parser is sound and complete for it, so a
text that some document is written as is a text that parses, to that document.
-/

namespace Lql.Json

open Lql.Scan (isPlain isSpace isShortEscape shortEscapeByte hexValue leadInfo unicodeBytes
  NumberParts numberP_parts takeWhile_append_stop isDigit_takeWhile)

/-! ## Documents without spaces -/

/-- A string with its quotes. -/
def Str.quoted (s : Str) : Bytes := [chQuote] ++ s.raw ++ [chQuote]

mutual

/-- The value without the spaces between its tokens. -/
def Value.compact : Value → Bytes
  | .obj members => chLBrace :: members.compact
  | .arr elements => chLBracket :: elements.compact
  | .str s => s.quoted
  | .num token => token
  | .lit l => l.text

/-- The members of an object up to its closing brace. -/
def Members.compact : Members → Bytes
  | .nil => [chRBrace]
  | .cons key value .nil => key.quoted ++ [chColon] ++ value.compact ++ [chRBrace]
  | .cons key value (.cons key' value' rest) =>
    key.quoted ++ [chColon] ++ value.compact ++ [chComma] ++ (Members.cons key' value' rest).compact

/-- The elements of an array up to its closing bracket. -/
def Elements.compact : Elements → Bytes
  | .nil => [chRBracket]
  | .cons value .nil => value.compact ++ [chRBracket]
  | .cons value (.cons value' rest) =>
    value.compact ++ [chComma] ++ (Elements.cons value' rest).compact

end

def Members.isNil : Members → Bool
  | .nil => true
  | .cons _ _ _ => false

def Elements.isNil : Elements → Bool
  | .nil => true
  | .cons _ _ => false

def Value.isNull : Value → Bool
  | .lit .nul => true
  | _ => false

/-- What follows the value of a member. -/
def Members.tail : Members → Bytes
  | .nil => [chRBrace]
  | .cons key value rest => chComma :: (Members.cons key value rest).compact

/-- What follows an element. -/
def Elements.tail : Elements → Bytes
  | .nil => [chRBracket]
  | .cons value rest => chComma :: (Elements.cons value rest).compact

theorem Members.compact_cons (key : Str) (v : Value) (rest : Members) :
    (Members.cons key v rest).compact = key.quoted ++ [chColon] ++ v.compact ++ rest.tail := by
  cases rest with
  | nil => rw [Members.compact, Members.tail]
  | cons key' v' rest => rw [Members.compact, Members.tail, List.append_assoc _ [chComma]]; rfl

theorem Elements.compact_cons (v : Value) (rest : Elements) :
    (Elements.cons v rest).compact = v.compact ++ rest.tail := by
  cases rest with
  | nil => rw [Elements.compact, Elements.tail]
  | cons v' rest => rw [Elements.compact, Elements.tail, List.append_assoc _ [chComma]]; rfl

/-! ## How a document may be written -/

/-- A run of spaces. -/
def Spaces (w : Bytes) : Prop := ∀ c ∈ w, isSpace c = true

/-- The number that hex digits write, after `value`. -/
def hexNumber : Nat → Bytes → Option Nat
  | value, [] => some value
  | value, c :: rest =>
    match hexValue c with
    | none => none
    | some digit => hexNumber (value * 16 + digit) rest

/-- Four hex digits. -/
def Hex4 (digits : Bytes) (value : Nat) : Prop :=
  digits.length = 4 ∧ hexNumber 0 digits = some value

/-- How one code point of a string may be written: by itself (in UTF-8, unless it is a quote, a
backslash or a control character), by a short escape, by four hex digits unless they write a
surrogate, or by a pair of surrogates. -/
inductive Piece.Ok : Piece → Prop where
  | plain {c : UInt8} (h : isPlain c = true) : Ok (.plain c)
  | utf8 (c : Char) (h : 0x80 ≤ c.val.toNat) :
    Ok (.coded (String.utf8EncodeChar c) (String.utf8EncodeChar c))
  | short {c : UInt8} (h : isShortEscape c = true) :
    Ok (.coded [chBackslash, c] [shortEscapeByte c])
  | unicode {digits : Bytes} {value : Nat} (h : Hex4 digits value)
    (hv : value < 0xd800 ∨ 0xdfff < value) :
    Ok (.coded ([chBackslash, chU] ++ digits) (unicodeBytes value))
  | pair {high low : Bytes} {hi lo : Nat} (hh : Hex4 high hi) (hl : Hex4 low lo)
    (hhi : 0xd800 ≤ hi ∧ hi ≤ 0xdbff) (hlo : 0xdc00 ≤ lo ∧ lo ≤ 0xdfff) :
    Ok (.coded ([chBackslash, chU] ++ high ++ [chBackslash, chU] ++ low)
      (unicodeBytes (0x10000 + ((hi - 0xd800) <<< 10) + (lo - 0xdc00))))

def Str.Ok (s : Str) : Prop := ∀ p ∈ s, p.Ok

theorem hexNumber_lt : ∀ {digits : Bytes} {v n : Nat}, hexNumber v digits = some n → n < (v + 1) * 16 ^ digits.length
  | [], v, n, h => by
    cases h
    simp
  | c :: digits, v, n, h => by
    rw [hexNumber] at h
    cases hd : hexValue c with
    | none =>
      rw [hd] at h
      cases h
    | some d =>
      rw [hd] at h
      have ih := hexNumber_lt h
      have hlt := hexValue_lt hd
      calc n < (v * 16 + d + 1) * 16 ^ digits.length := ih
        _ ≤ ((v + 1) * 16) * 16 ^ digits.length := Nat.mul_le_mul_right _ (by omega)
        _ = (v + 1) * 16 ^ (c :: digits).length := by
          rw [List.length_cons, Nat.pow_succ, Nat.mul_assoc, Nat.mul_comm 16]

theorem pair_range {hi lo : Nat} (hhi : 0xd800 ≤ hi ∧ hi ≤ 0xdbff) (hlo : 0xdc00 ≤ lo ∧ lo ≤ 0xdfff) :
    0xdfff < 0x10000 + ((hi - 0xd800) <<< 10) + (lo - 0xdc00) ∧
      0x10000 + ((hi - 0xd800) <<< 10) + (lo - 0xdc00) < 0x110000 := by
  rw [Nat.shiftLeft_eq]
  omega

/-- The token of a number. -/
def NumberToken (token : Bytes) : Prop :=
  ∃ sign int fraction exponent, token = sign ++ int ++ fraction ++ exponent ∧
    NumberParts sign int fraction exponent

/-- What stands before a member or an element. -/
def Lead (first : Bool) (lead : Bytes) : Prop :=
  if first then lead = [] else ∃ w, Spaces w ∧ lead = chComma :: w

mutual

/-- The value may be written as `text`. -/
def Value.Writes : Value → Bytes → Prop
  | .obj members, text => ∃ w t, text = chLBrace :: (w ++ t) ∧ Spaces w ∧ members.Writes true t
  | .arr elements, text => ∃ w t, text = chLBracket :: (w ++ t) ∧ Spaces w ∧ elements.Writes true t
  | .str s, text => text = s.quoted ∧ s.Ok
  | .num token, text => text = token ∧ NumberToken token
  | .lit l, text => text = l.text

/-- The members may be written as `text`, up to the closing brace. -/
def Members.Writes : Members → Bool → Bytes → Prop
  | .nil, _, text => text = [chRBrace]
  | .cons key value rest, first, text => ∃ lead w1 w2 tv w3 t,
    text = lead ++ (key.quoted ++ (w1 ++ chColon :: (w2 ++ (tv ++ (w3 ++ t))))) ∧
    Lead first lead ∧ key.Ok ∧ Spaces w1 ∧ Spaces w2 ∧ value.Writes tv ∧ Spaces w3 ∧
    rest.Writes false t

/-- The elements may be written as `text`, up to the closing bracket. -/
def Elements.Writes : Elements → Bool → Bytes → Prop
  | .nil, _, text => text = [chRBracket]
  | .cons value rest, first, text => ∃ lead tv w t, text = lead ++ (tv ++ (w ++ t)) ∧
    Lead first lead ∧ value.Writes tv ∧ Spaces w ∧ rest.Writes false t

end

/-! ## UTF-8 -/

/-- The bytes behind a lead byte: the first between `lo` and `hi`, the others any. -/
def Continues : Nat → UInt8 → UInt8 → Bytes → Prop
  | 0, _, _, cs => cs = []
  | k + 1, lo, hi, cs => ∃ c rest, cs = c :: rest ∧ lo ≤ c ∧ c ≤ hi ∧ Continues k 0x80 0xbf rest

theorem continuationP_iff : ∀ (k : Nat) (lo hi : UInt8) (f f' : Flat) (cs : Bytes),
    continuationP k lo hi f = some (cs, f') ↔
      f = { rest := cs ++ f'.rest, compact := f'.compact } ∧ Continues k lo hi cs
  | 0, lo, hi, f, f', cs => by
    constructor
    · intro h
      cases h
      exact ⟨rfl, rfl⟩
    · rintro ⟨rfl, rfl⟩
      rfl
  | k + 1, lo, hi, f, f', cs => by
    have hrange : ∀ c : UInt8, (c < lo || hi < c) = true ↔ ¬ (lo ≤ c ∧ c ≤ hi) := by
      intro c
      simp only [Bool.or_eq_true, decide_eq_true_eq, UInt8.lt_iff_toNat_lt, UInt8.le_iff_toNat_le]
      omega
    constructor
    · intro h
      obtain ⟨c, f1, h1, h⟩ := bind_eq_some.mp h
      split at h
      · cases h
      next hc =>
      have hc := not_not.mp (mt (hrange c).mpr hc)
      obtain ⟨rest, f2, h2, h3⟩ := bind_eq_some.mp h
      obtain ⟨rfl, hrest⟩ := (continuationP_iff k _ _ _ _ _).mp h2
      cases h3
      exact ⟨takeP_some h1, c, rest, rfl, hc.1, hc.2, hrest⟩
    · rintro ⟨rfl, c, rest, rfl, hlo, hhi, hrest⟩
      have h1 : takeP { rest := c :: rest ++ f'.rest, compact := f'.compact } =
          some (c, { rest := rest ++ f'.rest, compact := f'.compact }) := rfl
      have h2 := (continuationP_iff k 0x80 0xbf { rest := rest ++ f'.rest, compact := f'.compact } f'
        rest).mpr ⟨rfl, hrest⟩
      rw [continuationP, bind_eq h1, if_neg (fun h => (hrange c).mp h ⟨hlo, hhi⟩), bind_eq h2]
      rfl

/-- The code point `v`, in UTF-8. -/
theorem exists_char {v : Nat} (hv : v < 0xd800 ∨ 0xdfff < v ∧ v < 0x110000) :
    ∃ ch : Char, ch.val.toNat = v := ⟨Char.ofNatAux v hv, rfl⟩

theorem utf8_two {c b : UInt8} (hc : 0xc2 ≤ c ∧ c ≤ 0xdf) (hb : 0x80 ≤ b ∧ b ≤ 0xbf) :
    ∃ ch : Char, 0x80 ≤ ch.val.toNat ∧ String.utf8EncodeChar ch = [c, b] := by
  simp only [UInt8.le_iff_toNat_le, UInt8.reduceToNat] at hc hb
  obtain ⟨ch, hv⟩ := exists_char (v := (c.toNat - 0xc0) * 64 + (b.toNat - 0x80)) (by omega)
  refine ⟨ch, by omega, ?_⟩
  have h1 : ch.val.toNat / 64 % 32 + 0xc0 = c.toNat := by omega
  have h2 : ch.val.toNat % 64 + 0x80 = b.toNat := by omega
  unfold String.utf8EncodeChar
  rw [if_neg (by omega), if_pos (by omega), h1, h2]
  simp

theorem utf8_three {c b a : UInt8} (hc : 0xe0 ≤ c ∧ c ≤ 0xef)
    (hb : (if c = 0xe0 then 0xa0 else 0x80) ≤ b ∧ b ≤ if c = 0xed then 0x9f else 0xbf)
    (ha : 0x80 ≤ a ∧ a ≤ 0xbf) :
    ∃ ch : Char, 0x80 ≤ ch.val.toNat ∧ String.utf8EncodeChar ch = [c, b, a] := by
  have hlo : c = 0xe0 → 0xa0 ≤ b := fun h => by simpa [h] using hb.1
  have hhi : c = 0xed → b ≤ 0x9f := fun h => by simpa [h] using hb.2
  have hb : 0x80 ≤ b ∧ b ≤ 0xbf := by
    refine ⟨?_, ?_⟩
    · by_cases h : c = 0xe0
      · exact UInt8.le_trans (by decide) (hlo h)
      · simpa [h] using hb.1
    · by_cases h : c = 0xed
      · exact UInt8.le_trans (hhi h) (by decide)
      · simpa [h] using hb.2
  simp only [UInt8.le_iff_toNat_le, ← UInt8.toNat_inj, UInt8.reduceToNat] at hc hlo hhi hb ha
  obtain ⟨ch, hv⟩ := exists_char
    (v := (c.toNat - 0xe0) * 4096 + (b.toNat - 0x80) * 64 + (a.toNat - 0x80)) (by omega)
  refine ⟨ch, by omega, ?_⟩
  have h1 : ch.val.toNat / 4096 % 16 + 0xe0 = c.toNat := by omega
  have h2 : ch.val.toNat / 64 % 64 + 0x80 = b.toNat := by omega
  have h3 : ch.val.toNat % 64 + 0x80 = a.toNat := by omega
  unfold String.utf8EncodeChar
  rw [if_neg (by omega), if_neg (by omega), if_pos (by omega), h1, h2, h3]
  simp

theorem utf8_four {c b a d : UInt8} (hc : 0xf0 ≤ c ∧ c ≤ 0xf4)
    (hb : (if c = 0xf0 then 0x90 else 0x80) ≤ b ∧ b ≤ if c = 0xf4 then 0x8f else 0xbf)
    (ha : 0x80 ≤ a ∧ a ≤ 0xbf) (hd : 0x80 ≤ d ∧ d ≤ 0xbf) :
    ∃ ch : Char, 0x80 ≤ ch.val.toNat ∧ String.utf8EncodeChar ch = [c, b, a, d] := by
  have hlo : c = 0xf0 → 0x90 ≤ b := fun h => by simpa [h] using hb.1
  have hhi : c = 0xf4 → b ≤ 0x8f := fun h => by simpa [h] using hb.2
  have hb : 0x80 ≤ b ∧ b ≤ 0xbf := by
    refine ⟨?_, ?_⟩
    · by_cases h : c = 0xf0
      · exact UInt8.le_trans (by decide) (hlo h)
      · simpa [h] using hb.1
    · by_cases h : c = 0xf4
      · exact UInt8.le_trans (hhi h) (by decide)
      · simpa [h] using hb.2
  simp only [UInt8.le_iff_toNat_le, ← UInt8.toNat_inj, UInt8.reduceToNat] at hc hlo hhi hb ha hd
  obtain ⟨ch, hv⟩ := exists_char (v := (c.toNat - 0xf0) * 262144 + (b.toNat - 0x80) * 4096 +
    (a.toNat - 0x80) * 64 + (d.toNat - 0x80)) (by omega)
  refine ⟨ch, by omega, ?_⟩
  have h1 : ch.val.toNat / 262144 % 8 + 0xf0 = c.toNat := by omega
  have h2 : ch.val.toNat / 4096 % 64 + 0x80 = b.toNat := by omega
  have h3 : ch.val.toNat / 64 % 64 + 0x80 = a.toNat := by omega
  have h4 : ch.val.toNat % 64 + 0x80 = d.toNat := by omega
  unfold String.utf8EncodeChar
  rw [if_neg (by omega), if_neg (by omega), if_neg (by omega), h1, h2, h3, h4]
  simp

/-- A lead byte and the bytes it asks for. -/
def Coded (c : UInt8) (cs : Bytes) : Prop :=
  ∃ k lo hi, leadInfo c = some (k, lo, hi) ∧ Continues k lo hi cs

theorem leadInfo_two {c : UInt8} (h : 0xc2 ≤ c ∧ c ≤ 0xdf) : leadInfo c = some (1, 0x80, 0xbf) := by
  rw [leadInfo, if_pos (by simpa using h)]

theorem leadInfo_three {c : UInt8} (h : 0xe0 ≤ c ∧ c ≤ 0xef) :
    leadInfo c = some (2, if c = 0xe0 then 0xa0 else 0x80, if c = 0xed then 0x9f else 0xbf) := by
  have hn : ¬ (0xc2 ≤ c ∧ c ≤ 0xdf) := by
    simp only [UInt8.le_iff_toNat_le, UInt8.reduceToNat] at h ⊢
    omega
  rw [leadInfo, if_neg (by simpa using hn), if_pos (by simpa using h)]

theorem leadInfo_four {c : UInt8} (h : 0xf0 ≤ c ∧ c ≤ 0xf4) :
    leadInfo c = some (3, if c = 0xf0 then 0x90 else 0x80, if c = 0xf4 then 0x8f else 0xbf) := by
  have hn : ¬ (0xc2 ≤ c ∧ c ≤ 0xdf) ∧ ¬ (0xe0 ≤ c ∧ c ≤ 0xef) := by
    simp only [UInt8.le_iff_toNat_le, UInt8.reduceToNat] at h ⊢
    omega
  rw [leadInfo, if_neg (by simpa using hn.1), if_neg (by simpa using hn.2),
    if_pos (by simpa using h)]

/-- The bytes a lead byte asks for are a code point. -/
theorem utf8_of_lead {c : UInt8} {cs : Bytes} (hcoded : Coded c cs) :
    ∃ ch : Char, 0x80 ≤ ch.val.toNat ∧ String.utf8EncodeChar ch = c :: cs := by
  obtain ⟨k, lo, hi, h, hcs⟩ := hcoded
  unfold leadInfo at h
  simp only [Bool.and_eq_true, decide_eq_true_eq] at h
  split at h
  · next hc =>
    cases h
    obtain ⟨b, _, rfl, h1, h2, rfl⟩ := hcs
    exact utf8_two hc ⟨h1, h2⟩
  split at h
  · next hc =>
    cases h
    obtain ⟨b, _, rfl, h1, h2, a, _, rfl, h3, h4, rfl⟩ := hcs
    exact utf8_three hc ⟨h1, h2⟩ ⟨h3, h4⟩
  split at h
  · next hc =>
    cases h
    obtain ⟨b, _, rfl, h1, h2, a, _, rfl, h3, h4, d, _, rfl, h5, h6, rfl⟩ := hcs
    exact utf8_four hc ⟨h1, h2⟩ ⟨h3, h4⟩ ⟨h5, h6⟩
  · cases h

theorem ofNat_toNat {n : Nat} (h : n < 256) : (UInt8.ofNat n).toNat = n := by
  rw [UInt8.toNat_ofNat']
  exact Nat.mod_eq_of_lt h

theorem ofNat_le {n : Nat} {c : UInt8} (hn : n < 256) : c ≤ UInt8.ofNat n ↔ c.toNat ≤ n := by
  rw [UInt8.le_iff_toNat_le, ofNat_toNat hn]

theorem le_ofNat {n : Nat} {c : UInt8} (hn : n < 256) : UInt8.ofNat n ≤ c ↔ n ≤ c.toNat := by
  rw [UInt8.le_iff_toNat_le, ofNat_toNat hn]

theorem ofNat_eq {n : Nat} {c : UInt8} (hn : n < 256) : UInt8.ofNat n = c ↔ n = c.toNat := by
  rw [← UInt8.toNat_inj, ofNat_toNat hn]

theorem tail_ok (v : Nat) : (0x80 : UInt8) ≤ UInt8.ofNat (v % 64 + 0x80) ∧
    UInt8.ofNat (v % 64 + 0x80) ≤ 0xbf := by
  have h : v % 64 + 0x80 < 256 := by omega
  rw [ofNat_le h, le_ofNat h]
  simp only [UInt8.reduceToNat]
  omega

/-- A code point beyond ASCII starts with the lead byte for its length. -/
theorem lead_of_utf8 (ch : Char) (h : 0x80 ≤ ch.val.toNat) :
    ∃ c cs, String.utf8EncodeChar ch = c :: cs ∧ Coded c cs ∧ 0x80 ≤ c := by
  have hvalid : ch.val.toNat < 0xd800 ∨ 0xdfff < ch.val.toNat ∧ ch.val.toNat < 0x110000 := ch.valid
  unfold String.utf8EncodeChar
  dsimp only
  generalize ch.val.toNat = v at h hvalid
  rw [if_neg (by omega)]
  by_cases h2 : v ≤ 0x7ff
  · rw [if_pos h2]
    have hc : v / 64 % 32 + 0xc0 < 256 := by omega
    have hlead : (0xc2 : UInt8) ≤ UInt8.ofNat (v / 64 % 32 + 0xc0) ∧
        UInt8.ofNat (v / 64 % 32 + 0xc0) ≤ 0xdf := by
      rw [ofNat_le hc, le_ofNat hc]
      simp only [UInt8.reduceToNat]
      omega
    exact ⟨_, _, rfl, ⟨_, _, _, leadInfo_two hlead, _, _, rfl, (tail_ok v).1, (tail_ok v).2, rfl⟩,
      UInt8.le_trans (by decide) hlead.1⟩
  rw [if_neg h2]
  by_cases h3 : v ≤ 0xffff
  · rw [if_pos h3]
    have hc : v / 4096 % 16 + 0xe0 < 256 := by omega
    have hb : v / 64 % 64 + 0x80 < 256 := by omega
    have hlead : (0xe0 : UInt8) ≤ UInt8.ofNat (v / 4096 % 16 + 0xe0) ∧
        UInt8.ofNat (v / 4096 % 16 + 0xe0) ≤ 0xef := by
      rw [ofNat_le hc, le_ofNat hc]
      simp only [UInt8.reduceToNat]
      omega
    refine ⟨_, _, rfl, ⟨_, _, _, leadInfo_three hlead, _, _, rfl, ?_, ?_, _, _, rfl, (tail_ok v).1,
      (tail_ok v).2, rfl⟩, UInt8.le_trans (by decide) hlead.1⟩
    · rw [ofNat_le hb]
      simp only [ofNat_eq hc, UInt8.reduceToNat]
      split <;> simp only [UInt8.reduceToNat] <;> omega
    · rw [le_ofNat hb]
      simp only [ofNat_eq hc, UInt8.reduceToNat]
      split <;> simp only [UInt8.reduceToNat] <;> omega
  rw [if_neg h3]
  have hc : v / 262144 % 8 + 0xf0 < 256 := by omega
  have hb : v / 4096 % 64 + 0x80 < 256 := by omega
  have hlead : (0xf0 : UInt8) ≤ UInt8.ofNat (v / 262144 % 8 + 0xf0) ∧
      UInt8.ofNat (v / 262144 % 8 + 0xf0) ≤ 0xf4 := by
    rw [ofNat_le hc, le_ofNat hc]
    simp only [UInt8.reduceToNat]
    omega
  refine ⟨_, _, rfl, ⟨_, _, _, leadInfo_four hlead, _, _, rfl, ?_, ?_, _, _, rfl,
    (tail_ok (v / 64)).1, (tail_ok (v / 64)).2, _, _, rfl, (tail_ok v).1, (tail_ok v).2, rfl⟩,
    UInt8.le_trans (by decide) hlead.1⟩
  · rw [ofNat_le hb]
    simp only [ofNat_eq hc, UInt8.reduceToNat]
    split <;> simp only [UInt8.reduceToNat] <;> omega
  · rw [le_ofNat hb]
    simp only [ofNat_eq hc, UInt8.reduceToNat]
    split <;> simp only [UInt8.reduceToNat] <;> omega

/-- An ASCII byte is a code point by itself. -/
theorem exists_ascii {b : UInt8} (h : b < 0x80) : ∃ ch : Char, String.utf8EncodeChar ch = [b] := by
  have hb : b.toNat < 0x80 := UInt8.lt_iff_toNat_lt.mp h
  obtain ⟨ch, hv⟩ := exists_char (v := b.toNat) (by omega)
  refine ⟨ch, ?_⟩
  unfold String.utf8EncodeChar
  rw [if_pos (by omega), hv, UInt8.ofNat_toNat]

/-- A code point is an ASCII byte, or a lead byte and what it asks for. -/
theorem utf8_head (ch : Char) :
    (∃ b, b < 0x80 ∧ String.utf8EncodeChar ch = [b]) ∨
      0x80 ≤ ch.val.toNat ∧ ∃ c cs, String.utf8EncodeChar ch = c :: cs ∧ Coded c cs ∧ 0x80 ≤ c := by
  by_cases hc : 0x80 ≤ ch.val.toNat
  · exact .inr ⟨hc, lead_of_utf8 ch hc⟩
  · refine .inl ⟨UInt8.ofNat ch.val.toNat, ?_, ?_⟩
    · rw [UInt8.lt_iff_toNat_lt, ofNat_toNat (by omega)]
      simp only [UInt8.reduceToNat]
      omega
    · unfold String.utf8EncodeChar
      rw [if_pos (by omega)]

/-! ## Strings -/

theorem hexP_iff : ∀ (k value : Nat) (raw : Bytes) (f f' : Flat) (r : Nat × Bytes),
    hexP k value raw f = some (r, f') ↔ ∃ digits, digits.length = k ∧
      hexNumber value digits = some r.1 ∧ r.2 = raw ++ digits ∧
      f = { rest := digits ++ f'.rest, compact := f'.compact }
  | 0, value, raw, f, f', r => by
    constructor
    · intro h
      cases h
      exact ⟨[], rfl, rfl, (List.append_nil _).symm, rfl⟩
    · rintro ⟨digits, hlen, hv, hr, rfl⟩
      rw [List.length_eq_zero_iff.mp hlen] at hv hr ⊢
      obtain ⟨v, w⟩ := r
      cases hv
      rw [List.append_nil] at hr
      cases hr
      rfl
  | k + 1, value, raw, f, f', r => by
    constructor
    · intro h
      obtain ⟨c, f1, h1, h⟩ := bind_eq_some.mp h
      cases hc : hexValue c with
      | none => rw [hc] at h; cases h
      | some digit =>
        rw [hc] at h
        obtain ⟨digits, hlen, hv, hr, rfl⟩ := (hexP_iff k _ _ _ _ _).mp h
        refine ⟨c :: digits, by rw [List.length_cons, hlen], ?_, ?_, takeP_some h1⟩
        · rw [hexNumber, hc]
          exact hv
        · rw [hr, List.append_assoc]
          rfl
    · rintro ⟨digits, hlen, hv, hr, rfl⟩
      cases digits with
      | nil => cases hlen
      | cons c digits =>
        have h1 : takeP { rest := c :: digits ++ f'.rest, compact := f'.compact } =
            some (c, { rest := digits ++ f'.rest, compact := f'.compact }) := rfl
        rw [hexP, bind_eq h1]
        rw [hexNumber] at hv
        cases hc : hexValue c with
        | none => rw [hc] at hv; cases hv
        | some digit =>
          rw [hc] at hv
          refine (hexP_iff k _ _ _ _ _).mpr ⟨digits, Nat.succ.inj hlen, hv, ?_, rfl⟩
          rw [hr, List.append_assoc]
          rfl

theorem hexP_four {f f' : Flat} {value : Nat} {digits : Bytes} :
    hexP 4 0 [] f = some ((value, digits), f') ↔ Hex4 digits value ∧
      f = { rest := digits ++ f'.rest, compact := f'.compact } := by
  rw [hexP_iff]
  constructor
  · rintro ⟨ds, hlen, hv, rfl, hf⟩
    exact ⟨⟨hlen, hv⟩, hf⟩
  · rintro ⟨⟨hlen, hv⟩, hf⟩
    exact ⟨digits, hlen, hv, rfl, hf⟩

theorem expectP_eq_some {c : UInt8} {f f' : Flat} {u : Unit} (h : expectP c f = some (u, f')) :
    f = { rest := c :: f'.rest, compact := f'.compact } := by
  obtain ⟨d, f1, h1, h⟩ := bind_eq_some.mp h
  split at h
  · cases h
  next hd =>
  cases h
  rw [← not_not.mp hd]
  exact takeP_some h1

theorem expectP_cons (c : UInt8) (rest : Bytes) (compact : Bool) :
    expectP c { rest := c :: rest, compact } = some ((), { rest, compact }) :=
  expectP_some rfl

theorem escapeP_sound {f f' : Flat} {p : Piece} (h : escapeP f = some (p, f')) :
    p.Ok ∧ ∃ raw text, p = .coded (chBackslash :: raw) text ∧
      f = { rest := raw ++ f'.rest, compact := f'.compact } := by
  obtain ⟨next, f1, h1, h⟩ := bind_eq_some.mp h
  have hf := takeP_some h1
  split at h
  · next hs =>
    cases h
    exact ⟨.short hs, [next], _, rfl, hf⟩
  split at h
  · cases h
  next hu =>
  cases not_not.mp hu
  obtain ⟨⟨unicode, raw⟩, f2, h2, h⟩ := bind_eq_some.mp h
  obtain ⟨hhex, e2⟩ := hexP_four.mp h2
  rw [e2] at hf
  dsimp only at h
  split at h
  · cases h
  next hnlow =>
  split at h
  · next hout =>
    cases h
    refine ⟨.unicode hhex (by omega), chU :: raw, _, rfl, hf⟩
  next hin =>
  obtain ⟨_, f3, h3, h⟩ := bind_eq_some.mp h
  obtain ⟨_, f4, h4, h⟩ := bind_eq_some.mp h
  obtain ⟨⟨low, lowRaw⟩, f5, h5, h⟩ := bind_eq_some.mp h
  obtain ⟨hlow, e5⟩ := hexP_four.mp h5
  dsimp only at h
  split at h
  · cases h
  next hlo =>
  cases h
  refine ⟨.pair hhex hlow (by omega) (by omega), chU :: (raw ++ [chBackslash, chU] ++ lowRaw), _, rfl, ?_⟩
  rw [hf, expectP_eq_some h3, expectP_eq_some h4, e5]
  simp

theorem codedP_sound {c : UInt8} {f f' : Flat} {p : Piece} (h : codedP c f = some (p, f')) :
    p.Ok ∧ ∃ raw text, p = .coded (c :: raw) text ∧
      f = { rest := raw ++ f'.rest, compact := f'.compact } := by
  unfold codedP at h
  split at h
  · cases h
  split at h
  · next hb =>
    rw [hb]
    exact escapeP_sound h
  cases hlead : leadInfo c with
  | none => rw [hlead] at h; cases h
  | some info =>
    obtain ⟨k, lo, hi⟩ := info
    rw [hlead] at h
    obtain ⟨cs, f1, h1, h⟩ := bind_eq_some.mp h
    obtain ⟨hf, hcs⟩ := (continuationP_iff _ _ _ _ _ _).mp h1
    cases h
    obtain ⟨ch, hch, htext⟩ := utf8_of_lead ⟨k, lo, hi, hlead, hcs⟩
    rw [← htext]
    exact ⟨.utf8 ch hch, cs, c :: cs, by rw [htext], hf⟩

/-- What a string parses to is a string that may be written so. -/
theorem piecesP_sound : ∀ (n : Nat) (f f' : Flat) (s : Str), piecesP n f = some (s, f') →
    s.Ok ∧ f = { rest := s.raw ++ chQuote :: f'.rest, compact := f'.compact }
  | 0, _, _, _, h => by cases h
  | n + 1, f, f', s, h => by
    obtain ⟨c, f1, h1, h⟩ := bind_eq_some.mp h
    have hf := takeP_some h1
    split at h
    · next hc =>
      obtain ⟨rest, f2, h2, h⟩ := bind_eq_some.mp h
      obtain ⟨hok, e2⟩ := piecesP_sound n _ _ _ h2
      cases h
      refine ⟨List.forall_mem_cons.mpr ⟨.plain hc, hok⟩, ?_⟩
      rw [hf, e2]
      simp [Str.raw, Piece.raw]
    split at h
    · next hq =>
      cases h
      refine ⟨List.forall_mem_nil _, ?_⟩
      rw [hf, hq]
      rfl
    · obtain ⟨p, f2, h2, h⟩ := bind_eq_some.mp h
      obtain ⟨rest, f3, h3, h⟩ := bind_eq_some.mp h
      obtain ⟨hok, e3⟩ := piecesP_sound n _ _ _ h3
      obtain ⟨hp, raw, text, ep, e2⟩ := codedP_sound h2
      cases h
      refine ⟨List.forall_mem_cons.mpr ⟨hp, hok⟩, ?_⟩
      rw [hf, e2, e3, ep]
      simp [Str.raw, Piece.raw]

theorem stringP_sound {f f' : Flat} {s : Str} (h : stringP f = some (s, f')) :
    s.Ok ∧ f = { rest := s.quoted ++ f'.rest, compact := f'.compact } := by
  obtain ⟨_, f1, h1, h⟩ := bind_eq_some.mp h
  obtain ⟨hok, e1⟩ := piecesP_sound _ _ _ _ h
  refine ⟨hok, ?_⟩
  rw [expectP_eq_some h1, e1]
  simp [Str.quoted]

/-! ### Every string that may be written is read -/

theorem hex4_raw {digits : Bytes} {value : Nat} (h : Hex4 digits value) (rest : Bytes)
    (compact : Bool) :
    hexP 4 0 [] { rest := digits ++ rest, compact } = some ((value, digits), { rest, compact }) :=
  hexP_four.mpr ⟨h, rfl⟩

theorem not_shortEscape_u : isShortEscape chU = false := by decide

theorem codedP_complete {p : Piece} (hp : p.Ok) :
    (∃ c, p = .plain c ∧ isPlain c = true) ∨
    ∃ c raw text, p = .coded (c :: raw) text ∧ isPlain c = false ∧ c ≠ chQuote ∧
      ∀ rest compact, codedP c { rest := raw ++ rest, compact } = some (p, { rest, compact }) := by
  have hslash : ∀ f, codedP chBackslash f = escapeP f := fun f => rfl
  have htake : ∀ (c : UInt8) rest compact, takeP { rest := c :: rest, compact } =
      some (c, { rest, compact }) := fun _ _ _ => rfl
  cases hp with
  | plain h => exact .inl ⟨_, rfl, h⟩
  | utf8 ch h =>
    obtain ⟨c, cs, htext, ⟨k, lo, hi, hlead, hcs⟩, hc⟩ := lead_of_utf8 ch h
    rw [htext]
    have hc : 128 ≤ c.toNat := UInt8.le_iff_toNat_le.mp hc
    have hq : c ≠ chQuote := by rintro rfl; exact absurd hc (by decide)
    have hb : c ≠ chBackslash := by rintro rfl; exact absurd hc (by decide)
    have hlt : ¬ c < 0x20 := by
      intro h
      have h : c.toNat < 32 := UInt8.lt_iff_toNat_lt.mp h
      omega
    have hplain : isPlain c = false := by
      have hge : ¬ c < 0x80 := fun h => Nat.not_lt.mpr hc (UInt8.lt_iff_toNat_lt.mp h)
      simp [isPlain, hge]
    refine .inr ⟨c, cs, c :: cs, rfl, hplain, hq, fun rest compact => ?_⟩
    have h1 := (continuationP_iff k lo hi { rest := cs ++ rest, compact } { rest, compact } cs).mpr
      ⟨rfl, hcs⟩
    rw [codedP, if_neg hlt, if_neg hb, hlead]
    exact (bind_eq h1).trans rfl
  | short h =>
    refine .inr ⟨chBackslash, [_], _, rfl, by decide, by decide, fun rest compact => ?_⟩
    rw [hslash, escapeP, List.singleton_append, bind_eq (htake _ _ _), if_pos h]
    rfl
  | @unicode digits value h hv =>
    refine .inr ⟨chBackslash, chU :: digits, _, rfl, by decide, by decide, fun rest compact => ?_⟩
    rw [hslash, escapeP, List.cons_append, bind_eq (htake _ _ _), not_shortEscape_u, if_neg (by simp),
      if_neg (by simp), bind_eq (hex4_raw h rest compact)]
    dsimp only
    rw [if_neg (by omega), if_pos (by omega)]
    rfl
  | @pair high low hi lo hh hl hhi hlo =>
    have hraw : [chBackslash, chU] ++ high ++ [chBackslash, chU] ++ low =
        chBackslash :: chU :: (high ++ chBackslash :: chU :: low) := by simp
    rw [hraw]
    refine .inr ⟨chBackslash, chU :: (high ++ chBackslash :: chU :: low), _, rfl, by decide,
      by decide, fun rest compact => ?_⟩
    rw [hslash, escapeP, List.cons_append, bind_eq (htake _ _ _), not_shortEscape_u, if_neg (by simp),
      if_neg (by simp), List.append_assoc, bind_eq (hex4_raw hh _ compact)]
    dsimp only
    have h1 : expectP chBackslash { rest := chBackslash :: chU :: low ++ rest, compact } =
        some ((), { rest := chU :: (low ++ rest), compact }) := expectP_cons _ _ _
    rw [if_neg (by omega), if_neg (by omega), bind_eq h1, bind_eq (expectP_cons _ _ _),
      bind_eq (hex4_raw hl rest compact)]
    dsimp only
    rw [if_neg (by omega), ← hraw]
    rfl

theorem piecesP_complete : ∀ (s : Str) (n : Nat) (rest : Bytes) (compact : Bool), s.Ok →
    s.length < n → piecesP n { rest := s.raw ++ chQuote :: rest, compact } =
      some (s, { rest, compact })
  | _, 0, _, _, _, hn => absurd hn (Nat.not_lt_zero _)
  | [], n + 1, rest, compact, _, _ => rfl
  | p :: s, n + 1, rest, compact, hok, hn => by
    obtain ⟨hp, hs⟩ := List.forall_mem_cons.mp hok
    have ih := piecesP_complete s n rest compact hs (Nat.lt_of_succ_lt_succ hn)
    rcases codedP_complete hp with ⟨c, rfl, hc⟩ | ⟨c, raw, text, rfl, hc, hq, hcoded⟩
    · have h1 : takeP { rest := Str.raw (.plain c :: s) ++ chQuote :: rest, compact } =
          some (c, { rest := Str.raw s ++ chQuote :: rest, compact }) := rfl
      rw [piecesP, bind_eq h1, if_pos hc, bind_eq ih]
      rfl
    · have h1 : takeP { rest := Str.raw (.coded (c :: raw) text :: s) ++ chQuote :: rest, compact } =
          some (c, { rest := raw ++ (Str.raw s ++ chQuote :: rest), compact }) := by
        simp [Str.raw, Piece.raw, takeP]
      rw [piecesP, bind_eq h1, if_neg (by rw [hc]; simp), if_neg hq, bind_eq (hcoded _ _), bind_eq ih]
      rfl

theorem raw_length {s : Str} (hok : s.Ok) : s.length ≤ s.raw.length := by
  induction s with
  | nil => exact Nat.zero_le _
  | cons p s ih =>
    obtain ⟨hp, hs⟩ := List.forall_mem_cons.mp hok
    have ih := ih hs
    have hone : 1 ≤ p.raw.length := by
      rcases codedP_complete hp with ⟨c, rfl, -⟩ | ⟨c, raw, text, rfl, -⟩
      · exact Nat.le_refl _
      · simp [Piece.raw]
    have : (Str.raw (p :: s)).length = p.raw.length + (Str.raw s).length := by simp [Str.raw]
    rw [List.length_cons, this]
    omega

theorem stringP_complete {s : Str} (hok : s.Ok) (rest : Bytes) (compact : Bool) :
    stringP { rest := s.quoted ++ rest, compact } = some (s, { rest, compact }) := by
  have h1 : expectP chQuote { rest := s.quoted ++ rest, compact } =
      some ((), { rest := s.raw ++ chQuote :: rest, compact }) := expectP_some (by simp [Str.quoted])
  have hlen := raw_length hok
  rw [stringP, bind_eq h1, bind_eq (get_apply _)]
  refine piecesP_complete s _ rest compact hok ?_
  rw [List.length_append, List.length_cons]
  omega

/-! ## Numbers -/

/-- The parser answers with the bytes it took. -/
def Spells (p : P Bytes) : Prop :=
  ∀ f a f', p f = some (a, f') → f = { rest := a ++ f'.rest, compact := f'.compact }

theorem digitsP_spells : Spells digitsP := by
  intro f a f' h
  cases h
  simp [List.takeWhile_append_dropWhile]

theorem digits1P_spells : Spells digits1P := by
  intro f a f' h
  obtain ⟨v, f1, h1, h⟩ := bind_eq_some.mp h
  cases h1
  cases hc : f.rest.head? with
  | none => rw [hc] at h; cases h
  | some c =>
    rw [hc] at h
    dsimp only at h
    split at h
    · exact digitsP_spells _ _ _ h
    · cases h

theorem signP_spells : Spells signP := by
  intro f a f' h
  obtain ⟨v, f1, h1, h⟩ := bind_eq_some.mp h
  cases h1
  split at h
  · next hc =>
    obtain ⟨c, f2, h2, h⟩ := bind_eq_some.mp h
    have hf := takeP_some h2
    cases h
    rw [hf] at hc ⊢
    cases hc
    rfl
  · cases h
    rfl

theorem integerP_spells : Spells integerP := by
  intro f a f' h
  obtain ⟨v, f1, h1, h⟩ := bind_eq_some.mp h
  cases h1
  cases hc : f.rest.head? with
  | none => rw [hc] at h; cases h
  | some c =>
    rw [hc] at h
    dsimp only at h
    split at h
    · obtain ⟨d, f2, h2, h⟩ := bind_eq_some.mp h
      have hf := takeP_some h2
      cases h
      rw [hf] at hc ⊢
      cases hc
      rfl
    split at h
    · exact digitsP_spells _ _ _ h
    · cases h

theorem fractionP_spells : Spells fractionP := by
  intro f a f' h
  obtain ⟨v, f1, h1, h⟩ := bind_eq_some.mp h
  cases h1
  split at h
  · next hc =>
    obtain ⟨c, f2, h2, h⟩ := bind_eq_some.mp h
    obtain ⟨digits, f3, h3, h⟩ := bind_eq_some.mp h
    have hf := takeP_some h2
    have hd := digits1P_spells _ _ _ h3
    cases h
    rw [hf] at hc ⊢
    cases hc
    rw [hd]
    rfl
  · cases h
    rfl

theorem exponentSignP_spells : Spells exponentSignP := by
  intro f a f' h
  obtain ⟨v, f1, h1, h⟩ := bind_eq_some.mp h
  cases h1
  cases hc : f.rest.head? with
  | none =>
    rw [hc] at h
    cases h
    rfl
  | some c =>
    rw [hc] at h
    dsimp only at h
    split at h
    · obtain ⟨d, f2, h2, h⟩ := bind_eq_some.mp h
      have hf := takeP_some h2
      cases h
      rw [hf] at hc ⊢
      cases hc
      rfl
    · cases h
      rfl

theorem exponentP_spells : Spells exponentP := by
  intro f a f' h
  obtain ⟨v, f1, h1, h⟩ := bind_eq_some.mp h
  cases h1
  cases hc : f.rest.head? with
  | none =>
    rw [hc] at h
    cases h
    rfl
  | some c =>
    rw [hc] at h
    dsimp only at h
    split at h
    · obtain ⟨d, f2, h2, h⟩ := bind_eq_some.mp h
      obtain ⟨sign, f3, h3, h⟩ := bind_eq_some.mp h
      obtain ⟨digits, f4, h4, h⟩ := bind_eq_some.mp h
      have hf := takeP_some h2
      have hs := exponentSignP_spells _ _ _ h3
      have hd := digits1P_spells _ _ _ h4
      cases h
      rw [hf] at hc ⊢
      cases hc
      rw [hs, hd]
      simp
    · cases h
      rfl

theorem numberP_sound {f f' : Flat} {token : Bytes} (h : numberP f = some (token, f')) :
    NumberToken token ∧ f = { rest := token ++ f'.rest, compact := f'.compact } := by
  refine ⟨numberP_parts h, ?_⟩
  obtain ⟨sign, f1, h1, h⟩ := bind_eq_some.mp h
  obtain ⟨int, f2, h2, h⟩ := bind_eq_some.mp h
  obtain ⟨fraction, f3, h3, h⟩ := bind_eq_some.mp h
  obtain ⟨exponent, f4, h4, h⟩ := bind_eq_some.mp h
  cases h
  rw [signP_spells _ _ _ h1, integerP_spells _ _ _ h2, fractionP_spells _ _ _ h3,
    exponentP_spells _ _ _ h4]
  simp

/-- No byte of a number: what may stand behind one. -/
def Stops (rest : Bytes) : Prop :=
  ∀ c, rest.head? = some c → isDigit c = false ∧ c ≠ chDot ∧ c ≠ chLowerE ∧ c ≠ chUpperE

theorem peek_bind {α : Type} (q : Option UInt8 → P α) (f : Flat) :
    (peekP >>= q) f = q f.rest.head? f := rfl

theorem take_bind {α : Type} (q : UInt8 → P α) (c : UInt8) (rest : Bytes) (compact : Bool) :
    (takeP >>= q) { rest := c :: rest, compact } = q c { rest, compact } := rfl

theorem digitsP_complete {digits rest : Bytes} (hd : ∀ d ∈ digits, isDigit d = true)
    (hs : ∀ c, rest.head? = some c → isDigit c = false) (compact : Bool) :
    digitsP { rest := digits ++ rest, compact } = some (digits, { rest, compact }) := by
  obtain ⟨h1, h2⟩ := takeWhile_append_stop hd hs
  simp [digitsP, h1, h2]

theorem digits1P_complete {digits rest : Bytes} (hne : digits ≠ [])
    (hd : ∀ d ∈ digits, isDigit d = true)
    (hs : ∀ c, rest.head? = some c → isDigit c = false) (compact : Bool) :
    digits1P { rest := digits ++ rest, compact } = some (digits, { rest, compact }) := by
  cases digits with
  | nil => exact absurd rfl hne
  | cons d digits =>
    rw [digits1P, peek_bind]
    show (if isDigit d = true then digitsP else failure) _ = _
    rw [if_pos (hd d List.mem_cons_self)]
    exact digitsP_complete hd hs compact

theorem signP_complete {sign rest : Bytes} (h : sign = [] ∨ sign = [chMinus])
    (hr : rest.head? ≠ some chMinus) (compact : Bool) :
    signP { rest := sign ++ rest, compact } = some (sign, { rest, compact }) := by
  rcases h with rfl | rfl
  · rw [signP, peek_bind]
    exact congrFun (if_neg hr) _
  · rfl

theorem integerP_complete {int rest : Bytes}
    (h : int = [chZero] ∨ ∃ c ds, int = c :: ds ∧ isDigit19 c = true ∧ ∀ d ∈ ds, isDigit d = true)
    (hs : ∀ c, rest.head? = some c → isDigit c = false) (compact : Bool) :
    integerP { rest := int ++ rest, compact } = some (int, { rest, compact }) := by
  rcases h with rfl | ⟨c, ds, rfl, hc, hds⟩
  · rfl
  · have hz : c ≠ chZero := by rintro rfl; exact absurd hc (by decide)
    rw [integerP, peek_bind]
    show (if c = chZero then (do let _ ← takeP; return [c])
      else if isDigit19 c = true then digitsP else failure) _ = _
    rw [if_neg hz, if_pos hc]
    refine digitsP_complete (fun d hd => ?_) hs compact
    rcases List.mem_cons.mp hd with rfl | hd
    · exact isDigit_of_isDigit19 hc
    · exact hds d hd

theorem fractionP_complete {fraction rest : Bytes}
    (h : fraction = [] ∨ ∃ digits, fraction = chDot :: digits ∧ digits ≠ [] ∧
      ∀ d ∈ digits, isDigit d = true)
    (hdot : rest.head? ≠ some chDot) (hs : ∀ c, rest.head? = some c → isDigit c = false)
    (compact : Bool) :
    fractionP { rest := fraction ++ rest, compact } = some (fraction, { rest, compact }) := by
  rcases h with rfl | ⟨digits, rfl, hne, hd⟩
  · rw [fractionP, peek_bind]
    exact congrFun (if_neg hdot) _
  · rw [fractionP, peek_bind]
    refine (congrFun (if_pos (show List.head? (chDot :: digits ++ rest) = some chDot from rfl))
      _).trans ?_
    rw [List.cons_append, take_bind, bind_eq (digits1P_complete hne hd hs compact)]
    rfl

theorem exponentSignP_complete {sign rest : Bytes}
    (h : sign = [] ∨ sign = [chPlus] ∨ sign = [chMinus])
    (hr : ∀ c, rest.head? = some c → isDigit c = true) (compact : Bool) :
    exponentSignP { rest := sign ++ rest, compact } = some (sign, { rest, compact }) := by
  rcases h with rfl | rfl | rfl
  · cases rest with
    | nil => rfl
    | cons c rest =>
      have hc := hr c rfl
      have hsign : ¬ (c = chPlus ∨ c = chMinus) := by
        rintro (rfl | rfl) <;> exact absurd hc (by decide)
      rw [exponentSignP, peek_bind]
      show (if c = chPlus ∨ c = chMinus then (do let _ ← takeP; return [c]) else return []) _ = _
      rw [if_neg hsign]
      rfl
  · rfl
  · rfl

theorem exponentP_complete {exponent rest : Bytes}
    (h : exponent = [] ∨ ∃ e sign digits, exponent = e :: (sign ++ digits) ∧
      (e = chLowerE ∨ e = chUpperE) ∧ (sign = [] ∨ sign = [chPlus] ∨ sign = [chMinus]) ∧
      digits ≠ [] ∧ ∀ d ∈ digits, isDigit d = true)
    (hs : Stops rest) (compact : Bool) :
    exponentP { rest := exponent ++ rest, compact } = some (exponent, { rest, compact }) := by
  rcases h with rfl | ⟨e, sign, digits, rfl, he, hsign, hne, hd⟩
  · cases rest with
    | nil => rfl
    | cons c rest =>
      obtain ⟨-, -, h1, h2⟩ := hs c rfl
      rw [exponentP, peek_bind]
      show (if c = chLowerE ∨ c = chUpperE then _ else _ : P Bytes) _ = _
      rw [if_neg (by rintro (h | h); exacts [h1 h, h2 h])]
      rfl
  · have hfirst : ∀ c, (digits ++ rest).head? = some c → isDigit c = true := by
      cases digits with
      | nil => exact absurd rfl hne
      | cons d digits =>
        intro c hc
        cases hc
        exact hd d List.mem_cons_self
    rw [exponentP, peek_bind]
    show (if e = chLowerE ∨ e = chUpperE then _ else _ : P Bytes) _ = _
    rw [if_pos he, List.cons_append, take_bind, List.append_assoc,
      bind_eq (exponentSignP_complete hsign hfirst compact),
      bind_eq (digits1P_complete hne hd (fun c hc => (hs c hc).1) compact)]
    rfl

/-- A number that may be written is read up to the first byte that cannot belong to it. -/
theorem numberP_complete {token rest : Bytes} (h : NumberToken token) (hs : Stops rest)
    (compact : Bool) :
    numberP { rest := token ++ rest, compact } = some (token, { rest, compact }) := by
  obtain ⟨sign, int, fraction, exponent, rfl, hp⟩ := h
  have hexp : ∀ c, (exponent ++ rest).head? = some c → isDigit c = false ∧ c ≠ chDot := by
    intro c hc
    rcases hp.exponent with rfl | ⟨e, sg, ds, rfl, he, -⟩
    · exact ⟨(hs c hc).1, (hs c hc).2.1⟩
    · cases hc
      rcases he with rfl | rfl <;> exact ⟨by decide, by decide⟩
  have hfrac : ∀ c, (fraction ++ (exponent ++ rest)).head? = some c → isDigit c = false := by
    intro c hc
    rcases hp.fraction with rfl | ⟨ds, rfl, -⟩
    · exact (hexp c hc).1
    · cases hc
      decide
  have hint : (int ++ (fraction ++ (exponent ++ rest))).head? ≠ some chMinus := by
    rcases hp.int with rfl | ⟨c, ds, rfl, hc, -⟩
    · intro h
      exact absurd (Option.some.inj h) (by decide)
    · intro h
      cases h
      exact absurd hc (by decide)
  rw [numberP, List.append_assoc, List.append_assoc, List.append_assoc,
    bind_eq (signP_complete hp.sign hint compact), bind_eq (integerP_complete hp.int hfrac compact),
    bind_eq (fractionP_complete hp.fraction (fun h => (hexp _ h).2 rfl) (fun c h => (hexp c h).1) compact),
    bind_eq (exponentP_complete hp.exponent hs compact)]
  simp

end Lql.Json
