import Lql.Json.Grammar
import Lql.Utf8

/-!
# The incremental validator of UTF-8

`lql_flat_eq_utf8_accept` takes the bytes of a text one at a time and keeps how many more the current character needs
and between what bounds the next of them lies. The texts that it takes and that leave it waiting for nothing are the
UTF-8 of characters.
-/

namespace Lql.Json

open Lql.Scan (leadInfo unicodeBytes)
open Lql.Unicode (utf8)

/-- `lql_flat_eq_utf8_state` -/
structure Utf8State where
  remaining : Nat := 0
  minNext : UInt8 := 0
  maxNext : UInt8 := 0
  deriving DecidableEq, Repr

/-- `lql_flat_eq_utf8_accept` -/
def utf8Accept (state : Utf8State) (ch : UInt8) : Option Utf8State :=
  if state.remaining = 0 then
    if ch ≤ 0x7f then some state
    else if 0xc2 ≤ ch ∧ ch ≤ 0xdf then some ⟨1, 0x80, 0xbf⟩
    else if ch = 0xe0 then some ⟨2, 0xa0, 0xbf⟩
    else if (0xe1 ≤ ch ∧ ch ≤ 0xec) ∨ (0xee ≤ ch ∧ ch ≤ 0xef) then some ⟨2, 0x80, 0xbf⟩
    else if ch = 0xed then some ⟨2, 0x80, 0x9f⟩
    else if ch = 0xf0 then some ⟨3, 0x90, 0xbf⟩
    else if 0xf1 ≤ ch ∧ ch ≤ 0xf3 then some ⟨3, 0x80, 0xbf⟩
    else if ch = 0xf4 then some ⟨3, 0x80, 0x8f⟩
    else none
  else if ch < state.minNext ∨ state.maxNext < ch then none
  else some ⟨state.remaining - 1, 0x80, 0xbf⟩

/-- The bytes of a text, one after the other. -/
def utf8AcceptAll (state : Utf8State) (text : Bytes) : Option Utf8State := text.foldlM utf8Accept state

theorem utf8AcceptAll_cons (state : Utf8State) (ch : UInt8) (text : Bytes) :
    utf8AcceptAll state (ch :: text) = (utf8Accept state ch).bind fun s => utf8AcceptAll s text := rfl

theorem utf8AcceptAll_append (state : Utf8State) (a b : Bytes) :
    utf8AcceptAll state (a ++ b) = (utf8AcceptAll state a).bind fun s => utf8AcceptAll s b := List.foldlM_append

/-- From this state the validator takes the text, and waits for nothing behind it. -/
def AcceptsFrom (state : Utf8State) (text : Bytes) : Prop := ∃ s, utf8AcceptAll state text = some s ∧ s.remaining = 0

/-- The text has no NUL and is the UTF-8 of characters. -/
def IsText (text : Bytes) : Prop := 0 ∉ text ∧ ∃ cs, text = utf8 cs

/-- The scanner and the library write a code point in the same bytes. -/
theorem unicodeBytes_eq {v : Nat} (hv : v < 0xd800 ∨ 0xdfff < v ∧ v < 0x110000) :
    unicodeBytes v = Unicode.utf8Encode v := by
  rw [Unicode.utf8Encode, if_neg (by omega), unicodeBytes]
  by_cases h1 : v < 0x80
  · rw [if_pos (by omega), if_pos h1]
  rw [if_neg (by omega), if_neg h1]
  by_cases h2 : v < 0x800
  · rw [if_pos (by omega), if_pos h2]
  rw [if_neg (by omega), if_neg h2]
  by_cases h3 : v < 0x10000
  · rw [if_pos (by omega), if_pos h3]
  · rw [if_neg (by omega), if_neg h3]

/-- An ASCII byte is a character by itself. -/
theorem utf8Accept_ascii {state : Utf8State} {ch : UInt8} (h : state.remaining = 0) (hch : ch ≤ 0x7f) :
    utf8Accept state ch = some state := by
  rw [utf8Accept, if_pos h, if_pos hch]

theorem utf8Accept_start : ∀ n < 256, ¬ UInt8.ofNat n ≤ 0x7f →
    utf8Accept {} (UInt8.ofNat n) = (leadInfo (UInt8.ofNat n)).map fun r => ⟨r.1, r.2.1, r.2.2⟩ := by
  decide +kernel

/-- Behind a lead byte the validator waits for what the scanner waits for. -/
theorem utf8Accept_lead {state : Utf8State} {ch : UInt8} (h : state.remaining = 0) (hch : ¬ ch ≤ 0x7f) :
    utf8Accept state ch = (leadInfo ch).map fun r => ⟨r.1, r.2.1, r.2.2⟩ := by
  have hstart := utf8Accept_start ch.toNat ch.toNat_lt
  rw [UInt8.ofNat_toNat] at hstart
  rw [← hstart hch, utf8Accept, utf8Accept, if_pos h, if_pos rfl, if_neg hch, if_neg hch]

theorem utf8Accept_next {state : Utf8State} {ch : UInt8} (h : state.remaining ≠ 0) :
    utf8Accept state ch =
      if state.minNext ≤ ch ∧ ch ≤ state.maxNext then some ⟨state.remaining - 1, 0x80, 0xbf⟩ else none := by
  have hrange : (ch < state.minNext ∨ state.maxNext < ch) ↔ ¬ (state.minNext ≤ ch ∧ ch ≤ state.maxNext) := by
    simp only [UInt8.lt_iff_toNat_lt, UInt8.le_iff_toNat_le]
    omega
  rw [utf8Accept, if_neg h]
  by_cases hin : state.minNext ≤ ch ∧ ch ≤ state.maxNext
  · rw [if_pos hin, if_neg (fun hout => hrange.mp hout hin)]
  · rw [if_neg hin, if_pos (hrange.mpr hin)]

/-- The bytes that are waited for are taken. -/
theorem accepts_continues : ∀ {k : Nat} {lo hi : UInt8} {cs : Bytes}, Continues k lo hi cs →
    AcceptsFrom ⟨k, lo, hi⟩ cs
  | 0, lo, hi, cs, h => ⟨⟨0, lo, hi⟩, by rw [h]; rfl, rfl⟩
  | k + 1, lo, hi, cs, h => by
    obtain ⟨c, rest, rfl, hlo, hhi, hrest⟩ := h
    obtain ⟨s, hs, hzero⟩ := accepts_continues hrest
    refine ⟨s, ?_, hzero⟩
    rw [utf8AcceptAll_cons, utf8Accept_next (Nat.succ_ne_zero k), if_pos ⟨hlo, hhi⟩]
    exact hs

/-- What is taken from a state that waits begins with what is waited for. -/
theorem continues_of_accepts : ∀ {k : Nat} {lo hi : UInt8} {text : Bytes}, AcceptsFrom ⟨k, lo, hi⟩ text →
    ∃ cs rest s, text = cs ++ rest ∧ Continues k lo hi cs ∧ s.remaining = 0 ∧ AcceptsFrom s rest
  | 0, lo, hi, text, h => ⟨[], text, ⟨0, lo, hi⟩, rfl, rfl, rfl, h⟩
  | k + 1, lo, hi, [], ⟨s, hs, hzero⟩ => by
    obtain rfl := Option.some.inj hs
    exact absurd hzero (Nat.succ_ne_zero k)
  | k + 1, lo, hi, c :: text, ⟨s, hs, hzero⟩ => by
    rw [utf8AcceptAll_cons, utf8Accept_next (Nat.succ_ne_zero k)] at hs
    by_cases hin : lo ≤ c ∧ c ≤ hi
    · rw [if_pos hin] at hs
      obtain ⟨cs, rest, s', htext, hcs, hzero', hrest⟩ := continues_of_accepts (k := k) ⟨s, hs, hzero⟩
      exact ⟨c :: cs, rest, s', by rw [htext, List.cons_append], ⟨c, cs, rfl, hin.1, hin.2, hcs⟩, hzero', hrest⟩
    · rw [if_neg hin] at hs
      cases hs

/-- A character is taken. -/
theorem accepts_char {state : Utf8State} (h : state.remaining = 0) (c : Char) :
    AcceptsFrom state (String.utf8EncodeChar c) := by
  rcases utf8_head c with ⟨b, hb, htext⟩ | ⟨-, lead, cs, htext, ⟨k, lo, hi, hlead, hcs⟩, hhigh⟩
  · refine ⟨state, ?_, h⟩
    have hle : b ≤ 0x7f := by
      rw [UInt8.lt_iff_toNat_lt] at hb
      exact UInt8.le_iff_toNat_le.mpr (Nat.le_of_lt_succ hb)
    rw [htext, utf8AcceptAll_cons, utf8Accept_ascii h hle]
    rfl
  · have hge : ¬ lead ≤ 0x7f := by
      simp only [UInt8.le_iff_toNat_le, UInt8.reduceToNat] at hhigh ⊢
      omega
    obtain ⟨s, hs, hzero⟩ := accepts_continues hcs
    refine ⟨s, ?_, hzero⟩
    rw [htext, utf8AcceptAll_cons, utf8Accept_lead h hge, hlead]
    exact hs

/-- The UTF-8 of characters is taken. -/
theorem accepts_utf8 : ∀ (cs : List Char) {state : Utf8State}, state.remaining = 0 → AcceptsFrom state (utf8 cs)
  | [], state, h => ⟨state, rfl, h⟩
  | c :: cs, state, h => by
    obtain ⟨s, hs, hzero⟩ := accepts_char h c
    obtain ⟨t, ht, hzero'⟩ := accepts_utf8 cs hzero
    refine ⟨t, ?_, hzero'⟩
    rw [Unicode.utf8_cons, utf8AcceptAll_append, hs]
    exact ht

/-- What is taken is the UTF-8 of characters. -/
theorem utf8_of_accepts : ∀ (n : Nat) {text : Bytes} {state : Utf8State}, text.length ≤ n → state.remaining = 0 →
    AcceptsFrom state text → ∃ cs, text = utf8 cs
  | _, [], _, _, _, _ => ⟨[], rfl⟩
  | 0, _ :: _, _, hn, _, _ => absurd hn (Nat.not_succ_le_zero _)
  | n + 1, ch :: text, state, hn, h, ⟨s, hs, hzero⟩ => by
    rw [utf8AcceptAll_cons] at hs
    rw [List.length_cons] at hn
    by_cases hch : ch ≤ 0x7f
    · rw [utf8Accept_ascii h hch] at hs
      obtain ⟨cs, rfl⟩ := utf8_of_accepts n (Nat.le_of_succ_le_succ hn) h ⟨s, hs, hzero⟩
      have hlt : ch < 0x80 :=
        UInt8.lt_iff_toNat_lt.mpr (Nat.lt_succ_of_le (UInt8.le_iff_toNat_le.mp hch))
      obtain ⟨c, hc⟩ := exists_ascii hlt
      exact ⟨c :: cs, by rw [Unicode.utf8_cons, hc]; rfl⟩
    · rw [utf8Accept_lead h hch] at hs
      cases hlead : leadInfo ch with
      | none =>
        rw [hlead] at hs
        cases hs
      | some r =>
        rw [hlead] at hs
        obtain ⟨bs, rest, s', rfl, hbs, hzero', hrest⟩ := continues_of_accepts ⟨s, hs, hzero⟩
        obtain ⟨c, -, hc⟩ := utf8_of_lead ⟨r.1, r.2.1, r.2.2, hlead, hbs⟩
        rw [List.length_append] at hn
        obtain ⟨cs, rfl⟩ := utf8_of_accepts n (by omega) hzero' hrest
        exact ⟨c :: cs, by rw [Unicode.utf8_cons, hc]; rfl⟩

/-- **The validator takes exactly the UTF-8 of characters.** -/
theorem accepts_iff {state : Utf8State} (h : state.remaining = 0) (text : Bytes) :
    AcceptsFrom state text ↔ ∃ cs, text = utf8 cs :=
  ⟨utf8_of_accepts text.length (Nat.le_refl _) h, fun ⟨cs, hcs⟩ => hcs ▸ accepts_utf8 cs h⟩

end Lql.Json
