import Lql.Json.Lexer
import Lql.Json.Validate
import Lql.Scan.Feed
import Lql.Scan.ScalarSpec
import Lql.Selector.Json

/-!
# Four readers of UTF-8

The library reads UTF-8 in four places, each with tables of its own: the validator of
files takes a byte at a time and counts what is missing, the decoder computes a value
and then looks at it, and the two scanners of JSON strings compare the continuation
bytes with bounds that the lead byte gives. All four accept the UTF-8 of characters and
nothing else.
-/

namespace Lql.Json

open Lib
open Lql.Scan (isPlain leadInfo)
open Lql.Unicode (utf8 utf8Decode)
open Lql.Selector (jsonScanContinuation jsonScanStringLoop jsonScanString)

/-- Bytes that a JSON string may hold without an escape, as far as ASCII goes. -/
def Unescaped (text : Bytes) : Prop := ∀ c ∈ text, c ≠ chQuote ∧ c ≠ chBackslash ∧ ¬ c < 0x20

/-- A byte string in double quotes. -/
def inQuotes (text : Bytes) : Bytes := chQuote :: (text ++ [chQuote])

theorem Unescaped.tail {c : UInt8} {text : Bytes} (h : Unescaped (c :: text)) : Unescaped text :=
  fun d hd => h d (List.mem_cons_of_mem _ hd)

theorem Unescaped.of_append {a b : Bytes} (h : Unescaped (a ++ b)) : Unescaped b :=
  fun c hc => h c (List.mem_append_right _ hc)

/-- A text without a quote that is followed by one begins with what is read of it, if
that has no quote either. -/
theorem prefix_of_no_quote {text rest bytes behind : Bytes} (hno : chQuote ∉ bytes)
    (h : text ++ chQuote :: rest = bytes ++ behind) :
    ∃ left, text = bytes ++ left ∧ behind = left ++ chQuote :: rest := by
  rcases List.append_eq_append_iff.mp h with ⟨mid, rfl, hmid⟩ | ⟨left, htext, hbehind⟩
  · cases mid with
    | nil =>
      refine ⟨[], by simp, ?_⟩
      simpa using hmid.symm
    | cons c mid =>
      obtain ⟨rfl, -⟩ := List.cons.inj hmid
      exact absurd (List.mem_append_right _ List.mem_cons_self) hno
  · exact ⟨left, htext, hbehind⟩

/-! ## The decoder, again and again -/

/-- `lql_unicode_utf8_decode` until the input is used up. -/
def utf8DecodeAll : Nat → Bytes → Option (List Nat)
  | _, [] => some []
  | 0, _ :: _ => none
  | fuel + 1, c :: input =>
    match utf8Decode (c :: input) with
    | none => none
    | some (value, rest) => (utf8DecodeAll fuel rest).map (value :: ·)

theorem utf8DecodeAll_utf8 : ∀ (fuel : Nat) (cs : List Char), (utf8 cs).length ≤ fuel →
    utf8DecodeAll fuel (utf8 cs) = some (cs.map Char.toNat)
  | fuel, [], _ => by cases fuel <;> rfl
  | fuel, c :: cs, h => by
    have hpos := String.length_utf8EncodeChar c
    have hc : 0 < (String.utf8EncodeChar c).length := by
      rw [hpos]
      exact c.utf8Size_pos
    rw [Unicode.utf8_cons, List.length_append] at h
    obtain ⟨fuel, rfl⟩ : ∃ j, fuel = j + 1 := ⟨fuel - 1, by omega⟩
    have hne : utf8 (c :: cs) ≠ [] := fun he => by
      rw [Unicode.utf8_cons, List.append_eq_nil_iff] at he
      rw [he.1] at hc
      exact absurd hc (Nat.lt_irrefl 0)
    obtain ⟨b, input, hin⟩ := List.exists_cons_of_ne_nil hne
    have hdecode := Unicode.utf8Decode_char c (utf8 cs)
    rw [← Unicode.utf8_cons, hin] at hdecode
    rw [hin, utf8DecodeAll, hdecode]
    dsimp only
    rw [utf8DecodeAll_utf8 fuel cs (by omega)]
    rfl

theorem utf8_of_decodeAll : ∀ (fuel : Nat) {input : Bytes} {values : List Nat},
    utf8DecodeAll fuel input = some values → ∃ cs, input = utf8 cs
  | _, [], _, _ => ⟨[], rfl⟩
  | 0, _ :: _, _, h => by cases h
  | fuel + 1, b :: input, values, h => by
    rw [utf8DecodeAll] at h
    cases hdecode : utf8Decode (b :: input) with
    | none =>
      rw [hdecode] at h
      cases h
    | some r =>
      obtain ⟨value, rest⟩ := r
      rw [hdecode] at h
      obtain ⟨values', hrest, -⟩ := Option.map_eq_some_iff.mp h
      obtain ⟨c, -, hin⟩ := Unicode.utf8Decode_some hdecode
      obtain ⟨cs, rfl⟩ := utf8_of_decodeAll fuel hrest
      exact ⟨c :: cs, hin⟩

/-! ## The selector's strings -/

theorem jsonScanContinuation_iff : ∀ (k : Nat) (lo hi : UInt8) (input rest cs : Bytes),
    jsonScanContinuation k lo hi input = some (cs, rest) ↔ input = cs ++ rest ∧ Continues k lo hi cs
  | 0, _, _, input, rest, cs => by
    rw [jsonScanContinuation, Continues, Option.some.injEq, Prod.mk.injEq]
    constructor
    · rintro ⟨rfl, rfl⟩
      exact ⟨rfl, rfl⟩
    · rintro ⟨rfl, rfl⟩
      exact ⟨rfl, rfl⟩
  | k + 1, lo, hi, [], rest, cs => by
    rw [jsonScanContinuation, Continues]
    constructor
    · intro h
      cases h
    · rintro ⟨h, c, bs, rfl, -⟩
      cases h
  | k + 1, lo, hi, c :: input, rest, cs => by
    have hrange : (c < lo || hi < c) = true ↔ ¬ (lo ≤ c ∧ c ≤ hi) := by
      simp only [Bool.or_eq_true, decide_eq_true_eq, UInt8.lt_iff_toNat_lt, UInt8.le_iff_toNat_le]
      omega
    rw [jsonScanContinuation, Continues]
    by_cases hin : lo ≤ c ∧ c ≤ hi
    · rw [if_neg (fun hout => hrange.mp hout hin)]
      constructor
      · intro h
        obtain ⟨⟨bs, rest'⟩, hbs, he⟩ := Option.map_eq_some_iff.mp h
        cases he
        obtain ⟨rfl, hcont⟩ := (jsonScanContinuation_iff k _ _ _ _ _).mp hbs
        exact ⟨rfl, c, bs, rfl, hin.1, hin.2, hcont⟩
      · rintro ⟨h, d, bs, rfl, -, -, hcont⟩
        obtain ⟨rfl, hinput⟩ := List.cons.inj h
        rw [(jsonScanContinuation_iff k 0x80 0xbf input rest bs).mpr ⟨hinput, hcont⟩]
        rfl
    · rw [if_pos (hrange.mpr hin)]
      constructor
      · intro h
        cases h
      · rintro ⟨h, d, bs, rfl, hlo, hhi, -⟩
        cases h
        exact absurd ⟨hlo, hhi⟩ hin

/-- A string of characters that need no escape is read up to its closing quote. -/
theorem jsonScanStringLoop_utf8 : ∀ (cs : List Char) (fuel : Nat) (text rest : Bytes),
    Unescaped (utf8 cs) → (utf8 cs).length < fuel →
      jsonScanStringLoop fuel text (utf8 cs ++ chQuote :: rest) = .ok (text ++ utf8 cs, rest)
  | cs, 0, _, _, _, h => absurd h (Nat.not_lt_zero _)
  | [], fuel + 1, text, rest, _, _ => by
    show jsonScanStringLoop (fuel + 1) text (chQuote :: rest) = _
    rw [jsonScanStringLoop, if_pos rfl]
    simp [utf8]
  | c :: cs, fuel + 1, text, rest, hplain, hlen => by
    rw [Unicode.utf8_cons] at hplain hlen ⊢
    rw [List.length_append] at hlen
    rcases utf8_head c with ⟨b, hb, hc⟩ | ⟨-, lead, bs, hc, ⟨k, lo, hi, hlead, hbs⟩, hhigh⟩
    · rw [hc] at hplain hlen ⊢
      obtain ⟨hquote, hslash, hcontrol⟩ := hplain b List.mem_cons_self
      rw [List.length_singleton] at hlen
      rw [List.singleton_append, List.cons_append, jsonScanStringLoop, if_neg hquote,
        if_neg hcontrol, if_neg hslash, if_pos hb,
        jsonScanStringLoop_utf8 cs fuel _ rest hplain.tail (by omega), List.append_assoc]
      rfl
    · rw [hc] at hplain hlen ⊢
      obtain ⟨hquote, hslash, hcontrol⟩ := hplain lead List.mem_cons_self
      rw [List.length_cons] at hlen
      have hcont := (jsonScanContinuation_iff k lo hi (bs ++ (utf8 cs ++ chQuote :: rest)) _ bs).mpr
        ⟨rfl, hbs⟩
      rw [List.cons_append, List.cons_append, List.append_assoc, jsonScanStringLoop, if_neg hquote,
        if_neg hcontrol, if_neg hslash, if_neg (UInt8.not_lt.mpr hhigh), hlead]
      dsimp only [Option.bind_some]
      rw [hcont]
      dsimp only
      rw [jsonScanStringLoop_utf8 cs fuel _ rest (hplain.tail.of_append) (by omega),
        List.append_assoc]
      rfl

/-- What is read up to its closing quote is a string of characters. -/
theorem utf8_of_jsonScanStringLoop : ∀ (fuel : Nat) {read text rest : Bytes} {r : Bytes × Bytes},
    Unescaped text → jsonScanStringLoop fuel read (text ++ chQuote :: rest) = .ok r →
      ∃ cs, text = utf8 cs
  | 0, _, _, _, _, _, h => by cases h
  | _, _, [], _, _, _, _ => ⟨[], rfl⟩
  | fuel + 1, read, b :: text, rest, r, hplain, h => by
    obtain ⟨hquote, hslash, hcontrol⟩ := hplain b List.mem_cons_self
    rw [List.cons_append, jsonScanStringLoop, if_neg hquote, if_neg hcontrol, if_neg hslash] at h
    by_cases hb : b < 0x80
    · rw [if_pos hb] at h
      obtain ⟨cs, rfl⟩ := utf8_of_jsonScanStringLoop fuel hplain.tail h
      obtain ⟨c, hc⟩ := exists_ascii hb
      exact ⟨c :: cs, by rw [Unicode.utf8_cons, hc]; rfl⟩
    · rw [if_neg hb] at h
      cases hlead : leadInfo b with
      | none =>
        rw [hlead] at h
        cases h
      | some info =>
        obtain ⟨k, lo, hi⟩ := info
        rw [hlead] at h
        dsimp only [Option.bind_some] at h
        cases hcont : jsonScanContinuation k lo hi (text ++ chQuote :: rest) with
        | none =>
          rw [hcont] at h
          cases h
        | some next =>
          obtain ⟨bs, behind⟩ := next
          rw [hcont] at h
          obtain ⟨hin, hbs⟩ := (jsonScanContinuation_iff k lo hi _ _ _).mp hcont
          have hno : chQuote ∉ bs := fun hq =>
            absurd (continues_high (leadInfo_high hlead) hbs _ hq) (by decide)
          obtain ⟨left, rfl, rfl⟩ := prefix_of_no_quote hno hin
          obtain ⟨cs, rfl⟩ := utf8_of_jsonScanStringLoop fuel hplain.tail.of_append h
          obtain ⟨c, -, hc⟩ := utf8_of_lead ⟨k, lo, hi, hlead, hbs⟩
          exact ⟨c :: cs, by rw [Unicode.utf8_cons, hc]; rfl⟩

/-! ## The strings of a record -/

/-- Characters that need no escape are a string that may be written so. -/
theorem exists_str : ∀ cs : List Char, Unescaped (utf8 cs) → ∃ s : Str, s.Ok ∧ s.raw = utf8 cs
  | [], _ => ⟨[], List.forall_mem_nil _, rfl⟩
  | c :: cs, hplain => by
    rw [Unicode.utf8_cons] at hplain ⊢
    obtain ⟨s, hs, hraw⟩ := exists_str cs hplain.of_append
    rcases utf8_head c with ⟨b, hb, hc⟩ | ⟨hhigh, -⟩
    · obtain ⟨hquote, hslash, hcontrol⟩ := hplain b (by rw [hc]; exact List.mem_cons_self)
      have hp : isPlain b = true := by
        simp only [isPlain, ne_eq, hquote, hslash, not_false_eq_true, decide_true, Bool.true_and,
          Bool.and_eq_true, decide_eq_true_eq]
        exact ⟨UInt8.not_lt.mp hcontrol, hb⟩
      refine ⟨.plain b :: s, List.forall_mem_cons.mpr ⟨.plain hp, hs⟩, ?_⟩
      rw [← hraw, hc]
      rfl
    · refine ⟨.coded _ _ :: s, List.forall_mem_cons.mpr ⟨.utf8 c hhigh, hs⟩, ?_⟩
      rw [← hraw]
      rfl

/-- Where a string that may be written stands, the bytes up to the first quote are
characters, if they have no backslash. -/
theorem utf8_of_raw : ∀ (s : Str) {text rest behind : Bytes}, s.Ok → Unescaped text →
    text ++ chQuote :: rest = s.raw ++ chQuote :: behind → ∃ cs, text = utf8 cs
  | _, [], _, _, _, _, _ => ⟨[], rfl⟩
  | [], b :: text, _, _, _, hplain, h => by
    obtain ⟨rfl, -⟩ := List.cons.inj h
    exact absurd rfl (hplain _ List.mem_cons_self).1
  | p :: s, b :: text, rest, behind, hok, hplain, h => by
    obtain ⟨hp, hs⟩ := List.forall_mem_cons.mp hok
    have hraw : Str.raw (p :: s) = p.raw ++ Str.raw s := List.flatMap_cons
    rw [hraw, List.append_assoc] at h
    have escaped : ∀ {bs : Bytes}, b :: text ++ chQuote :: rest =
        chBackslash :: bs → ∃ cs, b :: text = utf8 cs := fun he => by
      obtain ⟨rfl, -⟩ := List.cons.inj he
      exact absurd rfl (hplain _ List.mem_cons_self).2.1
    cases hp with
    | @plain d hd =>
      obtain ⟨rfl, htail⟩ := List.cons.inj h
      obtain ⟨cs, rfl⟩ := utf8_of_raw s hs hplain.tail htail
      obtain ⟨c, hc⟩ := exists_ascii (Scan.isPlain_ascii hd)
      exact ⟨c :: cs, by rw [Unicode.utf8_cons, hc]; rfl⟩
    | utf8 c hc =>
      have hno : chQuote ∉ String.utf8EncodeChar c := fun hq =>
        absurd (char_high hc _ hq) (by decide)
      obtain ⟨left, hleft, hbehind⟩ := prefix_of_no_quote hno h
      rw [hleft] at hplain ⊢
      obtain ⟨cs, hcs⟩ := utf8_of_raw s hs hplain.of_append hbehind.symm
      exact ⟨c :: cs, by rw [hcs]; rfl⟩
    | short => exact escaped h
    | unicode => exact escaped h
    | pair => exact escaped h

theorem inQuotes_eq (text rest : Bytes) :
    inQuotes text ++ rest = chQuote :: (text ++ chQuote :: rest) := by
  simp [inQuotes]

/-- The grammar's strings without escapes are characters in quotes. -/
theorem stringP_unescaped {text : Bytes} (hplain : Unescaped text) (rest : Bytes) (compact : Bool) :
    (∃ r, stringP ⟨inQuotes text ++ rest, compact⟩ = some r) ↔ ∃ cs : List Char, text = utf8 cs := by
  constructor
  · rintro ⟨⟨s, f⟩, h⟩
    obtain ⟨hok, hf⟩ := stringP_sound h
    have hin : inQuotes text ++ rest = s.quoted ++ f.rest := congrArg Flat.rest hf
    rw [inQuotes_eq] at hin
    have hcut : text ++ chQuote :: rest = s.raw ++ chQuote :: f.rest := by
      simpa [Str.quoted] using hin
    exact utf8_of_raw s hok hplain hcut
  · rintro ⟨cs, rfl⟩
    obtain ⟨s, hok, hraw⟩ := exists_str cs hplain
    have hquoted : inQuotes (utf8 cs) = s.quoted := by
      rw [← hraw]
      simp [inQuotes, Str.quoted]
    exact ⟨_, by rw [hquoted]; exact stringP_complete hok rest compact⟩

/-- A reader that follows the grammar ends well where the grammar has a string. -/
theorem ok_iff_stringP {σ α : Type} {x : EStateM Err σ α} {s : σ} {f : Flat}
    {Q : α → σ → Str → Flat → Prop} (h : Sim Scan.JsonFault x stringP s f Q) :
    (∃ a s', x s = .ok a s') ↔ ∃ r, stringP f = some r := by
  constructor
  · rintro ⟨a, s', hx⟩
    cases hp : stringP f with
    | some r => exact ⟨r, rfl⟩
    | none =>
      obtain ⟨e, s'', he, -⟩ := h.fails hp
      rw [hx] at he
      cases he
  · rintro ⟨⟨str, f'⟩, hp⟩
    obtain ⟨a, s', hx, -⟩ := h.ends hp
    exact ⟨a, s', hx⟩

theorem jsonScanString_unescaped {text : Bytes} (hplain : Unescaped text) (rest : Bytes) :
    (∃ r, jsonScanString (inQuotes text ++ rest) = .ok r) ↔ ∃ cs : List Char, text = utf8 cs := by
  rw [inQuotes_eq, jsonScanString, if_pos rfl]
  constructor
  · rintro ⟨r, h⟩
    exact utf8_of_jsonScanStringLoop _ hplain h
  · rintro ⟨cs, rfl⟩
    refine ⟨_, jsonScanStringLoop_utf8 cs _ [] rest hplain ?_⟩
    simp only [List.length_cons, List.length_append]
    omega

/-- **The readers of UTF-8 agree**: the validator of files, the decoder until the input
is used up, the selector's string scanner and both string scanners of records, the latter
three on what a string may hold without an escape, accept the UTF-8 of characters. -/
theorem utf8_readers_agree (text : Bytes) :
    (AcceptsFrom {} text ↔ ∃ cs : List Char, text = utf8 cs) ∧
    ((∃ values, utf8DecodeAll text.length text = some values) ↔ ∃ cs : List Char, text = utf8 cs) ∧
    (Unescaped text → ∀ rest : Bytes,
      ((∃ r, jsonScanString (inQuotes text ++ rest) = .ok r) ↔ ∃ cs : List Char, text = utf8 cs) ∧
      (∀ (ctx : Scan.Ctx) (total : Nat) (s : Scan.State) (compact : Bool),
        Scan.Rel total s.tape ⟨inQuotes text ++ rest, compact⟩ →
          ((∃ a s', Scan.string ctx s = .ok a s') ↔ ∃ cs : List Char, text = utf8 cs)) ∧
      ∀ (total : Nat) (t : Scan.Tape) (compact : Bool),
        Scan.Rel total t ⟨inQuotes text ++ rest, compact⟩ →
          ((∃ a t', Scan.skipStringFast t = .ok a t') ↔ ∃ cs : List Char, text = utf8 cs)) := by
  refine ⟨accepts_iff rfl text, ⟨?_, ?_⟩, fun hplain rest => ⟨?_, ?_, ?_⟩⟩
  · rintro ⟨values, h⟩
    exact utf8_of_decodeAll _ h
  · rintro ⟨cs, rfl⟩
    exact ⟨_, utf8DecodeAll_utf8 _ cs (Nat.le_refl _)⟩
  · exact jsonScanString_unescaped hplain rest
  · intro ctx total s compact h
    exact (ok_iff_stringP (Scan.string_sim ctx h)).trans (stringP_unescaped hplain rest compact)
  · intro total t compact h
    exact (ok_iff_stringP (Scan.skipStringFast_sim h)).trans (stringP_unescaped hplain rest compact)

end Lql.Json
