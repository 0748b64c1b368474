import Lql.Json.Reading
import Lql.Selector.Json

/-!
# Strings and numbers of the selector scanner

The scanner of the selectors has a reader of strings and one of numbers of its own. Both read what the grammar of
documents says, and nothing else: each is set beside the parser of that grammar, step by step.
-/

namespace Lql.Selector

open Json (Flat P Piece Str bind_eq bind_eq_none hexP escapeP continuationP codedP piecesP stringP numberP)
open Scan (isPlain isShortEscape leadInfo)

section Lockstep

variable {α β γ : Type}

/-- The two readers read the same, up to `f`, or both refuse. -/
def Agrees (f : α → β) (x : Except Err (β × Bytes)) (y : Option (α × Flat)) : Prop :=
  x.toOption = y.map fun r => (f r.1, r.2.rest)

theorem Agrees.ok {f : α → β} {a : α} {b : β} {g : Flat} (h : b = f a) : Agrees f (.ok (b, g.rest)) (some (a, g)) := by
  rw [h]
  rfl

theorem Agrees.fail {f : α → β} {message : String} : Agrees f (jsonScanFail message) none := rfl

end Lockstep

/-! ## Strings -/

theorem hexLoop_eq (compact : Bool) : ∀ (k value : Nat) (raw input : Bytes), jsonScanHexLoop k value input =
    (hexP k value raw { rest := input, compact }).map fun r => (r.1.1, r.2.rest)
  | 0, _, _, _ => rfl
  | _ + 1, _, _, [] => rfl
  | k + 1, value, raw, c :: input => by
    rw [jsonScanHexLoop, hexP]
    have htake : Json.takeP { rest := c :: input, compact } = some (c, { rest := input, compact }) := rfl
    rw [bind_eq htake]
    cases Scan.hexValue c with
    | none => rfl
    | some digit => exact hexLoop_eq compact k _ _ input

theorem continuation_eq (compact : Bool) : ∀ (k : Nat) (low high : UInt8) (input : Bytes),
    jsonScanContinuation k low high input =
      (continuationP k low high { rest := input, compact }).map fun r => (r.1, r.2.rest)
  | 0, _, _, _ => rfl
  | _ + 1, _, _, [] => rfl
  | k + 1, low, high, c :: input => by
    have htake : Json.takeP { rest := c :: input, compact } = some (c, { rest := input, compact }) := rfl
    rw [jsonScanContinuation, continuationP, bind_eq htake, continuation_eq compact k]
    by_cases hc : (c < low || high < c) = true
    · rw [if_pos hc, if_pos (by simpa using hc)]
      rfl
    · rw [if_neg hc, if_neg (by simpa using hc)]
      cases hrest : continuationP k 0x80 0xbf { rest := input, compact } with
      | none =>
        rw [bind_eq_none hrest]
        rfl
      | some r =>
        rw [bind_eq hrest]
        rfl

theorem pair_or {hi lo : Nat} (hlo : lo ≤ 0xdfff) :
    ((hi - 0xd800) <<< 10) ||| (lo - 0xdc00) = ((hi - 0xd800) <<< 10) + (lo - 0xdc00) :=
  (Nat.shiftLeft_add_eq_or_of_lt (by omega) _).symm

theorem expectP_ne {c b : UInt8} {rest : Bytes} {compact : Bool} (h : b ≠ c) :
    Json.expectP c { rest := b :: rest, compact } = none := by
  have htake : Json.takeP { rest := b :: rest, compact } = some (b, { rest, compact }) := rfl
  rw [Json.expectP, bind_eq htake, if_pos h]
  rfl

/-- The second half of a pair of surrogates. -/
theorem lowSurrogate_agrees (compact : Bool) (hi : Nat) (head input : Bytes) :
    Agrees Piece.text
      (match input with
        | b :: u :: input =>
          if b ≠ chBackslash || u ≠ chU then jsonScanFail "JSON high surrogate is unpaired"
          else
            match jsonScanHex4 input with
            | none => jsonScanFail "JSON high surrogate is unpaired"
            | some (low, input) =>
              if low < 0xdc00 || 0xdfff < low then jsonScanFail "JSON high surrogate is unpaired"
              else .ok (Scan.unicodeBytes (0x10000 + (((hi - 0xd800) <<< 10) ||| (low - 0xdc00))), input)
        | _ => jsonScanFail "JSON high surrogate is unpaired")
      ((do
        Json.expectP chBackslash
        Json.expectP chU
        let (low, lowRaw) ← hexP 4 0 []
        if low < 0xdc00 ∨ low > 0xdfff then failure
        else
          return .coded (head ++ [chBackslash, chU] ++ lowRaw)
            (Scan.unicodeBytes (0x10000 + ((hi - 0xd800) <<< 10) + (low - 0xdc00))) : P Piece)
        { rest := input, compact }) := by
  match input with
  | [] => rfl
  | [b] =>
    by_cases hb : b = chBackslash
    · subst hb
      rw [bind_eq (Json.expectP_cons _ _ _)]
      rfl
    · rw [bind_eq_none (expectP_ne hb)]
      rfl
  | b :: u :: input =>
    dsimp only
    by_cases hb : b = chBackslash
    · subst hb
      rw [bind_eq (Json.expectP_cons _ _ _)]
      by_cases hu : u = chU
      · subst hu
        rw [bind_eq (Json.expectP_cons _ _ _), if_neg (by decide), jsonScanHex4, hexLoop_eq compact 4 0 [] input]
        cases hx : hexP 4 0 [] { rest := input, compact } with
        | none =>
          rw [bind_eq_none hx]
          rfl
        | some r =>
          obtain ⟨⟨low, raw⟩, f⟩ := r
          rw [bind_eq hx]
          dsimp only [Option.map_some]
          by_cases hlow : low < 0xdc00 ∨ low > 0xdfff
          · rw [if_pos (by simpa using hlow), if_pos hlow]
            rfl
          · rw [if_neg (by simpa using hlow), if_neg hlow, pair_or (by omega), ← Nat.add_assoc, Json.pure_apply]
            exact .ok (by rw [Piece.text])
      · rw [bind_eq_none (expectP_ne hu), if_pos (by simp [hu])]
        rfl
    · rw [bind_eq_none (expectP_ne hb), if_pos (by simp [hb])]
      rfl

theorem escape_agrees (compact : Bool) (input : Bytes) :
    Agrees Piece.text (jsonScanEscape input) (escapeP { rest := input, compact }) := by
  cases input with
  | nil => rfl
  | cons c input =>
    have htake : Json.takeP { rest := c :: input, compact } = some (c, { rest := input, compact }) := rfl
    rw [jsonScanEscape, escapeP, bind_eq htake]
    by_cases hs : isShortEscape c = true
    · rw [if_pos hs, if_pos hs]
      rfl
    rw [if_neg hs, if_neg hs]
    by_cases hu : c = chU
    · subst hu
      rw [if_neg (by decide), if_neg (by decide), jsonScanHex4, hexLoop_eq compact 4 0 [] input]
      cases hx : hexP 4 0 [] { rest := input, compact } with
      | none =>
        rw [bind_eq_none hx]
        rfl
      | some r =>
        obtain ⟨⟨cp, raw⟩, f⟩ := r
        rw [bind_eq hx]
        dsimp only [Option.map_some]
        -- a high surrogate, a low one, and what is neither
        by_cases hhigh : 0xd800 ≤ cp ∧ cp ≤ 0xdbff
        · rw [if_pos (by simpa using hhigh), if_neg (by omega), if_neg (by omega)]
          exact lowSurrogate_agrees _ _ _ _
        rw [if_neg (by simpa using hhigh)]
        by_cases hlow : 0xdc00 ≤ cp ∧ cp ≤ 0xdfff
        · rw [if_pos (by simpa using hlow), if_pos hlow]
          rfl
        · rw [if_neg (by simpa using hlow), if_neg hlow, if_pos (by omega)]
          exact .ok rfl
    · rw [if_pos hu, if_pos hu]
      rfl

/-- A piece that is not a plain byte, and the rest of the string. -/
theorem pieces_agrees {compact : Bool} (text : Bytes) {fuel : Nat} {x : Except Err (Bytes × Bytes)} {y : P Piece}
    {input : Bytes} : Agrees Piece.text x (y { rest := input, compact }) →
    (∀ (text input : Bytes) (compact : Bool), Agrees (fun s => text ++ Str.text s) (jsonScanStringLoop fuel text input)
      (piecesP fuel { rest := input, compact })) →
    Agrees (fun s => text ++ Str.text s)
      (match x with
        | .error e => .error e
        | .ok (bytes, input) => jsonScanStringLoop fuel (text ++ bytes) input)
      ((do
        let piece ← y
        let rest ← piecesP fuel
        return piece :: rest : P Str) { rest := input, compact }) := by
  intro hx ih
  cases hy : y { rest := input, compact } with
  | none =>
    rw [hy] at hx
    rw [bind_eq_none hy]
    cases x with
    | error e => rfl
    | ok r => cases hx
  | some r =>
    obtain ⟨piece, f⟩ := r
    rw [hy] at hx
    rw [bind_eq hy]
    cases x with
    | error e => cases hx
    | ok r =>
      cases hx
      dsimp only
      have ih := ih (text ++ piece.text) f.rest f.compact
      cases hp : piecesP fuel f with
      | none =>
        rw [bind_eq_none hp]
        rw [hp] at ih
        exact ih
      | some r =>
        rw [bind_eq hp]
        rw [hp] at ih
        rw [Agrees, ih]
        simp [Str.text, Json.pure_apply]

theorem stringLoop_agrees : ∀ (fuel : Nat) (text input : Bytes) (compact : Bool),
    Agrees (fun s => text ++ Str.text s) (jsonScanStringLoop fuel text input) (piecesP fuel { rest := input, compact })
  | 0, _, _, _ => rfl
  | _ + 1, _, [], _ => rfl
  | fuel + 1, text, c :: input, compact => by
    have htake : Json.takeP { rest := c :: input, compact } = some (c, { rest := input, compact }) := rfl
    have ih := stringLoop_agrees fuel
    rw [jsonScanStringLoop, piecesP, bind_eq htake]
    by_cases hq : c = chQuote
    · subst hq
      rw [if_pos rfl, if_neg (by decide), if_pos rfl]
      rw [Json.pure_apply, Agrees, Option.map_some]
      exact congrArg (fun t => some (t, input)) (List.append_nil text).symm
    rw [if_neg hq]
    by_cases hctl : c < 0x20
    · have hplain : ¬ isPlain c = true := by
        have hge : ¬ 0x20 ≤ c := UInt8.not_le.mpr hctl
        simp [isPlain, hge]
      rw [if_pos hctl, if_neg hplain, if_neg hq]
      have hcoded : codedP c { rest := input, compact } = none := by
        rw [codedP, if_pos hctl]
        rfl
      rw [bind_eq_none hcoded]
      rfl
    rw [if_neg hctl]
    by_cases hb : c = chBackslash
    · subst hb
      rw [if_pos rfl, if_neg (by decide), if_neg (by decide)]
      exact pieces_agrees text (escape_agrees compact input) ih
    rw [if_neg hb]
    by_cases hascii : c < 0x80
    · have hplain : isPlain c = true := by
        have hge : 0x20 ≤ c := UInt8.not_lt.mp hctl
        simp [isPlain, hq, hb, hge, hascii]
      rw [if_pos hascii, if_pos hplain]
      have ih := ih (text ++ [c]) input compact
      cases hp : piecesP fuel { rest := input, compact } with
      | none =>
        rw [bind_eq_none hp]
        rw [hp] at ih
        exact ih
      | some r =>
        rw [bind_eq hp]
        rw [hp] at ih
        rw [Agrees, ih]
        simp [Str.text, Piece.text, Json.pure_apply]
    · have hplain : ¬ isPlain c = true := by simp [isPlain, hascii]
      rw [if_neg hascii, if_neg hplain, if_neg hq]
      have hx : Agrees Piece.text
          (((leadInfo c).bind fun lead => jsonScanContinuation lead.1 lead.2.1 lead.2.2 input).elim
            (jsonScanFail "invalid UTF-8 in JSON string") fun r => .ok (c :: r.1, r.2))
          (codedP c { rest := input, compact }) := by
        rw [codedP, if_neg hctl, if_neg hb]
        cases leadInfo c with
        | none => rfl
        | some lead =>
          dsimp only [Option.bind_some]
          rw [continuation_eq compact]
          cases hcs : continuationP lead.1 lead.2.1 lead.2.2 { rest := input, compact } with
          | none =>
            rw [bind_eq_none hcs]
            rfl
          | some r =>
            rw [bind_eq hcs]
            rfl
      have hall := pieces_agrees text hx ih
      cases hlead : (leadInfo c).bind fun lead => jsonScanContinuation lead.1 lead.2.1 lead.2.2 input with
      | none =>
        rw [hlead] at hall
        exact hall
      | some r =>
        rw [hlead] at hall
        exact hall

theorem string_agrees (input : Bytes) (compact : Bool) :
    Agrees Str.text (jsonScanString input) (stringP { rest := input, compact }) := by
  cases input with
  | nil => rfl
  | cons c rest =>
    rw [jsonScanString, stringP]
    by_cases hq : c = chQuote
    · subst hq
      rw [if_pos rfl, bind_eq (Json.expectP_cons _ _ _)]
      exact stringLoop_agrees (rest.length + 1) [] rest compact
    · rw [if_neg hq, bind_eq_none (expectP_ne hq)]
      rfl

/-- **The strings are those of the grammar.** -/
theorem jsonScanString_ok {input text rest : Bytes} : jsonScanString input = .ok (text, rest) ↔
    ∃ s : Str, s.Ok ∧ input = s.quoted ++ rest ∧ text = s.text := by
  have h := string_agrees input true
  rw [Agrees] at h
  constructor
  · intro hok
    rw [hok] at h
    cases hs : stringP { rest := input, compact := true } with
    | none =>
      rw [hs] at h
      cases h
    | some r =>
      obtain ⟨s, f⟩ := r
      rw [hs] at h
      cases h
      obtain ⟨hsok, hf⟩ := Json.stringP_sound hs
      exact ⟨s, hsok, congrArg Flat.rest hf, rfl⟩
  · intro hs
    obtain ⟨s, hsok, rfl, rfl⟩ := hs
    rw [Json.stringP_complete hsok] at h
    cases hx : jsonScanString (s.quoted ++ rest) with
    | error e =>
      rw [hx] at h
      cases h
    | ok r =>
      rw [hx] at h
      cases h
      rfl

/-! ## Numbers -/

/-- The digits in front of the point. -/
def jsonNumberInt (input : Bytes) : Except Err (Bytes × Bytes) :=
  if input.headD 0 = chZero then .ok ([chZero], input.drop 1) else jsonScanDigits input

/-- The point and what is behind it. -/
def jsonNumberFrac (input : Bytes) : Except Err (Bytes × Bytes) :=
  if input.headD 0 = chDot then (jsonScanDigits (input.drop 1)).map fun r => (chDot :: r.1, r.2) else .ok ([], input)

/-- The sign behind the first byte, and what is behind the sign. -/
def jsonNumberPlus (input : Bytes) : Bytes × Bytes :=
  if (input.drop 1).headD 0 = chPlus || (input.drop 1).headD 0 = chMinus then ((input.drop 1).take 1, input.drop 2)
  else ([], input.drop 1)

/-- The exponent. -/
def jsonNumberExp (input : Bytes) : Except Err (Bytes × Bytes) :=
  if input.headD 0 = chLowerE || input.headD 0 = chUpperE then
    (jsonScanDigits (jsonNumberPlus input).2).map fun r => (input.take 1 ++ (jsonNumberPlus input).1 ++ r.1, r.2)
  else .ok ([], input)

theorem ite_bind {α β : Type} (c : Prop) [Decidable c] (x y : Except Err α) (k : α → Except Err β) :
    (if c then x else y) >>= k = if c then x >>= k else y >>= k := by
  split <;> rfl

/-- A number in its four parts. -/
theorem jsonScanNumber_parts (input : Bytes) : jsonScanNumber input =
    if 1 < (input.span (· = chMinus)).1.length then jsonScanFail "invalid JSON number"
    else (do
      let int ← jsonNumberInt (input.span (· = chMinus)).2
      let frac ← jsonNumberFrac int.2
      let exp ← jsonNumberExp frac.2
      .ok ((input.span (· = chMinus)).1 ++ int.1 ++ frac.1 ++ exp.1, exp.2)) := by
  unfold jsonScanNumber jsonNumberInt jsonNumberFrac jsonNumberExp jsonNumberPlus
  simp only [ite_bind]
  rfl
theorem Agrees.bind {α β γ δ : Type} {f : α → β} {g : γ → δ} {x : Except Err (β × Bytes)} {p : P α} {flat : Flat}
    {k : β × Bytes → Except Err (δ × Bytes)} {q : α → P γ} (hx : Agrees f x (p flat))
    (hk : ∀ (a : α) (flat : Flat), Agrees g (k (f a, flat.rest)) (q a flat)) : Agrees g (x >>= k) ((p >>= q) flat) := by
  cases hp : p flat with
  | none =>
    rw [hp] at hx
    rw [bind_eq_none hp]
    cases x with
    | error e => rfl
    | ok r => cases hx
  | some r =>
    obtain ⟨a, flat'⟩ := r
    rw [hp] at hx
    rw [bind_eq hp]
    cases x with
    | error e => cases hx
    | ok r =>
      cases hx
      exact hk a flat'

theorem Agrees.map {α β γ δ : Type} {f : α → β} {g : γ → δ} {x : Except Err (β × Bytes)} {p : P α} {flat : Flat}
    {k : β × Bytes → δ × Bytes} {q : α → P γ} (hx : Agrees f x (p flat))
    (hk : ∀ (a : α) (flat : Flat), Agrees g (.ok (k (f a, flat.rest))) (q a flat)) :
    Agrees g (x.map k) ((p >>= q) flat) := by
  have h := hx.bind (k := fun r => .ok (k r)) hk
  cases x with
  | error e => exact h
  | ok r => exact h

theorem digits_agrees (input : Bytes) (compact : Bool) :
    Agrees id (jsonScanDigits input) (Json.digits1P { rest := input, compact }) := by
  cases input with
  | nil => rfl
  | cons c input =>
    have hhead : (c :: input).headD 0 = c := rfl
    rw [jsonScanDigits, Json.digits1P, Json.peek_bind, hhead]
    dsimp only [List.head?_cons]
    by_cases hc : isDigit c = true
    · rw [if_pos hc, if_pos hc, Json.digitsP, List.span_eq_takeWhile_dropWhile]
      rfl
    · rw [if_neg hc, if_neg hc]
      rfl

theorem headD_eq {input : Bytes} {c : UInt8} (hc : c ≠ 0) : input.headD 0 = c ↔ input.head? = some c := by
  cases input with
  | nil => simp [hc.symm]
  | cons d input => simp

theorem int_agrees (input : Bytes) (compact : Bool) :
    Agrees id (jsonNumberInt input) (Json.integerP { rest := input, compact }) := by
  cases input with
  | nil => rfl
  | cons c input =>
    have hhead : (c :: input).headD 0 = c := rfl
    rw [jsonNumberInt, Json.integerP, Json.peek_bind, hhead]
    dsimp only [List.head?_cons]
    by_cases hz : c = chZero
    · rw [if_pos hz, if_pos hz, hz]
      rfl
    rw [if_neg hz, if_neg hz]
    have h := digits_agrees (c :: input) compact
    rw [Json.digits1P, Json.peek_bind] at h
    dsimp only [List.head?_cons] at h
    have hdigit : isDigit19 c = isDigit c := by
      have hne : c.toNat ≠ 48 := fun h => hz (UInt8.toNat_inj.mp h)
      rw [Bool.eq_iff_iff]
      simp only [isDigit19, isDigit, Bool.and_eq_true, decide_eq_true_eq, UInt8.le_iff_toNat_le,
        show chZero.toNat = 48 from rfl, show chOne.toNat = 49 from rfl]
      omega
    rw [hdigit]
    exact h

theorem frac_agrees (input : Bytes) (compact : Bool) :
    Agrees id (jsonNumberFrac input) (Json.fractionP { rest := input, compact }) := by
  rw [jsonNumberFrac, Json.fractionP, Json.peek_bind]
  by_cases hdot : input.head? = some chDot
  · obtain ⟨rest, rfl⟩ := List.head?_eq_some_iff.mp hdot
    have hhead : (chDot :: rest).headD 0 = chDot := rfl
    rw [if_pos hhead, if_pos hdot, Json.take_bind]
    exact (digits_agrees rest compact).map fun a flat => .ok rfl
  · rw [if_neg (fun h => hdot ((headD_eq (by decide)).mp h)), if_neg hdot]
    rfl

theorem plus_agrees (c : UInt8) (input : Bytes) (compact : Bool) :
    Agrees id (.ok (jsonNumberPlus (c :: input))) (Json.exponentSignP { rest := input, compact }) := by
  cases input with
  | nil => rfl
  | cons d input =>
    have hhead : ((c :: d :: input).drop 1).headD 0 = d := rfl
    rw [jsonNumberPlus, Json.exponentSignP, Json.peek_bind, hhead]
    dsimp only [List.head?_cons]
    by_cases hd : d = chPlus ∨ d = chMinus
    · rw [if_pos (by simpa using hd), if_pos hd]
      rfl
    · rw [if_neg (by simpa using hd), if_neg hd]
      rfl

theorem exp_agrees (input : Bytes) (compact : Bool) :
    Agrees id (jsonNumberExp input) (Json.exponentP { rest := input, compact }) := by
  cases input with
  | nil => rfl
  | cons c input =>
    have hhead : (c :: input).headD 0 = c := rfl
    rw [jsonNumberExp, Json.exponentP, Json.peek_bind, hhead]
    dsimp only [List.head?_cons]
    by_cases hc : c = chLowerE ∨ c = chUpperE
    · rw [if_pos (by simpa using hc), if_pos hc, Json.take_bind]
      have hplus := (plus_agrees c input compact).bind (g := id)
        (k := fun plus => (jsonScanDigits plus.2).map fun r => (c :: (plus.1 ++ r.1), r.2)) fun sign flat =>
          (digits_agrees flat.rest flat.compact).map fun digits flat => Agrees.ok rfl
      exact hplus
    · rw [if_neg (by simpa using hc), if_neg hc]
      rfl

/-- The number behind its sign. -/
theorem body_agrees (sign input : Bytes) (compact : Bool) :
    Agrees id
      (do
        let int ← jsonNumberInt input
        let frac ← jsonNumberFrac int.2
        let exp ← jsonNumberExp frac.2
        (.ok (sign ++ int.1 ++ frac.1 ++ exp.1, exp.2) : Except Err (Bytes × Bytes)))
      ((do
        let int ← Json.integerP
        let fraction ← Json.fractionP
        let exponent ← Json.exponentP
        return sign ++ int ++ fraction ++ exponent : P Bytes) { rest := input, compact }) :=
  (int_agrees input compact).bind fun _ f1 => (frac_agrees f1.rest f1.compact).bind fun _ f2 =>
    (exp_agrees f2.rest f2.compact).bind fun _ _ => Agrees.ok rfl

theorem span_head (c : UInt8) (input : Bytes) : input.head? ≠ some c → input.span (· = c) = ([], input) := by
  intro h
  rw [List.span_eq_takeWhile_dropWhile]
  cases input with
  | nil => rfl
  | cons d input =>
    have hd : ¬ d = c := fun hd => h (by rw [hd]; rfl)
    rw [List.takeWhile_cons_of_neg (by simpa using hd), List.dropWhile_cons_of_neg (by simpa using hd)]

theorem number_agrees (input : Bytes) (compact : Bool) :
    Agrees id (jsonScanNumber input) (numberP { rest := input, compact }) := by
  rw [jsonScanNumber_parts, numberP]
  by_cases hminus : input.head? = some chMinus
  · obtain ⟨rest, rfl⟩ := List.head?_eq_some_iff.mp hminus
    have hsign : Json.signP { rest := chMinus :: rest, compact } = some ([chMinus], { rest, compact }) := rfl
    rw [bind_eq hsign]
    by_cases hagain : rest.head? = some chMinus
    · -- a second sign is no digit
      obtain ⟨tail, rfl⟩ := List.head?_eq_some_iff.mp hagain
      have hint : Json.integerP { rest := chMinus :: tail, compact } = none := rfl
      have hlong : 1 < ((chMinus :: chMinus :: tail).span (· = chMinus)).1.length := by
        rw [List.span_eq_takeWhile_dropWhile]
        simp
      rw [bind_eq_none hint, if_pos hlong]
      rfl
    · have hspan : (chMinus :: rest).span (· = chMinus) = ([chMinus], rest) := by
        have h := span_head chMinus rest hagain
        rw [List.span_eq_takeWhile_dropWhile] at h ⊢
        obtain ⟨h1, h2⟩ := Prod.mk.inj h
        rw [List.takeWhile_cons_of_pos (by decide), List.dropWhile_cons_of_pos (by decide), h1, h2]
      rw [hspan, if_neg (by simp)]
      exact body_agrees [chMinus] rest compact
  · have hsign : Json.signP { rest := input, compact } = some ([], { rest := input, compact }) := by
      rw [Json.signP, Json.peek_bind]
      exact congrFun (if_neg hminus) _
    rw [bind_eq hsign, span_head chMinus input hminus, if_neg (by simp)]
    exact body_agrees [] input compact

/-- **The numbers are those of the grammar.** -/
theorem jsonScanNumber_sound {input text rest : Bytes} (h : jsonScanNumber input = .ok (text, rest)) :
    Json.NumberToken text ∧ input = text ++ rest := by
  have hagree := number_agrees input true
  rw [Agrees, h] at hagree
  cases hn : numberP { rest := input, compact := true } with
  | none =>
    rw [hn] at hagree
    cases hagree
  | some r =>
    obtain ⟨token, f⟩ := r
    rw [hn] at hagree
    cases hagree
    obtain ⟨htoken, hf⟩ := Json.numberP_sound hn
    exact ⟨htoken, congrArg Flat.rest hf⟩

theorem jsonScanNumber_complete {token rest : Bytes} (h : Json.NumberToken token) (hs : Json.Stops rest) :
    jsonScanNumber (token ++ rest) = .ok (token, rest) := by
  have hagree := number_agrees (token ++ rest) true
  rw [Agrees, Json.numberP_complete h hs] at hagree
  cases hx : jsonScanNumber (token ++ rest) with
  | error e =>
    rw [hx] at hagree
    cases hagree
  | ok r =>
    rw [hx] at hagree
    cases hagree
    rfl

end Lql.Selector
