import Lql.Number.Magnitude
import Lql.Scan.NumberSpec
import Mathlib.Data.Sign.Basic
import Mathlib.Tactic.FieldSimp

/-!
# The comparison of number tokens is exact

A token is what the grammar of JSON numbers allows, and its value is a rational number. The parser reads
exactly the tokens, the parsed number has the token's value, and the comparison returns the sign of the
difference of the values.
-/

namespace Lql.Number

open Scan (NumberParts)

/-- The exponent of a number token: the letter, the sign if one is written (`true` for a minus sign) and
the digits. -/
structure ExponentPart where
  upper : Bool
  sign : Option Bool
  digits : Bytes
  ok : Digits digits
  ne : digits ≠ []

namespace ExponentPart

def letter (e : ExponentPart) : UInt8 := if e.upper then chUpperE else chLowerE

def signText (e : ExponentPart) : Bytes :=
  match e.sign with
  | none => []
  | some false => [chPlus]
  | some true => [chMinus]

def text (e : ExponentPart) : Bytes := e.letter :: (e.signText ++ e.digits)

def value (e : ExponentPart) : Int := if e.sign = some true then -(natOf e.digits : Int) else natOf e.digits

end ExponentPart

/-- A JSON number token: its sign, the digits in front of the point, those behind it (none when no point is
written) and its exponent. -/
structure Token where
  negative : Bool
  integer : Bytes
  fraction : Bytes
  exponent : Option ExponentPart
  integer_ok : integer = [chZero] ∨ ∃ c rest, integer = c :: rest ∧ isDigit19 c = true ∧ Digits rest
  fraction_ok : Digits fraction

namespace Token

def signText (t : Token) : Bytes := if t.negative then [chMinus] else []

def fractionText (t : Token) : Bytes := if t.fraction = [] then [] else chDot :: t.fraction

def exponentText (t : Token) : Bytes :=
  match t.exponent with
  | none => []
  | some e => e.text

def text (t : Token) : Bytes := t.signText ++ t.integer ++ t.fractionText ++ t.exponentText

def exponentValue (t : Token) : Int :=
  match t.exponent with
  | none => 0
  | some e => e.value

/-- The rational number that a token writes. -/
def value (t : Token) : ℚ :=
  (if t.negative then -1 else 1) *
    ((natOf t.integer : ℚ) + (natOf t.fraction : ℚ) / 10 ^ t.fraction.length) * 10 ^ t.exponentValue

/-! ## Tokens are read -/

theorem integer_digits (t : Token) : Digits t.integer := by
  rcases t.integer_ok with h | ⟨c, rest, h, hc, hr⟩
  · rw [h]
    exact canon_zero.digits
  · rw [h]
    intro d hd
    rcases List.mem_cons.mp hd with rfl | hd
    · exact isDigit_of_isDigit19 hc
    · exact hr d hd

theorem digits (t : Token) : Digits (t.integer ++ t.fraction) := t.integer_digits.append t.fraction_ok

theorem parts (t : Token) : NumberParts t.signText t.integer t.fractionText t.exponentText where
  sign := by
    rw [signText]
    split
    · exact .inr rfl
    · exact .inl rfl
  int := t.integer_ok
  fraction := by
    rw [fractionText]
    split
    · exact .inl rfl
    · next h => exact .inr ⟨_, rfl, h, t.fraction_ok⟩
  exponent := by
    rw [exponentText]
    split
    · exact .inl rfl
    · next e _ =>
        refine .inr ⟨e.letter, e.signText, e.digits, rfl, ?_, ?_, e.ne, e.ok⟩
        · rw [ExponentPart.letter]
          split
          · exact .inr rfl
          · exact .inl rfl
        · rw [ExponentPart.signText]
          split
          · exact .inl rfl
          · exact .inr (.inl rfl)
          · exact .inr (.inr rfl)

theorem length_le (t : Token) : (t.integer ++ t.fraction).length ≤ t.text.length := by
  have : t.fraction.length ≤ t.fractionText.length := by
    rw [fractionText]
    split
    · next h => rw [h]
    · exact Nat.le_succ _
  simp only [text, List.length_append]
  omega

/-- What the parser makes of a token's exponent. -/
theorem exponent_read (t : Token) :
    (if (Scan.exponentDigits t.exponentText).1 then -(natOf (Scan.exponentDigits t.exponentText).2 : Int)
      else natOf (Scan.exponentDigits t.exponentText).2) = t.exponentValue ∧
    ((Scan.exponentDigits t.exponentText).2 = [] ∨ Canon (Scan.exponentDigits t.exponentText).2 ∧
      (Scan.exponentDigits t.exponentText).2 ≠ [chZero]) := by
  rw [exponentText, exponentValue]
  cases t.exponent with
  | none => exact ⟨rfl, .inl rfl⟩
  | some e =>
    have hfilter : e.text.tail.filter isDigit = e.digits := by
      rw [ExponentPart.text, List.tail_cons, List.filter_append, Scan.filter_digits e.ok]
      have : e.signText.filter isDigit = [] := by
        rw [ExponentPart.signText]
        split <;> rfl
      rw [this, List.nil_append]
    have hsign : (e.text.tail.head? = some chMinus) ↔ e.sign = some true := by
      obtain ⟨d, ds, hd⟩ := List.exists_cons_of_ne_nil e.ne
      have hdig := e.ok d (by rw [hd]; exact List.mem_cons_self)
      have hm : d ≠ chMinus := by
        rintro rfl
        exact absurd hdig (by decide)
      rw [ExponentPart.text, List.tail_cons, ExponentPart.signText, hd]
      rcases hs : e.sign with _ | _ | _
      · simp [hm]
      · exact iff_of_false (fun he => absurd (Option.some.inj he) (by decide)) (by simp)
      · simp
    simp only [Scan.exponentDigits, hfilter]
    refine ⟨?_, canon_dropZeros e.ok⟩
    rw [natOf_dropZeros, ExponentPart.value]
    by_cases hz : e.digits.dropWhile (· = chZero) = []
    · have h0 : natOf e.digits = 0 := by rw [← natOf_dropZeros, hz, natOf_nil]
      rw [if_pos hz, h0]
      simp
    · rw [if_neg hz]
      by_cases hn : e.sign = some true
      · rw [if_pos (decide_eq_true (hsign.mpr hn)), if_pos hn]
      · rw [if_neg (by simpa using mt hsign.mp hn), if_neg hn]

/-- The number that the parser makes of a token. -/
def decimal (t : Token) : Decimal :=
  mkDecimal t.negative t.integer t.fraction (Scan.exponentDigits t.exponentText).1
    (Scan.exponentDigits t.exponentText).2

theorem decimalParse (t : Token) : decimalParse t.text = some t.decimal := by
  have h := t.parts.decimalParse
  have hsign : decide (t.signText ≠ []) = t.negative := by
    rw [signText]
    cases t.negative <;> rfl
  have hfrac : t.fractionText.tail = t.fraction := by
    rw [fractionText]
    split
    · next h => rw [h]; rfl
    · rfl
  rw [hsign, hfrac] at h
  exact h

theorem value_eq (t : Token) : t.value = (if t.negative then -1 else 1) *
    ((natOf (t.integer ++ t.fraction) : ℚ) * 10 ^ (t.exponentValue - t.fraction.length)) := by
  rw [value, mul_assoc]
  congr 1
  rw [natOf_append, zpow_sub₀ (by norm_num), zpow_natCast]
  push_cast
  field_simp

theorem decimal_value (t : Token) (h : (t.text.length : Int) ≤ longMax) : t.decimal.value = t.value := by
  obtain ⟨h1, h2⟩ := t.exponent_read
  have hlen := t.length_le
  rw [decimal, mkDecimal_value t.digits h2 (by omega), h1, value_eq]

theorem decimal_good (t : Token) (h : (t.text.length : Int) ≤ longMax) : t.decimal.Good := by
  obtain ⟨-, h2⟩ := t.exponent_read
  have hlen := t.length_le
  by_cases hz : natOf (t.integer ++ t.fraction) = 0
  · refine .inl ?_
    rw [decimal, mkDecimal_zero t.digits hz, Decimal.mag, hz]
    simp
  · obtain ⟨hr, hzero, -, hm⟩ := @mkDecimal_ready t.negative (Scan.exponentDigits t.exponentText).1 t.integer
      t.fraction (Scan.exponentDigits t.exponentText).2 t.digits hz h2 (by omega)
    refine .inr ⟨hzero, hr, ?_⟩
    rw [decimal, hm]
    have : (natOf (t.integer ++ t.fraction) : ℚ) ≠ 0 := by exact_mod_cast hz
    positivity

/-- A text is the writing of one value only. -/
theorem value_unique {s t : Token} (h : s.text = t.text) (hlen : (t.text.length : Int) ≤ longMax) :
    s.value = t.value := by
  have h1 := s.decimalParse
  rw [h, t.decimalParse] at h1
  rw [← s.decimal_value (by rwa [h]), ← t.decimal_value hlen, Option.some.inj h1]

end Token

/-! ## Only tokens are read -/

theorem takeWhile_digits (p : Bytes) : Digits (p.takeWhile isDigit) := fun _ hc => List.mem_takeWhile_imp hc

theorem parseInteger_some {p int rest : Bytes} (h : parseInteger p = some (int, rest)) :
    p = int ++ rest ∧ (int = [chZero] ∨ ∃ c ds, int = c :: ds ∧ isDigit19 c = true ∧ Digits ds) := by
  cases p with
  | nil => cases h
  | cons c p =>
    rw [parseInteger.eq_def] at h
    dsimp only at h
    split at h
    · next hz =>
        rw [hz] at h ⊢
        split at h
        · split at h
          · cases h
          · cases h
            exact ⟨rfl, .inl rfl⟩
        · cases h
          exact ⟨rfl, .inl rfl⟩
    · split at h
      · next hc =>
          cases h
          refine ⟨?_, .inr ⟨c, _, rfl, hc, takeWhile_digits p⟩⟩
          rw [List.cons_append, List.takeWhile_append_dropWhile]
      · cases h

theorem parseFraction_some {p fraction rest : Bytes} (h : parseFraction p = some (fraction, rest)) :
    p = (if fraction = [] then [] else chDot :: fraction) ++ rest ∧ Digits fraction := by
  have hnil : Digits [] := fun _ hc => absurd hc List.not_mem_nil
  cases p with
  | nil =>
    cases h
    exact ⟨rfl, hnil⟩
  | cons c p =>
    rw [parseFraction, spanDigits] at h
    dsimp only at h
    split at h
    · next hc =>
        split at h
        · cases h
        · next hne =>
            cases h
            refine ⟨?_, takeWhile_digits p⟩
            rw [if_neg hne, hc, List.cons_append, List.takeWhile_append_dropWhile]
    · cases h
      exact ⟨rfl, hnil⟩

theorem parseExponent_some {p ds : Bytes} {negative : Bool} (h : parseExponent p = some (negative, ds, [])) :
    p = [] ∨ ∃ e : ExponentPart, p = e.text := by
  cases p with
  | nil => exact .inl rfl
  | cons c p =>
    refine .inr ?_
    rw [parseExponent] at h
    dsimp only [spanDigits] at h
    split at h
    · next hc =>
        generalize hd : (if p.head? = some chPlus ∨ p.head? = some chMinus then p.tail else p) = digits at h
        split at h
        · cases h
        · next hne =>
            obtain ⟨-, hrest⟩ := Prod.mk.inj (Prod.mk.inj (Option.some.inj h)).2
            have hall : digits.takeWhile isDigit = digits := by
              have := List.takeWhile_append_dropWhile (p := isDigit) (l := digits)
              rwa [hrest, List.append_nil] at this
            have hdig : Digits digits := hall ▸ takeWhile_digits digits
            have hupper : ∀ sign, ExponentPart.letter ⟨decide (c = chUpperE), sign, digits, hdig, hall ▸ hne⟩ = c := by
              intro sign
              rw [ExponentPart.letter]
              rcases hc with rfl | rfl <;> rfl
            by_cases hplus : p.head? = some chPlus
            · obtain ⟨q, rfl⟩ := List.head?_eq_some_iff.mp hplus
              rw [if_pos (.inl hplus)] at hd
              refine ⟨⟨decide (c = chUpperE), some false, digits, hdig, hall ▸ hne⟩, ?_⟩
              rw [ExponentPart.text, hupper]
              exact congrArg (c :: chPlus :: ·) hd
            · by_cases hminus : p.head? = some chMinus
              · obtain ⟨q, rfl⟩ := List.head?_eq_some_iff.mp hminus
                rw [if_pos (.inr hminus)] at hd
                refine ⟨⟨decide (c = chUpperE), some true, digits, hdig, hall ▸ hne⟩, ?_⟩
                rw [ExponentPart.text, hupper]
                exact congrArg (c :: chMinus :: ·) hd
              · rw [if_neg (not_or.mpr ⟨hplus, hminus⟩)] at hd
                refine ⟨⟨decide (c = chUpperE), none, digits, hdig, hall ▸ hne⟩, ?_⟩
                rw [ExponentPart.text, hupper]
                exact congrArg (c :: ·) hd
    · cases h

theorem sign_split (text : Bytes) : text =
    (if text.head? = some chMinus then [chMinus] else []) ++
      (if text.head? = some chMinus then text.tail else text) := by
  by_cases h : text.head? = some chMinus
  · obtain ⟨rest, rfl⟩ := List.head?_eq_some_iff.mp h
    simp
  · simp [h]

/-- What the parser reads is a token. -/
theorem decimalParse_some {text : Bytes} {d : Decimal} (h : decimalParse text = some d) :
    ∃ t : Token, t.text = text := by
  have hsign := sign_split text
  rw [decimalParse] at h
  obtain ⟨⟨int, p⟩, h1, h⟩ := Option.bind_eq_some_iff.mp h
  obtain ⟨⟨fraction, q⟩, h2, h⟩ := Option.bind_eq_some_iff.mp h
  obtain ⟨⟨negative, exponent, rest⟩, h3, h⟩ := Option.bind_eq_some_iff.mp h
  dsimp only at h1 h2 h3 h
  split at h
  · cases h
  · next hr =>
      obtain rfl : rest = [] := not_not.mp hr
      obtain ⟨e1, hint⟩ := parseInteger_some h1
      obtain ⟨e2, hfrac⟩ := parseFraction_some h2
      rw [e1, e2] at hsign
      rcases parseExponent_some h3 with e3 | ⟨e, e3⟩
      · refine ⟨⟨decide (text.head? = some chMinus), int, fraction, none, hint, hfrac⟩, ?_⟩
        rw [e3] at hsign
        refine Eq.trans ?_ hsign.symm
        simp only [Token.text, Token.signText, Token.fractionText, Token.exponentText, List.append_assoc,
          decide_eq_true_eq]
      · refine ⟨⟨decide (text.head? = some chMinus), int, fraction, some e, hint, hfrac⟩, ?_⟩
        rw [e3] at hsign
        refine Eq.trans ?_ hsign.symm
        simp only [Token.text, Token.signText, Token.fractionText, Token.exponentText, List.append_assoc,
          decide_eq_true_eq]

/-! ## Plain integers -/

/-- What the shortcut for integers reads is a token, and it reads its value. -/
theorem plainInteger_some {text ds : Bytes} {negative zero : Bool}
    (h : plainInteger text = some (ds, negative, zero)) :
    ∃ t : Token, t.text = text ∧ Canon ds ∧ (zero = true ↔ (natOf ds : ℚ) = 0) ∧
      t.value = if negative then -(natOf ds : ℚ) else natOf ds := by
  have hsign := sign_split text
  have hnil : Digits [] := fun _ hc => absurd hc List.not_mem_nil
  rw [plainInteger] at h
  generalize (if text.head? = some chMinus then text.tail else text) = body at h hsign
  cases body with
  | nil => cases h
  | cons c rest =>
    dsimp only at h
    split at h
    · next hz =>
        split at h
        · next hrest =>
            cases h
            rw [hz, hrest] at hsign
            refine ⟨⟨decide (text.head? = some chMinus), [chZero], [], none, .inl rfl, hnil⟩, ?_,
              by rw [hz]; exact canon_zero, ?_, ?_⟩
            · refine Eq.trans ?_ hsign.symm
              simp [Token.text, Token.signText, Token.fractionText, Token.exponentText]
            · have : natOf [c] = 0 := by rw [hz]; rfl
              simp [this]
            · have : natOf [c] = 0 := by rw [hz]; rfl
              have h0 : natOf [chZero] = 0 := rfl
              simp [Token.value, this, h0]
        · cases h
    · next hz =>
        split at h
        · next hd =>
            cases h
            obtain ⟨hc, hall⟩ := Bool.and_eq_true_iff.mp hd
            have hds : Digits rest := List.all_eq_true.mp hall
            have hdig : Digits (c :: rest) := by
              intro d hd
              rcases List.mem_cons.mp hd with rfl | hd
              · exact isDigit_of_isDigit19 hc
              · exact hds d hd
            have hcanon : Canon (c :: rest) :=
              ⟨hdig, List.cons_ne_nil _ _, .inr fun e => hz (Option.some.inj e)⟩
            have hpos := hcanon.pos fun e => hz (List.cons.inj e).1
            refine ⟨⟨decide (text.head? = some chMinus), c :: rest, [], none, .inr ⟨c, rest, rfl, hc, hds⟩, hnil⟩,
              ?_, hcanon, ?_, ?_⟩
            · refine Eq.trans ?_ hsign.symm
              simp [Token.text, Token.signText, Token.fractionText, Token.exponentText]
            · have : (natOf (c :: rest) : ℚ) ≠ 0 := by exact_mod_cast hpos.ne'
              simp [this]
            · rw [Token.value_eq]
              simp only [Token.exponentValue, List.append_nil, List.length_nil]
              split <;> simp
        · cases h

theorem orderSign_cast (m n : Nat) : orderSign (m : ℚ) n = orderSign m n :=
  orderSign_congr Nat.cast_lt Nat.cast_lt

/-- The shortcut for integers compares values. -/
theorem comparePlainIntegers_some {left right : Bytes} {cmp : Int}
    (h : comparePlainIntegers left right = some cmp) :
    ∃ l r : Token, l.text = left ∧ r.text = right ∧ cmp = orderSign l.value r.value := by
  obtain ⟨⟨ds, n, z⟩, h1, h⟩ := Option.bind_eq_some_iff.mp h
  obtain ⟨⟨es, m, y⟩, h2, h⟩ := Option.bind_eq_some_iff.mp h
  cases h
  obtain ⟨l, hl, hc1, hz1, hv1⟩ := plainInteger_some h1
  obtain ⟨r, hr, hc2, hz2, hv2⟩ := plainInteger_some h2
  refine ⟨l, r, hl, hr, ?_⟩
  rw [hv1, hv2]
  refine compareSigned_eq (Nat.cast_nonneg _) (Nat.cast_nonneg _) hz1 hz2 fun _ _ => ?_
  rw [compareDigits_eq hc1 hc2, orderSign_cast]

/-! ## The comparison -/

theorem sign_sub (a b : ℚ) : ((SignType.sign (a - b) : SignType) : Int) = orderSign a b := by
  rcases lt_trichotomy a b with h | rfl | h
  · rw [sign_neg (sub_neg.mpr h), orderSign_lt h]
    rfl
  · rw [sub_self, sign_zero, orderSign_self]
    rfl
  · rw [sign_pos (sub_pos.mpr h), orderSign_gt h]
    rfl

theorem compareJson_isSome (left right : Bytes) : (compareJson left right).isSome = true ↔
    (∃ t : Token, t.text = left) ∧ ∃ t : Token, t.text = right := by
  rw [compareJson]
  constructor
  · intro h
    cases hp : comparePlainIntegers left right with
    | some cmp =>
      obtain ⟨l, r, hl, hr, -⟩ := comparePlainIntegers_some hp
      exact ⟨⟨l, hl⟩, ⟨r, hr⟩⟩
    | none =>
      rw [hp] at h
      obtain ⟨cmp, h⟩ := Option.isSome_iff_exists.mp h
      obtain ⟨a, h1, h⟩ := Option.bind_eq_some_iff.mp h
      obtain ⟨b, h2, -⟩ := Option.bind_eq_some_iff.mp h
      exact ⟨decimalParse_some h1, decimalParse_some h2⟩
  · rintro ⟨⟨l, rfl⟩, ⟨r, rfl⟩⟩
    cases hp : comparePlainIntegers l.text r.text with
    | some cmp => rfl
    | none => simp [l.decimalParse, r.decimalParse]

/-- **The comparison of two numbers is exact**: it succeeds on number tokens only, and there it is the sign
of the difference of their values. -/
theorem compareJson_exact (left right : Bytes) :
    ((compareJson left right).isSome = true ↔ (∃ t : Token, t.text = left) ∧ ∃ t : Token, t.text = right) ∧
      ∀ l r : Token, l.text = left → r.text = right →
        (left.length : Int) ≤ longMax → (right.length : Int) ≤ longMax →
          compareJson left right = some ((SignType.sign (l.value - r.value) : SignType) : Int) := by
  refine ⟨compareJson_isSome left right, ?_⟩
  rintro l r rfl rfl hl hr
  rw [sign_sub, compareJson]
  cases hp : comparePlainIntegers l.text r.text with
  | some cmp =>
    obtain ⟨l', r', hl', hr', hcmp⟩ := comparePlainIntegers_some hp
    dsimp only
    rw [hcmp, Token.value_unique hl' hl, Token.value_unique hr' hr]
  | none =>
    simp only [l.decimalParse, r.decimalParse, Option.bind_eq_bind, Option.bind_some]
    rw [compareDecimals_eq (l.decimal_good hl) (r.decimal_good hr), l.decimal_value hl, r.decimal_value hr]

/-- `1.50e2` -/
def tensShort : Token where
  negative := false
  integer := [0x31]
  fraction := [0x35, 0x30]
  exponent := some ⟨false, none, [0x32], List.all_eq_true.mp rfl, List.cons_ne_nil _ _⟩
  integer_ok := .inr ⟨0x31, [], rfl, rfl, List.all_eq_true.mp rfl⟩
  fraction_ok := List.all_eq_true.mp rfl

/-- `-15E+01` -/
def tensLong : Token where
  negative := true
  integer := [0x31, 0x35]
  fraction := []
  exponent := some ⟨true, some false, [0x30, 0x31], List.all_eq_true.mp rfl, List.cons_ne_nil _ _⟩
  integer_ok := .inr ⟨0x31, [0x35], rfl, rfl, List.all_eq_true.mp rfl⟩
  fraction_ok := List.all_eq_true.mp rfl

theorem compareJson_exact_tens : compareJson tensShort.text tensLong.text =
    some ((SignType.sign (tensShort.value - tensLong.value) : SignType) : Int) :=
  (compareJson_exact _ _).2 tensShort tensLong rfl rfl (by decide) (by decide)

end Lql.Number
