import Lql.Number.Digits
import Mathlib.Algebra.Order.Field.Power
import Mathlib.Algebra.Order.Field.Rat
import Mathlib.Data.List.GetD
import Mathlib.Data.List.TakeWhile
import Mathlib.Tactic.Linarith
import Mathlib.Tactic.Positivity

/-!
# The magnitudes that are compared

A parsed number that is not zero is `0.c * 10 ^ e`, where the coefficient `c` starts with a nonzero digit: the
adjusted exponent is `e`, whatever zeros the number is written with, so that comparing first the exponents
and then the padded coefficients compares the values.
-/

namespace Lql.Number

/-! ## The magnitude of a parsed number -/

/-- The exponent of a parsed number, before the decimal point is moved. -/
def Decimal.scale (d : Decimal) : Int :=
  if d.exponentNegative then -(natOf d.exponent : Int) else natOf d.exponent

/-- The absolute value of a parsed number. -/
def Decimal.mag (d : Decimal) : ℚ :=
  (natOf (d.integer ++ d.fraction) : ℚ) * 10 ^ (d.scale - d.fraction.length)

/-- The value of a parsed number. -/
def Decimal.value (d : Decimal) : ℚ := if d.negative then -d.mag else d.mag

/-- The value `0.c * 10 ^ e`. -/
def magnitude (c : Bytes) (e : Int) : ℚ := (natOf c : ℚ) * 10 ^ (e - c.length)

/-- The coefficient of a parsed number. -/
def Decimal.coeff (d : Decimal) : Bytes := ((d.integer ++ d.fraction).drop d.leadingSkip).take d.coeffLen

/-- What the comparison relies on in a parsed number that is not zero. -/
structure Decimal.Ready (d : Decimal) : Prop where
  digits : Digits (d.integer ++ d.fraction)
  exponent : d.exponent = [] ∨ Canon d.exponent ∧ d.exponent ≠ [chZero]
  len : d.coeff.length = d.coeffLen
  ne : d.coeff ≠ []
  head : d.coeff.head? ≠ some chZero
  small : d.decimalAdjust.natAbs < 10 ^ 32
  mag : d.mag = magnitude d.coeff (d.scale + d.decimalAdjust)

theorem Decimal.Ready.coeff_digits {d : Decimal} (h : d.Ready) : Digits d.coeff :=
  h.digits.sublist ((List.take_sublist _ _).trans (List.drop_sublist _ _))

theorem Decimal.Ready.scale_nil {d : Decimal} (h : d.exponent = []) : d.scale = 0 := by
  rw [scale, h]
  simp

/-- **The adjusted exponent is the sum of the written exponent and the place of the point.** -/
theorem adjustedExponent_shows {d : Decimal} (h : d.Ready) :
    Shows (adjustedExponent d) (d.scale + d.decimalAdjust) := by
  obtain ⟨hc, hv⟩ := ulongText_eq h.small
  have hneg : decide (d.decimalAdjust < 0) = true ↔ d.decimalAdjust < 0 := decide_eq_true_iff
  rw [adjustedExponent]
  dsimp only
  rcases h.exponent with he | ⟨he, hz⟩
  · rw [if_pos he, if_pos rfl, Decimal.Ready.scale_nil he]
    have := @addDigits_shows _ _ (decide (d.decimalAdjust < 0)) canon_zero.digits hc.digits (by
      intro hn
      have := hneg.mp hn
      rw [hv]
      omega)
    convert this using 1
    have h0 : natOf [chZero] = 0 := rfl
    rw [hv, h0]
    by_cases hn : d.decimalAdjust < 0
    · simp only [hn, decide_true, if_true]
      omega
    · simp only [hn, decide_false, Bool.false_eq_true, if_false]
      omega
  · have hne : d.exponent ≠ [] := he.ne
    have hpos := he.pos hz
    rw [if_neg hne, if_neg hne, if_neg hz]
    by_cases hsame : d.decimalAdjust.natAbs = 0 ∨ d.exponentNegative = decide (d.decimalAdjust < 0)
    · rw [if_pos hsame]
      have := @addDigits_shows _ _ d.exponentNegative he.digits hc.digits (fun _ => by omega)
      convert this using 1
      rw [hv, Decimal.scale]
      rcases hsame with h0 | h0
      · split <;> omega
      · by_cases hlt : d.decimalAdjust < 0
        · simp only [h0, hlt, decide_true, if_true]
          omega
        · simp only [h0, hlt, decide_false, Bool.false_eq_true, if_false]
          omega
    · rw [if_neg hsame, compareDigits_eq he hc]
      obtain ⟨hz0, hopp⟩ := not_or.mp hsame
      rcases lt_trichotomy (natOf d.exponent) (natOf (ulongText d.decimalAdjust.natAbs)) with hlt | heq | hgt
      · rw [orderSign_lt hlt, if_neg (by decide), if_neg (by decide)]
        have := @subDigits_shows _ _ (decide (d.decimalAdjust < 0)) hc.digits he.digits hc.ne hlt.le
        convert this using 1
        rw [hv, Decimal.scale]
        by_cases hn : d.decimalAdjust < 0
        · have hen : d.exponentNegative = false := by simpa [hn] using hopp
          simp only [hen, hn, decide_true, if_true, Bool.false_eq_true, if_false]
          omega
        · have hen : d.exponentNegative = true := by simpa [hn] using hopp
          simp only [hen, hn, decide_false, if_true, Bool.false_eq_true, if_false]
          omega
      · rw [heq, orderSign_self, if_pos rfl]
        have := @subDigits_shows _ _ false canon_zero.digits canon_zero.digits canon_zero.ne le_rfl
        convert this using 1
        rw [hv] at heq
        rw [Decimal.scale, heq]
        by_cases hn : d.decimalAdjust < 0
        · have hen : d.exponentNegative = false := by simpa [hn] using hopp
          simp only [hen, Bool.false_eq_true, if_false]
          omega
        · have hen : d.exponentNegative = true := by simpa [hn] using hopp
          simp only [hen, if_true, Bool.false_eq_true, if_false]
          omega
      · rw [orderSign_gt hgt, if_neg (by decide), if_pos (by decide)]
        have := @subDigits_shows _ _ d.exponentNegative he.digits hc.digits he.ne hgt.le
        convert this using 1
        rw [hv, Decimal.scale]
        by_cases hn : d.decimalAdjust < 0
        · have hen : d.exponentNegative = false := by simpa [hn] using hopp
          simp only [hen, Bool.false_eq_true, if_false]
          omega
        · have hen : d.exponentNegative = true := by simpa [hn] using hopp
          simp only [hen, if_true]
          omega

/-! ## Coefficients -/

/-- A coefficient with zeros behind it. -/
def padded (d : Decimal) (i n : Nat) : Bytes :=
  (List.range' i n).map fun j => if j < d.coeffLen then digitAt d j else chZero

theorem compareCoeffs_memcmp (l r : Decimal) : ∀ n i : Nat,
    compareCoeffs l r n i = memcmp (padded l i n) (padded r i n)
  | 0, _ => rfl
  | n + 1, i => by
    rw [compareCoeffs, padded, padded, List.range'_succ, List.map_cons, List.map_cons, memcmp,
      compareCoeffs_memcmp l r n (i + 1)]
    rfl

theorem padded_eq {d : Decimal} (h : d.Ready) {m : Nat} (hm : d.coeffLen ≤ m) :
    padded d 0 m = d.coeff ++ List.replicate (m - d.coeffLen) chZero := by
  have hlen := h.len
  apply List.ext_getElem
  · simp only [padded, List.length_map, List.length_range', List.length_append, List.length_replicate]
    omega
  · intro i h1 h2
    simp only [padded, List.getElem_map, List.getElem_range', Nat.zero_add, Nat.one_mul]
    by_cases hi : i < d.coeffLen
    · have hd : d.leadingSkip + i < (d.integer ++ d.fraction).length := by
        rw [Decimal.coeff, List.length_take, List.length_drop] at hlen
        omega
      rw [if_pos hi, List.getElem_append_left (by omega), digitAt, List.getD_eq_getElem _ _ hd]
      simp only [Decimal.coeff, List.getElem_take, List.getElem_drop]
    · rw [if_neg hi, List.getElem_append_right (by omega), List.getElem_replicate]

theorem compareCoeffs_eq {l r : Decimal} (hl : l.Ready) (hr : r.Ready) {m : Nat} (h1 : l.coeffLen ≤ m)
    (h2 : r.coeffLen ≤ m) :
    compareCoeffs l r m 0 =
      orderSign (natOf l.coeff * 10 ^ (m - l.coeffLen)) (natOf r.coeff * 10 ^ (m - r.coeffLen)) := by
  have hval : ∀ {d : Decimal}, d.Ready → d.coeffLen ≤ m →
      Digits (padded d 0 m) ∧ (padded d 0 m).length = m ∧
        natOf (padded d 0 m) = natOf d.coeff * 10 ^ (m - d.coeffLen) := by
    intro d hd hm
    rw [padded_eq hd hm]
    refine ⟨hd.coeff_digits.append (digits_zeros _), ?_, ?_⟩
    · rw [List.length_append, List.length_replicate, hd.len]
      omega
    · rw [natOf_append, natOf_zeros, List.length_replicate, Nat.add_zero]
  obtain ⟨hl1, hl2, hl3⟩ := hval hl h1
  obtain ⟨hr1, hr2, hr3⟩ := hval hr h2
  rw [compareCoeffs_memcmp, memcmp_eq (hl2.trans hr2.symm) hl1 hr1, hl3, hr3]

section Magnitude

variable {c : Bytes} {e : Int}

theorem magnitude_lt (h : Digits c) : magnitude c e < 10 ^ e := by
  have h1 : (natOf c : ℚ) < 10 ^ (c.length : Int) := by
    rw [zpow_natCast]
    exact_mod_cast natOf_lt h
  calc magnitude c e < 10 ^ (c.length : Int) * 10 ^ (e - c.length) :=
        mul_lt_mul_of_pos_right h1 (by positivity)
    _ = 10 ^ e := by
        rw [← zpow_add₀ (by norm_num)]
        congr 1
        omega

theorem le_magnitude (h : Digits c) (hne : c ≠ []) (hz : c.head? ≠ some chZero) :
    10 ^ (e - 1) ≤ magnitude c e := by
  cases c with
  | nil => exact absurd rfl hne
  | cons d c =>
    have h1 : ((10 ^ c.length : Nat) : ℚ) ≤ natOf (d :: c) := by
      exact_mod_cast natOf_ge h.cons.1 fun e => hz (by rw [e]; rfl)
    calc (10 : ℚ) ^ (e - 1) = 10 ^ (c.length : Int) * 10 ^ (e - (d :: c).length) := by
          rw [← zpow_add₀ (by norm_num)]
          congr 1
          rw [List.length_cons]
          omega
      _ ≤ magnitude (d :: c) e := by
          refine mul_le_mul_of_nonneg_right ?_ (by positivity)
          rw [zpow_natCast]
          exact_mod_cast h1

theorem magnitude_pad (c : Bytes) (e : Int) {m : Nat} (h : c.length ≤ m) :
    magnitude c e = ((natOf c * 10 ^ (m - c.length) : Nat) : ℚ) * 10 ^ (e - m) := by
  rw [magnitude, Nat.cast_mul, mul_assoc, Nat.cast_pow, Nat.cast_ofNat, ← zpow_natCast,
    ← zpow_add₀ (by norm_num)]
  congr 2
  omega

end Magnitude

/-- **Numbers that are not zero compare as their magnitudes.** -/
theorem compareAbs_eq {l r : Decimal} (hl : l.Ready) (hr : r.Ready) :
    compareAbs l r = orderSign l.mag r.mag := by
  have hbase : (1 : ℚ) < 10 := by norm_num
  have hsep : ∀ {x y : Decimal}, x.Ready → y.Ready →
      x.scale + x.decimalAdjust < y.scale + y.decimalAdjust → x.mag < y.mag := by
    intro x y hx hy hlt
    rw [hx.mag, hy.mag]
    calc _ < 10 ^ (x.scale + x.decimalAdjust) := magnitude_lt hx.coeff_digits
      _ ≤ 10 ^ (y.scale + y.decimalAdjust - 1) := zpow_le_zpow_right₀ hbase.le (by omega)
      _ ≤ _ := le_magnitude hy.coeff_digits hy.ne hy.head
  rw [compareAbs, compareSignedDecimal_shows (adjustedExponent_shows hl) (adjustedExponent_shows hr)]
  rcases lt_trichotomy (l.scale + l.decimalAdjust) (r.scale + r.decimalAdjust) with h | h | h
  · rw [orderSign_lt h, if_pos (by decide), orderSign_lt (hsep hl hr h)]
  · rw [h, orderSign_self, if_neg (by decide), if_neg (by decide),
      compareCoeffs_eq hl hr (Nat.le_max_left _ _) (Nat.le_max_right _ _), hl.mag, hr.mag, h]
    have h1 := magnitude_pad l.coeff (r.scale + r.decimalAdjust)
      (hl.len.le.trans (Nat.le_max_left l.coeffLen r.coeffLen))
    have h2 := magnitude_pad r.coeff (r.scale + r.decimalAdjust)
      (hr.len.le.trans (Nat.le_max_right l.coeffLen r.coeffLen))
    rw [h1, h2, hl.len, hr.len]
    have hp : (0 : ℚ) < 10 ^ (r.scale + r.decimalAdjust - (max l.coeffLen r.coeffLen : Nat)) := by positivity
    refine orderSign_congr ?_ ?_
    · rw [mul_lt_mul_iff_left₀ hp, Nat.cast_lt]
    · rw [mul_lt_mul_iff_left₀ hp, Nat.cast_lt]
  · rw [orderSign_gt h, if_neg (by decide), if_pos (by decide), orderSign_gt (hsep hr hl h)]

/-- Signs and zeros first, then magnitudes: the order of the values. -/
theorem compareSigned_eq {m₁ m₂ : ℚ} {z₁ z₂ n₁ n₂ : Bool} {abs : Int} (h₁ : 0 ≤ m₁) (h₂ : 0 ≤ m₂)
    (hz₁ : z₁ = true ↔ m₁ = 0) (hz₂ : z₂ = true ↔ m₂ = 0)
    (habs : z₁ = false → z₂ = false → abs = orderSign m₁ m₂) :
    compareSigned z₁ z₂ n₁ n₂ abs = orderSign (if n₁ then -m₁ else m₁) (if n₂ then -m₂ else m₂) := by
  have hpos : ∀ {z : Bool} {m : ℚ}, 0 ≤ m → (z = true ↔ m = 0) → z = false → 0 < m := by
    intro z m hm hz he
    refine lt_of_le_of_ne hm fun e => ?_
    rw [hz.mpr e.symm] at he
    cases he
  cases z₁ with
  | true =>
    have e₁ : m₁ = 0 := hz₁.mp rfl
    have l₁ : (if n₁ then -m₁ else m₁) = 0 := by rw [e₁, neg_zero, ite_self]
    rw [l₁]
    cases z₂ with
    | true =>
      have e₂ : m₂ = 0 := hz₂.mp rfl
      rw [e₂, neg_zero, ite_self, orderSign_self]
      rfl
    | false =>
      have p₂ := hpos h₂ hz₂ rfl
      cases n₂ with
      | true => exact (orderSign_gt (by simpa using p₂)).symm
      | false => exact (orderSign_lt (by simpa using p₂)).symm
  | false =>
    have p₁ := hpos h₁ hz₁ rfl
    cases z₂ with
    | true =>
      have e₂ : m₂ = 0 := hz₂.mp rfl
      rw [e₂, neg_zero, ite_self]
      cases n₁ with
      | true => exact (orderSign_lt (by simpa using p₁)).symm
      | false => exact (orderSign_gt (by simpa using p₁)).symm
    | false =>
      have p₂ := hpos h₂ hz₂ rfl
      have ha := habs rfl rfl
      cases n₁ with
      | true =>
        cases n₂ with
        | true =>
          have : compareSigned false false true true abs = -abs := rfl
          rw [this, ha, ← orderSign_swap]
          exact orderSign_congr (by simp) (by simp)
        | false => exact (orderSign_lt (by simp only [if_true, Bool.false_eq_true, if_false]; linarith)).symm
      | false =>
        cases n₂ with
        | true => exact (orderSign_gt (by simp only [if_true, Bool.false_eq_true, if_false]; linarith)).symm
        | false => exact ha

/-! ## Zeros in front and behind -/

theorem natOf_eq_zero_iff : ∀ {ds : Bytes}, Digits ds → (natOf ds = 0 ↔ ∀ c ∈ ds, c = chZero)
  | [], _ => ⟨fun _ _ hc => absurd hc List.not_mem_nil, fun _ => rfl⟩
  | c :: ds, h => by
    have ih := natOf_eq_zero_iff h.cons.2
    have hc := digitVal_eq_zero h.cons.1
    have hp : 0 < 10 ^ ds.length := Nat.pow_pos (by decide)
    rw [natOf_cons, Nat.add_eq_zero_iff, Nat.mul_eq_zero, ih, hc, List.forall_mem_cons]
    constructor
    · rintro ⟨h1 | h1, h2⟩
      · exact ⟨h1, h2⟩
      · omega
    · rintro ⟨h1, h2⟩
      exact ⟨.inl h1, h2⟩

theorem takeWhile_zeros (ds : Bytes) :
    ds.takeWhile (· = chZero) = List.replicate (ds.takeWhile (· = chZero)).length chZero :=
  List.eq_replicate_of_mem fun c hc => by simpa using List.mem_takeWhile_imp hc

theorem natOf_dropZeros (ds : Bytes) : natOf (ds.dropWhile (· = chZero)) = natOf ds := by
  conv_rhs => rw [← List.takeWhile_append_dropWhile (p := (· = chZero)) (l := ds), takeWhile_zeros,
    natOf_append, natOf_zeros, Nat.zero_mul, Nat.zero_add]

theorem canon_dropZeros {ds : Bytes} (h : Digits ds) : ds.dropWhile (· = chZero) = [] ∨
    Canon (ds.dropWhile (· = chZero)) ∧ ds.dropWhile (· = chZero) ≠ [chZero] := by
  have hd : Digits (ds.dropWhile (· = chZero)) := h.sublist (List.dropWhile_sublist _)
  have hhead := List.head?_dropWhile_not (fun c : UInt8 => decide (c = chZero)) ds
  cases hr : ds.dropWhile (· = chZero) with
  | nil => exact .inl rfl
  | cons c rest =>
    rw [hr] at hhead hd
    have hc : c ≠ chZero := by simpa using hhead
    exact .inr ⟨⟨hd, List.cons_ne_nil _ _, .inr fun e => hc (Option.some.inj e)⟩,
      fun e => hc (List.cons.inj e).1⟩

/-- The coefficient between the zeros. -/
theorem split_zeros {ds : Bytes} (h : ∃ c ∈ ds, c ≠ chZero) : ∃ coeff : Bytes,
    ds = List.replicate (ds.takeWhile (· = chZero)).length chZero ++
      (coeff ++ List.replicate (ds.reverse.takeWhile (· = chZero)).length chZero) ∧
    coeff ≠ [] ∧ coeff.head? ≠ some chZero := by
  have hsplit := List.takeWhile_append_dropWhile (p := (· = chZero)) (l := ds)
  have hhead := List.head?_dropWhile_not (fun c : UInt8 => decide (c = chZero)) ds
  cases hr : ds.dropWhile (· = chZero) with
  | nil =>
    obtain ⟨c, hc, hne⟩ := h
    have := List.dropWhile_eq_nil_iff.mp hr c hc
    exact absurd (of_decide_eq_true this) hne
  | cons c rest =>
    rw [hr] at hhead hsplit
    have hc : c ≠ chZero := by simpa using hhead
    have hrev : ds.reverse.takeWhile (· = chZero) = (c :: rest).reverse.takeWhile (· = chZero) := by
      rw [← hsplit, List.reverse_append, List.takeWhile_append, if_neg]
      intro hall
      have hself := List.takeWhile_eq_self_iff.mp
        ((List.takeWhile_prefix (p := (· = chZero)) (l := (c :: rest).reverse)).eq_of_length hall)
      exact hc (of_decide_eq_true (hself c (List.mem_reverse.mpr List.mem_cons_self)))
    have hback := List.takeWhile_append_dropWhile (p := (· = chZero)) (l := (c :: rest).reverse)
    have hrest : c :: rest = ((c :: rest).reverse.dropWhile (· = chZero)).reverse ++
        List.replicate (ds.reverse.takeWhile (· = chZero)).length chZero := by
      rw [hrev]
      conv_lhs => rw [← List.reverse_reverse (c :: rest), ← hback, List.reverse_append]
      rw [takeWhile_zeros, List.reverse_replicate, List.length_replicate]
    have hne : ((c :: rest).reverse.dropWhile (· = chZero)).reverse ≠ [] := by
      intro e
      have := List.dropWhile_eq_nil_iff.mp (List.reverse_eq_nil_iff.mp e) c
        (List.mem_reverse.mpr List.mem_cons_self)
      exact hc (of_decide_eq_true this)
    refine ⟨_, ?_, hne, ?_⟩
    · rw [← hrest]
      conv_lhs => rw [← hsplit, takeWhile_zeros]
    · obtain ⟨d, ds', hd⟩ := List.exists_cons_of_ne_nil hne
      rw [hd] at hrest ⊢
      intro e
      exact hc ((List.cons.inj hrest).1.trans (Option.some.inj e))

/-! ## The parsed number -/

theorem clampAdd_eq {a b : Int} (h1 : longMin ≤ a + b) (h2 : a + b ≤ longMax) : clampAdd a b = a + b := by
  rw [clampAdd, if_neg (by omega), if_neg (by omega)]

theorem sizeToLong_eq {n : Nat} (h : (n : Int) ≤ longMax) : sizeToLong n = n := by
  rw [sizeToLong, if_neg (by omega)]

section MkDecimal

variable {negative exponentNegative : Bool} {integer fraction exponent : Bytes}

theorem mkDecimal_zero (hd : Digits (integer ++ fraction)) (hz : natOf (integer ++ fraction) = 0) :
    mkDecimal negative integer fraction exponentNegative exponent =
      { integer, fraction, exponent := [], leadingSkip := 0, coeffLen := 0, decimalAdjust := 0
        exponentNegative := false, negative := false, zero := true } := by
  have hall : (integer ++ fraction).takeWhile (· = chZero) = integer ++ fraction :=
    List.takeWhile_eq_self_iff.mpr fun c hc => decide_eq_true ((natOf_eq_zero_iff hd).mp hz c hc)
  rw [mkDecimal]
  dsimp only
  rw [if_pos (congrArg List.length hall)]

/-- A number that is not zero is ready for the comparison. -/
theorem mkDecimal_ready (hd : Digits (integer ++ fraction)) (hz : natOf (integer ++ fraction) ≠ 0)
    (he : exponent = [] ∨ Canon exponent ∧ exponent ≠ [chZero])
    (hlen : ((integer ++ fraction).length : Int) ≤ longMax) :
    (mkDecimal negative integer fraction exponentNegative exponent).Ready ∧
      (mkDecimal negative integer fraction exponentNegative exponent).zero = false ∧
      (mkDecimal negative integer fraction exponentNegative exponent).negative = negative ∧
      (mkDecimal negative integer fraction exponentNegative exponent).mag =
        (natOf (integer ++ fraction) : ℚ) * 10 ^ ((if exponentNegative then -(natOf exponent : Int)
          else natOf exponent) - fraction.length) := by
  have hsome : ∃ c ∈ integer ++ fraction, c ≠ chZero := by
    by_contra hall
    push Not at hall
    exact hz ((natOf_eq_zero_iff hd).mpr hall)
  obtain ⟨coeff, hsplit, hne, hhead⟩ := split_zeros hsome
  generalize ha : ((integer ++ fraction).takeWhile (· = chZero)).length = a at hsplit
  generalize hb : ((integer ++ fraction).reverse.takeWhile (· = chZero)).length = b at hsplit
  have htotal : (integer ++ fraction).length = a + (coeff.length + b) := by
    conv_lhs => rw [hsplit]
    simp only [List.length_append, List.length_replicate]
  have hpos : 0 < coeff.length := List.length_pos_iff.mpr hne
  have hfrac : fraction.length ≤ a + (coeff.length + b) := by
    rw [← htotal, List.length_append]
    omega
  have hcl : a + (coeff.length + b) - b - a = coeff.length := by omega
  have hadj : clampAdd (clampAdd (sizeToLong coeff.length) (-sizeToLong fraction.length))
      (sizeToLong b) = (coeff.length : Int) - fraction.length + b := by
    rw [htotal] at hlen
    have hmax : longMax = 9223372036854775807 := rfl
    have hmin : longMin = -9223372036854775808 := rfl
    have hinner : clampAdd (coeff.length : Int) (-(fraction.length : Int)) =
        (coeff.length : Int) + -(fraction.length : Int) := clampAdd_eq (by omega) (by omega)
    rw [sizeToLong_eq (n := coeff.length) (by omega), sizeToLong_eq (n := fraction.length) (by omega),
      sizeToLong_eq (n := b) (by omega), hinner, clampAdd_eq (by omega) (by omega)]
    omega
  have hmk : mkDecimal negative integer fraction exponentNegative exponent =
      { integer, fraction, exponent, leadingSkip := a, coeffLen := coeff.length
        decimalAdjust := (coeff.length : Int) - fraction.length + b
        exponentNegative, negative, zero := false } := by
    rw [mkDecimal]
    dsimp only
    rw [ha, hb, htotal, if_neg (by omega), hcl, hadj]
  have hcoeff : ((integer ++ fraction).drop a).take coeff.length = coeff := by
    conv_lhs => rw [hsplit]
    rw [List.drop_left' (List.length_replicate), List.take_left' rfl]
  have hnat : natOf (integer ++ fraction) = natOf coeff * 10 ^ b := by
    conv_lhs => rw [hsplit]
    rw [natOf_append, natOf_zeros, natOf_append, natOf_zeros, List.length_replicate]
    omega
  rw [hmk]
  refine ⟨⟨hd, he, ?_, ?_, ?_, ?_, ?_⟩, rfl, rfl, rfl⟩
  · exact congrArg List.length hcoeff
  · rw [Decimal.coeff]
    dsimp only
    rwa [hcoeff]
  · rw [Decimal.coeff]
    dsimp only
    rwa [hcoeff]
  · rw [htotal] at hlen
    have hmax : longMax = 9223372036854775807 := rfl
    dsimp only
    omega
  · simp only [Decimal.mag, Decimal.coeff, hcoeff, magnitude, hnat, Decimal.scale, Nat.cast_mul,
      Nat.cast_pow, Nat.cast_ofNat]
    rw [mul_assoc, ← zpow_natCast, ← zpow_add₀ (by norm_num)]
    congr 2
    omega

/-- The value of a parsed number, from the parts of its text. -/
theorem mkDecimal_value (hd : Digits (integer ++ fraction))
    (he : exponent = [] ∨ Canon exponent ∧ exponent ≠ [chZero])
    (hlen : ((integer ++ fraction).length : Int) ≤ longMax) :
    (mkDecimal negative integer fraction exponentNegative exponent).value =
      (if negative then -1 else 1) * ((natOf (integer ++ fraction) : ℚ) *
        10 ^ ((if exponentNegative then -(natOf exponent : Int) else natOf exponent) - fraction.length)) := by
  by_cases hz : natOf (integer ++ fraction) = 0
  · rw [mkDecimal_zero hd hz, Decimal.value, Decimal.mag, hz]
    simp
  · obtain ⟨-, -, hn, hm⟩ := @mkDecimal_ready negative exponentNegative integer fraction exponent hd hz he hlen
    rw [Decimal.value, hn, hm]
    split <;> simp

end MkDecimal

/-- What the comparison is given: zero, or a number that is ready. -/
def Decimal.Good (d : Decimal) : Prop := (d.zero = true ∧ d.mag = 0) ∨ (d.zero = false ∧ d.Ready ∧ d.mag ≠ 0)

theorem Decimal.mag_nonneg (d : Decimal) : 0 ≤ d.mag := by
  rw [mag]
  positivity

/-- **Parsed numbers compare as their values.** -/
theorem compareDecimals_eq {a b : Decimal} (ha : a.Good) (hb : b.Good) :
    compareSigned a.zero b.zero a.negative b.negative (compareAbs a b) = orderSign a.value b.value := by
  have hiff : ∀ {d : Decimal}, d.Good → (d.zero = true ↔ d.mag = 0) := by
    rintro d (⟨h1, h2⟩ | ⟨h1, -, h2⟩)
    · simp [h1, h2]
    · simp [h1, h2]
  have hready : ∀ {d : Decimal}, d.Good → d.zero = false → d.Ready := by
    rintro d (⟨h1, -⟩ | ⟨-, h2, -⟩) hz
    · rw [h1] at hz
      cases hz
    · exact h2
  exact compareSigned_eq a.mag_nonneg b.mag_nonneg (hiff ha) (hiff hb) fun hza hzb =>
    compareAbs_eq (hready ha hza) (hready hb hzb)

end Lql.Number
