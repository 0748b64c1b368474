import Lql.Number.Compare
import Mathlib.Data.Nat.Digits.Defs
import Mathlib.Tactic.Ring
import Mathlib.Order.Basic

/-!
# Digit strings as numbers

The comparisons add, subtract and compare decimal numbers as strings of digits. Here each of
these loops is given its meaning: `natOf` is the number a digit string stands for, `Canon` says that it
is written without leading zeros, and `Shows` that a text with an optional minus sign is the canonical
text of an integer.
-/

namespace Lql.Number

/-- The sign of a comparison. -/
def orderSign {α : Type} [LinearOrder α] (a b : α) : Int := if a < b then -1 else if b < a then 1 else 0

section OrderSign

variable {α β : Type} [LinearOrder α] [LinearOrder β] {a b : α} {c d : β}

theorem orderSign_lt (h : a < b) : orderSign a b = -1 := if_pos h

theorem orderSign_gt (h : b < a) : orderSign a b = 1 := by
  rw [orderSign, if_neg (lt_asymm h), if_pos h]

theorem orderSign_self (a : α) : orderSign a a = 0 := by
  rw [orderSign, if_neg (lt_irrefl a), if_neg (lt_irrefl a)]

/-- Two comparisons that go the same way have the same sign. -/
theorem orderSign_congr (h1 : a < b ↔ c < d) (h2 : b < a ↔ d < c) : orderSign a b = orderSign c d := by
  simp only [orderSign, h1, h2]

theorem orderSign_swap (a b : α) : orderSign b a = -orderSign a b := by
  rcases lt_trichotomy a b with h | rfl | h
  · rw [orderSign_lt h, orderSign_gt h]
    rfl
  · rw [orderSign_self]
    rfl
  · rw [orderSign_gt h, orderSign_lt h]

theorem orderSign_neg_iff : orderSign a b < 0 ↔ a < b := by
  rcases lt_trichotomy a b with h | rfl | h
  · simp [orderSign_lt h, h]
  · simp [orderSign_self]
  · simp [orderSign_gt h, not_lt_of_gt h]

theorem orderSign_pos_iff : 0 < orderSign a b ↔ b < a := by
  rcases lt_trichotomy a b with h | rfl | h
  · simp [orderSign_lt h, not_lt_of_gt h]
  · simp [orderSign_self]
  · simp [orderSign_gt h, h]

end OrderSign

/-! ## Digits -/

theorem digitVal_lt {c : UInt8} (h : isDigit c = true) : digitVal c < 10 := by
  simp only [isDigit, Bool.and_eq_true, decide_eq_true_eq, UInt8.le_iff_toNat_le] at h
  have h9 : chNine.toNat = 57 := rfl
  rw [digitVal]
  omega

theorem digit_lt_iff {a b : UInt8} (ha : isDigit a = true) (hb : isDigit b = true) :
    a < b ↔ digitVal a < digitVal b := by
  simp only [isDigit, Bool.and_eq_true, decide_eq_true_eq, UInt8.le_iff_toNat_le] at ha hb
  have h0 : chZero.toNat = 48 := rfl
  rw [UInt8.lt_iff_toNat_lt, digitVal, digitVal]
  omega

theorem digitVal_eq_zero {c : UInt8} (h : isDigit c = true) : digitVal c = 0 ↔ c = chZero := by
  simp only [isDigit, Bool.and_eq_true, decide_eq_true_eq, UInt8.le_iff_toNat_le] at h
  have h0 : chZero.toNat = 48 := rfl
  constructor
  · intro hv
    rw [digitVal] at hv
    exact UInt8.toNat.inj (by omega)
  · rintro rfl
    rfl

theorem digitChar_ok : ∀ d < 10, isDigit (digitChar d) = true ∧ digitVal (digitChar d) = d := by decide

/-- Every byte is a digit. -/
def Digits (ds : Bytes) : Prop := ∀ c ∈ ds, isDigit c = true

theorem Digits.cons {c : UInt8} {ds : Bytes} (h : Digits (c :: ds)) : isDigit c = true ∧ Digits ds :=
  ⟨h c List.mem_cons_self, fun d hd => h d (List.mem_cons_of_mem _ hd)⟩

theorem Digits.append {ds es : Bytes} (h : Digits ds) (h' : Digits es) : Digits (ds ++ es) := by
  intro c hc
  rcases List.mem_append.mp hc with hc | hc
  · exact h c hc
  · exact h' c hc

theorem Digits.reverse {ds : Bytes} (h : Digits ds) : Digits ds.reverse :=
  fun c hc => h c (List.mem_reverse.mp hc)

theorem Digits.sublist {ds es : Bytes} (h : Digits ds) (hs : es.Sublist ds) : Digits es :=
  fun c hc => h c (hs.subset hc)

/-- The number of a digit string, lowest digit first. -/
def lowNat (ds : Bytes) : Nat := Nat.ofDigits 10 (ds.map digitVal)

/-- The number of a digit string. -/
def natOf (ds : Bytes) : Nat := lowNat ds.reverse

@[simp] theorem lowNat_nil : lowNat [] = 0 := rfl

@[simp] theorem lowNat_cons (c : UInt8) (ds : Bytes) : lowNat (c :: ds) = digitVal c + 10 * lowNat ds := rfl

theorem lowNat_append (a b : Bytes) : lowNat (a ++ b) = lowNat a + 10 ^ a.length * lowNat b := by
  rw [lowNat, List.map_append, Nat.ofDigits_append, List.length_map]
  rfl

theorem lowNat_lt {ds : Bytes} (h : Digits ds) : lowNat ds < 10 ^ ds.length := by
  have := Nat.ofDigits_lt_base_pow_length (b := 10) (l := ds.map digitVal) (by decide) fun x hx => by
    obtain ⟨c, hc, rfl⟩ := List.mem_map.mp hx
    exact digitVal_lt (h c hc)
  rwa [List.length_map] at this

@[simp] theorem natOf_nil : natOf [] = 0 := rfl

theorem natOf_append (a b : Bytes) : natOf (a ++ b) = natOf a * 10 ^ b.length + natOf b := by
  rw [natOf, List.reverse_append, lowNat_append, List.length_reverse]
  simp only [natOf]
  ring

theorem natOf_cons (c : UInt8) (ds : Bytes) : natOf (c :: ds) = digitVal c * 10 ^ ds.length + natOf ds := by
  have h1 : natOf [c] = digitVal c := by simp [natOf]
  have := natOf_append [c] ds
  rwa [h1] at this

theorem natOf_lt {ds : Bytes} (h : Digits ds) : natOf ds < 10 ^ ds.length := by
  have := lowNat_lt h.reverse
  rwa [List.length_reverse] at this

theorem natOf_zeros (n : Nat) : natOf (List.replicate n chZero) = 0 := by
  induction n with
  | zero => rfl
  | succ n ih =>
    rw [List.replicate_succ, natOf_cons, ih, (digitVal_eq_zero rfl).mpr rfl, Nat.zero_mul]

theorem digits_zeros (n : Nat) : Digits (List.replicate n chZero) := by
  intro c hc
  rw [List.eq_of_mem_replicate hc]
  rfl

/-- A first digit that is not zero makes a number large. -/
theorem natOf_ge {c : UInt8} {ds : Bytes} (hc : isDigit c = true) (hz : c ≠ chZero) :
    10 ^ ds.length ≤ natOf (c :: ds) := by
  have hpos : 1 ≤ digitVal c := by
    have := mt (digitVal_eq_zero hc).mp hz
    omega
  rw [natOf_cons]
  calc 10 ^ ds.length = 1 * 10 ^ ds.length := (Nat.one_mul _).symm
    _ ≤ digitVal c * 10 ^ ds.length := Nat.mul_le_mul_right _ hpos
    _ ≤ digitVal c * 10 ^ ds.length + natOf ds := Nat.le_add_right _ _

theorem memcmp_eq : ∀ {a b : Bytes}, a.length = b.length → Digits a → Digits b →
    memcmp a b = orderSign (natOf a) (natOf b)
  | [], [], _, _, _ => rfl
  | c :: a, d :: b, hlen, ha, hb => by
    obtain ⟨hc, ha⟩ := ha.cons
    obtain ⟨hd, hb⟩ := hb.cons
    have hlen' : a.length = b.length := Nat.succ.inj hlen
    have h1 := natOf_lt ha
    have h2 := natOf_lt hb
    simp only [memcmp, digit_lt_iff hc hd, digit_lt_iff hd hc]
    rw [natOf_cons, natOf_cons, hlen']
    rw [hlen'] at h1
    generalize 10 ^ b.length = p at h1 h2
    rcases lt_trichotomy (digitVal c) (digitVal d) with h | h | h
    · have : (digitVal c + 1) * p ≤ digitVal d * p := Nat.mul_le_mul_right p h
      rw [if_pos h, orderSign_lt]
      rw [Nat.add_mul] at this
      omega
    · rw [if_neg (by omega), if_neg (by omega), memcmp_eq hlen' ha hb, h]
      exact orderSign_congr (by omega) (by omega)
    · have : (digitVal d + 1) * p ≤ digitVal c * p := Nat.mul_le_mul_right p h
      rw [if_neg (by omega), if_pos h, orderSign_gt]
      rw [Nat.add_mul] at this
      omega

/-! ## Canonical digits -/

/-- Digits without leading zeros: `0` alone, or a first digit that is not zero. -/
structure Canon (ds : Bytes) : Prop where
  digits : Digits ds
  ne : ds ≠ []
  head : ds = [chZero] ∨ ds.head? ≠ some chZero

theorem canon_zero : Canon [chZero] :=
  ⟨fun c hc => by rw [List.mem_singleton.mp hc]; rfl, List.cons_ne_nil _ _, .inl rfl⟩

/-- Canonical digits are as many as the number needs. -/
theorem Canon.large {ds : Bytes} (h : Canon ds) (hn : ds ≠ [chZero]) : 10 ^ (ds.length - 1) ≤ natOf ds := by
  cases ds with
  | nil => exact absurd rfl h.ne
  | cons c ds =>
    have hz : c ≠ chZero := fun e => (h.head.resolve_left hn) (by rw [e]; rfl)
    exact natOf_ge h.digits.cons.1 hz

theorem Canon.pos {ds : Bytes} (h : Canon ds) (hn : ds ≠ [chZero]) : 0 < natOf ds :=
  Nat.lt_of_lt_of_le (Nat.pow_pos (by decide)) (h.large hn)

theorem Canon.length_lt {a b : Bytes} (ha : Canon a) (hb : Canon b) (h : a.length < b.length) :
    natOf a < natOf b := by
  have hne : b ≠ [chZero] := by
    rintro rfl
    have := List.length_pos_iff.mpr ha.ne
    simp only [List.length_singleton] at h
    omega
  calc natOf a < 10 ^ a.length := natOf_lt ha.digits
    _ ≤ 10 ^ (b.length - 1) := Nat.pow_le_pow_right (by decide) (by omega)
    _ ≤ natOf b := hb.large hne

theorem compareDigits_eq {a b : Bytes} (ha : Canon a) (hb : Canon b) :
    compareDigits a b = orderSign (natOf a) (natOf b) := by
  rw [compareDigits]
  split
  · next h => rw [orderSign_lt (ha.length_lt hb h)]
  · split
    · next h => rw [orderSign_gt (hb.length_lt ha h)]
    · exact memcmp_eq (by omega) ha.digits hb.digits

theorem stripZeros_eq : ∀ {ds : Bytes}, Digits ds → ds ≠ [] →
    Canon (stripZeros ds) ∧ natOf (stripZeros ds) = natOf ds
  | [c], h, _ => by
    refine ⟨⟨h, List.cons_ne_nil _ _, ?_⟩, rfl⟩
    by_cases hc : c = chZero
    · exact .inl (by rw [stripZeros, hc])
    · exact .inr fun he => hc (Option.some.inj he)
  | c :: d :: ds, h, _ => by
    rw [stripZeros]
    split
    · next hz =>
        obtain ⟨h1, h2⟩ := stripZeros_eq h.cons.2 (List.cons_ne_nil d ds)
        refine ⟨h1, ?_⟩
        rw [h2, natOf_cons c, (digitVal_eq_zero h.cons.1).mpr hz, Nat.zero_mul, Nat.zero_add]
    · next hz => exact ⟨⟨h, List.cons_ne_nil _ _, .inr fun he => hz (Option.some.inj he)⟩, rfl⟩

/-! ## Sums and differences -/

theorem addDigitsRev_length : ∀ (n : Nat) (l r : Bytes) (carry : Nat), (addDigitsRev n l r carry).length = n
  | 0, _, _, _ => rfl
  | n + 1, l, r, carry => by rw [addDigitsRev, List.length_cons, addDigitsRev_length n]

theorem lowNat_split (ds : Bytes) : lowNat ds = digitVal (ds.headD chZero) + 10 * lowNat ds.tail := by
  cases ds with
  | nil => rfl
  | cons c ds => rfl

theorem addDigitsRev_digits : ∀ (n : Nat) (l r : Bytes) (carry : Nat), Digits (addDigitsRev n l r carry)
  | 0, _, _, _ => fun _ hc => nomatch hc
  | n + 1, l, r, carry => by
    intro c hc
    rw [addDigitsRev] at hc
    rcases List.mem_cons.mp hc with rfl | hc
    · exact (digitChar_ok _ (Nat.mod_lt _ (by decide))).1
    · exact addDigitsRev_digits n _ _ _ c hc

/-- The carry loop adds, modulo the number of digits it puts out. -/
theorem addDigitsRev_eq : ∀ (n : Nat) (l r : Bytes) (carry : Nat),
    lowNat (addDigitsRev n l r carry) = (carry + lowNat l + lowNat r) % 10 ^ n
  | 0, _, _, _ => by rw [Nat.pow_zero, Nat.mod_one]; rfl
  | n + 1, l, r, carry => by
    rw [addDigitsRev, lowNat_cons, addDigitsRev_eq n, (digitChar_ok _ (Nat.mod_lt _ (by decide))).2,
      lowNat_split l, lowNat_split r]
    generalize digitVal (l.headD chZero) = a
    generalize digitVal (r.headD chZero) = b
    generalize lowNat l.tail = x
    generalize lowNat r.tail = y
    have hsum : carry + (a + 10 * x) + (b + 10 * y) =
        (carry + a + b) % 10 + 10 * ((carry + a + b) / 10 + x + y) := by omega
    rw [hsum]
    generalize (carry + a + b) / 10 + x + y = q
    have hd : (carry + a + b) % 10 < 10 := Nat.mod_lt _ (by decide)
    generalize (carry + a + b) % 10 = d at hd
    rw [Nat.pow_succ, Nat.mul_comm (10 ^ n) 10, Nat.mod_mul, Nat.add_mul_mod_self_left,
      Nat.mod_eq_of_lt hd, Nat.add_mul_div_left _ _ (by decide), Nat.div_eq_of_lt hd, Nat.zero_add]

/-- The borrow loop subtracts. -/
theorem subDigitsRev_eq : ∀ {l r : Bytes} {borrow : Nat}, Digits l → Digits r → borrow ≤ 1 →
    lowNat r + borrow ≤ lowNat l →
    Digits (subDigitsRev l r borrow) ∧ lowNat (subDigitsRev l r borrow) + (lowNat r + borrow) = lowNat l
  | [], _, _, _, _, _, hle => by
    refine ⟨fun _ hc => absurd hc List.not_mem_nil, ?_⟩
    rw [subDigitsRev]
    simp only [lowNat_nil] at hle ⊢
    omega
  | d :: l, r, borrow, hl, hr, hb, hle => by
    obtain ⟨hd, hl⟩ := hl.cons
    have hd10 := digitVal_lt hd
    have hr10 : digitVal (r.headD chZero) < 10 := by
      cases r with
      | nil => decide
      | cons c r => exact digitVal_lt hr.cons.1
    have hrt : Digits r.tail := hr.sublist (List.tail_sublist r)
    rw [lowNat_split r, lowNat_cons] at hle
    rw [subDigitsRev, lowNat_split r, lowNat_cons, lowNat_cons]
    generalize digitVal (r.headD chZero) = e at hle hr10
    by_cases hneg : (digitVal d : Int) - borrow - e < 0
    · obtain ⟨h1, h2⟩ := @subDigitsRev_eq l r.tail 1 hl hrt (Nat.le_refl 1)
        (by omega)
      rw [if_pos hneg, if_pos hneg]
      obtain ⟨h3, h4⟩ := digitChar_ok ((digitVal d : Int) - borrow - e + 10).toNat (by omega)
      refine ⟨?_, by rw [h4]; omega⟩
      intro c hc
      rcases List.mem_cons.mp hc with rfl | hc
      · exact h3
      · exact h1 c hc
    · obtain ⟨h1, h2⟩ := @subDigitsRev_eq l r.tail 0 hl hrt (Nat.zero_le 1)
        (by omega)
      rw [if_neg hneg, if_neg hneg]
      obtain ⟨h3, h4⟩ := digitChar_ok ((digitVal d : Int) - borrow - e).toNat (by omega)
      refine ⟨?_, by rw [h4]; omega⟩
      intro c hc
      rcases List.mem_cons.mp hc with rfl | hc
      · exact h3
      · exact h1 c hc

/-! ## Integers as texts -/

/-- A text that is the canonical writing of an integer. -/
inductive Shows : Bytes → Int → Prop where
  | plain {ds : Bytes} (h : Canon ds) : Shows ds (natOf ds)
  | minus {ds : Bytes} (h : Canon ds) (hn : ds ≠ [chZero]) : Shows (chMinus :: ds) (-(natOf ds : Int))

theorem Canon.head_ne_minus {ds : Bytes} (h : Canon ds) : ds.head? ≠ some chMinus := by
  cases ds with
  | nil => exact fun he => absurd he (by simp)
  | cons c ds =>
    intro he
    cases he
    exact absurd h.digits.cons.1 (by decide)

theorem Canon.eq_zero {ds : Bytes} (h : Canon ds) (hz : natOf ds = 0) : ds = [chZero] := by
  by_contra hn
  have := h.pos hn
  omega

theorem addDigits_shows {l r : Bytes} {negative : Bool} (hl : Digits l) (hr : Digits r)
    (hz : negative = true → natOf l + natOf r ≠ 0) :
    Shows (addDigits l r negative)
      (if negative then -(natOf l + natOf r : Int) else natOf l + natOf r) := by
  have hd : Digits (addDigitsRev (max l.length r.length + 1) l.reverse r.reverse 0).reverse :=
    (addDigitsRev_digits _ _ _ _).reverse
  have hne : (addDigitsRev (max l.length r.length + 1) l.reverse r.reverse 0).reverse ≠ [] := by
    intro e
    have := congrArg List.length e
    rw [List.length_reverse, addDigitsRev_length] at this
    exact absurd this (Nat.succ_ne_zero _)
  have hsum : natOf (addDigitsRev (max l.length r.length + 1) l.reverse r.reverse 0).reverse =
      natOf l + natOf r := by
    have h1 : natOf l < 10 ^ max l.length r.length :=
      Nat.lt_of_lt_of_le (natOf_lt hl) (Nat.pow_le_pow_right (by decide) (Nat.le_max_left _ _))
    have h2 : natOf r < 10 ^ max l.length r.length :=
      Nat.lt_of_lt_of_le (natOf_lt hr) (Nat.pow_le_pow_right (by decide) (Nat.le_max_right _ _))
    rw [natOf, List.reverse_reverse, addDigitsRev_eq, Nat.zero_add, Nat.mod_eq_of_lt]
    · rfl
    · rw [Nat.pow_succ]
      simp only [natOf] at h1 h2
      omega
  obtain ⟨hc, hv⟩ := stripZeros_eq hd hne
  rw [hsum] at hv
  rw [addDigits]
  cases negative with
  | false =>
    have := Shows.plain hc
    rw [hv] at this
    simpa using this
  | true =>
    have := Shows.minus hc fun e => hz rfl (by rw [← hv, e]; rfl)
    rw [hv] at this
    simpa using this

theorem subDigits_shows {l r : Bytes} {negative : Bool} (hl : Digits l) (hr : Digits r) (hne : l ≠ [])
    (hle : natOf r ≤ natOf l) :
    Shows (subDigits l r negative)
      (if negative then -(natOf l - natOf r : Int) else natOf l - natOf r) := by
  obtain ⟨hd, hs⟩ := subDigitsRev_eq hl.reverse hr.reverse (Nat.zero_le 1) hle
  have hlen : (subDigitsRev l.reverse r.reverse 0).reverse ≠ [] := by
    obtain ⟨c, cs, hc⟩ := List.exists_cons_of_ne_nil (mt List.reverse_eq_nil_iff.mp hne)
    rw [hc, subDigitsRev]
    simp
  obtain ⟨hc, hv⟩ := stripZeros_eq hd.reverse hlen
  have hval : (natOf (stripZeros (subDigitsRev l.reverse r.reverse 0).reverse) : Int) = natOf l - natOf r := by
    rw [hv]
    simp only [natOf, List.reverse_reverse] at hs ⊢
    omega
  rw [subDigits]
  by_cases hz : stripZeros (subDigitsRev l.reverse r.reverse 0).reverse = [chZero]
  · have h0 : (natOf l : Int) - natOf r = 0 := by
      rw [← hval, hz]
      rfl
    rw [if_neg (by simp [hz]), hz, h0]
    rw [neg_zero, ite_self]
    exact Shows.plain canon_zero
  · cases negative with
    | false =>
      have := Shows.plain hc
      rw [hval] at this
      simpa using this
    | true =>
      have := Shows.minus hc hz
      rw [hval] at this
      rw [if_pos (by simp [hz])]
      simpa using this

theorem canon_append {ds : Bytes} {c : UInt8} (h : Canon ds) (hn : ds ≠ [chZero]) (hc : isDigit c = true) :
    Canon (ds ++ [c]) := by
  obtain ⟨d, ds, rfl⟩ := List.exists_cons_of_ne_nil h.ne
  refine ⟨h.digits.append fun e he => by rw [List.mem_singleton.mp he]; exact hc,
    List.cons_ne_nil _ _, .inr ?_⟩
  exact h.head.resolve_left hn

/-- The digit loop of a machine number puts out its canonical digits. -/
theorem ulongDigitsRev_eq : ∀ (fuel v : Nat), v < 10 ^ (fuel + 1) →
    Canon (ulongDigitsRev (fuel + 1) v).reverse ∧ natOf (ulongDigitsRev (fuel + 1) v).reverse = v
  | fuel, v, hv => by
    obtain ⟨h1, h2⟩ := digitChar_ok (v % 10) (Nat.mod_lt _ (by decide))
    rw [ulongDigitsRev]
    by_cases hz : v / 10 = 0
    · rw [if_pos hz, List.reverse_singleton]
      have hone : natOf [digitChar (v % 10)] = v % 10 := by simp [natOf, h2]
      refine ⟨⟨fun c hc => by rw [List.mem_singleton.mp hc]; exact h1, List.cons_ne_nil _ _, ?_⟩,
        by rw [hone]; omega⟩
      by_cases h0 : digitChar (v % 10) = chZero
      · exact .inl (by rw [h0])
      · exact .inr fun he => h0 (Option.some.inj he)
    · rw [if_neg hz, List.reverse_cons]
      cases fuel with
      | zero => omega
      | succ fuel =>
        rw [Nat.pow_succ] at hv
        obtain ⟨h3, h4⟩ := ulongDigitsRev_eq fuel (v / 10) (by omega)
        have hn : (ulongDigitsRev (fuel + 1) (v / 10)).reverse ≠ [chZero] := by
          intro e
          rw [e] at h4
          exact hz h4.symm
        refine ⟨canon_append h3 hn h1, ?_⟩
        rw [natOf_append, h4, natOf_cons, h2]
        simp only [List.length_cons, List.length_nil, natOf_nil]
        omega

theorem ulongText_eq {v : Nat} (hv : v < 10 ^ 32) : Canon (ulongText v) ∧ natOf (ulongText v) = v :=
  ulongDigitsRev_eq 31 v hv

/-- Canonical texts compare as the integers they show. -/
theorem compareSignedDecimal_shows {l r : Bytes} {x y : Int} (hl : Shows l x) (hr : Shows r y) :
    compareSignedDecimal l r = orderSign x y := by
  cases hl with
  | plain hl =>
    cases hr with
    | plain hr =>
      simp only [compareSignedDecimal, hl.head_ne_minus, hr.head_ne_minus, if_false, not_true, ne_eq]
      rw [compareDigits_eq hl hr]
      exact orderSign_congr (by omega) (by omega)
    | minus hr hn =>
      have := hr.pos hn
      simp [compareSignedDecimal, hl.head_ne_minus]
      rw [orderSign_gt (by omega)]
  | minus hl hn =>
    have := hl.pos hn
    cases hr with
    | plain hr =>
      simp [compareSignedDecimal, hr.head_ne_minus]
      rw [orderSign_lt (by omega)]
    | minus hr hn' =>
      simp [compareSignedDecimal]
      rw [compareDigits_eq hl hr, ← orderSign_swap]
      exact orderSign_congr (by omega) (by omega)

end Lql.Number
