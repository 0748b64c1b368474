import Lql.Json.Local

/-!
# What a string stands for

Every piece of a string stands for one whole code point: the matcher that lowers a
value code point by code point never meets a boundary inside one.
-/

namespace Lql.Json

open Lql.Scan (isPlain isShortEscape shortEscapeByte hexValue leadInfo unicodeBytes caseNeedOf
  lowerBytes asciiLower)

/-- The bytes are as many as the first of them announces. -/
def Whole (text : Bytes) : Prop := text.length = caseNeedOf (text.headD 0)

theorem whole_ascii {c : UInt8} (h : c < 0x80) : Whole [c] := by
  simp [Whole, caseNeedOf, h]

theorem hexValue_lt {c : UInt8} {v : Nat} (h : hexValue c = some v) : v < 16 := by
  unfold hexValue isDigit at h
  simp only [Bool.and_eq_true, decide_eq_true_eq, UInt8.le_iff_toNat_le, UInt8.reduceToNat,
    show chZero.toNat = 48 from rfl, show chNine.toNat = 57 from rfl] at h
  split at h
  · cases h; omega
  split at h
  · cases h; omega
  split at h
  · cases h; omega
  · cases h

theorem hexP_lt : ∀ (k value : Nat) (raw : Bytes) (f f' : Flat) (r : Nat × Bytes),
    hexP k value raw f = some (r, f') → r.1 < (value + 1) * 16 ^ k
  | 0, value, raw, f, f', r, h => by
    cases h
    simp
  | k + 1, value, raw, f, f', r, h => by
    rw [hexP] at h
    obtain ⟨c, f1, -, h⟩ := bind_eq_some.mp h
    cases hv : hexValue c with
    | none => rw [hv] at h; cases h
    | some v =>
      rw [hv] at h
      have := hexP_lt k _ _ _ _ _ h
      have hlt := hexValue_lt hv
      calc r.1 < (value * 16 + v + 1) * 16 ^ k := this
        _ ≤ ((value + 1) * 16) * 16 ^ k := Nat.mul_le_mul_right _ (by omega)
        _ = (value + 1) * 16 ^ (k + 1) := by rw [Nat.pow_succ, Nat.mul_assoc, Nat.mul_comm 16]

/-! ## The code points an escape stands for -/

theorem lead_two : ∀ k < 32, caseNeedOf (UInt8.ofNat (0xc0 ||| k)) = 2 := by decide

theorem lead_three : ∀ k < 16, caseNeedOf (UInt8.ofNat (0xe0 ||| k)) = 3 := by decide

theorem lead_four : ∀ k < 8, caseNeedOf (UInt8.ofNat (0xf0 ||| k)) = 4 := by decide

theorem whole_unicode {value : Nat} (h : value ≤ 0x10ffff) : Whole (unicodeBytes value) := by
  unfold unicodeBytes
  split
  · refine whole_ascii ?_
    rw [UInt8.lt_iff_toNat_lt, UInt8.toNat_ofNat']
    exact Nat.lt_of_le_of_lt (Nat.mod_le _ _) (Nat.lt_succ_of_le ‹_›)
  split
  · exact (lead_two _ (by rw [Nat.shiftRight_eq_div_pow]; omega)).symm
  split
  · exact (lead_three _ (by rw [Nat.shiftRight_eq_div_pow]; omega)).symm
  · exact (lead_four _ (by rw [Nat.shiftRight_eq_div_pow]; omega)).symm

theorem whole_escape {f f' : Flat} {p : Piece} (h : escapeP f = some (p, f')) :
    ∃ raw text, p = .coded raw text ∧ Whole text := by
  obtain ⟨next, f1, -, h⟩ := bind_eq_some.mp h
  split at h
  · next hs =>
    cases h
    refine ⟨_, _, rfl, whole_ascii ?_⟩
    simp only [isShortEscape, Bool.or_eq_true, decide_eq_true_eq] at hs
    rcases hs with ((((((rfl | rfl) | rfl) | rfl) | rfl) | rfl) | rfl) | rfl <;> decide
  split at h
  · cases h
  obtain ⟨⟨unicode, raw⟩, f2, hu, h⟩ := bind_eq_some.mp h
  have hlt := hexP_lt _ _ _ _ _ _ hu
  dsimp only at h hlt
  split at h
  · cases h
  split at h
  · cases h
    exact ⟨_, _, rfl, whole_unicode (by omega)⟩
  obtain ⟨-, f3, -, h⟩ := bind_eq_some.mp h
  obtain ⟨-, f4, -, h⟩ := bind_eq_some.mp h
  obtain ⟨⟨low, lowRaw⟩, f5, hl, h⟩ := bind_eq_some.mp h
  dsimp only at h
  split at h
  · cases h
  · cases h
    refine ⟨_, _, rfl, whole_unicode ?_⟩
    rw [Nat.shiftLeft_eq]
    omega

theorem continuationP_length : ∀ (k : Nat) (lo hi : UInt8) (f f' : Flat) (cs : Bytes),
    continuationP k lo hi f = some (cs, f') → cs.length = k
  | 0, _, _, _, _, _, h => by cases h; rfl
  | k + 1, lo, hi, f, f', cs, h => by
    obtain ⟨c, f1, -, h⟩ := bind_eq_some.mp h
    split at h
    · cases h
    obtain ⟨rest, f2, hr, h⟩ := bind_eq_some.mp h
    cases h
    simp [continuationP_length k _ _ _ _ _ hr]

theorem leadInfo_need {c lo hi : UInt8} {k : Nat} (h : leadInfo c = some (k, lo, hi)) :
    caseNeedOf c = k + 1 := by
  unfold leadInfo at h
  unfold caseNeedOf
  simp only [Bool.and_eq_true, decide_eq_true_eq, UInt8.le_iff_toNat_le, UInt8.lt_iff_toNat_lt,
    UInt8.reduceToNat] at h ⊢
  split at h
  · cases h
    rw [if_neg (by omega), if_pos (by omega)]
  split at h
  · cases h
    rw [if_neg (by omega), if_neg (by omega), if_pos (by omega)]
  split at h
  · cases h
    rw [if_neg (by omega), if_neg (by omega), if_neg (by omega)]
  · cases h

/-- **Every piece of a string that is not a plain byte is one code point.** -/
theorem whole_coded {c : UInt8} {f f' : Flat} {p : Piece} (h : codedP c f = some (p, f')) :
    ∃ raw text, p = .coded raw text ∧ Whole text := by
  unfold codedP at h
  split at h
  · cases h
  split at h
  · exact whole_escape h
  cases hlead : leadInfo c with
  | none => rw [hlead] at h; cases h
  | some info =>
    obtain ⟨remaining, lo, hi⟩ := info
    rw [hlead] at h
    obtain ⟨cs, f1, hcs, h⟩ := bind_eq_some.mp h
    cases h
    refine ⟨_, _, rfl, ?_⟩
    rw [Whole, List.length_cons, continuationP_length _ _ _ _ _ _ hcs]
    exact (leadInfo_need hlead).symm

/-! ## Texts -/

/-- The lowered bytes of a string, code point by code point. -/
def Str.lower (s : Str) : Bytes := s.flatMap fun p => lowerBytes p.text

theorem lowerBytes_ascii {c : UInt8} (h : c < 0x80) : lowerBytes [c] = [asciiLower c] := by
  have all : ∀ k < 128, lowerBytes [UInt8.ofNat k] = [asciiLower (UInt8.ofNat k)] := by decide
  have hk : c.toNat < 128 := UInt8.lt_iff_toNat_lt.mp h
  simpa using all c.toNat hk

theorem text_append (a b : Str) : Str.text (a ++ b) = a.text ++ b.text := List.flatMap_append

theorem lower_append (a b : Str) : Str.lower (a ++ b) = a.lower ++ b.lower := List.flatMap_append

/-- A run of bytes as a string. -/
def plainStr (data : Bytes) : Str := data.map .plain

@[simp] theorem text_plainStr (data : Bytes) : (plainStr data).text = data := by
  simp [plainStr, Str.text, List.flatMap_map, Piece.text]

theorem lower_plainStr {data : Bytes} (h : ∀ c ∈ data, c < 0x80) :
    (plainStr data).lower = data.map asciiLower := by
  induction data with
  | nil => rfl
  | cons c data ih =>
    have hc := lowerBytes_ascii (h c List.mem_cons_self)
    have ih := ih fun d hd => h d (List.mem_cons_of_mem _ hd)
    simp only [plainStr, Str.lower, List.map_cons, List.flatMap_cons, Piece.text] at ih ⊢
    rw [hc, ih]
    rfl

end Lql.Json
