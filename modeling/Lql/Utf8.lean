import Lql.Unicode
import Mathlib.Data.Nat.Bitwise

/-!
# Texts of characters

A text is the UTF-8 of its characters. On such texts the library's decoder and encoder undo each other,
and its lowercase mapping maps one character after the other.
-/

namespace Lql.Unicode

/-- The UTF-8 of some characters. -/
def utf8 (cs : List Char) : Bytes := cs.flatMap String.utf8EncodeChar

/-- The simple lowercase of a character. -/
def lowerChar (c : Char) : Char := Char.ofNat (simpleLower c.toNat)

theorem utf8_append (a b : List Char) : utf8 (a ++ b) = utf8 a ++ utf8 b := List.flatMap_append

@[simp] theorem utf8_cons (c : Char) (cs : List Char) : utf8 (c :: cs) = String.utf8EncodeChar c ++ utf8 cs := rfl

/-! ## Encoding -/

theorem or_two : ∀ k < 32, 0xc0 ||| k = k + 0xc0 := by decide

theorem or_three : ∀ k < 16, 0xe0 ||| k = k + 0xe0 := by decide

theorem or_four : ∀ k < 8, 0xf0 ||| k = k + 0xf0 := by decide

theorem or_tail : ∀ k < 64, 0x80 ||| k = k + 0x80 := by decide

theorem and_tail (v : Nat) : v &&& 0x3f = v % 64 := Nat.and_two_pow_sub_one_eq_mod v 6

/-- The encoder writes a character in UTF-8. -/
theorem utf8Encode_char (c : Char) : utf8Encode c.toNat = String.utf8EncodeChar c := by
  have hvalid : c.val.toNat < 0xd800 ∨ 0xdfff < c.val.toNat ∧ c.val.toNat < 0x110000 := c.valid
  rw [Char.toNat]
  unfold String.utf8EncodeChar utf8Encode
  dsimp only
  generalize c.val.toNat = v at hvalid
  rw [if_neg (by omega)]
  simp only [Nat.shiftRight_eq_div_pow, and_tail]
  by_cases h1 : v ≤ 0x7f
  · rw [if_pos (by omega), if_pos h1]
  rw [if_neg (by omega), if_neg h1]
  by_cases h2 : v ≤ 0x7ff
  · rw [if_pos (by omega), if_pos h2, or_two _ (by omega), or_tail _ (by omega),
      Nat.mod_eq_of_lt (a := v / 64) (by omega)]
  rw [if_neg (by omega), if_neg h2]
  by_cases h3 : v ≤ 0xffff
  · rw [if_pos (by omega), if_pos h3, or_three _ (by omega), or_tail _ (by omega), or_tail _ (by omega),
      Nat.mod_eq_of_lt (a := v / 4096) (by omega)]
  rw [if_neg (by omega), if_neg h3, or_four _ (by omega), or_tail _ (by omega), or_tail _ (by omega),
    or_tail _ (by omega), Nat.mod_eq_of_lt (a := v / 262144) (by omega)]

/-! ## Decoding -/

theorem utf8Continue_cons {k v : Nat} {b : UInt8} {rest : Bytes} (hb : 0x80 ≤ b.toNat ∧ b.toNat ≤ 0xbf) :
    utf8Continue (k + 1) v (b :: rest) = utf8Continue k (v * 64 + (b.toNat - 0x80)) rest := by
  have hno : ¬ (b < 0x80 ∨ b > 0xbf) := by
    simp only [UInt8.lt_iff_toNat_lt, gt_iff_lt, UInt8.reduceToNat]
    omega
  have hand : b.toNat &&& 0x3f = b.toNat - 0x80 := by
    rw [and_tail]
    omega
  rw [utf8Continue, if_neg hno, hand, ← Nat.shiftLeft_add_eq_or_of_lt (i := 6) (by omega), Nat.shiftLeft_eq]

theorem utf8Continue_some {k v : Nat} {rest : Bytes} {r : Nat × Bytes}
    (h : utf8Continue (k + 1) v rest = some r) : ∃ b rest', rest = b :: rest' ∧
      (0x80 ≤ b.toNat ∧ b.toNat ≤ 0xbf) ∧ utf8Continue k (v * 64 + (b.toNat - 0x80)) rest' = some r := by
  cases rest with
  | nil => cases h
  | cons b rest =>
    have hb : 0x80 ≤ b.toNat ∧ b.toNat ≤ 0xbf := by
      rw [utf8Continue] at h
      split at h
      · cases h
      · next hno =>
          simp only [UInt8.lt_iff_toNat_lt, gt_iff_lt, UInt8.reduceToNat] at hno
          omega
    rw [utf8Continue_cons hb] at h
    exact ⟨b, rest, rfl, hb, h⟩

theorem and_two : ∀ k < 32, (k + 0xc0) &&& 0x1f = k := by decide

theorem and_three : ∀ k < 16, (k + 0xe0) &&& 0x0f = k := by decide

theorem and_four : ∀ k < 8, (k + 0xf0) &&& 0x07 = k := by decide

theorem utf8Lead_two {n : Nat} (h : 0xc2 ≤ n ∧ n ≤ 0xdf) : utf8Lead n = some (2, n - 0xc0) := by
  have := and_two (n - 0xc0) (by omega)
  rw [Nat.sub_add_cancel (by omega)] at this
  rw [utf8Lead, if_pos h, this]

theorem utf8Lead_three {n : Nat} (h : 0xe0 ≤ n ∧ n ≤ 0xef) : utf8Lead n = some (3, n - 0xe0) := by
  have := and_three (n - 0xe0) (by omega)
  rw [Nat.sub_add_cancel (by omega)] at this
  rw [utf8Lead, if_neg (by omega), if_pos h, this]

theorem utf8Lead_four {n : Nat} (h : 0xf0 ≤ n ∧ n ≤ 0xf4) : utf8Lead n = some (4, n - 0xf0) := by
  have := and_four (n - 0xf0) (by omega)
  rw [Nat.sub_add_cancel (by omega)] at this
  rw [utf8Lead, if_neg (by omega), if_neg (by omega), if_pos h, this]

theorem ofNat_toNat {n : Nat} (h : n < 256) : (UInt8.ofNat n).toNat = n := by
  rw [UInt8.toNat_ofNat']
  exact Nat.mod_eq_of_lt h

/-- **The decoder reads a character off the front.** -/
theorem utf8Decode_char (c : Char) (rest : Bytes) :
    utf8Decode (String.utf8EncodeChar c ++ rest) = some (c.toNat, rest) := by
  have hvalid : c.val.toNat < 0xd800 ∨ 0xdfff < c.val.toNat ∧ c.val.toNat < 0x110000 := c.valid
  rw [Char.toNat]
  unfold String.utf8EncodeChar
  dsimp only
  generalize c.val.toNat = v at hvalid
  by_cases h1 : v ≤ 0x7f
  · have hn : (UInt8.ofNat v).toNat = v := ofNat_toNat (by omega)
    have hlt : UInt8.ofNat v < 0x80 := by
      rw [UInt8.lt_iff_toNat_lt, hn]
      simp only [UInt8.reduceToNat]
      omega
    rw [if_pos h1, List.singleton_append, utf8Decode, if_pos hlt, hn]
  rw [if_neg h1]
  have htail : ∀ x : Nat, (UInt8.ofNat (x % 64 + 0x80)).toNat = x % 64 + 0x80 :=
    fun x => ofNat_toNat (by omega)
  by_cases h2 : v ≤ 0x7ff
  · have hn : (UInt8.ofNat (v / 64 % 32 + 0xc0)).toNat = v / 64 % 32 + 0xc0 := ofNat_toNat (by omega)
    have hge : ¬ UInt8.ofNat (v / 64 % 32 + 0xc0) < 0x80 := by
      rw [UInt8.lt_iff_toNat_lt, hn]
      simp only [UInt8.reduceToNat]
      omega
    rw [if_pos h2, List.cons_append, List.singleton_append, utf8Decode, if_neg hge, hn,
      utf8Lead_two (by omega)]
    dsimp only
    rw [if_neg (by simp), utf8Continue_cons (by rw [htail]; omega), htail, utf8Continue]
    dsimp only
    rw [if_neg (by simp only [← UInt8.toNat_inj, hn, UInt8.reduceToNat]; omega)]
    refine congrArg (fun x => some (x, rest)) ?_
    omega
  rw [if_neg h2]
  by_cases h3 : v ≤ 0xffff
  · have hn : (UInt8.ofNat (v / 4096 % 16 + 0xe0)).toNat = v / 4096 % 16 + 0xe0 := ofNat_toNat (by omega)
    have hge : ¬ UInt8.ofNat (v / 4096 % 16 + 0xe0) < 0x80 := by
      rw [UInt8.lt_iff_toNat_lt, hn]
      simp only [UInt8.reduceToNat]
      omega
    rw [if_pos h3, List.cons_append, List.cons_append, List.singleton_append, utf8Decode, if_neg hge, hn,
      utf8Lead_three (by omega)]
    dsimp only
    rw [if_neg (by simp), utf8Continue_cons (by rw [htail]; omega), htail,
      utf8Continue_cons (by rw [htail]; omega), htail, utf8Continue]
    dsimp only
    rw [if_neg (by simp only [← UInt8.toNat_inj, hn, UInt8.reduceToNat]; omega)]
    refine congrArg (fun x => some (x, rest)) ?_
    omega
  have hn : (UInt8.ofNat (v / 262144 % 8 + 0xf0)).toNat = v / 262144 % 8 + 0xf0 := ofNat_toNat (by omega)
  have hge : ¬ UInt8.ofNat (v / 262144 % 8 + 0xf0) < 0x80 := by
    rw [UInt8.lt_iff_toNat_lt, hn]
    simp only [UInt8.reduceToNat]
    omega
  rw [if_neg h3, List.cons_append, List.cons_append, List.cons_append, List.singleton_append, utf8Decode,
    if_neg hge, hn, utf8Lead_four (by omega)]
  dsimp only
  rw [if_neg (by simp), utf8Continue_cons (by rw [htail]; omega), htail,
    utf8Continue_cons (by rw [htail]; omega), htail, utf8Continue_cons (by rw [htail]; omega), htail,
    utf8Continue]
  dsimp only
  rw [if_neg (by simp only [← UInt8.toNat_inj, hn, UInt8.reduceToNat]; omega)]
  refine congrArg (fun x => some (x, rest)) ?_
  omega

theorem exists_char {v : Nat} (hv : v < 0xd800 ∨ 0xdfff < v ∧ v < 0x110000) : ∃ c : Char, c.toNat = v :=
  ⟨Char.ofNatAux v hv, rfl⟩

/-- What the decoder reads is a character. -/
theorem utf8Decode_some {input rest : Bytes} {v : Nat} (h : utf8Decode input = some (v, rest)) :
    ∃ c : Char, c.toNat = v ∧ input = String.utf8EncodeChar c ++ rest := by
  cases input with
  | nil => cases h
  | cons a input =>
    rw [utf8Decode] at h
    by_cases ha : a < 0x80
    · rw [if_pos ha] at h
      cases h
      have hlt : a.toNat < 128 := UInt8.lt_iff_toNat_lt.mp ha
      obtain ⟨c, hc⟩ := exists_char (v := a.toNat) (by omega)
      refine ⟨c, hc, ?_⟩
      rw [← utf8Encode_char, hc, utf8Encode, if_neg (by omega), if_pos hlt, UInt8.ofNat_toNat]
      rfl
    · rw [if_neg ha] at h
      cases hlead : utf8Lead a.toNat with
      | none =>
        rw [hlead] at h
        cases h
      | some p =>
        obtain ⟨width, bits⟩ := p
        rw [hlead] at h
        dsimp only at h
        split at h
        · cases h
        cases hcont : utf8Continue (width - 1) bits input with
        | none =>
          rw [hcont] at h
          cases h
        | some q =>
          obtain ⟨value, rest'⟩ := q
          rw [hcont] at h
          dsimp only at h
          split at h
          · cases h
          next hok =>
          cases h
          simp only [← UInt8.toNat_inj, UInt8.reduceToNat] at hok
          obtain ⟨c, hc⟩ := exists_char (v := v) (by omega)
          refine ⟨c, hc, ?_⟩
          rw [← utf8Encode_char, hc, utf8Encode, if_neg (by omega)]
          simp only [Nat.shiftRight_eq_div_pow, and_tail]
          -- the lead byte tells how many bytes are left, and the value tells them all
          by_cases h2 : 0xc2 ≤ a.toNat ∧ a.toNat ≤ 0xdf
          · rw [utf8Lead_two h2] at hlead
            cases hlead
            obtain ⟨b, r, rfl, hb, hcont⟩ := utf8Continue_some hcont
            obtain ⟨hv, rfl⟩ := Prod.mk.inj (Option.some.inj hcont)
            rw [if_neg (by omega), if_pos (by omega), or_two _ (by omega), or_tail _ (by omega),
              show v / 2 ^ 6 + 0xc0 = a.toNat by omega,
              show v % 64 + 0x80 = b.toNat by omega,
              UInt8.ofNat_toNat, UInt8.ofNat_toNat]
            rfl
          by_cases h3 : 0xe0 ≤ a.toNat ∧ a.toNat ≤ 0xef
          · rw [utf8Lead_three h3] at hlead
            cases hlead
            obtain ⟨b, r, rfl, hb, hcont⟩ := utf8Continue_some hcont
            obtain ⟨d, r, rfl, hd, hcont⟩ := utf8Continue_some hcont
            obtain ⟨hv, rfl⟩ := Prod.mk.inj (Option.some.inj hcont)
            rw [if_neg (by omega), if_neg (by omega), if_pos (by omega), or_three _ (by omega),
              or_tail _ (by omega), or_tail _ (by omega),
              show v / 2 ^ 12 + 0xe0 = a.toNat by omega,
              show v / 2 ^ 6 % 64 + 0x80 = b.toNat by omega,
              show v % 64 + 0x80 = d.toNat by omega,
              UInt8.ofNat_toNat, UInt8.ofNat_toNat, UInt8.ofNat_toNat]
            rfl
          by_cases h4 : 0xf0 ≤ a.toNat ∧ a.toNat ≤ 0xf4
          · rw [utf8Lead_four h4] at hlead
            cases hlead
            obtain ⟨b, r, rfl, hb, hcont⟩ := utf8Continue_some hcont
            obtain ⟨d, r, rfl, hd, hcont⟩ := utf8Continue_some hcont
            obtain ⟨e, r, rfl, he, hcont⟩ := utf8Continue_some hcont
            obtain ⟨hv, rfl⟩ := Prod.mk.inj (Option.some.inj hcont)
            rw [if_neg (by omega), if_neg (by omega), if_neg (by omega), or_four _ (by omega),
              or_tail _ (by omega), or_tail _ (by omega), or_tail _ (by omega),
              show v / 2 ^ 18 + 0xf0 = a.toNat by omega,
              show v / 2 ^ 12 % 64 + 0x80 = b.toNat by omega,
              show v / 2 ^ 6 % 64 + 0x80 = d.toNat by omega,
              show v % 64 + 0x80 = e.toNat by omega,
              UInt8.ofNat_toNat, UInt8.ofNat_toNat, UInt8.ofNat_toNat, UInt8.ofNat_toNat]
            rfl
          rw [utf8Lead, if_neg h2, if_neg h3, if_neg h4] at hlead
          cases hlead

/-! ## The lowercase mapping -/

/-- The search ends with the value itself or with the offset of its range. -/
theorem simpleLowerSearch_cases (value : Nat) : ∀ fuel first last : Nat,
    simpleLowerSearch value fuel first last = value ∨ ∃ e ∈ lowerRanges, e.1 ≤ value ∧ value ≤ e.2.1 ∧
      simpleLowerSearch value fuel first last =
        if e.2.2 = upperLower then e.1 + ((value - e.1) ||| 1) else (value + e.2.2).toNat
  | 0, _, _ => .inl rfl
  | fuel + 1, first, last => by
    rw [simpleLowerSearch]
    split
    · dsimp only
      cases hm : lowerRanges[first + (last - first) / 2]? with
      | none => exact .inl rfl
      | some e =>
        obtain ⟨lo, hi, delta⟩ := e
        dsimp only
        split
        · exact simpleLowerSearch_cases value fuel _ _
        split
        · exact simpleLowerSearch_cases value fuel _ _
        · next h1 h2 => exact .inr ⟨(lo, hi, delta), List.mem_of_getElem? hm, Nat.not_lt.mp h1, Nat.not_lt.mp h2, rfl⟩
    · exact .inl rfl

/-- The range maps characters to characters. -/
def rangeOk (e : Nat × Nat × Int) : Bool :=
  if e.2.2 = upperLower then e.2.1 + 1 < 0xd800
  else 0 ≤ (e.1 : Int) + e.2.2 &&
    ((e.2.1 : Int) + e.2.2 < 0xd800 || (0xdfff < (e.1 : Int) + e.2.2 && (e.2.1 : Int) + e.2.2 < 0x110000))

theorem lowerRanges_ok : lowerRanges.all rangeOk = true := by decide +kernel

theorem or_one_le (x : Nat) : x ||| 1 ≤ x + 1 := by
  have hsplit : (x / 2) <<< 1 ||| x % 2 = x := by
    rw [← Nat.shiftLeft_add_eq_or_of_lt (i := 1) (by omega), Nat.shiftLeft_eq]
    omega
  have hone : x % 2 ||| 1 = 1 := by
    rcases Nat.mod_two_eq_zero_or_one x with h | h <;> rw [h] <;> rfl
  calc x ||| 1 = (x / 2) <<< 1 ||| (x % 2 ||| 1) := by rw [← Nat.or_assoc, hsplit]
    _ = (x / 2) <<< 1 + 1 := by rw [hone, ← Nat.shiftLeft_add_eq_or_of_lt (i := 1) (by omega)]
    _ ≤ x + 1 := by
      rw [Nat.shiftLeft_eq]
      omega

theorem simpleLower_valid {v : Nat} (hv : v < 0xd800 ∨ 0xdfff < v ∧ v < 0x110000) :
    simpleLower v < 0xd800 ∨ 0xdfff < simpleLower v ∧ simpleLower v < 0x110000 := by
  rw [simpleLower]
  split
  · omega
  rcases simpleLowerSearch_cases v (lowerRanges.length + 1) 0 lowerRanges.length with h | ⟨e, he, h1, h2, h⟩
  · rwa [h]
  · have hok := List.all_eq_true.mp lowerRanges_ok e he
    rw [h]
    rw [rangeOk] at hok
    split at hok
    · next hu =>
        have := or_one_le (v - e.1)
        rw [if_pos hu]
        have := of_decide_eq_true hok
        omega
    · next hu =>
        rw [if_neg hu]
        simp only [Bool.and_eq_true, Bool.or_eq_true, decide_eq_true_eq] at hok
        omega

theorem lowerChar_toNat (c : Char) : (lowerChar c).toNat = simpleLower c.toNat := by
  have hvalid : c.toNat < 0xd800 ∨ 0xdfff < c.toNat ∧ c.toNat < 0x110000 := c.valid
  have hlow : (simpleLower c.toNat).isValidChar := simpleLower_valid hvalid
  rw [lowerChar, Char.ofNat, dif_pos hlow]
  rfl

theorem utf8Encode_lower (c : Char) : utf8Encode (simpleLower c.toNat) = String.utf8EncodeChar (lowerChar c) := by
  rw [← lowerChar_toNat, utf8Encode_char]

theorem utf8EncodeChar_ne (c : Char) : String.utf8EncodeChar c ≠ [] := by
  unfold String.utf8EncodeChar
  dsimp only
  split
  · exact List.cons_ne_nil _ _
  split
  · exact List.cons_ne_nil _ _
  split
  · exact List.cons_ne_nil _ _
  · exact List.cons_ne_nil _ _

theorem utf8LowerLoop_char (fuel : Nat) (c : Char) (rest : Bytes) :
    utf8LowerLoop (fuel + 1) (String.utf8EncodeChar c ++ rest) =
      (utf8LowerLoop fuel rest).map (String.utf8EncodeChar (lowerChar c) ++ ·) := by
  have hd := utf8Decode_char c rest
  obtain ⟨a, as, ha⟩ := List.exists_cons_of_ne_nil (utf8EncodeChar_ne c)
  obtain ⟨b, bs, hb⟩ := List.exists_cons_of_ne_nil (utf8EncodeChar_ne (lowerChar c))
  rw [ha, List.cons_append] at hd ⊢
  rw [utf8LowerLoop, hd]
  · dsimp only
    rw [utf8Encode_lower, hb]
  · exact List.cons_ne_nil _ _

/-- **The mapping of a text maps its characters.** -/
theorem utf8LowerLoop_chars : ∀ (cs : List Char) (fuel : Nat), cs.length ≤ fuel →
    utf8LowerLoop fuel (utf8 cs) = some (utf8 (cs.map lowerChar))
  | [], 0, _ => rfl
  | [], _ + 1, _ => rfl
  | c :: cs, 0, h => absurd h (Nat.not_succ_le_zero _)
  | c :: cs, fuel + 1, h => by
    rw [utf8_cons, utf8LowerLoop_char, utf8LowerLoop_chars cs fuel (Nat.le_of_succ_le_succ h)]
    rfl

theorem length_le_utf8 (cs : List Char) : cs.length ≤ (utf8 cs).length := by
  induction cs with
  | nil => exact Nat.le_refl 0
  | cons c cs ih =>
    have := List.length_pos_iff.mpr (utf8EncodeChar_ne c)
    rw [utf8_cons, List.length_append, List.length_cons]
    omega

theorem utf8Lower_chars (cs : List Char) : utf8Lower (utf8 cs) = some (utf8 (cs.map lowerChar)) :=
  utf8LowerLoop_chars cs _ (length_le_utf8 cs)

theorem utf8LowerLoop_some : ∀ {fuel : Nat} {v low : Bytes}, utf8LowerLoop fuel v = some low →
    ∃ cs, v = utf8 cs ∧ low = utf8 (cs.map lowerChar)
  | 0, [], _, h => by
    cases h
    exact ⟨[], rfl, rfl⟩
  | 0, _ :: _, _, h => by cases h
  | fuel + 1, [], _, h => by
    cases h
    exact ⟨[], rfl, rfl⟩
  | fuel + 1, a :: v, low, h => by
    cases hd : utf8Decode (a :: v) with
    | none =>
      rw [utf8LowerLoop, hd] at h
      · cases h
      · exact List.cons_ne_nil _ _
    | some p =>
      obtain ⟨c, -, hin⟩ := utf8Decode_some hd
      rw [hin, utf8LowerLoop_char] at h
      obtain ⟨low', hrest, rfl⟩ := Option.map_eq_some_iff.mp h
      obtain ⟨cs, hv, rfl⟩ := utf8LowerLoop_some hrest
      exact ⟨c :: cs, by rw [hin, hv]; rfl, rfl⟩

/-- What the mapping accepts is a text. -/
theorem utf8Lower_some {v low : Bytes} (h : utf8Lower v = some low) :
    ∃ cs, v = utf8 cs ∧ low = utf8 (cs.map lowerChar) := utf8LowerLoop_some h

end Lql.Unicode
