import Lql.Lib.Word
import Lql.Scan.Read

/-!
# Words of either size

`lql_json_plain_ascii_span` reads an `unsigned long` at a time, and that is four
bytes on one machine and eight on another, the first byte lowest or highest. The
tests it makes are the same: one subtraction, one addition and a mask over all bytes
at once. What a borrow does to the bytes above a zero byte never matters, because
the lowest zero byte has been seen by then.
-/

namespace Lql.Scan

open Lib

/-- `sizeof(unsigned long)` -/
inductive LongSize
  | four
  | eight
deriving Repr, DecidableEq

/-- Where a word in memory has its lowest byte. -/
inductive ByteOrder
  | little
  | big
deriving Repr, DecidableEq

@[simp] def LongSize.bytes : LongSize → Nat
  | .four => 4
  | .eight => 8

/-- Bytes as a word of `n`, the first one lowest. -/
def loadLow (n : Nat) : Bytes → BitVec (8 * n)
  | [] => 0
  | c :: rest => BitVec.ofNat (8 * n) c.toNat ||| (loadLow n rest <<< 8)

/-- What `memcpy` leaves in the word. -/
def loadLong (n : Nat) : ByteOrder → Bytes → BitVec (8 * n)
  | .little, data => loadLow n data
  | .big, data => loadLow n data.reverse

/-- `ones = ~0ul / 255ul` -/
def longOnes (n : Nat) : BitVec (8 * n) := ~~~0 / 255

/-- `high = ones * 128ul` -/
def longHigh (n : Nat) : BitVec (8 * n) := longOnes n * 128

/-- `lql_json_word_has_zero_byte` -/
def longHasZeroByte (n : Nat) (value : BitVec (8 * n)) : Bool :=
  (value - longOnes n) &&& ~~~value &&& longHigh n ≠ 0

/-- The word test of `lql_json_plain_ascii_span`. -/
def longHasSpecial (n : Nat) (word : BitVec (8 * n)) : Bool :=
  word &&& longHigh n ≠ 0 || ~~~(word + longOnes n * 96) &&& longHigh n ≠ 0 ||
    longHasZeroByte n (word ^^^ (longOnes n * 0x22)) ||
    longHasZeroByte n (word ^^^ (longOnes n * 0x5c))

/-- The word loop of `lql_json_plain_ascii_span`: the bytes it passes over. -/
def plainLongs (n : Nat) (order : ByteOrder) : Nat → Bytes → Nat
  | 0, _ => 0
  | fuel + 1, data =>
    if data.length ≥ n ∧ !longHasSpecial n (loadLong n order (data.take n)) then
      n + plainLongs n order fuel (data.drop n)
    else 0

/-- `lql_json_plain_ascii_span` over the `len` bytes from `data` on, where an
`unsigned long` has this size and byte order. -/
def plainAsciiSpanOn (size : LongSize) (order : ByteOrder) (data : Bytes) : Nat :=
  if data.length < size.bytes then plainKeySpan data
  else
    let offset := plainLongs size.bytes order data.length data
    offset + plainKeySpan (data.drop offset)

/-! ## The words as numbers -/

theorem two_pow_bytes (n : Nat) : (2 : Nat) ^ (8 * n) = 256 ^ n := by rw [Nat.pow_mul]

section

variable {n : Nat}

theorem longOnes_toNat (hn : 0 < n) : (longOnes n).toNat = onesOf n := by
  have h255 : (255 : BitVec (8 * n)).toNat = 255 := by
    rw [BitVec.ofNat_eq_ofNat, BitVec.toNat_ofNat, two_pow_bytes]
    have hpow : 256 ^ 1 ≤ 256 ^ n := Nat.pow_le_pow_right (by decide) hn
    exact Nat.mod_eq_of_lt (Nat.lt_of_lt_of_le (by decide) hpow)
  have hall : (~~~(0 : BitVec (8 * n))).toNat = 256 ^ n - 1 := by
    rw [BitVec.toNat_not, two_pow_bytes]
    simp
  have := onesOf_mul n
  rw [longOnes, BitVec.toNat_udiv, h255, hall]
  omega

/-- A byte in every place of the word. -/
theorem longOnes_mul_toNat (hn : 0 < n) {a : Nat} (ha : a < 256) :
    (longOnes n * BitVec.ofNat (8 * n) a).toNat = a * onesOf n := by
  have hmul := onesOf_mul n
  have hle : a * onesOf n ≤ 255 * onesOf n := Nat.mul_le_mul_right _ (by omega)
  have hpow : 256 ^ 1 ≤ 256 ^ n := Nat.pow_le_pow_right (by decide) hn
  rw [BitVec.toNat_mul, longOnes_toNat hn, BitVec.toNat_ofNat, two_pow_bytes,
    Nat.mod_eq_of_lt (show a < 256 ^ n by omega), Nat.mul_comm]
  exact Nat.mod_eq_of_lt (by omega)

theorem loadLow_toNat : ∀ bs : Bytes, bs.length ≤ n →
    (loadLow n bs).toNat < 256 ^ bs.length ∧
      ∀ j, byteAt (loadLow n bs).toNat j = (bs.getD j 0).toNat
  | [], _ => ⟨by simp [loadLow], fun j => by simp [loadLow, byteAt]⟩
  | c :: bs, h => by
    obtain ⟨hlt, hbyte⟩ := loadLow_toNat bs (Nat.le_of_succ_le h)
    have hpow : 256 ^ (bs.length + 1) ≤ 256 ^ n := Nat.pow_le_pow_right (by decide) h
    have hc : c.toNat < 256 := c.toNat_lt
    have hone : 1 ≤ 256 ^ bs.length := Nat.one_le_pow _ _ (by decide)
    rw [Nat.pow_succ] at hpow
    have hval : (loadLow n (c :: bs)).toNat = c.toNat + 256 * (loadLow n bs).toNat := by
      have h1 : (loadLow n bs <<< 8).toNat = 2 ^ 8 * (loadLow n bs).toNat := by
        rw [BitVec.toNat_shiftLeft, two_pow_bytes, Nat.shiftLeft_eq, Nat.mod_eq_of_lt (by omega),
          Nat.mul_comm]
      have h2 : (BitVec.ofNat (8 * n) c.toNat).toNat = c.toNat := by
        rw [BitVec.toNat_ofNat, two_pow_bytes]
        exact Nat.mod_eq_of_lt (by omega)
      rw [loadLow, BitVec.toNat_or, h1, h2, Nat.or_comm, ← Nat.two_pow_add_eq_or_of_lt hc,
        Nat.add_comm]
    refine ⟨?_, fun j => ?_⟩
    · rw [hval, List.length_cons, Nat.pow_succ]
      omega
    · rw [hval]
      cases j with
      | zero =>
        simp only [byteAt, Nat.pow_zero, Nat.div_one, List.getD_cons_zero]
        omega
      | succ j =>
        have hdiv : (c.toNat + 256 * (loadLow n bs).toNat) / 256 = (loadLow n bs).toNat := by omega
        rw [byteAt_succ, hdiv, hbyte j, List.getD_cons_succ]

/-! ## The tests -/

/-- A bit of a word, read from its number. -/
theorem bit_of_high {w : Nat} {x : BitVec w} {j : Nat} :
    x.getLsbD (8 * j + 7) = decide (byteAt x.toNat j / 128 = 1) := by
  rw [BitVec.getLsbD, Nat.testBit_eq_decide_div_mod_eq, high_bit]

theorem longHigh_bit {j : Nat} (hj : j < n) : (longHigh n).getLsbD (8 * j + 7) = true := by
  have htoNat : (longHigh n).toNat = 128 * onesOf n :=
    longOnes_mul_toNat (Nat.zero_lt_of_lt hj) (by decide)
  rw [bit_of_high, htoNat, byteAt_mul_ones (by decide) hj]
  rfl

/-- A word and-ed with the high bits is zero only if no byte has its high bit. -/
theorem high_of_and_eq_zero {x : BitVec (8 * n)} (h : x &&& longHigh n = 0) {j : Nat} (hj : j < n) :
    byteAt x.toNat j < 128 := by
  have hb : (x &&& longHigh n).getLsbD (8 * j + 7) = false := by rw [h]; simp
  rw [BitVec.getLsbD_and, longHigh_bit hj, Bool.and_true, bit_of_high] at hb
  have hlt := byteAt_lt x.toNat j
  have : ¬ byteAt x.toNat j / 128 = 1 := by simpa using hb
  omega

/-- A zero byte is seen: the lowest one borrows from nothing below it. -/
theorem hasZeroByte_of_zero {x : BitVec (8 * n)} {j : Nat} (hj : j < n)
    (h : byteAt x.toNat j = 0) : longHasZeroByte n x = true := by
  obtain ⟨k, hk, h0, hlow⟩ := exists_lowest_zero h
  have hkn : k < n := Nat.lt_of_le_of_lt hk hj
  have hsub : (x - longOnes n).toNat = (x.toNat + (256 ^ n - onesOf n)) % 256 ^ n := by
    rw [BitVec.toNat_sub, longOnes_toNat (Nat.zero_lt_of_lt hj), two_pow_bytes, Nat.add_comm]
  have hbyte : byteAt (x - longOnes n).toNat k = 255 := by
    rw [hsub, byteAt_mod _ hkn]
    exact byteAt_sub_ones n x.toNat k hkn h0 hlow
  have hbit : ((x - longOnes n) &&& ~~~x &&& longHigh n).getLsbD (8 * k + 7) = true := by
    have hin : 8 * k + 7 < 8 * n := by omega
    rw [BitVec.getLsbD_and, BitVec.getLsbD_and, BitVec.getLsbD_not, longHigh_bit hkn, bit_of_high,
      bit_of_high, hbyte, h0]
    simp [hin]
  simp only [longHasZeroByte, ne_eq, decide_not, Bool.not_eq_true', decide_eq_false_iff_not]
  intro hzero
  rw [hzero] at hbit
  simp at hbit

theorem byte_ne_of_not_hasZeroByte {x : BitVec (8 * n)} {a : Nat} (ha : a < 256)
    (h : longHasZeroByte n (x ^^^ (longOnes n * BitVec.ofNat (8 * n) a)) = false) {j : Nat}
    (hj : j < n) : byteAt x.toNat j ≠ a := by
  intro hc
  have h0 : byteAt (x ^^^ (longOnes n * BitVec.ofNat (8 * n) a)).toNat j = 0 := by
    rw [BitVec.toNat_xor, byteAt_xor, longOnes_mul_toNat (Nat.zero_lt_of_lt hj) ha,
      byteAt_mul_ones ha hj, hc, Nat.xor_self]
  rw [hasZeroByte_of_zero hj h0] at h
  cases h

/-- With no high bit set, adding 96 to every byte sets the high bits of the bytes
from 32 on. -/
theorem control_of_not_high {x : BitVec (8 * n)} (hascii : ∀ i < n, byteAt x.toNat i < 128)
    (h : ~~~(x + longOnes n * 96) &&& longHigh n = 0) {j : Nat} (hj : j < n) :
    32 ≤ byteAt x.toNat j := by
  cases n with
  | zero => exact absurd hj (Nat.not_lt_zero _)
  | succ m =>
    have hsum : (x + longOnes (m + 1) * 96).toNat = x.toNat + 96 * onesOf (m + 1) := by
      have h96 : (longOnes (m + 1) * 96).toNat = 96 * onesOf (m + 1) :=
        longOnes_mul_toNat (Nat.succ_pos m) (by decide)
      have hx : x.toNat < 256 ^ m * 256 := by
        have := x.isLt
        rwa [two_pow_bytes] at this
      have htop : x.toNat / 256 ^ m < 128 := by
        have hm := hascii m (Nat.lt_succ_self m)
        have hdiv : x.toNat / 256 ^ m < 256 := by
          rwa [Nat.div_lt_iff_lt_mul (Nat.pow_pos (by decide)), Nat.mul_comm 256]
        rwa [byteAt, Nat.mod_eq_of_lt hdiv] at hm
      have hlow : x.toNat < 128 * 256 ^ m :=
        (Nat.div_lt_iff_lt_mul (Nat.pow_pos (by decide))).mp htop
      have hones := onesOf_mul (m + 1)
      rw [BitVec.toNat_add, h96, two_pow_bytes]
      refine Nat.mod_eq_of_lt ?_
      rw [Nat.pow_succ] at hones ⊢
      omega
    have hb : (~~~(x + longOnes (m + 1) * 96) &&& longHigh (m + 1)).getLsbD (8 * j + 7) = false := by
      rw [h]; simp
    have hin : 8 * j + 7 < 8 * (m + 1) := by omega
    have hroom : ∀ i < m + 1, byteAt x.toNat i + 96 < 256 := fun i hi => by
      have := hascii i hi
      omega
    rw [BitVec.getLsbD_and, longHigh_bit hj, BitVec.getLsbD_not, Bool.and_true, bit_of_high, hsum,
      byteAt_add_ones 96 (m + 1) _ j hj hroom] at hb
    have := hascii j hj
    simp only [hin, decide_true, Bool.true_and, Bool.not_eq_false', decide_eq_true_eq] at hb
    omega

/-- A word whose tests all fail holds plain bytes only. -/
theorem plain_of_loadLow {bs : Bytes} (hlen : bs.length = n)
    (h : longHasSpecial n (loadLow n bs) = false) : ∀ c ∈ bs, isPlain c = true := by
  simp only [longHasSpecial, Bool.or_eq_false_iff] at h
  obtain ⟨⟨⟨h1, h2⟩, h3⟩, h4⟩ := h
  simp only [ne_eq, decide_not, Bool.not_eq_false', decide_eq_true_eq] at h1 h2
  obtain ⟨-, hbyte⟩ := loadLow_toNat bs (Nat.le_of_eq hlen)
  intro c hc
  obtain ⟨j, hj, rfl⟩ := List.mem_iff_getElem.mp hc
  rw [hlen] at hj
  have hget : byteAt (loadLow n bs).toNat j = (bs[j]).toNat := by
    rw [hbyte j, List.getD_eq_getElem?_getD, List.getElem?_eq_getElem, Option.getD_some]
  have hascii : ∀ i < n, byteAt (loadLow n bs).toNat i < 128 := fun i hi => high_of_and_eq_zero h1 hi
  have hcontrol := control_of_not_high hascii h2 hj
  have hquote := byte_ne_of_not_hasZeroByte (by decide) h3 hj
  have hback := byte_ne_of_not_hasZeroByte (by decide) h4 hj
  have hhi := hascii j hj
  rw [hget] at hcontrol hquote hback hhi
  have hq : bs[j] ≠ chQuote := fun he => hquote (by rw [he]; rfl)
  have hs : bs[j] ≠ chBackslash := fun he => hback (by rw [he]; rfl)
  simp only [isPlain, hq, hs, ne_eq, not_false_eq_true, decide_true, Bool.true_and,
    Bool.and_eq_true, decide_eq_true_eq, UInt8.le_iff_toNat_le, UInt8.lt_iff_toNat_lt]
  exact ⟨hcontrol, hhi⟩

theorem plain_of_loadLong {order : ByteOrder} {bs : Bytes} (hlen : bs.length = n)
    (h : longHasSpecial n (loadLong n order bs) = false) : ∀ c ∈ bs, isPlain c = true := by
  cases order with
  | little => exact plain_of_loadLow hlen h
  | big =>
    intro c hc
    exact plain_of_loadLow (by rw [List.length_reverse, hlen]) h c (List.mem_reverse.mpr hc)

end

/-! ## The span -/

theorem plainKeySpan_append {pre : Bytes} (h : ∀ c ∈ pre, isPlain c = true) (rest : Bytes) :
    plainKeySpan (pre ++ rest) = pre.length + plainKeySpan rest := by
  induction pre with
  | nil => simp
  | cons c pre ih =>
    have hc := h c List.mem_cons_self
    rw [List.cons_append, plainKeySpan, if_pos hc, ih fun d hd => h d (List.mem_cons_of_mem _ hd),
      List.length_cons]
    omega

/-- The words passed over are plain, and leave the rest to the byte loop. -/
theorem plainLongs_span (n : Nat) (order : ByteOrder) : ∀ fuel data,
    plainLongs n order fuel data + plainKeySpan (data.drop (plainLongs n order fuel data)) =
      plainKeySpan data
  | 0, data => by simp [plainLongs]
  | fuel + 1, data => by
    rw [plainLongs]
    split
    · next h =>
      obtain ⟨hlen, hword⟩ := h
      have hplain := plain_of_loadLong (List.length_take_of_le hlen) (by simpa using hword)
      have ih := plainLongs_span n order fuel (data.drop n)
      have hsplit := plainKeySpan_append hplain (data.drop n)
      rw [List.take_append_drop, List.length_take, Nat.min_eq_left hlen] at hsplit
      rw [hsplit, ← ih, ← List.drop_drop, Nat.add_assoc]
    · simp

/-- **The word loop changes nothing**, whatever a word is: the span ends at the first
byte that is not plain. -/
theorem plainAsciiSpanOn_eq (size : LongSize) (order : ByteOrder) (data : Bytes) :
    plainAsciiSpanOn size order data = plainKeySpan data := by
  unfold plainAsciiSpanOn
  split
  · rfl
  · exact plainLongs_span _ _ data.length data

theorem plainKeySpan_le (data : Bytes) : plainKeySpan data ≤ data.length := by
  induction data with
  | nil => exact Nat.le_refl _
  | cons c data ih =>
    rw [plainKeySpan, List.length_cons]
    split <;> omega

/-- Everything inside the span is plain. -/
theorem plain_of_mem_span (data : Bytes) : ∀ c ∈ data.take (plainKeySpan data), isPlain c = true := by
  induction data with
  | nil => intro c hc; simp [plainKeySpan] at hc
  | cons d data ih =>
    intro c hc
    rw [plainKeySpan] at hc
    split at hc
    · next hd =>
      rcases List.mem_cons.mp (by simpa using hc) with rfl | hc
      · exact hd
      · exact ih c hc
    · simp at hc

/-- The byte behind the span is not plain. -/
theorem not_plain_behind_span {data : Bytes} {c : UInt8} (h : data[plainKeySpan data]? = some c) :
    isPlain c = false := by
  induction data with
  | nil => simp at h
  | cons d data ih =>
    rw [plainKeySpan] at h
    split at h
    · exact ih (by simpa using h)
    · next hd =>
      simp only [List.getElem?_cons_zero, Option.some.injEq] at h
      simpa [h] using hd

end Lql.Scan
