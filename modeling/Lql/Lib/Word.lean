import Mathlib.Data.Nat.Find
import Mathlib.Data.Nat.Bitwise

/-!
# Bytes of a word

A number below `256 ^ n` seen as `n` bytes, and the two tricks by which a search
looks at all of them at once: adding the same amount to every byte without a carry,
and subtracting one from every byte, where the lowest zero byte is the first to
borrow.
-/

namespace Lib

/-- Byte `j` of a number, the lowest one first. -/
def byteAt (N j : Nat) : Nat := N / 256 ^ j % 256

/-- The number whose `n` bytes are all one. -/
def onesOf : Nat → Nat
  | 0 => 0
  | n + 1 => 1 + 256 * onesOf n

theorem onesOf_lt : ∀ n, onesOf n < 256 ^ n
  | 0 => Nat.one_pos
  | n + 1 => by
    have := onesOf_lt n
    rw [onesOf, Nat.pow_succ]
    omega

theorem byteAt_lt (N j : Nat) : byteAt N j < 256 := Nat.mod_lt _ (by decide)

theorem byteAt_succ (N j : Nat) : byteAt N (j + 1) = byteAt (N / 256) j := by
  rw [byteAt, byteAt, Nat.pow_succ', Nat.div_div_eq_div_mul]

/-- The high bit of byte `j`. -/
theorem high_bit (N j : Nat) : N / 2 ^ (8 * j + 7) % 2 = byteAt N j / 128 := by
  have h : (2 : Nat) ^ (8 * j + 7) = 256 ^ j * 128 := by
    rw [Nat.pow_add, Nat.pow_mul]
  rw [byteAt, h, ← Nat.div_div_eq_div_mul]
  omega

/-- Adding `a` to bytes that leave room for it changes every byte alone. -/
theorem byteAt_add_ones (a : Nat) :
    ∀ n N j, j < n → (∀ i < n, byteAt N i + a < 256) →
      byteAt (N + a * onesOf n) j = byteAt N j + a
  | 0, _, _, hj, _ => absurd hj (Nat.not_lt_zero _)
  | n + 1, N, 0, _, h => by
    have h0 := h 0 (Nat.succ_pos n)
    simp only [byteAt, Nat.pow_zero, Nat.div_one, onesOf] at h0 ⊢
    rw [Nat.mul_add, Nat.mul_left_comm]
    omega
  | n + 1, N, j + 1, hj, h => by
    have h0 := h 0 (Nat.succ_pos n)
    simp only [byteAt, Nat.pow_zero, Nat.div_one] at h0
    have hdiv : (N + a * onesOf (n + 1)) / 256 = N / 256 + a * onesOf n := by
      rw [onesOf, Nat.mul_add, Nat.mul_left_comm]
      omega
    rw [byteAt_succ, hdiv, byteAt_succ]
    exact byteAt_add_ones a n _ j (Nat.lt_of_succ_lt_succ hj) fun i hi => by
      rw [← byteAt_succ]
      exact h (i + 1) (Nat.succ_lt_succ hi)

/-- Take one from every byte: the lowest zero byte wraps to 255. -/
theorem byteAt_sub_ones :
    ∀ n N j, j < n → byteAt N j = 0 → (∀ i < j, byteAt N i ≠ 0) →
      byteAt (N + (256 ^ n - onesOf n)) j = 255
  | 0, _, _, hj, _, _ => absurd hj (Nat.not_lt_zero _)
  | n + 1, N, 0, _, h0, _ => by
    have := onesOf_lt n
    simp only [byteAt, Nat.pow_zero, Nat.div_one, onesOf] at h0 ⊢
    rw [Nat.pow_succ]
    omega
  | n + 1, N, j + 1, hj, h0, hlow => by
    have hlt := onesOf_lt n
    have hr := hlow 0 (Nat.succ_pos j)
    simp only [byteAt, Nat.pow_zero, Nat.div_one] at hr
    have hdiv : (N + (256 ^ (n + 1) - onesOf (n + 1))) / 256 = N / 256 + (256 ^ n - onesOf n) := by
      rw [onesOf, Nat.pow_succ]
      omega
    rw [byteAt_succ] at h0 ⊢
    rw [hdiv]
    exact byteAt_sub_ones n _ j (Nat.lt_of_succ_lt_succ hj) h0 fun i hi => by
      rw [← byteAt_succ]
      exact hlow (i + 1) (Nat.succ_lt_succ hi)

theorem byteAt_xor (a b j : Nat) : byteAt (a ^^^ b) j = byteAt a j ^^^ byteAt b j := by
  have h : (256 : Nat) ^ j = 2 ^ (8 * j) := by rw [Nat.pow_mul]
  have h8 : (256 : Nat) = 2 ^ 8 := rfl
  unfold byteAt
  rw [h, ← Nat.shiftRight_eq_div_pow, ← Nat.shiftRight_eq_div_pow, ← Nat.shiftRight_eq_div_pow,
    Nat.shiftRight_xor_distrib, h8, Nat.xor_mod_two_pow]

/-- There is a lowest zero byte. -/
theorem exists_lowest_zero {N j : Nat} (h : byteAt N j = 0) :
    ∃ k ≤ j, byteAt N k = 0 ∧ ∀ i < k, byteAt N i ≠ 0 := by
  classical
  have hex : ∃ k, byteAt N k = 0 := ⟨j, h⟩
  exact ⟨Nat.find hex, Nat.find_min' hex h, Nat.find_spec hex, fun i hi => Nat.find_min hex hi⟩

/-- The word of ones is the largest word divided by 255. -/
theorem onesOf_mul : ∀ n, 255 * onesOf n + 1 = 256 ^ n
  | 0 => rfl
  | n + 1 => by
    have := onesOf_mul n
    rw [onesOf, Nat.pow_succ]
    omega

/-- Every byte of `a` times the word of ones is `a`. -/
theorem byteAt_mul_ones {a n j : Nat} (ha : a < 256) (hj : j < n) : byteAt (a * onesOf n) j = a := by
  have hzero : ∀ i, byteAt 0 i = 0 := fun i => by simp [byteAt]
  have h := byteAt_add_ones a n 0 j hj fun i _ => by
    rw [hzero]
    omega
  rwa [Nat.zero_add, hzero, Nat.zero_add] at h

/-- Cutting a number to `n` bytes keeps these bytes. -/
theorem byteAt_mod {n j : Nat} (X : Nat) (hj : j < n) : byteAt (X % 256 ^ n) j = byteAt X j := by
  have hpow : (256 : Nat) ^ n = 256 ^ j * (256 * 256 ^ (n - j - 1)) := by
    rw [← Nat.pow_succ', ← Nat.pow_add]
    congr 1
    omega
  unfold byteAt
  rw [hpow, Nat.mod_mul_right_div_self, Nat.mod_mul_right_mod]

end Lib
