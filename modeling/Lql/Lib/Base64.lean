import Mathlib.Data.Nat.Bitwise
import Mathlib.Tactic.IntervalCases

/-!
# Base64

The padded encoding of bytes by the standard alphabet: three bytes are four sextets, and what is left at the end is
filled up.
-/

namespace Lib.Base64

/-- The letter of a sextet. -/
def letter (n : Nat) : UInt8 :=
  if n < 26 then UInt8.ofNat (65 + n)
  else if n < 52 then UInt8.ofNat (97 + (n - 26))
  else if n < 62 then UInt8.ofNat (48 + (n - 52))
  else if n = 62 then 0x2b
  else 0x2f

/-- What fills up the last group. -/
abbrev pad : UInt8 := 0x3d

/-- The encoding. -/
def encode : List UInt8 → List UInt8
  | a :: b :: c :: rest =>
    letter (a.toNat / 4) :: letter (a.toNat % 4 * 16 + b.toNat / 16) ::
      letter (b.toNat % 16 * 4 + c.toNat / 64) :: letter (c.toNat % 64) :: encode rest
  | [a, b] => [letter (a.toNat / 4), letter (a.toNat % 4 * 16 + b.toNat / 16), letter (b.toNat % 16 * 4), pad]
  | [a] => [letter (a.toNat / 4), letter (a.toNat % 4 * 16), pad, pad]
  | [] => []

/-- Whole groups are encoded by themselves. -/
theorem encode_append : ∀ {xs : List UInt8} (ys : List UInt8), xs.length % 3 = 0 →
    encode (xs ++ ys) = encode xs ++ encode ys
  | [], _, _ => rfl
  | [_], _, h => absurd h (by simp)
  | [_, _], _, h => absurd h (by simp)
  | a :: b :: c :: rest, ys, h => by
    have hrest : rest.length % 3 = 0 := by
      simp only [List.length_cons] at h
      omega
    simp only [List.cons_append, encode, encode_append ys hrest]

/-- Whole groups of three are groups of four. -/
theorem length_encode : ∀ {xs : List UInt8}, xs.length % 3 = 0 → 3 * (encode xs).length = 4 * xs.length
  | [], _ => rfl
  | [_], h => absurd h (by simp)
  | [_, _], h => absurd h (by simp)
  | a :: b :: c :: rest, h => by
    have hrest : rest.length % 3 = 0 := by
      simp only [List.length_cons] at h
      omega
    have ih := length_encode hrest
    simp only [encode, List.length_cons]
    omega

/-! ## Three bytes as one number -/

/-- Three bytes, shifted into one number. -/
theorem triple_eq (a b c : UInt8) :
    a.toNat <<< 16 ||| b.toNat <<< 8 ||| c.toNat = a.toNat * 65536 + b.toNat * 256 + c.toNat := by
  have hb : b.toNat < 256 := b.toNat_lt
  have hc : c.toNat < 256 := c.toNat_lt
  have hbs : b.toNat <<< 8 < 2 ^ 16 := by
    rw [Nat.shiftLeft_eq]
    omega
  have hor : a.toNat <<< 16 ||| b.toNat <<< 8 = (a.toNat * 256 + b.toNat) <<< 8 := by
    rw [← Nat.shiftLeft_add_eq_or_of_lt hbs, Nat.shiftLeft_eq, Nat.shiftLeft_eq, Nat.shiftLeft_eq]
    omega
  rw [hor, ← Nat.shiftLeft_add_eq_or_of_lt (i := 8) hc, Nat.shiftLeft_eq]
  omega

/-- The sextet `k` places from the right. -/
theorem sextet_eq (n k : Nat) : (n >>> k) &&& 0x3f = n / 2 ^ k % 64 := by
  rw [Nat.shiftRight_eq_div_pow]
  exact Nat.and_two_pow_sub_one_eq_mod _ 6

end Lib.Base64
