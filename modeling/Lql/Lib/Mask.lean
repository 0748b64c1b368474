import Mathlib.Data.BitVec

/-!
# Word masks

A set of at most 64 small numbers kept in one machine word. A loop that sets one
bit per index for which a test holds is `maskOf`; everything else is the word
operations of `BitVec`, read one bit at a time.
-/

namespace Lib

/-- A 64-bit word used as a set of indices. -/
abbrev Mask := BitVec 64

/-- The word with exactly bit `i` set: `1ul << i`. -/
def bit (i : Nat) : Mask := BitVec.twoPow 64 i

/-- Bit `i` of a word: `(m & (1ul << i)) != 0`. -/
def Mask.has (m : Mask) (i : Nat) : Bool := m.getLsbD i

/-- `for (i = 0; i < n; ++i) if (p (i)) m |= 1ul << i`, started from zero. -/
def maskOf : Nat → (Nat → Bool) → Mask
  | 0, _ => 0
  | n + 1, p => if p n then maskOf n p ||| bit n else maskOf n p

@[simp] theorem Mask.has_zero (i : Nat) : Mask.has 0 i = false := by
  simp [Mask.has]

@[simp] theorem Mask.has_zero' (i : Nat) : Mask.has 0#64 i = false := by
  simp [Mask.has]

@[simp] theorem Mask.has_or (a b : Mask) (i : Nat) :
    Mask.has (a ||| b) i = (a.has i || b.has i) := by
  simp [Mask.has]

@[simp] theorem Mask.has_and (a b : Mask) (i : Nat) :
    Mask.has (a &&& b) i = (a.has i && b.has i) := by
  simp [Mask.has]

theorem Mask.has_not (a : Mask) (i : Nat) :
    Mask.has (~~~a) i = (decide (i < 64) && !a.has i) := by
  simp [Mask.has]

theorem Mask.has_of_ge (a : Mask) {i : Nat} (h : 64 ≤ i) : a.has i = false :=
  BitVec.getLsbD_of_ge a i h

theorem Mask.lt_of_has {a : Mask} {i : Nat} (h : a.has i = true) : i < 64 := by
  rcases Nat.lt_or_ge i 64 with hi | hi
  · exact hi
  · rw [a.has_of_ge hi] at h
    exact absurd h (by simp)

@[simp] theorem Mask.has_and_not (a b : Mask) (i : Nat) :
    Mask.has (a &&& ~~~b) i = (a.has i && !b.has i) := by
  rw [Mask.has_and, Mask.has_not]
  rcases Nat.lt_or_ge i 64 with hi | hi
  · simp [hi]
  · simp [a.has_of_ge hi]

theorem Mask.has_bit (i j : Nat) : (bit i).has j = (decide (i < 64) && decide (i = j)) := by
  simp [Mask.has, bit]

theorem Mask.ext {a b : Mask} (h : ∀ i, a.has i = b.has i) : a = b :=
  BitVec.eq_of_getLsbD_eq fun i _ => h i

theorem Mask.or_zero (a : Mask) : a ||| 0 = a := BitVec.or_zero

theorem Mask.eq_zero_iff {a : Mask} : a = 0 ↔ ∀ i, a.has i = false := by
  constructor
  · rintro rfl i
    simp
  · intro h
    exact Mask.ext fun i => by simp [h i]

theorem Mask.ne_zero_iff {a : Mask} : a ≠ 0 ↔ ∃ i, a.has i = true := by
  rw [Ne, Mask.eq_zero_iff, not_forall]
  simp

theorem maskOf_has (n : Nat) (p : Nat → Bool) (i : Nat) :
    (maskOf n p).has i = (decide (i < n) && decide (i < 64) && p i) := by
  induction n with
  | zero => simp [maskOf]
  | succ n ih =>
    rw [maskOf]
    rcases Nat.lt_trichotomy i n with hi | hi | hi
    · have hne : n ≠ i := by omega
      split
      · simp [ih, Mask.has_bit, hi, hne, Nat.lt_succ_of_lt hi]
      · simp [ih, hi, Nat.lt_succ_of_lt hi]
    · subst hi
      split
      · next hp => simp [ih, Mask.has_bit, hp]
      · next hp => simp [ih, hp]
    · have hne : n ≠ i := by omega
      have h1 : ¬ i < n + 1 := by omega
      have h2 : ¬ i < n := by omega
      split
      · simp [ih, Mask.has_bit, h1, h2, hne]
      · simp [ih, h1, h2]

/-- With at most 64 indices nothing is shifted out of the word. -/
theorem maskOf_has_le {n : Nat} (hn : n ≤ 64) (p : Nat → Bool) (i : Nat) :
    (maskOf n p).has i = (decide (i < n) && p i) := by
  rw [maskOf_has]
  rcases Nat.lt_or_ge i n with hi | hi
  · simp [hi, Nat.lt_of_lt_of_le hi hn]
  · simp [Nat.not_lt.mpr hi]

end Lib
