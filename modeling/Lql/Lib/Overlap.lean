import Mathlib.Data.List.Infix

/-!
# Overlaps of a pattern with a text

How much of a pattern stands at the end of the text read so far. The longest overlap
below a bound is the state of a matcher that never goes back in the text; this module
says how it changes with one more element, and where the next shorter overlap is.
-/

namespace Lib

variable {α : Type}

/-- The first `k` elements of `p` are the end of `w`. -/
def Overlaps (p w : List α) (k : Nat) : Prop := k ≤ p.length ∧ p.take k <:+ w

/-- `k` is the longest overlap of at most `b` elements. -/
structure MaxOverlap (p w : List α) (b k : Nat) : Prop where
  overlaps : Overlaps p w k
  le : k ≤ b
  max : ∀ j ≤ b, Overlaps p w j → j ≤ k

theorem overlaps_zero (p w : List α) : Overlaps p w 0 := ⟨Nat.zero_le _, by simp⟩

theorem overlaps_length {p w : List α} : Overlaps p w p.length ↔ p <:+ w := by
  simp [Overlaps]

/-- One more element extends an overlap or breaks it. -/
theorem overlaps_succ {p w : List α} {c : α} {j : Nat} :
    Overlaps p (w ++ [c]) (j + 1) ↔ Overlaps p w j ∧ p[j]? = some c := by
  constructor
  · rintro ⟨hj, hs⟩
    have hlt : j < p.length := hj
    rw [List.take_succ_eq_append_getElem hlt, List.suffix_concat_iff] at hs
    rcases hs with hs | ⟨t, ht, hsuf⟩
    · exact absurd (List.append_eq_nil_iff.mp hs).2 (List.cons_ne_nil _ _)
    · obtain ⟨h1, h2⟩ := List.append_inj' ht rfl
      refine ⟨⟨Nat.le_of_lt hlt, h1 ▸ hsuf⟩, ?_⟩
      rw [List.getElem?_eq_getElem hlt, List.singleton_inj.mp h2]
  · rintro ⟨⟨hj, hs⟩, hc⟩
    obtain ⟨hlt, hget⟩ := List.getElem?_eq_some_iff.mp hc
    refine ⟨hlt, ?_⟩
    rw [List.take_succ_eq_append_getElem hlt, hget, List.suffix_concat_iff]
    exact Or.inr ⟨_, rfl, hs⟩

/-- Below an overlap, the overlaps of the text are those of the overlap itself. -/
theorem overlaps_take {p w : List α} {j k : Nat} (hk : Overlaps p w k) (hjk : j ≤ k) :
    Overlaps p (p.take k) j ↔ Overlaps p w j := by
  constructor
  · rintro ⟨hj, hs⟩
    exact ⟨hj, hs.trans hk.2⟩
  · rintro ⟨hj, hs⟩
    refine ⟨hj, List.suffix_of_suffix_length_le hs hk.2 ?_⟩
    rw [List.length_take, List.length_take]
    omega

/-- The next shorter overlap: the longest one of the overlap with itself. -/
theorem MaxOverlap.shorter {p w : List α} {k f : Nat} (hk : Overlaps p w k) (hpos : 0 < k)
    (hf : MaxOverlap p (p.take k) (k - 1) f) : MaxOverlap p w (k - 1) f := by
  have hle := hf.le
  refine ⟨(overlaps_take hk (by omega)).mp hf.overlaps, hle, fun j hj ho => ?_⟩
  exact hf.max j hj ((overlaps_take hk (by omega)).mpr ho)

/-- One more element, when `q` is the longest overlap that it extends, or no overlap
is. -/
theorem MaxOverlap.snoc [DecidableEq α] {p w : List α} {c : α} {b k q : Nat}
    (h : MaxOverlap p w b k) (hq : Overlaps p w q) (hqk : q ≤ k) (hz : q = 0 ∨ p[q]? = some c)
    (hlast : ∀ j, q < j → j ≤ k → Overlaps p w j → p[j]? ≠ some c) :
    MaxOverlap p (w ++ [c]) (b + 1) (if some c = p[q]? then q + 1 else q) := by
  have hle := h.le
  have hmax : ∀ j, j + 1 ≤ b + 1 → Overlaps p (w ++ [c]) (j + 1) → j ≤ q ∧ p[j]? = some c := by
    intro j hj ho
    obtain ⟨ho, hc⟩ := overlaps_succ.mp ho
    refine ⟨?_, hc⟩
    by_contra hlt
    exact hlast j (by omega) (h.max j (by omega) ho) ho hc
  split
  · next hc =>
    refine ⟨overlaps_succ.mpr ⟨hq, hc.symm⟩, by omega, fun j hj ho => ?_⟩
    cases j with
    | zero => exact Nat.zero_le _
    | succ j => exact Nat.succ_le_succ (hmax j hj ho).1
  · next hc =>
    have hq0 : q = 0 := by
      rcases hz with hz | hz
      · exact hz
      · exact absurd hz.symm hc
    subst hq0
    refine ⟨overlaps_zero _ _, Nat.zero_le _, fun j hj ho => ?_⟩
    cases j with
    | zero => exact Nat.le_refl _
    | succ j =>
      obtain ⟨h0, hj⟩ := hmax j hj ho
      have : j = 0 := by omega
      subst this
      exact absurd hj.symm hc

theorem MaxOverlap.lower {p w : List α} {b b' k : Nat} (h : MaxOverlap p w b k) (hk : k ≤ b')
    (hb : b' ≤ b) : MaxOverlap p w b' k :=
  ⟨h.overlaps, hk, fun j hj ho => h.max j (Nat.le_trans hj hb) ho⟩

theorem MaxOverlap.nil (p : List α) (b : Nat) (hp : b < p.length ∨ b = 0) :
    MaxOverlap p [] b 0 := by
  refine ⟨overlaps_zero _ _, Nat.zero_le _, fun j hj ho => ?_⟩
  have hs := ho.2
  rw [List.suffix_nil, List.take_eq_nil_iff] at hs
  rcases hs with hs | hs
  · omega
  · subst hs
    exact ho.1

/-- A pattern inside a text that has grown by one element. -/
theorem infix_snoc {p w : List α} {c : α} : p <:+: w ++ [c] ↔ p <:+: w ∨ p <:+ w ++ [c] :=
  List.infix_concat_iff.trans or_comm

end Lib
