import Mathlib.Order.Lattice
import Mathlib.Data.List.Basic

/-!
# Tables of ranges

A table of disjoint ranges in ascending order, each with what it says about the values it covers, and the bisection
that looks a value up in it. Where the table is in order the bisection finds the range that covers the value, if
there is one.
-/

namespace Lib

variable {α β : Type} [LinearOrder α]

/-- The range covers the value. -/
def Covers (v : α) (e : α × α × β) : Prop := e.1 ≤ v ∧ v ≤ e.2.1

instance (v : α) (e : α × α × β) : Decidable (Covers v e) := inferInstanceAs (Decidable (_ ∧ _))

/-- The ranges are not empty and ascend. -/
structure Ascending (table : List (α × α × β)) : Prop where
  inhabited : ∀ e ∈ table, e.1 ≤ e.2.1
  ordered : table.Pairwise fun a b => a.2.1 < b.1

/-- Bisection on the slice `[first, last)` of a table. -/
def bisect (table : List (α × α × β)) (v : α) : Nat → Nat → Nat → Option (α × α × β)
  | 0, _, _ => none
  | fuel + 1, first, last =>
    if first < last then
      match table[first + (last - first) / 2]? with
      | none => none
      | some e =>
        if v < e.1 then bisect table v fuel first (first + (last - first) / 2)
        else if e.2.1 < v then bisect table v fuel (first + (last - first) / 2 + 1) last
        else some e
    else none

/-- What the bisection finds covers the value. -/
theorem bisect_some {table : List (α × α × β)} {v : α} {e : α × α × β} : ∀ {fuel first last : Nat},
    bisect table v fuel first last = some e → e ∈ table ∧ Covers v e
  | 0, _, _, h => nomatch h
  | fuel + 1, first, last, h => by
    rw [bisect] at h
    split at h
    · cases hm : table[first + (last - first) / 2]? with
      | none =>
        rw [hm] at h
        cases h
      | some m =>
        rw [hm] at h
        dsimp only at h
        split at h
        · exact bisect_some h
        split at h
        · exact bisect_some h
        · next hlo hhi =>
          cases h
          exact ⟨List.mem_of_getElem? hm, not_lt.mp hlo, not_lt.mp hhi⟩
    · cases h

/-- The bisection passes no range that covers the value: all outside the slice are on their side of it. -/
theorem bisect_none {table : List (α × α × β)} (ht : Ascending table) {v : α} : ∀ {fuel first last : Nat},
    last - first < fuel → last ≤ table.length → bisect table v fuel first last = none →
      (∀ (i : Nat) (hi : i < table.length), i < first → table[i].2.1 < v) →
      (∀ (i : Nat) (hi : i < table.length), last ≤ i → v < table[i].1) → ∀ e ∈ table, ¬ Covers v e
  | 0, _, _, hfuel, _, _, _, _ => absurd hfuel (Nat.not_lt_zero _)
  | fuel + 1, first, last, hfuel, hlast, h, hbelow, habove => by
    have hord := List.pairwise_iff_getElem.mp ht.ordered
    rw [bisect] at h
    split at h
    · next hlt =>
      have hm : first + (last - first) / 2 < table.length := by omega
      rw [List.getElem?_eq_getElem hm] at h
      dsimp only at h
      split at h
      · next hlo =>
        -- every range from the middle on starts above the value
        refine bisect_none ht (by omega) (by omega) h hbelow fun i hi hle => ?_
        rcases Nat.eq_or_lt_of_le hle with heq | hlt'
        · subst heq
          exact hlo
        · calc v < (table[first + (last - first) / 2]).1 := hlo
            _ ≤ (table[first + (last - first) / 2]).2.1 := ht.inhabited _ (List.getElem_mem hm)
            _ < table[i].1 := hord _ i hm hi hlt'
      split at h
      · next hlo hhi =>
        -- every range up to the middle ends below the value
        refine bisect_none ht (by omega) hlast h (fun i hi hle => ?_) habove
        rcases Nat.eq_or_lt_of_le (Nat.le_of_lt_succ hle) with heq | hlt'
        · subst heq
          exact hhi
        · calc table[i].2.1 < (table[first + (last - first) / 2]).1 := hord i _ hi hm hlt'
            _ ≤ (table[first + (last - first) / 2]).2.1 := ht.inhabited _ (List.getElem_mem hm)
            _ < v := hhi
      · cases h
    · next hge =>
      intro e he hcov
      obtain ⟨i, hi, rfl⟩ := List.getElem_of_mem he
      rcases Nat.lt_or_ge i first with hlt | hle
      · exact absurd hcov.2 (not_le.mpr (hbelow i hi hlt))
      · exact absurd hcov.1 (not_le.mpr (habove i hi (by omega)))

/-- At most one range of an ascending table covers a value. -/
theorem Ascending.unique {table : List (α × α × β)} (ht : Ascending table) {v : α} {e e' : α × α × β}
    (he : e ∈ table) (he' : e' ∈ table) (h : Covers v e) (h' : Covers v e') : e = e' := by
  have hord := List.pairwise_iff_getElem.mp ht.ordered
  obtain ⟨i, hi, rfl⟩ := List.getElem_of_mem he
  obtain ⟨j, hj, rfl⟩ := List.getElem_of_mem he'
  rcases Nat.lt_trichotomy i j with hlt | heq | hgt
  · exact absurd (lt_of_le_of_lt h.2 (lt_of_lt_of_le (hord i j hi hj hlt) h'.1)) (lt_irrefl v)
  · subst heq
    rfl
  · exact absurd (lt_of_le_of_lt h'.2 (lt_of_lt_of_le (hord j i hj hi hgt) h.1)) (lt_irrefl v)

/-- **The bisection of the whole table finds the range that covers the value.** -/
theorem bisect_eq_find {table : List (α × α × β)} (ht : Ascending table) (v : α) :
    bisect table v (table.length + 1) 0 table.length = table.find? (fun e => Covers v e) := by
  cases hb : bisect table v (table.length + 1) 0 table.length with
  | none =>
    refine (List.find?_eq_none.mpr fun e he => ?_).symm
    rw [decide_eq_true_eq]
    exact bisect_none ht (by omega) (Nat.le_refl _) hb (fun _ _ h => absurd h (Nat.not_lt_zero _))
      (fun _ hi h => absurd hi (Nat.not_lt.mpr h)) e he
  | some e =>
    obtain ⟨he, hcov⟩ := bisect_some hb
    cases hf : table.find? (fun e => Covers v e) with
    | none => exact absurd (decide_eq_true hcov) (List.find?_eq_none.mp hf e he)
    | some e' =>
      rw [ht.unique he (List.mem_of_find?_eq_some hf) hcov (of_decide_eq_true (List.find?_some hf :))]

end Lib
