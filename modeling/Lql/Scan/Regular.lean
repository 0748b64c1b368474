import Lql.Scan.Path
import Lql.Scan.Keys

/-!
# Terms the scanner follows as they read

A term is regular when its path has no `...` at all, or one, which is its last segment or
the last but one. The scanner's bookkeeping for `...` is right for these (its special cases
for several `...`, and for array segments around one, are not): a term is alive at a depth as
`ordinary` when its first segments have matched one by one, and as `recursive` once its `...`
has been reached. This module says what a regular term does at an object key and at an array
index, and shows that its slots stay out of the way.
-/

namespace Lql.Scan

open Lib

/-- The path has no `...`. -/
structure Term.Shallow (t : Term) : Prop where
  path : PathOk t
  noDeep : ∀ k < t.segments.length, t.seg k ≠ segRecursive

/-- Segment `k` may name an array element. -/
def Term.arrayLike (t : Term) (k : Nat) : Bool :=
  t.seg k = segArray || t.seg k = segAny || isNumeric (t.seg k)

/-- The path has one `...`, at `p`: the last segment, or the one before a last segment that
names object keys. No segment before it names an array element, unless it stands right in
front of a last `...`. A segment in front of all others never meets an array. -/
structure Term.Deep (t : Term) (p : Nat) : Prop where
  path : PathOk t
  lt : p < t.segments.length
  here : t.seg p = segRecursive
  only : ∀ k < t.segments.length, t.seg k = segRecursive → k = p
  last : t.segments.length = p + 1 ∨
    (t.segments.length = p + 2 ∧ t.seg (p + 1) ≠ segArray ∧ isNumeric (t.seg (p + 1)) = false)
  before : ∀ q, 1 ≤ q → q < p → t.arrayLike q = true → q + 1 = p ∧ t.segments.length = p + 1

/-- A path the scanner follows as it reads. -/
def Term.Regular (t : Term) : Prop := t.Shallow ∨ ∃ p, t.Deep p

/-! ## The steps of a regular term -/

/-- Where the path's `...` is. -/
def Term.deep (t : Term) : Option Nat := firstRecursive t.pathRecursiveSegments

/-- How many segments are matched one by one. -/
def Term.fixed (t : Term) : Nat := t.deep.getD t.segments.length

/-- The key continues the segments matched one by one. -/
def Term.ordKey (t : Term) (d : Nat) (key : Bytes) : Bool := d < t.fixed && segKey (t.seg d) key

/-- The index continues the segments matched one by one. -/
def Term.ordIndex (t : Term) (d index : Nat) : Bool := d < t.fixed && segIndex (t.seg d) index

/-- The value behind segment `d` is the term's. -/
def Term.ordValue (t : Term) (d : Nat) : Bool :=
  t.segments.length = d + 1 || (t.deep = some (d + 1) && t.segments.length = d + 2)

/-- Below the `...`, the value of this key is the term's. -/
def Term.recKey (t : Term) (key : Bytes) : Bool :=
  match t.deep with
  | none => false
  | some p => t.segments.length = p + 1 || segKey (t.seg (p + 1)) key

/-- Below the `...`, the value at this index is the term's. -/
def Term.recIndex (t : Term) (index : Nat) : Bool :=
  match t.deep with
  | none => false
  | some p => t.segments.length = p + 1 || segIndex (t.seg (p + 1)) index

/-- The `...` has been reached at depth `d`: by now (`recursive`), right here, or at once. -/
def Term.joins (t : Term) (d : Nat) (ordinary recursive : Bool) : Bool :=
  recursive || (ordinary && t.deep = some d) || t.deep = some 0

/-! ## What the caches say -/

theorem firstRecursive_eq {m : Mask} {p : Nat} (h64 : p < 64) (hp : m.has p = true)
    (h : ∀ k < p, m.has k = false) : firstRecursive m = some p := by
  rw [firstRecursive, List.find?_range_eq_some]
  exact ⟨hp, List.mem_range.mpr h64, fun j hj => by simp [h j hj]⟩

theorem firstRecursive_none {m : Mask} (h : ∀ k, m.has k = false) : firstRecursive m = none := by
  rw [firstRecursive, List.find?_eq_none]
  intro k _
  simp [h k]

namespace Term

variable {t : Term} {p : Nat}

theorem Shallow.recursives (h : t.Shallow) (k : Nat) : t.pathRecursiveSegments.has k = false := by
  rw [h.path.recursives]
  by_cases hk : k < t.segments.length
  · simp [hk, h.noDeep k hk]
  · simp [hk]

theorem Shallow.mask (h : t.Shallow) : t.pathRecursiveSegments = 0 := Mask.eq_zero_iff.mpr h.recursives

theorem Shallow.deep (h : t.Shallow) : t.deep = none := firstRecursive_none h.recursives

theorem Shallow.fixed (h : t.Shallow) : t.fixed = t.segments.length := by rw [Term.fixed, h.deep]; rfl

theorem Deep.lt64 (h : t.Deep p) : p < 64 := Nat.lt_of_lt_of_le h.lt h.path.le

theorem Deep.recursives (h : t.Deep p) (k : Nat) : t.pathRecursiveSegments.has k = decide (k = p) := by
  rw [h.path.recursives]
  by_cases hk : k < t.segments.length
  · simp only [hk, decide_true, Bool.true_and]
    exact decide_eq_decide.mpr ⟨h.only k hk, fun e => e ▸ h.here⟩
  · have : k ≠ p := fun e => hk (e ▸ h.lt)
    simp [hk, this]

theorem Deep.mask (h : t.Deep p) : t.pathRecursiveSegments = bit p := by
  refine Mask.ext fun k => ?_
  rw [h.recursives, Mask.has_bit]
  have := h.lt64
  simp [this, eq_comm]

theorem Deep.mask_ne (h : t.Deep p) : t.pathRecursiveSegments ≠ 0 :=
  Mask.ne_zero_iff.mpr ⟨p, by rw [h.recursives]; simp⟩

theorem bit_single : ∀ p < 64, bit p &&& (bit p - 1) = 0 := by decide

theorem Regular.single (h : t.Regular) :
    t.pathRecursiveSegments &&& (t.pathRecursiveSegments - 1) = 0 := by
  rcases h with h | ⟨p, h⟩
  · rw [h.mask]
    decide
  · rw [h.mask]
    exact bit_single p h.lt64

theorem Deep.deep (h : t.Deep p) : t.deep = some p :=
  firstRecursive_eq h.lt64 (by rw [h.recursives]; simp) fun k hk => by
    rw [h.recursives]
    simp [Nat.ne_of_lt hk]

theorem Deep.fixed (h : t.Deep p) : t.fixed = p := by rw [Term.fixed, h.deep]; rfl

theorem Regular.path (h : t.Regular) : PathOk t := by
  rcases h with h | ⟨p, h⟩
  · exact h.path
  · exact h.path

theorem Regular.fixed_le (h : t.Regular) : t.fixed ≤ t.segments.length := by
  rcases h with h | ⟨p, h⟩
  · rw [h.fixed]
  · rw [h.fixed]
    exact Nat.le_of_lt h.lt

theorem Deep.next (h : t.Deep p) : nextRecursivePathSegment t p = p + 1 := by
  have hc := h.path.count
  have hlt := h.lt
  have hstop : ∀ fuel, skipRecursive t.pathRecursiveSegments t.pathSegmentCount fuel (p + 1) = p + 1 := by
    intro fuel
    cases fuel with
    | zero => rfl
    | succ fuel =>
      rw [skipRecursive, if_neg]
      rintro ⟨-, -, h3⟩
      rw [h.recursives] at h3
      simp at h3
  exact hstop _

/-- A segment matched one by one is not a `...`. -/
theorem Regular.seg_ne (h : t.Regular) {d : Nat} (hd : d < t.fixed) : t.seg d ≠ segRecursive := by
  rcases h with h | ⟨p, h⟩
  · rw [h.fixed] at hd
    exact h.noDeep d hd
  · rw [h.fixed] at hd
    intro e
    have := h.only d (Nat.lt_trans hd h.lt) e
    omega

/-- Where the value behind a segment is the term's. -/
theorem Shallow.valueAt (h : t.Shallow) (k : Nat) : termValueAt t k = decide (t.segments.length = k + 1) := by
  rw [termValueAt, if_neg fun hn => hn.1 h.mask, if_neg (Nat.ne_of_gt h.path.count_pos), h.path.count]

theorem Deep.valueAt_last (h : t.Deep p) (hl : t.segments.length = p + 1) (k : Nat) :
    termValueAt t k = decide (p ≤ k + 1) := by
  have hc := h.path.count
  rw [termValueAt, hc, hl]
  have hcond : t.pathRecursiveSegments ≠ 0 ∧ p + 1 ≠ 0 ∧ p + 1 ≤ wordBits ∧
      t.pathRecursiveSegments.has (p + 1 - 1) = true :=
    ⟨h.mask_ne, Nat.succ_ne_zero p, h.lt64, by rw [h.recursives]; simp⟩
  rw [if_pos hcond, Nat.add_sub_cancel, Bool.eq_iff_iff]
  simp only [Bool.or_eq_true, decide_eq_true_eq]
  omega

theorem Deep.valueAt_tail (h : t.Deep p) (hl : t.segments.length = p + 2) (k : Nat) :
    termValueAt t k = decide (k = p + 1) := by
  have hc := h.path.count
  rw [termValueAt, hc, hl]
  have hcond : ¬ (t.pathRecursiveSegments ≠ 0 ∧ p + 2 ≠ 0 ∧ p + 2 ≤ wordBits ∧
      t.pathRecursiveSegments.has (p + 2 - 1) = true) := by
    rintro ⟨-, -, -, h4⟩
    rw [h.recursives] at h4
    simp at h4
  rw [if_neg hcond, if_neg (Nat.succ_ne_zero _), Bool.eq_iff_iff]
  simp only [decide_eq_true_eq]
  omega

theorem Shallow.anchor (h : t.Shallow) (k : Nat) : termTerminalRecursiveAnchor t k = false := by
  simp [termTerminalRecursiveAnchor, show t.pathRecursiveSegments = 0#64 from h.mask]

theorem Deep.anchor (h : t.Deep p) (k : Nat) :
    termTerminalRecursiveAnchor t k = (decide (t.segments.length = p + 1) && decide (k + 1 = p)) := by
  have hc := h.path.count
  have hlt := h.lt
  have hle := h.path.le
  rw [termTerminalRecursiveAnchor, hc]
  have hne : decide (t.pathRecursiveSegments ≠ 0) = true := decide_eq_true h.mask_ne
  rw [hne, h.recursives, Bool.eq_iff_iff]
  simp only [Bool.and_eq_true, decide_eq_true_eq, true_and, ne_eq, show wordBits = 64 from rfl]
  omega

end Term

end Lql.Scan
