import Lql.Scan.Term

/-!
# Paths

What the segments of a path stand for, and what the plan builder's caches (masks, the
first literal behind a `...`, array indices) say about them. The scanner's questions about a
term are answered here in terms of its segments.
-/

namespace Lql.Scan

open Lib

/-- The segment names this object key. -/
def segKey (seg key : Bytes) : Bool :=
  seg = segObject || seg = segAny ||
    (seg ≠ segArray && seg ≠ segRecursive && pointerSegmentEqual seg key)

/-- The segment names this array index. -/
def segIndex (seg : Bytes) (index : Nat) : Bool :=
  seg = segArray || seg = segAny || (isNumeric seg && parseIndex seg = some index)

/-- Segment `k` of a term. -/
abbrev Term.seg (t : Term) (k : Nat) : Bytes := segAt t.segments k

/-- The caches of a term are those of its path. -/
structure PathOk (t : Term) : Prop where
  count : t.pathSegmentCount = t.segments.length
  pos : 0 < t.segments.length
  le : t.segments.length ≤ 64
  field : t.field = t.seg 0
  arrays : ∀ k, t.pathArraySegments.has k = (decide (k < t.segments.length) && isNumeric (t.seg k))
  objectWildcards : ∀ k,
    t.pathObjectWildcards.has k = (decide (k < t.segments.length) && t.seg k = segObject)
  arrayWildcards : ∀ k,
    t.pathArrayWildcards.has k = (decide (k < t.segments.length) && t.seg k = segArray)
  anyWildcards : ∀ k,
    t.pathAnyWildcards.has k = (decide (k < t.segments.length) && t.seg k = segAny)
  recursives : ∀ k,
    t.pathRecursiveSegments.has k = (decide (k < t.segments.length) && t.seg k = segRecursive)
  found : t.pathRecursiveMatch = recursiveMatch t.segments t.pathRecursiveSegments
  cache : t.pathArrayIndexCache = t.segments.map fun s => if isNumeric s then parseIndex s else none
  fieldPlain : t.fieldPlain = plainSegment (t.seg 0)
  foundPlain : t.pathRecursiveMatchPlain =
    (t.pathRecursiveMatch.map fun f => plainSegment f.2).getD false

theorem splitSegments_ne_nil : ∀ path, splitSegments path ≠ []
  | [] => by simp [splitSegments]
  | c :: rest => by
    rw [splitSegments]
    split
    · simp
    · split <;> simp

theorem compilePath_ok {path : Bytes} {t : Term} (h : compilePath path = some t) : PathOk t := by
  unfold compilePath at h
  split at h
  · cases h
  next c rest =>
  split at h
  · cases h
  dsimp only at h
  split at h
  · cases h
  next hsegs =>
  have hpos : 0 < (splitSegments rest).length := List.length_pos_iff.mpr (splitSegments_ne_nil rest)
  generalize splitSegments rest = segments at h hsegs hpos
  simp only [Bool.or_eq_true, decide_eq_true_eq, not_or, Nat.not_lt] at hsegs
  cases h
  exact ⟨rfl, hpos, hsegs.2, rfl, maskOf_has_le hsegs.2 _, maskOf_has_le hsegs.2 _,
    maskOf_has_le hsegs.2 _, maskOf_has_le hsegs.2 _, maskOf_has_le hsegs.2 _, rfl, rfl, rfl, rfl⟩

section PathOk

variable {t : Term}

theorem PathOk.count_le (h : PathOk t) : t.pathSegmentCount ≤ 64 := h.count ▸ h.le

theorem PathOk.count_pos (h : PathOk t) : 0 < t.pathSegmentCount := h.count ▸ h.pos

theorem getElem?_segments {segments : List Bytes} {k : Nat} (h : k < segments.length) :
    segments[k]? = some (segAt segments k) := by
  rw [segAt, List.getD_eq_getElem?_getD, List.getElem?_eq_getElem h]
  rfl

theorem PathOk.found_eq (h : PathOk t) {k : Nat} {text : Bytes}
    (hf : t.pathRecursiveMatch = some (k, text)) : k < t.segments.length ∧ text = t.seg k := by
  rw [h.found, recursiveMatch] at hf
  split at hf
  · cases hf
  dsimp only at hf
  split at hf
  · next hlt =>
    cases hf
    exact ⟨hlt, rfl⟩
  · cases hf

/-- The segment that the scanner reads is the one of the path. -/
theorem PathOk.segment (h : PathOk t) (k : Nat) :
    termPathSegment t k = if k < t.segments.length then some (t.seg k) else none := by
  have hplain : termPathSegment.plain t k =
      if k < t.segments.length then some (t.seg k) else none := by
    unfold termPathSegment.plain
    rw [h.count]
    by_cases hk : k < t.segments.length
    · rw [if_neg (Nat.not_le.mpr hk), if_pos hk]
      split
      · next h0 => rw [h0, h.field]
      · exact getElem?_segments hk
    · rw [if_pos (Nat.le_of_not_lt hk), if_neg hk]
  unfold termPathSegment
  rw [if_neg (Nat.ne_of_gt h.count_pos)]
  split
  · next j text hf =>
    obtain ⟨hj, rfl⟩ := h.found_eq hf
    split
    · next hkj => rw [hkj, if_pos hj]
    · exact hplain
  · exact hplain

/-- Without a tilde a segment names itself. -/
theorem pointerSegmentEqual_plain {target : Bytes} (h : plainSegment target = true) :
    ∀ (key : Bytes) (pos : Nat), pos ≤ target.length →
      pointerSegmentEqualFrom target pos key = decide (target.drop pos = key)
  | [], pos, hle => by
    rw [pointerSegmentEqualFrom]
    refine decide_eq_decide.mpr ⟨fun hp => ?_, fun hd => ?_⟩
    · rw [hp, List.drop_length]
    · rw [List.drop_eq_nil_iff] at hd
      omega
  | k :: key, pos, hle => by
    rw [pointerSegmentEqualFrom]
    rcases Nat.lt_or_eq_of_le hle with hlt | heq
    · have hd : target.drop pos = target[pos] :: target.drop (pos + 1) :=
        List.drop_eq_getElem_cons hlt
      have hne : target[pos] ≠ chTilde := by
        have := (List.all_eq_true.mp h) target[pos] (List.getElem_mem hlt)
        simpa using this
      have hbyte : pointerTargetByte target pos = some (target[pos], 1) := by
        rw [pointerTargetByte, hd]
        cases target.drop (pos + 1) with
        | nil => rfl
        | cons d rest =>
          dsimp only
          rw [if_neg fun h => hne h.1, if_neg fun h => hne h.1]
      rw [hbyte, hd]
      dsimp only
      rw [pointerSegmentEqual_plain h key (pos + 1) hlt, Bool.eq_iff_iff]
      simp only [Bool.and_eq_true, decide_eq_true_eq, List.cons.injEq]
    · have hbyte : pointerTargetByte target pos = none := by
        rw [pointerTargetByte, heq, List.drop_length]
      rw [hbyte, heq, List.drop_length]
      simp

theorem plainSegmentEqual_eq (target key : Bytes) :
    plainSegmentEqual target (plainSegment target) key = pointerSegmentEqual target key := by
  unfold plainSegmentEqual
  split
  · next h =>
    have := pointerSegmentEqual_plain h key 0 (Nat.zero_le _)
    rw [List.drop_zero] at this
    exact this.symm
  · rfl

/-- The object keys a segment of the term names; a `...` names any. -/
theorem PathOk.matchesKey (h : PathOk t) (k : Nat) (key : Bytes) :
    termSegmentMatchesObjectKey t k key =
      (decide (k < t.segments.length) && (decide (t.seg k = segRecursive) || segKey (t.seg k) key)) := by
  have hle := h.le
  unfold termSegmentMatchesObjectKey
  by_cases h64 : k ≥ wordBits
  · rw [if_pos h64, decide_eq_false (Nat.not_lt.mpr (Nat.le_trans hle h64))]
    rfl
  rw [if_neg h64]
  simp only [Mask.has_or, h.objectWildcards, h.anyWildcards, h.recursives, h.arrayWildcards, h.segment]
  by_cases hk : k < t.segments.length
  · simp only [hk, decide_true, Bool.true_and, if_true]
    by_cases h1 : t.seg k = segObject ∨ t.seg k = segAny ∨ t.seg k = segRecursive
    · rw [if_pos (by simp; tauto)]
      rcases h1 with h1 | h1 | h1 <;> simp [h1, segKey]
    rw [not_or, not_or] at h1
    rw [if_neg (by simp; tauto)]
    by_cases h2 : t.seg k = segArray
    · rw [if_pos (by simpa using h2)]
      simp [h2, segKey]
    rw [if_neg (by simpa using h2)]
    have hkey : (decide (t.seg k = segRecursive) || segKey (t.seg k) key) =
        pointerSegmentEqual (t.seg k) key := by
      simp [segKey, h1.1, h1.2.1, h1.2.2, h2]
    rw [hkey]
    split
    · next h0 =>
      rw [h.field, h.fieldPlain, h0]
      exact plainSegmentEqual_eq _ _
    · split
      · next hf =>
        -- the literal behind the `...`, with its own plain flag
        obtain ⟨hfound, hplain⟩ := hf
        rw [h.foundPlain] at hplain
        cases hm : t.pathRecursiveMatch with
        | none => rw [hm] at hfound; cases hfound
        | some f =>
          obtain ⟨j, text⟩ := f
          obtain ⟨-, rfl⟩ := h.found_eq hm
          rw [hm] at hfound hplain
          obtain rfl : j = k := by simpa using hfound
          have hp : plainSegment (t.seg j) = true := hplain
          have := plainSegmentEqual_eq (t.seg j) key
          rw [plainSegmentEqual, if_pos hp] at this
          exact this
      · rfl
  · have h0 : k ≠ 0 := by
      have := h.pos
      omega
    simp [hk, h0]

/-- The array index a numeric segment of the term names. -/
theorem PathOk.arrayIndex (h : PathOk t) {k : Nat} (hk : k < t.segments.length)
    (hn : isNumeric (t.seg k) = true) : termArrayIndex t k = parseIndex (t.seg k) := by
  have hcache : t.pathArrayIndexCache[k]? = some (parseIndex (t.seg k)) := by
    rw [h.cache, List.getElem?_map, getElem?_segments hk]
    simp [hn]
  have hne : t.seg k ≠ [] := by
    intro h0
    rw [h0] at hn
    cases hn
  unfold termArrayIndex
  rw [hcache]
  cases hp : parseIndex (t.seg k) with
  | some v => rfl
  | none =>
    dsimp only
    rw [h.segment, if_pos hk]
    dsimp only
    rw [if_neg hne, hp]

/-- The text a term compares a key with. -/
theorem PathOk.target (h : PathOk t) (k : Nat) :
    (if k = 0 then some t.field else termPathSegment t k) =
      if k < t.segments.length then some (t.seg k) else none := by
  have hpos := h.pos
  split
  · next h0 => rw [h0, if_pos hpos, h.field]
  · exact h.segment k

end PathOk

end Lql.Scan
