import Lql.Lib.Overlap
import Lql.Scan.Match

/-!
# Needles

What the incremental comparisons of one term add up to over a whole text: the prefix
table and the matcher of `contains` find the needle wherever it is, and the byte-wise
comparison of `eq` and `prefix` decides equality and prefix. Each is stated for the
bytes handed to one term (`feedBytes`), however many calls they came in.
-/

namespace Lql.Scan

open Lib

/-! ## Feeding -/

theorem feedBytes_append (step : Nat → UInt8 → ByteStep) : ∀ (a b : Bytes) (s : ByteStep),
    feedBytes step (a ++ b) s = feedBytes step b (feedBytes step a s)
  | [], _, _ => rfl
  | c :: a, b, s => by
    rw [List.cons_append, feedBytes, feedBytes]
    exact feedBytes_append step a b _

/-- What has been found or has failed before does not change how the bytes are read. -/
theorem feedBytes_from (step : Nat → UInt8 → ByteStep) : ∀ (data : Bytes) (s : ByteStep),
    feedBytes step data s =
      { pos := (feedBytes step data { pos := s.pos }).pos
        failed := s.failed || (feedBytes step data { pos := s.pos }).failed
        contains := s.contains || (feedBytes step data { pos := s.pos }).contains }
  | [], s => by simp [feedBytes]
  | c :: data, s => by
    have h1 := feedBytes_from step data
      { pos := (step s.pos c).pos, failed := s.failed || (step s.pos c).failed
        contains := s.contains || (step s.pos c).contains }
    have h2 := feedBytes_from step data
      { pos := (step s.pos c).pos, failed := (step s.pos c).failed
        contains := (step s.pos c).contains }
    simp only [feedBytes, Bool.false_or]
    rw [h1, h2]
    simp [Bool.or_assoc]

theorem feedBytes_failed (step : Nat → UInt8 → ByteStep) (data : Bytes) {s : ByteStep}
    (h : s.failed = true) : (feedBytes step data s).failed = true := by
  rw [feedBytes_from]
  simp [h]

/-! ## The prefix table -/

/-- The table holds the longest proper overlap of every beginning of the needle up to
`n`. -/
def TableOk (p : Bytes) (table : List Nat) (n : Nat) : Prop :=
  ∀ k, 0 < k → k ≤ n → MaxOverlap p (p.take k) (k - 1) (table.getD (k - 1) 0)

theorem kmpRetreat_spec {p w : Bytes} {table : List Nat} {c : UInt8} :
    ∀ (fuel k : Nat), Overlaps p w k → TableOk p table k → k ≤ fuel →
      let q := kmpRetreat p table c fuel k
      Overlaps p w q ∧ q ≤ k ∧ (q = 0 ∨ p[q]? = some c) ∧
        ∀ j, q < j → j ≤ k → Overlaps p w j → p[j]? ≠ some c
  | 0, k, ho, _, hk => by
    have hk0 : k = 0 := Nat.le_zero.mp hk
    subst hk0
    exact ⟨ho, Nat.le_refl _, Or.inl rfl, fun j h1 h2 => absurd h1 (by omega)⟩
  | fuel + 1, k, ho, ht, hk => by
    dsimp only
    rw [kmpRetreat]
    split
    · next h =>
      obtain ⟨hne, hc⟩ := h
      have hpos : 0 < k := Nat.pos_of_ne_zero hne
      have hf := MaxOverlap.shorter ho hpos (ht k hpos (Nat.le_refl _))
      have hle := hf.le
      obtain ⟨h1, h2, h3, h4⟩ := kmpRetreat_spec fuel (table.getD (k - 1) 0) hf.overlaps
        (fun j hj hjk => ht j hj (by omega)) (by omega)
      refine ⟨h1, by omega, h3, fun j hj hjk hjo => ?_⟩
      rcases Nat.lt_or_ge (table.getD (k - 1) 0) j with hlt | hge
      · -- between the next overlap and this one there is none
        rcases Nat.lt_or_ge j k with hjk' | hjk'
        · have := hf.max j (by omega) hjo
          omega
        · have : j = k := by omega
          subst this
          exact fun e => hc e.symm
      · exact h4 j hj hge hjo
    · next h =>
      refine ⟨ho, Nat.le_refl _, ?_, fun j h1 h2 => absurd h1 (by omega)⟩
      rcases Nat.eq_zero_or_pos k with h0 | h0
      · exact Or.inl h0
      · refine Or.inr ?_
        by_contra hne
        exact h ⟨by omega, fun e => hne e.symm⟩

/-- One character keeps the longest overlap. -/
theorem kmpAdvance_spec {p w : Bytes} {table : List Nat} {c : UInt8} {b k : Nat}
    (h : MaxOverlap p w b k) (ht : TableOk p table k) :
    MaxOverlap p (w ++ [c]) (b + 1) (kmpAdvance p table c k) := by
  obtain ⟨h1, h2, h3, h4⟩ := kmpRetreat_spec (c := c) k k h.overlaps ht (Nat.le_refl _)
  exact h.snoc h1 h2 h3 h4

theorem containsFailureLoop_spec {p : Bytes} : ∀ (rest done : Bytes) (table : List Nat) (k : Nat),
    p = done ++ rest → table.length = done.length → 0 < done.length →
    TableOk p table done.length → MaxOverlap p done (done.length - 1) k →
    TableOk p (containsFailureLoop p rest table k) p.length
  | [], done, table, k, hp, _, _, ht, _ => by
    rw [List.append_nil] at hp
    subst hp
    exact ht
  | c :: rest, done, table, k, hp, hlen, hpos, ht, hk => by
    have hkle := hk.le
    have hnext := kmpAdvance_spec (c := c) hk fun j hj hjk => ht j hj (by omega)
    rw [Nat.sub_add_cancel hpos] at hnext
    have htake : p.take (done.length + 1) = done ++ [c] := by
      rw [hp]
      simp [List.take_append]
    refine containsFailureLoop_spec rest (done ++ [c]) _ _ (by simp [hp]) (by simp [hlen])
      (by simp) ?_ (by simpa using hnext)
    intro j hj hjle
    rw [List.length_append, List.length_singleton] at hjle
    rcases Nat.lt_or_ge done.length j with hlt | hge
    · have hj : j = done.length + 1 := by omega
      subst hj
      rw [htake, Nat.add_sub_cancel, List.getD_eq_getElem?_getD,
        List.getElem?_append_right (by omega), hlen]
      simpa using hnext
    · rw [List.getD_eq_getElem?_getD, List.getElem?_append_left (by omega),
        ← List.getD_eq_getElem?_getD]
      exact ht j hj hge

/-- **The table of `lql_flat_eq_contains_failure` is right.** -/
theorem containsFailure_spec {p : Bytes} (hp : p ≠ []) :
    ∃ table, containsFailure p = some table ∧ TableOk p table p.length := by
  cases p with
  | nil => exact absurd rfl hp
  | cons c rest =>
    refine ⟨_, rfl, containsFailureLoop_spec rest [c] [0] 0 rfl rfl (by simp) ?_ ?_⟩
    · intro k hk hk1
      have hk1 : k = 1 := by
        simp only [List.length_singleton] at hk1
        omega
      subst hk1
      refine ⟨overlaps_zero _ _, Nat.le_refl _, fun j hj _ => hj⟩
    · exact ⟨overlaps_zero _ _, Nat.le_refl _, fun j hj _ => hj⟩

/-! ## Looking for a needle -/

/-- A term whose prefix table was filled for its value. -/
def TermTable (t : Term) : Prop := t.containsFailure = containsFailure t.value

/-- The state of a needle search behind `w`. -/
structure NeedleAt (p w : Bytes) (s : ByteStep) : Prop where
  failed : s.failed = false
  overlap : MaxOverlap p w (p.length - 1) s.pos
  found : s.contains = true ↔ p <:+: w

theorem needleStep_spec {t : Term} (ht : TermTable t) (hne : t.value ≠ []) {w : Bytes} {s : ByteStep}
    (h : NeedleAt t.value w s) (c : UInt8) :
    NeedleAt t.value (w ++ [c])
      { pos := (needleStep t s.pos c).pos
        failed := s.failed || (needleStep t s.pos c).failed
        contains := s.contains || (needleStep t s.pos c).contains } := by
  obtain ⟨table, htable, hok⟩ := containsFailure_spec hne
  have hlen : 0 < t.value.length := List.length_pos_iff.mpr hne
  have hle := h.overlap.le
  have hnext := kmpAdvance_spec (c := c) h.overlap fun j hj hjk => hok j hj (by omega)
  rw [Nat.sub_add_cancel hlen] at hnext
  have hstep : needleStep t s.pos c =
      if kmpAdvance t.value table c s.pos = t.value.length then
        { pos := table.getD (kmpAdvance t.value table c s.pos - 1) 0, contains := true }
      else { pos := kmpAdvance t.value table c s.pos } := by
    rw [needleStep, if_neg hne, ht, htable]
  rw [hstep]
  split
  · next hfull =>
    rw [hfull] at hnext ⊢
    have hsuf : t.value <:+ w ++ [c] := overlaps_length.mp hnext.overlaps
    refine ⟨by simp [h.failed], ?_, by simp [infix_snoc, hsuf]⟩
    exact MaxOverlap.shorter hnext.overlaps hlen (hok _ hlen (Nat.le_refl _))
  · next hfull =>
    have hlt : kmpAdvance t.value table c s.pos < t.value.length :=
      Nat.lt_of_le_of_ne hnext.overlaps.1 hfull
    refine ⟨by simp [h.failed], hnext.lower (by omega) (by omega), ?_⟩
    have hnot : ¬ t.value <:+ w ++ [c] := fun hs => by
      have := hnext.max t.value.length (Nat.le_refl _) (overlaps_length.mpr hs)
      omega
    simp [infix_snoc, hnot, h.found]

theorem feedBytes_needle {t : Term} (ht : TermTable t) (hne : t.value ≠ []) :
    ∀ (data w : Bytes) (s : ByteStep), NeedleAt t.value w s →
      NeedleAt t.value (w ++ data) (feedBytes (needleStep t) data s)
  | [], w, s, h => by simpa [feedBytes] using h
  | c :: data, w, s, h => by
    have := feedBytes_needle ht hne data (w ++ [c]) _ (needleStep_spec ht hne h c)
    simpa [feedBytes] using this

/-- With an empty needle the position never moves. -/
theorem feedBytes_empty {t : Term} (h : t.value = []) : ∀ (data : Bytes) (s : ByteStep),
    (feedBytes (needleStep t) data s).pos = s.pos ∧
      (feedBytes (needleStep t) data s).failed = s.failed
  | [], s => ⟨rfl, rfl⟩
  | c :: data, s => by
    obtain ⟨h1, h2⟩ := feedBytes_empty h data
      { pos := (needleStep t s.pos c).pos, failed := s.failed || (needleStep t s.pos c).failed
        contains := s.contains || (needleStep t s.pos c).contains }
    rw [feedBytes]
    refine ⟨h1.trans ?_, h2.trans ?_⟩
    · simp [needleStep, h]
    · simp [needleStep, h]

/-- **A needle is found exactly when the text contains it**; the test is the one of
`lql_json_match_complete`. -/
theorem needle_found {t : Term} (ht : TermTable t) (text : Bytes) :
    let r := feedBytes (needleStep t) text { pos := 0 }
    (!r.failed && (r.contains || r.pos = t.value.length)) = decide (t.value <:+: text) := by
  dsimp only
  by_cases hne : t.value = []
  · obtain ⟨h1, h2⟩ := feedBytes_empty hne text { pos := 0 }
    rw [h1, h2]
    simp [hne]
  · have hlen : 0 < t.value.length := List.length_pos_iff.mpr hne
    have h0 : NeedleAt t.value [] { pos := 0 } :=
      ⟨rfl, .nil _ _ (Or.inl (by omega)), by simp [hne]⟩
    have h := feedBytes_needle ht hne text [] _ h0
    rw [List.nil_append] at h
    have hle := h.overlap.le
    have hpos : ¬ (feedBytes (needleStep t) text { pos := 0 }).pos = t.value.length := by omega
    rw [h.failed, decide_eq_false hpos, Bool.or_false, Bool.not_false, Bool.true_and,
      Bool.eq_iff_iff, h.found, decide_eq_true_iff]

/-! ## Comparing from the front -/

/-- The step of an equality. -/
def eqStep (target : Bytes) (pos : Nat) (c : UInt8) : ByteStep :=
  if target[pos]? = some c then { pos := pos + 1 } else { pos, failed := true }

/-- The step of a prefix. -/
def pfxStep (target : Bytes) (pos : Nat) (c : UInt8) : ByteStep :=
  if pos = target.length then { pos } else eqStep target pos c

theorem prefix_snoc_iff {target w : Bytes} {c : UInt8} :
    w ++ [c] <+: target ↔ w <+: target ∧ target[w.length]? = some c := by
  constructor
  · intro h
    refine ⟨(List.prefix_append w [c]).trans h, ?_⟩
    obtain ⟨t, rfl⟩ := h
    simp
  · rintro ⟨⟨t, rfl⟩, hc⟩
    rw [List.getElem?_append_right (Nat.le_refl _), Nat.sub_self] at hc
    cases t with
    | nil => simp at hc
    | cons d t =>
      simp only [List.getElem?_cons_zero, Option.some.injEq] at hc
      subst hc
      exact ⟨t, by simp⟩

theorem feedBytes_eq (target : Bytes) : ∀ (data w : Bytes) (s : ByteStep),
    s.failed = !decide (w <+: target) → (s.failed = false → s.pos = w.length) →
    (feedBytes (eqStep target) data s).failed = !decide (w ++ data <+: target) ∧
      ((feedBytes (eqStep target) data s).failed = false →
        (feedBytes (eqStep target) data s).pos = (w ++ data).length)
  | [], w, s, h1, h2 => by simpa [feedBytes] using ⟨h1, h2⟩
  | c :: data, w, s, h1, h2 => by
    rw [feedBytes, List.append_cons]
    refine feedBytes_eq target data (w ++ [c]) _ ?_ ?_
    · dsimp only [eqStep]
      cases hf : s.failed with
      | true =>
        rw [hf] at h1
        have : ¬ w <+: target := by simpa using h1.symm
        simp [prefix_snoc_iff, this]
      | false =>
        rw [hf] at h1
        have hw : w <+: target := by simpa using h1.symm
        rw [h2 hf]
        split
        · next hc => simp [prefix_snoc_iff, hw, hc]
        · next hc => simp [prefix_snoc_iff, hw, hc]
    · dsimp only [eqStep]
      intro hf
      have hs : s.failed = false := by
        cases hsf : s.failed with
        | false => rfl
        | true => simp [hsf] at hf
      rw [h2 hs] at hf ⊢
      split
      · simp
      · next hc => simp [hs, hc] at hf

/-- **An equality holds exactly when the texts are equal.** -/
theorem eq_found (target text : Bytes) :
    let r := feedBytes (eqStep target) text { pos := 0 }
    (!r.failed && decide (r.pos = target.length)) = decide (text = target) := by
  dsimp only
  obtain ⟨h1, h2⟩ := feedBytes_eq target text [] { pos := 0 } (by simp) (by simp)
  rw [List.nil_append] at h1 h2
  by_cases hp : text <+: target
  · have hf : (feedBytes (eqStep target) text { pos := 0 }).failed = false := by simp [h1, hp]
    rw [hf, h2 hf, Bool.not_false, Bool.true_and]
    congr 1
    refine propext ⟨fun h => hp.eq_of_length h, fun h => by rw [h]⟩
  · have hne : text ≠ target := fun e => hp (e ▸ List.prefix_refl _)
    simp [h1, hp, hne]

theorem holds_of_not_failed {p : Prop} [Decidable p] (h : false = !decide p) : p := by
  by_contra hn
  rw [decide_eq_false hn] at h
  cases h

theorem feedBytes_pfx (target : Bytes) : ∀ (data w : Bytes) (s : ByteStep),
    s.failed = !decide (w <+: target ∨ target <+: w) →
    (s.failed = false → s.pos = min w.length target.length) →
    (feedBytes (pfxStep target) data s).failed =
        !decide (w ++ data <+: target ∨ target <+: w ++ data) ∧
      ((feedBytes (pfxStep target) data s).failed = false →
        (feedBytes (pfxStep target) data s).pos = min (w ++ data).length target.length)
  | [], w, s, h1, h2 => by rw [feedBytes, List.append_nil]; exact ⟨h1, h2⟩
  | c :: data, w, s, h1, h2 => by
    rw [feedBytes, List.append_cons]
    have key : ∀ {w : Bytes}, (w <+: target ∨ target <+: w) →
        (if min w.length target.length = target.length then target <+: w
        else w <+: target ∧ w.length < target.length) := by
      intro w h
      rcases h with h | h
      · have := h.length_le
        split
        · have : w = target := h.eq_of_length (by omega)
          rw [this]
        · exact ⟨h, by omega⟩
      · have := h.length_le
        rw [if_pos (by omega)]
        exact h
    refine feedBytes_pfx target data (w ++ [c]) _ ?_ ?_
    · dsimp only [pfxStep, eqStep]
      cases hf : s.failed with
      | true =>
        rw [hf] at h1
        have hn : ¬ (w <+: target ∨ target <+: w) := by simpa using h1.symm
        have hn1 : ¬ w ++ [c] <+: target := fun h => hn (Or.inl ((List.prefix_append _ _).trans h))
        have hn2 : ¬ target <+: w ++ [c] := fun h => by
          rcases List.prefix_concat_iff.mp h with h | h
          · exact hn (Or.inl (h ▸ List.prefix_append _ _))
          · exact hn (Or.inr h)
        simp [hn1, hn2]
      | false =>
        rw [hf] at h1
        have hk := key (holds_of_not_failed h1)
        rw [h2 hf]
        split
        · next hfull =>
          rw [if_pos hfull] at hk
          simp [hk.trans (List.prefix_append w [c])]
        · next hfull =>
          rw [if_neg hfull] at hk
          rw [Nat.min_eq_left (by omega)]
          have hn2 : ¬ target <+: w := fun h => by have := h.length_le; omega
          split
          · next hc => simp [prefix_snoc_iff, hk.1, hc]
          · next hc =>
            have hn3 : ¬ target <+: w ++ [c] := fun h => by
              rcases List.prefix_concat_iff.mp h with h | h
              · subst h
                simp at hc
              · exact hn2 h
            simp [prefix_snoc_iff, hc, hn3]
    · dsimp only [pfxStep, eqStep]
      intro hf
      have hs : s.failed = false := by
        cases hsf : s.failed with
        | false => rfl
        | true => simp [hsf] at hf
      rw [hs] at h1
      have hk := key (holds_of_not_failed h1)
      rw [h2 hs] at hf ⊢
      split
      · next hfull =>
        rw [List.length_append, List.length_singleton]
        dsimp only
        omega
      · next hfull =>
        rw [if_neg hfull] at hf hk
        split
        · rw [List.length_append, List.length_singleton]
          dsimp only
          omega
        · next hc => simp [hs, hc] at hf

/-- **A prefix holds exactly when the text starts with it.** -/
theorem pfx_found (target text : Bytes) :
    let r := feedBytes (pfxStep target) text { pos := 0 }
    (!r.failed && decide (r.pos ≥ target.length)) = decide (target <+: text) := by
  dsimp only
  obtain ⟨h1, h2⟩ := feedBytes_pfx target text [] { pos := 0 } (by simp) (by simp)
  rw [List.nil_append] at h1 h2
  by_cases hp : text <+: target ∨ target <+: text
  · have hf : (feedBytes (pfxStep target) text { pos := 0 }).failed = false := by simp [h1, hp]
    rw [hf, h2 hf, Bool.not_false, Bool.true_and]
    congr 1
    refine propext ⟨fun h => ?_, fun h => ?_⟩
    · rcases hp with hp | hp
      · have := hp.length_le
        rw [hp.eq_of_length (by omega)]
      · exact hp
    · have := h.length_le
      omega
  · have hne : ¬ target <+: text := fun h => hp (Or.inr h)
    rw [h1, decide_eq_false hp, decide_eq_false hne]
    rfl

end Lql.Scan
