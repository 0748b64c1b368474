import Lql.Scan.Cursor

/-!
# A run of plain bytes

`lql_json_match_span` treats a run in bulk, and does to every term and every capture what
its bytes would do one by one. A key is the one exception: when a segment with a JSON
Pointer escape is compared beside other terms or captures, the byte loop of the escaped one
moves the others too, so that case is left out (`Cuttable`).
-/

namespace Lql.Scan

open Lib Json

variable {ctx : Ctx}

/-! ## Runs against one term -/

theorem pointerTargetByte_plain {target : Bytes} (h : pointerSegmentHasEscape target = false) :
    ∀ pos, pointerTargetByte target pos = (target[pos]?).map fun c => (c, 1) := by
  induction target with
  | nil => intro pos; simp [pointerTargetByte]
  | cons c target ih =>
    intro pos
    cases target with
    | nil =>
      cases pos with
      | zero => simp [pointerTargetByte]
      | succ pos => simp [pointerTargetByte]
    | cons d target =>
      simp only [pointerSegmentHasEscape, Bool.or_eq_false_iff, Bool.and_eq_false_iff,
        decide_eq_false_iff_not] at h
      cases pos with
      | succ pos =>
        have := ih h.2 pos
        simpa [pointerTargetByte] using this
      | zero =>
        have h1 : ¬ (c = chTilde ∧ d = chZero) := by
          rintro ⟨rfl, rfl⟩
          rcases h.1 with h | h
          · exact h rfl
          · exact h.1 rfl
        have h2 : ¬ (c = chTilde ∧ d = chOne) := by
          rintro ⟨rfl, rfl⟩
          rcases h.1 with h | h
          · exact h rfl
          · exact h.2 rfl
        simp [pointerTargetByte, h1, h2]

/-- A run of bytes against the rest of an equality. -/
theorem feed_eqStep (target : Bytes) : ∀ (data : Bytes) (s : ByteStep), s.failed = false →
    Agree
      (if data = (target.drop s.pos).take data.length then { s with pos := s.pos + data.length }
      else { s with failed := true })
      (feedBytes (eqStep target) data s)
  | [], s, h => by
    simpa [feedBytes] using Agree.refl s
  | c :: data, s, h => by
    rw [feedBytes]
    have wrong : ¬ target[s.pos]? = some c → ∀ a : ByteStep, a.failed = true → Agree a
        (feedBytes (eqStep target) data
          { pos := (eqStep target s.pos c).pos, failed := s.failed || (eqStep target s.pos c).failed
            contains := s.contains || (eqStep target s.pos c).contains }) :=
      fun hc a ha => .of_failed ha (feedBytes_failed _ _ (by simp [eqStep, hc]))
    cases hc : target[s.pos]? with
    | none =>
      have hd : target.drop s.pos = [] := by
        rw [List.drop_eq_nil_iff]
        exact List.getElem?_eq_none_iff.mp hc
      rw [if_neg (by simp [hd])]
      exact wrong (by simp [hc]) _ rfl
    | some d =>
      have hd : target.drop s.pos = d :: target.drop (s.pos + 1) := by
        obtain ⟨hlt, hget⟩ := List.getElem?_eq_some_iff.mp hc
        rw [← hget]
        exact List.drop_eq_getElem_cons hlt
      rw [hd, List.length_cons, List.take_succ_cons]
      by_cases hcd : d = c
      · subst hcd
        have hstep : eqStep target s.pos d = { pos := s.pos + 1 } := by simp [eqStep, hc]
        have ih := feed_eqStep target data { s with pos := s.pos + 1 } h
        rw [hstep]
        simp only [Bool.or_false, List.cons.injEq, true_and]
        refine Agree.trans ?_ ih
        dsimp only
        split
        · rw [Nat.add_assoc, Nat.add_comm 1]
          exact .refl _
        · exact .of_failed rfl rfl
      · rw [if_neg (by simpa using fun h => absurd h.symm hcd)]
        exact wrong (by simpa [hc] using hcd) _ rfl

/-- A run of bytes against the rest of a prefix. -/
theorem feed_pfxStep (target : Bytes) : ∀ (data : Bytes) (s : ByteStep), s.failed = false →
    s.pos ≤ target.length →
    Agree
      (if data.take (target.length - s.pos) = (target.drop s.pos).take data.length then
        { s with pos := s.pos + min (target.length - s.pos) data.length }
      else { s with failed := true })
      (feedBytes (pfxStep target) data s)
  | [], s, h, _ => by
    simpa [feedBytes] using Agree.refl s
  | c :: data, s, h, hle => by
    rw [feedBytes]
    rcases Nat.lt_or_eq_of_le hle with hlt | heq
    · have hd : target.drop s.pos = target[s.pos] :: target.drop (s.pos + 1) :=
        List.drop_eq_getElem_cons hlt
      have hk : target.length - s.pos = (target.length - (s.pos + 1)) + 1 := by omega
      have hget : target[s.pos]? = some target[s.pos] := List.getElem?_eq_getElem hlt
      rw [hd, hk, List.take_succ_cons, List.length_cons, List.take_succ_cons]
      by_cases hcd : target[s.pos] = c
      · have hstep : pfxStep target s.pos c = { pos := s.pos + 1 } := by
          simp [pfxStep, eqStep, hget, hcd, Nat.ne_of_lt hlt]
        have ih := feed_pfxStep target data { s with pos := s.pos + 1 } h hlt
        rw [hstep, hcd]
        simp only [Bool.or_false, List.cons.injEq, true_and]
        refine Agree.trans ?_ ih
        dsimp only
        split
        · have : s.pos + min (target.length - (s.pos + 1) + 1) (data.length + 1) =
              s.pos + 1 + min (target.length - (s.pos + 1)) data.length := by omega
          rw [this]
          exact .refl _
        · exact .of_failed rfl rfl
      · rw [if_neg (by simpa using fun h => absurd h.symm hcd)]
        refine .of_failed rfl (feedBytes_failed _ _ ?_)
        simp [pfxStep, eqStep, hget, hcd, Nat.ne_of_lt hlt]
    · obtain ⟨pos, failed, contains⟩ := s
      dsimp only at heq h hle ⊢
      subst heq
      have hstep : pfxStep target target.length c = { pos := target.length } := by simp [pfxStep]
      have ih := feed_pfxStep target data ⟨target.length, failed, contains⟩ h hle
      rw [hstep]
      simpa using ih

/-- The term is one that `lql_json_match_span` compares in bulk. -/
def Bulk (ctx : Ctx) (m : Match) (i : Nat) : Prop :=
  if m.key then ∀ target, keyTarget ctx m i = some target → pointerSegmentHasEscape target = false
  else (ctx.term i).kind ≠ .contains ∧ (ctx.term i).kind ≠ .icontains ∧ (ctx.term i).kind ≠ .ipfx

/-- The text a term is compared with. -/
def spanTarget (ctx : Ctx) (m : Match) (i : Nat) : Option Bytes :=
  if m.key then keyTarget ctx m i else some (ctx.term i).value

theorem cursorStep_key {m : Match} (hk : m.key = true) (i pos : Nat) (c : UInt8) :
    cursorStep ctx m i pos c =
      match keyTarget ctx m i with
      | none => { pos, failed := true }
      | some target =>
        match pointerTargetByte target pos with
        | none => { pos, failed := true }
        | some (d, advance) => if d = c then { pos := pos + advance } else { pos, failed := true } := by
  show (if m.key = true then _ else _) = _
  rw [if_pos hk]
  rfl

theorem cursorStep_value {m : Match} (hk : m.key = false) (i pos : Nat) (c : UInt8) :
    cursorStep ctx m i pos c =
      if (ctx.term i).kind = .contains then needleStep (ctx.term i) pos c
      else if (ctx.term i).kind = .pfx then pfxStep (ctx.term i).value pos c
      else eqStep (ctx.term i).value pos c := by
  show (if m.key = true then _ else _) = _
  rw [if_neg (by simp [hk])]
  by_cases hc : (ctx.term i).kind = .contains
  · rw [if_pos hc, if_pos hc]
  rw [if_neg hc, if_neg hc]
  by_cases hp : (ctx.term i).kind = .pfx
  · simp only [hp, true_and, if_true, pfxStep, eqStep]
  · simp only [hp, false_and, if_false, eqStep]

/-- The steps of a term in bulk are those of an equality or of a prefix. -/
theorem cursorStep_bulk {m : Match} {i : Nat} (h : Bulk ctx m i) {target : Bytes}
    (ht : spanTarget ctx m i = some target) :
    cursorStep ctx m i =
      if m.key = false ∧ (ctx.term i).kind = .pfx then pfxStep target else eqStep target := by
  funext pos c
  unfold Bulk at h
  unfold spanTarget at ht
  cases hk : m.key with
  | true =>
    rw [hk, if_pos rfl] at h ht
    rw [cursorStep_key hk, ht, if_neg (by simp)]
    dsimp only
    rw [pointerTargetByte_plain (h target ht)]
    cases ht : target[pos]? with
    | none => simp [eqStep, ht]
    | some d => by_cases hd : d = c <;> simp [eqStep, ht, hd]
  | false =>
    rw [hk, if_neg (by simp)] at h ht
    cases ht
    rw [cursorStep_value hk, if_neg h.1]
    by_cases hp : (ctx.term i).kind = .pfx
    · rw [if_pos hp, if_pos ⟨rfl, hp⟩]
    · rw [if_neg hp, if_neg fun hn => hp hn.2]

theorem cursorStep_none {m : Match} {i : Nat} (h : spanTarget ctx m i = none) (pos : Nat) (c : UInt8) :
    (cursorStep ctx m i pos c).failed = true := by
  unfold spanTarget at h
  cases hk : m.key with
  | false => rw [hk] at h; cases h
  | true =>
    rw [hk, if_pos rfl] at h
    rw [cursorStep_key hk, h]

/-- **A run of bytes for one term in bulk** does what the bytes would do one by one. -/
theorem matchSpanTerm_spec {m : Match} {i : Nat} {data : Bytes} (h64 : i < 64) (hdata : data ≠ [])
    (hf : m.failed.has i = false) (hb : Bulk ctx m i) :
    ∃ pos failed, matchSpanTerm ctx m i data = some { m with pos := pos, failed := failed } ∧
      (∀ j, j ≠ i → pos j = m.pos j ∧ Mask.has failed j = m.failed.has j) ∧
      Agree { pos := pos i, failed := Mask.has failed i, contains := m.contains.has i }
        (feedBytes (cursorStep ctx m i) data (m.cursor i)) := by
  obtain ⟨c, rest, rfl⟩ := List.exists_cons_of_ne_nil hdata
  have hcur : (m.cursor i).failed = false := hf
  have hpos : (m.cursor i).pos = m.pos i := rfl
  -- what a failure leaves
  have fails : ∀ b : ByteStep, b.failed = true →
      (∀ j, j ≠ i → m.pos j = m.pos j ∧ Mask.has (m.failed ||| bit i) j = m.failed.has j) ∧
      Agree { pos := m.pos i, failed := Mask.has (m.failed ||| bit i) i
              contains := m.contains.has i } b := by
    intro b hbf
    refine ⟨fun j hj => ⟨rfl, ?_⟩, .of_failed ?_ hbf⟩
    · simp [Mask.has_bit, Ne.symm hj]
    · simp [Mask.has_bit, h64]
  have hcond : ¬ (!m.key ∧ ((ctx.term i).kind = .contains ∨ (ctx.term i).kind = .icontains ∨
      (ctx.term i).kind = .ipfx)) := by
    rintro ⟨hk, hkind⟩
    rw [Bool.not_eq_true'] at hk
    rw [Bulk, if_neg (by simp [hk])] at hb
    tauto
  rw [matchSpanTerm]
  dsimp only
  rw [if_neg (by simpa using hcond)]
  have hsp : (if m.key = true then keyTarget ctx m i else some (ctx.term i).value) =
      spanTarget ctx m i := rfl
  rw [hsp]
  cases ht : spanTarget ctx m i with
  | none =>
    refine ⟨m.pos, m.failed ||| bit i, rfl, fails _ (feed_first_failed _ ?_)⟩
    exact cursorStep_none ht _ _
  | some target =>
    have hesc : ¬ (m.key = true ∧ pointerSegmentHasEscape target = true) := by
      rintro ⟨hk, he⟩
      rw [Bulk, if_pos hk] at hb
      rw [spanTarget, if_pos hk] at ht
      rw [hb target ht] at he
      cases he
    dsimp only
    rw [if_neg hesc, cursorStep_bulk hb ht]
    have htake : (c :: rest).take (min (target.length - m.pos i) (c :: rest).length) =
          (c :: rest).take (target.length - m.pos i) ∧
        (target.drop (m.pos i)).take (min (target.length - m.pos i) (c :: rest).length) =
          (target.drop (m.pos i)).take (c :: rest).length := by
      constructor
      · rw [List.take_eq_take_iff]; omega
      · rw [List.take_eq_take_iff, List.length_drop]; omega
    rw [htake.1, htake.2]
    have moved : ∀ k, (∀ j, j ≠ i → setAt m.pos i k j = m.pos j ∧
        Mask.has m.failed j = m.failed.has j) := fun k j hj => ⟨if_neg hj, rfl⟩
    by_cases hp : m.key = false ∧ (ctx.term i).kind = .pfx
    · rw [if_pos hp]
      have hfeed := feed_pfxStep target (c :: rest) (m.cursor i) hcur
      rw [hpos] at hfeed
      by_cases hend : m.pos i = target.length
      · rw [if_pos ⟨by simp [hp.1], hp.2, hend⟩]
        refine ⟨m.pos, m.failed, rfl, fun j _ => ⟨rfl, rfl⟩, ?_⟩
        have := hfeed (Nat.le_of_eq hend)
        rw [hend] at this
        simp only [Nat.sub_self, List.take_zero, List.drop_length, List.take_nil, if_true,
          Nat.zero_min, Nat.add_zero] at this
        rw [← hend] at this
        exact this
      rw [if_neg fun h => hend h.2.2]
      by_cases hlt : m.pos i > target.length
      · rw [if_pos hlt]
        refine ⟨m.pos, m.failed ||| bit i, rfl, fails _ (feed_first_failed _ ?_)⟩
        have hnone : target[m.pos i]? = none := List.getElem?_eq_none_iff.mpr (by omega)
        simp [pfxStep, eqStep, Match.cursor, hend, hnone]
      rw [if_neg hlt]
      replace hfeed := hfeed (Nat.le_of_not_lt hlt)
      by_cases heq : (c :: rest).take (target.length - m.pos i) =
          (target.drop (m.pos i)).take (c :: rest).length
      · rw [if_pos heq] at hfeed
        rw [if_neg (not_not.mpr heq.symm), if_neg (by rw [hp.1, hp.2]; simp)]
        refine ⟨_, m.failed, rfl, moved _, ?_⟩
        rw [setAt, if_pos rfl]
        exact hfeed
      · rw [if_neg heq] at hfeed
        rw [if_pos fun h => heq h.symm]
        exact ⟨m.pos, m.failed ||| bit i, rfl, fails _ hfeed.1.symm⟩
    · rw [if_neg hp, if_neg fun h => hp ⟨by simpa using h.1, h.2.1⟩]
      have hfeed := feed_eqStep target (c :: rest) (m.cursor i) hcur
      rw [hpos] at hfeed
      have hkind : m.key = true ∨ (ctx.term i).kind ≠ .pfx := by
        by_contra hn
        rw [not_or, not_not] at hn
        exact hp ⟨by simpa using hn.1, hn.2⟩
      by_cases heq : c :: rest = (target.drop (m.pos i)).take (c :: rest).length
      · have hlen := congrArg List.length heq
        rw [List.length_take, List.length_drop] at hlen
        rw [if_pos heq] at hfeed
        have htk : (c :: rest).take (target.length - m.pos i) = c :: rest :=
          List.take_of_length_le (by omega)
        rw [if_neg (by simp only [List.length_cons] at hlen; omega), htk, if_neg (not_not.mpr heq.symm),
          if_neg (fun h => h.1 (by omega))]
        refine ⟨_, m.failed, rfl, moved _, ?_⟩
        rw [setAt, if_pos rfl, show min (target.length - m.pos i) (c :: rest).length =
          (c :: rest).length by omega]
        exact hfeed
      · rw [if_neg heq] at hfeed
        have hbad := fails _ hfeed.1.symm
        split
        · exact ⟨m.pos, m.failed ||| bit i, rfl, hbad⟩
        split
        · exact ⟨m.pos, m.failed ||| bit i, rfl, hbad⟩
        next hsame =>
        have hsame := not_not.mp hsame
        split
        · exact ⟨m.pos, m.failed ||| bit i, rfl, hbad⟩
        next hrem =>
        have hrem : min (target.length - m.pos i) (c :: rest).length = (c :: rest).length := by
          by_contra hne
          exact hrem ⟨hne, hkind⟩
        exact absurd (by rw [hsame, List.take_of_length_le (by omega)]) heq

/-- A term that the bulk loop leaves to the loops before it. -/
def spanSkips (m : Match) (asciiContains : Mask) (i : Nat) : Bool :=
  !m.key && (m.icontains.has i || asciiContains.has i)

/-- The bulk loop over terms that can all be compared in bulk: it does not return early,
and each term it treats has read the run. -/
theorem matchSpanTerms_spec {data : Bytes} (hdata : data ≠ []) (asciiContains asciiIcontains : Mask) :
    ∀ (l : List Nat) (m : Match), l.Nodup → (∀ i ∈ l, i < 64) →
      (∀ i ∈ l, m.active.has i = true → m.failed.has i = false →
        spanSkips m asciiContains i = false → Bulk ctx m i) →
      ∃ pos failed, matchSpanTerms ctx data asciiContains asciiIcontains l m =
          ({ m with pos := pos, failed := failed }, false) ∧
        (∀ j, j ∉ l ∨ m.active.has j = false ∨ m.failed.has j = true ∨
            spanSkips m asciiContains j = true →
          pos j = m.pos j ∧ Mask.has failed j = m.failed.has j) ∧
        (∀ j ∈ l, m.active.has j = true → m.failed.has j = false →
            spanSkips m asciiContains j = false →
          Agree { pos := pos j, failed := Mask.has failed j, contains := m.contains.has j }
            (feedBytes (cursorStep ctx m j) data (m.cursor j)))
  | [], m, _, _, _ => ⟨m.pos, m.failed, rfl, fun _ _ => ⟨rfl, rfl⟩, fun _ h => by cases h⟩
  | i :: l, m, hnd, h64, hbulk => by
    obtain ⟨hi, hnd⟩ := List.nodup_cons.mp hnd
    by_cases hskip : m.active.has i = false ∨ m.failed.has i = true ∨
        spanSkips m asciiContains i = true
    · -- the loop passes over the term
      have hnext : matchSpanTerms ctx data asciiContains asciiIcontains (i :: l) m =
          matchSpanTerms ctx data asciiContains asciiIcontains l m := by
        rw [matchSpanTerms]
        unfold spanSkips at hskip
        rcases hskip with h | h | h
        · rw [if_pos (by simp [h])]
        · rw [if_pos (by simp [h])]
        · split
          · rfl
          rw [Bool.and_eq_true, Bool.or_eq_true] at h
          rcases h.2 with h2 | h2
          · rw [if_pos (by rw [h.1, h2]; rfl)]
          · split
            · rfl
            · rw [if_pos (by rw [h.1, h2]; rfl)]
      obtain ⟨pos, failed, e, hout, hin⟩ := matchSpanTerms_spec hdata asciiContains asciiIcontains l m
        hnd (fun j hj => h64 j (List.mem_cons_of_mem _ hj))
        (fun j hj => hbulk j (List.mem_cons_of_mem _ hj))
      refine ⟨pos, failed, hnext.trans e, fun j hj => ?_, fun j hj ha hf hs => ?_⟩
      · by_cases hji : j = i
        · subst hji
          exact hout j (Or.inl hi)
        · refine hout j (hj.imp_left fun h => ?_)
          exact fun hn => h (List.mem_cons_of_mem _ hn)
      · rcases List.mem_cons.mp hj with rfl | hj
        · rcases hskip with h | h | h
          · rw [ha] at h; cases h
          · rw [hf] at h; cases h
          · rw [hs] at h; cases h
        · exact hin j hj ha hf hs
    · rw [not_or, not_or, Bool.not_eq_false, Bool.not_eq_true, Bool.not_eq_true] at hskip
      obtain ⟨ha, hf, hs⟩ := hskip
      obtain ⟨pos1, failed1, e1, hother, hagree⟩ := matchSpanTerm_spec (h64 i List.mem_cons_self) hdata
        hf (hbulk i List.mem_cons_self ha hf hs)
      have hnext : matchSpanTerms ctx data asciiContains asciiIcontains (i :: l) m =
          matchSpanTerms ctx data asciiContains asciiIcontains l
            { m with pos := pos1, failed := failed1 } := by
        rw [spanSkips, Bool.and_or_distrib_left, Bool.or_eq_false_iff] at hs
        rw [matchSpanTerms, if_neg (by simp [ha, hf]), if_neg (by rw [hs.1]; simp),
          if_neg (by rw [hs.2]; simp), e1]
      obtain ⟨pos, failed, e, hout, hin⟩ := matchSpanTerms_spec hdata asciiContains asciiIcontains l
        { m with pos := pos1, failed := failed1 } hnd
        (fun j hj => h64 j (List.mem_cons_of_mem _ hj))
        (fun j hj haj hfj => hbulk j (List.mem_cons_of_mem _ hj) haj
          ((hother j fun h => hi (h ▸ hj)).2.symm.trans hfj))
      refine ⟨pos, failed, hnext.trans e, fun j hj => ?_, fun j hj haj hfj hsj => ?_⟩
      · have hji : j ≠ i := by
          rintro rfl
          rcases hj with h | h | h | h
          · exact h List.mem_cons_self
          · rw [ha] at h; cases h
          · rw [hf] at h; cases h
          · rw [hs] at h; cases h
        obtain ⟨h1, h2⟩ := hother j hji
        obtain ⟨h3, h4⟩ := hout j (by
          rcases hj with h | h | h | h
          · exact Or.inl fun hn => h (List.mem_cons_of_mem _ hn)
          · exact Or.inr (Or.inl h)
          · exact Or.inr (Or.inr (Or.inl (h2.trans h)))
          · exact Or.inr (Or.inr (Or.inr h)))
        exact ⟨h3.trans h1, h4.trans h2⟩
      · rcases List.mem_cons.mp hj with rfl | hj
        · obtain ⟨h3, h4⟩ := hout j (Or.inl hi)
          rw [h3, h4]
          exact hagree
        · have hji : j ≠ i := fun h => hi (h ▸ hj)
          obtain ⟨h1, h2⟩ := hother j hji
          have := hin j hj haj (h2.trans hfj) hsj
          have hcur : ({ m with pos := pos1, failed := failed1 } : Match).cursor j = m.cursor j := by
            simp only [Match.cursor, h1, h2]
          rw [hcur] at this
          exact this

/-! ### One escaped segment -/

theorem matchSpanFallback_same (ctx : Ctx) (i : Nat) : ∀ (data : Bytes) (m : Match),
    Same m (matchSpanFallback ctx i data m)
  | [], m => .refl m
  | c :: data, m => by
    rw [matchSpanFallback]
    split
    · exact (matchByte_same _ m c).trans (matchSpanFallback_same _ i data _)
    · exact .refl m

theorem cursor_matchSpanFallback (hn : ctx.n ≤ 64) {i : Nat} (hi : i < ctx.n) :
    ∀ (data : Bytes) (m : Match), m.active.has i = true → cased ctx m i = false →
      Agree ((matchSpanFallback ctx i data m).cursor i)
        (feedBytes (cursorStep ctx m i) data (m.cursor i))
  | [], m, _, _ => .refl _
  | c :: data, m, ha, hc => by
    have hs := matchByte_same ctx m c
    rw [matchSpanFallback]
    cases hf : m.failed.has i with
    | true =>
      rw [if_neg (by simp)]
      exact Agree.frozen (.refl _) hf _ _
    | false =>
      have ih := cursor_matchSpanFallback hn hi data (matchByte ctx m c) (by rw [hs.active]; exact ha)
        (by rw [cased_same hs]; exact hc)
      rw [cursorStep_same hs, cursor_matchByte hn hi ha, hc, if_neg (by simp), hf, if_neg (by simp)] at ih
      rw [if_pos (by simp [ha])]
      exact ih

theorem matchSpanTerm_none {m : Match} {i : Nat} {data : Bytes} (hk : m.key = true)
    (hb : ¬ Bulk ctx m i) : matchSpanTerm ctx m i data = none := by
  rw [Bulk, if_pos hk] at hb
  obtain ⟨target, ht, he⟩ : ∃ target, keyTarget ctx m i = some target ∧
      pointerSegmentHasEscape target = true := by
    by_contra hn
    refine hb fun target ht => ?_
    cases he : pointerSegmentHasEscape target with
    | false => rfl
    | true => exact absurd ⟨target, ht, he⟩ hn
  rw [matchSpanTerm]
  dsimp only
  rw [if_neg (by simp [hk]), if_pos hk, ht]
  exact if_pos ⟨hk, he⟩

/-- A term that has failed stays so. -/
theorem matchSpanFallback_failed (hn : ctx.n ≤ 64) {i j : Nat} (hj : j < ctx.n) :
    ∀ (data : Bytes) (m : Match), m.active.has j = true → cased ctx m j = false →
      (m.cursor j).failed = true → ((matchSpanFallback ctx i data m).cursor j).failed = true
  | [], _, _, _, h => h
  | c :: data, m, ha, hc, h => by
    have hs := matchByte_same ctx m c
    rw [matchSpanFallback]
    split
    · refine matchSpanFallback_failed hn hj data _ (by rw [hs.active]; exact ha)
        (by rw [cased_same hs]; exact hc) ?_
      rw [cursor_matchByte hn hj ha, hc, if_neg (by simp), if_pos (show m.failed.has j = true from h)]
      exact h
    · exact h

/-- The loop reaches the one term with an escape and goes byte by byte. The other active
terms have nothing to compare, and fail. -/
theorem matchSpanTerms_escaped (hn : ctx.n ≤ 64) {data : Bytes} (hdata : data ≠ []) {i : Nat}
    (hi : i < ctx.n) (asciiContains : Mask) :
    ∀ (l : List Nat) (m : Match), i ∈ l → l.Nodup → (∀ j ∈ l, j < ctx.n) → m.key = true →
      m.active.has i = true → m.failed.has i = false → ¬ Bulk ctx m i →
      (∀ j < ctx.n, m.active.has j = true → j ≠ i → keyTarget ctx m j = none) →
      ∃ m', matchSpanTerms ctx data asciiContains 0 l m = (m', true) ∧ Same m m' ∧
        Agree (m'.cursor i) (feedBytes (cursorStep ctx m i) data (m.cursor i)) ∧
        ∀ j < ctx.n, m.active.has j = true → j ≠ i → (m'.cursor j).failed = true
  | [], _, h, _, _, _, _, _, _, _ => by cases h
  | j :: l, m, h, hnd, hl, hk, ha, hf, hnb, hnone => by
    rw [matchSpanTerms]
    obtain ⟨hjl, hnd⟩ := List.nodup_cons.mp hnd
    by_cases hji : j = i
    · subst hji
      rw [if_neg (by simp [ha, hf]), if_neg (by simp [hk]), if_neg (by simp [hk]),
        matchSpanTerm_none hk hnb]
      simp only [ne_eq, not_true_eq_false, if_false]
      have hs := matchSpanFallback_same ctx j data { m with temporalActive := 0 }
      have hc : cased ctx { m with temporalActive := 0 } j = false := by simp [cased, hk]
      refine ⟨_, rfl, ⟨hs.active, hs.key, rfl, hs.termSegment, hs.captureActive, hs.captureSegment,
        rfl⟩, cursor_matchSpanFallback hn hi data { m with temporalActive := 0 } ha hc,
        fun q hq haq hqj => ?_⟩
      -- the byte loop runs at least once, and there the other terms fail
      obtain ⟨c, rest, rfl⟩ := List.exists_cons_of_ne_nil hdata
      show ((matchSpanFallback ctx j (c :: rest) { m with temporalActive := 0 }).cursor q).failed = true
      have hcq : cased ctx { m with temporalActive := 0 } q = false := by simp [cased, hk]
      have hfirst : ((matchByte ctx { m with temporalActive := 0 } c).cursor q).failed = true := by
        rw [cursor_matchByte hn hq (m := { m with temporalActive := 0 }) haq, hcq, if_neg (by simp)]
        split
        · next hfq => exact hfq
        · refine feed_first_failed [] ?_
          rw [cursorStep_key (m := { m with temporalActive := 0 }) hk]
          have : keyTarget ctx { m with temporalActive := 0 } q = none := hnone q hq haq hqj
          rw [this]
      rw [matchSpanFallback, if_pos (by simp [ha, hf])]
      exact matchSpanFallback_failed hn hq rest _
        (by rw [(matchByte_same _ _ c).active]; exact haq)
        (by rw [cased_same (matchByte_same _ _ c)]; exact hcq) hfirst
    · have hil : i ∈ l := by
        rcases List.mem_cons.mp h with h | h
        · exact absurd h.symm hji
        · exact h
      have hl' : ∀ q ∈ l, q < ctx.n := fun q hq => hl q (List.mem_cons_of_mem _ hq)
      split
      · exact matchSpanTerms_escaped hn hdata hi asciiContains l m hil hnd hl' hk ha hf hnb hnone
      next hskip =>
      rw [if_neg (by simp [hk]), if_neg (by simp [hk])]
      simp only [Bool.or_eq_true, Bool.not_eq_true', not_or, Bool.not_eq_false, Bool.not_eq_true] at hskip
      have hb : Bulk ctx m j := by
        rw [Bulk, if_pos hk, hnone j (hl j List.mem_cons_self) hskip.1 hji]
        simp
      obtain ⟨pos, failed, e, hother, -⟩ := matchSpanTerm_spec
        (Nat.lt_of_lt_of_le (hl j List.mem_cons_self) hn) hdata hskip.2 hb
      obtain ⟨h1, h2⟩ := hother i fun h => hji h.symm
      rw [e]
      obtain ⟨m', e', hs', hi', hj'⟩ := matchSpanTerms_escaped hn hdata hi asciiContains l
        { m with pos := pos, failed := failed } hil hnd hl' hk ha (h2.trans hf) hnb hnone
      have hcur : ({ m with pos := pos, failed := failed } : Match).cursor i = m.cursor i := by
        simp only [Match.cursor, h1, h2]
      rw [hcur] at hi'
      exact ⟨m', e', ⟨hs'.1, hs'.2, hs'.3, hs'.4, hs'.5, hs'.6, hs'.7⟩, hi', hj'⟩

/-! ### Captures -/

theorem captureByte_cursor (hn : ctx.captureKeys.length ≤ 64) (m : Match) (c : UInt8) {i : Nat}
    (hi : i < ctx.captureKeys.length) (ha : m.captureActive.has i = true) :
    (captureByte ctx m c).captureCursor i =
      if m.captureFailed.has i then m.captureCursor i
      else feedBytes (captureStep ctx m i) [c] (m.captureCursor i) := by
  simp only [Match.captureCursor, captureByte, updWhere, Mask.has_or, maskOf_has_le hn, hi,
    decide_true, Bool.true_and, ha]
  cases hf : m.captureFailed.has i with
  | true => simp
  | false =>
    simp only [Bool.not_false, Bool.true_and, Bool.false_or, Bool.false_eq_true, if_false, feedBytes,
      captureStep, eqStep]
    cases (ctx.captureKey i)[m.captureSegment i]? with
    | none => simp
    | some target =>
      by_cases hc : target[m.capturePos i]? = some c
      · simp [hc]
      · simp [hc]

theorem matchByte_captures {m : Match} (h1 : m.active = 0) (h2 : m.icontains = 0)
    (h3 : m.temporalActive = 0) (h4 : m.captureActive ≠ 0) (c : UInt8) :
    matchByte ctx m c = captureByte ctx m c := by
  rw [matchByte_eq (Or.inr h4)]
  have ht : temporalRangeByte m c = m := by rw [temporalRangeByte, if_pos h3]
  rw [ht, byteLoops, if_neg (not_not.mpr h1), if_pos h4]
  exact if_neg (not_not.mpr h2)

/-- The capture loop moves the captures and nothing else. -/
theorem captureSpanLoop_spec (hn : ctx.captureKeys.length ≤ 64) : ∀ (data : Bytes) (m : Match),
    m.active = 0 → m.icontains = 0 → m.temporalActive = 0 → m.captureActive ≠ 0 →
    ∃ pos failed, captureSpanLoop ctx data m = { m with capturePos := pos, captureFailed := failed } ∧
      ∀ i < ctx.captureKeys.length, m.captureActive.has i = true →
        Agree { pos := pos i, failed := Mask.has failed i }
          (feedBytes (captureStep ctx m i) data (m.captureCursor i))
  | [], m, _, _, _, _ => ⟨m.capturePos, m.captureFailed, rfl, fun i _ _ => .refl _⟩
  | c :: data, m, h1, h2, h3, h4 => by
    rw [captureSpanLoop]
    split
    · rw [matchByte_captures h1 h2 h3 h4]
      obtain ⟨pos, failed, e, h⟩ := captureSpanLoop_spec hn data (captureByte ctx m c) h1 h2 h3 h4
      refine ⟨pos, failed, e, fun i hi ha => (h i hi ha).trans ?_⟩
      rw [captureByte_cursor hn m c hi ha]
      have e2 : feedBytes (captureStep ctx m i) (c :: data) (m.captureCursor i) =
          feedBytes (captureStep ctx m i) data
            (feedBytes (captureStep ctx m i) [c] (m.captureCursor i)) := feedBytes_append _ [c] data _
      rw [e2]
      refine Agree.feed ?_ _ _
      split
      · next hf => exact Agree.frozen (.refl _) hf _ _
      · exact .refl _
    · next hdone =>
      refine ⟨m.capturePos, m.captureFailed, rfl, fun i hi ha => ?_⟩
      have hz := Mask.eq_zero_iff.mp (not_not.mp hdone) i
      rw [Mask.has_and_not, ha] at hz
      exact Agree.frozen (.refl _) (by simpa using hz) _ _

/-! ### The whole run -/

/-- The text may be cut anywhere: in a key no escaped segment is compared beside anything
else. -/
structure Cuttable (ctx : Ctx) (m : Match) : Prop where
  terms : ctx.n ≤ 64
  captures : ctx.captureKeys.length ≤ 64
  icontains : m.icontains = maskOf ctx.n fun i => m.active.has i && cased ctx m i
  cut : m.key = true → ∀ i < ctx.n, m.active.has i = true → ¬ Bulk ctx m i →
    m.captureActive = 0 ∧
      ∀ j < ctx.n, m.active.has j = true → j ≠ i → keyTarget ctx m j = none

theorem bulk_same {m m' : Match} (h : Same m m') (i : Nat) : Bulk ctx m' i ↔ Bulk ctx m i := by
  simp only [Bulk, keyTarget, h.key, h.termSegment]

theorem Cuttable.same {m m' : Match} (h : Cuttable ctx m) (hs : Same m m') : Cuttable ctx m' := by
  refine ⟨h.terms, h.captures, ?_, fun hk => ?_⟩
  · simp only [hs.icontains, cased_same hs, hs.active]
    exact h.icontains
  · rw [hs.active, hs.captureActive]
    simp only [bulk_same hs, keyTarget, hs.termSegment]
    exact h.cut (by rw [← hs.key]; exact hk)

theorem Cuttable.icontains_has {m : Match} (h : Cuttable ctx m) {i : Nat} (hi : i < ctx.n)
    (ha : m.active.has i = true) : m.icontains.has i = cased ctx m i := by
  rw [h.icontains, maskOf_has_le h.terms]
  simp [hi, ha]

theorem Cuttable.icontains_key {m : Match} (h : Cuttable ctx m) (hk : m.key = true) :
    m.icontains = 0 := by
  rw [h.icontains]
  refine Mask.ext fun i => ?_
  rw [maskOf_has_le h.terms]
  simp [cased, hk]

/-- The loops of `lql_json_match_span` before the bulk loop. -/
def spanAscii (ctx : Ctx) (m : Match) (asciiContains : Mask) (data : Bytes) : Match :=
  let m := if m.key then m else matchContainsAsciiSpan ctx m asciiContains data
  let asciiIcontains : Mask := if m.key then 0 else m.active &&& m.icontains &&& ~~~m.failed
  if asciiIcontains ≠ 0 then matchIcontainsAsciiSpan ctx m data else m

/-- The `contains` terms of a run. -/
def spanContains (ctx : Ctx) (m : Match) : Mask :=
  if m.key then 0
  else maskOf ctx.n fun i => m.active.has i && !m.icontains.has i && !m.failed.has i &&
    (ctx.term i).kind = .contains

/-- The end of `lql_json_match_span`: the captures. -/
def spanCaptures (ctx : Ctx) (m : Match) (data : Bytes) : Match :=
  if m.captureActive ≠ 0 then
    let m' := captureSpanLoop ctx data { m with active := 0, icontains := 0, temporalActive := 0 }
    { m' with active := m.active, icontains := m.icontains, temporalActive := m.temporalActive }
  else m

theorem applySteps_same (m : Match) (p : Nat → Bool) (r : Nat → ByteStep) :
    Same m (applySteps ctx m p r) := ⟨rfl, rfl, rfl, rfl, rfl, rfl, rfl⟩

theorem matchContainsAsciiSpan_same (ctx : Ctx) (m : Match) (active : Mask) (data : Bytes) :
    Same m (matchContainsAsciiSpan ctx m active data) := by
  unfold matchContainsAsciiSpan
  split
  · exact .refl m
  · exact applySteps_same _ _ _

theorem matchIcontainsAsciiSpan_same (m : Match) (data : Bytes) :
    Same m (matchIcontainsAsciiSpan ctx m data) := by
  unfold matchIcontainsAsciiSpan
  split
  · exact .refl m
  · exact applySteps_same _ _ _

theorem spanAscii_same (ctx : Ctx) (m : Match) (asciiContains : Mask) (data : Bytes) :
    Same m (spanAscii ctx m asciiContains data) := by
  have h1 : Same m (if m.key then m else matchContainsAsciiSpan ctx m asciiContains data) := by
    split
    · exact .refl m
    · exact matchContainsAsciiSpan_same _ m asciiContains data
  unfold spanAscii
  dsimp only
  refine h1.trans ?_
  generalize (if m.key = true then m else matchContainsAsciiSpan ctx m asciiContains data) = m1
  generalize (if m1.key = true then (0 : Mask) else m1.active &&& m1.icontains &&& ~~~m1.failed) = ai
  split
  · exact matchIcontainsAsciiSpan_same m1 data
  · exact .refl m1

/-- In a key nothing happens before the bulk loop. -/
theorem spanAscii_key {m : Match} (hk : m.key = true) (asciiContains : Mask) (data : Bytes) :
    spanAscii ctx m asciiContains data = m := by
  simp [spanAscii, hk]

theorem spanAscii_value {m : Match} (hk : m.key = false) (asciiContains : Mask) (data : Bytes) :
    spanAscii ctx m asciiContains data =
      let m1 := matchContainsAsciiSpan ctx m asciiContains data
      if m1.active &&& m1.icontains &&& ~~~m1.failed ≠ 0 then matchIcontainsAsciiSpan ctx m1 data
      else m1 := by
  have hk1 : (matchContainsAsciiSpan ctx m asciiContains data).key = false := by
    rw [(matchContainsAsciiSpan_same _ m asciiContains data).key]
    exact hk
  simp only [spanAscii, hk, hk1, Bool.false_eq_true, if_false]

theorem spanAscii_eq (ctx : Ctx) {m : Match} (hk : m.key = false) (asciiContains : Mask) (data : Bytes) :
    ∃ pos failed contains, spanAscii ctx m asciiContains data =
      { m with pos := pos, failed := failed, contains := contains } := by
  have h1 : ∃ pos failed contains, matchContainsAsciiSpan ctx m asciiContains data =
      { m with pos := pos, failed := failed, contains := contains } := by
    unfold matchContainsAsciiSpan
    split <;> exact ⟨_, _, _, rfl⟩
  obtain ⟨pos, failed, contains, e⟩ := h1
  rw [spanAscii_value hk, e]
  dsimp only
  split
  · unfold matchIcontainsAsciiSpan
    split <;> exact ⟨_, _, _, rfl⟩
  · exact ⟨_, _, _, rfl⟩

theorem spanContains_has (hn : ctx.n ≤ 64) {m : Match} (hk : m.key = false) {i : Nat}
    (hi : i < ctx.n) (ha : m.active.has i = true) (hic : m.icontains.has i = cased ctx m i) :
    (spanContains ctx m).has i = (!m.failed.has i && decide ((ctx.term i).kind = .contains)) := by
  rw [spanContains, if_neg (by simp [hk]), maskOf_has_le hn, hic, ha]
  by_cases hkind : (ctx.term i).kind = .contains
  · simp [hi, hkind, cased]
  · simp [hkind]

/-- A needle reads a run whole. -/
theorem cursor_matchContainsAsciiSpan (hn : ctx.n ≤ 64) {m : Match} {data : Bytes} (hdata : data ≠ [])
    (hk : m.key = false) {i : Nat} (hi : i < ctx.n) (ha : m.active.has i = true)
    (hic : m.icontains.has i = cased ctx m i) :
    Agree ((matchContainsAsciiSpan ctx m (spanContains ctx m) data).cursor i)
      (if (ctx.term i).kind = .contains then feedBytes (needleStep (ctx.term i)) data (m.cursor i)
      else m.cursor i) := by
  have hmask := spanContains_has hn hk hi ha hic
  by_cases hkind : (ctx.term i).kind = .contains
  · rw [if_pos hkind]
    cases hf : m.failed.has i with
    | true =>
      have hcur : (matchContainsAsciiSpan ctx m (spanContains ctx m) data).cursor i = m.cursor i := by
        unfold matchContainsAsciiSpan
        split
        · rfl
        · rw [cursor_applySteps hn _ _ _ hi, if_neg (by simp [hf])]
      rw [hcur]
      exact Agree.frozen (.refl _) hf _ _
    | false =>
      have hhas : (spanContains ctx m).has i = true := by rw [hmask, hf]; simp [hkind]
      have hne : spanContains ctx m ≠ 0 := Mask.ne_zero_iff.mpr ⟨i, hhas⟩
      rw [matchContainsAsciiSpan, if_neg (by simp only [hdata, false_or]; exact hne),
        cursor_applySteps hn _ _ _ hi, if_pos (by simp [hhas, ha, hf]), if_neg (by simp [hkind]),
        feedBytes_from _ _ (m.cursor i)]
      exact .refl _
  · rw [if_neg hkind]
    have hcur : (matchContainsAsciiSpan ctx m (spanContains ctx m) data).cursor i = m.cursor i := by
      unfold matchContainsAsciiSpan
      split
      · rfl
      · rw [cursor_applySteps hn _ _ _ hi, if_neg (by simp [hmask, hkind])]
    rw [hcur]
    exact .refl _

/-- A lowered term reads the lowered run. -/
theorem cursor_matchIcontainsAsciiSpan (hn : ctx.n ≤ 64) {m : Match} {data : Bytes}
    (hdata : data ≠ []) {i : Nat} (hi : i < ctx.n) (ha : m.active.has i = true) :
    (matchIcontainsAsciiSpan ctx m data).cursor i =
      if m.icontains.has i = true ∧ m.failed.has i = false then
        feedBytes (icontainsStep (ctx.term i)) (data.map asciiLower) (m.cursor i)
      else m.cursor i := by
  unfold matchIcontainsAsciiSpan
  split
  · next h =>
    have h0 : m.icontains = 0 := h.resolve_left hdata
    rw [h0, if_neg (by simp)]
  · rw [cursor_feed hn m _ (fun i => icontainsStep (ctx.term i)) _ hi]
    simp [ha]

theorem cursor_spanAscii (hn : ctx.n ≤ 64) {m : Match} {data : Bytes} (hdata : data ≠ [])
    (hk : m.key = false) {i : Nat} (hi : i < ctx.n) (ha : m.active.has i = true)
    (hic : m.icontains.has i = cased ctx m i) :
    Agree ((spanAscii ctx m (spanContains ctx m) data).cursor i)
      (if cased ctx m i then feedBytes (icontainsStep (ctx.term i)) (data.map asciiLower) (m.cursor i)
      else if (ctx.term i).kind = .contains then feedBytes (needleStep (ctx.term i)) data (m.cursor i)
      else m.cursor i) := by
  have h1 := cursor_matchContainsAsciiSpan hn hdata hk hi ha hic
  have hs := matchContainsAsciiSpan_same ctx m (spanContains ctx m) data
  rw [spanAscii_value hk]
  dsimp only
  generalize matchContainsAsciiSpan ctx m (spanContains ctx m) data = m1 at *
  have ha1 : m1.active.has i = true := by rw [hs.active]; exact ha
  have hic1 : m1.icontains.has i = cased ctx m i := by rw [hs.icontains]; exact hic
  cases hcs : cased ctx m i with
  | false =>
    have hcur : (if m1.active &&& m1.icontains &&& ~~~m1.failed ≠ 0 then
        matchIcontainsAsciiSpan ctx m1 data else m1).cursor i = m1.cursor i := by
      split
      · rw [cursor_matchIcontainsAsciiSpan hn hdata hi ha1, if_neg (by simp [hic1, hcs])]
      · rfl
    rw [hcur]
    simpa using h1
  | true =>
    have hkind : ¬ (ctx.term i).kind = .contains := by
      intro h
      simp [cased, h] at hcs
    rw [if_neg hkind] at h1
    rw [if_pos rfl]
    cases hf : m1.failed.has i with
    | true =>
      have hcur : (if m1.active &&& m1.icontains &&& ~~~m1.failed ≠ 0 then
          matchIcontainsAsciiSpan ctx m1 data else m1).cursor i = m1.cursor i := by
        split
        · rw [cursor_matchIcontainsAsciiSpan hn hdata hi ha1, if_neg (by simp [hf])]
        · rfl
      rw [hcur]
      exact h1.frozen hf _ _
    | false =>
      have hne : m1.active &&& m1.icontains &&& ~~~m1.failed ≠ 0 :=
        Mask.ne_zero_iff.mpr ⟨i, by rw [Mask.has_and_not, Mask.has_and, ha1, hic1, hcs, hf]; rfl⟩
      rw [if_pos hne, cursor_matchIcontainsAsciiSpan hn hdata hi ha1, if_pos ⟨by rw [hic1, hcs], hf⟩]
      exact h1.feed _ _

theorem temporalRangeBytes_eq (m : Match) (data : Bytes) :
    ∃ failed text, temporalRangeBytes m data =
      { m with temporalFailed := failed, temporalMatch := text } := by
  unfold temporalRangeBytes
  dsimp only
  split
  · exact ⟨_, _, rfl⟩
  split
  · exact ⟨_, _, rfl⟩
  split <;> exact ⟨_, _, rfl⟩

theorem spanCaptures_eq (ctx : Ctx) (hn : ctx.captureKeys.length ≤ 64) (m : Match) (data : Bytes) :
    ∃ pos failed, spanCaptures ctx m data = { m with capturePos := pos, captureFailed := failed } ∧
      ∀ i < ctx.captureKeys.length, m.captureActive.has i = true →
        Agree { pos := pos i, failed := Mask.has failed i }
          (feedBytes (captureStep ctx m i) data (m.captureCursor i)) := by
  unfold spanCaptures
  split
  · next h =>
    obtain ⟨pos, failed, e, hagree⟩ := captureSpanLoop_spec hn data
      { m with active := 0, icontains := 0, temporalActive := 0 } rfl rfl rfl h
    exact ⟨pos, failed, by dsimp only; rw [e], hagree⟩
  · next h =>
    refine ⟨m.capturePos, m.captureFailed, rfl, fun i _ ha => ?_⟩
    rw [not_not.mp h] at ha
    simp at ha

/-- What follows the loops over `contains` terms. -/
def spanRest (ctx : Ctx) (m : Match) (asciiContains asciiIcontains : Mask) (data : Bytes) : Match :=
  let (m, returned) :=
    if m.active ≠ 0 then matchSpanTerms ctx data asciiContains asciiIcontains (List.range ctx.n) m
    else (m, false)
  if returned then m else spanCaptures ctx m data

/-- The `icontains` terms of a run. -/
def spanIcontains (ctx : Ctx) (m : Match) (data : Bytes) : Mask :=
  let m := if m.key then m else matchContainsAsciiSpan ctx m (spanContains ctx m) data
  if m.key then 0 else m.active &&& m.icontains &&& ~~~m.failed

theorem matchSpan_eq {m : Match} {data : Bytes} (hdata : data ≠ [])
    (h : ¬ (m.active = 0 ∧ m.captureActive = 0 ∧ m.temporalActive = 0)) :
    matchSpan ctx m data =
      let m1 := temporalRangeBytes m data
      spanRest ctx (spanAscii ctx m1 (spanContains ctx m1) data) (spanContains ctx m1)
        (spanIcontains ctx m1 data) data := by
  rw [matchSpan, if_neg hdata, if_neg h]
  rfl

/-- The bulk loop and the captures, when every term it meets can be compared in bulk. -/
theorem spanRest_bulk {m : Match} {data : Bytes} (hdata : data ≠ []) (hn : ctx.n ≤ 64)
    (hcap : ctx.captureKeys.length ≤ 64) (asciiContains asciiIcontains : Mask)
    (hbulk : ∀ i < ctx.n, m.active.has i = true → m.failed.has i = false →
      spanSkips m asciiContains i = false → Bulk ctx m i) :
    ∃ pos failed capturePos captureFailed,
      spanRest ctx m asciiContains asciiIcontains data =
        { m with pos := pos, failed := failed, capturePos := capturePos
                 captureFailed := captureFailed } ∧
      (∀ j < ctx.n, m.active.has j = true → m.failed.has j = true ∨
          spanSkips m asciiContains j = true →
        pos j = m.pos j ∧ Mask.has failed j = m.failed.has j) ∧
      (∀ j < ctx.n, m.active.has j = true → m.failed.has j = false →
          spanSkips m asciiContains j = false →
        Agree { pos := pos j, failed := Mask.has failed j, contains := m.contains.has j }
          (feedBytes (cursorStep ctx m j) data (m.cursor j))) ∧
      ∀ i < ctx.captureKeys.length, m.captureActive.has i = true →
        Agree { pos := capturePos i, failed := Mask.has captureFailed i }
          (feedBytes (captureStep ctx m i) data (m.captureCursor i)) := by
  unfold spanRest
  by_cases hact : m.active ≠ 0
  · rw [if_pos hact]
    obtain ⟨pos, failed, e, hout, hin⟩ := matchSpanTerms_spec hdata asciiContains asciiIcontains
      (List.range ctx.n) m List.nodup_range
      (fun i hi => Nat.lt_of_lt_of_le (List.mem_range.mp hi) hn)
      (fun i hi => hbulk i (List.mem_range.mp hi))
    obtain ⟨cpos, cfailed, ec, hc⟩ := spanCaptures_eq ctx hcap
      { m with pos := pos, failed := failed } data
    rw [e]
    exact ⟨pos, failed, cpos, cfailed, ec, fun j _ _ h => hout j (Or.inr (Or.inr h)),
      fun j hj => hin j (List.mem_range.mpr hj), hc⟩
  · rw [if_neg hact]
    obtain ⟨cpos, cfailed, ec, hc⟩ := spanCaptures_eq ctx hcap m data
    have hz := not_not.mp hact
    refine ⟨m.pos, m.failed, cpos, cfailed, ec, fun _ _ _ _ => ⟨rfl, rfl⟩, fun j _ ha => ?_, hc⟩
    rw [hz] at ha
    simp at ha

theorem matchSpan_idle {m : Match} {data : Bytes}
    (h : m.active = 0 ∧ m.captureActive = 0 ∧ m.temporalActive = 0) : matchSpan ctx m data = m := by
  by_cases hd : data = []
  · rw [matchSpan, if_pos hd]
  · rw [matchSpan, if_neg hd, if_pos h]

/-- **A run of a key** reaches every term and every capture as its bytes would. -/
theorem matchSpan_key {m : Match} {data : Bytes} (h : Cuttable ctx m) (hk : m.key = true)
    (hdata : data ≠ []) :
    Same m (matchSpan ctx m data) ∧
      (∀ i < ctx.n, m.active.has i = true →
        Agree ((matchSpan ctx m data).cursor i) (feedBytes (cursorStep ctx m i) data (m.cursor i))) ∧
      ∀ i < ctx.captureKeys.length, m.captureActive.has i = true →
        Agree ((matchSpan ctx m data).captureCursor i)
          (feedBytes (captureStep ctx m i) data (m.captureCursor i)) := by
  by_cases hidle : m.active = 0 ∧ m.captureActive = 0 ∧ m.temporalActive = 0
  · rw [matchSpan_idle hidle]
    refine ⟨.refl m, fun i _ ha => ?_, fun i _ ha => ?_⟩
    · rw [hidle.1] at ha
      simp at ha
    · rw [hidle.2.1] at ha
      simp at ha
  rw [matchSpan_eq hdata hidle]
  dsimp only
  obtain ⟨tfailed, text, et⟩ := temporalRangeBytes_eq m data
  rw [et]
  set m1 : Match := { m with temporalFailed := tfailed, temporalMatch := text } with hm1
  have hs1 : Same m m1 := ⟨rfl, rfl, rfl, rfl, rfl, rfl, rfl⟩
  have h1 := h.same hs1
  have hk1 : m1.key = true := hk
  rw [spanAscii_key hk1]
  have bulk : (∀ i < ctx.n, m1.active.has i = true → m1.failed.has i = false → Bulk ctx m1 i) →
      Same m (spanRest ctx m1 (spanContains ctx m1) (spanIcontains ctx m1 data) data) ∧
      (∀ i < ctx.n, m.active.has i = true →
        Agree ((spanRest ctx m1 (spanContains ctx m1) (spanIcontains ctx m1 data) data).cursor i)
          (feedBytes (cursorStep ctx m i) data (m.cursor i))) ∧
      ∀ i < ctx.captureKeys.length, m.captureActive.has i = true →
        Agree ((spanRest ctx m1 (spanContains ctx m1) (spanIcontains ctx m1 data) data).captureCursor i)
          (feedBytes (captureStep ctx m i) data (m.captureCursor i)) := by
    intro hb
    obtain ⟨pos, failed, cpos, cfailed, e, hout, hin, hc⟩ := spanRest_bulk hdata h1.terms h1.captures
      (spanContains ctx m1) (spanIcontains ctx m1 data) fun i hi ha hf _ => hb i hi ha hf
    rw [e]
    refine ⟨⟨rfl, rfl, rfl, rfl, rfl, rfl, rfl⟩, fun i hi ha => ?_, hc⟩
    cases hf : m.failed.has i with
    | true =>
      obtain ⟨e1, e2⟩ := hout i hi ha (Or.inl hf)
      have hcur : ({ m1 with pos := pos, failed := failed, capturePos := cpos
                             captureFailed := cfailed } : Match).cursor i = m.cursor i := by
        simp only [Match.cursor, e1, e2]
        rfl
      rw [hcur]
      exact Agree.frozen (.refl _) hf _ _
    | false => exact hin i hi ha hf (by simp [spanSkips, hk1])
  by_cases hesc : ∃ i < ctx.n, m1.active.has i = true ∧ m1.failed.has i = false ∧ ¬ Bulk ctx m1 i
  · -- one active term has an escape: the loop returns from its byte loop
    obtain ⟨i, hi, ha, hf, hnb⟩ := hesc
    obtain ⟨hcap, hnone⟩ := h1.cut hk1 i hi ha hnb
    have hact : m1.active ≠ 0 := Mask.ne_zero_iff.mpr ⟨i, ha⟩
    have hi0 : spanIcontains ctx m1 data = 0 := by
      simp only [spanIcontains, hk1, if_true]
    rw [hi0]
    obtain ⟨m', e, hs, hcur, hother⟩ := matchSpanTerms_escaped h.terms hdata hi (spanContains ctx m1)
      (List.range ctx.n) m1 (List.mem_range.mpr hi) List.nodup_range (fun j hj => List.mem_range.mp hj)
      hk1 ha hf hnb hnone
    have hrest : spanRest ctx m1 (spanContains ctx m1) 0 data = m' := by
      unfold spanRest
      rw [if_pos hact, e]
      rfl
    rw [hrest]
    refine ⟨hs1.trans hs, fun j hj haj => ?_, fun j _ haj => ?_⟩
    · by_cases hji : j = i
      · subst hji
        exact hcur
      · refine .of_failed (hother j hj haj hji) ?_
        obtain ⟨c, rest, rfl⟩ := List.exists_cons_of_ne_nil hdata
        refine feed_first_failed rest ?_
        rw [cursorStep_key hk]
        have : keyTarget ctx m j = none := hnone j hj haj hji
        rw [this]
    · rw [show m.captureActive = 0 from hcap] at haj
      simp at haj
  · refine bulk fun i hi ha hf => ?_
    by_contra hnb
    exact hesc ⟨i, hi, ha, hf, hnb⟩

/-- **A run of a value** reaches every term as its bytes would, lowered where the term is. -/
theorem matchSpan_value {m : Match} {data : Bytes} (h : Cuttable ctx m) (hk : m.key = false)
    (hdata : data ≠ []) (hplain : ∀ c ∈ data, c < 0x80) :
    Same m (matchSpan ctx m data) ∧
      (∀ i < ctx.n, m.active.has i = true →
        Agree ((matchSpan ctx m data).cursor i)
          (feedBytes (textStep ctx m i) (heard ctx m i (plainStr data)) (m.cursor i))) ∧
      (matchSpan ctx m data).caseNeed = m.caseNeed ∧
      (matchSpan ctx m data).temporalFailed = (temporalRangeBytes m data).temporalFailed ∧
      (matchSpan ctx m data).temporalMatch = (temporalRangeBytes m data).temporalMatch := by
  by_cases hidle : m.active = 0 ∧ m.captureActive = 0 ∧ m.temporalActive = 0
  · rw [matchSpan_idle hidle, temporalRangeBytes, if_pos (Or.inl hidle.2.2)]
    refine ⟨.refl m, fun i _ ha => ?_, rfl, rfl, rfl⟩
    rw [hidle.1] at ha
    simp at ha
  rw [matchSpan_eq hdata hidle]
  dsimp only
  obtain ⟨tfailed, text, et⟩ := temporalRangeBytes_eq m data
  rw [et]
  set m1 : Match := { m with temporalFailed := tfailed, temporalMatch := text } with hm1
  have hs1 : Same m m1 := ⟨rfl, rfl, rfl, rfl, rfl, rfl, rfl⟩
  have h1 := h.same hs1
  have hk1 : m1.key = false := hk
  have hs2 := spanAscii_same ctx m1 (spanContains ctx m1) data
  have hascii := fun i hi ha => cursor_spanAscii (i := i) h.terms hdata hk1 hi ha
    (h1.icontains_has hi ha)
  have hskip : ∀ i < ctx.n, m1.active.has i = true →
      spanSkips (spanAscii ctx m1 (spanContains ctx m1) data) (spanContains ctx m1) i =
        (cased ctx m i || (!m.failed.has i && decide ((ctx.term i).kind = .contains))) := by
    intro i hi ha
    rw [spanSkips, hs2.key, hk1, hs2.icontains, h1.icontains_has hi ha, spanContains_has h.terms hk1 hi ha
      (h1.icontains_has hi ha)]
    rfl
  obtain ⟨apos, afailed, acontains, ea⟩ := spanAscii_eq ctx hk1 (spanContains ctx m1) data
  generalize hA : spanAscii ctx m1 (spanContains ctx m1) data = A at *
  -- a needle that has not failed behind the run had not failed before
  have hneedle : ∀ i < ctx.n, m1.active.has i = true → cased ctx m i = false →
      (ctx.term i).kind = .contains → A.failed.has i = false → m.failed.has i = false := by
    intro i hi ha hc hkind hf
    have := hascii i hi ha
    rw [if_neg (by rw [cased_same hs1, hc]; simp), if_pos hkind] at this
    cases hmf : m.failed.has i with
    | false => rfl
    | true =>
      have hbad := feedBytes_failed (needleStep (ctx.term i)) data (s := m1.cursor i) hmf
      have : A.failed.has i = true := this.1.trans hbad
      rw [hf] at this
      cases this
  obtain ⟨pos, failed, cpos, cfailed, e, hout, hin, -⟩ := spanRest_bulk (m := A) hdata h.terms
    h.captures (spanContains ctx m1) (spanIcontains ctx m1 data) (by
      intro i hi ha hf hs
      rw [hs2.active] at ha
      rw [hskip i hi ha, Bool.or_eq_false_iff] at hs
      rw [bulk_same hs2, Bulk, if_neg (by simp [hk1])]
      have hc : ¬ (ctx.term i).kind = .contains := by
        intro hkind
        have := hs.2
        rw [hneedle i hi ha hs.1 hkind hf] at this
        simp [hkind] at this
      have hcs := hs.1
      simp only [cased, hk, Bool.not_false, Bool.true_and, Bool.or_eq_false_iff,
        decide_eq_false_iff_not] at hcs
      exact ⟨hc, hcs.1, hcs.2⟩)
  rw [e, ea]
  refine ⟨⟨rfl, rfl, rfl, rfl, rfl, rfl, rfl⟩, fun i hi ha => ?_, rfl, rfl, rfl⟩
  have haA : A.active.has i = true := by rw [hs2.active]; exact ha
  have hai := hascii i hi ha
  rw [cased_same hs1] at hai
  -- what the bulk loop leaves of a term it passes over
  have hkeep : A.failed.has i = true ∨ spanSkips A (spanContains ctx m1) i = true →
      ({ pos := pos i, failed := Mask.has failed i, contains := acontains.has i } : ByteStep) =
        A.cursor i := by
    intro hor
    obtain ⟨e1, e2⟩ := hout i hi haA hor
    rw [e1, e2, ea]
    rfl
  show Agree { pos := pos i, failed := Mask.has failed i, contains := acontains.has i } _
  cases hc : cased ctx m i with
  | true =>
    rw [hc, if_pos rfl] at hai
    rw [hkeep (Or.inr (by rw [hskip i hi ha, hc]; rfl)), textStep, heard, hc, if_pos rfl, if_pos rfl,
      lower_plainStr hplain]
    exact hai
  | false =>
    rw [hc, if_neg (by simp)] at hai
    rw [textStep, heard, hc, if_neg (by simp), if_neg (by simp), text_plainStr]
    by_cases hkind : (ctx.term i).kind = .contains
    · rw [if_pos hkind] at hai
      have hstep : cursorStep ctx m i = needleStep (ctx.term i) := by
        funext p c
        rw [cursorStep_value hk, if_pos hkind]
      rw [hkeep, hstep]
      · exact hai
      · cases hf : A.failed.has i with
        | true => exact Or.inl rfl
        | false => exact Or.inr (by rw [hskip i hi ha, hneedle i hi ha hc hkind hf]; simp [hkind])
    · rw [if_neg hkind] at hai
      cases hf : A.failed.has i with
      | true =>
        rw [hkeep (Or.inl hf)]
        exact hai.frozen hf _ _
      | false =>
        have hcur : A.cursor i = m.cursor i := hai.2 (hai.1.symm.trans hf)
        have := hin i hi haA hf (by rw [hskip i hi ha, hc]; simp [hkind])
        rw [hcur, cursorStep_same hs2, cursorStep_same hs1] at this
        rw [ea] at this
        exact this

end Lql.Scan
