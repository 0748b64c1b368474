import Mathlib.Data.List.TakeWhile
import Lql.Temporal

/-!
# The fast path of the literal parser

The parser reads a literal twice where the fast path fails: at fixed offsets, and with a cursor. What the fast path
accepts the cursor reads as the same value, so the fast path never decides anything.
-/

namespace Lql.Temporal

/-! ## C strings -/

/-- A string without a NUL is read to its end. -/
theorem cstr_whole {text : Bytes} (h : 0 ∉ text) : cstr text = text := by
  rw [cstr, List.takeWhile_eq_self_iff]
  intro c hc
  rw [decide_eq_true_eq]
  rintro rfl
  exact h hc

theorem cstr_no_nul (text : Bytes) : 0 ∉ cstr text := by
  intro h
  have := List.mem_takeWhile_imp h
  simp at this

/-! ## The parts of a literal -/

/-- The date at the front: year, month, day and what is behind. -/
def dateAt (p : Bytes) : Option ((Nat × Nat × Nat) × Bytes) :=
  (parseNDigits 4 0 p).bind fun y => (expectChar chMinus y.2).bind fun p => (parseNDigits 2 0 p).bind fun mo =>
    (expectChar chMinus mo.2).bind fun p => (parseNDigits 2 0 p).bind fun d =>
      if validYmd y.1 mo.1 d.1 then some ((y.1, mo.1, d.1), d.2) else none

/-- The time of day at the front: hour, minute, second and what is behind. -/
def timeAt (p : Bytes) : Option ((Nat × Nat × Nat) × Bytes) :=
  (parseNDigits 2 0 p).bind fun h => (expectChar chColon h.2).bind fun p => (parseNDigits 2 0 p).bind fun mi =>
    (expectChar chColon mi.2).bind fun p => (parseNDigits 2 0 p).bind fun s =>
      if h.1 > 23 || mi.1 > 59 || s.1 > 59 then none else some ((h.1, mi.1, s.1), s.2)

/-- The nanoseconds at the front, if there is a fraction. -/
def nanosAt (p : Bytes) : Option (Nat × Bytes) :=
  if charAt p 0 = chDot then fraction (p.drop 1) else some (0, p)

/-- The offset in seconds that hours and minutes stand for behind a sign. -/
def offsetOf (sign : UInt8) (h m : Nat) : Int :=
  if sign = chMinus then -((h * 3600 + m * 60 : Nat) : Int) else ((h * 3600 + m * 60 : Nat) : Int)

/-- The offset at the front. -/
def zoneAt (allowNaive : Bool) (p : Bytes) : Option (Int × Bytes) :=
  if charAt p 0 = 0x5a then some (0, p.drop 1)
  else if charAt p 0 = chPlus || charAt p 0 = chMinus then
    (parseNDigits 2 0 (p.drop 1)).bind fun h => (expectChar chColon h.2).bind fun q => (parseNDigits 2 0 q).bind fun m =>
      if h.1 > 23 || m.1 > 59 then none else some (offsetOf (charAt p 0) h.1 m.1, m.2)
  else if allowNaive then some (0, p)
  else none

/-- What stands behind the date. -/
def restAt (allowDateOnly allowNaive allowOuterSpace : Bool) (y mo d : Nat) : Bytes → Option Temporal
  | [] => if allowDateOnly then some (dateValue y mo d) else none
  | c :: p =>
    if c ≠ 0x54 then none
    else (timeAt p).bind fun t => (nanosAt t.2).bind fun n => (zoneAt allowNaive n.2).bind fun z =>
      if !allowOuterSpace && isSpace (charAt z.2 0) then none
      else if !(z.2.dropWhile isSpace).isEmpty then none
      else some (dateTimeValue y mo d t.1.1 t.1.2.1 t.1.2.2 n.1 z.1)

theorem dateAt_bind (p : Bytes) (f : (Nat × Nat × Nat) × Bytes → Option Temporal) :
    (dateAt p).bind f =
      (parseNDigits 4 0 p).bind fun y => (expectChar chMinus y.2).bind fun p => (parseNDigits 2 0 p).bind fun mo =>
        (expectChar chMinus mo.2).bind fun p => (parseNDigits 2 0 p).bind fun d =>
          if validYmd y.1 mo.1 d.1 then f ((y.1, mo.1, d.1), d.2) else none := by
  rw [dateAt, Option.bind_assoc]
  refine Option.bind_congr fun y _ => ?_
  rw [Option.bind_assoc]
  refine Option.bind_congr fun p _ => ?_
  rw [Option.bind_assoc]
  refine Option.bind_congr fun mo _ => ?_
  rw [Option.bind_assoc]
  refine Option.bind_congr fun p _ => ?_
  rw [Option.bind_assoc]
  refine Option.bind_congr fun d _ => ?_
  split <;> rfl

theorem timeAt_bind (p : Bytes) (f : (Nat × Nat × Nat) × Bytes → Option Temporal) :
    (timeAt p).bind f =
      (parseNDigits 2 0 p).bind fun h => (expectChar chColon h.2).bind fun p => (parseNDigits 2 0 p).bind fun mi =>
        (expectChar chColon mi.2).bind fun p => (parseNDigits 2 0 p).bind fun s =>
          if h.1 > 23 || mi.1 > 59 || s.1 > 59 then none else f ((h.1, mi.1, s.1), s.2) := by
  rw [timeAt, Option.bind_assoc]
  refine Option.bind_congr fun h _ => ?_
  rw [Option.bind_assoc]
  refine Option.bind_congr fun p _ => ?_
  rw [Option.bind_assoc]
  refine Option.bind_congr fun mi _ => ?_
  rw [Option.bind_assoc]
  refine Option.bind_congr fun p _ => ?_
  rw [Option.bind_assoc]
  refine Option.bind_congr fun s _ => ?_
  split <;> rfl

theorem zoneAt_bind (allowNaive : Bool) (p : Bytes) (f : Int × Bytes → Option Temporal) :
    (zoneAt allowNaive p).bind f =
      if charAt p 0 = 0x5a then f (0, p.drop 1)
      else if charAt p 0 = chPlus || charAt p 0 = chMinus then
        (parseNDigits 2 0 (p.drop 1)).bind fun h => (expectChar chColon h.2).bind fun q =>
          (parseNDigits 2 0 q).bind fun m =>
            if h.1 > 23 || m.1 > 59 then none else f (offsetOf (charAt p 0) h.1 m.1, m.2)
      else if allowNaive then f (0, p)
      else none := by
  rw [zoneAt]
  split
  · rfl
  · split
    · rw [Option.bind_assoc]
      refine Option.bind_congr fun h _ => ?_
      rw [Option.bind_assoc]
      refine Option.bind_congr fun q _ => ?_
      rw [Option.bind_assoc]
      refine Option.bind_congr fun m _ => ?_
      split <;> rfl
    · split <;> rfl

/-- The cursor parser reads the parts one after the other. -/
theorem parseTemporalSlow_eq (raw : Bytes) (allowDateOnly allowNaive allowOuterSpace : Bool) :
    parseTemporalSlow raw allowDateOnly allowNaive allowOuterSpace =
      if !allowOuterSpace && isSpace (charAt raw 0) then none
      else (dateAt (raw.dropWhile isSpace)).bind fun d =>
        if isSpace (charAt d.2 0) && !(allowOuterSpace && (d.2.dropWhile isSpace).isEmpty) then none
        else restAt allowDateOnly allowNaive allowOuterSpace d.1.1 d.1.2.1 d.1.2.2 (d.2.dropWhile isSpace) := by
  unfold parseTemporalSlow
  dsimp only [Option.bind_eq_bind, Option.bind_none]
  congr 1
  rw [dateAt_bind]
  refine Option.bind_congr fun y _ => Option.bind_congr fun p _ => Option.bind_congr fun mo _ =>
    Option.bind_congr fun p _ => Option.bind_congr fun d _ => ?_
  cases validYmd y.1 mo.1 d.1 with
  | false => rfl
  | true =>
    rw [if_neg (by decide), if_pos rfl]
    congr 1
    cases d.2.dropWhile isSpace with
    | nil => rfl
    | cons c p =>
      rw [restAt, timeAt_bind]
      change (if c ≠ 0x54 then none else _) = _
      congr 1
      refine Option.bind_congr fun h _ => Option.bind_congr fun p _ => Option.bind_congr fun mi _ =>
        Option.bind_congr fun p _ => Option.bind_congr fun s _ => ?_
      by_cases hrange : (h.1 > 23 || mi.1 > 59 || s.1 > 59) = true
      · rw [if_pos hrange, if_pos hrange]
      · rw [if_neg hrange, if_neg hrange, nanosAt]
        by_cases hdot : charAt s.2 0 = chDot
        · rw [if_pos hdot, if_pos hdot]
          refine Option.bind_congr fun n _ => ?_
          rw [zoneAt_bind]
          rfl
        · rw [if_neg hdot, if_neg hdot]
          refine Eq.trans ?_ (zoneAt_bind _ _ _).symm
          rfl

/-! ## Fixed offsets -/

theorem digit_ne_zero {c : UInt8} (h : isDigit c = true) : c ≠ 0 := by
  rintro rfl
  cases h

/-- What stands at an offset stands at the front of what is left from there. -/
theorem drop_eq_cons {p : Bytes} {k : Nat} {c : UInt8} (h : charAt p k = c) (hc : c ≠ 0) :
    p.drop k = c :: p.drop (k + 1) := by
  rw [charAt, List.getD_eq_getElem?_getD] at h
  cases hk : p[k]? with
  | none =>
    rw [hk] at h
    exact absurd h.symm hc
  | some x =>
    rw [hk] at h
    obtain ⟨hlt, hx⟩ := List.getElem?_eq_some_iff.mp hk
    rw [List.drop_eq_getElem_cons hlt, hx]
    exact congrArg (· :: _) h

theorem drop_digit {p : Bytes} {k : Nat} (h : isDigit (charAt p k) = true) :
    p.drop k = charAt p k :: p.drop (k + 1) :=
  drop_eq_cons rfl (digit_ne_zero h)

theorem expectChar_drop {p : Bytes} {k : Nat} {c : UInt8} (h : charAt p k = c) (hc : c ≠ 0) :
    expectChar c (p.drop k) = some (p.drop (k + 1)) := by
  rw [drop_eq_cons h hc, expectChar, if_pos rfl]

theorem parseNDigits_digit (n v : Nat) {c : UInt8} (rest : Bytes) (h : isDigit c = true) :
    parseNDigits (n + 1) v (c :: rest) = parseNDigits n (v * 10 + digitVal c) rest := by
  rw [parseNDigits]
  exact if_pos h

theorem parse2At_cursor {p : Bytes} {k v : Nat} (h : parse2At p k = some v) :
    parseNDigits 2 0 (p.drop k) = some (v, p.drop (k + 2)) := by
  rw [parse2At] at h
  split at h
  · next hdigits =>
    rw [Bool.and_eq_true] at hdigits
    cases h
    rw [drop_digit hdigits.1, parseNDigits_digit _ _ _ hdigits.1, drop_digit hdigits.2,
      parseNDigits_digit _ _ _ hdigits.2, parseNDigits, Nat.zero_mul, Nat.zero_add]
  · cases h

theorem parse4At_cursor {p : Bytes} {k v : Nat} (h : parse4At p k = some v) :
    parseNDigits 4 0 (p.drop k) = some (v, p.drop (k + 4)) := by
  rw [parse4At] at h
  split at h
  · next hdigits =>
    simp only [Bool.and_eq_true, and_assoc] at hdigits
    obtain ⟨h0, h1, h2, h3⟩ := hdigits
    cases h
    rw [drop_digit h0, parseNDigits_digit _ _ _ h0, drop_digit h1, parseNDigits_digit _ _ _ h1, drop_digit h2,
      parseNDigits_digit _ _ _ h2, drop_digit h3, parseNDigits_digit _ _ _ h3, parseNDigits, Nat.zero_mul,
      Nat.zero_add]
  · cases h

/-- A byte string without a NUL ends where a NUL is read. -/
theorem eq_nil_of_charAt {p : Bytes} (hp : 0 ∉ p) (h : charAt p 0 = 0) : p = [] := by
  cases p with
  | nil => rfl
  | cons c p => exact absurd (List.mem_cons_self ..) (h ▸ hp)

theorem fractionLoop_suffix (p : Bytes) (nanos digits : Nat) : (fractionLoop p nanos digits).2.2 <:+ p := by
  induction p generalizing nanos digits with
  | nil => exact List.suffix_refl _
  | cons c p ih =>
    rw [fractionLoop]
    split
    · exact (ih _ _).trans (List.suffix_cons _ _)
    · exact List.suffix_refl _

theorem nanosAt_suffix {p : Bytes} {r : Nat × Bytes} (h : nanosAt p = some r) : r.2 <:+ p := by
  rw [nanosAt] at h
  split at h
  · rw [fraction] at h
    split at h
    · cases h
      exact (fractionLoop_suffix _ _ _).trans (List.drop_suffix _ _)
    · cases h
  · cases h
    exact List.suffix_refl _

theorem isSpace_digit {c : UInt8} (h : isDigit c = true) : isSpace c = false := by
  simp only [isDigit, isSpace, chZero, chNine, Bool.and_eq_true, decide_eq_true_eq, Bool.or_eq_false_iff,
    decide_eq_false_iff_not, Bool.and_eq_false_iff, UInt8.le_iff_toNat_le, ← UInt8.toNat_inj, UInt8.reduceToNat] at *
  omega

/-- The offset at the front, read at fixed offsets. -/
def zoneFixed (allowNaive : Bool) (p : Bytes) : Option (Int × Bytes) :=
  if charAt p 0 = 0x5a then some (0, p.drop 1)
  else if charAt p 0 = chPlus || charAt p 0 = chMinus then
    if (p.drop 1).length < 5 then none
    else (parse2At (p.drop 1) 0).bind fun h =>
      if charAt (p.drop 1) 2 ≠ chColon then none
      else (parse2At (p.drop 1) 3).bind fun m =>
        if h > 23 || m > 59 then none else some (offsetOf (charAt p 0) h m, (p.drop 1).drop 5)
  else if allowNaive then some (0, p)
  else none

theorem zoneFixed_bind (allowNaive : Bool) (p : Bytes) (f : Int × Bytes → Option Temporal) :
    (zoneFixed allowNaive p).bind f =
      if charAt p 0 = 0x5a then f (0, p.drop 1)
      else if charAt p 0 = chPlus || charAt p 0 = chMinus then
        if (p.drop 1).length < 5 then none
        else (parse2At (p.drop 1) 0).bind fun h =>
          if charAt (p.drop 1) 2 ≠ chColon then none
          else (parse2At (p.drop 1) 3).bind fun m =>
            if h > 23 || m > 59 then none else f (offsetOf (charAt p 0) h m, (p.drop 1).drop 5)
      else if allowNaive then f (0, p)
      else none := by
  rw [zoneFixed]
  split
  · rfl
  · split
    · split
      · rfl
      · rw [Option.bind_assoc]
        refine Option.bind_congr fun h _ => ?_
        split
        · rfl
        · rw [Option.bind_assoc]
          refine Option.bind_congr fun m _ => ?_
          split <;> rfl
    · split <;> rfl

theorem zoneFixed_cursor {allowNaive : Bool} {p : Bytes} {z : Int × Bytes} (h : zoneFixed allowNaive p = some z) :
    zoneAt allowNaive p = some z ∧ z.2 <:+ p := by
  rw [zoneFixed] at h
  rw [zoneAt]
  split
  · next hz =>
    rw [if_pos hz] at h
    cases h
    exact ⟨rfl, List.drop_suffix _ _⟩
  · next hz =>
    rw [if_neg hz] at h
    split
    · next hsign =>
      rw [if_pos hsign] at h
      simp only [Option.ite_none_left_eq_some, Option.bind_eq_some_iff, ne_eq, Decidable.not_not, Option.some.injEq] at h
      obtain ⟨-, hh, h0, hcolon, m, h3, hrange, rfl⟩ := h
      have hfirst := parse2At_cursor h0
      have hsecond := parse2At_cursor h3
      rw [List.drop_zero] at hfirst
      rw [hfirst, Option.bind_some, expectChar_drop hcolon (by decide), Option.bind_some, hsecond, Option.bind_some,
        if_neg hrange]
      exact ⟨rfl, (List.drop_suffix _ _).trans (List.drop_suffix _ _)⟩
    · next hsign =>
      rw [if_neg hsign] at h
      split
      · next hn =>
        rw [if_pos hn] at h
        cases h
        exact ⟨rfl, List.suffix_refl _⟩
      · next hn =>
        rw [if_neg hn] at h
        cases h

/-- What stands behind the date, read at fixed offsets. -/
def restFixed (allowNaive : Bool) (raw : Bytes) (y mo d : Nat) : Option Temporal :=
  (parse2At raw 11).bind fun h =>
    if charAt raw 13 ≠ chColon then none
    else (parse2At raw 14).bind fun mi =>
      if charAt raw 16 ≠ chColon then none
      else (parse2At raw 17).bind fun s =>
        if h > 23 || mi > 59 || s > 59 then none
        else (nanosAt (raw.drop 19)).bind fun n => (zoneFixed allowNaive n.2).bind fun z =>
          if charAt z.2 0 ≠ 0 then none else some (dateTimeValue y mo d h mi s n.1 z.1)

theorem parseTemporalFast_eq (raw : Bytes) (allowDateOnly allowNaive : Bool) :
    parseTemporalFast raw allowDateOnly allowNaive =
      if raw.length ≠ 10 && raw.length < 19 then none
      else (parse4At raw 0).bind fun y =>
        if charAt raw 4 ≠ chMinus then none
        else (parse2At raw 5).bind fun mo =>
          if charAt raw 7 ≠ chMinus then none
          else (parse2At raw 8).bind fun d =>
            if !validYmd y mo d then none
            else if charAt raw 10 = 0 then if allowDateOnly then some (dateValue y mo d) else none
            else if charAt raw 10 ≠ 0x54 then none
            else restFixed allowNaive raw y mo d := by
  unfold parseTemporalFast
  dsimp only [Option.bind_eq_bind, Option.bind_none]
  congr 1
  refine Option.bind_congr fun y _ => ?_
  congr 1
  refine Option.bind_congr fun mo _ => ?_
  congr 1
  refine Option.bind_congr fun d _ => ?_
  congr 3
  rw [restFixed]
  refine Option.bind_congr fun h _ => ?_
  congr 1
  refine Option.bind_congr fun mi _ => ?_
  congr 1
  refine Option.bind_congr fun s _ => ?_
  congr 1
  rw [nanosAt]
  by_cases hdot : charAt (raw.drop 19) 0 = chDot
  · rw [if_pos hdot, if_pos hdot]
    refine Option.bind_congr fun n _ => ?_
    rw [zoneFixed_bind]
    rfl
  · rw [if_neg hdot, if_neg hdot]
    simp only [Option.bind_some, zoneFixed_bind]
    rfl

/-- What the fast path accepts the cursor reads as the same value. -/
theorem fast_slow {raw : Bytes} (hraw : 0 ∉ raw) {allowDateOnly allowNaive : Bool} {t : Temporal}
    (h : parseTemporalFast raw allowDateOnly allowNaive = some t) (allowOuterSpace : Bool) :
    parseTemporalSlow raw allowDateOnly allowNaive allowOuterSpace = some t := by
  rw [parseTemporalFast_eq] at h
  simp only [Option.ite_none_left_eq_some, Option.bind_eq_some_iff, ne_eq, Decidable.not_not, Bool.not_eq_true',
    Bool.not_eq_false] at h
  obtain ⟨-, y, hy, hminus, mo, hmo, hminus', d, hd, hvalid, h⟩ := h
  have hdigit : isDigit (charAt raw 0) = true := by
    rw [parse4At] at hy
    split at hy
    · next hdigits =>
      simp only [Bool.and_eq_true, and_assoc] at hdigits
      exact hdigits.1
    · cases hy
  have hspace : raw.dropWhile isSpace = raw := by
    have hcons := drop_digit hdigit
    rw [List.drop_zero] at hcons
    rw [hcons, List.dropWhile_cons_of_neg (by rw [isSpace_digit hdigit]; exact Bool.false_ne_true)]
  have hdate : dateAt raw = some ((y, mo, d), raw.drop 10) := by
    have hyear := parse4At_cursor hy
    rw [List.drop_zero] at hyear
    rw [dateAt, hyear, Option.bind_some, expectChar_drop hminus (by decide), Option.bind_some, parse2At_cursor hmo,
      Option.bind_some, expectChar_drop hminus' (by decide), Option.bind_some, parse2At_cursor hd, Option.bind_some,
      if_pos hvalid]
  have hstart : (!allowOuterSpace && isSpace (charAt raw 0)) = false := by
    rw [isSpace_digit hdigit, Bool.and_false]
  rw [parseTemporalSlow_eq, hstart, if_neg Bool.false_ne_true, hspace, hdate, Option.bind_some]
  by_cases hend : charAt raw 10 = 0
  · have hnil : raw.drop 10 = [] := by
      refine eq_nil_of_charAt (fun hmem => hraw (List.mem_of_mem_drop hmem)) ?_
      rw [← hend, charAt, charAt, List.getD_eq_getElem?_getD, List.getElem?_drop, List.getD_eq_getElem?_getD]
    rw [if_pos hend] at h
    rw [hnil]
    exact h
  · rw [if_neg hend, Option.ite_none_left_eq_some, Decidable.not_not] at h
    obtain ⟨hT, h⟩ := h
    have hcons := drop_eq_cons hT (by decide)
    have hchar : isSpace (charAt (raw.drop 10) 0) = false := by
      rw [hcons]
      rfl
    have hdrop : (raw.drop 10).dropWhile isSpace = 0x54 :: raw.drop 11 := by
      rw [hcons, List.dropWhile_cons_of_neg (by decide)]
    rw [hchar, Bool.false_and, if_neg Bool.false_ne_true, hdrop, restAt, if_neg (fun hne => hne rfl)]
    rw [restFixed] at h
    simp only [Option.ite_none_left_eq_some, Option.bind_eq_some_iff, ne_eq, Decidable.not_not] at h
    obtain ⟨hh, hhour, hcolon, mi, hmi, hcolon', sec, hsec, hrange, n, hn, z, hz, hzend, ht⟩ := h
    obtain ⟨hzone, hsuffix⟩ := zoneFixed_cursor hz
    have htime : timeAt (raw.drop 11) = some ((hh, mi, sec), raw.drop 19) := by
      rw [timeAt, parse2At_cursor hhour, Option.bind_some, expectChar_drop hcolon (by decide), Option.bind_some,
        parse2At_cursor hmi, Option.bind_some, expectChar_drop hcolon' (by decide), Option.bind_some,
        parse2At_cursor hsec, Option.bind_some, if_neg hrange]
    have hznil : z.2 = [] := eq_nil_of_charAt (fun hmem => hraw (List.mem_of_mem_drop
      ((nanosAt_suffix hn).subset (hsuffix.subset hmem)))) hzend
    rw [htime, Option.bind_some, hn, Option.bind_some, hzone, Option.bind_some, hznil]
    rw [if_neg (by rw [Bool.and_eq_true]; exact fun hb => nomatch hb.2), if_neg (by decide)]
    exact ht

/-- **The fast path decides nothing**: the parser answers for every C string, under every setting of its options, as it
would without it. -/
theorem fast_path_agrees (raw : Bytes) (allowDateOnly allowNaive allowOuterSpace : Bool) :
    parseTemporalLiteralWithOptions (cstr raw) allowDateOnly allowNaive allowOuterSpace =
      parseTemporalSlow (cstr raw) allowDateOnly allowNaive allowOuterSpace := by
  rw [parseTemporalLiteralWithOptions]
  cases hfast : parseTemporalFast (cstr raw) allowDateOnly allowNaive with
  | none => rfl
  | some t => exact (fast_slow (cstr_no_nul raw) hfast allowOuterSpace).symm

end Lql.Temporal
