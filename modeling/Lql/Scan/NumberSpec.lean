import Lql.Scan.NumberRange
import Lql.Json.Local

/-!
# What a number term makes of a token

The bytes of a number reach the terms one by one, through a buffer that grows. Whether the
token outgrew the buffer's limit is all that its way through the buffer leaves behind: the
rest of the answer is a function of the token and the term.
-/

namespace Lql.Scan

open Lib Json

/-! ## Tokens are JSON numbers -/

theorem isDigit_takeWhile (p : Bytes) : ∀ c ∈ p.takeWhile isDigit, isDigit c = true :=
  fun _ hc => List.mem_takeWhile_imp hc

theorem takeWhile_append_stop {p q : Bytes} (hp : ∀ c ∈ p, isDigit c = true)
    (hq : ∀ c, q.head? = some c → isDigit c = false) :
    (p ++ q).takeWhile isDigit = p ∧ (p ++ q).dropWhile isDigit = q := by
  induction p with
  | nil =>
    cases q with
    | nil => exact ⟨rfl, rfl⟩
    | cons c q =>
      have hc : ¬ isDigit c = true := by rw [hq c rfl]; simp
      exact ⟨List.takeWhile_cons_of_neg hc, List.dropWhile_cons_of_neg hc⟩
  | cons c p ih =>
    have hc := hp c List.mem_cons_self
    obtain ⟨h1, h2⟩ := ih fun d hd => hp d (List.mem_cons_of_mem _ hd)
    rw [List.cons_append, List.takeWhile_cons_of_pos hc, List.dropWhile_cons_of_pos hc, h1, h2]
    exact ⟨rfl, rfl⟩

/-- The parts of a number token, as the parser reads them. -/
structure NumberParts (sign int fraction exponent : Bytes) : Prop where
  sign : sign = [] ∨ sign = [chMinus]
  int : int = [chZero] ∨ ∃ c rest, int = c :: rest ∧ isDigit19 c = true ∧ ∀ d ∈ rest, isDigit d = true
  fraction : fraction = [] ∨ ∃ digits, fraction = chDot :: digits ∧ digits ≠ [] ∧
    ∀ d ∈ digits, isDigit d = true
  exponent : exponent = [] ∨ ∃ e sign digits, exponent = e :: (sign ++ digits) ∧
    (e = chLowerE ∨ e = chUpperE) ∧ (sign = [] ∨ sign = [chPlus] ∨ sign = [chMinus]) ∧
    digits ≠ [] ∧ ∀ d ∈ digits, isDigit d = true

theorem digits1P_some {f f' : Flat} {digits : Bytes} (h : digits1P f = some (digits, f')) :
    digits ≠ [] ∧ ∀ d ∈ digits, isDigit d = true := by
  obtain ⟨v, f1, h1, h2⟩ := bind_eq_some.mp h
  cases h1
  cases hc : f.rest.head? with
  | none => rw [hc] at h2; cases h2
  | some c =>
    rw [hc] at h2
    dsimp only at h2
    split at h2
    · next hd =>
      cases h2
      obtain ⟨rest, hr⟩ : ∃ rest, f.rest = c :: rest := by
        cases hr : f.rest with
        | nil => rw [hr] at hc; cases hc
        | cons d rest => rw [hr] at hc; cases hc; exact ⟨rest, rfl⟩
      refine ⟨?_, isDigit_takeWhile _⟩
      rw [hr, List.takeWhile_cons_of_pos hd]
      exact List.cons_ne_nil _ _
    · cases h2

theorem signP_some {f f' : Flat} {sign : Bytes} (h : signP f = some (sign, f')) :
    sign = [] ∨ sign = [chMinus] := by
  obtain ⟨v, f1, h1, h2⟩ := bind_eq_some.mp h
  split at h2
  · obtain ⟨_, _, -, h3⟩ := bind_eq_some.mp h2
    cases h3
    exact Or.inr rfl
  · cases h2
    exact Or.inl rfl

theorem integerP_some {f f' : Flat} {int : Bytes} (h : integerP f = some (int, f')) :
    int = [chZero] ∨ ∃ c rest, int = c :: rest ∧ isDigit19 c = true ∧ ∀ d ∈ rest, isDigit d = true := by
  obtain ⟨v, f1, h1, h2⟩ := bind_eq_some.mp h
  cases h1
  cases hc : f.rest.head? with
  | none => rw [hc] at h2; cases h2
  | some c =>
    rw [hc] at h2
    dsimp only at h2
    split at h2
    · next hz =>
      obtain ⟨_, _, -, h3⟩ := bind_eq_some.mp h2
      cases h3
      exact Or.inl (by rw [hz])
    split at h2
    · next hd =>
      cases h2
      cases hr : f.rest with
      | nil => rw [hr] at hc; cases hc
      | cons d rest =>
        rw [hr] at hc
        cases hc
        have hdig : isDigit c = true := isDigit_of_isDigit19 hd
        exact Or.inr ⟨c, rest.takeWhile isDigit, List.takeWhile_cons_of_pos hdig, hd,
          isDigit_takeWhile _⟩
    · cases h2

theorem fractionP_some {f f' : Flat} {fraction : Bytes} (h : fractionP f = some (fraction, f')) :
    fraction = [] ∨ ∃ digits, fraction = chDot :: digits ∧ digits ≠ [] ∧
      ∀ d ∈ digits, isDigit d = true := by
  obtain ⟨v, f1, h1, h2⟩ := bind_eq_some.mp h
  split at h2
  · obtain ⟨_, f2, -, h3⟩ := bind_eq_some.mp h2
    obtain ⟨digits, f3, h4, h5⟩ := bind_eq_some.mp h3
    cases h5
    exact Or.inr ⟨digits, rfl, digits1P_some h4⟩
  · cases h2
    exact Or.inl rfl

theorem exponentP_some {f f' : Flat} {exponent : Bytes} (h : exponentP f = some (exponent, f')) :
    exponent = [] ∨ ∃ e sign digits, exponent = e :: (sign ++ digits) ∧
      (e = chLowerE ∨ e = chUpperE) ∧ (sign = [] ∨ sign = [chPlus] ∨ sign = [chMinus]) ∧
      digits ≠ [] ∧ ∀ d ∈ digits, isDigit d = true := by
  obtain ⟨v, f1, h1, h2⟩ := bind_eq_some.mp h
  cases h1
  cases hc : f.rest.head? with
  | none =>
    rw [hc] at h2
    cases h2
    exact Or.inl rfl
  | some c =>
    rw [hc] at h2
    dsimp only at h2
    split at h2
    · next he =>
      obtain ⟨_, f2, -, h3⟩ := bind_eq_some.mp h2
      obtain ⟨sign, f3, h4, h5⟩ := bind_eq_some.mp h3
      obtain ⟨digits, f4, h6, h7⟩ := bind_eq_some.mp h5
      cases h7
      refine Or.inr ⟨c, sign, digits, rfl, he, ?_, digits1P_some h6⟩
      obtain ⟨v, f5, h8, h9⟩ := bind_eq_some.mp h4
      cases h8
      cases hs : f2.rest.head? with
      | none =>
        rw [hs] at h9
        cases h9
        exact Or.inl rfl
      | some d =>
        rw [hs] at h9
        dsimp only at h9
        split at h9
        · next hsign =>
          obtain ⟨_, _, -, h10⟩ := bind_eq_some.mp h9
          cases h10
          rcases hsign with rfl | rfl
          · exact Or.inr (Or.inl rfl)
          · exact Or.inr (Or.inr rfl)
        · cases h9
          exact Or.inl rfl
    · cases h2
      exact Or.inl rfl

theorem numberP_parts {f f' : Flat} {token : Bytes} (h : numberP f = some (token, f')) :
    ∃ sign int fraction exponent, token = sign ++ int ++ fraction ++ exponent ∧
      NumberParts sign int fraction exponent := by
  obtain ⟨sign, f1, h1, h⟩ := bind_eq_some.mp h
  obtain ⟨int, f2, h2, h⟩ := bind_eq_some.mp h
  obtain ⟨fraction, f3, h3, h⟩ := bind_eq_some.mp h
  obtain ⟨exponent, f4, h4, h⟩ := bind_eq_some.mp h
  cases h
  exact ⟨sign, int, fraction, exponent, rfl, signP_some h1, integerP_some h2, fractionP_some h3,
    exponentP_some h4⟩

section Parts

variable {sign int fraction exponent : Bytes}

theorem NumberParts.exponent_head (h : NumberParts sign int fraction exponent) {c : UInt8}
    (hc : exponent.head? = some c) : c = chLowerE ∨ c = chUpperE := by
  rcases h.exponent with rfl | ⟨e, s, digits, rfl, he, -⟩
  · cases hc
  · cases hc
    exact he

theorem NumberParts.fraction_head (h : NumberParts sign int fraction exponent) {c : UInt8}
    (hc : (fraction ++ exponent).head? = some c) : c = chDot ∨ c = chLowerE ∨ c = chUpperE := by
  rcases h.fraction with rfl | ⟨digits, rfl, -⟩
  · exact Or.inr (h.exponent_head hc)
  · cases hc
    exact Or.inl rfl

theorem stop_not_digit {c : UInt8} (h : c = chDot ∨ c = chLowerE ∨ c = chUpperE) :
    isDigit c = false := by
  rcases h with rfl | rfl | rfl <;> decide

theorem NumberParts.parseInteger (h : NumberParts sign int fraction exponent) :
    Number.parseInteger (int ++ (fraction ++ exponent)) = some (int, fraction ++ exponent) := by
  have hstop : ∀ c, (fraction ++ exponent).head? = some c → isDigit c = false :=
    fun c hc => stop_not_digit (h.fraction_head hc)
  rcases h.int with rfl | ⟨c, rest, rfl, hc, hrest⟩
  · generalize fraction ++ exponent = tail at hstop
    cases tail with
    | nil => rfl
    | cons d tail =>
      have := hstop d rfl
      simp [Number.parseInteger, this]
  · have hne : c ≠ chZero := by
      rintro rfl
      exact absurd hc (by decide)
    obtain ⟨h1, h2⟩ := takeWhile_append_stop hrest hstop
    rw [List.cons_append, Number.parseInteger.eq_def]
    dsimp only
    rw [if_neg hne, if_pos hc, h1, h2]

theorem NumberParts.parseFraction (h : NumberParts sign int fraction exponent) :
    Number.parseFraction (fraction ++ exponent) = some (fraction.tail, exponent) := by
  have hstop : ∀ c, exponent.head? = some c → isDigit c = false :=
    fun c hc => stop_not_digit (Or.inr (h.exponent_head hc))
  rcases h.fraction with rfl | ⟨digits, rfl, hne, hdig⟩
  · cases he : exponent with
    | nil => rfl
    | cons c rest =>
      have hc := h.exponent_head (c := c) (by rw [he]; rfl)
      have hdot : c ≠ chDot := by rcases hc with rfl | rfl <;> decide
      simp [Number.parseFraction, hdot]
  · obtain ⟨h1, h2⟩ := takeWhile_append_stop hdig hstop
    rw [List.cons_append, Number.parseFraction, if_pos rfl, Number.spanDigits, h1, h2]
    simp [hne]

/-- The exponent's digits without leading zeros, and its sign. -/
def exponentDigits (exponent : Bytes) : Bool × Bytes :=
  let digits := (exponent.tail.filter isDigit).dropWhile (· = chZero)
  (if digits = [] then false else exponent.tail.head? = some chMinus, digits)

theorem filter_digits {digits : Bytes} (h : ∀ d ∈ digits, isDigit d = true) :
    digits.filter isDigit = digits := List.filter_eq_self.mpr h

theorem NumberParts.parseExponent (h : NumberParts sign int fraction exponent) :
    Number.parseExponent exponent =
      some ((exponentDigits exponent).1, (exponentDigits exponent).2, []) := by
  rcases h.exponent with rfl | ⟨e, s, digits, rfl, he, hs, hne, hdig⟩
  · rfl
  · obtain ⟨d, ds, rfl⟩ := List.exists_cons_of_ne_nil hne
    have hd := hdig d List.mem_cons_self
    have hplus : d ≠ chPlus := by rintro rfl; exact absurd hd (by decide)
    have hminus : d ≠ chMinus := by rintro rfl; exact absurd hd (by decide)
    obtain ⟨h1, h2⟩ := takeWhile_append_stop (q := []) hdig (by simp)
    rw [List.append_nil] at h1 h2
    have hfilter := filter_digits hdig
    have p1 : isDigit chPlus = false := by decide
    have p2 : isDigit chMinus = false := by decide
    rw [Number.parseExponent, if_pos he]
    rcases hs with rfl | rfl | rfl
    · simp [hplus, hminus, Number.spanDigits, h1, h2, exponentDigits, hfilter]
    · simp [Number.spanDigits, h1, h2, exponentDigits, hfilter, p1]
    · simp [Number.spanDigits, h1, h2, exponentDigits, hfilter, p2]

/-- **A token is the number its parts say.** -/
theorem NumberParts.decimalParse (h : NumberParts sign int fraction exponent) :
    Number.decimalParse (sign ++ int ++ fraction ++ exponent) =
      some (Number.mkDecimal (sign ≠ []) int fraction.tail (exponentDigits exponent).1
        (exponentDigits exponent).2) := by
  have hassoc : sign ++ int ++ fraction ++ exponent = sign ++ (int ++ (fraction ++ exponent)) := by
    simp only [List.append_assoc]
  have hint : (int ++ (fraction ++ exponent)).head? ≠ some chMinus := by
    rcases h.int with rfl | ⟨c, rest, rfl, hc, -⟩
    · intro e
      exact absurd (Option.some.inj e) (by decide)
    · intro e
      cases e
      exact absurd hc (by decide)
  have hneg : decide ((sign ++ (int ++ (fraction ++ exponent))).head? = some chMinus) =
      decide (sign ≠ []) := by
    rcases h.sign with rfl | rfl
    · simpa using hint
    · rfl
  have hbody : (if (sign ++ (int ++ (fraction ++ exponent))).head? = some chMinus then
      (sign ++ (int ++ (fraction ++ exponent))).tail
      else sign ++ (int ++ (fraction ++ exponent))) = int ++ (fraction ++ exponent) := by
    rcases h.sign with rfl | rfl
    · rw [if_neg (by simpa using hint)]
      rfl
    · rfl
  unfold Number.decimalParse
  simp only [hassoc, hbody, h.parseInteger, h.parseFraction, h.parseExponent,
    Option.bind_eq_bind, Option.bind_some, ne_eq, not_true_eq_false, if_false, hneg]

theorem isJson_of_parts (h : NumberParts sign int fraction exponent) :
    Number.isJson (sign ++ int ++ fraction ++ exponent) = true := by
  rw [Number.isJson, h.decimalParse]
  rfl

end Parts

/-- A number the parser has read is one that the comparison reads too. -/
theorem numberP_isJson {f f' : Flat} {token : Bytes} (h : numberP f = some (token, f')) :
    Number.isJson token = true := by
  obtain ⟨sign, int, fraction, exponent, rfl, hp⟩ := numberP_parts h
  exact isJson_of_parts hp

/-! ## The buffer -/

/-- The size that a buffer of size `cap`, full at `k` bytes, is given. -/
def growCap (limit k cap : Nat) : Nat :=
  let grown := if cap * 2 ≤ cap ∨ cap * 2 > limit then limit else cap * 2
  if grown ≤ k + 1 then k + 2 else grown

/-- Whether `left` more bytes behind `k` outgrow the limit, and the size of the buffer then. -/
def growTo (limit : Nat) : Nat → Nat → Nat → Bool × Nat
  | 0, _, cap => (false, cap)
  | left + 1, k, cap =>
    if k + 1 ≥ cap then
      if k + 1 ≥ limit then (true, cap) else growTo limit left (k + 1) (growCap limit k cap)
    else growTo limit left (k + 1) cap

/-- The number after a whole token, as the comparison sees it. -/
def tokenNum (excess : Bool) (token : Bytes) : Num :=
  { token.foldl numberUnsignedByte { unsignedReady := true } with
    token, overflow := excess, summary := Number.summarize token }

/-- The trackers of one term behind some bytes of a token. -/
def tracksRun (t : Term) : Bytes → Number.Summary → Tracks → Tracks
  | [], _, ts => ts
  | c :: rest, summary, ts =>
    tracksRun t rest (Number.summaryByte summary c).1
      (match (Number.summaryByte summary c).2 with
      | none => ts
      | some e => tracksDigit t ts e)

/-- The trackers of one term after a whole token. -/
def tokenTracks (t : Term) (token : Bytes) : Tracks := tracksRun t token {} (tracksStart t)

/-- The token equals the term's literal. -/
def Term.numEqual (t : Term) (excess : Bool) (token : Bytes) : Bool :=
  equalHolds (tokenNum excess token) t (tokenTracks t token) = some true

/-- The token keeps the term's bounds. -/
def Term.numInRange (t : Term) (excess : Bool) (token : Bytes) : Bool :=
  rangeHolds (tokenNum excess token) t (tokenTracks t token) = some true

/-- What the builder of a number term has checked: its literals are JSON numbers. -/
structure Term.NumberOk (t : Term) : Prop where
  value : t.kind = .numberEq → Number.isJson t.value = true
  bounds : t.kind = .numberRange →
    ∀ b, t.rangeGt = some b ∨ t.rangeGte = some b ∨ t.rangeLt = some b ∨ t.rangeLte = some b →
      Number.isJson b.text = true

section Run

variable {ctx : Ctx} {active : Mask}

/-- The running unsigned value looks at nothing else. -/
theorem unsigned_fold : ∀ (token : Bytes) (a b : Num), a.unsigned = b.unsigned →
    a.unsignedReady = b.unsignedReady → a.unsignedOverflow = b.unsignedOverflow →
    (token.foldl numberUnsignedByte a).unsigned = (token.foldl numberUnsignedByte b).unsigned ∧
    (token.foldl numberUnsignedByte a).unsignedReady =
      (token.foldl numberUnsignedByte b).unsignedReady ∧
    (token.foldl numberUnsignedByte a).unsignedOverflow =
      (token.foldl numberUnsignedByte b).unsignedOverflow
  | [], _, _, h1, h2, h3 => ⟨h1, h2, h3⟩
  | c :: token, a, b, h1, h2, h3 => by
    have hstep : (numberUnsignedByte a c).unsigned = (numberUnsignedByte b c).unsigned ∧
        (numberUnsignedByte a c).unsignedReady = (numberUnsignedByte b c).unsignedReady ∧
        (numberUnsignedByte a c).unsignedOverflow = (numberUnsignedByte b c).unsignedOverflow := by
      unfold numberUnsignedByte
      rw [h1, h2, h3]
      split
      · exact ⟨h1, h2, h3⟩
      split
      · split
        · exact ⟨rfl, rfl, rfl⟩
        split
        · exact ⟨rfl, rfl, rfl⟩
        · exact ⟨h1, h2, h3⟩
      · exact ⟨rfl, rfl, rfl⟩
    rw [List.foldl_cons, List.foldl_cons]
    exact unsigned_fold token _ _ hstep.1 hstep.2.1 hstep.2.2

theorem unsignedByte_eq (num : Num) (c : UInt8) :
    numberUnsignedByte num c = { num with
      unsigned := (numberUnsignedByte num c).unsigned
      unsignedReady := (numberUnsignedByte num c).unsignedReady
      unsignedOverflow := (numberUnsignedByte num c).unsignedOverflow } := by
  unfold numberUnsignedByte
  split
  · rfl
  split
  · split
    · rfl
    split <;> rfl
  · rfl

/-- The bytes of a token that go to the summary. -/
theorem summary_fold (ctx : Ctx) : ∀ (token : Bytes) (num : Num),
    ∃ tracks, token.foldl (numberSummaryByte ctx) num =
        { num with summary := token.foldl (fun s c => (Number.summaryByte s c).1) num.summary, tracks } ∧
      ∀ i < ctx.n, num.active.has i = true →
        tracks i = tracksRun (ctx.term i) token num.summary (num.tracks i)
  | [], num => ⟨num.tracks, rfl, fun _ _ _ => rfl⟩
  | c :: token, num => by
    obtain ⟨t1, e1, h1⟩ : ∃ t1, numberSummaryByte ctx num c =
        { num with summary := (Number.summaryByte num.summary c).1, tracks := t1 } ∧
        ∀ i < ctx.n, num.active.has i = true → t1 i =
          match (Number.summaryByte num.summary c).2 with
          | none => num.tracks i
          | some e => tracksDigit (ctx.term i) (num.tracks i) e := by
      unfold numberSummaryByte
      split
      · next s heq =>
        rw [heq]
        exact ⟨num.tracks, rfl, fun _ _ _ => rfl⟩
      · next s e heq =>
        rw [heq]
        exact ⟨_, rfl, fun i hi ha => by simp [hi, ha]⟩
    obtain ⟨t2, e2, h2⟩ := summary_fold _ token (numberSummaryByte ctx num c)
    rw [e1] at e2 h2
    refine ⟨t2, by rw [List.foldl_cons, e1, e2]; rfl, fun i hi ha => ?_⟩
    rw [h2 i hi ha, tracksRun]
    dsimp only
    rw [h1 i hi ha]

/-- The number behind the bytes `token`, with `excess` when it is beyond the limit. -/
structure Holds (ctx : Ctx) (active : Mask) (limit cap : Nat) (excess : Bool) (token : Bytes)
    (num : Num) : Prop where
  terms : num.active = active
  limit : num.limit = limit
  cap : num.cap = cap
  overflow : num.overflow = excess
  unsigned : num.unsigned = (tokenNum excess token).unsigned
  ready : num.unsignedReady = (tokenNum excess token).unsignedReady
  wrapped : num.unsignedOverflow = (tokenNum excess token).unsignedOverflow
  short : excess = false → num.token = token ∧ ∀ i < ctx.n, active.has i = true →
    num.tracks i = tracksStart (ctx.term i)
  long : excess = true → num.summary = Number.summarize token ∧ ∀ i < ctx.n, active.has i = true →
    num.tracks i = tokenTracks (ctx.term i) token

theorem tracksRun_append (t : Term) : ∀ (a b : Bytes) (summary : Number.Summary) (ts : Tracks),
    tracksRun t (a ++ b) summary ts =
      tracksRun t b (a.foldl (fun s c => (Number.summaryByte s c).1) summary) (tracksRun t a summary ts)
  | [], _, _, _ => rfl
  | c :: a, b, summary, ts => by
    rw [List.cons_append, tracksRun, tracksRun, tracksRun_append t a b]
    rfl

theorem tokenNum_unsigned (excess : Bool) (token : Bytes) (c : UInt8) (num : Num)
    (h1 : num.unsigned = (tokenNum excess token).unsigned)
    (h2 : num.unsignedReady = (tokenNum excess token).unsignedReady)
    (h3 : num.unsignedOverflow = (tokenNum excess token).unsignedOverflow) (excess' : Bool) :
    (numberUnsignedByte num c).unsigned = (tokenNum excess' (token ++ [c])).unsigned ∧
      (numberUnsignedByte num c).unsignedReady = (tokenNum excess' (token ++ [c])).unsignedReady ∧
      (numberUnsignedByte num c).unsignedOverflow = (tokenNum excess' (token ++ [c])).unsignedOverflow := by
  have := unsigned_fold [c] num (token.foldl numberUnsignedByte { unsignedReady := true }) h1 h2 h3
  simp only [tokenNum, List.foldl_append]
  exact this

theorem Holds.start (ctx : Ctx) (ha : active ≠ 0) (num : Num) :
    Holds ctx active (numberLimit ctx active) num.cap false [] (numberRangeStart ctx num active) := by
  rw [numberRangeStart, if_neg ha]
  exact ⟨rfl, rfl, rfl, rfl, rfl, rfl, rfl, fun _ => ⟨rfl, fun i hi hin => by simp [hi, hin]⟩,
    (fun h => nomatch h)⟩

/-- One byte past the limit. -/
theorem Holds.long_byte {limit cap : Nat} {token : Bytes} {num : Num} (ha : active ≠ 0)
    (h : Holds ctx active limit cap true token num) (c : UInt8) :
    Holds ctx active limit cap true (token ++ [c]) (numberRangeByte ctx num c) := by
  obtain ⟨u1, u2, u3⟩ := tokenNum_unsigned true token c num h.unsigned h.ready h.wrapped true
  rw [numberRangeByte, if_neg (by rw [h.terms]; exact ha)]
  dsimp only
  rw [unsignedByte_eq] at u1 u2 u3 ⊢
  rw [if_pos h.overflow]
  obtain ⟨hsum, htr⟩ := h.long rfl
  obtain ⟨tracks, e, ht⟩ := summary_fold ctx [c] { num with
    unsigned := (numberUnsignedByte num c).unsigned
    unsignedReady := (numberUnsignedByte num c).unsignedReady
    unsignedOverflow := (numberUnsignedByte num c).unsignedOverflow }
  rw [List.foldl_cons, List.foldl_nil] at e
  rw [e]
  refine ⟨h.terms, h.limit, h.cap, h.overflow, u1, u2, u3, (fun hf => nomatch hf), fun _ => ⟨?_, ?_⟩⟩
  · dsimp only
    rw [hsum, Number.summarize, Number.summarize, List.foldl_append]
  · intro i hi hin
    dsimp only
    rw [ht i hi (by dsimp only; rw [h.terms]; exact hin)]
    dsimp only
    rw [hsum, htr i hi hin, tokenTracks, tokenTracks, tracksRun_append]
    rfl

/-- One byte that is kept, that makes the buffer grow, or that is too much. -/
theorem Holds.short_byte {limit cap : Nat} {token : Bytes} {num : Num} (ha : active ≠ 0)
    (h : Holds ctx active limit cap false token num) (c : UInt8) :
    Holds ctx active limit
      (if token.length + 1 ≥ cap then
        if token.length + 1 ≥ limit then cap else growCap limit token.length cap else cap)
      (decide (token.length + 1 ≥ cap) && decide (token.length + 1 ≥ limit)) (token ++ [c])
      (numberRangeByte ctx num c) := by
  obtain ⟨htok, htr⟩ := h.short rfl
  have hunsigned := tokenNum_unsigned false token c num h.unsigned h.ready h.wrapped
  have hover : ¬ num.overflow = true := by
    rw [h.overflow]
    simp
  -- the round, with the running unsigned value set apart
  obtain ⟨u, hu, hbyte⟩ : ∃ u : Num, u = { num with
        unsigned := (numberUnsignedByte num c).unsigned
        unsignedReady := (numberUnsignedByte num c).unsignedReady
        unsignedOverflow := (numberUnsignedByte num c).unsignedOverflow } ∧
      numberRangeByte ctx num c =
        if token.length + 1 ≥ cap then
          if token.length + 1 ≥ limit then
            { (token ++ [c]).foldl (numberSummaryByte ctx) { u with summary := {} } with
              overflow := true }
          else { u with cap := growCap limit token.length cap, token := token ++ [c] }
        else { u with token := token ++ [c] } := by
    refine ⟨_, rfl, ?_⟩
    have hact : ¬ num.active = 0 := by
      rw [h.terms]
      exact ha
    unfold numberRangeByte
    rw [if_neg hact]
    dsimp only
    rw [unsignedByte_eq]
    simp only [if_neg hover, htok, h.cap, h.limit, nextCap, growCap]
  rw [hbyte]
  by_cases hcap : token.length + 1 ≥ cap
  · by_cases hlim : token.length + 1 ≥ limit
    · simp only [if_pos hcap, if_pos hlim, decide_eq_true hcap, decide_eq_true hlim, Bool.and_self]
      obtain ⟨tracks, e, ht⟩ := summary_fold ctx (token ++ [c]) { u with summary := {} }
      obtain ⟨u1, u2, u3⟩ := hunsigned true
      rw [e, hu]
      refine ⟨h.terms, h.limit, h.cap, rfl, u1, u2, u3, (fun hf => nomatch hf),
        fun _ => ⟨rfl, fun i hi hin => ?_⟩⟩
      dsimp only
      rw [ht i hi (by rw [hu]; dsimp only; rw [h.terms]; exact hin), hu]
      dsimp only
      rw [htr i hi hin]
      rfl
    · simp only [if_pos hcap, if_neg hlim, decide_eq_true hcap, decide_eq_false hlim, Bool.and_false]
      obtain ⟨u1, u2, u3⟩ := hunsigned false
      rw [hu]
      exact ⟨h.terms, h.limit, rfl, h.overflow, u1, u2, u3, fun _ => ⟨rfl, htr⟩,
        (fun hf => nomatch hf)⟩
  · simp only [if_neg hcap, decide_eq_false hcap, Bool.false_and]
    obtain ⟨u1, u2, u3⟩ := hunsigned false
    rw [hu]
    exact ⟨h.terms, h.limit, h.cap, h.overflow, u1, u2, u3, fun _ => ⟨rfl, htr⟩,
      (fun hf => nomatch hf)⟩

theorem Holds.long_run {limit cap : Nat} (ha : active ≠ 0) : ∀ (rest token : Bytes) (num : Num),
    Holds ctx active limit cap true token num →
    Holds ctx active limit cap true (token ++ rest) (rest.foldl (numberRangeByte ctx) num)
  | [], token, num, h => by rw [List.append_nil]; exact h
  | c :: rest, token, num, h => by
    rw [List.append_cons]
    exact Holds.long_run ha rest _ _ (h.long_byte ha c)

/-- **Reading a token**: only its length decides how the buffer ends. -/
theorem Holds.run {limit : Nat} (ha : active ≠ 0) : ∀ (rest token : Bytes) (cap : Nat) (num : Num),
    Holds ctx active limit cap false token num →
    Holds ctx active limit (growTo limit rest.length token.length cap).2
      (growTo limit rest.length token.length cap).1 (token ++ rest)
      (rest.foldl (numberRangeByte ctx) num)
  | [], token, cap, num, h => by rw [List.append_nil]; exact h
  | c :: rest, token, cap, num, h => by
    have hstep := h.short_byte ha c
    have hlen : (token ++ [c]).length = token.length + 1 := by simp
    rw [List.append_cons, List.length_cons, growTo, List.foldl_cons]
    by_cases hcap : token.length + 1 ≥ cap
    · by_cases hlim : token.length + 1 ≥ limit
      · rw [if_pos hcap, if_pos hlim, decide_eq_true hcap, decide_eq_true hlim] at hstep
        rw [if_pos hcap, if_pos hlim]
        exact hstep.long_run ha rest
      · rw [if_pos hcap, if_neg hlim, decide_eq_true hcap, decide_eq_false hlim] at hstep
        rw [if_pos hcap, if_neg hlim]
        have := Holds.run ha rest _ _ _ hstep
        rw [hlen] at this
        exact this
    · rw [if_neg hcap, decide_eq_false hcap] at hstep
      rw [if_neg hcap]
      have := Holds.run ha rest _ _ _ hstep
      rw [hlen] at this
      exact this

/-! ## The answers -/

section Answers

variable {limit cap : Nat} {excess : Bool} {token : Bytes} {num : Num}

theorem Holds.compareCurrent (h : Holds ctx active limit cap excess token num) {a b : Number.Track}
    (htr : excess = true → a = b) (right : Bytes) :
    numberCompareCurrent num a right = numberCompareCurrent (tokenNum excess token) b right := by
  have ho : (tokenNum excess token).overflow = excess := rfl
  unfold numberCompareCurrent
  rw [h.overflow, ho]
  cases hover : excess with
  | true =>
    rw [if_pos rfl, if_pos rfl, (h.long hover).1, htr hover]
    rfl
  | false =>
    have htok : (tokenNum false token).token = token := rfl
    simp only [Bool.false_eq_true, if_false, h.ready, h.wrapped, h.unsigned, (h.short hover).1, hover,
      htok]

theorem Holds.bound_eq (h : Holds ctx active limit cap excess token num) {a b : Number.Track}
    (htr : excess = true → a = b) (test : Int → Bool) (bound : Option Bound) :
    boundHolds num a test bound = boundHolds (tokenNum excess token) b test bound := by
  unfold boundHolds
  cases bound with
  | none => rfl
  | some bound =>
    dsimp only
    rw [h.ready, h.wrapped, h.unsigned, h.compareCurrent htr, h.overflow]
    rfl

theorem Holds.equal_eq (h : Holds ctx active limit cap excess token num) {i : Nat} (hi : i < ctx.n)
    (ha : active.has i = true) :
    equalHolds num (ctx.term i) (num.tracks i) =
      equalHolds (tokenNum excess token) (ctx.term i) (tokenTracks (ctx.term i) token) := by
  have htr : excess = true → num.tracks i = tokenTracks (ctx.term i) token :=
    fun ho => (h.long ho).2 i hi ha
  unfold equalHolds
  rw [h.compareCurrent (b := (tokenTracks (ctx.term i) token).eq) fun ho => by rw [htr ho],
    h.overflow]
  rfl

theorem Holds.range_eq (h : Holds ctx active limit cap excess token num) {i : Nat} (hi : i < ctx.n)
    (ha : active.has i = true) :
    rangeHolds num (ctx.term i) (num.tracks i) =
      rangeHolds (tokenNum excess token) (ctx.term i) (tokenTracks (ctx.term i) token) := by
  have htr : excess = true → num.tracks i = tokenTracks (ctx.term i) token :=
    fun ho => (h.long ho).2 i hi ha
  unfold rangeHolds
  rw [h.bound_eq (b := (tokenTracks (ctx.term i) token).gt) fun ho => by rw [htr ho],
    h.bound_eq (b := (tokenTracks (ctx.term i) token).gte) fun ho => by rw [htr ho],
    h.bound_eq (b := (tokenTracks (ctx.term i) token).lt) fun ho => by rw [htr ho],
    h.bound_eq (b := (tokenTracks (ctx.term i) token).lte) fun ho => by rw [htr ho]]

/-- Two JSON numbers compare. -/
theorem compareCurrent_isSome (excess : Bool) (ht : Number.isJson token = true) (track : Number.Track) {right : Bytes}
    (hr : Number.isJson right = true) :
    (numberCompareCurrent (tokenNum excess token) track right).isSome = true := by
  unfold numberCompareCurrent
  split
  · rw [Number.overflowIntegerCmp, Number.summaryParse, if_pos hr]
    rfl
  · dsimp only
    split
    · rfl
    split
    · rfl
    split
    · rfl
    · obtain ⟨a, ha⟩ := Option.isSome_iff_exists.mp ht
      obtain ⟨b, hb⟩ := Option.isSome_iff_exists.mp hr
      have htok : (tokenNum excess token).token = token := rfl
      unfold Number.compareJson
      rw [htok]
      split
      · rfl
      · rw [ha, hb]
        rfl

theorem boundHolds_isSome (excess : Bool) (ht : Number.isJson token = true) (track : Number.Track) (test : Int → Bool)
    (bound : Option Bound) (hb : ∀ b, bound = some b → Number.isJson b.text = true) :
    (boundHolds (tokenNum excess token) track test bound).isSome = true := by
  unfold boundHolds
  cases bound with
  | none => rfl
  | some b =>
    dsimp only
    obtain ⟨cmp, hcmp⟩ :=
      Option.isSome_iff_exists.mp (compareCurrent_isSome excess ht track (hb b rfl))
    rw [hcmp]
    split <;> rfl

theorem equalHolds_isSome (excess : Bool) {t : Term} (ht : Number.isJson token = true) (hn : t.NumberOk)
    (hk : t.kind = .numberEq) (ts : Tracks) :
    (equalHolds (tokenNum excess token) t ts).isSome = true := by
  obtain ⟨cmp, hcmp⟩ :=
    Option.isSome_iff_exists.mp (compareCurrent_isSome excess ht ts.eq (hn.value hk))
  rw [equalHolds, hcmp]
  rfl

theorem rangeHolds_isSome (excess : Bool) {t : Term} (ht : Number.isJson token = true) (hn : t.NumberOk)
    (hk : t.kind = .numberRange) (ts : Tracks) :
    (rangeHolds (tokenNum excess token) t ts).isSome = true := by
  have hb := hn.bounds hk
  obtain ⟨b1, h1⟩ := Option.isSome_iff_exists.mp (boundHolds_isSome excess ht ts.gt
    (fun c => decide (c > 0)) t.rangeGt fun b e => hb b (Or.inl e))
  obtain ⟨b2, h2⟩ := Option.isSome_iff_exists.mp (boundHolds_isSome excess ht ts.gte
    (fun c => decide (c ≥ 0)) t.rangeGte fun b e => hb b (Or.inr (Or.inl e)))
  obtain ⟨b3, h3⟩ := Option.isSome_iff_exists.mp (boundHolds_isSome excess ht ts.lt
    (fun c => decide (c < 0)) t.rangeLt fun b e => hb b (Or.inr (Or.inr (Or.inl e))))
  obtain ⟨b4, h4⟩ := Option.isSome_iff_exists.mp (boundHolds_isSome excess ht ts.lte
    (fun c => decide (c ≤ 0)) t.rangeLte fun b e => hb b (Or.inr (Or.inr (Or.inr e))))
  unfold rangeHolds
  rw [h1, h2, h3, h4]
  cases b1 <;> cases b2 <;> cases b3 <;> rfl

/-- **The equality terms**, each with its own answer. -/
theorem Holds.eqComplete (h : Holds ctx active limit cap excess token num) {terms : Mask}
    (ht : Number.isJson token = true) (hsub : ∀ i, terms.has i = true → active.has i = true)
    (hok : ∀ i < ctx.n, terms.has i = true → (ctx.term i).NumberOk) :
    numberEqComplete ctx num terms = .ok (maskOf ctx.n fun i =>
      terms.has i && (ctx.term i).kind = .numberEq && (ctx.term i).numEqual excess token) := by
  have hanswer : ∀ i < ctx.n, terms.has i = true → equalHolds num (ctx.term i) (num.tracks i) =
      equalHolds (tokenNum excess token) (ctx.term i) (tokenTracks (ctx.term i) token) :=
    fun i hi hin => h.equal_eq hi (hsub i hin)
  unfold numberEqComplete
  split
  · next hz =>
    refine congrArg Except.ok (Mask.eq_zero_iff.mpr fun i => ?_).symm
    rw [hz, maskOf_has]
    simp
  · dsimp only
    rw [if_neg]
    · refine congrArg Except.ok (Mask.ext fun i => ?_)
      rw [maskOf_has, maskOf_has]
      by_cases hi : i < ctx.n
      · cases hin : terms.has i with
        | false => simp
        | true => simp only [hanswer i hi hin, Term.numEqual]
      · simp [hi]
    · intro hany
      obtain ⟨i, hi, hbad⟩ := List.any_eq_true.mp hany
      have hi := List.mem_range.mp hi
      simp only [Bool.and_eq_true, decide_eq_true_eq] at hbad
      obtain ⟨⟨hin, hk⟩, hnone⟩ := hbad
      rw [hanswer i hi hin] at hnone
      have := equalHolds_isSome excess ht (hok i hi hin) hk (tokenTracks (ctx.term i) token)
      rw [Option.isNone_iff_eq_none.mp hnone] at this
      cases this

/-- **The range terms**, each with its own answer. -/
theorem Holds.rangeComplete (h : Holds ctx active limit cap excess token num) (ha : active ≠ 0)
    (ht : Number.isJson token = true)
    (hok : ∀ i < ctx.n, active.has i = true → (ctx.term i).NumberOk) :
    numberRangeComplete ctx num = .ok (maskOf ctx.n fun i =>
      active.has i && (ctx.term i).kind = .numberRange && (ctx.term i).numInRange excess token) := by
  have hanswer : ∀ i < ctx.n, active.has i = true → rangeHolds num (ctx.term i) (num.tracks i) =
      rangeHolds (tokenNum excess token) (ctx.term i) (tokenTracks (ctx.term i) token) :=
    fun i hi hin => h.range_eq hi hin
  unfold numberRangeComplete
  rw [h.terms, if_neg ha]
  dsimp only
  rw [if_neg]
  · refine congrArg Except.ok (Mask.ext fun i => ?_)
    rw [maskOf_has, maskOf_has]
    by_cases hi : i < ctx.n
    · cases hin : active.has i with
      | false => simp
      | true => simp only [hanswer i hi hin, Term.numInRange]
    · simp [hi]
  · intro hany
    obtain ⟨i, hi, hbad⟩ := List.any_eq_true.mp hany
    have hi := List.mem_range.mp hi
    simp only [Bool.and_eq_true, decide_eq_true_eq] at hbad
    obtain ⟨⟨hin, hk⟩, hnone⟩ := hbad
    rw [hanswer i hi hin] at hnone
    have := rangeHolds_isSome excess ht (hok i hi hin) hk (tokenTracks (ctx.term i) token)
    rw [Option.isNone_iff_eq_none.mp hnone] at this
    cases this

end Answers

end Run

end Lql.Scan
