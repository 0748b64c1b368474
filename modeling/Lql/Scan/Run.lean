import Lql.Scan.ValueSpec
import Lql.Scan.Records

/-!
# A scan as a function of its input

For terms that the scanner follows as they read, the records of a scan and its status are a
function of the bytes of the input: each document is walked on its own, and all that one record
hands to the next is the size of the buffer for long numbers.
-/

namespace Lql.Scan

open Lib Json

variable {total : Nat} {ctx : Ctx}

/-- The terms are followed as they read, and the literals they compare with are in order. -/
structure Ctx.Sound (ctx : Ctx) : Prop where
  ok : CtxOk ctx
  regular : ∀ i < ctx.n, (ctx.term i).Regular
  literals : ∀ i < ctx.n, (ctx.term i).LiteralsOk
  captures : ∀ c < ctx.captureKeys.length, 0 < (ctx.captureKey c).length

theorem Ctx.Sound.fits (h : ctx.Sound) : ctx.Fits :=
  ⟨h.ok.terms, h.ok.captures, fun i hi => (h.literals i hi).number⟩

/-- A lone `...` finds the root itself. -/
def Term.rootPresent (t : Term) : Bool :=
  t.deep = some 0 && t.segments.length = 1 && (t.kind = .exist || t.kind = .valuelessPresent)

/-- What is found before a root object is looked into. -/
def rootHits (ctx : Ctx) : Mask := maskOf ctx.n fun i => (ctx.term i).rootPresent

/-- The walk in front of a record. -/
def recordStart (ctx : Ctx) (cap : Nat) (isObject : Bool) : Walk :=
  { hits := if isObject then rootHits ctx else 0, cap, out := [], spans := fun _ => {} }

/-- The walk over the document of a record. -/
def walkRecord (ctx : Ctx) (cap : Nat) (v : Value) : Option Walk :=
  walkValue ctx 0 (allTerms ctx.n) 0 (allTerms ctx.captureKeys.length) v
    (recordStart ctx cap v.isObject)

/-- What is reported of a document that has been walked: it stands at the front of `bytes`, and
`mid` is what was left behind it. -/
def report (ctx : Ctx) (index offset : Nat) (bytes : Bytes) (v : Value) (mid : Flat) (w : Walk) : Record :=
  { index
    rootIsObject := v.isObject
    hits := if v.isObject then w.hits else 0
    spool := w.out
    spans := (List.range ctx.captureKeys.length).map w.spans
    sourceOffset := offset
    sourceLen := bytes.length - mid.rest.length
    sourceCompact := mid.compact }

/-- The records of an input, of which `bytes` are left, and how the scan ends. -/
def runRecords (ctx : Ctx) (total : Nat) : Nat → Nat → Nat → Bytes → List Record × Status
  | 0, _, _, _ => ([], .jsonError)
  | fuel + 1, index, cap, bytes =>
    let rest := bytes.dropWhile isSpace
    if rest = [] then ([], .ok)
    else if rest.head? = some chLBracket then ([], .jsonError)
    else
      match recordP rest with
      | none => ([], .jsonError)
      | some (v, mid, last) =>
        match walkRecord ctx cap v with
        | none => ([], .jsonError)
        | some w =>
          let more := runRecords ctx total fuel (index + 1) w.cap last.rest
          (report ctx index (total - rest.length) rest v mid w :: more.1, more.2)

/-- The answer of a scan. -/
def scanRun (ctx : Ctx) (bytes : Bytes) : List Record × Status :=
  runRecords ctx bytes.length (bytes.length + 2) 0 numberMatchBytes bytes

/-! ## What a walk keeps -/

/-- What every single step of a walk keeps. -/
structure Keeps (ctx : Ctx) (P : Walk → Walk → Prop) : Prop where
  refl : ∀ w, P w w
  trans : ∀ {w1 w2 w3}, P w1 w2 → P w2 w3 → P w1 w3
  put : ∀ w bytes, P w (w.put ctx bytes)
  meet : ∀ w here v, P w (w.meet ctx here v)
  note : ∀ w values start, P w (w.note ctx values start)

section Keeps

variable {P : Walk → Walk → Prop}

theorem Keeps.comma (h : Keeps ctx P) (w : Walk) (last : Bool) : P w (w.comma ctx last) := by
  rw [Walk.comma]
  split
  · exact h.refl w
  · exact h.put w _

theorem Keeps.member_of (h : Keeps ctx P) {d : Nat} {A R C : Mask} {key : Str} {v : Value} {w w' : Walk}
    (hv : ∀ d A R C w w', walkValue ctx d A R C v w = some w' → P w w')
    (he : walkMember ctx d A R C key v w = some w') : P w w' := by
  rw [walkMember] at he
  dsimp only at he
  split at he
  · split at he
    · cases he
      exact h.refl w
    · cases he
  · obtain ⟨w2, hw2, rfl⟩ := Option.map_eq_some_iff.mp he
    exact h.trans (h.trans (h.put w _) (h.meet _ _ _)) (h.trans (hv _ _ _ _ _ _ hw2) (h.note w2 _ _))

theorem Keeps.element_of (h : Keeps ctx P) {d index : Nat} {A R C : Mask} {v : Value} {w w' : Walk}
    (hv : ∀ d A R C w w', walkValue ctx d A R C v w = some w' → P w w')
    (he : walkElement ctx d A R C index v w = some w') : P w w' := by
  rw [walkElement] at he
  obtain ⟨w2, hw2, rfl⟩ := Option.map_eq_some_iff.mp he
  exact h.trans (h.meet _ _ _) (h.trans (hv _ _ _ _ _ _ hw2) (h.note w2 _ _))

mutual

/-- A whole walk keeps what its steps keep. -/
theorem Keeps.value (h : Keeps ctx P) : ∀ (v : Value) {d : Nat} {A R C : Mask} {w w' : Walk},
    walkValue ctx d A R C v w = some w' → P w w'
  | .obj ms, d, A, R, C, w, w', he => by
    rw [walkValue] at he
    split at he
    · exact h.trans (h.put w _) (h.members ms he)
    · cases he
  | .arr es, d, A, R, C, w, w', he => by
    rw [walkValue] at he
    split at he
    · exact h.trans (h.put w _) (h.elements es he)
    · cases he
  | .str _, d, A, R, C, w, w', he => by
    rw [walkValue] at he
    cases he
    exact h.put w _
  | .num _, d, A, R, C, w, w', he => by
    rw [walkValue] at he
    cases he
    exact h.put w _
  | .lit _, d, A, R, C, w, w', he => by
    rw [walkValue] at he
    cases he
    exact h.put w _

theorem Keeps.members (h : Keeps ctx P) : ∀ (ms : Json.Members) {d : Nat} {A R C : Mask} {w w' : Walk},
    walkMembers ctx d A R C ms w = some w' → P w w'
  | .nil, d, A, R, C, w, w', he => by
    rw [walkMembers] at he
    cases he
    exact h.put w _
  | .cons key v rest, d, A, R, C, w, w', he => by
    rw [walkMembers_cons] at he
    obtain ⟨w1, h1, h2⟩ := Option.bind_eq_some_iff.mp he
    have hrest := h.members rest h2
    exact h.trans (h.member_of (fun _ _ _ _ _ _ hv => h.value v hv) h1) (h.trans (h.comma w1 _) hrest)

theorem Keeps.elements (h : Keeps ctx P) : ∀ (es : Json.Elements) {d index : Nat} {A R C : Mask}
    {w w' : Walk}, walkElements ctx d A R C index es w = some w' → P w w'
  | .nil, d, index, A, R, C, w, w', he => by
    rw [walkElements] at he
    cases he
    exact h.put w _
  | .cons v rest, d, index, A, R, C, w, w', he => by
    rw [walkElements_cons] at he
    obtain ⟨w1, h1, h2⟩ := Option.bind_eq_some_iff.mp he
    have hrest := h.elements rest h2
    exact h.trans (h.element_of (fun _ _ _ _ _ _ hv => h.value v hv) h1) (h.trans (h.comma w1 _) hrest)

end

theorem Keeps.member (h : Keeps ctx P) {d : Nat} {A R C : Mask} {key : Str} {v : Value} {w w' : Walk}
    (he : walkMember ctx d A R C key v w = some w') : P w w' :=
  h.member_of (fun _ _ _ _ _ _ hv => h.value v hv) he

theorem Keeps.element (h : Keeps ctx P) {d index : Nat} {A R C : Mask} {v : Value} {w w' : Walk}
    (he : walkElement ctx d A R C index v w = some w') : P w w' :=
  h.element_of (fun _ _ _ _ _ _ hv => h.value v hv) he

end Keeps

/-- Spans that are no capture's stay as they are. -/
theorem keeps_spans (ctx : Ctx) :
    Keeps ctx fun w w' => ∀ c, ctx.captureKeys.length ≤ c → w'.spans c = w.spans c where
  refl := fun _ _ _ => rfl
  trans := fun h1 h2 c hc => (h2 c hc).trans (h1 c hc)
  put := fun _ _ _ _ => rfl
  meet := fun _ _ _ _ _ => rfl
  note := fun w values start c hc => by simp [Walk.note, updWhere, Nat.not_lt.mpr hc]

/-- A scan that does not capture puts nothing out. -/
theorem keeps_out (hc : ctx.capture = false) : Keeps ctx fun w w' => w'.out = w.out where
  refl := fun _ => rfl
  trans := fun h1 h2 => h2.trans h1
  put := fun w bytes => by rw [Walk.put_quiet hc]
  meet := fun _ _ _ => rfl
  note := fun _ _ _ => rfl

/-! ## The start of a record -/

theorem allTerms_has {count : Nat} (hc : count ≤ 64) (i : Nat) : (allTerms count).has i = decide (i < count) := by
  rw [allTerms]
  split
  · next h =>
    rw [show count = 64 from h, Mask.has, BitVec.getLsbD_allOnes]
  · next h =>
    have hlt : count < 64 := by
      have : count ≠ 64 := h
      omega
    have hnat : (bit count - 1 : Mask) = BitVec.ofNat 64 (2 ^ count - 1) := by
      apply BitVec.eq_of_toNat_eq
      have hp : 0 < 2 ^ count := Nat.two_pow_pos count
      have h1 : 2 ^ count < 2 ^ 64 := Nat.pow_lt_pow_right (by decide) hlt
      have hone : BitVec.toNat (1 : Mask) = 1 := by decide
      simp only [bit, BitVec.toNat_sub, BitVec.toNat_twoPow, BitVec.toNat_ofNat, hone]
      rw [Nat.mod_eq_of_lt h1]
      omega
    rw [hnat, Mask.has, BitVec.getLsbD_ofNat, Nat.testBit_two_pow_sub_one]
    by_cases hi : i < count
    · simp [hi, Nat.lt_trans hi hlt]
    · simp [hi]

/-- A lone `...` at the root, as the scanner keeps it. -/
theorem rootExistsTerms_has (h : ctx.Sound) (i : Nat) :
    ctx.terminalRecursiveRootExistsTerms.has i = (decide (i < ctx.n) && (ctx.term i).rootPresent) := by
  rw [Ctx.terminalRecursiveRootExistsTerms, maskOf_has_le h.ok.terms]
  by_cases hi : i < ctx.n
  · dsimp only
    rw [(h.regular i hi).path.count, ← deep_zero, Term.rootPresent]
    cases decide ((ctx.term i).deep = some 0) <;> cases decide ((ctx.term i).segments.length = 1) <;> simp
  · simp [hi]

theorem Term.rootPresent_deep {t : Term} (ht : t.Regular) (h : t.rootPresent = true) :
    t.Deep 0 ∧ t.segments.length = 1 ∧ (t.kind = .exist ∨ t.kind = .valuelessPresent) := by
  simp only [Term.rootPresent, Bool.and_eq_true, Bool.or_eq_true, decide_eq_true_eq] at h
  obtain ⟨⟨hd, hl⟩, hk⟩ := h
  rcases ht with ht | ⟨p, ht⟩
  · rw [ht.deep] at hd
    cases hd
  · rw [ht.deep] at hd
    cases hd
    exact ⟨ht, hl, hk⟩

/-- The terms that find the root are noted, with segment `0`. -/
theorem rootExists_spec (h : ctx.Sound) (s : State) :
    ∃ x y, matchRootTerminalRecursiveExists ctx s =
      ({ s with m := { s.m with termSegment := x }, keyTermSegment := y }, rootHits ctx) := by
  have hand : ∀ i, (ctx.terminalRecursiveRootExistsTerms &&& ctx.terminalRecursiveTerms).has i =
      (decide (i < ctx.n) && (ctx.term i).rootPresent) := by
    intro i
    rw [Mask.has_and, rootExistsTerms_has h, Ctx.terminalRecursiveTerms, maskOf_has_le h.ok.terms]
    by_cases hi : i < ctx.n
    · cases hr : (ctx.term i).rootPresent with
      | false => simp
      | true =>
          obtain ⟨hd, hl, -⟩ := Term.rootPresent_deep (h.regular i hi) hr
          simp [hi, hd.path.count, hl, hd.recursives]
    · simp [hi]
  -- the terms found, and the segment they are found with
  obtain ⟨found, hfound, s1, hs1, hseg⟩ : ∃ found : Mask, (∀ i, found.has i =
      (decide (i < ctx.n) && (ctx.term i).rootPresent)) ∧ ∃ s1 : State,
      matchTerminalRecursiveTerms ctx s ctx.terminalRecursiveRootExistsTerms 0 = (s1, found) ∧
        ((∃ x, s1 = { s with m := { s.m with termSegment := x } }) ∧
          ∀ i < ctx.n, found.has i = true → s1.m.termSegment i = 0) := by
    unfold matchTerminalRecursiveTerms
    dsimp only
    split
    · next hz =>
      refine ⟨0, fun i => ?_, s, rfl, ⟨s.m.termSegment, rfl⟩, fun i _ hi => ?_⟩
      · rw [← hand, hz]
      · rw [Mask.has_zero] at hi
        cases hi
    · refine ⟨_, fun i => ?_, _, rfl, ⟨_, rfl⟩, fun i hi hin => ?_⟩
      · rw [termsWhere_has h.ok.room, hand]
        by_cases hi : i < ctx.n
        · cases hr : (ctx.term i).rootPresent with
          | false => simp
          | true =>
              obtain ⟨hd, hl, -⟩ := Term.rootPresent_deep (h.regular i hi) hr
              have hany : ((List.range wordBits).any fun segment =>
                  (ctx.term i).pathRecursiveSegments.has segment &&
                  decide ((ctx.term i).pathSegmentCount = segment + 1) && decide (0 ≥ segment)) = true := by
                rw [List.any_eq_true]
                refine ⟨0, List.mem_range.mpr (by decide), ?_⟩
                simp [hd.recursives, hd.path.count, hl]
              rw [hany]
              simp [hi]
        · simp [hi]
      · dsimp only [setTermSegment, updWhere]
        rw [hin, decide_eq_true hi]
        rfl
  obtain ⟨⟨x, hx⟩, hzero⟩ := hseg
  refine ⟨x, updWhere ctx.n found.has x s.keyTermSegment, ?_⟩
  rw [matchRootTerminalRecursiveExists, hs1]
  dsimp only
  rw [hx] at hzero ⊢
  refine Prod.ext rfl (Mask.ext fun i => ?_)
  have harr : Arrived ctx found (updWhere ctx.n found.has x s.keyTermSegment) found := by
    intro i hi
    cases hin : found.has i with
    | false => rfl
    | true =>
        have hr := hin
        rw [hfound, decide_eq_true hi, Bool.true_and] at hr
        obtain ⟨hd, hl, -⟩ := Term.rootPresent_deep (h.regular i hi) hr
        rw [hd.valueAt_last hl]
        simp
  have hexist : (matchExists ctx (setKeySegment ctx { s with m := { s.m with termSegment := x } } found)
      found).has i = (decide (i < ctx.n) && (found.has i && decide ((ctx.term i).kind = .exist))) :=
    valueTerms_has h.ok.room harr (fun k => decide (k = .exist)) i
  have hvalueless := valuelessPresent_has
    (s := setKeySegment ctx { s with m := { s.m with termSegment := x } } found) h.ok.room harr i
  dsimp only
  rw [Mask.has_or, hexist, hvalueless, rootHits, maskOf_has_le h.ok.terms, hfound]
  cases decide (i < ctx.n) with
  | false => rfl
  | true =>
      cases hr : (ctx.term i).rootPresent with
      | false => rfl
      | true =>
          simp only [Term.rootPresent, Bool.and_eq_true, Bool.or_eq_true] at hr
          simpa using hr.2

/-- Between two records, at rest: the masks of the root are clear of `...`, and `cap` is the size of
the buffer for numbers. -/
structure Rested (total : Nat) (ctx : Ctx) (cap : Nat) (s : State) (bytes : Bytes) : Prop
    extends Between total ctx s bytes where
  dates : s.m.temporalActive = 0
  number : s.num.active = 0
  slots : SlotsOk ctx (fun _ => True) s
  recursive : s.recursiveActive 0 = 0
  cap : s.num.cap = cap
  spans : ∀ c, ctx.captureKeys.length ≤ c → s.captureSpans c = {}

theorem Rested.start (ctx : Ctx) {chunks : List Bytes} (hc : ReaderOk chunks) :
    Rested chunks.flatten.length ctx numberMatchBytes (State.start chunks) chunks.flatten where
  toBetween := Between.start ctx hc
  dates := rfl
  number := rfl
  slots := fun _ _ _ => ⟨fun _ _ _ => .inl rfl, fun _ _ _ => .inl rfl⟩
  recursive := rfl
  cap := rfl
  spans := fun _ _ => rfl

/-- All terms and captures are alive at the root. -/
theorem alive_root (h : ctx.Sound) :
    Alive ctx (fun _ => True) 0 (allTerms ctx.n) 0 (allTerms ctx.captureKeys.length) := by
  refine ⟨fun i hi => ?_, fun i hi _ => ⟨trivial, h.regular i hi, ?_, ?_⟩, fun c hc => ?_⟩
  · rcases hi with hi | hi
    · rw [allTerms_has h.ok.terms, decide_eq_true_eq] at hi
      exact hi
    · rw [Mask.has_zero] at hi
      cases hi
  · intro hr
    rw [Mask.has_zero] at hr
    cases hr
  · intro p _ _ hlt
    exact absurd hlt (Nat.not_lt_zero p)
  · rw [allTerms_has h.ok.captures, decide_eq_true_eq] at hc
    exact ⟨hc, h.captures c hc⟩

/-- The state in which a record is scanned. -/
theorem beginRecord_ok (h : ctx.Sound) (first : UInt8) (s : State) :
    ∃ x y, beginRecord ctx first s = { s with
      tape := (beginRecord ctx first s).tape
      flatEqActive := decide (first = chLBrace)
      hits := if first = chLBrace then rootHits ctx else 0
      captureSpans := updWhere ctx.captureKeys.length (fun _ => true) (fun _ => {}) s.captureSpans
      pathActive := setAt s.pathActive 0 (allTerms ctx.n)
      capturePathActive := setAt s.capturePathActive 0 (allTerms ctx.captureKeys.length)
      m := { matchStart ctx s.m 0 false 0 with termSegment := x }
      keyTermSegment := y } := by
  by_cases hcond : (decide (first = chLBrace) && decide (ctx.terminalRecursiveRootExistsTerms ≠ 0)) = true
  · rw [beginRecord]
    dsimp only
    rw [if_pos hcond]
    obtain ⟨x, y, e⟩ := rootExists_spec h { s with
      tape := { s.tape with
        spool := if ctx.capture then [] else s.tape.spool
        compactRangeActive := true
        compactRangeOk := true }
      flatEqActive := decide (first = chLBrace)
      hits := 0
      captureSpans := updWhere ctx.captureKeys.length (fun _ => true) (fun _ => {}) s.captureSpans
      pathActive := setAt s.pathActive 0 (allTerms ctx.n)
      capturePathActive := setAt s.capturePathActive 0 (allTerms ctx.captureKeys.length)
      m := matchStart ctx s.m 0 false 0 }
    rw [Bool.and_eq_true, decide_eq_true_eq] at hcond
    refine ⟨x, y, ?_⟩
    rw [e]
    dsimp only
    rw [if_pos hcond.1, BitVec.or_comm, Mask.or_zero]
  · have hzero : (if first = chLBrace then rootHits ctx else 0) = 0 := by
      split
      · next hf =>
        have hnone : ctx.terminalRecursiveRootExistsTerms = 0 := by
          by_contra hne
          refine hcond ?_
          rw [decide_eq_true hf, decide_eq_true (show ctx.terminalRecursiveRootExistsTerms ≠ 0 from hne)]
          rfl
        refine Mask.eq_zero_iff.mpr fun i => ?_
        rw [rootHits, maskOf_has_le h.ok.terms, ← rootExistsTerms_has h, hnone, Mask.has_zero]
      · rfl
    refine ⟨(matchStart ctx s.m 0 false 0).termSegment, s.keyTermSegment, ?_⟩
    rw [hzero, beginRecord]
    dsimp only
    rw [if_neg hcond]

theorem beginRecord_ready (h : ctx.Sound) {cap : Nat} {s : State} {bytes : Bytes} {first : UInt8}
    (hr : Rested total ctx cap s bytes) (hf : bytes.head? = some first) (hroot : first ≠ chLBracket) :
    Ready total ctx (fun _ => True) 0 (allTerms ctx.n) 0 (allTerms ctx.captureKeys.length)
      (recordStart ctx cap (decide (first = chLBrace))) (beginRecord ctx first s)
      { rest := bytes, compact := true } := by
  obtain ⟨x, y, e⟩ := beginRecord_ok h first s
  have ht := beginRecord_tape ctx first s
  have hcont : isContainer (some first) = decide (first = chLBrace) := by
    simp [isContainer, hroot]
  refine ⟨⟨?_, ?_, ?_, ?_, ?_, ?_, ?_, ?_⟩, alive_root h, fun hc => ?_, fun hc _ => ?_, fun _ hb => ?_⟩
  · rw [ht]
    exact ⟨hr.ok, by rw [hr.emit]; exact Nat.zero_le _, hr.rest, fun _ => rfl⟩
  · rw [ht]
    exact hr.depth
  · rw [e]
    refine ⟨rfl, rfl, ?_, hr.dates, hr.number⟩
    refine Mask.eq_zero_iff.mpr fun i => ?_
    show (maskOf ctx.n _).has i = false
    rw [maskOf_has]
    simp
  · rw [e]
    exact hr.slots.congr rfl rfl
  · rw [e]
    simp only [recordStart, decide_eq_true_eq]
  · rw [e]
    exact hr.cap
  · rw [ht, Tape.out, hr.emit]
    cases hc : ctx.capture with
    | true => rfl
    | false => simp [hr.spool hc, recordStart]
  · rw [e]
    funext c
    dsimp only [updWhere, recordStart]
    by_cases hlt : c < ctx.captureKeys.length
    · simp [hlt]
    · simp [hlt, hr.spans c (Nat.not_lt.mp hlt)]
  · rw [e]
    rwa [hf, hcont] at hc
  · rw [e]
    refine ⟨?_, hr.recursive, ?_⟩
    · show setAt s.pathActive 0 (allTerms ctx.n) 0 = _
      exact setAt_self
    · show setAt s.capturePathActive 0 (allTerms ctx.captureKeys.length) 0 = _
      exact setAt_self
  · rw [hf, Option.some.injEq] at hb
    exact hroot hb

/-! ## One record -/

theorem recordP_isObject {bytes : Bytes} {v : Value} {mid last : Flat}
    (h : recordP bytes = some (v, mid, last)) : v.isObject = decide (bytes.head? = some chLBrace) := by
  obtain ⟨text, sep, hw, -, hbytes, -⟩ := recordP_sound h
  obtain ⟨c, t, htext, -⟩ := hw.head
  have hhead : bytes.head? = text.head? := by
    rw [hbytes, htext]
    rfl
  rw [hhead, Bool.eq_iff_iff, decide_eq_true_eq]
  exact Value.isObject_head hw

/-- **A record is walked**, and reported so. -/
theorem scanRecord_walks (h : ctx.Sound) (index : Nat) {cap : Nat} {s : State} {bytes : Bytes}
    {first : UInt8} (hr : Rested total ctx cap s bytes) (hf : bytes.head? = some first)
    (hroot : first ≠ chLBracket) :
    match recordP bytes with
    | none => ∃ e s', scanRecord ctx index first s = .error e s' ∧ JsonFault e
    | some (v, mid, last) =>
      match walkRecord ctx cap v with
      | none => ∃ e s', scanRecord ctx index first s = .error e s' ∧ JsonFault e
      | some w => ∃ s', scanRecord ctx index first s =
          .ok (report ctx index (total - bytes.length) bytes v mid w) s' ∧
          Rested total ctx w.cap s' last.rest := by
  have hready := beginRecord_ready h hr hf hroot
  have hactive : (beginRecord ctx first s).tape.compactRangeActive = true := by rw [beginRecord_tape]
  have hrec0 : (beginRecord ctx first s).recursiveActive 0 = 0 := by
    obtain ⟨x, y, e⟩ := beginRecord_ok h first s
    rw [e]
    exact hr.recursive
  generalize hs1 : beginRecord ctx first s = s1 at hready hactive hrec0
  have hg := hready.good
  have hsize : s1.tape.input.size = bytes.length := by rw [Input.size_eq, hg.rel.rest]
  have hwalk := value_walks h.ok (fun i hi _ => h.literals i hi) (bytes.length + 1) 0 _ _ _ _ s1 _
    (Nat.zero_le _) hready
  have hrun : scanRecord ctx index first s =
      (value ctx (bytes.length + 1) >>= fun _ => recordRest ctx index first s.tape.input.consumed) s1 := by
    rw [← hsize, ← hs1]
    rfl
  have hstart : s.tape.input.consumed = total - bytes.length := by rw [hr.ok.consumed, hr.rest]
  have hle := hr.ok.rest_le
  rw [hr.rest] at hle
  rw [hrun]
  cases hv : valueP (bytes.length + 1) { rest := bytes, compact := true } with
  | none =>
      have hnone : recordP bytes = none := by rw [recordP, hv]
      rw [hnone]
      obtain ⟨e, s', hx, he⟩ := hwalk.fails hv
      exact ⟨e, s', bind_error hx _, he⟩
  | some p =>
      obtain ⟨v, mid⟩ := p
      rcases hwalk.ends hv with ⟨u, s2, hx, w, hw, r2⟩ | ⟨hnone, e, s', hx, he⟩
      · have hrest := recordRest_ok ctx index first s.tape.input.consumed r2.good.rel
        cases hsep : separatorP mid with
        | none =>
            have hnone : recordP bytes = none := by
              rw [recordP, hv]
              dsimp only
              rw [hsep]
              rfl
            rw [hnone, bind_ok hx]
            exact hrest.fails hsep
        | some p =>
            obtain ⟨_, last⟩ := p
            have hrec : recordP bytes = some (v, mid, last) := by
              rw [recordP, hv]
              dsimp only
              rw [hsep]
              rfl
            have hobj := recordP_isObject hrec
            rw [hf] at hobj
            have hobj : v.isObject = decide (first = chLBrace) := by rw [hobj]; simp
            have hwr : walkRecord ctx cap v = some w := by rw [walkRecord, hobj]; exact hw
            rw [hrec]
            dsimp only
            rw [hwr]
            dsimp only
            rw [bind_ok hx]
            obtain ⟨r, s', hx', t', rfl, hok, hlast, hdepth, hemit, hquiet, hcap, hnocap, hrep⟩ :=
              hrest.ends hsep
            have hout : s2.tape.out = w.out := r2.good.out
            have hnil : ctx.capture = false → w.out = [] := fun hc => (keeps_out hc).value v hw
            have hspool : t'.spool = w.out := by
              cases hc : ctx.capture with
              | true => rw [hcap hc, hout]
              | false => rw [hnocap hc (hout.trans (hnil hc)), hnil hc]
            obtain ⟨text, sep, -, -, hbytes, hmid, -⟩ := recordP_sound hrec
            refine ⟨{ s2 with tape := t' }, ?_, ⟨⟨hok, hlast, ?_, hemit, ?_, hquiet⟩, r2.good.idle.dates,
              r2.good.idle.number, r2.good.slots.congr rfl rfl, ?_, r2.good.cap, ?_⟩⟩
            · rw [hx', hrep, report, hobj, hspool, r2.good.hits, r2.good.spans, hstart]
              have hlen : total - mid.rest.length - (total - bytes.length) = bytes.length - mid.rest.length := by
                have := congrArg List.length hbytes
                have := congrArg List.length hmid
                simp only [List.length_append] at *
                omega
              have hcompact : s2.tape.compactRangeOk = mid.compact :=
                r2.good.rel.compact (r2.kept.active.trans hactive)
              rw [hlen, hcompact]
              simp only [decide_eq_true_eq]
            · rw [hdepth]
              exact r2.good.depth
            · exact fun hc => hspool.trans (hnil hc)
            · exact (r2.kept.recursive 0 (Nat.le_refl 0)).trans hrec0
            · intro c hlt
              show s2.captureSpans c = {}
              rw [r2.good.spans]
              exact (keeps_spans ctx).value v hw c hlt
      · have hfail : ∃ e s', (value ctx (bytes.length + 1) >>= fun _ =>
            recordRest ctx index first s.tape.input.consumed) s1 = .error e s' ∧ JsonFault e :=
          ⟨e, s', bind_error hx _, he⟩
        cases hrec : recordP bytes with
        | none => exact hfail
        | some p =>
            obtain ⟨v', mid', last⟩ := p
            have hobj := recordP_isObject hrec
            rw [recordP, hv] at hrec
            dsimp only at hrec
            obtain ⟨x, -, hx⟩ := Option.map_eq_some_iff.mp hrec
            cases hx
            rw [hf] at hobj
            have hobj : v.isObject = decide (first = chLBrace) := by rw [hobj]; simp
            have hwr : walkRecord ctx cap v = none := by rw [walkRecord, hobj]; exact hnone
            dsimp only
            rw [hwr]
            exact hfail

/-! ## The whole input -/

theorem recordLoop_run (h : ctx.Sound) :
    ∀ (fuel index cap : Nat) (user : List Record) (s : State) (bytes : Bytes),
      Rested total ctx cap s bytes → bytes.length < fuel →
      (recordLoop { ctx, record := collect } fuel index user s).user =
          user ++ (runRecords ctx total fuel index cap bytes).1 ∧
        (recordLoop { ctx, record := collect } fuel index user s).status =
          (runRecords ctx total fuel index cap bytes).2 := by
  intro fuel
  induction fuel with
  | zero =>
      intro index cap user s bytes _ hf
      exact absurd hf (Nat.not_lt_zero _)
  | succ fuel ih =>
      intro index cap user s bytes hr hf
      have hmax : ¬ ((0 : Nat) ≠ 0 ∧ index ≥ 0) := fun hm => hm.1 rfl
      obtain ⟨t', hb, hnext⟩ := nextRecord_ok hr.toBetween
      have hr' : Rested total ctx cap { s with tape := t' } (bytes.dropWhile isSpace) :=
        ⟨hb, hr.dates, hr.number, hr.slots.congr rfl rfl, hr.recursive, hr.cap, hr.spans⟩
      have hle : (bytes.dropWhile isSpace).length ≤ bytes.length :=
        (List.dropWhile_sublist _).length_le
      rw [runRecords]
      dsimp only
      generalize bytes.dropWhile isSpace = rest at hr' hnext hle
      cases rest with
      | nil =>
          rw [if_pos rfl, recordLoop_end { ctx, record := collect } fuel index user hmax hnext]
          exact ⟨(List.append_nil _).symm, rfl⟩
      | cons first rest =>
          rw [if_neg (List.cons_ne_nil _ _)]
          by_cases hroot : (first :: rest).head? = some chLBracket
          · rw [if_pos hroot] at hnext ⊢
            rw [recordLoop_root { ctx, record := collect } fuel index user hmax hnext]
            exact ⟨(List.append_nil _).symm, rfl⟩
          rw [if_neg hroot] at hnext ⊢
          have hread := scanRecord_walks h index hr' rfl fun he => hroot (by rw [he]; rfl)
          cases hrec : recordP (first :: rest) with
          | none =>
              rw [hrec] at hread
              obtain ⟨e, s', hx, he⟩ := hread
              rw [recordLoop_fault { ctx, record := collect } fuel index user hmax hnext hx]
              exact ⟨(List.append_nil _).symm, he⟩
          | some p =>
              obtain ⟨v, mid, last⟩ := p
              rw [hrec] at hread
              dsimp only at hread ⊢
              cases hw : walkRecord ctx cap v with
              | none =>
                  rw [hw] at hread
                  obtain ⟨e, s', hx, he⟩ := hread
                  rw [recordLoop_fault { ctx, record := collect } fuel index user hmax hnext hx]
                  exact ⟨(List.append_nil _).symm, he⟩
              | some w =>
                  rw [hw] at hread
                  obtain ⟨s', hx, hr2⟩ := hread
                  obtain ⟨text, sep, hwr, -, hbytes, -⟩ := recordP_sound hrec
                  obtain ⟨c, t, htext, -⟩ := hwr.head
                  have hlt : last.rest.length < (first :: rest).length := by
                    rw [hbytes, htext]
                    simp only [List.length_append, List.length_cons]
                    omega
                  have hrun := collect_record fuel user hmax hnext hx
                  obtain ⟨hu, hs⟩ := ih (index + 1) w.cap _ s' last.rest hr2 (by omega)
                  rw [hrun]
                  refine ⟨?_, hs⟩
                  rw [hu, List.append_assoc]
                  rfl

/-- **A scan is a function of the bytes it reads**: what it reports and how it ends do not depend on
how the reader cuts them. -/
theorem scanAll_run (h : ctx.Sound) {chunks : List Bytes} (hc : ReaderOk chunks) :
    scanAll ctx chunks = scanRun ctx chunks.flatten := by
  obtain ⟨hu, hs⟩ := recordLoop_run h (chunks.flatten.length + 2) 0 numberMatchBytes []
    (State.start chunks) chunks.flatten (Rested.start ctx hc) (by omega)
  rw [scanAll_eq h.fits, hu, hs]
  rfl

end Lql.Scan
