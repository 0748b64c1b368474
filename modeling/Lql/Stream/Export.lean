import Lql.Selector.RoundTrip
import Lql.Stream.Apply

/-!
# A selector that was exported

What no text says about a selector is nothing that a run looks at: the selector that comes back from its text decides every
record as the one that was written did, and is written as the same text.
-/

namespace Lql.Stream

open Lib (Mask)
open Scan Selector

/-- The path is one that is kept as it is. -/
def Settled (p : Payload) : Prop := p.field.bind normalizeFieldPath = p.field

/-- A payload, as it comes back where its path is settled. -/
def rejoined (kind : SelectorKind) (p : Payload) : Payload :=
  { p with anyValues := if kind = .date then [] else p.anyValues.map AnyValue.reread }

mutual

/-- A selector, as it comes back where its paths are settled. -/
def rejoin : Selector → Selector
  | .node kind p children => .node kind (rejoined kind p) (rejoinAll children)

def rejoinAll : List Selector → List Selector
  | [] => []
  | child :: rest => rejoin child :: rejoinAll rest

end

/-- The node stands for itself, and its path is settled. -/
def Kept (kind : SelectorKind) (p : Payload) (_ : List Selector) : Prop :=
  stringPredicateIsMatchAllAlias kind p = false ∧ Settled p

/-- A node that was read, whose path ends in a segment, is kept. -/
theorem kept_of_written {kind : SelectorKind} {p : Payload} {children : List Selector} (h : Selector.Written kind p children)
    (hends : ∀ field, p.field = some field → EndsFull field) : Kept kind p children := by
  cases h with
  | all => exact ⟨rfl, rfl⟩
  | joined children hk => rcases hk with rfl | rfl <;> exact ⟨rfl, rfl⟩
  | negated child => exact ⟨rfl, rfl⟩
  | exist hclean hnormal => exact ⟨rfl, hnormal.settled (hends _ rfl)⟩
  | @predicate kind w seen p hinner hexist hne hfits hgiven hvalid halias =>
    refine ⟨halias, ?_⟩
    obtain ⟨temporal, date, hp, -, -⟩ := prepareValueTemporal_eq kind w.payload
    have hfield : p.field = w.field := by
      rw [(jsonValidatePredicate_ok hvalid).2]
      exact congrArg Payload.field hp
    unfold Settled
    rw [hfield] at hends ⊢
    cases hw : w.field with
    | none => rfl
    | some field => exact (hfits.field field hw).2.settled (hends field hw)

theorem alias_rejoined (kind : SelectorKind) (p : Payload) :
    stringPredicateIsMatchAllAlias kind (rejoined kind p) = stringPredicateIsMatchAllAlias kind p := by
  unfold stringPredicateIsMatchAllAlias
  by_cases hk : selectorKindUsesTextualNeedles kind = true
  · have hd : kind ≠ .date := by
      rintro rfl
      cases hk
    have hany : (rejoined kind p).anyValues = [] ↔ p.anyValues = [] := by
      show (if kind = .date then [] else p.anyValues.map AnyValue.reread) = [] ↔ _
      rw [if_neg hd, List.map_eq_nil_iff]
    rw [decide_eq_decide.mpr hany]
    rfl
  · rw [Bool.eq_false_of_not_eq_true hk]
    rfl

mutual

theorem reread_rejoin : ∀ {s : Selector}, s.Each Kept → s.reread = rejoin s
  | .node kind p children, ⟨⟨halias, hsettled⟩, hchildren⟩ => by
    have hpayload : rereadPayload kind p = rejoined kind p := by
      unfold rereadPayload
      rw [show p.field.bind normalizeFieldPath = p.field from hsettled]
      rfl
    have hno : ¬ stringPredicateIsMatchAllAlias kind (rejoined kind p) = true := by
      rw [alias_rejoined, halias]
      exact Bool.false_ne_true
    rw [Selector.reread, hpayload, if_neg hno, rejoin, rereadAll_rejoin hchildren]

theorem rereadAll_rejoin : ∀ {children : List Selector}, Selector.EachOf Kept children →
    Selector.rereadAll children = rejoinAll children
  | [], _ => rfl
  | child :: rest, ⟨hchild, hrest⟩ => by
    rw [Selector.rereadAll, reread_rejoin hchild, rereadAll_rejoin hrest, rejoinAll]

end

theorem rejoinAll_length : ∀ children : List Selector, (rejoinAll children).length = children.length
  | [] => rfl
  | _ :: rest => congrArg (· + 1) (rejoinAll_length rest)

theorem rejoinAll_nil {children : List Selector} : rejoinAll children = [] ↔ children = [] := by
  rw [← List.length_eq_zero_iff, rejoinAll_length, List.length_eq_zero_iff]

/-! ## The terms -/

section Terms

variable {kind : SelectorKind} {p : Payload}

theorem rejoined_any (h : kind ≠ .date) : (rejoined kind p).anyValues = p.anyValues.map AnyValue.reread := if_neg h

theorem rejoined_any_nil (h : kind ≠ .date) : (rejoined kind p).anyValues = [] ↔ p.anyValues = [] := by
  rw [rejoined_any h, List.map_eq_nil_iff]

theorem appendContainsAny_reread (a : Address) (path : Term) (ignoreCase : Bool) : ∀ (items : List AnyValue) (program : Program),
    flatEqAppendContainsAny a path ignoreCase (items.map AnyValue.reread) program =
      flatEqAppendContainsAny a path ignoreCase items program
  | [], _ => rfl
  | item :: items, program => by
    rw [List.map_cons, flatEqAppendContainsAny, flatEqAppendContainsAny]
    dsimp only [AnyValue.reread]
    cases flatEqContainsTerm path ignoreCase item.text with
    | none => rfl
    | some t =>
      dsimp only
      rw [appendContainsAny_reread a path ignoreCase items]
      rfl

theorem appendIn_reread (a : Address) (path : Term) : ∀ (items : List AnyValue) (program : Program),
    flatEqAppendIn a path (items.map AnyValue.reread) program = flatEqAppendIn a path items program
  | [], _ => rfl
  | item :: items, program => by
    rw [List.map_cons, flatEqAppendIn, flatEqAppendIn, appendIn_reread a path items]
    rfl

theorem appendContains_rejoined (program : Program) (a : Address) (path : Term) (ignoreCase : Bool) (hd : kind ≠ .date) :
    flatEqAppendContains program a (rejoined kind p) path ignoreCase = flatEqAppendContains program a p path ignoreCase := by
  unfold flatEqAppendContains
  by_cases hany : p.anyValues = []
  · rw [if_neg (not_not.mpr ((rejoined_any_nil hd).mpr hany)), if_neg (not_not.mpr hany)]
    rfl
  · rw [if_pos (fun h => hany ((rejoined_any_nil hd).mp h)), if_pos hany, rejoined_any hd, appendContainsAny_reread]

theorem appendPredicate_rejoined (bounds : Option TimeBounds) (program : Program) (a : Address) :
    flatEqAppendPredicate bounds program a kind (rejoined kind p) = flatEqAppendPredicate bounds program a kind p := by
  unfold flatEqAppendPredicate
  refine congrArg (Option.bind (p.field.bind compilePath)) (funext fun path => ?_)
  cases kind with
  | isIn =>
    dsimp only
    rw [rejoined_any (by decide), appendIn_reread]
    by_cases hany : p.anyValues = []
    · rw [hany]
      rfl
    · rw [if_neg (fun h => hany (List.map_eq_nil_iff.mp h)), if_neg hany]
  | contains => exact appendContains_rejoined program a path p.ignoreCase (by decide)
  | icontains => exact appendContains_rejoined program a path true (by decide)
  | all => rfl
  | and => rfl
  | or => rfl
  | not => rfl
  | eq => rfl
  | ne => rfl
  | pfx => rfl
  | ipfx => rfl
  | range => rfl
  | date => rfl
  | exist => rfl

end Terms

/-! ## What a run looks at -/

mutual

theorem append_rejoin (bounds : Option TimeBounds) : ∀ (s : Selector) (program : Program) (a : Address),
    flatEqAppend bounds program a (rejoin s) = flatEqAppend bounds program a s
  | .node kind p children, program, a => by
    rw [rejoin]
    cases kind with
    | all => rfl
    | and =>
      rw [flatEqAppend, flatEqAppend]
      exact appendChildren_rejoin bounds children program a 0
    | or =>
      rw [flatEqAppend, flatEqAppend]
      exact appendChildren_rejoin bounds children program a 0
    | not =>
      rw [flatEqAppend, flatEqAppend, appendChildren_rejoin bounds children program a 0, rejoinAll_length]
    | eq => exact appendPredicate_rejoined bounds program a
    | ne => exact appendPredicate_rejoined bounds program a
    | contains => exact appendPredicate_rejoined bounds program a
    | icontains => exact appendPredicate_rejoined bounds program a
    | pfx => exact appendPredicate_rejoined bounds program a
    | ipfx => exact appendPredicate_rejoined bounds program a
    | range => exact appendPredicate_rejoined bounds program a
    | date => exact appendPredicate_rejoined bounds program a
    | isIn => exact appendPredicate_rejoined bounds program a
    | exist => exact appendPredicate_rejoined bounds program a

theorem appendChildren_rejoin (bounds : Option TimeBounds) : ∀ (children : List Selector) (program : Program) (a : Address)
    (i : Nat), flatEqAppendChildren bounds program a i (rejoinAll children) = flatEqAppendChildren bounds program a i children
  | [], _, _, _ => rfl
  | child :: rest, program, a, i => by
    rw [rejoinAll, flatEqAppendChildren, flatEqAppendChildren, append_rejoin bounds child]
    cases flatEqAppend bounds program (a ++ [i]) child with
    | none => rfl
    | some program' => exact appendChildren_rejoin bounds rest program' a (i + 1)

end

mutual

theorem matchesRecord_rejoin (program : Program) (hits : Nat → Mask) (rootIsObject : Bool) : ∀ (s : Selector) (a : Address),
    flatEqMatchesRecord program hits rootIsObject a (rejoin s) = flatEqMatchesRecord program hits rootIsObject a s
  | .node kind p children, a => by
    rw [rejoin]
    cases kind with
    | and =>
      rw [flatEqMatchesRecord, flatEqMatchesRecord]
      exact matchesAll_rejoin program hits rootIsObject children a 0
    | or =>
      rw [flatEqMatchesRecord, flatEqMatchesRecord]
      exact matchesAny_rejoin program hits rootIsObject children a 0
    | not =>
      rw [flatEqMatchesRecord, flatEqMatchesRecord]
      exact matchesNot_rejoin program hits rootIsObject children a
    | all => rfl
    | eq => rfl
    | ne => rfl
    | contains => rfl
    | icontains => rfl
    | pfx => rfl
    | ipfx => rfl
    | range => rfl
    | date => rfl
    | isIn => rfl
    | exist => rfl

theorem matchesAll_rejoin (program : Program) (hits : Nat → Mask) (rootIsObject : Bool) : ∀ (children : List Selector)
    (a : Address) (i : Nat), flatEqMatchesAll program hits rootIsObject a i (rejoinAll children) =
      flatEqMatchesAll program hits rootIsObject a i children
  | [], _, _ => rfl
  | child :: rest, a, i => by
    rw [rejoinAll, flatEqMatchesAll, flatEqMatchesAll, matchesRecord_rejoin program hits rootIsObject child,
      matchesAll_rejoin program hits rootIsObject rest]

theorem matchesAny_rejoin (program : Program) (hits : Nat → Mask) (rootIsObject : Bool) : ∀ (children : List Selector)
    (a : Address) (i : Nat), flatEqMatchesAny program hits rootIsObject a i (rejoinAll children) =
      flatEqMatchesAny program hits rootIsObject a i children
  | [], _, _ => rfl
  | child :: rest, a, i => by
    rw [rejoinAll, flatEqMatchesAny, flatEqMatchesAny, matchesRecord_rejoin program hits rootIsObject child,
      matchesAny_rejoin program hits rootIsObject rest]

theorem matchesNot_rejoin (program : Program) (hits : Nat → Mask) (rootIsObject : Bool) : ∀ (children : List Selector)
    (a : Address), flatEqMatchesNot program hits rootIsObject a (rejoinAll children) =
      flatEqMatchesNot program hits rootIsObject a children
  | [], _ => rfl
  | [child], a => by
    rw [rejoinAll, rejoinAll, flatEqMatchesNot, flatEqMatchesNot, matchesRecord_rejoin program hits rootIsObject child]
  | _ :: _ :: _, _ => rfl

end

mutual

theorem stopMask_rejoin (program : Program) : ∀ (s : Selector) (a : Address),
    flatEqStopMask program a (rejoin s) = flatEqStopMask program a s
  | .node kind p children, a => by
    rw [rejoin]
    cases kind with
    | and =>
      rw [flatEqStopMask, flatEqStopMask]
      exact stopMasks_rejoin program children a 0 0
    | or => rfl
    | not => rfl
    | all => rfl
    | eq => rfl
    | ne => rfl
    | contains => rfl
    | icontains => rfl
    | pfx => rfl
    | ipfx => rfl
    | range => rfl
    | date => rfl
    | isIn => rfl
    | exist => rfl

theorem stopMasks_rejoin (program : Program) : ∀ (children : List Selector) (a : Address) (mask : Mask) (i : Nat),
    flatEqStopMasks program a mask i (rejoinAll children) = flatEqStopMasks program a mask i children
  | [], _, _, _ => rfl
  | child :: rest, a, mask, i => by
    rw [rejoinAll, flatEqStopMasks, flatEqStopMasks, stopMask_rejoin program child, stopMasks_rejoin program rest]

end

mutual

theorem termCount_rejoin : ∀ s : Selector, flatEqSelectorTermCount (rejoin s) = flatEqSelectorTermCount s
  | .node kind p children => by
    rw [rejoin]
    cases kind with
    | and => exact termCounts_rejoin children
    | or => exact termCounts_rejoin children
    | not => exact termCounts_rejoin children
    | isIn =>
      rw [flatEqSelectorTermCount, flatEqSelectorTermCount, rejoined_any (by decide), List.length_map]
    | contains =>
      rw [flatEqSelectorTermCount, flatEqSelectorTermCount, rejoined_any (by decide), List.length_map]
    | icontains =>
      rw [flatEqSelectorTermCount, flatEqSelectorTermCount, rejoined_any (by decide), List.length_map]
    | all => rfl
    | eq => rfl
    | ne => rfl
    | pfx => rfl
    | ipfx => rfl
    | range => rfl
    | date => rfl
    | exist => rfl

theorem termCounts_rejoin : ∀ children : List Selector, flatEqTermCounts (rejoinAll children) = flatEqTermCounts children
  | [] => rfl
  | child :: rest => by
    rw [rejoinAll, flatEqTermCounts, flatEqTermCounts, termCount_rejoin child, termCounts_rejoin rest]

end

mutual

theorem requiredEqCount_rejoin : ∀ (s : Selector) (count : Nat),
    flatEqRequiredEqCount count (rejoin s) = flatEqRequiredEqCount count s
  | .node kind p children, count => by
    rw [rejoin]
    cases kind with
    | and =>
      rw [flatEqRequiredEqCount, flatEqRequiredEqCount, requiredEqCounts_rejoin children]
      by_cases hnil : children = []
      · rw [hnil]
        rfl
      · rw [if_neg (fun h => hnil (rejoinAll_nil.mp h)), if_neg hnil]
    | eq =>
      have hany : (rejoined .eq p).anyValues = [] ↔ p.anyValues = [] := rejoined_any_nil (by decide)
      rw [flatEqRequiredEqCount, flatEqRequiredEqCount]
      rw [decide_eq_decide.mpr (not_congr hany)]
    | or => rfl
    | not => rfl
    | all => rfl
    | ne => rfl
    | contains => rfl
    | icontains => rfl
    | pfx => rfl
    | ipfx => rfl
    | range => rfl
    | date => rfl
    | isIn => rfl
    | exist => rfl

theorem requiredEqCounts_rejoin : ∀ (children : List Selector) (count : Nat),
    flatEqRequiredEqCounts count (rejoinAll children) = flatEqRequiredEqCounts count children
  | [], _ => rfl
  | child :: rest, count => by
    rw [rejoinAll, flatEqRequiredEqCounts, flatEqRequiredEqCounts, requiredEqCount_rejoin child]
    cases flatEqRequiredEqCount count child with
    | none => rfl
    | some count' => exact requiredEqCounts_rejoin rest count'

end

/-! ## What is written -/

theorem writeAnyJson_reread (items : List AnyValue) : writeAnyJson (items.map AnyValue.reread) = writeAnyJson items := by
  rw [writeAnyJson_join, writeAnyJson_join, List.map_map]
  rfl

theorem writePredicate_rejoined (kind : SelectorKind) (p : Payload) :
    writePredicateJson kind (rejoined kind p) = writePredicateJson kind p := by
  have hstring : kind ≠ .date → writeStringPredicateJson (rejoined kind p) = writeStringPredicateJson p := by
    intro hd
    have hany : (if (rejoined kind p).anyValues ≠ [] then
        selectorJsonMember false (ascii "any") ([chLBracket] ++ writeAnyJson (rejoined kind p).anyValues ++ [chRBracket])
      else []) = if p.anyValues ≠ [] then
        selectorJsonMember false (ascii "any") ([chLBracket] ++ writeAnyJson p.anyValues ++ [chRBracket])
      else [] := by
      rw [rejoined_any hd, writeAnyJson_reread]
      simp only [ne_eq, List.map_eq_nil_iff]
    unfold writeStringPredicateJson
    dsimp only
    rw [hany]
    rfl
  cases kind with
  | eq => exact congrArg (fun t => Except.ok (writeOperatorJson (ascii "eq") t)) (hstring (by decide))
  | ne =>
    exact congrArg (fun t => Except.ok (writeOperatorJson (ascii "not") (writeOperatorJson (ascii "eq") t)))
      (hstring (by decide))
  | contains => exact congrArg (fun t => Except.ok (writeOperatorJson (ascii "contains") t)) (hstring (by decide))
  | icontains => exact congrArg (fun t => Except.ok (writeOperatorJson (ascii "icontains") t)) (hstring (by decide))
  | pfx => exact congrArg (fun t => Except.ok (writeOperatorJson (ascii "prefix") t)) (hstring (by decide))
  | ipfx => exact congrArg (fun t => Except.ok (writeOperatorJson (ascii "iprefix") t)) (hstring (by decide))
  | isIn =>
    rw [writePredicateJson, writePredicateJson, writeInPredicateJson, writeInPredicateJson, rejoined_any (by decide),
      writeAnyJson_reread]
    rfl
  | all => rfl
  | and => rfl
  | or => rfl
  | not => rfl
  | range => rfl
  | date => rfl
  | exist => rfl

mutual

theorem write_rejoin : ∀ s : Selector, writeSelectorJson (rejoin s) = writeSelectorJson s
  | .node kind p children => by
    rw [rejoin]
    cases kind with
    | and => rw [writeSelectorJson, writeSelectorJson, writes_rejoin children]
    | or => rw [writeSelectorJson, writeSelectorJson, writes_rejoin children]
    | not =>
      cases children with
      | nil => rfl
      | cons child rest => rw [rejoinAll, writeSelectorJson, writeSelectorJson, write_rejoin child]
    | all => rfl
    | eq => exact writePredicate_rejoined .eq p
    | ne => exact writePredicate_rejoined .ne p
    | contains => exact writePredicate_rejoined .contains p
    | icontains => exact writePredicate_rejoined .icontains p
    | pfx => exact writePredicate_rejoined .pfx p
    | ipfx => exact writePredicate_rejoined .ipfx p
    | range => exact writePredicate_rejoined .range p
    | date => exact writePredicate_rejoined .date p
    | isIn => exact writePredicate_rejoined .isIn p
    | exist => exact writePredicate_rejoined .exist p

theorem writes_rejoin : ∀ children : List Selector,
    writeSelectorChildrenJson (rejoinAll children) = writeSelectorChildrenJson children
  | [] => rfl
  | [child] => by rw [rejoinAll, rejoinAll, writeSelectorChildrenJson, writeSelectorChildrenJson, write_rejoin child]
  | child :: next :: rest => by
    rw [rejoinAll, rejoinAll, writeSelectorChildrenJson, ← rejoinAll, write_rejoin child, writes_rejoin (next :: rest)]
    rfl

end

/-! ## Runs -/

section Runs

variable {δ : Type} (req : StreamRequest δ) (s : Selector)

theorem plan_rejoin (allowSpool : Bool) :
    flatEqPlan { req with selector := rejoin s } allowSpool = flatEqPlan { req with selector := s } allowSpool := by
  unfold flatEqPlan
  dsimp only
  rw [termCount_rejoin, requiredEqCount_rejoin, show plan req.bounds (rejoin s) = plan req.bounds s from
    append_rejoin req.bounds s {} []]

theorem recordWords_rejoin (plan : Plan) (hits : Nat → Mask) (r : Record) :
    flatEqRecordWords { req with selector := rejoin s } plan hits r =
      flatEqRecordWords { req with selector := s } plan hits r := by
  unfold flatEqRecordWords
  dsimp only
  rw [matchesRecord_rejoin]
  rfl

theorem judge_rejoin (plan : Plan) (r : Record) :
    plan.judge { req with selector := rejoin s } r = plan.judge { req with selector := s } r := by
  unfold Plan.judge flatEqBatchedRecord
  simp only [recordWords_rejoin]

theorem scan_rejoin (plan : Plan) : plan.scan (rejoin s) = plan.scan s := by
  unfold Plan.scan flatEqScan
  rw [stopMask_rejoin]

/-- The run is the same. -/
theorem apply_rejoin (allowSpool : Bool) (chunks : List Bytes) (user : δ) :
    streamApplyCommon { req with selector := rejoin s } allowSpool chunks user =
      streamApplyCommon { req with selector := s } allowSpool chunks user := by
  have hrequest : ∀ plan : Plan, plan.request { req with selector := rejoin s } = plan.request { req with selector := s } := by
    intro plan
    unfold Plan.request
    rw [show plan.scan (rejoin s) = plan.scan s from scan_rejoin s plan]
    simp only [judge_rejoin]
  unfold streamApplyCommon streamApplyFlatEq
  rw [plan_rejoin]
  simp only [hrequest]
  rfl

end Runs

/-- **A selector that is exported and read again filters alike.** Where every path ends in a segment, the selector is
written, its text is read, what is read is written as the same text, and no run tells the two selectors apart. -/
theorem streamApply_exported {json : Bytes} {s : Selector} (h : parseSelectorJson json = .ok s)
    (hends : s.Each fun _ p _ => ∀ field, p.field = some field → EndsFull field) :
    ∃ out s', writeSelectorJson s = .ok out ∧ parseSelectorJson out = .ok s' ∧ writeSelectorJson s' = .ok out ∧
      ∀ {δ : Type} (req : StreamRequest δ) (allowSpool : Bool) (chunks : List Bytes) (user : δ),
        streamApplyCommon { req with selector := s' } allowSpool chunks user =
          streamApplyCommon { req with selector := s } allowSpool chunks user := by
  have hwritten := parseSelectorJson_made h
  obtain ⟨out, hwrite, htext⟩ := selector_text s hwritten
  have hreread := reread_rejoin (hwritten.both (fun _ _ _ => kept_of_written) hends)
  rw [hreread] at htext
  exact ⟨out, rejoin s, hwrite, htext.parse, (write_rejoin s).trans hwrite, fun req => apply_rejoin req s⟩

/-- The values of an `in` that were written as one text come back as an array, and are looked for alike. -/
theorem streamApply_exported_in :
    ∃ s out s', parseSelectorJson (ascii "\x7b\"in\":\x7b\"field\":\"/a[]\",\"any\":\"x|2\"\x7d\x7d") = .ok s ∧
      writeSelectorJson s = .ok out ∧ parseSelectorJson out = .ok s' ∧ writeSelectorJson s' = .ok out ∧
        ∀ (req : StreamRequest Unit) (allowSpool : Bool) (chunks : List Bytes) (user : Unit),
          streamApplyCommon { req with selector := s' } allowSpool chunks user =
            streamApplyCommon { req with selector := s } allowSpool chunks user := by
  have hread : (parseSelectorJson
      (ascii "\x7b\"in\":\x7b\"field\":\"/a[]\",\"any\":\"x|2\"\x7d\x7d")).toOption.map
        (fun s => (s.payload.field, s.children.length)) = some (some (ascii "/a/[]"), 0) := by decide +kernel
  cases h : parseSelectorJson (ascii "\x7b\"in\":\x7b\"field\":\"/a[]\",\"any\":\"x|2\"\x7d\x7d") with
  | error e =>
    rw [h] at hread
    cases hread
  | ok s =>
    rw [h] at hread
    obtain ⟨kind, p, children⟩ := s
    obtain ⟨hfield, hchildren⟩ := Prod.mk.inj (Option.some.inj hread)
    obtain rfl : children = [] := List.length_eq_zero_iff.mp hchildren
    have hends : (Selector.node kind p []).Each fun _ p _ => ∀ field, p.field = some field → EndsFull field := by
      refine ⟨fun field hf => .inr ?_, trivial⟩
      rw [show p.field = some (ascii "/a/[]") from hfield] at hf
      cases hf
      decide +kernel
    obtain ⟨out, s', hwrite, hagain, hsame, hruns⟩ := streamApply_exported h hends
    exact ⟨_, out, s', rfl, hwrite, hagain, hsame, hruns⟩

end Lql.Stream
