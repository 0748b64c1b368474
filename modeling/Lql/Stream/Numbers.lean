import Lql.Scan.Records
import Lql.Selector.WellFormed
import Lql.Stream.Apply
import Lql.Stream.Stop

/-!
# The numbers of a plan

A selector that compares with a number keeps the text of a JSON number, as its parser has checked. What the plan makes of it,
and what is left of that when equal terms are scanned for once, compares numbers with numbers.
-/

namespace Lql.Stream

open Lib Scan Selector
open Selector (Selector)

/-- The numbers of the selector are JSON numbers, as its parser checks. -/
def NumbersOk (s : Selector) : Prop := s.Each fun _ p _ => p.NumbersOk

/-- What is accepted as JSON has numbers for its numbers. -/
theorem numbersOk_of_wellFormed {s : Selector} (h : s.WellFormed) : NumbersOk s := h.imp fun _ _ _ h => h.numbers

/-- All terms of the plan have numbers for their numbers. -/
def Program.NumbersOk (program : Program) : Prop :=
  (∀ t ∈ program.terms, t.NumberOk) ∧ ∀ t ∈ program.scanTerms, t.NumberOk

variable {program q : Program} {a : Address} {path : Term} {p : Payload}

theorem Program.NumbersOk.push (h : program.NumbersOk) {t : Term} (ht : t.NumberOk) : (program.push a t).NumbersOk := by
  refine ⟨fun u hu => ?_, h.2⟩
  rcases List.mem_append.mp hu with hu | hu
  · exact h.1 u hu
  · rw [List.mem_singleton] at hu
    exact hu ▸ ht

theorem flatEqLiteralKind_number {kind : LiteralKind} (h : flatEqLiteralKind kind = .numberEq) : kind = .number := by
  cases kind <;> first | rfl | cases h

/-- A literal of a kind is compared as one of its kind. -/
theorem numberOk_literal (path : Term) {kind : LiteralKind} {value : Bytes} (h : kind = .number → Number.isJson value = true) :
    ({ path with kind := flatEqLiteralKind kind, value } : Term).NumberOk :=
  ⟨fun hk => h (flatEqLiteralKind_number hk), fun hk => by cases kind <;> cases hk⟩

theorem numbersOk_in : ∀ {items : List AnyValue} {program : Program}, program.NumbersOk →
    (∀ item ∈ items, item.kind = .number → Number.isJson item.text = true) →
    (flatEqAppendIn a path items program).NumbersOk
  | [], program, h, _ => h
  | item :: rest, program, h, hi => by
    rw [flatEqAppendIn]
    exact numbersOk_in (h.push (numberOk_literal path (hi item List.mem_cons_self))) fun other hmem =>
      hi other (List.mem_cons_of_mem _ hmem)

theorem numberOk_contains {ignoreCase : Bool} {value : Bytes} {t : Term}
    (h : flatEqContainsTerm path ignoreCase value = some t) : t.NumberOk := by
  unfold flatEqContainsTerm at h
  split at h
  · obtain ⟨lowered, -, rfl⟩ := Option.map_eq_some_iff.mp h
    exact Term.numberOk_of_kind ⟨by simp, by simp⟩
  · cases h
    exact Term.numberOk_of_kind ⟨by simp, by simp⟩

theorem numbersOk_containsAny {ignoreCase : Bool} : ∀ {items : List AnyValue} {program q : Program}, program.NumbersOk →
    flatEqAppendContainsAny a path ignoreCase items program = some q → q.NumbersOk
  | [], program, q, h, hq => by
    cases hq
    exact h
  | item :: rest, program, q, h, hq => by
    rw [flatEqAppendContainsAny] at hq
    split at hq
    · cases hq
    split at hq
    · cases hq
    · next t ht => exact numbersOk_containsAny (h.push (numberOk_contains ht)) hq

theorem numbersOk_appendContains {ignoreCase : Bool} (h : program.NumbersOk)
    (hq : flatEqAppendContains program a p path ignoreCase = some q) : q.NumbersOk := by
  unfold flatEqAppendContains at hq
  split at hq
  · exact numbersOk_containsAny h hq
  split at hq
  · cases hq
    exact h.push (Term.numberOk_of_kind ⟨by simp, by simp⟩)
  split at hq
  · cases hq
  · obtain ⟨value, -, hq⟩ := Option.bind_eq_some_iff.mp hq
    obtain ⟨t, ht, rfl⟩ := Option.map_eq_some_iff.mp hq
    exact h.push (numberOk_contains ht)

theorem numberOk_range (hp : p.NumbersOk) : (flatEqRangeTerm p path).NumberOk := by
  have hbound : p.rangeIsTemporal = false → ∀ key b, flatEqBound p key = some b → Number.isJson b.text = true := by
    intro hr key b hb
    unfold flatEqBound at hb
    obtain ⟨u, hu, rfl⟩ := Option.map_eq_some_iff.mp hb
    exact hp.range hr key (by rw [hu]; rfl)
  constructor
  · intro hk
    unfold flatEqRangeTerm at hk
    dsimp only at hk
    split at hk <;> cases hk
  · intro hk b hb
    have hr : p.rangeIsTemporal = false := by
      by_contra hr
      simp [flatEqRangeTerm, hr] at hk
    rcases hb with hb | hb | hb | hb
    · exact hbound hr .gt b hb
    · exact hbound hr .gte b hb
    · exact hbound hr .lt b hb
    · exact hbound hr .lte b hb

theorem numberOk_date {bounds : Option TimeBounds} {t : Term} (h : flatEqDateTerm bounds p path = some t) : t.NumberOk := by
  have hkind : t.kind = .temporalRange := by
    unfold flatEqDateTerm at h
    dsimp only at h
    split at h
    · cases h
      rfl
    all_goals
      obtain ⟨value, -, rfl⟩ := Option.map_eq_some_iff.mp h
      rfl
  exact Term.numberOk_of_kind (by rw [hkind]; exact ⟨by simp, by simp⟩)

theorem numberOk_scalar {kind : SelectorKind} {t : Term} (hp : p.NumbersOk) (h : flatEqScalarTerm kind p path = some t) :
    t.NumberOk := by
  have hother : ∀ {t : Term}, t.kind ≠ .numberEq → t.kind ≠ .numberRange → t.NumberOk :=
    fun he hr => Term.numberOk_of_kind ⟨he, hr⟩
  unfold flatEqScalarTerm at h
  dsimp only at h
  split at h
  · cases h
    exact hother (by simp) (by simp)
  split at h
  · next hset =>
    -- without a value there is no number to compare with
    split at h
    · cases h
      exact hother (by simp) (by simp)
    split at h
    · cases h
      refine ⟨fun hk => ?_, fun hk => ?_⟩
      · have hvalue := (hp.value (flatEqLiteralKind_number hk)).1
        simp [hvalue] at hset
      · cases hkind : p.valueKind <;> simp [hkind, flatEqLiteralKind] at hk
    · cases h
      exact hother (by simp) (by simp)
  split at h
  · obtain ⟨value, -, rfl⟩ := Option.map_eq_some_iff.mp h
    exact hother (by simp) (by simp)
  split at h
  · cases h
  split at h
  · obtain ⟨value, hv, rfl⟩ := Option.map_eq_some_iff.mp h
    refine numberOk_literal path fun hk => ?_
    have hvalue := (hp.value hk).2
    rwa [hv] at hvalue
  split at h
  · cases h
  split at h
  · obtain ⟨value, -, rfl⟩ := Option.map_eq_some_iff.mp h
    exact hother (by simp) (by simp)
  · obtain ⟨value, -, rfl⟩ := Option.map_eq_some_iff.mp h
    exact hother (by simp) (by simp)

theorem numbersOk_predicate {bounds : Option TimeBounds} {kind : SelectorKind} (h : program.NumbersOk) (hp : p.NumbersOk)
    (hq : flatEqAppendPredicate bounds program a kind p = some q) : q.NumbersOk := by
  unfold flatEqAppendPredicate at hq
  obtain ⟨path, -, hq⟩ := Option.bind_eq_some_iff.mp hq
  split at hq
  · split at hq
    · cases hq
    · cases hq
      exact numbersOk_in h hp.any
  · exact numbersOk_appendContains h hq
  · exact numbersOk_appendContains h hq
  · cases hq
    exact h.push (numberOk_range hp)
  · obtain ⟨t, ht, rfl⟩ := Option.map_eq_some_iff.mp hq
    exact h.push (numberOk_date ht)
  · obtain ⟨t, ht, rfl⟩ := Option.map_eq_some_iff.mp hq
    exact h.push (numberOk_scalar hp ht)

mutual

/-- **The numbers of a plan are those of its selector.** -/
theorem numbersOk_append {bounds : Option TimeBounds} : ∀ {s : Selector} {program q : Program} {a : Address},
    program.NumbersOk → NumbersOk s → flatEqAppend bounds program a s = some q → q.NumbersOk
  | .node kind p children, program, q, a, h, hs, hq => by
    obtain ⟨hp, hc⟩ := hs
    cases kind with
    | all =>
      cases hq
      exact h
    | and => exact numbersOk_children h hc hq
    | or => exact numbersOk_children h hc hq
    | not =>
      obtain ⟨r, hr, hq⟩ := Option.bind_eq_some_iff.mp hq
      split at hq
      · cases hq
        exact numbersOk_children h hc hr
      · cases hq
    | _ =>
      rw [append_predicate (by simp)] at hq
      exact numbersOk_predicate h hp hq

theorem numbersOk_children {bounds : Option TimeBounds} : ∀ {children : List Selector} {program q : Program} {a : Address}
    {i : Nat}, program.NumbersOk → Selector.EachOf (fun _ p _ => p.NumbersOk) children →
    flatEqAppendChildren bounds program a i children = some q → q.NumbersOk
  | [], program, q, a, i, h, _, hq => by
    cases hq
    exact h
  | child :: rest, program, q, a, i, h, hc, hq => by
    rw [flatEqAppendChildren] at hq
    split at hq
    · cases hq
    · next r hr => exact numbersOk_children (numbersOk_append h hc.1 hr) hc.2 hq

end

theorem flatEqScanTerms_mem : ∀ {terms scanTerms : List Term} {sources : List Nat} {t : Term},
    t ∈ (flatEqScanTerms terms scanTerms sources).1 → t ∈ terms ∨ t ∈ scanTerms
  | [], _, _, _, h => .inr h
  | u :: rest, scanTerms, sources, t, h => by
    rw [flatEqScanTerms] at h
    split at h
    · exact (flatEqScanTerms_mem h).imp_left (List.mem_cons_of_mem _)
    · rcases flatEqScanTerms_mem h with h | h
      · exact .inl (List.mem_cons_of_mem _ h)
      · rcases List.mem_append.mp h with h | h
        · exact .inr h
        · rw [List.mem_singleton] at h
          exact .inl (h ▸ List.mem_cons_self)

theorem Program.NumbersOk.buildScanTerms (h : program.NumbersOk) : program.buildScanTerms.NumbersOk := by
  unfold Program.buildScanTerms
  split
  · exact h
  · refine ⟨h.1, fun t ht => ?_⟩
    rcases flatEqScanTerms_mem ht with ht | ht
    · exact h.1 t ht
    · cases ht

/-- The scan of a plan compares numbers with numbers. -/
theorem plan_numbers {δ : Type} {req : StreamRequest δ} {allowSpool : Bool} {plan : Plan} (hs : NumbersOk req.selector)
    (h : flatEqPlan req allowSpool = .ok plan) :
    ∀ i < (plan.scan req.selector).n, ((plan.scan req.selector).term i).NumberOk := by
  have hprogram : plan.program.NumbersOk := by
    unfold flatEqPlan at h
    dsimp only at h
    generalize (if req.outputMode = .projection ∨ req.outputMode = .projectionThenMutation then req.projection else []) =
      keys at h
    split at h
    · cases h
    split at h
    · cases h
    · cases h
    · next program hplan _ =>
      have hempty : ({} : Program).NumbersOk := ⟨List.forall_mem_nil _, List.forall_mem_nil _⟩
      have hn := numbersOk_append hempty hs hplan
      split at h
      · split at h
        · cases h
        · cases h
          exact hn.buildScanTerms
      · split at h
        · cases h
        · cases h
          exact hn
  refine Ctx.numbers_of_terms fun t ht => ?_
  unfold Plan.scan flatEqScan at ht
  dsimp only at ht
  split at ht
  · split at ht
    · exact hprogram.2 t ht
    · cases ht
  · exact hprogram.1 t ht

end Lql.Stream
