import Lql.Scan.Stop
import Lql.Stream.Plan

/-!
# The stop mask of a plan

The mask that a plan hands to the scan is empty, or it names all terms of the plan: a conjunction has no stop mask
unless each of its members has one, and a predicate has none unless it has exactly one term. So a scan with the mask
stops when it has found all its terms.
-/

namespace Lql.Stream

open Lib Scan Selector
open Selector (Selector)

variable {bounds : Option TimeBounds}

/-! ## What a node appends -/

/-- Some terms for the node at `a` have been appended. -/
def Program.Pushed (p : Program) (a : Address) (q : Program) : Prop :=
  ∃ ts, q.terms = p.terms ++ ts ∧ q.selectors = p.selectors ++ List.replicate ts.length a

section Pushed

variable {p q r : Program} {a : Address}

theorem Program.Pushed.refl : p.Pushed a p := ⟨[], by simp, by simp⟩

theorem Program.Pushed.push (t : Term) : p.Pushed a (p.push a t) := ⟨[t], rfl, rfl⟩

theorem Program.Pushed.trans (h1 : p.Pushed a q) (h2 : q.Pushed a r) : p.Pushed a r := by
  obtain ⟨ts, ht, hs⟩ := h1
  obtain ⟨ts', ht', hs'⟩ := h2
  refine ⟨ts ++ ts', ?_, ?_⟩
  · rw [ht', ht, List.append_assoc]
  · rw [hs', hs, List.append_assoc, List.length_append, List.replicate_add]

theorem pushed_map {t : Option Term} (h : t.map (p.push a) = some q) : p.Pushed a q := by
  obtain ⟨u, -, rfl⟩ := Option.map_eq_some_iff.mp h
  exact .push u

theorem pushed_containsAny {path : Term} {ignoreCase : Bool} : ∀ {items : List AnyValue} {p : Program},
    flatEqAppendContainsAny a path ignoreCase items p = some q → p.Pushed a q
  | [], p, h => by
    cases h
    exact .refl
  | item :: rest, p, h => by
    rw [flatEqAppendContainsAny] at h
    split at h
    · cases h
    split at h
    · cases h
    · exact .trans (.push _) (pushed_containsAny h)

theorem pushed_contains {pl : Payload} {path : Term} {ignoreCase : Bool}
    (h : flatEqAppendContains p a pl path ignoreCase = some q) : p.Pushed a q := by
  unfold flatEqAppendContains at h
  split at h
  · exact pushed_containsAny h
  split at h
  · cases h
    exact .push _
  split at h
  · cases h
  · obtain ⟨value, -, h⟩ := Option.bind_eq_some_iff.mp h
    exact pushed_map h

theorem pushed_in {path : Term} : ∀ (items : List AnyValue) (p : Program), p.Pushed a (flatEqAppendIn a path items p)
  | [], _ => .refl
  | item :: rest, p => by
    rw [flatEqAppendIn]
    exact .trans (.push _) (pushed_in rest _)

theorem append_predicate {kind : SelectorKind} (hk : kind ≠ .all ∧ kind ≠ .and ∧ kind ≠ .or ∧ kind ≠ .not)
    {pl : Payload} {children : List Selector} :
    flatEqAppend bounds p a (.node kind pl children) = flatEqAppendPredicate bounds p a kind pl := by
  obtain ⟨hall, hand, hor, hnot⟩ := hk
  cases kind with
  | all => exact absurd rfl hall
  | and => exact absurd rfl hand
  | or => exact absurd rfl hor
  | not => exact absurd rfl hnot
  | _ => rfl

/-- A predicate appends terms of its own. -/
theorem pushed_predicate {kind : SelectorKind} {pl : Payload}
    (h : flatEqAppendPredicate bounds p a kind pl = some q) : p.Pushed a q := by
  unfold flatEqAppendPredicate at h
  obtain ⟨path, -, h⟩ := Option.bind_eq_some_iff.mp h
  split at h
  · split at h
    · cases h
    · cases h
      exact pushed_in _ _
  · exact pushed_contains h
  · exact pushed_contains h
  · cases h
    exact .push _
  · exact pushed_map h
  · exact pushed_map h

end Pushed

/-! ## Terms and nodes -/

/-- Every term has its node. -/
def Program.Level (p : Program) : Prop := p.selectors.length = p.terms.length

/-- The plan `q` goes on where `p` ends. -/
structure Program.Grows (p q : Program) : Prop where
  selectors : p.selectors <+: q.selectors
  terms : p.terms <+: q.terms
  level : p.Level → q.Level

theorem Program.Grows.refl (p : Program) : p.Grows p := ⟨List.prefix_rfl, List.prefix_rfl, id⟩

theorem Program.Grows.trans {p q r : Program} (h1 : p.Grows q) (h2 : q.Grows r) : p.Grows r :=
  ⟨h1.selectors.trans h2.selectors, h1.terms.trans h2.terms, h2.level ∘ h1.level⟩

theorem Program.Pushed.grows {p q : Program} {a : Address} (h : p.Pushed a q) : p.Grows q := by
  obtain ⟨ts, ht, hs⟩ := h
  refine ⟨⟨_, hs.symm⟩, ⟨_, ht.symm⟩, fun hlevel => ?_⟩
  rw [Program.Level, ht, hs, List.length_append, List.length_append, List.length_replicate, hlevel]

mutual

theorem append_grows : ∀ (s : Selector) {p q : Program} {a : Address},
    flatEqAppend bounds p a s = some q → p.Grows q
  | .node kind pl children, p, q, a, h => by
    cases kind with
    | all =>
      cases h
      exact .refl p
    | and => exact children_grow children h
    | or => exact children_grow children h
    | not =>
      obtain ⟨r, hr, h⟩ := Option.bind_eq_some_iff.mp h
      split at h
      · cases h
        exact children_grow children hr
      · cases h
    | _ =>
      rw [append_predicate (by simp)] at h
      exact (pushed_predicate h).grows

theorem children_grow : ∀ (children : List Selector) {p q : Program} {a : Address} {i : Nat},
    flatEqAppendChildren bounds p a i children = some q → p.Grows q
  | [], p, q, a, i, h => by
    cases h
    exact .refl p
  | child :: rest, p, q, a, i, h => by
    rw [flatEqAppendChildren] at h
    split at h
    · cases h
    · next r hr => exact (append_grows child hr).trans (children_grow rest h)

end

/-! ## The mask -/

/-- The mask has the terms that `q` has and `p` has not. -/
def Covers (p q : Program) (mask : Mask) : Prop :=
  ∀ i, p.terms.length ≤ i → i < q.terms.length → mask.has i = true

section Covers

variable {P p q : Program} {a : Address}

/-- A predicate's mask has the one term that the predicate has. -/
theorem leaf_covers (hword : P.terms.length ≤ 64) (hlevel : p.Level) (hpush : p.Pushed a q) (hgrow : q.Grows P)
    (hmask : flatEqLeafStopMask P a ≠ 0) : Covers p q (flatEqLeafStopMask P a) := by
  intro i hlow hhigh
  obtain ⟨ts, hterms, hselectors⟩ := hpush
  have hi : i < P.terms.length := Nat.lt_of_lt_of_le hhigh hgrow.terms.length_le
  -- the term was made for the node at `a`
  have hnode : P.selectors[i]? = some a := by
    obtain ⟨more, hmore⟩ := hgrow.selectors
    have hts : i - p.selectors.length < ts.length := by
      rw [hterms, List.length_append] at hhigh
      rw [hlevel]
      omega
    have hq : q.selectors[i]? = some a := by
      rw [hselectors, List.getElem?_append_right (hlevel ▸ hlow), List.getElem?_replicate, if_pos hts]
    rw [← hmore, List.getElem?_append_left (List.getElem?_eq_some_iff.mp hq).1]
    exact hq
  have hmem : i ∈ (List.range P.terms.length).filter fun i => P.selectors[i]? = some a :=
    List.mem_filter.mpr ⟨List.mem_range.mpr hi, decide_eq_true hnode⟩
  unfold flatEqLeafStopMask at hmask ⊢
  split
  · next j hj =>
    rw [hj, List.mem_singleton] at hmem
    rw [hmem, Mask.has_bit, decide_eq_true (by omega), decide_eq_true rfl]
    rfl
  · next hno =>
    split at hmask
    · next j hj => exact absurd hj (hno j)
    · exact absurd rfl hmask

mutual

/-- **A stop mask has all terms of its node.** -/
theorem stop_covers (hword : P.terms.length ≤ 64) : ∀ (s : Selector) {p q : Program} {a : Address}, p.Level →
    flatEqAppend bounds p a s = some q → q.Grows P → flatEqStopMask P a s ≠ 0 → Covers p q (flatEqStopMask P a s)
  | .node kind pl children, p, q, a, hlevel, h, hgrow, hmask => by
    cases kind with
    | and => exact (stops_cover hword children hlevel h hgrow hmask).1
    | all => exact absurd rfl hmask
    | or => exact absurd rfl hmask
    | not => exact absurd rfl hmask
    | ne => exact absurd rfl hmask
    | isIn => exact absurd rfl hmask
    | _ =>
      rw [append_predicate (by simp)] at h
      exact leaf_covers hword hlevel (pushed_predicate h) hgrow hmask

theorem stops_cover (hword : P.terms.length ≤ 64) : ∀ (children : List Selector) {p q : Program} {a : Address} {i : Nat}
    {mask : Mask}, p.Level → flatEqAppendChildren bounds p a i children = some q → q.Grows P →
    flatEqStopMasks P a mask i children ≠ 0 →
    Covers p q (flatEqStopMasks P a mask i children) ∧
      ∀ j, mask.has j = true → (flatEqStopMasks P a mask i children).has j = true
  | [], p, q, a, i, mask, hlevel, h, hgrow, hmask => by
    cases h
    refine ⟨?_, fun j hj => hj⟩
    intro j hlow hhigh
    exact absurd hhigh (Nat.not_lt.mpr hlow)
  | child :: rest, p, q, a, i, mask, hlevel, h, hgrow, hmask => by
    rw [flatEqAppendChildren] at h
    rw [flatEqStopMasks] at hmask ⊢
    split at h
    · cases h
    next r hr =>
    split at hmask
    · exact absurd rfl hmask
    next hstop =>
    rw [if_neg hstop]
    have hfirst : p.Grows r := append_grows child hr
    have hchild := stop_covers hword child hlevel hr ((children_grow rest h).trans hgrow) hstop
    obtain ⟨hrest, hkept⟩ := stops_cover hword rest (hfirst.level hlevel) h hgrow hmask
    refine ⟨?_, ?_⟩
    · intro j hlow hhigh
      by_cases hj : j < r.terms.length
      · exact hkept j (by rw [Mask.has_or, hchild j hlow hj, Bool.or_true])
      · exact hrest j (Nat.le_of_not_lt hj) hhigh
    · intro j hj
      exact hkept j (by rw [Mask.has_or, hj, Bool.true_or])

end

end Covers

/-! ## Scans with a stop mask -/

section Scans

variable {s : Selector} {program : Program} {capture : Bool} {keys : List (List Bytes)}
  {wide : List Term × List (List Bytes)}

/-- A scan with a stop mask has the terms of the plan, and they fit into a word. -/
theorem flatEqScan_stops (h : (flatEqScan program s capture keys wide).stopMatchingOnHit = true) :
    program.terms.length ≤ wordBits ∧ flatEqStopMask program [] s ≠ 0 ∧
      (flatEqScan program s capture keys wide).terms = program.terms ∧
      (flatEqScan program s capture keys wide).stopHitMask = flatEqStopMask program [] s := by
  simp only [flatEqScan, Bool.and_eq_true, Bool.not_eq_true', decide_eq_true_eq] at h
  have hfits := h.1
  rw [Bool.or_eq_false_iff, decide_eq_false_iff_not] at hfits
  refine ⟨Nat.le_of_not_lt hfits.1, h.2, ?_, ?_⟩
  · simp only [flatEqScan, h.1]
    rfl
  · simp only [flatEqScan, h.1]
    rfl

/-- The scan of a plan stops only when it has found all its terms. -/
theorem flatEqScan_patient (hplan : plan bounds s = some program) :
    Patient (flatEqScan program s capture keys wide) := by
  intro hits hbounded hready i hi
  have hstops : (flatEqScan program s capture keys wide).stopMatchingOnHit = true := by
    rw [stopHitReady, Bool.and_eq_true] at hready
    exact hready.1
  obtain ⟨hword, hmask, hterms, hstop⟩ := flatEqScan_stops hstops
  rw [Ctx.n, hterms] at hi
  have hlevel : ({} : Program).Level := rfl
  have hcovers : Covers {} program (flatEqStopMask program [] s) :=
    stop_covers hword s hlevel hplan (.refl program) hmask
  rw [stopHitReady, hstop, if_neg hmask, Bool.and_eq_true, decide_eq_true_eq] at hready
  have hboth := hcovers i (Nat.zero_le i) hi
  rw [← hready.2, Mask.has_and, Bool.and_eq_true] at hboth
  exact hboth.1

end Scans

/-- `exists` at a path. -/
def existsAt (path : Bytes) : Selector := .leaf .exist { field := some path }

/-- `{"a":1,"b":` with `1` in 127 arrays. -/
def deepArrays : Bytes :=
  ascii "\x7b\"a\":1,\"b\":" ++ List.replicate 127 chLBracket ++ ascii "1" ++ List.replicate 127 chRBracket ++ ascii "\x7d"

end Lql.Stream
