import Lql.Scan.Run

/-!
# What one term finds

A walk over a document finds for each term what the term finds on its own: whether some value it
arrives at satisfies it. The terms share the buffer for long numbers, so this needs a common measure
of what is too long: all terms have the same limit, or no number of the document comes near it.
-/

namespace Lql.Json

mutual

/-- The numbers of a document. -/
def Value.tokens : Value → List Bytes
  | .obj members => members.tokens
  | .arr elements => elements.tokens
  | .num token => [token]
  | .str _ => []
  | .lit _ => []

def Members.tokens : Members → List Bytes
  | .nil => []
  | .cons _ v rest => v.tokens ++ rest.tokens

def Elements.tokens : Elements → List Bytes
  | .nil => []
  | .cons v rest => v.tokens ++ rest.tokens

end

/-- The value is a number of `lim` bytes or more. -/
def Value.long (lim : Nat) : Value → Bool
  | .num token => lim ≤ token.length
  | _ => false

end Lql.Json

namespace Lql.Scan

open Lib Json

variable {ctx : Ctx}

/-! ## One term on its own -/

mutual

/-- The term finds a value below this one: at depth `d` it waits for segment `d` (`o`), or is below
its `...` (`r`). -/
def Term.finds (t : Term) (lim : Nat) : Nat → Bool → Bool → Value → Bool
  | d, o, r, .obj members => t.findsMembers lim d o r members
  | d, o, r, .arr elements => t.findsElements lim d o r 0 elements
  | _, _, _, .str _ => false
  | _, _, _, .num _ => false
  | _, _, _, .lit _ => false

def Term.findsMembers (t : Term) (lim : Nat) : Nat → Bool → Bool → Members → Bool
  | _, _, _, .nil => false
  | d, o, r, .cons key v rest =>
    (t.hereKey d o r key.text && t.satisfies (v.long lim) v) ||
      t.finds lim (d + 1) (t.belowKey d o key.text) (t.joins d o r) v ||
      t.findsMembers lim d o r rest

def Term.findsElements (t : Term) (lim : Nat) : Nat → Bool → Bool → Nat → Elements → Bool
  | _, _, _, _, .nil => false
  | d, o, r, index, .cons v rest =>
    (t.hereIndex d o r index && t.satisfies (v.long lim) v) ||
      t.finds lim (d + 1) (t.atIndex d o r index) (t.carries d o r index) v ||
      t.findsElements lim d o r (index + 1) rest

end

mutual

/-- A term that is not alive finds nothing. -/
theorem Term.finds_dead {t : Term} {lim : Nat} (h : t.deep ≠ some 0) : ∀ (v : Value) (d : Nat),
    t.finds lim d false false v = false
  | .obj ms, d => t.findsMembers_dead h ms d
  | .arr es, d => t.findsElements_dead h es d 0
  | .str _, _ => rfl
  | .num _, _ => rfl
  | .lit _, _ => rfl

theorem Term.findsMembers_dead {t : Term} {lim : Nat} (h : t.deep ≠ some 0) : ∀ (ms : Members) (d : Nat),
    t.findsMembers lim d false false ms = false
  | .nil, _ => rfl
  | .cons key v rest, d => by
    have hj : t.joins d false false = false := by simp [Term.joins, h]
    rw [Term.findsMembers, Term.hereKey, Term.belowKey, hj, t.findsMembers_dead h rest d]
    simp only [Bool.false_and, Bool.or_false, Bool.false_or]
    exact t.finds_dead h v (d + 1)

theorem Term.findsElements_dead {t : Term} {lim : Nat} (h : t.deep ≠ some 0) :
    ∀ (es : Elements) (d index : Nat), t.findsElements lim d false false index es = false
  | .nil, _, _ => rfl
  | .cons v rest, d, index => by
    have hj : t.joins d false false = false := by simp [Term.joins, h]
    rw [Term.findsElements, Term.hereIndex, Term.atIndex, Term.carries, Term.atIndex, hj,
      t.findsElements_dead h rest d (index + 1)]
    simp only [Bool.false_and, Bool.or_false, Bool.false_or]
    exact t.finds_dead h v (d + 1)

end

/-! ## The buffer for numbers -/

/-- A number is judged as if tokens of `lim` bytes or more were too long to keep, as long as the size
of the buffer is one of `sizes`. -/
def Gauge (ctx : Ctx) (lim : Nat) (sizes : Nat → Prop) (token : Bytes) : Prop :=
  ∀ here cap, numberTerms ctx here ≠ 0 → sizes cap →
    sizes (growTo (numberLimit ctx (numberTerms ctx here)) token.length 0 cap).2 ∧
      ∀ i < ctx.n, (ctx.term i).satisfies
          (growTo (numberLimit ctx (numberTerms ctx here)) token.length 0 cap).1 (.num token) =
        (ctx.term i).satisfies (decide (lim ≤ token.length)) (.num token)

/-- The term judges the number alike whether it is kept or not. -/
def Term.steady (t : Term) (token : Bytes) : Bool :=
  t.satisfies true (.num token) = t.satisfies false (.num token)

theorem Term.steady_eq {t : Term} {token : Bytes} (h : t.steady token = true) (excess excess' : Bool) :
    t.satisfies excess (.num token) = t.satisfies excess' (.num token) := by
  have h := of_decide_eq_true h
  cases excess <;> cases excess'
  · rfl
  · exact h.symm
  · exact h
  · rfl

theorem growCap_le {limit k cap : Nat} (h : k + 1 < limit) : growCap limit k cap ≤ limit := by
  unfold growCap
  dsimp only
  split <;> split <;> omega

/-- A buffer within its limit overflows exactly at the limit. -/
theorem growTo_limit {limit : Nat} : ∀ (left k cap : Nat), cap ≤ limit → k < limit →
    (growTo limit left k cap).1 = decide (limit ≤ k + left) ∧ (growTo limit left k cap).2 ≤ limit
  | 0, k, cap, hcap, hk => ⟨(decide_eq_false (by omega)).symm, hcap⟩
  | left + 1, k, cap, hcap, hk => by
    rw [growTo]
    by_cases h1 : k + 1 ≥ cap
    · rw [if_pos h1]
      by_cases h2 : k + 1 ≥ limit
      · rw [if_pos h2]
        exact ⟨(decide_eq_true (by omega)).symm, hcap⟩
      · rw [if_neg h2]
        have := growTo_limit left (k + 1) (growCap limit k cap) (growCap_le (by omega)) (by omega)
        rwa [show k + 1 + left = k + (left + 1) by omega] at this
    · rw [if_neg h1]
      have := growTo_limit left (k + 1) cap hcap (by omega)
      rwa [show k + 1 + left = k + (left + 1) by omega] at this

/-- A token that fits the buffer leaves it as it is. -/
theorem growTo_short {limit : Nat} : ∀ (left k cap : Nat), k + left < cap →
    growTo limit left k cap = (false, cap)
  | 0, _, _, _ => rfl
  | left + 1, k, cap, h => by
    rw [growTo, if_neg (by omega)]
    exact growTo_short left (k + 1) cap (by omega)

theorem le_growCap {limit k cap : Nat} (h : k + 1 ≥ cap) (hk : k + 1 < limit) : cap ≤ growCap limit k cap := by
  unfold growCap
  dsimp only
  split <;> split <;> omega

theorem le_growTo {limit : Nat} : ∀ (left k cap : Nat), cap ≤ (growTo limit left k cap).2
  | 0, _, cap => Nat.le_refl cap
  | left + 1, k, cap => by
    rw [growTo]
    by_cases h1 : k + 1 ≥ cap
    · rw [if_pos h1]
      by_cases h2 : k + 1 ≥ limit
      · rw [if_pos h2]
      · rw [if_neg h2]
        exact Nat.le_trans (le_growCap h1 (by omega)) (le_growTo left (k + 1) _)
    · rw [if_neg h1]
      exact le_growTo left (k + 1) cap

/-- All terms have the same limit. -/
theorem Gauge.of_limit {lim : Nat} (hpos : 0 < lim)
    (h : ∀ here, numberTerms ctx here ≠ 0 → numberLimit ctx (numberTerms ctx here) = lim) (token : Bytes) :
    Gauge ctx lim (· ≤ lim) token := by
  intro here cap hne hcap
  rw [h here hne]
  obtain ⟨hover, hle⟩ := growTo_limit token.length 0 cap hcap hpos
  rw [Nat.zero_add] at hover
  exact ⟨hle, fun i _ => by rw [hover]⟩

/-- The number fits the buffer from the start, or it does not matter whether it does. -/
theorem Gauge.of_steady {token : Bytes}
    (h : token.length < numberMatchBytes ∨ ∀ i < ctx.n, (ctx.term i).steady token = true) :
    Gauge ctx numberMatchBytes (numberMatchBytes ≤ ·) token := by
  intro here cap _ hcap
  refine ⟨Nat.le_trans hcap (le_growTo _ _ _), fun i hi => ?_⟩
  rcases h with hlt | hsteady
  · rw [growTo_short token.length 0 cap (by omega), decide_eq_false (by omega)]
  · exact Term.steady_eq (hsteady i hi) _ _

/-! ## The walk, term by term -/

theorem Term.satisfies_over {t : Term} (h : t.kind ≠ .numberRange ∧ t.kind ≠ .numberEq)
    (excess excess' : Bool) (v : Value) : t.satisfies excess v = t.satisfies excess' v := by
  cases v with
  | num token => simp only [Term.satisfies, Term.present, Term.holds, decide_eq_false h.1,
      decide_eq_false h.2, Bool.false_and]
  | obj _ => rfl
  | arr _ => rfl
  | str _ => rfl
  | lit l => cases l <;> rfl

theorem numberTerms_zero (hc : CtxOk ctx) {here : Mask} (h : numberTerms ctx here = 0) {i : Nat}
    (hi : i < ctx.n) (hh : here.has i = true) :
    (ctx.term i).kind ≠ .numberRange ∧ (ctx.term i).kind ≠ .numberEq := by
  have := Mask.eq_zero_iff.mp h i
  rw [numberTerms, maskOf_has_le hc.terms, hh] at this
  simpa [hi] using this

/-- What one term gets from a value that is held against the terms of `here`. -/
theorem meet_finds (hc : CtxOk ctx) {lim : Nat} {sizes : Nat → Prop} {v : Value} {w : Walk} {here : Mask}
    (hg : ∀ token ∈ v.tokens, Gauge ctx lim sizes token) (hw : sizes w.cap) :
    sizes (w.meet ctx here v).cap ∧ ∀ i < ctx.n, (w.meet ctx here v).hits.has i =
      (w.hits.has i || (here.has i && (ctx.term i).satisfies (v.long lim) v)) := by
  have hjudge : sizes (overflows ctx here w.cap v).2 ∧ ∀ i < ctx.n, here.has i = true →
      (ctx.term i).satisfies (overflows ctx here w.cap v).1 v = (ctx.term i).satisfies (v.long lim) v := by
    cases v with
    | num token =>
        rw [overflows]
        split
        · next h0 =>
            exact ⟨hw, fun i hi hh => Term.satisfies_over (numberTerms_zero hc h0 hi hh) _ _ _⟩
        · next h0 =>
            obtain ⟨hs, ho⟩ := hg token (List.mem_singleton.mpr rfl) here w.cap h0 hw
            exact ⟨hs, fun i hi _ => ho i hi⟩
    | obj _ => exact ⟨hw, fun _ _ _ => rfl⟩
    | arr _ => exact ⟨hw, fun _ _ _ => rfl⟩
    | str _ => exact ⟨hw, fun _ _ _ => rfl⟩
    | lit _ => exact ⟨hw, fun _ _ _ => rfl⟩
  refine ⟨hjudge.1, fun i hi => ?_⟩
  rw [Walk.meet, Mask.has_or, maskOf_has_le hc.terms, decide_eq_true hi, Bool.true_and]
  cases hh : here.has i with
  | false => simp
  | true => rw [hjudge.2 i hi hh]

theorem gate_open {hits : Mask} (h : stopHitReady ctx hits = false) (M : Mask) : Scan.gate ctx hits M = M := by
  simp [Scan.gate, h]

theorem stopHitReady_off (h : ctx.stopMatchingOnHit = false) (hits : Mask) : stopHitReady ctx hits = false := by
  simp [stopHitReady, h]

/-- All hits are terms of the scan. -/
def Bounded (ctx : Ctx) (hits : Mask) : Prop := ∀ i, hits.has i = true → i < ctx.n

/-- A scan stops early only when it has found all its terms. -/
def Patient (ctx : Ctx) : Prop :=
  ∀ hits, Bounded ctx hits → stopHitReady ctx hits = true → ∀ i < ctx.n, hits.has i = true

theorem Patient.off (h : ctx.stopMatchingOnHit = false) : Patient ctx := by
  intro hits _ hr
  rw [stopHitReady_off h] at hr
  cases hr

/-- A scan for one term is patient. -/
theorem Patient.single (h : ctx.n = 1) : Patient ctx := by
  intro hits hb hr i hi
  obtain rfl : i = 0 := by omega
  have hne : ∃ j, hits.has j = true := by
    simp only [stopHitReady, Bool.and_eq_true] at hr
    have hr := hr.2
    split at hr
    · exact Mask.ne_zero_iff.mp (of_decide_eq_true hr)
    · next hmask =>
        obtain ⟨j, hj⟩ := Mask.ne_zero_iff.mp hmask
        rw [← of_decide_eq_true hr, Mask.has_and, Bool.and_eq_true] at hj
        exact ⟨j, hj.1⟩
  obtain ⟨j, hj⟩ := hne
  have := hb j hj
  obtain rfl : j = 0 := by omega
  exact hj

/-- Hits are never taken back. -/
theorem keeps_hits (ctx : Ctx) : Keeps ctx fun w w' => ∀ i, w.hits.has i = true → w'.hits.has i = true where
  refl := fun _ _ h => h
  trans := fun h1 h2 i h => h2 i (h1 i h)
  put := fun _ _ _ h => h
  meet := fun w here v i h => by rw [Walk.meet, Mask.has_or, h, Bool.true_or]
  note := fun _ _ _ _ h => h

theorem keeps_bounded (ctx : Ctx) : Keeps ctx fun w w' => Bounded ctx w.hits → Bounded ctx w'.hits where
  refl := fun _ h => h
  trans := fun h1 h2 h => h2 (h1 h)
  put := fun _ _ h => h
  meet := fun w here v h i hi => by
    rw [Walk.meet, Mask.has_or, Bool.or_eq_true] at hi
    rcases hi with hi | hi
    · exact h i hi
    · rw [maskOf_has] at hi
      simp only [Bool.and_eq_true, decide_eq_true_eq] at hi
      exact hi.1.1
  note := fun _ _ _ h => h

/-- What a walk from `w` to `w'` has found for each term. -/
structure Finds (ctx : Ctx) (sizes : Nat → Prop) (w w' : Walk) (found : Nat → Bool) : Prop where
  cap : sizes w'.cap
  hits : ∀ i < ctx.n, w'.hits.has i = (w.hits.has i || found i)

section Finds

variable {lim d : Nat} {sizes : Nat → Prop} {A R C : Mask}

/-- Nothing looks at the value of this key. -/
theorem idle_finds (hc : CtxOk ctx) {hits : Mask} (hs : stopHitReady ctx hits = false) {key : Bytes}
    (h : (keyDescent ctx d A R C hits key).idle = true) {i : Nat} (hi : i < ctx.n) (v : Value) :
    ((ctx.term i).hereKey d (A.has i) (R.has i) key && (ctx.term i).satisfies (v.long lim) v ||
      (ctx.term i).finds lim (d + 1) ((ctx.term i).belowKey d (A.has i) key)
        ((ctx.term i).joins d (A.has i) (R.has i)) v) = false := by
  simp only [Descent.idle, keyDescent, gate_open hs, Bool.and_eq_true, decide_eq_true_eq] at h
  obtain ⟨⟨⟨hhere, hbelow⟩, hrec⟩, -⟩ := h
  have hhere := Mask.eq_zero_iff.mp hhere i
  have hbelow := Mask.eq_zero_iff.mp hbelow i
  have hrec := Mask.eq_zero_iff.mp hrec i
  rw [hereTerms, maskOf_has_le hc.terms, decide_eq_true hi, Bool.true_and] at hhere
  rw [belowTerms, maskOf_has_le hc.terms, decide_eq_true hi, Bool.true_and] at hbelow
  rw [recTerms_has hc, decide_eq_true hi, Bool.true_and] at hrec
  have hdeep : (ctx.term i).deep ≠ some 0 := by
    intro e
    simp [Term.joins, e] at hrec
  rw [hhere, hbelow, hrec, Term.finds_dead hdeep]
  rfl

mutual

/-- **A walk finds for each term what the term finds on its own.** -/
theorem walkValue_finds (hc : CtxOk ctx) (hs : Patient ctx) :
    ∀ (v : Value) {d : Nat} {A R C : Mask} {w w' : Walk},
      (∀ token ∈ v.tokens, Gauge ctx lim sizes token) → sizes w.cap → Bounded ctx w.hits →
      walkValue ctx d A R C v w = some w' →
      Finds ctx sizes w w' fun i => (ctx.term i).finds lim d (A.has i) (R.has i) v
  | .obj ms, d, A, R, C, w, w', hg, hw, hb, he => by
    rw [walkValue] at he
    split at he
    · have := walkMembers_finds (w := w.put ctx [chLBrace]) hc hs ms hg hw hb he
      exact ⟨this.cap, this.hits⟩
    · cases he
  | .arr es, d, A, R, C, w, w', hg, hw, hb, he => by
    rw [walkValue] at he
    split at he
    · have := walkElements_finds (w := w.put ctx [chLBracket]) hc hs es hg hw hb he
      exact ⟨this.cap, this.hits⟩
    · cases he
  | .str _, d, A, R, C, w, w', _, hw, _, he => by
    rw [walkValue] at he
    cases he
    exact ⟨hw, fun i _ => (Bool.or_false _).symm⟩
  | .num _, d, A, R, C, w, w', _, hw, _, he => by
    rw [walkValue] at he
    cases he
    exact ⟨hw, fun i _ => (Bool.or_false _).symm⟩
  | .lit _, d, A, R, C, w, w', _, hw, _, he => by
    rw [walkValue] at he
    cases he
    exact ⟨hw, fun i _ => (Bool.or_false _).symm⟩

theorem walkMembers_finds (hc : CtxOk ctx) (hs : Patient ctx) :
    ∀ (ms : Json.Members) {d : Nat} {A R C : Mask} {w w' : Walk},
      (∀ token ∈ ms.tokens, Gauge ctx lim sizes token) → sizes w.cap → Bounded ctx w.hits →
      walkMembers ctx d A R C ms w = some w' →
      Finds ctx sizes w w' fun i => (ctx.term i).findsMembers lim d (A.has i) (R.has i) ms
  | .nil, d, A, R, C, w, w', _, hw, _, he => by
    rw [walkMembers] at he
    cases he
    exact ⟨hw, fun i _ => (Bool.or_false _).symm⟩
  | .cons key v rest, d, A, R, C, w, w', hg, hw, hb, he => by
    rw [walkMembers_cons] at he
    obtain ⟨w1, h1, h2⟩ := Option.bind_eq_some_iff.mp he
    have hgv : ∀ token ∈ v.tokens, Gauge ctx lim sizes token :=
      fun token ht => hg token (List.mem_append_left _ ht)
    have hgr : ∀ token ∈ rest.tokens, Gauge ctx lim sizes token :=
      fun token ht => hg token (List.mem_append_right _ ht)
    have hmono : ∀ i, w.hits.has i = true → w1.hits.has i = true := (keeps_hits ctx).member h1
    have hmember : Finds ctx sizes w w1 fun i =>
        (ctx.term i).hereKey d (A.has i) (R.has i) key.text && (ctx.term i).satisfies (v.long lim) v ||
          (ctx.term i).finds lim (d + 1) ((ctx.term i).belowKey d (A.has i) key.text)
            ((ctx.term i).joins d (A.has i) (R.has i)) v := by
      -- a scan that has stopped has found all terms
      have hready : stopHitReady ctx w.hits = true → ∀ i < ctx.n, w.hits.has i = true ∧ w1.hits.has i = true :=
        fun hr i hi => ⟨hs w.hits hb hr i hi, hmono i (hs w.hits hb hr i hi)⟩
      rw [walkMember] at h1
      dsimp only at h1
      split at h1
      · next hskip =>
          split at h1
          · cases h1
            refine ⟨hw, fun i hi => ?_⟩
            cases hr : stopHitReady ctx w.hits with
            | true => rw [(hready hr i hi).1, Bool.true_or]
            | false =>
                rw [hr] at hskip
                simp only [Bool.false_and, Bool.false_or, Bool.and_eq_true] at hskip
                rw [idle_finds hc hr hskip.2 hi v, Bool.or_false]
          · cases h1
      · obtain ⟨w2, hv, rfl⟩ := Option.map_eq_some_iff.mp h1
        obtain ⟨hcap, hmeet⟩ := meet_finds (w := w.put ctx (key.quoted ++ [chColon])) hc hgv hw
        obtain ⟨hcap2, hbelow⟩ := walkValue_finds hc hs v hgv hcap ((keeps_bounded ctx).meet _ _ _ hb) hv
        refine ⟨hcap2, fun i hi => ?_⟩
        cases hr : stopHitReady ctx w.hits with
        | true => rw [(hready hr i hi).1, (hready hr i hi).2, Bool.true_or]
        | false =>
            show w2.hits.has i = _
            rw [hbelow i hi, hmeet i hi, Bool.or_assoc]
            simp only [keyDescent, gate_open hr, hereTerms, belowTerms, recTerms_has hc,
              maskOf_has_le hc.terms, decide_eq_true hi, Bool.true_and]
            rfl
    have hcomma : (w1.comma ctx rest.isNil).cap = w1.cap ∧ (w1.comma ctx rest.isNil).hits = w1.hits := by
      rw [Walk.comma]
      split <;> exact ⟨rfl, rfl⟩
    have hb1 : Bounded ctx (w1.comma ctx rest.isNil).hits := by
      rw [hcomma.2]
      exact (keeps_bounded ctx).member h1 hb
    have hrest := walkMembers_finds hc hs rest hgr (hcomma.1 ▸ hmember.cap) hb1 h2
    refine ⟨hrest.cap, fun i hi => ?_⟩
    rw [hrest.hits i hi, hcomma.2, hmember.hits i hi, Bool.or_assoc]
    rfl

theorem walkElements_finds (hc : CtxOk ctx) (hs : Patient ctx) :
    ∀ (es : Json.Elements) {d index : Nat} {A R C : Mask} {w w' : Walk},
      (∀ token ∈ es.tokens, Gauge ctx lim sizes token) → sizes w.cap → Bounded ctx w.hits →
      walkElements ctx d A R C index es w = some w' →
      Finds ctx sizes w w' fun i => (ctx.term i).findsElements lim d (A.has i) (R.has i) index es
  | .nil, d, index, A, R, C, w, w', _, hw, _, he => by
    rw [walkElements] at he
    cases he
    exact ⟨hw, fun i _ => (Bool.or_false _).symm⟩
  | .cons v rest, d, index, A, R, C, w, w', hg, hw, hb, he => by
    rw [walkElements_cons] at he
    obtain ⟨w1, h1, h2⟩ := Option.bind_eq_some_iff.mp he
    have hgv : ∀ token ∈ v.tokens, Gauge ctx lim sizes token :=
      fun token ht => hg token (List.mem_append_left _ ht)
    have hgr : ∀ token ∈ rest.tokens, Gauge ctx lim sizes token :=
      fun token ht => hg token (List.mem_append_right _ ht)
    have helement : Finds ctx sizes w w1 fun i =>
        (ctx.term i).hereIndex d (A.has i) (R.has i) index && (ctx.term i).satisfies (v.long lim) v ||
          (ctx.term i).finds lim (d + 1) ((ctx.term i).atIndex d (A.has i) (R.has i) index)
            ((ctx.term i).carries d (A.has i) (R.has i) index) v := by
      rw [walkElement] at h1
      obtain ⟨w2, hv, rfl⟩ := Option.map_eq_some_iff.mp h1
      obtain ⟨hcap, hmeet⟩ := meet_finds hc hgv hw
      obtain ⟨hcap2, hbelow⟩ := walkValue_finds hc hs v hgv hcap ((keeps_bounded ctx).meet _ _ _ hb) hv
      refine ⟨hcap2, fun i hi => ?_⟩
      show w2.hits.has i = _
      rw [hbelow i hi, hmeet i hi, Bool.or_assoc]
      simp only [indexDescent, elementHere, elementTerms, elementRec, maskOf_has_le hc.terms,
        decide_eq_true hi, Bool.true_and]
    have hcomma : (w1.comma ctx rest.isNil).cap = w1.cap ∧ (w1.comma ctx rest.isNil).hits = w1.hits := by
      rw [Walk.comma]
      split <;> exact ⟨rfl, rfl⟩
    have hb1 : Bounded ctx (w1.comma ctx rest.isNil).hits := by
      rw [hcomma.2]
      exact (keeps_bounded ctx).element h1 hb
    have hrest := walkElements_finds hc hs rest hgr (hcomma.1 ▸ helement.cap) hb1 h2
    refine ⟨hrest.cap, fun i hi => ?_⟩
    rw [hrest.hits i hi, hcomma.2, helement.hits i hi, Bool.or_assoc]
    rfl

end

end Finds

end Lql.Scan
