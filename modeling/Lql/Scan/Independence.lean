import Lql.Scan.Find

/-!
# What a scan does not depend on

How the reader cuts the input, whether the record is captured, what earlier records were, and which
other terms are looked for: none of this matters for what a term finds in a record, as long as the
terms are followed as they read. Two walks are compared side by side; they may differ in the size of
the buffer for numbers and in what they put out.
-/

namespace Lql.Scan

open Lib Json

/-! ## Room -/

section Room

variable {ctx : Ctx}

mutual

/-- A walk has room for what a scan has room for. -/
theorem walkValue_scans : ∀ (v : Value) {d : Nat} {A R C : Mask} {w : Walk}, v.scans d = true →
    (walkValue ctx d A R C v w).isSome = true
  | .obj ms, d, A, R, C, w, h => by
    rw [Value.scans, Bool.and_eq_true, decide_eq_true_eq] at h
    rw [walkValue, if_pos h.1]
    exact walkMembers_scans ms h.2
  | .arr es, d, A, R, C, w, h => by
    rw [Value.scans, Bool.and_eq_true] at h
    rw [walkValue, if_pos h.1]
    exact walkElements_scans es h.2
  | .str _, _, _, _, _, _, _ => rfl
  | .num _, _, _, _, _, _, _ => rfl
  | .lit _, _, _, _, _, _, _ => rfl

theorem walkMembers_scans : ∀ (ms : Json.Members) {d : Nat} {A R C : Mask} {w : Walk},
    ms.scans (d + 1) = true → (walkMembers ctx d A R C ms w).isSome = true
  | .nil, _, _, _, _, _, _ => rfl
  | .cons key v rest, d, A, R, C, w, h => by
    rw [Members.scans, Bool.and_eq_true] at h
    rw [walkMembers_cons, Option.isSome_bind, Option.any_eq_true]
    have hmember : (walkMember ctx d A R C key v w).isSome = true := by
      rw [walkMember]
      dsimp only
      split
      · rw [if_pos (v.fits_of_scans (d + 1) h.1)]
        rfl
      · rw [Option.isSome_map]
        exact walkValue_scans v h.1
    obtain ⟨w1, h1⟩ := Option.isSome_iff_exists.mp hmember
    exact ⟨w1, h1, walkMembers_scans rest h.2⟩

theorem walkElements_scans : ∀ (es : Json.Elements) {d index : Nat} {A R C : Mask} {w : Walk},
    es.scans (d + 1) = true → (walkElements ctx d A R C index es w).isSome = true
  | .nil, _, _, _, _, _, _, _ => rfl
  | .cons v rest, d, index, A, R, C, w, h => by
    rw [Elements.scans, Bool.and_eq_true] at h
    rw [walkElements_cons, Option.isSome_bind, Option.any_eq_true]
    have helement : (walkElement ctx d A R C index v w).isSome = true := by
      rw [walkElement, Option.isSome_map]
      exact walkValue_scans v h.1
    obtain ⟨w1, h1⟩ := Option.isSome_iff_exists.mp helement
    exact ⟨w1, h1, walkElements_scans rest h.2⟩

end

mutual

/-- What is walked fits; what a capturing scan walks, it has room to look at. -/
theorem walkValue_room : ∀ (v : Value) {d : Nat} {A R C : Mask} {w : Walk},
    (walkValue ctx d A R C v w).isSome = true →
    v.fits maxDepth d = true ∧ (ctx.capture = true → v.scans d = true)
  | .obj ms, d, A, R, C, w, h => by
    rw [walkValue] at h
    split at h
    · next hd =>
        obtain ⟨hf, hs⟩ := walkMembers_room ms h
        rw [Value.fits, Value.scans, hf, decide_eq_true hd]
        exact ⟨rfl, fun hc => hs hc⟩
    · cases h
  | .arr es, d, A, R, C, w, h => by
    rw [walkValue] at h
    split at h
    · next hd =>
        obtain ⟨hf, hs⟩ := walkElements_room es h
        have hlt := hd
        rw [Bool.and_eq_true, decide_eq_true_eq] at hlt
        rw [Value.fits, Value.scans, hf, hd, decide_eq_true hlt.1]
        exact ⟨rfl, fun hc => hs hc⟩
    · cases h
  | .str _, _, _, _, _, _, _ => ⟨rfl, fun _ => rfl⟩
  | .num _, _, _, _, _, _, _ => ⟨rfl, fun _ => rfl⟩
  | .lit _, _, _, _, _, _, _ => ⟨rfl, fun _ => rfl⟩

theorem walkMembers_room : ∀ (ms : Json.Members) {d : Nat} {A R C : Mask} {w : Walk},
    (walkMembers ctx d A R C ms w).isSome = true →
    ms.fits maxDepth (d + 1) = true ∧ (ctx.capture = true → ms.scans (d + 1) = true)
  | .nil, _, _, _, _, _, _ => ⟨rfl, fun _ => rfl⟩
  | .cons key v rest, d, A, R, C, w, h => by
    rw [walkMembers_cons, Option.isSome_bind, Option.any_eq_true] at h
    obtain ⟨w1, h1, h2⟩ := h
    obtain ⟨hf, hs⟩ := walkMembers_room rest h2
    have hv : v.fits maxDepth (d + 1) = true ∧ (ctx.capture = true → v.scans (d + 1) = true) := by
      rw [walkMember] at h1
      dsimp only at h1
      split at h1
      · next hskip =>
          split at h1
          · next hfit =>
              refine ⟨hfit, fun hc => ?_⟩
              rw [hc] at hskip
              cases hskip
          · cases h1
      · have h1 : Option.isSome _ = true := Option.isSome_of_eq_some h1
        rw [Option.isSome_map] at h1
        exact walkValue_room v h1
    rw [Members.fits, Members.scans, hf, hv.1]
    exact ⟨rfl, fun hc => by rw [hv.2 hc, hs hc]; rfl⟩

theorem walkElements_room : ∀ (es : Json.Elements) {d index : Nat} {A R C : Mask} {w : Walk},
    (walkElements ctx d A R C index es w).isSome = true →
    es.fits maxDepth (d + 1) = true ∧ (ctx.capture = true → es.scans (d + 1) = true)
  | .nil, _, _, _, _, _, _, _ => ⟨rfl, fun _ => rfl⟩
  | .cons v rest, d, index, A, R, C, w, h => by
    rw [walkElements_cons, Option.isSome_bind, Option.any_eq_true] at h
    obtain ⟨w1, h1, h2⟩ := h
    obtain ⟨hf, hs⟩ := walkElements_room rest h2
    have h1 : Option.isSome _ = true := Option.isSome_of_eq_some h1
    rw [walkElement, Option.isSome_map] at h1
    have hv := walkValue_room v h1
    rw [Elements.fits, Elements.scans, hf, hv.1]
    exact ⟨rfl, fun hc => by rw [hv.2 hc, hs hc]; rfl⟩

end

end Room

/-! ## Two walks side by side -/

/-- Both walks have found the same, and their buffers are a pair of `caps`. -/
structure Alike (caps : Nat → Nat → Prop) (w w' : Walk) : Prop where
  hits : w.hits = w'.hits
  cap : caps w.cap w'.cap

/-- A number is judged alike with the one buffer and the other. -/
def Judged (ctx : Ctx) (caps : Nat → Nat → Prop) (token : Bytes) : Prop :=
  ∀ here cap cap', numberTerms ctx here ≠ 0 → caps cap cap' →
    caps (growTo (numberLimit ctx (numberTerms ctx here)) token.length 0 cap).2
        (growTo (numberLimit ctx (numberTerms ctx here)) token.length 0 cap').2 ∧
      ∀ i < ctx.n,
        (ctx.term i).satisfies (growTo (numberLimit ctx (numberTerms ctx here)) token.length 0 cap).1
            (.num token) =
          (ctx.term i).satisfies (growTo (numberLimit ctx (numberTerms ctx here)) token.length 0 cap').1
            (.num token)

theorem Judged.same (ctx : Ctx) (token : Bytes) : Judged ctx (· = ·) token := by
  intro here cap cap' _ e
  rw [show cap = cap' from e]
  exact ⟨rfl, fun _ _ => rfl⟩

theorem Judged.of_gauge {ctx : Ctx} {lim : Nat} {sizes : Nat → Prop} {token : Bytes}
    (h : Gauge ctx lim sizes token) : Judged ctx (fun c c' => sizes c ∧ sizes c') token := by
  intro here cap cap' hne hcaps
  obtain ⟨hs, ho⟩ := h here cap hne hcaps.1
  obtain ⟨hs', ho'⟩ := h here cap' hne hcaps.2
  exact ⟨⟨hs, hs'⟩, fun i hi => (ho i hi).trans (ho' i hi).symm⟩

/-- Two scans that look for the same terms: the same scan, or two that never stop early. -/
structure Paired (c1 c2 : Ctx) (C1 C2 : Mask) : Prop where
  ok : CtxOk c1
  ok' : CtxOk c2
  terms : c1.terms = c2.terms
  mode : (c1 = c2 ∧ C1 = C2) ∨ (c1.stopMatchingOnHit = false ∧ c2.stopMatchingOnHit = false)

section Paired

variable {c1 c2 : Ctx} {C1 C2 A R : Mask} {d : Nat} {caps : Nat → Nat → Prop}

theorem Paired.n (h : Paired c1 c2 C1 C2) : c1.n = c2.n := by rw [Ctx.n, Ctx.n, h.terms]

theorem Paired.term (h : Paired c1 c2 C1 C2) (i : Nat) : c1.term i = c2.term i := by
  rw [Ctx.term, Ctx.term, h.terms]

theorem Paired.gate (h : Paired c1 c2 C1 C2) (hits M : Mask) : Scan.gate c1 hits M = Scan.gate c2 hits M := by
  rcases h.mode with ⟨rfl, -⟩ | ⟨h1, h2⟩
  · rfl
  · rw [gate_open (stopHitReady_off h1 hits), gate_open (stopHitReady_off h2 hits)]

/-- A key hands the same terms on in both scans. -/
theorem Paired.key (h : Paired c1 c2 C1 C2) (hits : Mask) (key : Bytes) :
    (keyDescent c1 d A R C1 hits key).here = (keyDescent c2 d A R C2 hits key).here ∧
      (keyDescent c1 d A R C1 hits key).below = (keyDescent c2 d A R C2 hits key).below ∧
      (keyDescent c1 d A R C1 hits key).recursive = (keyDescent c2 d A R C2 hits key).recursive ∧
      Paired c1 c2 (captureDescendants c1 (keyDescent c1 d A R C1 hits key).captures d)
        (captureDescendants c2 (keyDescent c2 d A R C2 hits key).captures d) := by
  refine ⟨?_, ?_, ?_, h.ok, h.ok', h.terms, ?_⟩
  · simp only [keyDescent, hereTerms, h.n, h.term, h.gate]
  · simp only [keyDescent, belowTerms, h.n, h.term, h.gate]
  · simp only [keyDescent, recTerms, h.n, h.term, h.gate]
  · exact h.mode.imp (fun ⟨e, eC⟩ => ⟨e, by rw [e, eC]⟩) id

/-- An index hands the same terms on in both scans. -/
theorem Paired.index (h : Paired c1 c2 C1 C2) (index : Nat) :
    (indexDescent c1 d A R C1 index).here = (indexDescent c2 d A R C2 index).here ∧
      (indexDescent c1 d A R C1 index).below = (indexDescent c2 d A R C2 index).below ∧
      (indexDescent c1 d A R C1 index).recursive = (indexDescent c2 d A R C2 index).recursive ∧
      Paired c1 c2 (captureDescendants c1 (indexDescent c1 d A R C1 index).captures d)
        (captureDescendants c2 (indexDescent c2 d A R C2 index).captures d) := by
  refine ⟨?_, ?_, ?_, h.ok, h.ok', h.terms, ?_⟩
  · simp only [indexDescent, elementHere, h.n, h.term]
  · simp only [indexDescent, elementTerms, h.n, h.term]
  · simp only [indexDescent, elementRec, h.n, h.term]
  · exact h.mode.imp (fun ⟨e, eC⟩ => ⟨e, by rw [e, eC]⟩) id

theorem Paired.meet (h : Paired c1 c2 C1 C2) {w1 w2 : Walk} {v : Value} {here : Mask}
    (hj : ∀ token ∈ v.tokens, Judged c1 caps token) (hw : Alike caps w1 w2) :
    Alike caps (w1.meet c1 here v) (w2.meet c2 here v) := by
  have hnum : numberTerms c2 here = numberTerms c1 here := by simp only [numberTerms, h.n, h.term]
  have hlim : numberLimit c2 = numberLimit c1 := by
    funext active
    simp only [numberLimit, h.n, h.term]
  have hjudge : caps (overflows c1 here w1.cap v).2 (overflows c2 here w2.cap v).2 ∧
      ∀ i < c1.n, here.has i = true → (c1.term i).satisfies (overflows c1 here w1.cap v).1 v =
        (c1.term i).satisfies (overflows c2 here w2.cap v).1 v := by
    cases v with
    | num token =>
        rw [overflows, overflows, hnum, hlim]
        split
        · exact ⟨hw.cap, fun _ _ _ => rfl⟩
        · next h0 =>
            obtain ⟨hs, ho⟩ := hj token (List.mem_singleton.mpr rfl) here _ _ h0 hw.cap
            exact ⟨hs, fun i hi _ => ho i hi⟩
    | obj _ => exact ⟨hw.cap, fun _ _ _ => rfl⟩
    | arr _ => exact ⟨hw.cap, fun _ _ _ => rfl⟩
    | str _ => exact ⟨hw.cap, fun _ _ _ => rfl⟩
    | lit _ => exact ⟨hw.cap, fun _ _ _ => rfl⟩
  refine ⟨Mask.ext fun i => ?_, hjudge.1⟩
  rw [Walk.meet, Walk.meet, Mask.has_or, Mask.has_or, maskOf_has_le h.ok.terms,
    maskOf_has_le h.ok'.terms, hw.hits, ← h.n, ← h.term]
  by_cases hi : i < c1.n
  · cases hh : here.has i with
    | false => simp
    | true => rw [hjudge.2 i hi hh]
  · simp [hi]

end Paired

/-! ## Where no term is alive -/

section Dead

variable {ctx : Ctx} {C : Mask} {d : Nat}

/-- No term starts with `...`. -/
def NoLeading (ctx : Ctx) : Prop := ∀ i < ctx.n, (ctx.term i).deep ≠ some 0

theorem maskOf_false {n : Nat} {p : Nat → Bool} (h : ∀ i < n, p i = false) : maskOf n p = 0 := by
  refine Mask.ext fun i => ?_
  rw [maskOf_has, Mask.has_zero]
  by_cases hi : i < n
  · simp [h i hi]
  · simp [hi]

theorem dead_joins (hd : NoLeading ctx) {i : Nat} (hi : i < ctx.n) :
    (ctx.term i).joins d false false = false := by simp [Term.joins, hd i hi]

theorem keyDescent_dead (hd : NoLeading ctx) (hits : Mask) (key : Bytes) :
    (keyDescent ctx d 0 0 C hits key).here = 0 ∧ (keyDescent ctx d 0 0 C hits key).below = 0 ∧
      (keyDescent ctx d 0 0 C hits key).recursive = 0 := by
  have hgate : Scan.gate ctx hits 0 = 0 := by simp [Scan.gate]
  simp only [keyDescent, hgate]
  refine ⟨maskOf_false fun i hi => ?_, maskOf_false fun i hi => ?_, maskOf_false fun i hi => ?_⟩
  · simp [Term.hereKey, dead_joins hd hi]
  · simp [Term.belowKey]
  · simp [dead_joins hd hi]

theorem indexDescent_dead (hd : NoLeading ctx) (index : Nat) :
    (indexDescent ctx d 0 0 C index).here = 0 ∧ (indexDescent ctx d 0 0 C index).below = 0 ∧
      (indexDescent ctx d 0 0 C index).recursive = 0 := by
  simp only [indexDescent]
  refine ⟨maskOf_false fun i hi => ?_, maskOf_false fun i hi => ?_, maskOf_false fun i hi => ?_⟩
  · simp [Term.hereIndex, dead_joins hd hi]
  · simp [Term.atIndex, dead_joins hd hi]
  · simp [Term.carries, Term.atIndex, dead_joins hd hi]

theorem Alike.trans {w1 w2 w3 : Walk} (h1 : Alike (· = ·) w1 w2) (h2 : Alike (· = ·) w2 w3) :
    Alike (· = ·) w1 w3 := ⟨h1.hits.trans h2.hits, h1.cap.trans h2.cap⟩

theorem comma_alike (w : Walk) (last : Bool) : Alike (· = ·) w (w.comma ctx last) := by
  rw [Walk.comma]
  split <;> exact ⟨rfl, rfl⟩

mutual

theorem walkValue_dead (hc : CtxOk ctx) (hd : NoLeading ctx) : ∀ (v : Value) {d : Nat} {C : Mask} {w w' : Walk},
    walkValue ctx d 0 0 C v w = some w' → Alike (· = ·) w w'
  | .obj ms, d, C, w, w', he => by
    rw [walkValue] at he
    split at he
    · have := walkMembers_dead (w := w.put ctx [chLBrace]) hc hd ms he
      exact ⟨this.hits, this.cap⟩
    · cases he
  | .arr es, d, C, w, w', he => by
    rw [walkValue] at he
    split at he
    · have := walkElements_dead (w := w.put ctx [chLBracket]) hc hd es he
      exact ⟨this.hits, this.cap⟩
    · cases he
  | .str _, d, C, w, w', he => by
    cases he
    exact ⟨rfl, rfl⟩
  | .num _, d, C, w, w', he => by
    cases he
    exact ⟨rfl, rfl⟩
  | .lit _, d, C, w, w', he => by
    cases he
    exact ⟨rfl, rfl⟩

theorem walkMembers_dead (hc : CtxOk ctx) (hd : NoLeading ctx) : ∀ (ms : Json.Members) {d : Nat} {C : Mask}
    {w w' : Walk}, walkMembers ctx d 0 0 C ms w = some w' → Alike (· = ·) w w'
  | .nil, d, C, w, w', he => by
    cases he
    exact ⟨rfl, rfl⟩
  | .cons key v rest, d, C, w, w', he => by
    rw [walkMembers_cons] at he
    obtain ⟨w1, h1, h2⟩ := Option.bind_eq_some_iff.mp he
    have hrest := walkMembers_dead hc hd rest h2
    refine .trans ?_ ((comma_alike w1 _).trans hrest)
    rw [walkMember] at h1
    dsimp only at h1
    split at h1
    · split at h1
      · cases h1
        exact ⟨rfl, rfl⟩
      · cases h1
    · obtain ⟨hhere, hbelow, hrec⟩ := keyDescent_dead (d := d) (C := C) hd w.hits key.text
      rw [hhere, hbelow, hrec, Walk.meet_none hc.room] at h1
      obtain ⟨w2, hv, rfl⟩ := Option.map_eq_some_iff.mp h1
      have := walkValue_dead hc hd v hv
      exact ⟨this.hits, this.cap⟩

theorem walkElements_dead (hc : CtxOk ctx) (hd : NoLeading ctx) : ∀ (es : Json.Elements) {d index : Nat} {C : Mask}
    {w w' : Walk}, walkElements ctx d 0 0 C index es w = some w' → Alike (· = ·) w w'
  | .nil, d, index, C, w, w', he => by
    cases he
    exact ⟨rfl, rfl⟩
  | .cons v rest, d, index, C, w, w', he => by
    rw [walkElements_cons] at he
    obtain ⟨w1, h1, h2⟩ := Option.bind_eq_some_iff.mp he
    have hrest := walkElements_dead hc hd rest h2
    refine .trans ?_ ((comma_alike w1 _).trans hrest)
    obtain ⟨hhere, hbelow, hrec⟩ := indexDescent_dead (d := d) (C := C) hd index
    rw [walkElement, hhere, hbelow, hrec, Walk.meet_none hc.room] at h1
    obtain ⟨w2, hv, rfl⟩ := Option.map_eq_some_iff.mp h1
    have := walkValue_dead hc hd v hv
    exact ⟨this.hits, this.cap⟩

end

end Dead

section Paired

variable {c1 c2 : Ctx} {A R C1 C2 : Mask} {d : Nat} {caps : Nat → Nat → Prop}

theorem Alike.put {w1 w2 : Walk} (h : Alike caps w1 w2) (bytes : Bytes) :
    Alike caps (w1.put c1 bytes) (w2.put c2 bytes) := ⟨h.hits, h.cap⟩

theorem Alike.moved {w1 w2 w1' w2' : Walk} (h : Alike caps w1 w2) (h1 : Alike (· = ·) w1 w1')
    (h2 : Alike (· = ·) w2 w2') : Alike caps w1' w2' :=
  ⟨h1.hits.symm.trans (h.hits.trans h2.hits), h1.cap ▸ h2.cap ▸ h.cap⟩

/-- The value of this member may be looked at, but not for any term. -/
theorem walkMember_idle {ctx : Ctx} {C : Mask} (hc : CtxOk ctx) {key : Str} {v : Value} {w w' : Walk}
    (hhere : (keyDescent ctx d A R C w.hits key.text).here = 0)
    (hbelow : (keyDescent ctx d A R C w.hits key.text).below = 0)
    (hrec : (keyDescent ctx d A R C w.hits key.text).recursive = 0)
    (he : walkMember ctx d A R C key v w = some w') : Alike (· = ·) w w' := by
  have hd : NoLeading ctx := by
    intro i hi e
    have := Mask.eq_zero_iff.mp hrec i
    rw [keyDescent, recTerms_has hc, decide_eq_true hi, Term.joins, decide_eq_true e] at this
    simp at this
  rw [walkMember] at he
  dsimp only at he
  split at he
  · split at he
    · cases he
      exact ⟨rfl, rfl⟩
    · cases he
  · rw [hhere, hbelow, hrec, Walk.meet_none hc.room] at he
    obtain ⟨w2, hv, rfl⟩ := Option.map_eq_some_iff.mp he
    have := walkValue_dead hc hd v hv
    exact ⟨this.hits, this.cap⟩

/-- Both scans skip the value, or none. -/
theorem Paired.skips (h : Paired c1 c2 C1 C2) {s1 s2 : Descent} (hits : Mask)
    (hnot : ¬ (s1.here = 0 ∧ s1.below = 0 ∧ s1.recursive = 0))
    (hnot' : ¬ (s2.here = 0 ∧ s2.below = 0 ∧ s2.recursive = 0)) :
    (!c1.capture && ((stopHitReady c1 hits && decide (C1 = 0)) || s1.idle)) =
        (!c2.capture && ((stopHitReady c2 hits && decide (C2 = 0)) || s2.idle)) := by
  have hidle : ∀ s : Descent, ¬ (s.here = 0 ∧ s.below = 0 ∧ s.recursive = 0) → s.idle = false := by
    intro s hs
    rw [Bool.eq_false_iff]
    intro hi
    simp only [Descent.idle, Bool.and_eq_true, decide_eq_true_eq] at hi
    exact hs ⟨hi.1.1.1, hi.1.1.2, hi.1.2⟩
  rw [hidle s1 hnot, hidle s2 hnot']
  rcases h.mode with ⟨rfl, rfl⟩ | ⟨h1, h2⟩
  · rfl
  · simp [stopHitReady, h1, h2]

/-- Two walks over the value find the same. -/
def FindsAlike (c1 c2 : Ctx) (caps : Nat → Nat → Prop) (d : Nat) (v : Value) : Prop :=
  ∀ ⦃A R C1 C2 : Mask⦄ ⦃w1 w2 w1' w2' : Walk⦄, Paired c1 c2 C1 C2 → Alike caps w1 w2 →
    walkValue c1 d A R C1 v w1 = some w1' → walkValue c2 d A R C2 v w2 = some w2' → Alike caps w1' w2'

theorem walkMember_alike (h : Paired c1 c2 C1 C2) {key : Str} {v : Value} {w1 w2 w1' w2' : Walk}
    (ih : FindsAlike c1 c2 caps (d + 1) v) (hj : ∀ token ∈ v.tokens, Judged c1 caps token)
    (hw : Alike caps w1 w2) (h1 : walkMember c1 d A R C1 key v w1 = some w1')
    (h2 : walkMember c2 d A R C2 key v w2 = some w2') : Alike caps w1' w2' := by
  obtain ⟨hhere, hbelow, hrec, hnext⟩ := h.key (d := d) (A := A) (R := R) w1.hits key.text
  by_cases hidle : (keyDescent c1 d A R C1 w1.hits key.text).here = 0 ∧
      (keyDescent c1 d A R C1 w1.hits key.text).below = 0 ∧
      (keyDescent c1 d A R C1 w1.hits key.text).recursive = 0
  · -- no term is alive in the value: one scan may skip it where the other does not
    rw [hw.hits] at hhere hbelow hrec
    have hidle' := hidle
    rw [hw.hits] at hidle'
    exact hw.moved (walkMember_idle h.ok hidle.1 hidle.2.1 hidle.2.2 h1)
      (walkMember_idle h.ok' (hhere ▸ hidle'.1) (hbelow ▸ hidle'.2.1) (hrec ▸ hidle'.2.2) h2)
  · have hnot : ¬ ((keyDescent c2 d A R C2 w1.hits key.text).here = 0 ∧
        (keyDescent c2 d A R C2 w1.hits key.text).below = 0 ∧
        (keyDescent c2 d A R C2 w1.hits key.text).recursive = 0) := by
      rw [← hhere, ← hbelow, ← hrec]
      exact hidle
    have hskips := h.skips w1.hits hidle hnot
    rw [walkMember] at h1 h2
    dsimp only at h1 h2
    rw [← hw.hits] at h2
    split at h1
    · next hs =>
        rw [if_pos (hskips ▸ hs)] at h2
        split at h1
        · next hf =>
            rw [if_pos hf] at h2
            cases h1
            cases h2
            exact hw
        · cases h1
    · next hs =>
        rw [if_neg (hskips ▸ hs), ← hhere, ← hbelow, ← hrec] at h2
        obtain ⟨y1, hv1, rfl⟩ := Option.map_eq_some_iff.mp h1
        obtain ⟨y2, hv2, rfl⟩ := Option.map_eq_some_iff.mp h2
        have := ih hnext (h.meet hj (hw.put _)) hv1 hv2
        exact ⟨this.hits, this.cap⟩

theorem walkElement_alike (h : Paired c1 c2 C1 C2) {index : Nat} {v : Value} {w1 w2 w1' w2' : Walk}
    (ih : FindsAlike c1 c2 caps (d + 1) v) (hj : ∀ token ∈ v.tokens, Judged c1 caps token)
    (hw : Alike caps w1 w2) (h1 : walkElement c1 d A R C1 index v w1 = some w1')
    (h2 : walkElement c2 d A R C2 index v w2 = some w2') : Alike caps w1' w2' := by
  obtain ⟨hhere, hbelow, hrec, hnext⟩ := h.index (d := d) (A := A) (R := R) index
  rw [walkElement] at h1 h2
  rw [← hhere, ← hbelow, ← hrec] at h2
  obtain ⟨y1, hv1, rfl⟩ := Option.map_eq_some_iff.mp h1
  obtain ⟨y2, hv2, rfl⟩ := Option.map_eq_some_iff.mp h2
  have := ih hnext (h.meet hj hw) hv1 hv2
  exact ⟨this.hits, this.cap⟩

mutual

/-- **Two walks find the same.** -/
theorem walkValue_alike : ∀ (v : Value) {d : Nat}, (∀ token ∈ v.tokens, Judged c1 caps token) →
    FindsAlike c1 c2 caps d v
  | .obj ms, d, hj => by
    intro A R C1 C2 w1 w2 w1' w2' h hw he1 he2
    rw [walkValue] at he1 he2
    split at he1
    · next hd =>
        rw [if_pos hd] at he2
        exact walkMembers_alike ms hj h (hw.put _) he1 he2
    · cases he1
  | .arr es, d, hj => by
    intro A R C1 C2 w1 w2 w1' w2' h hw he1 he2
    rw [walkValue] at he1 he2
    split at he1
    · next hd =>
        rw [if_pos hd] at he2
        exact walkElements_alike es hj h (hw.put _) he1 he2
    · cases he1
  | .str _, d, hj => by
    intro A R C1 C2 w1 w2 w1' w2' h hw he1 he2
    cases he1
    cases he2
    exact ⟨hw.hits, hw.cap⟩
  | .num _, d, hj => by
    intro A R C1 C2 w1 w2 w1' w2' h hw he1 he2
    cases he1
    cases he2
    exact ⟨hw.hits, hw.cap⟩
  | .lit _, d, hj => by
    intro A R C1 C2 w1 w2 w1' w2' h hw he1 he2
    cases he1
    cases he2
    exact ⟨hw.hits, hw.cap⟩

theorem walkMembers_alike : ∀ (ms : Json.Members) {d : Nat},
    (∀ token ∈ ms.tokens, Judged c1 caps token) →
    ∀ {A R C1 C2 : Mask} {w1 w2 w1' w2' : Walk}, Paired c1 c2 C1 C2 → Alike caps w1 w2 →
      walkMembers c1 d A R C1 ms w1 = some w1' → walkMembers c2 d A R C2 ms w2 = some w2' →
      Alike caps w1' w2'
  | .nil, d, hj, A, R, C1, C2, w1, w2, w1', w2', h, hw, he1, he2 => by
    cases he1
    cases he2
    exact ⟨hw.hits, hw.cap⟩
  | .cons key v rest, d, hj, A, R, C1, C2, w1, w2, w1', w2', h, hw, he1, he2 => by
    rw [walkMembers_cons] at he1 he2
    obtain ⟨x1, h1, h1'⟩ := Option.bind_eq_some_iff.mp he1
    obtain ⟨x2, h2, h2'⟩ := Option.bind_eq_some_iff.mp he2
    have hjv : ∀ token ∈ v.tokens, Judged c1 caps token :=
      fun token ht => hj token (List.mem_append_left _ ht)
    have hx := walkMember_alike h (walkValue_alike v hjv) hjv hw h1 h2
    exact walkMembers_alike rest (fun token ht => hj token (List.mem_append_right _ ht)) h
      (hx.moved (comma_alike x1 _) (comma_alike x2 _)) h1' h2'

theorem walkElements_alike : ∀ (es : Json.Elements) {d index : Nat},
    (∀ token ∈ es.tokens, Judged c1 caps token) →
    ∀ {A R C1 C2 : Mask} {w1 w2 w1' w2' : Walk}, Paired c1 c2 C1 C2 → Alike caps w1 w2 →
      walkElements c1 d A R C1 index es w1 = some w1' →
      walkElements c2 d A R C2 index es w2 = some w2' → Alike caps w1' w2'
  | .nil, d, index, hj, A, R, C1, C2, w1, w2, w1', w2', h, hw, he1, he2 => by
    cases he1
    cases he2
    exact ⟨hw.hits, hw.cap⟩
  | .cons v rest, d, index, hj, A, R, C1, C2, w1, w2, w1', w2', h, hw, he1, he2 => by
    rw [walkElements_cons] at he1 he2
    obtain ⟨x1, h1, h1'⟩ := Option.bind_eq_some_iff.mp he1
    obtain ⟨x2, h2, h2'⟩ := Option.bind_eq_some_iff.mp he2
    have hjv : ∀ token ∈ v.tokens, Judged c1 caps token :=
      fun token ht => hj token (List.mem_append_left _ ht)
    have hx := walkElement_alike h (walkValue_alike v hjv) hjv hw h1 h2
    exact walkElements_alike rest (fun token ht => hj token (List.mem_append_right _ ht)) h
      (hx.moved (comma_alike x1 _) (comma_alike x2 _)) h1' h2'

end

end Paired

section Same

variable {ctx : Ctx} {A R C : Mask} {d : Nat} {caps : Nat → Nat → Prop}

theorem Paired.same (h : CtxOk ctx) (C : Mask) : Paired ctx ctx C C := ⟨h, h, rfl, .inl ⟨rfl, rfl⟩⟩

mutual

/-- One scan gets through a value or not, whatever its buffer. -/
theorem walkValue_gets (hc : CtxOk ctx) : ∀ (v : Value) {d : Nat} {A R C : Mask} {w1 w2 : Walk},
    (∀ token ∈ v.tokens, Judged ctx caps token) → Alike caps w1 w2 →
    (walkValue ctx d A R C v w1).isSome = (walkValue ctx d A R C v w2).isSome
  | .obj ms, d, A, R, C, w1, w2, hj, hw => by
    rw [walkValue, walkValue]
    split
    · exact walkMembers_gets hc ms hj (hw.put _)
    · rfl
  | .arr es, d, A, R, C, w1, w2, hj, hw => by
    rw [walkValue, walkValue]
    split
    · exact walkElements_gets hc es hj (hw.put _)
    · rfl
  | .str _, _, _, _, _, _, _, _, _ => rfl
  | .num _, _, _, _, _, _, _, _, _ => rfl
  | .lit _, _, _, _, _, _, _, _, _ => rfl

theorem walkMembers_gets (hc : CtxOk ctx) : ∀ (ms : Json.Members) {d : Nat} {A R C : Mask}
    {w1 w2 : Walk}, (∀ token ∈ ms.tokens, Judged ctx caps token) → Alike caps w1 w2 →
    (walkMembers ctx d A R C ms w1).isSome = (walkMembers ctx d A R C ms w2).isSome
  | .nil, _, _, _, _, _, _, _, _ => rfl
  | .cons key v rest, d, A, R, C, w1, w2, hj, hw => by
    have hjv : ∀ token ∈ v.tokens, Judged ctx caps token :=
      fun token ht => hj token (List.mem_append_left _ ht)
    have hmember : (walkMember ctx d A R C key v w1).isSome = (walkMember ctx d A R C key v w2).isSome := by
      rw [walkMember, walkMember, hw.hits]
      dsimp only
      split
      · split <;> rfl
      · rw [Option.isSome_map, Option.isSome_map]
        exact walkValue_gets hc v hjv ((Paired.same hc C).meet hjv (hw.put _))
    rw [walkMembers_cons, walkMembers_cons]
    cases h1 : walkMember ctx d A R C key v w1 with
    | none =>
        rw [h1] at hmember
        rw [Option.isSome_eq_false_iff.mp hmember.symm |> Option.isNone_iff_eq_none.mp]
    | some x1 =>
        rw [h1] at hmember
        obtain ⟨x2, h2⟩ := Option.isSome_iff_exists.mp hmember.symm
        have hx := walkMember_alike (Paired.same hc C) (walkValue_alike v hjv) hjv hw h1 h2
        rw [h2, Option.bind_some, Option.bind_some]
        exact walkMembers_gets hc rest (fun token ht => hj token (List.mem_append_right _ ht))
          (hx.moved (comma_alike x1 _) (comma_alike x2 _))

theorem walkElements_gets (hc : CtxOk ctx) : ∀ (es : Json.Elements) {d index : Nat} {A R C : Mask}
    {w1 w2 : Walk}, (∀ token ∈ es.tokens, Judged ctx caps token) → Alike caps w1 w2 →
    (walkElements ctx d A R C index es w1).isSome = (walkElements ctx d A R C index es w2).isSome
  | .nil, _, _, _, _, _, _, _, _, _ => rfl
  | .cons v rest, d, index, A, R, C, w1, w2, hj, hw => by
    have hjv : ∀ token ∈ v.tokens, Judged ctx caps token :=
      fun token ht => hj token (List.mem_append_left _ ht)
    have helement : (walkElement ctx d A R C index v w1).isSome =
        (walkElement ctx d A R C index v w2).isSome := by
      rw [walkElement, walkElement, Option.isSome_map, Option.isSome_map]
      exact walkValue_gets hc v hjv ((Paired.same hc C).meet hjv hw)
    rw [walkElements_cons, walkElements_cons]
    cases h1 : walkElement ctx d A R C index v w1 with
    | none =>
        rw [h1] at helement
        rw [Option.isSome_eq_false_iff.mp helement.symm |> Option.isNone_iff_eq_none.mp]
    | some x1 =>
        rw [h1] at helement
        obtain ⟨x2, h2⟩ := Option.isSome_iff_exists.mp helement.symm
        have hx := walkElement_alike (Paired.same hc C) (walkValue_alike v hjv) hjv hw h1 h2
        rw [h2, Option.bind_some, Option.bind_some]
        exact walkElements_gets hc rest (fun token ht => hj token (List.mem_append_right _ ht))
          (hx.moved (comma_alike x1 _) (comma_alike x2 _))

end

end Same

/-! ## Whole runs -/

/-- The documents that a scan meets one after the other, up to what is no document. -/
def documents : Nat → Bytes → List Value
  | 0, _ => []
  | fuel + 1, bytes =>
    let rest := bytes.dropWhile isSpace
    if rest = [] then []
    else if rest.head? = some chLBracket then []
    else
      match recordP rest with
      | none => []
      | some (v, _, last) => v :: documents fuel last.rest

section Runs

variable {c1 c2 : Ctx}

/-- Two scans walk the document side by side: both get through it or none, and what they have found
is related by `Q`. -/
def SideBySide (c1 c2 : Ctx) (caps : Nat → Nat → Prop) (Q : Walk → Walk → Prop) (v : Value) : Prop :=
  ∀ cap cap', caps cap cap' →
    (walkRecord c1 cap v = none ∧ walkRecord c2 cap' v = none) ∨
      ∃ w w', walkRecord c1 cap v = some w ∧ walkRecord c2 cap' v = some w' ∧ caps w.cap w'.cap ∧ Q w w'

/-- Scans that walk all documents side by side report the same, as far as `f` and `g` tell. -/
theorem runRecords_map {β : Type} {f g : Record → β} {total : Nat} (caps : Nat → Nat → Prop)
    (Q : Walk → Walk → Prop)
    (hfg : ∀ index offset bytes v mid w w', Q w w' →
      f (report c1 index offset bytes v mid w) = g (report c2 index offset bytes v mid w')) :
    ∀ (fuel index cap cap' : Nat) (bytes : Bytes), caps cap cap' →
      (∀ v ∈ documents fuel bytes, SideBySide c1 c2 caps Q v) →
      (runRecords c1 total fuel index cap bytes).1.map f =
          (runRecords c2 total fuel index cap' bytes).1.map g ∧
        (runRecords c1 total fuel index cap bytes).2 = (runRecords c2 total fuel index cap' bytes).2
  | 0, _, _, _, _, _, _ => ⟨rfl, rfl⟩
  | fuel + 1, index, cap, cap', bytes, hcaps, hdocs => by
    rw [runRecords, runRecords]
    rw [documents] at hdocs
    dsimp only at hdocs ⊢
    split
    · exact ⟨rfl, rfl⟩
    next hne =>
    rw [if_neg hne] at hdocs
    split
    · exact ⟨rfl, rfl⟩
    next hroot =>
    rw [if_neg hroot] at hdocs
    cases hrec : recordP (bytes.dropWhile isSpace) with
    | none => exact ⟨rfl, rfl⟩
    | some p =>
        obtain ⟨v, mid, last⟩ := p
        rw [hrec] at hdocs
        dsimp only at hdocs ⊢
        rcases hdocs v List.mem_cons_self cap cap' hcaps with ⟨h1, h2⟩ | ⟨w, w', h1, h2, hcap, hw⟩
        · rw [h1, h2]
          exact ⟨rfl, rfl⟩
        · rw [h1, h2]
          dsimp only
          obtain ⟨hrs, hst⟩ := runRecords_map caps Q hfg fuel (index + 1) w.cap w'.cap last.rest hcap
            fun v hv => hdocs v (List.mem_cons_of_mem _ hv)
          refine ⟨?_, hst⟩
          rw [List.map_cons, List.map_cons, hrs, hfg _ _ _ _ _ _ _ hw]

end Runs

/-! ## The reader -/

variable {ctx : Ctx}

/-- Without escapes in the paths, no escape is compared with company. -/
theorem EscapesAlone.of_plain
    (h : ∀ i < ctx.n, ∀ k < (ctx.term i).segments.length,
      pointerSegmentHasEscape ((ctx.term i).seg k) = false) : EscapesAlone ctx := by
  intro i hi d k hk he
  rw [h i hi k hk.1] at he
  cases he

theorem PathOk.exist {t : Term} (hp : PathOk t) : PathOk { t with kind := .exist } :=
  ⟨hp.count, hp.pos, hp.le, hp.field, hp.arrays, hp.objectWildcards, hp.arrayWildcards,
    hp.anyWildcards, hp.recursives, hp.found, hp.cache, hp.fieldPlain, hp.foundPlain⟩

/-- A term without a literal has none that is out of order. -/
theorem Term.literals_exist {t : Term} (h : t.kind = .exist) : t.LiteralsOk := by
  refine ⟨fun hkind => ?_, Term.numberOk_of_kind (by rw [h]; exact ⟨nofun, nofun⟩)⟩
  rw [h] at hkind
  rcases hkind with hkind | hkind <;> cases hkind

/-- The term `/a` is followed as it reads. -/
theorem presenceScan_term (capture : Bool) : ((presenceScan capture).term 0).Shallow ∧
    ((presenceScan capture).term 0).LiteralsOk ∧ (presenceScan capture).term 0 = (presenceScan false).term 0 ∧
    ((presenceScan capture).term 0).segments = [[0x61]] := by
  obtain ⟨t, ht⟩ : ∃ t, compilePath [chSlash, 0x61] = some t := ⟨_, rfl⟩
  have hp := compilePath_ok ht
  have hsegs : t.segments = [[0x61]] := by
    have : (compilePath [chSlash, 0x61]).map Term.segments = some [[0x61]] := by decide
    rw [ht] at this
    exact Option.some.inj this
  have hterm : ∀ capture, (presenceScan capture).term 0 = { t with kind := .exist } := by
    intro capture
    rw [Ctx.term, presenceScan, presence, ht]
    rfl
  rw [hterm, hterm]
  refine ⟨⟨hp.exist, fun k hk => ?_⟩, Term.literals_exist rfl, rfl, hsegs⟩
  simp only [hsegs, List.length_singleton, Nat.lt_one_iff] at hk
  rw [hk, Term.seg, hsegs]
  decide

theorem presenceScan_sound (capture : Bool) : (presenceScan capture).Sound := by
  obtain ⟨hshallow, hliterals, -, hsegs⟩ := presenceScan_term capture
  have hn : (presenceScan capture).n = 1 := by cases capture <;> rfl
  have hlast : ∀ i < (presenceScan capture).n, i = 0 := by
    rw [hn]
    omega
  refine ⟨⟨(presenceScan_fits capture).terms, (presenceScan_fits capture).captures,
    .of_plain fun i hi k hk => ?_⟩, fun i hi => ?_, fun i hi => ?_, fun c hc => absurd hc (by simp [presenceScan])⟩
  · rw [hlast i hi, hsegs] at hk
    rw [hlast i hi, Term.seg, hsegs, Nat.lt_one_iff.mp hk]
    decide
  · rw [hlast i hi]
    exact .inl hshallow
  · rw [hlast i hi]
    exact hliterals

/-- Scans for `/ab` and `/x~1y` at once. -/
def escapedScan (capture : Bool) : Ctx :=
  { terms := presence [chSlash, 0x61, 0x62] ++ presence [chSlash, 0x78, chTilde, 0x31, 0x79], capture
    stopMatchingOnHit := false, stopHitMask := 0, captureKeys := [] }

/-- What a record says about its selection. -/
def Record.verdict (r : Record) : Nat × Bool × Mask := (r.index, r.rootIsObject, r.hits)

/-- The documents of the input that are not too deep leave a scan the room to look at everything: no
array with elements is the last container allowed. -/
def Roomy (bytes : Bytes) : Prop :=
  ∀ v ∈ documents (bytes.length + 2) bytes, v.fits maxDepth 0 = true → v.scans 0 = true

section Capture

variable {c1 c2 : Ctx}

theorem recordStart_alike (hterms : c1.terms = c2.terms) {caps : Nat → Nat → Prop} {cap cap' : Nat}
    (h : caps cap cap') (isObject : Bool) :
    Alike caps (recordStart c1 cap isObject) (recordStart c2 cap' isObject) := by
  refine ⟨?_, h⟩
  simp only [recordStart, rootHits, Ctx.n, Ctx.term, hterms]

/-- Where there is room or none at all, two walks both end or both fail. -/
theorem walkRecord_both (c1 c2 : Ctx) {v : Value} (hroom : v.fits maxDepth 0 = true → v.scans 0 = true) (cap cap' : Nat) :
    (walkRecord c1 cap v = none ∧ walkRecord c2 cap' v = none) ∨
      ∃ w w', walkRecord c1 cap v = some w ∧ walkRecord c2 cap' v = some w' := by
  cases hfits : v.fits maxDepth 0 with
  | true =>
      have hscans := hroom hfits
      have hsome : ∀ c : Ctx, ∀ cap, ∃ w, walkRecord c cap v = some w :=
        fun c cap => Option.isSome_iff_exists.mp (walkValue_scans v hscans)
      obtain ⟨w, hw⟩ := hsome c1 cap
      obtain ⟨w', hw'⟩ := hsome c2 cap'
      exact .inr ⟨w, w', hw, hw'⟩
  | false =>
      have hnone : ∀ c : Ctx, ∀ cap, walkRecord c cap v = none := by
        intro c cap
        rw [← Option.not_isSome_iff_eq_none]
        intro hs
        rw [(walkValue_room v hs).1] at hfits
        cases hfits
      exact .inl ⟨hnone c1 cap, hnone c2 cap'⟩

end Capture

/-! ## Earlier records -/

/-- Numbers are judged alike whatever became of the buffer: no literal is so long that the buffer may
grow, or every number fits it from the start or is judged alike whether it is kept or not. -/
def Ctx.Measures (ctx : Ctx) (documents : List Value) : Prop :=
  (∀ i < ctx.n, literalLen (ctx.term i) + 64 ≤ numberMatchBytes) ∨
    ∀ v ∈ documents, ∀ token ∈ v.tokens,
      token.length < numberMatchBytes ∨ ∀ i < ctx.n, (ctx.term i).steady token = true

/-- Literals of moderate length leave the buffer as it is. -/
theorem numberLimit_short (h : ∀ i < ctx.n, literalLen (ctx.term i) + 64 ≤ numberMatchBytes) (active : Mask) :
    numberLimit ctx active = numberMatchBytes := by
  have hfold : ∀ (l : List Nat) (limit : Nat), (∀ i ∈ l, i < ctx.n) → limit + 64 ≤ numberMatchBytes →
      l.foldl (fun limit i => if active.has i then max limit (literalLen (ctx.term i)) else limit) limit + 64 ≤
        numberMatchBytes := by
    intro l
    induction l with
    | nil => exact fun _ _ hle => hle
    | cons i l ih =>
        intro limit hl hle
        refine ih _ (fun j hj => hl j (List.mem_cons_of_mem i hj)) ?_
        have := h i (hl i List.mem_cons_self)
        dsimp only
        split
        · omega
        · exact hle
  have := hfold (List.range ctx.n) 0 (fun i hi => List.mem_range.mp hi) (by decide)
  rw [numberLimit, max_eq_right this]
  decide

theorem Ctx.Measures.gauge {documents : List Value} (h : ctx.Measures documents) :
    ∃ sizes : Nat → Prop, sizes numberMatchBytes ∧
      ∀ v ∈ documents, ∀ token ∈ v.tokens, Gauge ctx numberMatchBytes sizes token := by
  rcases h with hshort | hsteady
  · exact ⟨(· ≤ numberMatchBytes), Nat.le_refl _, fun v _ token _ =>
      .of_limit (by decide) (fun here _ => numberLimit_short hshort _) token⟩
  · exact ⟨(numberMatchBytes ≤ ·), Nat.le_refl _, fun v hv token ht => .of_steady (hsteady v hv token ht)⟩

/-- A document that is walked is walked the same with any buffer. -/
theorem walkRecord_any (hc : CtxOk ctx) {lim : Nat} {sizes : Nat → Prop} {v : Value}
    (hg : ∀ token ∈ v.tokens, Gauge ctx lim sizes token) {cap cap' : Nat} (hcap : sizes cap)
    (hcap' : sizes cap') {w : Walk} (hw : walkRecord ctx cap v = some w) :
    ∃ w', walkRecord ctx cap' v = some w' ∧ w.hits = w'.hits ∧ sizes w.cap := by
  have hj : ∀ token ∈ v.tokens, Judged ctx (fun c c' => sizes c ∧ sizes c') token :=
    fun token ht => .of_gauge (hg token ht)
  have hstart : Alike (fun c c' => sizes c ∧ sizes c') (recordStart ctx cap v.isObject)
      (recordStart ctx cap' v.isObject) := ⟨rfl, hcap, hcap'⟩
  have hsome := walkValue_gets hc v (d := 0) (A := allTerms ctx.n) (R := 0)
    (C := allTerms ctx.captureKeys.length) hj hstart
  rw [walkRecord] at hw
  rw [hw] at hsome
  obtain ⟨w', hw'⟩ := Option.isSome_iff_exists.mp hsome.symm
  have := walkValue_alike v hj (Paired.same hc _) hstart hw hw'
  exact ⟨w', hw', this.hits, this.cap.1⟩

/-- One round of a run: a document, its line end, and what follows. -/
theorem runRecords_cons (ctx : Ctx) (total fuel index cap : Nat) {w text sep rest : Bytes} {v : Value}
    (hw : Spaces w) (hv : v.Writes text) (hroot : v.isArray = false) (hsep : Separator sep rest) :
    ∃ mid, runRecords ctx total (fuel + 1) index cap (w ++ (text ++ (sep ++ rest))) =
      match walkRecord ctx cap v with
      | none => ([], .jsonError)
      | some w1 =>
        (report ctx index (total - (text ++ (sep ++ rest)).length) (text ++ (sep ++ rest)) v mid w1 ::
            (runRecords ctx total fuel (index + 1) w1.cap rest).1,
          (runRecords ctx total fuel (index + 1) w1.cap rest).2) := by
  obtain ⟨c, t, htext, -, -⟩ := hv.head
  have hdrop := dropWhile_spaces hw (hv.goes (sep ++ rest))
  obtain ⟨mid, last, hrec, -, hlast⟩ := recordP_complete hv hsep
  have hne : text ++ (sep ++ rest) ≠ [] := by rw [htext]; simp
  have hhead : (text ++ (sep ++ rest)).head? ≠ some chLBracket := by
    intro he
    have : v.isArray = true := (Value.isArray_head hv).mpr (by rw [htext] at he ⊢; exact he)
    rw [hroot] at this
    cases this
  refine ⟨mid, ?_⟩
  rw [runRecords, hdrop, if_neg hne, if_neg hhead, hrec]
  cases hwalk : walkRecord ctx cap v <;> simp only [hlast, hwalk]

/-- What a record says about its document. -/
structure Tells (ctx : Ctx) (cap : Nat) (r : Record) (v : Value) : Prop where
  root : r.rootIsObject = v.isObject
  walk : ∃ w, walkRecord ctx cap v = some w ∧ r.hits = if v.isObject then w.hits else 0

/-- Every record tells of its document as if it were the first. -/
theorem runRecords_tell (hc : CtxOk ctx) {total lim : Nat} {sizes : Nat → Prop} {first : Nat}
    (hfirst : sizes first) : ∀ (fuel index cap pos : Nat) (bytes : Bytes) (es : List Entry),
      sizes cap → Ndjson pos bytes es →
      (∀ e ∈ es, ∀ token ∈ e.value.tokens, Gauge ctx lim sizes token) →
      ∀ (k : Nat) (r : Record), (runRecords ctx total fuel index cap bytes).1[k]? = some r →
        ∃ e : Entry, es[k]? = some e ∧ e.value.Writes e.text ∧ e.value.isArray = false ∧
          Tells ctx first r e.value
  | 0, _, _, _, _, _, _, _, _, k, r, hr => by
    rw [runRecords] at hr
    cases hr
  | fuel + 1, index, cap, pos, bytes, es, hcap, hes, hg, k, r, hr => by
    cases hes with
    | nil hw =>
        have hnil : bytes.dropWhile isSpace = [] := List.dropWhile_eq_nil_iff.mpr hw
        rw [runRecords, if_pos hnil] at hr
        cases hr
    | @cons _ w text sep rest v entries hw hv hroot hsep hrest =>
        obtain ⟨mid, hrun⟩ := runRecords_cons ctx total fuel index cap hw hv hroot hsep
        rw [hrun] at hr
        cases hwalk : walkRecord ctx cap v with
        | none =>
            rw [hwalk] at hr
            cases hr
        | some w1 =>
            rw [hwalk] at hr
            obtain ⟨w2, hw2, hhits, hcap1⟩ :=
              walkRecord_any hc (hg _ List.mem_cons_self) hcap hfirst hwalk
            cases k with
            | zero =>
                cases hr
                exact ⟨_, rfl, hv, hroot, rfl, w2, hw2, by rw [report, hhits]⟩
            | succ k =>
                exact runRecords_tell hc hfirst fuel (index + 1) w1.cap _ rest entries hcap1 hrest
                  (fun e he => hg e (List.mem_cons_of_mem _ he)) k r hr

/-- A document on its own. -/
theorem scanRun_alone (ctx : Ctx) {text : Bytes} {v : Value} (hv : v.Writes text) (hroot : v.isArray = false) :
    ∃ mid, scanRun ctx text = match walkRecord ctx numberMatchBytes v with
      | none => ([], .jsonError)
      | some w => ([report ctx 0 0 text v mid w], .ok) := by
  have hsep : Separator [] [] := ⟨[], List.forall_mem_nil _, .inr (.inr ⟨rfl, rfl⟩)⟩
  have hspaces : Spaces [] := List.forall_mem_nil _
  obtain ⟨mid, hrun⟩ := runRecords_cons ctx text.length (text.length + 1) 0 numberMatchBytes hspaces hv hroot hsep
  refine ⟨mid, ?_⟩
  simp only [List.nil_append, List.append_nil, Nat.sub_self] at hrun
  rw [scanRun, hrun]
  cases walkRecord ctx numberMatchBytes v with
  | none => rfl
  | some w =>
      dsimp only
      rw [runRecords]
      rfl

theorem presenceScan_measures (capture : Bool) (documents : List Value) :
    (presenceScan capture).Measures documents := by
  refine .inl fun i hi => ?_
  have hn : (presenceScan capture).n = 1 := by cases capture <;> rfl
  have : i = 0 := by omega
  rw [this]
  cases capture <;> decide

/-- A scan for the presence of `/.../a/b`. -/
def deepScan : Ctx :=
  { terms := presence [chSlash, chDot, chDot, chDot, chSlash, 0x61, chSlash, 0x62], capture := false
    stopMatchingOnHit := false, stopHitMask := 0, captureKeys := [] }

/-- The scan that looks only for term `i`. -/
def Ctx.only (ctx : Ctx) (i : Nat) : Ctx := { ctx with terms := [ctx.term i] }

theorem Ctx.only_n (i : Nat) : (ctx.only i).n = 1 := rfl

theorem Ctx.only_term (i : Nat) : (ctx.only i).term 0 = ctx.term i := rfl

theorem Ctx.Sound.only (h : ctx.Sound) {i : Nat} (hi : i < ctx.n) : (ctx.only i).Sound := by
  have hlast : ∀ j < (ctx.only i).n, j = 0 := fun j hj => Nat.lt_one_iff.mp hj
  refine ⟨⟨by rw [Ctx.only_n]; decide, h.ok.captures, fun j hj d k hk he => ?_⟩, fun j hj => ?_, fun j hj => ?_, h.captures⟩
  · rw [hlast j hj] at hk he ⊢
    refine ⟨fun j' hj' hne => absurd (hlast j' hj') hne, (h.ok.escapes i hi d k hk he).2⟩
  · rw [hlast j hj]
    exact h.regular i hi
  · rw [hlast j hj]
    exact h.literals i hi

theorem Ctx.Measures.only {documents : List Value} (h : ctx.Measures documents) {i : Nat} (hi : i < ctx.n) :
    (ctx.only i).Measures documents := by
  refine h.imp (fun hs j hj => ?_) fun hd v hv token ht => (hd v hv token ht).imp id fun hs j hj => ?_
  · rw [Nat.lt_one_iff.mp hj]
    exact hs i hi
  · rw [Nat.lt_one_iff.mp hj]
    exact hs i hi

/-- A record starts with terms of the scan. -/
theorem recordStart_bounded (cap : Nat) (isObject : Bool) (h : ctx.n ≤ 64) :
    Bounded ctx (recordStart ctx cap isObject).hits := by
  intro i hi
  simp only [recordStart] at hi
  split at hi
  · rw [rootHits, maskOf_has_le h, Bool.and_eq_true, decide_eq_true_eq] at hi
    exact hi.1
  · rw [Mask.has_zero] at hi
    cases hi

/-- What a walk over a document says about term `i`. -/
theorem walkRecord_finds (hc : CtxOk ctx) (hs : Patient ctx) {lim : Nat}
    {sizes : Nat → Prop} {v : Value} (hg : ∀ token ∈ v.tokens, Gauge ctx lim sizes token) {cap : Nat}
    (hcap : sizes cap) {w : Walk} (hw : walkRecord ctx cap v = some w) :
    sizes w.cap ∧ ∀ i < ctx.n, w.hits.has i =
      ((v.isObject && (ctx.term i).rootPresent) || (ctx.term i).finds lim 0 true false v) := by
  obtain ⟨hsize, hhits⟩ := walkValue_finds hc hs v hg hcap (recordStart_bounded cap _ hc.terms) hw
  refine ⟨hsize, fun i hi => ?_⟩
  rw [hhits i hi, allTerms_has hc.terms, decide_eq_true hi, Mask.has_zero]
  congr 1
  cases v.isObject with
  | false => exact Mask.has_zero i
  | true =>
      show (rootHits ctx).has i = _
      rw [rootHits, maskOf_has_le hc.terms, decide_eq_true hi]

end Lql.Scan
