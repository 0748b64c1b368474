import Lql.Scan.Accept

/-!
# The scanner walks

The scanner does to a document what the walk does: the masks of its depths are the terms and
captures that are alive, and what it has found and put out is what the walk has. It fails exactly
where the parser or the walk does.
-/

namespace Lql.Scan

open Lib Json

variable {total : Nat} {ctx : Ctx} {followed : Nat → Prop}

/-! ## Scanner and walk side by side -/

/-- Between values, at depth `e`, the scanner has found and put out what the walk has. -/
structure Good (total : Nat) (ctx : Ctx) (followed : Nat → Prop) (e : Nat) (w : Walk) (s : State)
    (f : Flat) : Prop where
  rel : Rel total s.tape f
  depth : s.tape.depth = e
  idle : Idle s
  slots : SlotsOk ctx followed s
  hits : s.hits = w.hits
  cap : s.num.cap = w.cap
  out : s.tape.out = w.out
  spans : s.captureSpans = w.spans

/-- What a value at depth `d` leaves alone. -/
structure Kept (d : Nat) (s s' : State) : Prop where
  active : s'.tape.compactRangeActive = s.tape.compactRangeActive
  live : s'.flatEqActive = s.flatEqActive
  path : ∀ k ≤ d, s'.pathActive k = s.pathActive k
  recursive : ∀ k ≤ d, s'.recursiveActive k = s.recursiveActive k
  captures : ∀ k ≤ d, s'.capturePathActive k = s.capturePathActive k

theorem Kept.refl (d : Nat) (s : State) : Kept d s s :=
  ⟨rfl, rfl, fun _ _ => rfl, fun _ _ => rfl, fun _ _ => rfl⟩

theorem Kept.trans {d : Nat} {s1 s2 s3 : State} (h1 : Kept d s1 s2) (h2 : Kept d s2 s3) :
    Kept d s1 s3 :=
  ⟨h2.active.trans h1.active, h2.live.trans h1.live, fun k hk => (h2.path k hk).trans (h1.path k hk),
    fun k hk => (h2.recursive k hk).trans (h1.recursive k hk),
    fun k hk => (h2.captures k hk).trans (h1.captures k hk)⟩

theorem Kept.less {d e : Nat} {s s' : State} (h : Kept d s s') (hle : e ≤ d) : Kept e s s' :=
  ⟨h.active, h.live, fun k hk => h.path k (Nat.le_trans hk hle),
    fun k hk => h.recursive k (Nat.le_trans hk hle), fun k hk => h.captures k (Nat.le_trans hk hle)⟩

/-- The scanner has come to depth `e`, and a value at depth `d` may have been read. -/
structure Reached (total : Nat) (ctx : Ctx) (followed : Nat → Prop) (d e : Nat) (w : Walk)
    (s s' : State) (f' : Flat) : Prop where
  good : Good total ctx followed e w s' f'
  kept : Kept d s s'

theorem Reached.trans {d e e' : Nat} {w w' : Walk} {s s1 s2 : State} {f1 f2 : Flat}
    (h1 : Reached total ctx followed d e w s s1 f1)
    (h2 : Reached total ctx followed d e' w' s1 s2 f2) : Reached total ctx followed d e' w' s s2 f2 :=
  ⟨h2.good, h1.kept.trans h2.kept⟩

namespace Walk

@[simp] theorem put_nil (w : Walk) : w.put ctx [] = w := by simp [put]

theorem put_append (w : Walk) (a b : Bytes) : w.put ctx (a ++ b) = (w.put ctx a).put ctx b := by
  simp [put, List.append_assoc]

@[simp] theorem put_hits (w : Walk) (a : Bytes) : (w.put ctx a).hits = w.hits := rfl

@[simp] theorem put_cap (w : Walk) (a : Bytes) : (w.put ctx a).cap = w.cap := rfl

@[simp] theorem put_spans (w : Walk) (a : Bytes) : (w.put ctx a).spans = w.spans := rfl

theorem put_out (w : Walk) (a : Bytes) : (w.put ctx a).out = w.out ++ emitted ctx a := rfl

/-- A scan that does not capture puts nothing out. -/
theorem put_quiet (hc : ctx.capture = false) (w : Walk) (a : Bytes) : w.put ctx a = w := by
  simp [put, emitted, hc]

theorem comma_quiet (hc : ctx.capture = false) (w : Walk) (last : Bool) : w.comma ctx last = w := by
  rw [comma, put_quiet hc, ite_self]

end Walk

/-- The same, and nothing but the tape has changed. -/
structure Glided (total : Nat) (ctx : Ctx) (followed : Nat → Prop) (d e : Nat) (w : Walk)
    (s s' : State) (f' : Flat) : Prop extends Reached total ctx followed d e w s s' f' where
  still : s' = { s with tape := s'.tape }

theorem Glided.trans {d e e' : Nat} {w w' : Walk} {s s1 s2 : State} {f1 f2 : Flat}
    (h1 : Glided total ctx followed d e w s s1 f1)
    (h2 : Glided total ctx followed d e' w' s1 s2 f2) : Glided total ctx followed d e' w' s s2 f2 where
  toReached := h1.toReached.trans h2.toReached
  still := by rw [h2.still, h1.still]

section Steps

variable {d e : Nat} {w : Walk} {s : State} {f : Flat}

/-- A step on the tape. -/
theorem Good.glide {e' : Nat} {bytes : Bytes} {t' : Tape} {f' : Flat}
    (h : Good total ctx followed e w s f) (hrel : Rel total t' f') (hd : t'.depth = e')
    (ho : t'.out = s.tape.out ++ emitted ctx bytes)
    (ha : t'.compactRangeActive = s.tape.compactRangeActive) :
    Glided total ctx followed d e' (w.put ctx bytes) s { s with tape := t' } f' where
  good := {
    rel := hrel
    depth := hd
    idle := ⟨h.idle.active, h.idle.key, h.idle.icontains, h.idle.dates, h.idle.number⟩
    slots := h.slots.congr rfl rfl
    hits := h.hits
    cap := h.cap
    out := by rw [Walk.put_out, ← h.out]; exact ho
    spans := h.spans }
  kept := ⟨ha, rfl, fun _ _ => rfl, fun _ _ => rfl, fun _ _ => rfl⟩
  still := rfl

/-- A quiet step on the tape. -/
theorem Good.quiet {e' : Nat} {t' : Tape} {f' : Flat} (h : Good total ctx followed e w s f)
    (hrel : Rel total t' f') (hd : t'.depth = e') (ho : t'.out = s.tape.out)
    (ha : t'.compactRangeActive = s.tape.compactRangeActive) :
    Glided total ctx followed d e' w s { s with tape := t' } f' := by
  have hnil : t'.out = s.tape.out ++ emitted ctx [] := by simpa using ho
  have := h.glide (d := d) hrel hd hnil ha
  rwa [Walk.put_nil] at this

theorem Good.stepped {t' : Tape} {f' : Flat} (h : Good total ctx followed e w s f)
    (hrel : Rel total t' f') (hstep : Step s.tape t' []) :
    Glided total ctx followed d e w s { s with tape := t' } f' :=
  h.quiet hrel (hstep.depth.trans h.depth) (by simpa using hstep.out) hstep.active

theorem good_moves {α β : Type} {x : TapeM α} {p : P β} (d : Nat)
    (h : Good total ctx followed e w s f) (hx : Sim JsonFault x p s.tape f (Moves total s.tape)) :
    Sim JsonFault (onTape x) p s f fun _ s' _ f' => Glided total ctx followed d e w s s' f' := by
  refine (sim_onTape hx).mono ?_
  rintro _ s' _ f' ⟨t', rfl, hrel, hstep⟩
  exact h.stepped hrel hstep

theorem good_reads {α : Type} {x : TapeM α} {p : P α} (d : Nat)
    (h : Good total ctx followed e w s f) (hx : Sim JsonFault x p s.tape f (Reads total s.tape)) :
    Sim JsonFault (onTape x) p s f
      fun a s' b f' => a = b ∧ Glided total ctx followed d e w s s' f' := by
  refine (sim_onTape hx).mono ?_
  rintro a s' b f' ⟨t', rfl, hab, hrel, hstep⟩
  exact ⟨hab, h.stepped hrel hstep⟩

theorem good_copy (d : Nat) (h : Good total ctx followed e w s f) (c : UInt8) :
    ∃ s', onTape (copyByte ctx.capture c) s = .ok () s' ∧
      Glided total ctx followed d e (w.put ctx [c]) s s' f := by
  obtain ⟨t', hx, hrel, hstep⟩ := copyByte_ok ctx h.rel c
  exact ⟨_, onTape_ok hx, h.glide hrel (hstep.depth.trans h.depth) hstep.out hstep.active⟩

theorem good_peek (d : Nat) (h : Good total ctx followed e w s f) :
    ∃ s', onTape peek s = .ok f.rest.head? s' ∧ Glided total ctx followed d e w s s' f ∧
      s'.tape.input.buffer.head? = f.rest.head? := by
  obtain ⟨i, hx, hok, hrest, hhead⟩ := peek_ok h.rel
  exact ⟨_, onTape_ok hx, h.stepped (h.rel.input hok hrest) (step_input s.tape i), hhead⟩

theorem good_enter (d : Nat) (h : Good total ctx followed e w s f) (hd : e < maxDepth) :
    ∃ s', onTape enter s = .ok () s' ∧ Glided total ctx followed d (e + 1) w s s' f := by
  obtain ⟨hx, hrel⟩ := enter_ok h.rel (h.depth ▸ hd)
  exact ⟨_, onTape_ok hx, h.quiet hrel (congrArg (· + 1) h.depth) rfl rfl⟩

theorem good_leave (d : Nat) (h : Good total ctx followed (e + 1) w s f) :
    ∃ s', onTape leave s = .ok () s' ∧ Glided total ctx followed d e w s s' f := by
  obtain ⟨hx, hrel⟩ := leave_ok h.rel
  exact ⟨_, onTape_ok hx, h.quiet hrel (by rw [h.depth]; rfl) rfl rfl⟩

/-- An empty container is closed. -/
theorem good_close (d : Nat) {c : UInt8} {rest : Bytes} (h : Good total ctx followed (e + 1) w s f)
    (hb : s.tape.input.buffer.head? = some c) (hf : f.rest = c :: rest) :
    ∃ s', (do onTape advance; onTape (copyByte ctx.capture c); onTape leave : ScanM Unit) s =
        .ok () s' ∧ Glided total ctx followed d e (w.put ctx [c]) s s' { f with rest } := by
  obtain ⟨ha, h1⟩ := advance_ok h.rel rfl hb hf
  have e1 := onTape_ok (s := s) ha
  have r1 : Glided total ctx followed d (e + 1) w s _ { f with rest } :=
    h.stepped h1 (step_input s.tape s.tape.input.advance)
  obtain ⟨s2, e2, r2⟩ := good_copy d r1.good c
  obtain ⟨s3, e3, r3⟩ := good_leave d r2.good
  refine ⟨s3, ?_, (r1.trans r2).trans r3⟩
  rw [bind_ok e1, bind_ok e2]
  exact e3

end Steps

/-! ## Scalars -/

/-- Hold a value against the comparisons of the terms that arrive at it; whether it is there at all
is another matter. -/
def Walk.hold (ctx : Ctx) (here : Mask) (v : Value) (w : Walk) : Walk :=
  { w with
    hits := w.hits ||| maskOf ctx.n fun i =>
      here.has i && (ctx.term i).holds (overflows ctx here w.cap v).1 v
    cap := (overflows ctx here w.cap v).2 }

/-- The terms for which the value is there. -/
def presentTerms (ctx : Ctx) (here : Mask) (isNull : Bool) : Mask :=
  maskOf ctx.n fun i => here.has i &&
    (decide ((ctx.term i).kind = .valuelessPresent) || (decide ((ctx.term i).kind = .exist) && !isNull))

theorem Walk.meet_eq (hc : CtxRoom ctx) (here : Mask) (v : Value) (w : Walk) :
    w.meet ctx here v =
      Walk.hold ctx here v { w with hits := w.hits ||| presentTerms ctx here v.isNull } := by
  have hhits : (w.meet ctx here v).hits =
      (Walk.hold ctx here v { w with hits := w.hits ||| presentTerms ctx here v.isNull }).hits := by
    refine Mask.ext fun i => ?_
    simp only [Walk.meet, Walk.hold, presentTerms, Mask.has_or, maskOf_has_le hc.terms, Term.satisfies,
      Term.present]
    cases w.hits.has i <;> cases decide (i < ctx.n) <;> cases here.has i <;> simp
  simp only [Walk.meet, Walk.hold] at hhits ⊢
  rw [hhits]

/-- Without terms nothing is held. -/
theorem Walk.hold_none (w : Walk) (v : Value) : w.hold ctx 0 v = w := by
  simp only [Walk.hold, hits_none, overflows_none]

theorem presentTerms_none (isNull : Bool) : presentTerms ctx 0 isNull = 0 := by
  refine Mask.eq_zero_iff.mpr fun i => ?_
  rw [presentTerms, maskOf_has]
  simp

theorem Walk.meet_none (hc : CtxRoom ctx) (w : Walk) (v : Value) : w.meet ctx 0 v = w := by
  rw [Walk.meet_eq hc, presentTerms_none, Walk.hold_none]
  simp

/-- A value that passes no comparison. -/
theorem Walk.hold_fails (w : Walk) (here : Mask) {v : Value}
    (hv : ∀ i < ctx.n, here.has i = true → (ctx.term i).holds false v = false)
    (ho : overflows ctx here w.cap v = (false, w.cap)) : w.hold ctx here v = w := by
  have : (maskOf ctx.n fun i => here.has i && (ctx.term i).holds false v) = 0 := by
    refine Mask.eq_zero_iff.mpr fun i => ?_
    rw [maskOf_has]
    by_cases hi : i < ctx.n
    · cases hh : here.has i with
      | false => simp
      | true => simp [hv i hi hh]
    · simp [hi]
  simp only [Walk.hold, ho, this]
  simp

section Scalars

variable {d : Nat} {w : Walk} {s : State} {f : Flat}

/-- A scalar that has been read is behind the walk. -/
theorem Met.reached {here : Mask} {s' : State} {v : Value} {f' : Flat} {e : Nat}
    (h : Good total ctx followed e w s f) (hm : Met total ctx here s s' v f') :
    Reached total ctx followed d e ((w.hold ctx here v).put ctx v.compact) s s' f' where
  good := {
    rel := hm.rel
    depth := hm.step.depth.trans h.depth
    idle := hm.idle
    slots := by rw [hm.state]; exact h.slots.congr rfl rfl
    hits := by rw [hm.state, h.hits, h.cap]; rfl
    cap := by rw [hm.cap, h.cap]; rfl
    out := by rw [hm.step.out, h.out]; rfl
    spans := by rw [hm.state]; exact h.spans }
  kept := by
    refine ⟨hm.step.active, ?_, fun k _ => ?_, fun k _ => ?_, fun k _ => ?_⟩
    · rw [hm.state]
    · rw [hm.state]
    · rw [hm.state]
    · rw [hm.state]

end Scalars

/-! ## A value and the terms above it -/

/-- A value is about to be read at depth `d`: where it is a container, its masks are `A`, `R`
and `C`. The root is no array. -/
structure Ready (total : Nat) (ctx : Ctx) (followed : Nat → Prop) (d : Nat) (A R C : Mask) (w : Walk)
    (s : State) (f : Flat) : Prop where
  good : Good total ctx followed d w s f
  alive : Alive ctx followed d A R C
  live : isContainer f.rest.head? = true → s.flatEqActive = true
  masks : isContainer f.rest.head? = true → d < maxDepth →
    s.pathActive d = A ∧ s.recursiveActive d = R ∧ s.capturePathActive d = C
  root : d = 0 → f.rest.head? ≠ some chLBracket

/-- The scanner does what the walk does: `g` is where the walk stands when the value is `v`. -/
def Walks (total : Nat) (ctx : Ctx) (followed : Nat → Prop) (d : Nat) (A R C : Mask) (g : Value → Walk)
    (x : ScanM Unit) (p : P Value) (s : State) (f : Flat) : Prop :=
  SimUpTo JsonFault (fun v => walkValue ctx d A R C v (g v) = none) x p s f fun _ s' v f' =>
    ∃ w', walkValue ctx d A R C v (g v) = some w' ∧ Reached total ctx followed d d w' s s' f'

section Values

variable {m d : Nat} {A R C here : Mask} {w : Walk} {s : State} {f : Flat} {x : ScanM Unit}

/-- The same run, counted from before a quiet step. -/
theorem Walks.after {g : Value → Walk} {p : P Value} {r : State} {e : Nat} {w1 : Walk}
    (h : Walks total ctx followed d A R C g x p r f) (hr : Reached total ctx followed d e w1 s r f) :
    SimUpTo JsonFault (fun v => walkValue ctx d A R C v (g v) = none) x p r f fun _ s' v f' =>
      ∃ w', walkValue ctx d A R C v (g v) = some w' ∧ Reached total ctx followed d d w' s s' f' := by
  refine SimUpTo.mono h ?_
  rintro _ s' v f' ⟨w', hw, hq⟩
  exact ⟨w', hw, hr.trans hq⟩

/-- Only the values the parser finds count. -/
theorem Walks.start {g g' : Value → Walk} {p : P Value} (h : Walks total ctx followed d A R C g x p s f)
    (hg : ∀ v f', p f = some (v, f') → g' v = g v) : Walks total ctx followed d A R C g' x p s f := by
  refine SimUpTo.weaken h ?_ ?_
  · intro v f' hp hF
    rw [hg v f' hp]
    exact hF
  · rintro _ s' v f' hp ⟨w', hw, hq⟩
    exact ⟨w', by rw [hg v f' hp]; exact hw, hq⟩

theorem walks_scalar {α : Type} {q : P α} {v : α → Value} (h : Good total ctx followed d w s f)
    (hx : Sim JsonFault x q s f fun _ s' b f' => Met total ctx here s s' (v b) f')
    (hv : ∀ b w, walkValue ctx d A R C (v b) w = some (w.put ctx (v b).compact)) :
    Walks total ctx followed d A R C (Walk.hold ctx here · w) x (do let b ← q; return v b) s f := by
  refine (hx.map_right (P := fun _ s' b f' => Met total ctx here s s' (v b) f') v ?_ ?_).upTo
  · show (q f).bind _ = _
    cases q f <;> rfl
  · intro _ s' b f' hm
    exact ⟨_, hv b _, hm.reached h⟩

theorem walks_string (h : Good total ctx followed d w s f) (hh : f.rest.head? = some chQuote)
    (hx : Sim JsonFault x stringP s f fun _ s' str f' => Met total ctx here s s' (.str str) f') :
    Walks total ctx followed d A R C (Walk.hold ctx here · w) x (valueP (m + 1)) s f := by
  refine SimUpTo.congr (walks_scalar h hx fun _ _ => rfl) rfl ?_
  rw [valueP_eq, hh]
  rfl

theorem walks_literal (h : Good total ctx followed d w s f) (l : Literal)
    (hh : f.rest.head? = l.text.head?)
    (hx : Sim JsonFault x (literalP l.text) s f fun _ s' _ f' => Met total ctx here s s' (.lit l) f') :
    Walks total ctx followed d A R C (Walk.hold ctx here · w) x (valueP (m + 1)) s f := by
  refine SimUpTo.congr (walks_scalar (v := fun _ => .lit l) h hx fun _ _ => rfl) rfl ?_
  rw [valueP_eq, hh]
  cases l <;> rfl

/-- The parser of a value that is no container, no string and no literal. -/
theorem valueP_number (m : Nat) (hc : ∀ c, f.rest.head? = some c → startsNumber c) :
    valueP (m + 1) f = (do let token ← numberP; return Value.num token : P Value) f := by
  rw [valueP_eq]
  cases hh : f.rest.head? with
  | none =>
      have hnone : numberP f = none := by
        cases hn : numberP f with
        | none => rfl
        | some r =>
            have hnil : f.rest = [] := by simpa using hh
            have := numberP_eats _ _ _ hn
            rw [hnil] at this
            exact absurd this (Nat.not_lt_zero _)
      exact (bind_eq_none hnone).symm
  | some c =>
      obtain ⟨c1, c2, c3, c4, c5, c6⟩ := hc c hh
      simp only [valueOf, if_neg c1, if_neg c2, if_neg c3, if_neg c4, if_neg c5, if_neg c6]

theorem walks_number (h : Good total ctx followed d w s f)
    (hc : ∀ c, f.rest.head? = some c → startsNumber c)
    (hx : Sim JsonFault x numberP s f fun _ s' token f' => Met total ctx here s s' (.num token) f') :
    Walks total ctx followed d A R C (Walk.hold ctx here · w) x (valueP (m + 1)) s f :=
  SimUpTo.congr (walks_scalar h hx fun _ _ => rfl) rfl (valueP_number m hc)

/-- A number begins with a minus or a digit. -/
theorem numberP_head {token : Bytes} {f' : Flat} (h : numberP f = some (token, f')) :
    ∃ c, f.rest.head? = some c ∧ (c = chMinus ∨ isDigit c = true) := by
  obtain ⟨sign, f1, hsign, h⟩ := bind_eq_some.mp h
  obtain ⟨int, f2, hint, -⟩ := bind_eq_some.mp h
  have hp : peekP f = some (f.rest.head?, f) := rfl
  by_cases hm : f.rest.head? = some chMinus
  · exact ⟨_, hm, .inl rfl⟩
  · have e1 : signP f = some ([], f) := by
      show (if f.rest.head? = some chMinus then _ else _ : P Bytes) f = _
      rw [if_neg hm]
      rfl
    rw [e1] at hsign
    cases hsign
    cases hh : f.rest.head? with
    | none =>
        have : integerP f = none := by
          rw [integerP, bind_eq hp, hh]
          rfl
        rw [this] at hint
        cases hint
    | some c =>
        refine ⟨c, rfl, .inr ?_⟩
        have e2 : integerP f = (if c = chZero then do let _ ← takeP; return [c]
            else if isDigit19 c then digitsP else failure : P Bytes) f := by
          rw [integerP, bind_eq hp, hh]
        rw [e2] at hint
        by_cases c1 : c = chZero
        · rw [c1]
          decide
        · rw [if_neg c1] at hint
          cases hd : isDigit19 c with
          | true => exact isDigit_of_isDigit19 hd
          | false => rw [if_neg (by simp [hd])] at hint; cases hint

/-- What the first byte of a container parses to passes no comparison. -/
theorem hold_container {v : Value} {f' : Flat} (hc : isContainer f.rest.head? = true)
    (hp : valueP (m + 1) f = some (v, f')) (here : Mask) (w : Walk) : w.hold ctx here v = w := by
  rw [valueP_eq] at hp
  rw [isContainer, Bool.or_eq_true, decide_eq_true_eq, decide_eq_true_eq] at hc
  rcases hc with hc | hc
  · rw [hc] at hp
    obtain ⟨ms, rfl⟩ := objectP_some hp
    exact w.hold_fails here (fun _ _ _ => rfl) rfl
  · rw [hc] at hp
    obtain ⟨es, rfl⟩ := arrayP_some hp
    exact w.hold_fails here (fun _ _ _ => rfl) rfl

theorem valueP_literal {v : Value} {f' : Flat} (l : Literal) (hh : f.rest.head? = l.text.head?)
    (hp : valueP (m + 1) f = some (v, f')) : v = .lit l := by
  rw [valueP_eq, hh] at hp
  have hl : (do literalP l.text; return Value.lit l : P Value) f = some (v, f') := by
    cases l <;> exact hp
  obtain ⟨_, f1, -, h⟩ := bind_eq_some.mp hl
  cases h
  rfl

theorem valueP_string {v : Value} {f' : Flat} (hh : f.rest.head? = some chQuote)
    (hp : valueP (m + 1) f = some (v, f')) : ∃ str, v = .str str := by
  rw [valueP_eq, hh] at hp
  obtain ⟨str, f1, -, h⟩ := bind_eq_some.mp hp
  cases h
  exact ⟨str, rfl⟩

theorem valueP_token {v : Value} {f' : Flat} (hc : ∀ c, f.rest.head? = some c → startsNumber c)
    (hp : valueP (m + 1) f = some (v, f')) : ∃ token, v = .num token := by
  rw [valueP_number m hc] at hp
  obtain ⟨token, f1, -, h⟩ := bind_eq_some.mp hp
  cases h
  exact ⟨token, rfl⟩

/-- Only `null` begins as `null` does. -/
theorem valueP_isNull {v : Value} {f' : Flat} (hp : valueP (m + 1) f = some (v, f')) :
    v.isNull = decide (f.rest.head? = some chN) := by
  by_cases c6 : f.rest.head? = some chN
  · rw [valueP_literal .nul c6 hp, decide_eq_true c6]
    rfl
  rw [decide_eq_false c6]
  by_cases c1 : isContainer f.rest.head? = true
  · rw [valueP_eq] at hp
    rw [isContainer, Bool.or_eq_true, decide_eq_true_eq, decide_eq_true_eq] at c1
    rcases c1 with c1 | c1
    · rw [c1] at hp
      obtain ⟨ms, rfl⟩ := objectP_some hp
      rfl
    · rw [c1] at hp
      obtain ⟨es, rfl⟩ := arrayP_some hp
      rfl
  rw [isContainer, Bool.or_eq_true, decide_eq_true_eq, decide_eq_true_eq, not_or] at c1
  by_cases c3 : f.rest.head? = some chQuote
  · obtain ⟨str, rfl⟩ := valueP_string c3 hp
    rfl
  by_cases c4 : f.rest.head? = some chT
  · rw [valueP_literal .tt c4 hp]
    rfl
  by_cases c5 : f.rest.head? = some chF
  · rw [valueP_literal .ff c5 hp]
    rfl
  obtain ⟨token, rfl⟩ := valueP_token (fun c hc => by
    rw [hc, Option.some.injEq] at c3 c4 c5 c6
    rw [hc, Option.some.injEq, Option.some.injEq] at c1
    exact ⟨c1.1, c1.2, c3, c4, c5, c6⟩) hp
  rfl

/-- The terms of a kind that have arrived. -/
theorem valueTerms_has (hc : CtxRoom ctx) {keys : Mask} {segments : Nat → Nat}
    (ha : Arrived ctx keys segments here) (p : TermKind → Bool) (i : Nat) :
    (valueTerms ctx keys segments p).has i =
      (decide (i < ctx.n) && (here.has i && p (ctx.term i).kind)) := by
  rw [valueTerms, termsWhere_has hc]
  by_cases hi : i < ctx.n
  · rw [ha i hi]
  · simp [hi]

theorem valueTerms_lt (hc : CtxRoom ctx) {keys : Mask} {segments : Nat → Nat}
    (ha : Arrived ctx keys segments here) (p : TermKind → Bool) {i : Nat} (hi : i < ctx.n) :
    (valueTerms ctx keys segments p).has i = (here.has i && p (ctx.term i).kind) := by
  rw [valueTerms_has hc ha, decide_eq_true hi, Bool.true_and]

/-- No term of a kind has arrived. -/
theorem valueTerms_none (hc : CtxRoom ctx) {keys : Mask} {segments : Nat → Nat}
    (ha : Arrived ctx keys segments here) {p : TermKind → Bool}
    (h : valueTerms ctx keys segments p = 0) {i : Nat} (hi : i < ctx.n) (hh : here.has i = true) :
    p (ctx.term i).kind = false := by
  have := Mask.eq_zero_iff.mp h i
  rwa [valueTerms_lt hc ha p hi, hh, Bool.true_and] at this

theorem holds_true (t : Term) : t.holds false (.lit .tt) =
    ((decide (t.kind = .boolEq) && decide (t.value = Literal.tt.text)) ||
      (true && t.kind.isTextual && t.holdsText Literal.tt.text (plainStr Literal.tt.text).lower)) := by
  simp [Term.holds]

theorem holds_false (t : Term) : t.holds false (.lit .ff) =
    ((decide (t.kind = .boolEq) && decide (t.value = Literal.ff.text)) ||
      (true && t.kind.isTextual && t.holdsText Literal.ff.text (plainStr Literal.ff.text).lower)) := by
  simp [Term.holds]

theorem holds_null (t : Term) : t.holds false (.lit .nul) =
    ((decide (t.kind = .nullEq) && decide (t.value = Literal.nul.text)) ||
      (false && t.kind.isTextual && t.holdsText Literal.nul.text (plainStr Literal.nul.text).lower)) := by
  rw [Bool.false_and, Bool.false_and, Bool.or_false]
  rfl

/-- **The value of a member**, for the terms that its key leads to. -/
theorem memberValue_walks (hc : CtxRoom ctx) (h : Good total ctx followed d w s f) {matched : Mask}
    (ha : Arrived ctx matched s.keyTermSegment here)
    (hok : ∀ i < ctx.n, here.has i = true → (ctx.term i).LiteralsOk)
    (hv : Walks total ctx followed d A R C (fun _ => w) (value ctx (m + 1)) (valueP (m + 1)) s f) :
    Walks total ctx followed d A R C (Walk.hold ctx here · w)
      (memberValue ctx (value ctx (m + 1)) matched f.rest.head?) (valueP (m + 1)) s f := by
  refine SimUpTo.bind_left (a := s) rfl ?_
  cases hh : f.rest.head? with
  | none =>
      refine Walks.start hv fun v f' hp => ?_
      rw [valueP_eq, hh] at hp
      cases hp
  | some c =>
  by_cases c1 : c = chQuote
  · subst c1
    exact walks_string h hh (matchedString_met hc h.rel h.idle
      (fun i hi => valueTerms_lt hc ha _ hi) (fun i => valueTerms_has hc ha _ i) hok)
  by_cases c2 : c = chT ∨ c = chF
  · dsimp only
    rw [if_neg c1, if_pos c2]
    rcases c2 with rfl | rfl
    · exact walks_literal h .tt hh (matchedLiteral_met hc h.rel h.idle holds_true
        (fun i hi => valueTerms_lt hc ha _ hi)
        (fun i hi => valueTerms_lt hc ha (fun k => k.isTextual) hi) hok)
    · exact walks_literal h .ff hh (matchedLiteral_met hc h.rel h.idle holds_false
        (fun i hi => valueTerms_lt hc ha _ hi)
        (fun i hi => valueTerms_lt hc ha (fun k => k.isTextual) hi) hok)
  by_cases c3 : c = chN
  · subst c3
    exact walks_literal h .nul hh (matchedLiteral_met hc h.rel h.idle holds_null
      (fun i hi => valueTerms_lt hc ha _ hi) (fun i hi => by simp) hok)
  by_cases c4 : c = chMinus ∨ isDigit c
  · dsimp only
    rw [if_neg c1, if_neg c2, if_neg c3, if_pos c4]
    have hn : ∀ c', f.rest.head? = some c' → startsNumber c' := by
      intro c' hc'
      obtain rfl : c = c' := Option.some.inj (hh.symm.trans hc')
      have hb : c ≠ chLBrace ∧ c ≠ chLBracket := by
        rcases c4 with rfl | c4
        · decide
        · constructor <;> · rintro rfl; revert c4; decide
      exact ⟨hb.1, hb.2, c1, fun e => c2 (.inl e), fun e => c2 (.inr e), c3⟩
    exact walks_number h hn (matchedNumber_met hc h.rel h.idle (fun s hs => value_number hs m hn)
      (fun i hi => valueTerms_lt hc ha (fun k => k.isTextual) hi)
      (fun i => valueTerms_has hc ha _ i) (fun i => valueTerms_has hc ha _ i) hok)
  · dsimp only
    rw [if_neg c1, if_neg c2, if_neg c3, if_neg c4]
    refine Walks.start hv fun v f' hp => ?_
    by_cases c5 : isContainer f.rest.head? = true
    · exact hold_container c5 hp here w
    · -- no number begins with this byte
      rw [isContainer, Bool.or_eq_true, decide_eq_true_eq, decide_eq_true_eq, not_or, hh,
        Option.some.injEq, Option.some.injEq] at c5
      rw [valueP_number m (fun c' hc' => by
        obtain rfl : c = c' := Option.some.inj (hh.symm.trans hc')
        exact ⟨c5.1, c5.2, c1, fun e => c2 (.inl e), fun e => c2 (.inr e), c3⟩)] at hp
      obtain ⟨token, f1, hnum, -⟩ := bind_eq_some.mp hp
      obtain ⟨c', hc', hdig⟩ := numberP_head hnum
      rw [hh, Option.some.injEq] at hc'
      rw [← hc'] at hdig
      exact absurd hdig c4

/-- The comparisons of `lql_json_matched_scalar_value`. -/
def scalarValue (ctx : Ctx) (value : ScanM Unit) (matched : Mask) (segments : Nat → Nat)
    (first : Option UInt8) : ScanM Unit :=
  let terms := valueTerms ctx matched segments
  if first = some chQuote then
    if terms (·.isString) = 0 ∧ terms (· = .temporalRange) = 0 then string ctx
    else matchedString ctx (terms (·.isString)) (terms (· = .temporalRange))
  else if first = some chT ∨ first = some chF then
    if terms (· = .boolEq) = 0 ∧ matchTextualValueTerms ctx matched segments = 0 then value
    else matchedLiteral ctx (terms (· = .boolEq)) (matchTextualValueTerms ctx matched segments)
      (if first = some chT then txtTrue else txtFalse)
  else if first = some chN then
    if terms (· = .nullEq) = 0 then value else matchedLiteral ctx (terms (· = .nullEq)) 0 txtNull
  else if first ≠ some chLBrace ∧ first ≠ some chLBracket then
    if matchTextualValueTerms ctx matched segments = 0 ∧ terms (· = .numberRange) = 0 ∧
        terms (· = .numberEq) = 0 then value
    else matchedNumber ctx value (matchTextualValueTerms ctx matched segments)
      (terms (· = .numberRange)) (terms (· = .numberEq))
  else value

/-- What `lql_json_matched_scalar_value` finds without looking at the value. -/
def scalarPresent (ctx : Ctx) (matched : Mask) (first : Option UInt8) (s : State) : Mask :=
  matchValuelessPresent ctx s matched |||
    if first = some chN then 0 else valueTerms ctx matched s.m.termSegment (· = .exist)

theorem matchedScalarValue_eq (value : ScanM Unit) (matched : Mask) (first : Option UInt8) (s : State) :
    matchedScalarValue ctx value matched first s =
      scalarValue ctx value matched s.m.termSegment first
        { s with hits := s.hits ||| scalarPresent ctx matched first s } := by
  by_cases c0 : first = some chN
  · simp only [scalarPresent, if_pos c0]
    have : s.hits ||| (matchValuelessPresent ctx s matched ||| 0) =
        s.hits ||| matchValuelessPresent ctx s matched := by simp
    rw [this]
    simp only [matchedScalarValue, c0]
    rfl
  · simp only [scalarPresent, if_neg c0]
    rw [← BitVec.or_assoc]
    have hskip : matchedScalarValue ctx value matched first s = (do
        addHits (matchValuelessPresent ctx s matched)
        addHits (valueTerms ctx matched s.m.termSegment (· = .exist))
        scalarValue ctx value matched s.m.termSegment first : ScanM Unit) s := by
      rw [matchedScalarValue, get_bind]
      dsimp only
      rw [if_pos (show first ≠ some chN from c0)]
      rfl
    rw [hskip]
    rfl

theorem valuelessPresent_has (hc : CtxRoom ctx) {keys : Mask} (ha : Arrived ctx keys s.keyTermSegment here)
    (i : Nat) : (matchValuelessPresent ctx s keys).has i =
      (decide (i < ctx.n) && (here.has i && decide ((ctx.term i).kind = .valuelessPresent))) := by
  have hterm : ∀ keys' : Mask, (matchTermsForKind ctx s keys' .valuelessPresent).has i =
      (decide (i < ctx.n) && (keys'.has i && termValueAt (ctx.term i) (s.keyTermSegment i) &&
        decide ((ctx.term i).kind = .valuelessPresent))) := fun keys' => termsWhere_has hc _ i
  have hin : (keys &&& ctx.valuelessPresentTerms).has i =
      (keys.has i && (decide (i < ctx.n) && decide ((ctx.term i).kind = .valuelessPresent))) := by
    rw [Mask.has_and, Ctx.valuelessPresentTerms, maskOf_has_le hc.terms]
  have hmain : (decide (i < ctx.n) && ((keys &&& ctx.valuelessPresentTerms).has i &&
        termValueAt (ctx.term i) (s.keyTermSegment i) &&
        decide ((ctx.term i).kind = .valuelessPresent))) =
      (decide (i < ctx.n) && (here.has i && decide ((ctx.term i).kind = .valuelessPresent))) := by
    rw [hin]
    by_cases hi : i < ctx.n
    · rw [← ha i hi]
      cases keys.has i <;> cases termValueAt (ctx.term i) (s.keyTermSegment i) <;> simp [hi]
    · simp [hi]
  unfold matchValuelessPresent
  dsimp only
  split
  · next hz =>
    rw [← hmain, hz]
    simp
  · rw [hterm, hmain]

/-- The terms for which the value is there, as its first byte tells. -/
theorem scalarPresent_eq (hc : CtxRoom ctx) {matched : Mask} (ha : Arrived ctx matched s.m.termSegment here)
    (hk : Arrived ctx matched s.keyTermSegment here) (first : Option UInt8) :
    scalarPresent ctx matched first s = presentTerms ctx here (decide (first = some chN)) := by
  refine Mask.ext fun i => ?_
  rw [scalarPresent, Mask.has_or, valuelessPresent_has hc hk, presentTerms, maskOf_has_le hc.terms]
  by_cases c0 : first = some chN
  · simp [c0]
  · rw [if_neg c0, valueTerms_has hc ha]
    cases decide (i < ctx.n) <;> cases here.has i <;> simp [c0]

/-- More hits on both sides. -/
theorem Good.hit {e : Nat} (h : Good total ctx followed e w s f) (found : Mask) :
    Good total ctx followed e { w with hits := w.hits ||| found } { s with hits := s.hits ||| found } f where
  rel := h.rel
  depth := h.depth
  idle := ⟨h.idle.active, h.idle.key, h.idle.icontains, h.idle.dates, h.idle.number⟩
  slots := h.slots.congr rfl rfl
  hits := by rw [h.hits]
  cap := h.cap
  out := h.out
  spans := h.spans

/-- Where no term looks at the text or the value of a literal. -/
theorem hold_literal {l : Literal} {k : TermKind} {b : Bool}
    (hholds : ∀ t : Term, t.holds false (.lit l) = ((decide (t.kind = k) && decide (t.value = l.text)) ||
      (b && t.kind.isTextual && t.holdsText l.text (plainStr l.text).lower)))
    (hS : ∀ i < ctx.n, here.has i = true → decide ((ctx.term i).kind = k) = false)
    (hX : b = true → ∀ i < ctx.n, here.has i = true → (ctx.term i).kind.isTextual = false) (w : Walk) :
    w.hold ctx here (.lit l) = w := by
  refine w.hold_fails here (fun i hi hh => ?_) rfl
  rw [hholds, hS i hi hh, Bool.false_and, Bool.false_or]
  cases hb : b with
  | false => rfl
  | true => rw [hX hb i hi hh]; rfl

theorem scalarValue_walks (hc : CtxRoom ctx) (h : Good total ctx followed d w s f) {matched : Mask}
    {segments : Nat → Nat} (ha : Arrived ctx matched segments here)
    (hok : ∀ i < ctx.n, here.has i = true → (ctx.term i).LiteralsOk)
    (hv : Walks total ctx followed d A R C (fun _ => w) (value ctx (m + 1)) (valueP (m + 1)) s f) :
    Walks total ctx followed d A R C (Walk.hold ctx here · w)
      (scalarValue ctx (value ctx (m + 1)) matched segments f.rest.head?) (valueP (m + 1)) s f := by
  unfold scalarValue
  dsimp only
  by_cases c1 : f.rest.head? = some chQuote
  · rw [if_pos c1]
    split
    · next hz =>
      refine Walks.start (walks_string h c1 (string_met hc h.rel h.idle)) fun v f' hp => ?_
      obtain ⟨str, rfl⟩ := valueP_string c1 hp
      rw [Walk.hold_none]
      refine w.hold_fails here (fun i hi hh => ?_) rfl
      have h1 := valueTerms_none hc ha hz.1 hi hh
      have h2 := valueTerms_none hc ha hz.2 hi hh
      rw [Term.holds, h1, h2]
      rfl
    · exact walks_string h c1 (matchedString_met hc h.rel h.idle
        (fun i hi => valueTerms_lt hc ha _ hi) (fun i => valueTerms_has hc ha _ i) hok)
  rw [if_neg c1]
  by_cases c2 : f.rest.head? = some chT ∨ f.rest.head? = some chF
  · rw [if_pos c2]
    split
    · next hz =>
      refine Walks.start hv fun v f' hp => ?_
      have hS : ∀ i < ctx.n, here.has i = true → decide ((ctx.term i).kind = .boolEq) = false :=
        fun i hi hh => valueTerms_none hc ha hz.1 hi hh
      have hX : true = true → ∀ i < ctx.n, here.has i = true → (ctx.term i).kind.isTextual = false :=
        fun _ i hi hh => valueTerms_none (p := fun k => k.isTextual) hc ha hz.2 hi hh
      rcases c2 with c2 | c2
      · rw [valueP_literal .tt c2 hp]
        exact hold_literal holds_true hS hX w
      · rw [valueP_literal .ff c2 hp]
        exact hold_literal holds_false hS hX w
    · rcases c2 with c2 | c2
      · rw [if_pos c2]
        exact walks_literal h .tt c2 (matchedLiteral_met hc h.rel h.idle holds_true
          (fun i hi => valueTerms_lt hc ha _ hi)
          (fun i hi => valueTerms_lt hc ha (fun k => k.isTextual) hi) hok)
      · rw [if_neg (by rw [c2]; decide)]
        exact walks_literal h .ff c2 (matchedLiteral_met hc h.rel h.idle holds_false
          (fun i hi => valueTerms_lt hc ha _ hi)
          (fun i hi => valueTerms_lt hc ha (fun k => k.isTextual) hi) hok)
  rw [if_neg c2]
  by_cases c0 : f.rest.head? = some chN
  · rw [if_pos c0]
    split
    · next hz =>
      refine Walks.start hv fun v f' hp => ?_
      rw [valueP_literal .nul c0 hp]
      exact hold_literal holds_null (fun i hi hh => valueTerms_none hc ha hz hi hh)
        (fun hb => by cases hb) w
    · exact walks_literal h .nul c0 (matchedLiteral_met hc h.rel h.idle holds_null
        (fun i hi => valueTerms_lt hc ha _ hi) (fun i hi => by simp) hok)
  rw [if_neg c0]
  by_cases c3 : f.rest.head? ≠ some chLBrace ∧ f.rest.head? ≠ some chLBracket
  · rw [if_pos c3]
    have hn : ∀ c, f.rest.head? = some c → startsNumber c := by
      intro c hc
      rw [hc] at c0 c1 c2 c3
      simp only [Option.some.injEq, not_or, ne_eq] at c0 c1 c2 c3
      exact ⟨c3.1, c3.2, c1, c2.1, c2.2, c0⟩
    split
    · next hz =>
      refine Walks.start hv fun v f' hp => ?_
      obtain ⟨token, rfl⟩ := valueP_token hn hp
      have hnum : ∀ i < ctx.n, here.has i = true →
          (ctx.term i).kind ≠ .numberRange ∧ (ctx.term i).kind ≠ .numberEq := fun i hi hh =>
        ⟨of_decide_eq_false (valueTerms_none hc ha hz.2.1 hi hh),
          of_decide_eq_false (valueTerms_none hc ha hz.2.2 hi hh)⟩
      refine w.hold_fails here (fun i hi hh => ?_) ?_
      · have h1 := valueTerms_none (p := fun k => k.isTextual) hc ha hz.1 hi hh
        obtain ⟨h2, h3⟩ := hnum i hi hh
        simp [Term.holds, h1, h2, h3]
      · have : numberTerms ctx here = 0 := by
          refine Mask.eq_zero_iff.mpr fun i => ?_
          rw [numberTerms, maskOf_has_le hc.terms]
          by_cases hi : i < ctx.n
          · cases hh : here.has i with
            | false => simp
            | true =>
                obtain ⟨h2, h3⟩ := hnum i hi hh
                simp [h2, h3]
          · simp [hi]
        rw [overflows, if_pos this]
    · exact walks_number h hn (matchedNumber_met hc h.rel h.idle (fun s hs => value_number hs m hn)
        (fun i hi => valueTerms_lt hc ha (fun k => k.isTextual) hi)
        (fun i => valueTerms_has hc ha _ i) (fun i => valueTerms_has hc ha _ i) hok)
  · rw [if_neg c3]
    refine Walks.start hv fun v f' hp => hold_container ?_ hp here w
    rw [isContainer, Bool.or_eq_true, decide_eq_true_eq, decide_eq_true_eq]
    by_contra hne
    rw [not_or] at hne
    exact c3 hne

/-- **The value of an element**, for the terms that its index leads to. -/
theorem matchedScalarValue_walks (hc : CtxRoom ctx) (h : Good total ctx followed d w s f)
    {matched : Mask} (ha : Arrived ctx matched s.m.termSegment here)
    (hk : Arrived ctx matched s.keyTermSegment here)
    (hok : ∀ i < ctx.n, here.has i = true → (ctx.term i).LiteralsOk)
    (hv : ∀ found, Walks total ctx followed d A R C (fun _ => { w with hits := w.hits ||| found })
      (value ctx (m + 1)) (valueP (m + 1)) { s with hits := s.hits ||| found } f) :
    Walks total ctx followed d A R C (Walk.meet ctx here · w)
      (matchedScalarValue ctx (value ctx (m + 1)) matched f.rest.head?) (valueP (m + 1)) s f := by
  have hmain := scalarValue_walks hc
    (h.hit (presentTerms ctx here (decide (f.rest.head? = some chN)))) ha hok (hv _)
  have hrun : _ = scalarValue ctx _ _ _ _ _ :=
    matchedScalarValue_eq (value ctx (m + 1)) matched f.rest.head? s
  rw [scalarPresent_eq hc ha hk] at hrun
  have hstart : Walks total ctx followed d A R C (Walk.meet ctx here · w) _ _ _ _ :=
    hmain.start fun v f' hp => by rw [Walk.meet_eq hc, valueP_isNull hp]
  refine SimUpTo.congr (SimUpTo.mono hstart ?_) hrun rfl
  rintro _ s' v f' ⟨w', hw, hr⟩
  exact ⟨w', hw, hr.good, hr.kept.active, hr.kept.live, hr.kept.path, hr.kept.recursive,
    hr.kept.captures⟩

end Values

/-! ## Members -/

section Members

variable {d : Nat} {A R C : Mask} {s : State}

/-- A key leads a term to its value or on to the next segment. -/
theorem keyTerms_zero (hc : CtxOk ctx) (h : Alive ctx followed d A R C) (key : Bytes) :
    keyTerms ctx d A R key = 0 ↔ hereTerms ctx d A R key = 0 ∧ belowTerms ctx d A key = 0 := by
  simp only [Mask.eq_zero_iff]
  rw [← forall_and]
  refine forall_congr' fun i => ?_
  rw [keyTerms_has hc, hereTerms_has hc, belowTerms_has hc]
  by_cases hi : i < ctx.n
  · rw [decide_eq_true hi, Bool.true_and, Bool.true_and, Bool.true_and, Term.hereKey, Term.belowKey]
    rcases h.cases hi with ⟨-, hr, -⟩ | ⟨h1, -, h3⟩
    · have hord : (ctx.term i).ordKey d key = true →
          ((ctx.term i).ordValue d || decide (d + 1 < (ctx.term i).segments.length)) = true := by
        intro ho
        rw [Term.ordKey, Bool.and_eq_true, decide_eq_true_eq] at ho
        have hlt := Nat.lt_of_lt_of_le ho.1 hr.fixed_le
        by_cases hl : (ctx.term i).segments.length = d + 1
        · simp [Term.ordValue, hl]
        · rw [Bool.or_eq_true, decide_eq_true_eq]
          exact .inr (by omega)
      cases hA : A.has i with
      | false => simp
      | true =>
          cases ho : (ctx.term i).ordKey d key with
          | false => simp
          | true =>
              have := hord ho
              cases hv : (ctx.term i).ordValue d with
              | true => simp
              | false => rw [hv, Bool.false_or] at this; simp [this]
    · rw [h3, h1]
      simp
  · simp [hi]

theorem belowTerms_none (hc : CtxOk ctx) (h : Alive ctx followed d A R C) {key : Bytes}
    (hz : keyTerms ctx d A R key = 0) : belowTerms ctx d A key = 0 := ((keyTerms_zero hc h key).mp hz).2

/-- A capture ends at its key or goes on. -/
theorem captures_zero (hcap : ctx.captureKeys.length ≤ 64) (captures : Mask)
    (hb : ∀ c, captures.has c = true → c < ctx.captureKeys.length) :
    captures = 0 ↔ captureValues ctx captures d = 0 ∧ captureDescendants ctx captures d = 0 := by
  simp only [Mask.eq_zero_iff]
  rw [← forall_and]
  refine forall_congr' fun c => ?_
  rw [captureValues, captureDescendants, maskOf_has_le hcap, maskOf_has_le hcap]
  cases hc : captures.has c with
  | false => simp
  | true =>
      rw [decide_eq_true (hb c hc)]
      by_cases hl : (ctx.captureKey c).length = d + 1 <;> simp [hl]

theorem setAt_le {α : Type} {f : Nat → α} {k d : Nat} {v : α} (h : k ≤ d) : setAt f (d + 1) v k = f k := by
  have : k ≠ d + 1 := by omega
  rw [setAt, if_neg this]

theorem setAt_self {α : Type} {f : Nat → α} {k : Nat} {v : α} : setAt f k v k = v := if_pos rfl

theorem kept_setMasks (s : State) (a b c : Mask) : Kept d s (setMasks s (d + 1) a b c) :=
  ⟨rfl, rfl, fun _ hk => setAt_le hk, fun _ hk => setAt_le hk, fun _ hk => setAt_le hk⟩

/-- The masks below a member are set: `below`, `recursive` and `captures` where the value is a
container. -/
structure Entered (ctx : Ctx) (followed : Nat → Prop) (d : Nat) (first : Option UInt8)
    (below recursive captures : Mask) (s s' : State) : Prop where
  slots : SlotsOk ctx followed s'
  masks : isContainer first = true → d + 1 < maxDepth →
    s'.pathActive (d + 1) = below ∧ s'.recursiveActive (d + 1) = recursive ∧
      s'.capturePathActive (d + 1) = captures
  state : s' = { s with
    pathActive := s'.pathActive
    recursiveActive := s'.recursiveActive
    capturePathActive := s'.capturePathActive
    recursiveTermSegment := s'.recursiveTermSegment
    recursivePathSegment := s'.recursivePathSegment }
  kept : Kept d s s'

theorem enterMember_spec (hc : CtxOk ctx) (h : Alive ctx followed d A R C) (hs : SlotsOk ctx followed s)
    {member : Member} {key : Bytes} (hm : member.key.matched = keyTerms ctx d A R key)
    (honce : member.key.ordinary &&& member.key.recursive = 0)
    (hr : member.recursiveTerms = recTerms ctx d A R)
    (hseg : ∀ i < ctx.n, (keyTerms ctx d A R key).has i = true →
      s.keyTermSegment i = (ctx.term i).hitSeg d ((ctx.term i).joins d (A.has i) (R.has i)))
    (first : Option UInt8) :
    ∃ s', enterMember ctx d member first s = .ok (belowTerms ctx d A key,
        captureValues ctx member.captures d, captureDescendants ctx member.captures d) s' ∧
      Entered ctx followed d first (belowTerms ctx d A key) (recTerms ctx d A R)
        (captureDescendants ctx member.captures d) s s' := by
  have hdesc : (if member.key.matched = 0 then 0 else matchDescendants ctx s member.key.matched) =
      belowTerms ctx d A key := by
    rw [hm]
    split
    · next hz => exact (belowTerms_none hc h hz).symm
    · exact matchDescendants_eq hc h hseg
  have hrec : reconcile ctx s member.key member.recursiveTerms d = s := by
    rw [hr]
    exact reconcile_eq hc h hs hm honce hseg
  have hcarry : ∀ s1 : State, s1.keyTermSegment = s.keyTermSegment → SlotsOk ctx followed s1 →
      SlotsOk ctx followed (carryRecursiveSegments ctx s1 d (d + 1) member.recursiveTerms
        member.key.matched) := by
    intro s1 h1 hs1
    rw [hr, hm]
    exact carry_key hc h hs1 (by rw [h1]; exact hseg)
  rw [← hdesc]
  cases hcont : isContainer first with
  | false =>
      by_cases hd : d + 1 < maxDepth
      · refine ⟨_, by simp only [enterMember, hcont, if_pos hd, Bool.false_eq_true, if_false]; rfl, ?_⟩
        exact ⟨hs.congr rfl rfl, (fun hf => absurd hf (by simp [hcont])), rfl, kept_setMasks s 0 0 0⟩
      · refine ⟨_, by simp only [enterMember, hcont, if_neg hd, Bool.false_eq_true, if_false]; rfl, ?_⟩
        exact ⟨hs, (fun hf => absurd hf (by simp [hcont])), rfl, Kept.refl d s⟩
  | true =>
      by_cases hd : d + 1 < maxDepth
      · by_cases hne : member.recursiveTerms ≠ 0
        · refine ⟨_, by
            simp only [enterMember, hcont, if_pos hd, if_pos hne, if_true, modify_bind, hrec]
            rfl, ?_⟩
          obtain ⟨x, y, e⟩ := carry_state ctx (setMasks s (d + 1)
            (if member.key.matched = 0 then 0 else matchDescendants ctx s member.key.matched)
            member.recursiveTerms (captureDescendants ctx member.captures d)) d (d + 1)
            member.recursiveTerms member.key.matched
          have hslots := hcarry (setMasks s (d + 1)
            (if member.key.matched = 0 then 0 else matchDescendants ctx s member.key.matched)
            member.recursiveTerms (captureDescendants ctx member.captures d)) rfl (hs.congr rfl rfl)
          dsimp only
          rw [e] at hslots ⊢
          refine ⟨hslots, fun _ _ => ⟨setAt_self, ?_, setAt_self⟩, rfl, ?_⟩
          · rw [← hr]
            exact setAt_self
          · have := kept_setMasks (d := d) s
              (if member.key.matched = 0 then 0 else matchDescendants ctx s member.key.matched)
              member.recursiveTerms (captureDescendants ctx member.captures d)
            exact ⟨this.active, this.live, this.path, this.recursive, this.captures⟩
        · refine ⟨_, by
            simp only [enterMember, hcont, if_pos hd, if_neg hne, if_true, modify_bind, hrec]
            rfl, ?_⟩
          refine ⟨hs.congr rfl rfl, fun _ _ => ⟨setAt_self, ?_, setAt_self⟩, rfl, kept_setMasks s _ _ _⟩
          rw [← hr]
          exact setAt_self
      · refine ⟨_, by
          simp only [enterMember, hcont, if_neg hd, if_true, modify_bind, hrec]
          rfl, ?_⟩
        exact ⟨hs, fun _ hlt => absurd hlt hd, rfl, Kept.refl d s⟩

/-- Note where captures are, on both sides. -/
theorem Good.noted {e : Nat} {w : Walk} {f : Flat} (h : Good total ctx followed e w s f)
    (values : Mask) (start : Nat) :
    ∃ s', recordCaptures ctx values start s = .ok () s' ∧
      Reached total ctx followed d e (w.note ctx values start) s s' f := by
  refine ⟨_, rfl, ⟨h.rel, h.depth, ?_, h.slots.congr rfl rfl, h.hits, h.cap, h.out, ?_⟩, rfl, rfl,
    fun _ _ => rfl, fun _ _ => rfl, fun _ _ => rfl⟩
  · exact ⟨h.idle.active, h.idle.key, h.idle.icontains, h.idle.dates, h.idle.number⟩
  · have : outputOffset s.tape = w.out.length := by
      rw [← h.out, Tape.out, List.length_append]
      rfl
    dsimp only [Walk.note]
    rw [h.spans, this]

theorem Walk.note_none (w : Walk) (start : Nat) : w.note ctx 0 start = w := by
  have : ∀ span : CaptureSpan, updWhere ctx.captureKeys.length (Mask.has 0) (fun _ => span) w.spans =
      w.spans := fun span => by
    funext i
    simp [updWhere]
  rw [Walk.note, this]

/-- The masks below are cleared. -/
theorem Good.cleared {e : Nat} {w : Walk} {f : Flat} (h : Good total ctx followed e w s f) :
    Reached total ctx followed d e w s (setMasks s (d + 1) 0 0 0) f where
  good := {
    rel := h.rel
    depth := h.depth
    idle := ⟨h.idle.active, h.idle.key, h.idle.icontains, h.idle.dates, h.idle.number⟩
    slots := h.slots.congr rfl rfl
    hits := h.hits
    cap := h.cap
    out := h.out
    spans := h.spans }
  kept := kept_setMasks s 0 0 0

/-- The walk over the value of a member, with the terms and captures its key hands on. -/
def walkRest (ctx : Ctx) (d : Nat) (step : Descent) (v : Value) (w : Walk) : Option Walk :=
  if !ctx.capture && step.idle then
    if v.fits maxDepth (d + 1) then some w else none
  else
    (walkValue ctx (d + 1) step.below step.recursive (captureDescendants ctx step.captures d) v
      (w.hold ctx step.here v)).map fun w2 => w2.note ctx (captureValues ctx step.captures d) w.out.length

/-- The value of a member, and its captures. -/
theorem memberRest_walks (hc : CtxOk ctx) {m : Nat} {w : Walk} {f : Flat} {step : Descent}
    {member : Member} {matched : Mask} (hle : d + 1 ≤ maxDepth)
    (h : Good total ctx followed (d + 1) w s f)
    (hv : Walks total ctx followed (d + 1) step.below step.recursive
      (captureDescendants ctx step.captures d) (fun _ => w) (value ctx (m + 1)) (valueP (m + 1)) s f)
    (hm : member.key.matched = matched) (hzero : matched = 0 ↔ step.here = 0 ∧ step.below = 0)
    (ha : Arrived ctx matched s.keyTermSegment step.here)
    (hok : ∀ i < ctx.n, step.here.has i = true → (ctx.term i).LiteralsOk)
    (hr : member.recursiveTerms = step.recursive)
    (hcap : step.captures = 0 ↔ captureValues ctx step.captures d = 0 ∧
      captureDescendants ctx step.captures d = 0) :
    SimUpTo JsonFault (fun v => walkRest ctx d step v w = none)
      (memberRest ctx (value ctx (m + 1)) (m + 1) d member f.rest.head?
        (step.below, captureValues ctx step.captures d, captureDescendants ctx step.captures d))
      (valueP (m + 1)) s f
      fun _ s' v f' => ∃ w', walkRest ctx d step v w = some w' ∧
        Reached total ctx followed d (d + 1) w' s s' f' := by
  -- behind the value the captures are noted and the masks cleared
  have hend : ∀ (s1 : State) (w1 : Walk) (f1 : Flat), Reached total ctx followed d (d + 1) w1 s s1 f1 →
      ∃ s2, (do
        recordCaptures ctx (captureValues ctx step.captures d)
          (captureOffset (captureValues ctx step.captures d) s)
        if d + 1 < maxDepth then modify fun s => setMasks s (d + 1) 0 0 0 : ScanM Unit) s1 = .ok () s2 ∧
        Reached total ctx followed d (d + 1)
          (w1.note ctx (captureValues ctx step.captures d) w.out.length) s s2 f1 := by
    intro s1 w1 f1 h1
    obtain ⟨s2, e2, r2⟩ := h1.good.noted (d := d)
      (captureValues ctx step.captures d) (captureOffset (captureValues ctx step.captures d) s)
    have hnote : w1.note ctx (captureValues ctx step.captures d)
        (captureOffset (captureValues ctx step.captures d) s) =
        w1.note ctx (captureValues ctx step.captures d) w.out.length := by
      rw [captureOffset]
      split
      · next hz => rw [hz, Walk.note_none, Walk.note_none]
      · rw [outputOffset, ← List.length_append, ← Tape.out, h.out]
    rw [hnote] at r2
    by_cases hlt : d + 1 < maxDepth
    · refine ⟨setMasks s2 (d + 1) 0 0 0, ?_, (h1.trans r2).trans r2.good.cleared⟩
      rw [bind_ok e2, if_pos hlt]
      rfl
    · refine ⟨s2, ?_, h1.trans r2⟩
      rw [bind_ok e2, if_neg hlt]
      rfl
  refine SimUpTo.bind_left (a := s) rfl ?_
  by_cases hskip : (!ctx.capture && step.idle) = true
  · -- nothing looks at the value
    rw [Bool.and_eq_true, Bool.not_eq_true'] at hskip
    obtain ⟨hquiet, hidle⟩ := hskip
    have hidle' := hidle
    simp only [Descent.idle, Bool.and_eq_true, decide_eq_true_eq] at hidle'
    obtain ⟨⟨⟨hh, hb⟩, hrec⟩, hcs⟩ := hidle'
    have hm0 : member.key.matched = 0 := by rw [hm]; exact hzero.mpr ⟨hh, hb⟩
    obtain ⟨hc1, hc2⟩ := hcap.mp hcs
    rw [if_neg (not_not.mpr hm0), if_pos (by simp [hquiet, hb, hr, hrec, hc1, hc2])]
    have hsim := sim_onTape (skipValueFast_sim (m + 1) (d + 1) s.tape f h.rel h.depth hle)
    have hrest : ∀ v, walkRest ctx d step v w = if v.fits maxDepth (d + 1) then some w else none := by
      intro v
      rw [walkRest, if_pos (by rw [hquiet, hidle]; rfl)]
    cases hp : valueP (m + 1) f with
    | none =>
        obtain ⟨e, s', hx, he⟩ := hsim.fails (bind_eq_none hp)
        exact .of_none hp ⟨e, s', bind_error hx _, he⟩
    | some r =>
        obtain ⟨v, f'⟩ := r
        refine .of_some hp ?_
        cases hfit : checkFits (d + 1) v with
        | none =>
            obtain ⟨e, s', hx, he⟩ := hsim.fails (by rw [bind_eq hp, hfit]; rfl)
            refine .inr ⟨?_, e, s', bind_error hx _, he⟩
            rw [hrest, checkFits_none hfit]
            rfl
        | some u =>
            obtain ⟨_, s', hx, t', rfl, hrel, hstep⟩ :=
              hsim.ends (u := f') (b := u) (by rw [bind_eq hp, hfit]; rfl)
            obtain ⟨s2, e2, r2⟩ := hend _ w f' (h.stepped hrel hstep).toReached
            refine .inl ⟨(), s2, ?_, w, ?_, ?_⟩
            · rw [bind_ok hx]
              exact e2
            · rw [hrest, checkFits_some hfit]
              rfl
            · rwa [hc1, Walk.note_none] at r2
  · have hrest : ∀ v, walkRest ctx d step v w = (walkValue ctx (d + 1) step.below step.recursive
        (captureDescendants ctx step.captures d) v (w.hold ctx step.here v)).map fun w2 =>
        w2.note ctx (captureValues ctx step.captures d) w.out.length := by
      intro v
      rw [walkRest, if_neg hskip]
    have hvalue : Walks total ctx followed (d + 1) step.below step.recursive
        (captureDescendants ctx step.captures d) (Walk.hold ctx step.here · w)
        (if member.key.matched ≠ 0 then
          memberValue ctx (value ctx (m + 1)) member.key.matched f.rest.head?
        else if !ctx.capture && step.below = 0 && member.recursiveTerms = 0 &&
            captureValues ctx step.captures d = 0 && captureDescendants ctx step.captures d = 0 then
          onTape (skipValueFast (m + 1))
        else value ctx (m + 1)) (valueP (m + 1)) s f := by
      by_cases hm0 : member.key.matched ≠ 0
      · rw [if_pos hm0, hm]
        exact memberValue_walks hc.room h ha hok hv
      · rw [if_neg hm0]
        obtain ⟨hh, hb⟩ := hzero.mp (by rw [← hm]; exact not_not.mp hm0)
        have hno : ¬ (!ctx.capture && step.below = 0 && member.recursiveTerms = 0 &&
            captureValues ctx step.captures d = 0 && captureDescendants ctx step.captures d = 0) = true := by
          intro hall
          simp only [Bool.and_eq_true, decide_eq_true_eq] at hall
          obtain ⟨⟨⟨⟨hq, -⟩, hrec⟩, hc1⟩, hc2⟩ := hall
          refine hskip ?_
          rw [hq, Descent.idle, decide_eq_true hh, decide_eq_true hb, decide_eq_true (hr ▸ hrec),
            decide_eq_true (hcap.mpr ⟨hc1, hc2⟩)]
          rfl
        rw [if_neg hno, hh]
        exact hv.start fun v _ _ => w.hold_none v
    refine SimUpTo.congr (s := s) (t := f) (SimUpTo.bind (q := pure) hvalue ?_ ?_) rfl ?_
    · intro v _ v' _ _ hF hq
      cases hq
      rw [hrest, hF]
      rfl
    · rintro _ s1 v f1 _ ⟨w1, hw1, r1⟩
      obtain ⟨s2, e2, r2⟩ := hend s1 w1 f1 ⟨r1.good, r1.kept.less (Nat.le_succ d)⟩
      refine .of_some rfl (.inl ⟨_, s2, e2, _, ?_, r2⟩)
      rw [hrest, hw1]
      rfl
    · show valueP (m + 1) f = (valueP (m + 1) f).bind _
      cases valueP (m + 1) f <;> rfl

/-- The walk over one member. -/
def walkMember (ctx : Ctx) (d : Nat) (A R C : Mask) (key : Str) (v : Value) (w : Walk) : Option Walk :=
  let step := keyDescent ctx d A R C w.hits key.text
  if !ctx.capture && ((stopHitReady ctx w.hits && C = 0) || step.idle) then
    if v.fits maxDepth (d + 1) then some w else none
  else
    let w1 := (w.put ctx (key.quoted ++ [chColon])).meet ctx step.here v
    (walkValue ctx (d + 1) step.below step.recursive (captureDescendants ctx step.captures d) v w1).map
      fun w2 => w2.note ctx (captureValues ctx step.captures d) w1.out.length

theorem walkMembers_cons (key : Str) (v : Value) (rest : Json.Members) (w : Walk) :
    walkMembers ctx d A R C (.cons key v rest) w = (walkMember ctx d A R C key v w).bind fun w' =>
      walkMembers ctx d A R C rest (w'.comma ctx rest.isNil) := by
  rw [walkMembers, walkMember]
  dsimp only
  by_cases hskip : (!ctx.capture && ((stopHitReady ctx w.hits && decide (C = 0)) ||
      (keyDescent ctx d A R C w.hits key.text).idle)) = true
  · rw [if_pos hskip, if_pos hskip]
    rw [Bool.and_eq_true, Bool.not_eq_true'] at hskip
    split
    · rw [Option.bind_some, Walk.comma_quiet hskip.1]
    · rfl
  · rw [if_neg hskip, if_neg hskip]
    cases walkValue ctx (d + 1) (keyDescent ctx d A R C w.hits key.text).below
        (keyDescent ctx d A R C w.hits key.text).recursive
        (captureDescendants ctx (keyDescent ctx d A R C w.hits key.text).captures d) v
        ((w.put ctx (key.quoted ++ [chColon])).meet ctx
          (keyDescent ctx d A R C w.hits key.text).here v) <;> rfl

/-- Inside the object at depth `d`, in front of a member. -/
structure Inside (total : Nat) (ctx : Ctx) (followed : Nat → Prop) (d : Nat) (A R C : Mask) (w : Walk)
    (s : State) (f : Flat) : Prop where
  good : Good total ctx followed (d + 1) w s f
  alive : Alive ctx followed d A R C
  live : s.flatEqActive = true
  path : s.pathActive d = A
  recursive : s.recursiveActive d = R
  captures : s.capturePathActive d = C

theorem Inside.next {w w' : Walk} {s s' : State} {f f' : Flat}
    (h : Inside total ctx followed d A R C w s f)
    (hr : Reached total ctx followed d (d + 1) w' s s' f') :
    Inside total ctx followed d A R C w' s' f' :=
  ⟨hr.good, h.alive, hr.kept.live.trans h.live, (hr.kept.path d (Nat.le_refl d)).trans h.path,
    (hr.kept.recursive d (Nat.le_refl d)).trans h.recursive,
    (hr.kept.captures d (Nat.le_refl d)).trans h.captures⟩

/-- The terms an object hands to the key of a member. -/
theorem Alive.gated (h : Alive ctx followed d A R C) (hits : Mask) :
    Alive ctx followed d (Scan.gate ctx hits A) (Scan.gate ctx hits R) C := by
  have := h.gate (!stopHitReady ctx hits)
  simp only [Scan.gate]
  cases hs : stopHitReady ctx hits <;> simpa [hs] using this

/-- The captures a key names are captures. -/
theorem keyCaptures_lt (hc : CtxOk ctx) (C : Mask) (key : Bytes) {c : Nat}
    (h : (keyCaptures ctx d C key).has c = true) : c < ctx.captureKeys.length := by
  rw [keyCaptures, maskOf_has_le hc.captures, Bool.and_eq_true, decide_eq_true_eq] at h
  exact h.1

/-- A term that a key leads to is followed. -/
theorem hereTerms_followed (hc : CtxOk ctx) (h : Alive ctx followed d A R C) {key : Bytes} {i : Nat}
    (hi : i < ctx.n) (hh : (hereTerms ctx d A R key).has i = true) : followed i := by
  rw [hereTerms_has hc, decide_eq_true hi, Bool.true_and] at hh
  rcases h.cases hi with ⟨hf, -, -⟩ | ⟨h1, -, h3⟩
  · exact hf
  · rw [Term.hereKey, h3, h1] at hh
    simp at hh

theorem ite_setKeySegment {α : Type} (matched : Mask) (k : ScanM α) (s : State) :
    (if matched ≠ 0 then modify (fun s => setKeySegment ctx s matched) >>= fun _ => k else k) s =
      k (setKeySegment ctx s matched) := by
  by_cases h : matched ≠ 0
  · rw [if_pos h]
    rfl
  · rw [if_neg h, not_not.mp h, setKeySegment_none]

/-- The key has been read and the scanner is at rest again. -/
theorem KeyRead.rested {w : Walk} {f f' : Flat} {key : Str} {member : Member} {s' : State}
    (h : Good total ctx followed (d + 1) w s f)
    (hk : KeyRead total ctx followed d A R C s key member s' f') (found : Mask) :
    Reached total ctx followed d (d + 1) { w.put ctx key.quoted with hits := w.hits ||| found } s
      { setKeySegment ctx s' member.key.matched with
        hits := s'.hits ||| found
        m := matchStart ctx s'.m 0 false 0 } f' where
  good := {
    rel := hk.rel
    depth := hk.step.depth.trans h.depth
    idle := by
      refine ⟨rfl, rfl, ?_, hk.dates.trans h.idle.dates, ?_⟩
      · refine Mask.eq_zero_iff.mpr fun i => ?_
        show (maskOf ctx.n _).has i = false
        rw [maskOf_has]
        simp
      · show s'.num.active = 0
        rw [hk.state]
        exact h.idle.number
    slots := hk.slots.congr rfl rfl
    hits := by
      show s'.hits ||| found = w.hits ||| found
      rw [hk.state, ← h.hits]
    cap := by
      show s'.num.cap = w.cap
      rw [hk.state]
      exact h.cap
    out := hk.step.out.trans (by rw [h.out]; rfl)
    spans := by
      show s'.captureSpans = w.spans
      rw [hk.state]
      exact h.spans }
  kept := by
    refine ⟨hk.step.active, ?_, fun k _ => ?_, fun k _ => ?_, fun k _ => ?_⟩
    · show s'.flatEqActive = s.flatEqActive
      rw [hk.state]
    · show s'.pathActive k = s.pathActive k
      rw [hk.state]
    · show s'.recursiveActive k = s.recursiveActive k
      rw [hk.state]
    · show s'.capturePathActive k = s.capturePathActive k
      rw [hk.state]

theorem Entered.reached {w : Walk} {f : Flat} {s' : State} {first : Option UInt8}
    {below recursive captures : Mask} {e : Nat} (h : Good total ctx followed e w s f)
    (he : Entered ctx followed d first below recursive captures s s') :
    Reached total ctx followed d e w s s' f where
  good := by
    refine ⟨?_, ?_, ?_, he.slots, ?_, ?_, ?_, ?_⟩
    · rw [he.state]
      exact h.rel
    · rw [he.state]
      exact h.depth
    · rw [he.state]
      exact ⟨h.idle.active, h.idle.key, h.idle.icontains, h.idle.dates, h.idle.number⟩
    · rw [he.state]
      exact h.hits
    · rw [he.state]
      exact h.cap
    · rw [he.state]
      exact h.out
    · rw [he.state]
      exact h.spans
  kept := he.kept

/-- Unless the member is skipped outright, the walk goes through its value. -/
theorem walkMember_eq (hc : CtxOk ctx) {w : Walk} (key : Str) (v : Value)
    (hno : (!ctx.capture && stopHitReady ctx w.hits && decide (C = 0)) = false) :
    walkMember ctx d A R C key v w =
      walkRest ctx d (keyDescent ctx d A R C w.hits key.text) v
        { w.put ctx (key.quoted ++ [chColon]) with
          hits := w.hits |||
            presentTerms ctx (keyDescent ctx d A R C w.hits key.text).here v.isNull } := by
  have hcond : (!ctx.capture && ((stopHitReady ctx w.hits && decide (C = 0)) ||
      (keyDescent ctx d A R C w.hits key.text).idle)) =
      (!ctx.capture && (keyDescent ctx d A R C w.hits key.text).idle) := by
    rw [Bool.and_assoc] at hno
    rw [Bool.and_or_distrib_left, hno, Bool.false_or]
  rw [walkMember, walkRest]
  dsimp only
  rw [hcond]
  split
  · next hskip =>
    rw [Bool.and_eq_true, Bool.not_eq_true'] at hskip
    have hh : (keyDescent ctx d A R C w.hits key.text).here = 0 := by
      have := hskip.2
      simp only [Descent.idle, Bool.and_eq_true, decide_eq_true_eq] at this
      exact this.1.1.1
    rw [hh, presentTerms_none, Walk.put_quiet hskip.1, Mask.or_zero]
  · rw [Walk.meet_eq hc.room]
    rfl

theorem objectMember_walks (hc : CtxOk ctx) (hok : ∀ i < ctx.n, followed i → (ctx.term i).LiteralsOk)
    {m : Nat} {w : Walk} {f : Flat} (hle : d + 1 ≤ maxDepth)
    (h : Inside total ctx followed d A R C w s f)
    (hno : (!ctx.capture && stopHitReady ctx w.hits && decide (C = 0)) = false)
    (hv : ∀ (A R C : Mask) (w : Walk) (s : State) (f : Flat),
      Ready total ctx followed (d + 1) A R C w s f →
      Walks total ctx followed (d + 1) A R C (fun _ => w) (value ctx (m + 1)) (valueP (m + 1)) s f) :
    SimUpTo JsonFault (fun kv => walkMember ctx d A R C kv.1 kv.2 w = none)
      (objectMember ctx (value ctx (m + 1)) (m + 1) d) (memberP (valueP (m + 1))) s f
      fun _ s' kv f' => ∃ w', walkMember ctx d A R C kv.1 kv.2 w = some w' ∧
        Reached total ctx followed d (d + 1) w' s s' f' := by
  have hA : ∀ M : Mask, (if !stopHitReady ctx w.hits then M else 0) = gate ctx w.hits M := by
    intro M
    rw [gate]
    cases stopHitReady ctx w.hits <;> rfl
  have hlive : (!stopHitReady ctx w.hits) = (s.flatEqActive && !stopHitReady ctx s.hits) := by
    rw [h.live, h.good.hits, Bool.true_and]
  have hkey := objectKey_sim hc hlive (by rw [h.path, h.recursive, h.captures]; exact h.alive)
    h.good.slots h.good.rel
  simp only [hA, h.path, h.recursive, h.captures] at hkey
  have hal := h.alive.gated w.hits
  refine Sim.bind_upTo hkey fun member s1 key f1 _ hk => ?_
  obtain ⟨step, hstep⟩ : ∃ step, step = keyDescent ctx d A R C w.hits key.text := ⟨_, rfl⟩
  have hhere : step.here = hereTerms ctx d (gate ctx w.hits A) (gate ctx w.hits R) key.text := by
    rw [hstep]; rfl
  dsimp only
  refine SimUpTo.congr ?_ (ite_setKeySegment member.key.matched _ s1) rfl
  -- the key's segments are noted, and the scanner comes to rest
  obtain ⟨s2, e2⟩ : ∃ s2, s2 = setKeySegment ctx s1 member.key.matched := ⟨_, rfl⟩
  rw [← e2]
  have hsegs : ∀ i < ctx.n, (keyTerms ctx d (gate ctx w.hits A) (gate ctx w.hits R) key.text).has i = true →
      s2.keyTermSegment i = (ctx.term i).hitSeg d
        ((ctx.term i).joins d ((gate ctx w.hits A).has i) ((gate ctx w.hits R).has i)) := by
    intro i hi hin
    rw [e2, ← hk.segments i hi hin]
    simp [setKeySegment, updWhere, hi, hk.matched, hin]
  have harr : Arrived ctx member.key.matched s2.keyTermSegment step.here := by
    rw [hk.matched, hhere]
    exact keyTerms_arrived hc hal hsegs
  obtain ⟨valueless, ev⟩ : ∃ valueless, valueless = (if member.key.matched = 0 then 0
    else matchValuelessPresent ctx s2 member.key.matched) := ⟨_, rfl⟩
  obtain ⟨existing, ee⟩ : ∃ existing, existing = (if member.key.matched = 0 then 0
    else matchExists ctx s2 member.key.matched) := ⟨_, rfl⟩
  have hpresent : ∀ first : Option UInt8, valueless ||| (if first = some chN then 0 else existing) =
      presentTerms ctx step.here (decide (first = some chN)) := by
    intro first
    have hz : member.key.matched = 0 → step.here = 0 := by
      rw [hk.matched, hhere]
      exact fun hm => ((keyTerms_zero hc hal key.text).mp hm).1
    refine Mask.ext fun i => ?_
    rw [ev, ee, presentTerms, maskOf_has_le hc.terms]
    by_cases hm : member.key.matched = 0
    · simp [hm, hz hm]
    · have hexist : (matchExists ctx s2 member.key.matched).has i =
          (decide (i < ctx.n) && (step.here.has i && decide ((ctx.term i).kind = .exist))) :=
        valueTerms_has hc.room harr (fun k => decide (k = .exist)) i
      rw [if_neg hm, if_neg hm, Mask.has_or, valuelessPresent_has hc.room harr]
      by_cases c0 : first = some chN
      · simp [c0]
      · rw [if_neg c0, hexist]
        cases decide (i < ctx.n) <;> cases step.here.has i <;> simp [c0]
  refine SimUpTo.bind_left (a := s2) rfl ?_
  rw [← ev, ← ee]
  have r4 := hk.rested h.good valueless
  obtain ⟨s4, e4⟩ : ∃ s4 : State, s4 = { setKeySegment ctx s1 member.key.matched with
    hits := s1.hits ||| valueless, m := matchStart ctx s1.m 0 false 0 } := ⟨_, rfl⟩
  rw [← e4] at r4
  refine SimUpTo.bind_left (a := ()) (r := { s2 with hits := s2.hits ||| valueless }) rfl ?_
  refine SimUpTo.bind_left (a := ()) (r := s4) (by rw [e4, e2]; rfl) ?_
  refine Sim.bind_upTo (good_moves d r4.good (skipSpace_sim r4.good.rel)) fun _ s5 _ f5 _ r5 => ?_
  refine Sim.bind_upTo (good_moves d r5.good (takeExpected_sim r5.good.rel chColon))
    fun _ s6 _ f6 _ r6 => ?_
  obtain ⟨s7, e7, r7⟩ := good_copy d r6.good chColon
  refine SimUpTo.bind_left e7 ?_
  refine Sim.bind_upTo (good_moves d r7.good (skipSpace_sim r7.good.rel)) fun _ s8 _ f8 _ r8 => ?_
  obtain ⟨s9, e9, r9, -⟩ := good_peek d r8.good
  refine SimUpTo.bind_left e9 ?_
  have r59 := (((r5.trans r6).trans r7).trans r8).trans r9
  have hsegs9 : s9.keyTermSegment = s2.keyTermSegment := by
    rw [r59.still, e4, e2]
  obtain ⟨s10, e10, hent⟩ := enterMember_spec hc hal r9.good.slots hk.matched hk.once hk.recursive
    (by rw [hsegs9]; exact hsegs) f8.rest.head?
  refine SimUpTo.bind_left e10 ?_
  have e11 := objectMember_rest ctx (value ctx (m + 1)) (m + 1) d member existing f8.rest.head?
    (belowTerms ctx d (gate ctx w.hits A) key.text, captureValues ctx member.captures d,
      captureDescendants ctx member.captures d) s10
  refine SimUpTo.congr ?_ e11 rfl
  have hbelow : belowTerms ctx d (gate ctx w.hits A) key.text = step.below := by rw [hstep]; rfl
  have hrec : recTerms ctx d (gate ctx w.hits A) (gate ctx w.hits R) = step.recursive := by
    rw [hstep]; rfl
  have hcaps : member.captures = step.captures := by rw [hk.captures, hstep]; rfl
  rw [hbelow, hrec, hcaps] at hent
  rw [hbelow, hcaps]
  -- the value
  have r10 : Reached total ctx followed d (d + 1) _ s s10 f8 :=
    (r4.trans r59.toReached).trans (hent.reached r9.good)
  obtain ⟨w11, ew⟩ : ∃ w11 : Walk, w11 = { w.put ctx (key.quoted ++ [chColon]) with
    hits := w.hits ||| presentTerms ctx step.here (decide (f8.rest.head? = some chN)) } := ⟨_, rfl⟩
  obtain ⟨s11, es⟩ : ∃ s11 : State, s11 =
      { s10 with hits := s10.hits ||| (if f8.rest.head? = some chN then 0 else existing) } := ⟨_, rfl⟩
  have r11 : Reached total ctx followed d (d + 1) w11 s s11 f8 := by
    have hhit := r10.good.hit (if f8.rest.head? = some chN then 0 else existing)
    rw [← es] at hhit
    have hsame : w11 = { (w.put ctx key.quoted).put ctx [chColon] with
        hits := w.hits ||| valueless ||| if f8.rest.head? = some chN then 0 else existing } := by
      rw [ew, Walk.put_append, BitVec.or_assoc, hpresent]
    refine ⟨hsame ▸ hhit, ?_⟩
    rw [es]
    exact ⟨r10.kept.active, r10.kept.live, r10.kept.path, r10.kept.recursive, r10.kept.captures⟩
  have hready : Ready total ctx followed (d + 1) step.below step.recursive
      (captureDescendants ctx step.captures d) w11 s11 f8 := by
    refine ⟨r11.good, ?_, fun _ => r11.kept.live.trans h.live, ?_,
      fun h0 => absurd h0 (Nat.succ_ne_zero d)⟩
    · have := hal.key hc key.text
      rwa [hbelow, hrec, show keyCaptures ctx d C key.text = step.captures by rw [hstep]; rfl] at this
    · rw [es]
      exact hent.masks
  have hrest := memberRest_walks hc hle r11.good
    (hv _ _ _ w11 s11 f8 hready) rfl
    (by rw [hk.matched, hhere, ← hbelow]; exact keyTerms_zero hc hal key.text)
    (by rw [es, hent.state]; exact hsegs9 ▸ harr)
    (fun i hi hh => hok i hi (hereTerms_followed hc hal hi (hhere ▸ hh)))
    (by rw [hk.recursive, hrec])
    (captures_zero hc.captures step.captures fun c hcap => by
      rw [← hcaps, hk.captures] at hcap
      exact keyCaptures_lt hc C key.text hcap)
  have hwalk : ∀ v f', valueP (m + 1) f8 = some (v, f') →
      walkMember ctx d A R C key v w = walkRest ctx d step v w11 := by
    intro v f' hp
    rw [walkMember_eq hc key v hno, ← hstep, ew, valueP_isNull hp]
  rw [← es]
  have hmember : SimUpTo JsonFault (fun v => walkMember ctx d A R C key v w = none)
      (memberRest ctx (value ctx (m + 1)) (m + 1) d member f8.rest.head?
        (step.below, captureValues ctx step.captures d, captureDescendants ctx step.captures d))
      (valueP (m + 1)) s11 f8
      fun _ s' v f' => ∃ w', walkMember ctx d A R C key v w = some w' ∧
        Reached total ctx followed d (d + 1) w' s s' f' := by
    refine SimUpTo.weaken hrest ?_ ?_
    · intro v f' hp hF
      rw [hwalk v f' hp]
      exact hF
    · rintro _ s' v f' hp ⟨w', hw, hr⟩
      exact ⟨w', (hwalk v f' hp).trans hw, r11.trans hr⟩
  refine SimUpTo.map_right (fun v => (key, v)) hmember ?_ (fun _ hF => hF) fun _ s' v f' hq => hq
  show (valueP (m + 1) f8).bind _ = _
  cases valueP (m + 1) f8 <;> rfl

/-- A member that is skipped outright: the scan knows enough. -/
theorem skipMember_walks {m : Nat} {w : Walk} {f : Flat} (hle : d + 1 ≤ maxDepth)
    (h : Inside total ctx followed d A R C w s f)
    (hskip : (!ctx.capture && stopHitReady ctx w.hits && decide (C = 0)) = true) :
    SimUpTo JsonFault (fun kv => walkMember ctx d A R C kv.1 kv.2 w = none)
      (onTape (skipMember (m + 1))) (memberP (valueP (m + 1))) s f
      fun _ s' kv f' => ∃ w', walkMember ctx d A R C kv.1 kv.2 w = some w' ∧
        Reached total ctx followed d (d + 1) w' s s' f' := by
  have hwalk : ∀ key v, walkMember ctx d A R C key v w =
      if v.fits maxDepth (d + 1) then some w else none := by
    intro key v
    rw [walkMember, if_pos]
    simp only [Bool.and_eq_true, Bool.not_eq_true'] at hskip
    simp [hskip.1.1, hskip.1.2, of_decide_eq_true hskip.2]
  simp only [skipMember, onTape_bind]
  have hg := h.good
  refine Sim.bind_upTo (good_moves d hg (skipStringFast_sim hg.rel)) fun _ s1 key f1 _ r1 => ?_
  refine Sim.bind_upTo (good_moves d r1.good (skipSpace_sim r1.good.rel)) fun _ s2 _ f2 _ r2 => ?_
  refine Sim.bind_upTo (good_moves d r2.good (takeExpected_sim r2.good.rel chColon))
    fun _ s3 _ f3 _ r3 => ?_
  refine Sim.bind_upTo (good_moves d r3.good (skipSpace_sim r3.good.rel)) fun _ s4 _ f4 _ r4 => ?_
  have r14 := ((r1.trans r2).trans r3).trans r4
  have hsim := sim_onTape (skipValueFast_sim (m + 1) (d + 1) s4.tape f4 r4.good.rel r4.good.depth hle)
  cases hp : valueP (m + 1) f4 with
  | none =>
      refine .of_none ?_ (hsim.fails (bind_eq_none hp))
      rw [bind_eq_none hp]
  | some r =>
      obtain ⟨v, f'⟩ := r
      refine .of_some (b := (key, v)) (u := f') (by rw [bind_eq hp]; rfl) ?_
      cases hfit : checkFits (d + 1) v with
      | none =>
          refine .inr ⟨?_, hsim.fails (by rw [bind_eq hp, hfit]; rfl)⟩
          rw [hwalk, checkFits_none hfit]
          rfl
      | some u =>
          obtain ⟨_, s', hx, t', rfl, hrel, hstep⟩ :=
            hsim.ends (u := f') (b := u) (by rw [bind_eq hp, hfit]; rfl)
          refine .inl ⟨_, _, hx, w, ?_, (r14.trans (r4.good.stepped hrel hstep)).toReached⟩
          rw [hwalk, checkFits_some hfit]
          rfl

/-- What follows a member. -/
theorem membersTail_walks {more : Option UInt8 → ScanM Unit} {r : P Json.Members} {key : Str} {v : Value}
    {w : Walk} {f : Flat} (h : Inside total ctx followed d A R C w s f)
    (hmore : ∀ (w : Walk) (s : State) (f : Flat), Inside total ctx followed d A R C w s f →
      SimUpTo JsonFault (fun ms => walkMembers ctx d A R C ms w = none) (more f.rest.head?) r s f
        fun _ s' ms f' => ms.isNil = false ∧ ∃ w', walkMembers ctx d A R C ms w = some w' ∧
          Reached total ctx followed d d w' s s' f')
    (hnil : ∀ f' ms f'', r f' = some (ms, f'') → ms.isNil = false) :
    SimUpTo JsonFault (fun ms => ∃ rest, ms = .cons key v rest ∧
        walkMembers ctx d A R C rest (w.comma ctx rest.isNil) = none)
      (membersTail ctx more) (memberEndP r key v) s f
      fun _ s' ms f' => ∃ rest, ms = .cons key v rest ∧ ∃ w',
        walkMembers ctx d A R C rest (w.comma ctx rest.isNil) = some w' ∧
          Reached total ctx followed d d w' s s' f' := by
  refine Sim.bind_upTo (good_moves d h.good (skipSpace_sim h.good.rel)) fun _ s1 _ f1 _ r1 => ?_
  refine Sim.bind_upTo (good_reads d r1.good (take_sim r1.good.rel)) fun c s2 c' f2 _ h2 => ?_
  obtain ⟨rfl, r2⟩ := h2
  have r12 := r1.trans r2
  by_cases hc : c = chRBrace
  · rw [if_pos hc, if_pos hc]
    obtain ⟨s3, e3, r3⟩ := good_copy d r2.good chRBrace
    obtain ⟨s4, e4, r4⟩ := good_leave d r3.good
    refine SimUpTo.bind_left e3 (.of_some rfl (.inl ⟨_, s4, e4, .nil, rfl, _, rfl, ?_⟩))
    exact ((r12.trans r3).trans r4).toReached
  rw [if_neg hc, if_neg hc]
  by_cases hc' : c ≠ chComma
  · rw [if_pos hc', if_pos hc']
    exact .of_none rfl ⟨_, s2, rfl, rfl⟩
  rw [if_neg hc', if_neg hc']
  obtain ⟨s3, e3, r3⟩ := good_copy d r2.good chComma
  refine SimUpTo.bind_left e3 ?_
  refine Sim.bind_upTo (good_moves d r3.good (skipSpace_sim r3.good.rel)) fun _ s4 _ f4 _ r4 => ?_
  obtain ⟨s5, e5, r5, -⟩ := good_peek d r4.good
  refine SimUpTo.bind_left e5 ?_
  have r15 := ((r12.trans r3).trans r4).trans r5
  have hcomma : ∀ rest : Json.Members, rest.isNil = false → w.comma ctx rest.isNil = w.put ctx [chComma] := by
    intro rest hrest
    rw [Walk.comma, hrest]
    rfl
  refine SimUpTo.map_right (fun rest => .cons key v rest) (SimUpTo.weaken
    (Q := fun _ s' rest f' => rest.isNil = false ∧ ∃ w',
      walkMembers ctx d A R C rest (w.comma ctx rest.isNil) = some w' ∧
        Reached total ctx followed d d w' s s' f')
    (G := fun rest => walkMembers ctx d A R C rest (w.comma ctx rest.isNil) = none)
    (hmore _ s5 f4 (h.next r15.toReached)) ?_ ?_) ?_ ?_ ?_
  · intro rest f' hp hF
    rw [hcomma rest (hnil _ _ _ hp)]
    exact hF
  · rintro _ s' rest f' hp ⟨hrest, w', hw, hr⟩
    exact ⟨hrest, w', by rw [hcomma rest hrest]; exact hw, r15.toReached.trans hr⟩
  · show (r f4).bind _ = _
    cases r f4 <;> rfl
  · intro rest hF
    exact ⟨rest, rfl, hF⟩
  · rintro _ s' rest f' ⟨hrest, w', hw, hr⟩
    exact ⟨rest, rfl, w', hw, hr⟩

theorem membersP_isNil {p : P Value} {n : Nat} {ms : Json.Members} {f f' : Flat}
    (h : membersP p n f = some (ms, f')) : ms.isNil = false := by
  cases n with
  | zero => cases h
  | succ n =>
      rw [membersP_succ] at h
      obtain ⟨kv, f1, -, h⟩ := bind_eq_some.mp h
      obtain ⟨rest, rfl⟩ := memberEndP_some h
      rfl

/-- **The member loop.** -/
theorem objectMembers_walks (hc : CtxOk ctx) (hok : ∀ i < ctx.n, followed i → (ctx.term i).LiteralsOk)
    {m : Nat} (hle : d + 1 ≤ maxDepth)
    (hv : ∀ (A R C : Mask) (w : Walk) (s : State) (f : Flat),
      Ready total ctx followed (d + 1) A R C w s f →
      Walks total ctx followed (d + 1) A R C (fun _ => w) (value ctx (m + 1)) (valueP (m + 1)) s f) :
    ∀ (fuel : Nat) (w : Walk) (s : State) (f : Flat), Inside total ctx followed d A R C w s f →
      SimUpTo JsonFault (fun ms => walkMembers ctx d A R C ms w = none)
        (objectMembers ctx (value ctx (m + 1)) (m + 1) d fuel f.rest.head?)
        (membersP (valueP (m + 1)) fuel) s f
        fun _ s' ms f' => ms.isNil = false ∧ ∃ w', walkMembers ctx d A R C ms w = some w' ∧
          Reached total ctx followed d d w' s s' f' := by
  intro fuel
  induction fuel with
  | zero =>
      intro w s f _
      exact .of_none rfl ⟨_, s, rfl, rfl⟩
  | succ fuel ih =>
      intro w s f h
      rw [membersP_succ]
      by_cases hq : f.rest.head? = some chQuote
      · -- a member, then what follows it
        have hstep : ∀ {x : ScanM Unit}, SimUpTo JsonFault
            (fun kv => walkMember ctx d A R C kv.1 kv.2 w = none) x (memberP (valueP (m + 1))) s f
            (fun _ s' kv f' => ∃ w', walkMember ctx d A R C kv.1 kv.2 w = some w' ∧
              Reached total ctx followed d (d + 1) w' s s' f') →
            SimUpTo JsonFault (fun ms => walkMembers ctx d A R C ms w = none)
              (x >>= fun _ => membersTail ctx
                (objectMembers ctx (value ctx (m + 1)) (m + 1) d fuel))
              (memberP (valueP (m + 1)) >>= fun kv =>
                memberEndP (membersP (valueP (m + 1)) fuel) kv.1 kv.2) s f
              fun _ s' ms f' => ms.isNil = false ∧ ∃ w', walkMembers ctx d A R C ms w = some w' ∧
                Reached total ctx followed d d w' s s' f' := by
          intro x hx
          refine hx.bind ?_ ?_
          · intro kv f' ms f2 _ hF hms
            obtain ⟨rest, rfl⟩ := memberEndP_some hms
            rw [walkMembers_cons, hF]
            rfl
          · rintro _ s1 kv f1 _ ⟨w1, hw1, r1⟩
            refine SimUpTo.weaken (membersTail_walks (h.next r1) ih fun _ _ _ => membersP_isNil) ?_ ?_
            · rintro ms f' - ⟨rest, rfl, hF⟩
              rw [walkMembers_cons, hw1]
              exact hF
            · rintro _ s2 ms f2 - ⟨rest, rfl, w2, hw2, r2⟩
              refine ⟨rfl, w2, ?_, r1.trans r2⟩
              rw [walkMembers_cons, hw1]
              exact hw2
        rw [objectMembers, if_neg (not_not.mpr hq)]
        refine SimUpTo.bind_left (a := s) rfl ?_
        rw [h.good.hits, h.captures]
        by_cases hskip : (!ctx.capture && stopHitReady ctx w.hits && decide (C = 0)) = true
        · rw [if_pos hskip]
          have := hstep (skipMember_walks hle h hskip)
          simp only [Bool.and_eq_true, Bool.not_eq_true'] at hskip
          simpa only [membersTail, copyByte_quiet hskip.1.1, pure_bind] using this
        · rw [if_neg hskip]
          exact hstep (objectMember_walks hc hok hle h (by simpa using hskip) hv)
      · refine .of_none (bind_eq_none (bind_eq_none (stringP_none hq)))
          ⟨.json "JSON object key must be a string", s, ?_, rfl⟩
        rw [objectMembers, if_pos hq]
        rfl

theorem object_walks (hc : CtxOk ctx) (hok : ∀ i < ctx.n, followed i → (ctx.term i).LiteralsOk)
    {n : Nat} {w : Walk} {f : Flat} (hhead : f.rest.head? = some chLBrace) (hle : d ≤ maxDepth)
    (h : Ready total ctx followed d A R C w s f)
    (hv : d < maxDepth → ∀ (A R C : Mask) (w : Walk) (s : State) (f : Flat),
      Ready total ctx followed (d + 1) A R C w s f →
      Walks total ctx followed (d + 1) A R C (fun _ => w) (value ctx n) (valueP n) s f) :
    Walks total ctx followed d A R C (fun _ => w) (object ctx (value ctx n) n) (objectP (valueP n) n) s f := by
  have hcont : isContainer f.rest.head? = true := by rw [hhead]; rfl
  have hg := h.good
  refine SimUpTo.bind_left (a := s) rfl ?_
  rw [hg.depth]
  by_cases hmax : d < maxDepth
  · obtain ⟨s1, e1, r1⟩ := good_enter d hg hmax
    refine SimUpTo.bind_left e1 ?_
    refine Sim.bind_upTo (good_moves d r1.good (takeExpected_sim r1.good.rel chLBrace))
      fun _ s2 _ f2 _ r2 => ?_
    obtain ⟨s3, e3, r3⟩ := good_copy d r2.good chLBrace
    refine SimUpTo.bind_left e3 ?_
    refine Sim.bind_upTo (good_moves d r3.good (skipSpace_sim r3.good.rel)) fun _ s4 _ f4 _ r4 => ?_
    obtain ⟨s5, e5, r5, hb⟩ := good_peek d r4.good
    refine SimUpTo.bind_left e5 (SimUpTo.bind_right
      (show peekP f4 = some (f4.rest.head?, f4) from rfl) ?_)
    have r15 := (((r1.trans r2).trans r3).trans r4).trans r5
    have hwalk : ∀ ms, walkValue ctx d A R C (.obj ms) w =
        walkMembers ctx d A R C ms (w.put ctx [chLBrace]) := fun ms => by
      rw [walkValue, if_pos hmax]
    by_cases hc1 : f4.rest.head? = some chRBrace
    · rw [if_pos hc1, if_pos hc1]
      obtain ⟨rest, hr⟩ := head_eq_cons hc1
      obtain ⟨s6, e6, r6⟩ := good_close d r5.good (hb.trans hc1) hr
      refine SimUpTo.bind_right (takeP_cons hr) (.of_some rfl (.inl ⟨_, s6, e6, _, ?_,
        (r15.trans r6).toReached⟩))
      rw [hwalk]
      rfl
    · rw [if_neg hc1, if_neg hc1]
      obtain ⟨hA, hR, hC⟩ := h.masks hcont hmax
      have hin : Inside total ctx followed d A R C (w.put ctx [chLBrace]) s5 f4 :=
        ⟨r15.good, h.alive, r15.kept.live.trans (h.live hcont),
          (r15.kept.path d (Nat.le_refl d)).trans hA, (r15.kept.recursive d (Nat.le_refl d)).trans hR,
          (r15.kept.captures d (Nat.le_refl d)).trans hC⟩
      -- without fuel neither side gets to a member
      have hmembers : SimUpTo JsonFault
          (fun ms => walkMembers ctx d A R C ms (w.put ctx [chLBrace]) = none)
          (objectMembers ctx (value ctx n) n d n f4.rest.head?) (membersP (valueP n) n) s5 f4
          fun _ s' ms f' => ms.isNil = false ∧ ∃ w',
            walkMembers ctx d A R C ms (w.put ctx [chLBrace]) = some w' ∧
              Reached total ctx followed d d w' s5 s' f' := by
        cases n with
        | zero => exact .of_none rfl ⟨_, s5, rfl, rfl⟩
        | succ m => exact objectMembers_walks hc hok hmax (hv hmax) (m + 1) _ s5 f4 hin
      refine SimUpTo.map_right Value.obj hmembers ?_ ?_ ?_
      · show (membersP (valueP n) n f4).bind _ = _
        cases membersP (valueP n) n f4 <;> rfl
      · intro ms hF
        rw [hwalk]
        exact hF
      · rintro _ s' ms f' ⟨-, w', hw, hr⟩
        exact ⟨w', by rw [hwalk]; exact hw, r15.toReached.trans hr⟩
  · have hdeep : s.tape.depth = maxDepth := by
      rw [hg.depth]
      omega
    refine .of_fails ⟨_, _, bind_error (onTape_error (enter_error hdeep)) _, rfl⟩ ?_
    intro v f' hv
    obtain ⟨ms, rfl⟩ := objectP_some hv
    rw [walkValue, if_neg hmax]

end Members

/-! ## Elements -/

section Elements

variable {d : Nat} {A R C : Mask} {s : State}

theorem elementTerms_arrived (hc : CtxOk ctx) (h : Alive ctx followed d A R C) {index : Nat}
    {segments : Nat → Nat}
    (hseg : ∀ i < ctx.n, (elementTerms ctx d A R index).has i = true →
      segments i = (ctx.term i).hitSeg d ((ctx.term i).joins d (A.has i) (R.has i))) :
    Arrived ctx (elementTerms ctx d A R index) segments (elementHere ctx d A R index) := by
  intro i hi
  rw [elementHere_has hc, decide_eq_true hi, Bool.true_and]
  have hhas : (elementTerms ctx d A R index).has i = ((A.has i && (ctx.term i).ordIndex d index) ||
      ((ctx.term i).joins d (A.has i) (R.has i) && (ctx.term i).recIndex index)) := by
    rw [elementTerms_has hc, decide_eq_true hi, Bool.true_and]
    rfl
  rcases h.cases hi with ⟨-, hr, hal⟩ | ⟨h1, h2, h3⟩
  · have hval := Term.value_of_hit hr hal ((ctx.term i).ordIndex d index)
      ((ctx.term i).recIndex index) fun hk => by
        simp only [Term.ordIndex, Bool.and_eq_true, decide_eq_true_eq] at hk
        exact hk.1
    rw [Term.hereIndex, ← hval, ← hhas]
    cases hin : (elementTerms ctx d A R index).has i with
    | false => rfl
    | true => rw [hseg i hi hin]
  · rw [hhas, Term.hereIndex, h3, h1]
    simp

/-- Without a term that the index leads on, none arrives. -/
theorem elementHere_none (hc : CtxOk ctx) {index : Nat} (hz : elementTerms ctx d A R index = 0) :
    elementHere ctx d A R index = 0 := by
  refine Mask.eq_zero_iff.mpr fun i => ?_
  have := Mask.eq_zero_iff.mp hz i
  rw [elementTerms_has hc] at this
  rw [elementHere_has hc]
  by_cases hi : i < ctx.n
  · rw [decide_eq_true hi, Bool.true_and, Term.atIndex, Bool.or_eq_false_iff] at this
    rw [decide_eq_true hi, Bool.true_and, Term.hereIndex, this.1, this.2]
    rfl
  · simp [hi]

theorem elementHere_followed (hc : CtxOk ctx) (h : Alive ctx followed d A R C) {index i : Nat}
    (hi : i < ctx.n) (hh : (elementHere ctx d A R index).has i = true) : followed i := by
  rw [elementHere_has hc, decide_eq_true hi, Bool.true_and] at hh
  rcases h.cases hi with ⟨hf, -, -⟩ | ⟨h1, -, h3⟩
  · exact hf
  · rw [Term.hereIndex, h3, h1] at hh
    simp at hh

/-- The walk over one element. -/
def walkElement (ctx : Ctx) (d : Nat) (A R C : Mask) (index : Nat) (v : Value) (w : Walk) : Option Walk :=
  let step := indexDescent ctx d A R C index
  (walkValue ctx (d + 1) step.below step.recursive (captureDescendants ctx step.captures d) v
    (w.meet ctx step.here v)).map
    fun w2 => w2.note ctx (captureValues ctx step.captures d) w.out.length

theorem walkElements_cons (index : Nat) (v : Value) (rest : Json.Elements) (w : Walk) :
    walkElements ctx d A R C index (.cons v rest) w = (walkElement ctx d A R C index v w).bind fun w' =>
      walkElements ctx d A R C (index + 1) rest (w'.comma ctx rest.isNil) := by
  rw [walkElements, walkElement]
  cases walkValue ctx (d + 1) (indexDescent ctx d A R C index).below
      (indexDescent ctx d A R C index).recursive
      (captureDescendants ctx (indexDescent ctx d A R C index).captures d) v
      (w.meet ctx (indexDescent ctx d A R C index).here v) <;> rfl

/-- Inside the array at depth `d`, in front of an element. -/
structure Within (total : Nat) (ctx : Ctx) (followed : Nat → Prop) (d : Nat) (A R C : Mask) (w : Walk)
    (s : State) (f : Flat) : Prop where
  good : Good total ctx followed (d + 1) w s f
  alive : Alive ctx followed d A R C
  live : s.flatEqActive = true
  deeper : 0 < d

theorem Within.next {w w' : Walk} {s s' : State} {f f' : Flat}
    (h : Within total ctx followed d A R C w s f)
    (hr : Reached total ctx followed d (d + 1) w' s s' f') :
    Within total ctx followed d A R C w' s' f' :=
  ⟨hr.good, h.alive, hr.kept.live.trans h.live, h.deeper⟩

theorem ElementRead.reached {index : Nat} {w : Walk} {f : Flat} {s' : State} {e : Nat}
    (h : Good total ctx followed e w s f) (he : ElementRead ctx followed d index A R C s s') :
    Reached total ctx followed d e w s s' f where
  good := by
    refine ⟨?_, ?_, ?_, he.slots, ?_, ?_, ?_, ?_⟩
    · rw [he.state]
      exact h.rel
    · rw [he.state]
      exact h.depth
    · rw [he.state]
      exact ⟨h.idle.active, h.idle.key, h.idle.icontains, h.idle.dates, h.idle.number⟩
    · rw [he.state]
      exact h.hits
    · rw [he.state]
      exact h.cap
    · rw [he.state]
      exact h.out
    · rw [he.state]
      exact h.spans
  kept := by
    rw [he.state]
    exact ⟨rfl, rfl, fun _ hk => setAt_le hk, fun _ hk => setAt_le hk, fun _ hk => setAt_le hk⟩

theorem arrayElement_walks (hc : CtxOk ctx) (hok : ∀ i < ctx.n, followed i → (ctx.term i).LiteralsOk)
    {m index : Nat} {w : Walk} {f : Flat} (h : Within total ctx followed d A R C w s f)
    (hv : ∀ (A R C : Mask) (w : Walk) (s : State) (f : Flat),
      Ready total ctx followed (d + 1) A R C w s f →
      Walks total ctx followed (d + 1) A R C (fun _ => w) (value ctx (m + 1)) (valueP (m + 1)) s f)
    (carry : Option UInt8) :
    SimUpTo JsonFault (fun v => walkElement ctx d A R C index v w = none)
      (arrayElement ctx (value ctx (m + 1)) ⟨d, A, C, recTerms ctx d A R⟩ index carry) (valueP (m + 1)) s f
      fun _ s' v f' => ∃ w', walkElement ctx d A R C index v w = some w' ∧
        Reached total ctx followed d (d + 1) w' s s' f' := by
  obtain ⟨s1, e1, hread⟩ := enterElement_spec hc h.alive h.good.slots (Or.inl h.deeper) h.good.depth
    index carry
  have r1 := hread.reached h.good
  obtain ⟨step, hstep⟩ : ∃ step, step = indexDescent ctx d A R C index := ⟨_, rfl⟩
  have hbelow : elementTerms ctx d A R index = step.below := by rw [hstep]; rfl
  have hhere : elementHere ctx d A R index = step.here := by rw [hstep]; rfl
  have hcaps : elementCaptures ctx d C index = step.captures := by rw [hstep]; rfl
  rw [hcaps] at e1
  refine SimUpTo.bind_left e1 (SimUpTo.bind_left (a := s1) rfl ?_)
  -- the value is read with the terms of the element
  have hready : ∀ (r : State) (w1 : Walk), Good total ctx followed (d + 1) w1 r f → Kept (d + 1) s1 r →
      Ready total ctx followed (d + 1) step.below step.recursive
        (captureDescendants ctx step.captures d) w1 r f := by
    intro r w1 hg hk
    refine ⟨hg, ?_, fun _ => hk.live.trans (r1.kept.live.trans h.live), fun _ _ => ?_,
      fun h0 => absurd h0 (Nat.succ_ne_zero d)⟩
    · have := h.alive.index hc (Or.inl h.deeper) index
      rwa [hcaps, hbelow, show elementRec ctx d A R index = step.recursive by rw [hstep]; rfl] at this
    · rw [hk.path _ (Nat.le_refl _), hk.recursive _ (Nat.le_refl _), hk.captures _ (Nat.le_refl _),
        hread.state, hstep]
      exact ⟨setAt_self, setAt_self, setAt_self⟩
  -- behind it the captures are noted and the masks cleared
  have hrest : ∀ {x : ScanM Unit} {r : State}, Kept (d + 1) s1 r →
      Walks total ctx followed (d + 1) step.below step.recursive (captureDescendants ctx step.captures d)
        (Walk.meet ctx step.here · w) x (valueP (m + 1)) r f →
      SimUpTo JsonFault (fun v => walkElement ctx d A R C index v w = none) (x >>= fun _ => do
        recordCaptures ctx (captureValues ctx step.captures d)
          (captureOffset (captureValues ctx step.captures d) s1)
        modify fun s => setMasks s s.tape.depth 0 0 0) (valueP (m + 1)) r f
        fun _ s' v f' => ∃ w', walkElement ctx d A R C index v w = some w' ∧
          Reached total ctx followed d (d + 1) w' s s' f' := by
    intro x r hk hx
    refine SimUpTo.congr (s := r) (t := f) (SimUpTo.bind (q := pure) hx ?_ ?_) rfl ?_
    · intro v _ v' _ _ hF hq
      cases hq
      rw [walkElement, ← hstep, hF]
      rfl
    · rintro _ s2 v f2 _ ⟨w2, hw2, r2⟩
      obtain ⟨s3, e3, r3⟩ := r2.good.noted (d := d)
        (captureValues ctx step.captures d) (captureOffset (captureValues ctx step.captures d) s1)
      have hnote : w2.note ctx (captureValues ctx step.captures d)
          (captureOffset (captureValues ctx step.captures d) s1) =
          w2.note ctx (captureValues ctx step.captures d) w.out.length := by
        rw [captureOffset]
        split
        · next hz => rw [hz, Walk.note_none, Walk.note_none]
        · rw [outputOffset, ← List.length_append, ← Tape.out, r1.good.out]
      rw [hnote] at r3
      have r03 : Reached total ctx followed d (d + 1) _ s s3 f2 :=
        (r1.trans ⟨r2.good, (hk.trans r2.kept).less (Nat.le_succ d)⟩).trans r3
      refine .of_some rfl (.inl ⟨(), setMasks s3 (d + 1) 0 0 0, ?_, _, ?_, r03.trans r03.good.cleared⟩)
      · rw [bind_ok e3]
        show EStateM.Result.ok () (setMasks s3 s3.tape.depth 0 0 0) = _
        rw [r03.good.depth]
      · rw [walkElement, ← hstep, hw2]
        rfl
    · show valueP (m + 1) f = (valueP (m + 1) f).bind _
      cases valueP (m + 1) f <;> rfl
  by_cases he : elementTerms ctx d A R index ≠ 0
  · simp only [if_pos he]
    obtain ⟨s2, e2, r2, -⟩ := good_peek (d + 1) r1.good
    refine SimUpTo.bind_left e2 (hrest r2.kept ?_)
    have hsegs : ∀ i < ctx.n, (elementTerms ctx d A R index).has i = true →
        s2.m.termSegment i = (ctx.term i).hitSeg d ((ctx.term i).joins d (A.has i) (R.has i)) := by
      intro i hi hin
      rw [r2.still]
      exact (hread.segments i hi hin).1
    have hsegk : ∀ i < ctx.n, (elementTerms ctx d A R index).has i = true →
        s2.keyTermSegment i = (ctx.term i).hitSeg d ((ctx.term i).joins d (A.has i) (R.has i)) := by
      intro i hi hin
      rw [r2.still]
      exact (hread.segments i hi hin).2.trans (hread.segments i hi hin).1
    refine matchedScalarValue_walks hc.room r2.good (hhere ▸ elementTerms_arrived hc h.alive hsegs)
      (hhere ▸ elementTerms_arrived hc h.alive hsegk)
      (fun i hi hh => hok i hi (elementHere_followed hc h.alive hi (hhere ▸ hh))) fun found => ?_
    refine hv _ _ _ _ _ f (hready _ _ (r2.good.hit found) ?_)
    exact ⟨r2.kept.active, r2.kept.live, r2.kept.path, r2.kept.recursive, r2.kept.captures⟩
  · simp only [if_neg he]
    refine hrest (Kept.refl _ s1) (Walks.start (hv _ _ _ w s1 f (hready s1 w r1.good (Kept.refl _ s1))) ?_)
    intro v f' _
    rw [← hhere, elementHere_none hc (not_not.mp he), Walk.meet_none hc.room]

/-- What follows an element. -/
theorem elementsTail_walks {more : UInt8 → ScanM Unit} {r : P Json.Elements} {v : Value} {index : Nat}
    {w : Walk} {f : Flat} (h : Within total ctx followed d A R C w s f)
    (hmore : ∀ (c : UInt8) (w : Walk) (s : State) (f : Flat), Within total ctx followed d A R C w s f →
      SimUpTo JsonFault (fun es => walkElements ctx d A R C index es w = none) (more c) r s f
        fun _ s' es f' => es.isNil = false ∧ ∃ w', walkElements ctx d A R C index es w = some w' ∧
          Reached total ctx followed d d w' s s' f')
    (hnil : ∀ f' es f'', r f' = some (es, f'') → es.isNil = false) :
    SimUpTo JsonFault (fun es => ∃ rest, es = .cons v rest ∧
        walkElements ctx d A R C index rest (w.comma ctx rest.isNil) = none)
      (elementsTail ctx more) (elementEndP r v) s f
      fun _ s' es f' => ∃ rest, es = .cons v rest ∧ ∃ w',
        walkElements ctx d A R C index rest (w.comma ctx rest.isNil) = some w' ∧
          Reached total ctx followed d d w' s s' f' := by
  refine Sim.bind_upTo (good_moves d h.good (skipSpace_sim h.good.rel)) fun _ s1 _ f1 _ r1 => ?_
  refine Sim.bind_upTo (good_reads d r1.good (take_sim r1.good.rel)) fun c s2 c' f2 _ h2 => ?_
  obtain ⟨rfl, r2⟩ := h2
  have r12 := r1.trans r2
  by_cases hc : c = chRBracket
  · rw [if_pos hc, if_pos hc]
    obtain ⟨s3, e3, r3⟩ := good_copy d r2.good chRBracket
    obtain ⟨s4, e4, r4⟩ := good_leave d r3.good
    refine SimUpTo.bind_left e3 (.of_some rfl (.inl ⟨_, s4, e4, .nil, rfl, _, rfl, ?_⟩))
    exact ((r12.trans r3).trans r4).toReached
  rw [if_neg hc, if_neg hc]
  by_cases hc' : c ≠ chComma
  · rw [if_pos hc', if_pos hc']
    exact .of_none rfl ⟨_, s2, rfl, rfl⟩
  rw [if_neg hc', if_neg hc']
  obtain ⟨s3, e3, r3⟩ := good_copy d r2.good chComma
  refine SimUpTo.bind_left e3 ?_
  refine Sim.bind_upTo (good_moves d r3.good (skipSpace_sim r3.good.rel)) fun _ s4 _ f4 _ r4 => ?_
  have r14 := (r12.trans r3).trans r4
  have hcomma : ∀ rest : Json.Elements, rest.isNil = false →
      w.comma ctx rest.isNil = w.put ctx [chComma] := by
    intro rest hrest
    rw [Walk.comma, hrest]
    rfl
  refine SimUpTo.map_right (fun rest => .cons v rest) (SimUpTo.weaken
    (Q := fun _ s' rest f' => rest.isNil = false ∧ ∃ w',
      walkElements ctx d A R C index rest (w.comma ctx rest.isNil) = some w' ∧
        Reached total ctx followed d d w' s s' f')
    (G := fun rest => walkElements ctx d A R C index rest (w.comma ctx rest.isNil) = none)
    (hmore c _ s4 f4 (h.next r14.toReached)) ?_ ?_) ?_ ?_ ?_
  · intro rest f' hp hF
    rw [hcomma rest (hnil _ _ _ hp)]
    exact hF
  · rintro _ s' rest f' hp ⟨hrest, w', hw, hr⟩
    exact ⟨hrest, w', by rw [hcomma rest hrest]; exact hw, r14.toReached.trans hr⟩
  · show (r f4).bind _ = _
    cases r f4 <;> rfl
  · intro rest hF
    exact ⟨rest, rfl, hF⟩
  · rintro _ s' rest f' ⟨hrest, w', hw, hr⟩
    exact ⟨rest, rfl, w', hw, hr⟩

/-- **The element loop.** -/
theorem arrayElements_walks (hc : CtxOk ctx) (hok : ∀ i < ctx.n, followed i → (ctx.term i).LiteralsOk)
    {m : Nat} (hv : ∀ (A R C : Mask) (w : Walk) (s : State) (f : Flat),
      Ready total ctx followed (d + 1) A R C w s f →
      Walks total ctx followed (d + 1) A R C (fun _ => w) (value ctx (m + 1)) (valueP (m + 1)) s f) :
    ∀ (fuel index : Nat) (carry : Option UInt8) (w : Walk) (s : State) (f : Flat),
      Within total ctx followed d A R C w s f →
      SimUpTo JsonFault (fun es => walkElements ctx d A R C index es w = none)
        (arrayElements ctx (value ctx (m + 1)) ⟨d, A, C, recTerms ctx d A R⟩ fuel index carry)
        (elementsP (valueP (m + 1)) fuel) s f
        fun _ s' es f' => es.isNil = false ∧ ∃ w', walkElements ctx d A R C index es w = some w' ∧
          Reached total ctx followed d d w' s s' f' := by
  intro fuel
  induction fuel with
  | zero =>
      intro index carry w s f _
      exact .of_none rfl ⟨_, s, rfl, rfl⟩
  | succ fuel ih =>
      intro index carry w s f h
      refine SimUpTo.bind (arrayElement_walks hc hok h hv carry) ?_ ?_
      · intro v f' es f2 _ hF hes
        obtain ⟨rest, rfl⟩ := elementEndP_some hes
        rw [walkElements_cons, hF]
        rfl
      · rintro _ s1 v f1 _ ⟨w1, hw1, r1⟩
        refine SimUpTo.weaken (elementsTail_walks (h.next r1) (fun c => ih (index + 1) (some c))
          fun _ _ _ => elementsP_isNil) ?_ ?_
        · rintro es f' - ⟨rest, rfl, hF⟩
          rw [walkElements_cons, hw1]
          exact hF
        · rintro _ s2 es f2 - ⟨rest, rfl, w2, hw2, r2⟩
          refine ⟨rfl, w2, ?_, r1.trans r2⟩
          rw [walkElements_cons, hw1]
          exact hw2

/-- The terms below their `...` in an array. -/
theorem arrayRec_mask (hc : CtxOk ctx) (h : Alive ctx followed d A R C) :
    (matchRecursiveTerms ctx s A d).2 ||| R ||| ctx.leadingRecursiveTerms = recTerms ctx d A R := by
  refine Mask.ext fun i => ?_
  rw [recTerms_has hc, Mask.has_or, Mask.has_or, found_has hc h, leading_has hc]
  by_cases hi : i < ctx.n
  · rw [decide_eq_true hi, Term.joins]
    cases R.has i <;> simp
  · have hr : R.has i = false := by
      cases hr : R.has i with
      | false => rfl
      | true => exact absurd (h.bound i (Or.inr hr)) hi
    simp [hi, hr]

theorem array_walks (hc : CtxOk ctx) (hok : ∀ i < ctx.n, followed i → (ctx.term i).LiteralsOk)
    {n : Nat} {w : Walk} {f : Flat} (hhead : f.rest.head? = some chLBracket) (hle : d ≤ maxDepth)
    (h : Ready total ctx followed d A R C w s f)
    (hv : d < maxDepth → ∀ (A R C : Mask) (w : Walk) (s : State) (f : Flat),
      Ready total ctx followed (d + 1) A R C w s f →
      Walks total ctx followed (d + 1) A R C (fun _ => w) (value ctx n) (valueP n) s f) :
    Walks total ctx followed d A R C (fun _ => w) (array ctx (value ctx n) n) (arrayP (valueP n) n) s f := by
  have hcont : isContainer f.rest.head? = true := by rw [hhead]; rfl
  have hg := h.good
  refine SimUpTo.bind_left (a := s) rfl ?_
  rw [hg.depth]
  by_cases hmax : d < maxDepth
  · obtain ⟨hA, hR, hC⟩ := h.masks hcont hmax
    rw [if_neg (Nat.ne_of_lt hmax)]
    dsimp only
    rw [hA]
    obtain ⟨slots, e0, hslots⟩ := matchRecursiveTerms_state hc h.alive hg.slots
    have hmask := arrayRec_mask (s := s) hc h.alive
    obtain ⟨found, efound⟩ : ∃ found, found = (matchRecursiveTerms ctx s A d).2 := ⟨_, rfl⟩
    rw [← efound] at hmask
    simp only [e0, ← efound]
    rw [hC, hR, hmask]
    -- the masks of the elements are cleared
    obtain ⟨s1, es1⟩ : ∃ s1 : State, s1 = (if d + 1 < maxDepth then
        { s with
          recursiveTermSegment := slots
          pathActive := setAt s.pathActive (d + 1) 0
          capturePathActive := setAt s.capturePathActive (d + 1) 0 }
        else { s with recursiveTermSegment := slots }) := ⟨_, rfl⟩
    refine SimUpTo.bind_left (a := ⟨⟩) (r := s1) (by rw [es1]; rfl) ?_
    have hstill : ∀ {α : Type} (p : State → α), (∀ x y z, p { s with
        recursiveTermSegment := x, pathActive := y, capturePathActive := z } = p s) → p s1 = p s := by
      intro α p hp
      rw [es1]
      split
      · exact hp _ _ _
      · exact hp _ s.pathActive s.capturePathActive
    have r1 : Reached total ctx followed d d w s s1 f := by
      refine ⟨⟨?_, ?_, ?_, ?_, ?_, ?_, ?_, ?_⟩, ?_, ?_, fun k hk => ?_, fun k hk => ?_, fun k hk => ?_⟩
      · rw [hstill State.tape fun _ _ _ => rfl]
        exact hg.rel
      · rw [hstill State.tape fun _ _ _ => rfl]
        exact hg.depth
      · rw [es1]
        split
        · exact ⟨hg.idle.active, hg.idle.key, hg.idle.icontains, hg.idle.dates, hg.idle.number⟩
        · exact ⟨hg.idle.active, hg.idle.key, hg.idle.icontains, hg.idle.dates, hg.idle.number⟩
      · rw [es1]
        split
        · exact hslots.congr rfl rfl
        · exact hslots
      · rw [hstill State.hits fun _ _ _ => rfl]
        exact hg.hits
      · rw [hstill State.num fun _ _ _ => rfl]
        exact hg.cap
      · rw [hstill State.tape fun _ _ _ => rfl]
        exact hg.out
      · rw [hstill State.captureSpans fun _ _ _ => rfl]
        exact hg.spans
      · rw [hstill State.tape fun _ _ _ => rfl]
      · exact hstill State.flatEqActive fun _ _ _ => rfl
      · rw [es1]
        split
        · exact setAt_le hk
        · rfl
      · rw [hstill State.recursiveActive fun _ _ _ => rfl]
      · rw [es1]
        split
        · exact setAt_le hk
        · rfl
    obtain ⟨s2, e2, r2⟩ := good_enter d r1.good hmax
    refine SimUpTo.bind_left e2 ?_
    refine Sim.bind_upTo (good_moves d r2.good (takeExpected_sim r2.good.rel chLBracket))
      fun _ s3 _ f3 _ r3 => ?_
    obtain ⟨s4, e4, r4⟩ := good_copy d r3.good chLBracket
    refine SimUpTo.bind_left e4 ?_
    refine Sim.bind_upTo (good_moves d r4.good (skipSpace_sim r4.good.rel)) fun _ s5 _ f5 _ r5 => ?_
    obtain ⟨s6, e6, r6, hb⟩ := good_peek d r5.good
    refine SimUpTo.bind_left e6 (SimUpTo.bind_right
      (show peekP f5 = some (f5.rest.head?, f5) from rfl) ?_)
    have r16 := r1.trans ((((r2.trans r3).trans r4).trans r5).trans r6).toReached
    by_cases hc1 : f5.rest.head? = some chRBracket
    · rw [if_pos hc1, if_pos hc1]
      obtain ⟨rest, hr⟩ := head_eq_cons hc1
      obtain ⟨s7, e7, r7⟩ := good_close d r6.good (hb.trans hc1) hr
      refine SimUpTo.bind_right (takeP_cons hr) (.of_some rfl (.inl ⟨_, s7, e7, _, ?_,
        r16.trans r7.toReached⟩))
      rw [walkValue, if_pos (by simp [hmax, Json.Elements.isNil])]
      rfl
    · rw [if_neg hc1, if_neg hc1]
      refine SimUpTo.bind_left (a := s6) rfl ?_
      rw [r16.good.depth]
      by_cases hroom : d + 1 ≥ maxDepth
      · rw [if_pos hroom]
        refine .of_fails ⟨_, _, rfl, rfl⟩ ?_
        intro v f' hv
        obtain ⟨es, f'', hes, hv⟩ := bind_eq_some.mp hv
        cases hv
        rw [walkValue, if_neg]
        simp [elementsP_isNil hes, Nat.not_lt.mpr hroom]
      · rw [if_neg hroom]
        have hdeeper : 0 < d := by
          by_contra h0
          exact h.root (by omega) hhead
        have hin : Within total ctx followed d A R C (w.put ctx [chLBracket]) s6 f5 :=
          ⟨r16.good, h.alive, r16.kept.live.trans (h.live hcont), hdeeper⟩
        have hwalk : ∀ es, walkValue ctx d A R C (.arr es) w =
            walkElements ctx d A R C 0 es (w.put ctx [chLBracket]) := fun es => by
          rw [walkValue, if_pos]
          simp [hmax, Nat.lt_of_not_ge hroom]
        have helements : SimUpTo JsonFault
            (fun es => walkElements ctx d A R C 0 es (w.put ctx [chLBracket]) = none)
            (arrayElements ctx (value ctx n) ⟨d, A, C, recTerms ctx d A R⟩ n 0 f5.rest.head?)
            (elementsP (valueP n) n) s6 f5
            fun _ s' es f' => es.isNil = false ∧ ∃ w',
              walkElements ctx d A R C 0 es (w.put ctx [chLBracket]) = some w' ∧
                Reached total ctx followed d d w' s6 s' f' := by
          cases n with
          | zero => exact .of_none rfl ⟨_, s6, rfl, rfl⟩
          | succ m => exact arrayElements_walks hc hok (hv hmax) (m + 1) 0 _ _ s6 f5 hin
        refine SimUpTo.map_right Value.arr helements ?_ ?_ ?_
        · show (elementsP (valueP n) n f5).bind _ = _
          cases elementsP (valueP n) n f5 <;> rfl
        · intro es hF
          rw [hwalk]
          exact hF
        · rintro _ s' es f' ⟨-, w', hw, hr⟩
          exact ⟨w', by rw [hwalk]; exact hw, r16.trans hr⟩
  · have hdeep : d = maxDepth := by omega
    rw [if_pos hdeep]
    refine .of_fails ⟨_, _, rfl, rfl⟩ ?_
    intro v f' hv
    obtain ⟨es, rfl⟩ := arrayP_some hv
    rw [walkValue, if_neg]
    simp [hmax]

end Elements

/-- A scalar, read without terms. -/
theorem scanOf_walks (hc : CtxRoom ctx) {n d : Nat} {A R C : Mask} {w : Walk} {s : State} {f : Flat}
    (hg : Good total ctx followed d w s f) (c1 : f.rest.head? ≠ some chLBrace)
    (c2 : f.rest.head? ≠ some chLBracket) :
    Walks total ctx followed d A R C (fun _ => w) (scanOf ctx n f.rest.head?) (valueP (n + 1)) s f := by
  have hplain : ∀ {x : ScanM Unit}, Walks total ctx followed d A R C (Walk.hold ctx 0 · w) x
      (valueP (n + 1)) s f → Walks total ctx followed d A R C (fun _ => w) x (valueP (n + 1)) s f :=
    fun hx => hx.start fun v _ _ => (w.hold_none v).symm
  by_cases c3 : f.rest.head? = some chQuote
  · rw [c3]
    exact hplain (walks_string hg c3 (string_met hc hg.rel hg.idle))
  have hlit : ∀ l : Literal, f.rest.head? = l.text.head? →
      Walks total ctx followed d A R C (fun _ => w) (literal ctx l.text) (valueP (n + 1)) s f := by
    intro l hl
    refine hplain (walks_literal hg l hl ((literal_sim ctx l.text [] s f (.start hg.rel)).mono ?_))
    intro _ s' _ f' ht
    exact ht.met hc hg.idle (literal_ascii l) rfl
  by_cases c4 : f.rest.head? = some chT
  · rw [c4]
    exact hlit .tt c4
  by_cases c5 : f.rest.head? = some chF
  · rw [c5]
    exact hlit .ff c5
  by_cases c6 : f.rest.head? = some chN
  · rw [c6]
    exact hlit .nul c6
  have hn : ∀ c, f.rest.head? = some c → startsNumber c := by
    intro c hh
    rw [hh, ne_eq, Option.some.injEq] at c1 c2
    rw [hh, Option.some.injEq] at c3 c4 c5 c6
    exact ⟨c1, c2, c3, c4, c5, c6⟩
  have hnum : scanOf ctx n f.rest.head? = number ctx := by
    cases hh : f.rest.head? with
    | none => rfl
    | some c =>
        obtain ⟨c1, c2, c3, c4, c5, c6⟩ := hn c hh
        simp only [scanOf, if_neg c1, if_neg c2, if_neg c3, if_neg c4, if_neg c5, if_neg c6]
  rw [hnum]
  refine hplain (walks_number hg hn ?_)
  cases hp : numberP f with
  | none => exact .of_none hp ((number_sim hg.rel).fails hp)
  | some r =>
      obtain ⟨a, s', hx, ht⟩ := (number_sim hg.rel).ends hp
      exact .of_some hp hx (ht.met hc hg.idle (numberP_ascii hp) rfl)

/-- A scalar, read behind a look ahead. -/
theorem value_scalar_walks (hc : CtxRoom ctx) {n d : Nat} {A R C : Mask} {w : Walk} {s : State} {f : Flat}
    (h : Good total ctx followed d w s f) (c1 : f.rest.head? ≠ some chLBrace)
    (c2 : f.rest.head? ≠ some chLBracket) :
    Walks total ctx followed d A R C (fun _ => w) (value ctx (n + 1)) (valueP (n + 1)) s f := by
  obtain ⟨i, hx, h1⟩ := value_ok ctx h.rel n
  have r1 : Glided total ctx followed d d w s _ f := h.stepped h1 (step_input s.tape i)
  exact SimUpTo.congr ((scanOf_walks hc r1.good c1 c2).after r1.toReached) hx rfl

/-- **The scanner walks.** It reads what the parser reads, fails where the parser or the walk does,
and otherwise has found and put out what the walk has. -/
theorem value_walks (hc : CtxOk ctx) (hok : ∀ i < ctx.n, followed i → (ctx.term i).LiteralsOk) :
    ∀ (n d : Nat) (A R C : Mask) (w : Walk) (s : State) (f : Flat), d ≤ maxDepth →
      Ready total ctx followed d A R C w s f →
      Walks total ctx followed d A R C (fun _ => w) (value ctx n) (valueP n) s f := by
  intro n
  induction n with
  | zero =>
      intro d A R C w s f _ _
      exact .of_none rfl ⟨_, s, rfl, rfl⟩
  | succ n ih =>
      intro d A R C w s f hle h
      have hv : d < maxDepth → ∀ (A R C : Mask) (w : Walk) (s : State) (f : Flat),
          Ready total ctx followed (d + 1) A R C w s f →
          Walks total ctx followed (d + 1) A R C (fun _ => w) (value ctx n) (valueP n) s f :=
        fun hlt A R C w s f hr => ih (d + 1) A R C w s f hlt hr
      -- a look ahead decides
      obtain ⟨i, hx, h1⟩ := value_ok ctx h.good.rel n
      suffices hgoal : ∀ s : State, Ready total ctx followed d A R C w s f →
          Walks total ctx followed d A R C (fun _ => w) (scanOf ctx n f.rest.head?) (valueP (n + 1)) s f by
        have r1 : Glided total ctx followed d d w s _ f :=
          h.good.stepped h1 (step_input s.tape i)
        refine SimUpTo.congr ((hgoal { s with tape := { s.tape with input := i } }
          ⟨r1.good, h.alive, h.live, h.masks, h.root⟩).after r1.toReached) hx rfl
      intro s h
      have hg := h.good
      by_cases c1 : f.rest.head? = some chLBrace
      · refine SimUpTo.congr (object_walks hc hok c1 hle h hv) ?_ ?_
        · rw [c1]
          rfl
        · rw [valueP_eq, c1]
          rfl
      by_cases c2 : f.rest.head? = some chLBracket
      · refine SimUpTo.congr (array_walks hc hok c2 hle h hv) ?_ ?_
        · rw [c2]
          rfl
        · rw [valueP_eq, c2]
          rfl
      exact scanOf_walks hc.room hg c1 c2

end Lql.Scan
