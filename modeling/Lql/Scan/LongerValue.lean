import Lql.Scan.Longer
import Lql.Scan.ValueSpec

/-!
# Scanning with more behind

The scanner against itself over an input that goes on. Terms and captures are followed by what has been read, so that the
one place beside the tape where the input shows is a key that lies in the buffer.
-/

namespace Lql.Scan

open Lib Json

/-- The state over another input. -/
abbrev State.on (s : State) (j : Input) : State := { s with tape := s.tape.on j }

/-- `r` is `s`, or it is `s` over an input that goes on. -/
def State.Longer (s r : State) : Prop := r = s ∨ ∃ j, r = s.on j ∧ s.tape.input.Shares j

/-- There is something to come, and it ends with `w`. -/
def State.Live (w : Bytes) (s : State) : Prop := s.tape.Live w

instance : Std.Refl State.Longer := ⟨fun _ => .inl rfl⟩

/-- `y` does on a longer input what `x` does, as long as something is left. -/
abbrev ScansOn {α : Type} (w : Bytes) (x y : ScanM α) : Prop := Follows State.Longer (State.Live w) x y

variable {w : Bytes}

theorem State.Longer.tape {s r : State} (h : s.Longer r) : s.tape.Longer r.tape := by
  rcases h with rfl | ⟨j, rfl, hj⟩
  · exact .inl rfl
  · exact .inr ⟨j, rfl, hj⟩

/-- Only the inputs differ. -/
theorem State.Longer.exists_on {s r : State} (h : s.Longer r) : ∃ j, r = s.on j := by
  rcases h with rfl | ⟨j, rfl, -⟩
  · exact ⟨r.tape.input, rfl⟩
  · exact ⟨j, rfl⟩

/-- A step of the tape. -/
theorem scansOn_tape {α : Type} {x y : TapeM α} (h : GoesOn w x y) : ScansOn w (onTape x) (onTape y) := by
  intro s r hR a s' hx hl
  unfold onTape at hx
  cases ht : x s.tape with
  | error e t =>
    rw [ht] at hx
    cases hx
  | ok b t =>
    rw [ht] at hx
    cases hx
    obtain ⟨hlive, u, hu, hlonger⟩ := h s.tape r.tape hR.tape a t ht hl
    obtain ⟨j, rfl⟩ := hR.exists_on
    refine ⟨hlive, { s.on j with tape := u }, by rw [onTape, hu], ?_⟩
    rcases hlonger with rfl | ⟨k, rfl, hk⟩
    · exact .inl rfl
    · exact .inr ⟨k, rfl, hk⟩

/-- A step that neither looks at the input nor moves it. -/
structure Blind (f : State → State) : Prop where
  on : ∀ s j, f (s.on j) = (f s).on j
  input : ∀ s, (f s).tape.input = s.tape.input

theorem Blind.live {f : State → State} (h : Blind f) {s : State} (hl : (f s).Live w) : s.Live w := by
  rw [State.Live, Tape.Live, h.input] at hl
  exact hl

theorem Blind.longer {f : State → State} (h : Blind f) {s r : State} (hR : s.Longer r) : (f s).Longer (f r) := by
  rcases hR with rfl | ⟨j, rfl, hj⟩
  · exact .inl rfl
  · exact .inr ⟨j, h.on s j, by rw [h.input]; exact hj⟩

theorem Blind.comp {f g : State → State} (hg : Blind g) (hf : Blind f) : Blind fun s => g (f s) where
  on s j := by rw [hf.on, hg.on]
  input s := by rw [hg.input, hf.input]

theorem scansOn_modify {f : State → State} (h : Blind f) : ScansOn w (modify f) (modify f) :=
  Follows.modify (fun _ _ => h.longer) fun _ => h.live

theorem scansOn_pure {α : Type} (a : α) : ScansOn w (pure a) (pure a) := Follows.pure a

theorem scansOn_error {α : Type} (message : String) (y : ScanM α) : ScansOn w (jsonError message) y := Follows.throw _ y

/-- The state is read, its input apart. -/
theorem scansOn_get {α : Type} {k k' : State → ScanM α} (h : ∀ s, ScansOn w (k s) (k' s)) (hk : ∀ s j, k' (s.on j) = k' s) :
    ScansOn w (get >>= k) (get >>= k') := by
  refine Follows.get_bind fun s r hR => ?_
  have hr : k' r = k' s := by
    obtain ⟨j, rfl⟩ := hR.exists_on
    exact hk s j
  rw [hr]
  exact h s s r hR

variable (ctx : Ctx)

/-! ## Scalars -/

theorem scansOn_addHits (hits : Mask) : ScansOn w (addHits hits) (addHits hits) :=
  scansOn_modify ⟨fun _ _ => rfl, fun _ => rfl⟩

theorem scansOn_match (f : Match → Match) : ScansOn w (onMatch f) (onMatch f) :=
  scansOn_modify ⟨fun _ _ => rfl, fun _ => rfl⟩

theorem scansOn_onNumber (f : Num → Num) : ScansOn w (onNumber f) (onNumber f) :=
  scansOn_modify ⟨fun _ _ => rfl, fun _ => rfl⟩

theorem scansOn_copy (c : UInt8) : ScansOn w (onTape (copyByte ctx.capture c)) (onTape (copyByte ctx.capture c)) :=
  scansOn_tape (goesOn_copyByte _ c)

theorem scansOn_matchCopyByte (c : UInt8) : ScansOn w (matchCopyByte ctx c) (matchCopyByte ctx c) :=
  (scansOn_match _).bind fun _ => (scansOn_onNumber _).bind fun _ => scansOn_copy ctx c

theorem scansOn_literal : ∀ text : Bytes, ScansOn w (literal ctx text) (literal ctx text)
  | [] => scansOn_pure _
  | c :: rest => (scansOn_tape (goesOn_takeExpected c)).bind fun _ => (scansOn_matchCopyByte ctx c).bind fun _ =>
    scansOn_literal rest

theorem scansOn_number : ScansOn w (number ctx) (number ctx) :=
  Follows.get_bind fun s r hR => follows_numberWith (scansOn_tape goesOn_peek)
    (fun c => (scansOn_tape goesOn_advance).bind fun _ => scansOn_matchCopyByte ctx c)
    (Nat.succ_le_succ hR.tape.size_le) s r hR

theorem scansOn_stringEscape : ScansOn w (stringEscape ctx) (stringEscape ctx) := by
  refine (scansOn_copy ctx _).bind fun _ => (scansOn_tape goesOn_take).bind fun next => ?_
  refine .ite (fun _ => (scansOn_match _).bind fun _ => scansOn_copy ctx _) fun _ =>
    .ite (fun _ => scansOn_error _ _) fun _ => ?_
  refine (scansOn_copy ctx _).bind fun _ => (scansOn_tape goesOn_takeHex4).bind fun first => ?_
  refine (scansOn_tape (goesOn_write _ _)).bind fun _ => ?_
  refine .ite (fun _ => scansOn_error _ _) fun _ => .ite (fun _ => scansOn_match _) fun _ => ?_
  refine (scansOn_tape (goesOn_takeExpected _)).bind fun _ => (scansOn_copy ctx _).bind fun _ => ?_
  refine (scansOn_tape (goesOn_takeExpected _)).bind fun _ => (scansOn_copy ctx _).bind fun _ => ?_
  refine (scansOn_tape goesOn_takeHex4).bind fun second => (scansOn_tape (goesOn_write _ _)).bind fun _ => ?_
  exact .ite (fun _ => scansOn_error _ _) fun _ => scansOn_match _

theorem scansOn_stringContinuation : ∀ (k : Nat) (lo hi : UInt8),
    ScansOn w (stringContinuation ctx k lo hi) (stringContinuation ctx k lo hi)
  | 0, _, _ => scansOn_pure _
  | k + 1, _, _ =>
    (scansOn_tape goesOn_take).bind fun _ => .ite (fun _ => scansOn_error _ _) fun _ => (scansOn_copy ctx _).bind fun _ =>
      (scansOn_match _).bind fun _ => scansOn_stringContinuation k _ _

theorem scansOn_stringLoop : ∀ (fuel fuel' : Nat), fuel ≤ fuel' → ScansOn w (stringLoop ctx fuel) (stringLoop ctx fuel')
  | 0, _, _ => scansOn_error _ _
  | fuel + 1, 0, h => absurd h (Nat.not_succ_le_zero _)
  | fuel + 1, fuel' + 1, h => by
    have hagain := scansOn_stringLoop fuel fuel' (Nat.le_of_succ_le_succ h)
    refine (scansOn_tape goesOn_refill).bind fun _ => Follows.get_bind fun s r hR => ?_
    cases hb : s.tape.input.buffer with
    | nil => exact Follows.throw _ _ s r hR
    | cons value rest =>
      obtain ⟨rest', hr, hspan, hrun⟩ := hR.tape.buffer hb
      rw [hr]
      dsimp only
      rw [hspan, hrun]
      refine Follows.ite (fun _ => ?_) (fun _ => ?_) s r hR
      · exact (scansOn_tape (goesOn_skip _)).bind fun _ => (scansOn_tape (goesOn_write _ _)).bind fun _ =>
          (scansOn_match _).bind fun _ => hagain
      refine (scansOn_tape goesOn_advance).bind fun _ => ?_
      refine .ite (fun _ => scansOn_copy ctx _) fun _ => .ite (fun _ => scansOn_error _ _) fun _ =>
        .ite (fun _ => (scansOn_stringEscape ctx).bind fun _ => hagain) fun _ =>
        .ite (fun _ => (scansOn_match _).bind fun _ => (scansOn_copy ctx _).bind fun _ => hagain) fun _ => ?_
      cases leadInfo value with
      | none => exact scansOn_error _ _
      | some info =>
        exact (scansOn_copy ctx _).bind fun _ => (scansOn_match _).bind fun _ =>
          (scansOn_stringContinuation ctx _ _ _).bind fun _ => hagain

theorem scansOn_string : ScansOn w (string ctx) (string ctx) :=
  (scansOn_tape (goesOn_takeExpected _)).bind fun _ => (scansOn_copy ctx _).bind fun _ =>
    Follows.get_bind fun s r hR => scansOn_stringLoop ctx _ _ (Nat.succ_le_succ hR.tape.size_le) s r hR

/-! ## Scalars under a path -/

theorem scansOn_matchedString (eqTerms temporalTerms : Mask) :
    ScansOn w (matchedString ctx eqTerms temporalTerms) (matchedString ctx eqTerms temporalTerms) :=
  (scansOn_match _).bind fun _ => (scansOn_string ctx).bind fun _ =>
    scansOn_get (fun _ => (scansOn_addHits _).bind fun _ => scansOn_match _) fun _ _ => rfl

theorem scansOn_matchedLiteral (scalarTerms textualTerms : Mask) (text : Bytes) :
    ScansOn w (matchedLiteral ctx scalarTerms textualTerms text) (matchedLiteral ctx scalarTerms textualTerms text) :=
  (scansOn_match _).bind fun _ => (scansOn_literal ctx text).bind fun _ =>
    scansOn_get (fun _ => (scansOn_addHits _).bind fun _ => scansOn_match _) fun _ _ => rfl

section Value

variable {value value' : ScanM Unit} (hvalue : ScansOn w value value')
include hvalue

theorem scansOn_matchedNumber (textualTerms rangeTerms numberEqTerms : Mask) :
    ScansOn w (matchedNumber ctx value textualTerms rangeTerms numberEqTerms)
      (matchedNumber ctx value' textualTerms rangeTerms numberEqTerms) := by
  refine (scansOn_match _).bind fun _ => (scansOn_onNumber _).bind fun _ => hvalue.bind fun _ =>
    scansOn_get (fun s => (scansOn_addHits _).bind fun _ => ?_) fun _ _ => rfl
  cases numberRangeComplete ctx s.num with
  | error e => exact Follows.throw _ _
  | ok hits =>
    refine (scansOn_addHits hits).bind fun _ => ?_
    cases numberEqComplete ctx s.num numberEqTerms with
    | error e => exact Follows.throw _ _
    | ok hits => exact (scansOn_addHits hits).bind fun _ => (scansOn_onNumber _).bind fun _ => scansOn_match _

theorem scansOn_memberValue (matched : Mask) (first : Option UInt8) :
    ScansOn w (memberValue ctx value matched first) (memberValue ctx value' matched first) := by
  refine Follows.get_bind fun s r hR => ?_
  obtain ⟨j, rfl⟩ := hR.exists_on
  cases first with
  | none => exact hvalue s _ hR
  | some c =>
    refine Follows.ite (fun _ => scansOn_matchedString ctx _ _) (fun _ => ?_) s _ hR
    refine .ite (fun _ => scansOn_matchedLiteral ctx _ _ _) fun _ => .ite (fun _ => scansOn_matchedLiteral ctx _ _ _) fun _ => ?_
    exact .ite (fun _ => scansOn_matchedNumber ctx hvalue _ _ _) fun _ => hvalue

theorem scansOn_scalarValue (matched : Mask) (segments : Nat → Nat) (first : Option UInt8) :
    ScansOn w (scalarValue ctx value matched segments first) (scalarValue ctx value' matched segments first) := by
  refine .ite (fun _ => .ite (fun _ => scansOn_string ctx) fun _ => scansOn_matchedString ctx _ _) fun _ => ?_
  refine .ite (fun _ => .ite (fun _ => hvalue) fun _ => scansOn_matchedLiteral ctx _ _ _) fun _ => ?_
  refine .ite (fun _ => .ite (fun _ => hvalue) fun _ => scansOn_matchedLiteral ctx _ _ _) fun _ => ?_
  exact .ite (fun _ => .ite (fun _ => hvalue) fun _ => scansOn_matchedNumber ctx hvalue _ _ _) fun _ => hvalue

theorem scansOn_matchedScalarValue (matched : Mask) (first : Option UInt8) :
    ScansOn w (matchedScalarValue ctx value matched first) (matchedScalarValue ctx value' matched first) := by
  intro s r hR
  have hnoted : Blind fun s : State => { s with hits := s.hits ||| scalarPresent ctx matched first s } :=
    ⟨fun _ _ => rfl, fun _ => rfl⟩
  obtain ⟨j, rfl⟩ := hR.exists_on
  exact (scansOn_scalarValue ctx hvalue matched s.m.termSegment first _ _ (hnoted.longer hR)).congr
    (matchedScalarValue_eq ..) (matchedScalarValue_eq ..) hnoted.live

end Value

/-! ## Keys -/

/-- A step that finds terms: it neither looks at the input nor moves it. -/
structure Searches (F : State → State × Mask) : Prop where
  on : ∀ s j, F (s.on j) = ((F s).1.on j, (F s).2)
  input : ∀ s, (F s).1.tape.input = s.tape.input

theorem Searches.blind {F : State → State × Mask} (h : Searches F) : Blind fun s => (F s).1 :=
  ⟨fun s j => by rw [h.on], h.input⟩

theorem searches_matchRecursiveTerms (A : Mask) (d : Nat) : Searches fun s => matchRecursiveTerms ctx s A d where
  on s j := by
    unfold matchRecursiveTerms
    split <;> rfl
  input s := by rw [matchRecursiveTerms_tape]

theorem searches_matchTerminalRecursiveTerms (A : Mask) (d : Nat) :
    Searches fun s => matchTerminalRecursiveTerms ctx s A d where
  on s j := by
    unfold matchTerminalRecursiveTerms
    dsimp only
    split <;> rfl
  input s := by rw [matchTerminalRecursiveTerms_tape]

theorem searches_preludeRec (d : Nat) (A R : Mask) : Searches fun s => preludeRec ctx s d A R where
  on s j := by
    unfold preludeRec
    rw [(searches_matchRecursiveTerms ctx A d).on]
    split <;> rfl
  input s := by rw [preludeRec_tape]

theorem searches_preludeWild (d : Nat) (A : Mask) : Searches fun s => preludeWild ctx s d A where
  on s j := by
    unfold preludeWild matchObjectWildcards
    split
    · split <;> rfl
    · rfl
  input s := by rw [preludeWild_tape]

theorem searches_preludeAnchor (d : Nat) (active : Mask) : Searches fun s => preludeAnchor ctx s d active where
  on s j := by
    unfold preludeAnchor
    split <;> rfl
  input s := by rw [preludeAnchor_tape]

/-- A state reached from `s` with the input where it was. -/
theorem State.Longer.carry {s t : State} {j : Input} (h : s.Longer (s.on j)) (ht : t.tape.input = s.tape.input) :
    t.Longer (t.on j) := by
  rcases h with hs | ⟨k, hk, hshares⟩
  · have hj : j = t.tape.input := by
      rw [ht]
      exact congrArg (fun r : State => r.tape.input) hs
    subst hj
    exact .inl rfl
  · obtain rfl : j = k := congrArg (fun r : State => r.tape.input) hk
    exact .inr ⟨j, rfl, by rw [ht]; exact hshares⟩

theorem State.Longer.key {s : State} {j : Input} (h : s.Longer (s.on j)) :
    plainKey j.buffer = plainKey s.tape.input.buffer := by
  rcases h with hs | ⟨k, hk, hshares⟩
  · rw [show j = s.tape.input from congrArg (fun r : State => r.tape.input) hs]
  · rw [show j = k from congrArg (fun r : State => r.tape.input) hk]
    exact hshares.key

/-- A key that lies in the buffer is taken from either. -/
theorem tryPlainKeyMatch_on {s : State} {j : Input} (h : plainKey j.buffer = plainKey s.tape.input.buffer)
    (ordinary recursive : Mask) (d : Nat) :
    tryPlainKeyMatch ctx s ordinary recursive d = none ∧ tryPlainKeyMatch ctx (s.on j) ordinary recursive d = none ∨
      ∃ n t k, tryPlainKeyMatch ctx s ordinary recursive d = some (t, k) ∧ t.tape.input = s.tape.input.skip n ∧
        tryPlainKeyMatch ctx (s.on j) ordinary recursive d = some (t.on (j.skip n), k) := by
  unfold tryPlainKeyMatch
  rw [h]
  cases plainKey s.tape.input.buffer with
  | none => exact .inl ⟨rfl, rfl⟩
  | some key => exact .inr ⟨key.length + 2, _, _, rfl, rfl, rfl⟩

/-- A key that is read byte by byte. -/
theorem followsAt_keyAfter_none {s q : State} {j : Input} (h : s.Longer (s.on j)) (hq : q.tape.input = s.tape.input)
    (d : Nat) (recursiveTerms active wildcards : Mask) :
    FollowsAt State.Longer (State.Live w) (keyAfter ctx d recursiveTerms active (q, wildcards) none)
      (keyAfter ctx d recursiveTerms active (q.on j, wildcards) none) s (s.on j) := by
  have hstart : Blind fun q : State => matchStartKey ctx
      { q with m := captureStart ctx q.m (q.capturePathActive d) d } active recursiveTerms d :=
    ⟨fun _ _ => rfl, fun _ => rfl⟩
  refine FollowsAt.set_bind (fun hl => ?_) (fun _ => hstart.longer (h.carry hq)) ?_
  · have hlive := hstart.live hl
    rw [State.Live, Tape.Live, hq] at hlive
    exact hlive
  refine (scansOn_string ctx).bind fun _ => Follows.get_bind fun u v hR => ?_
  obtain ⟨k, rfl⟩ := hR.exists_on
  have hx : Searches fun s => matchRecursiveObjectWildcards ctx s recursiveTerms d := ⟨fun _ _ => rfl, fun _ => rfl⟩
  have hy := searches_matchTerminalRecursiveTerms ctx recursiveTerms d
  have ha := searches_preludeAnchor ctx d active
  have hall := ha.blind.comp (hy.blind.comp hx.blind)
  dsimp only
  rw [hx.on u k, hy.on _ k, ha.on _ k]
  refine FollowsAt.set_bind hall.live (fun _ => ?_) (scansOn_pure _)
  exact hR.carry (hall.input u)

/-- A key that lies in the buffer. -/
theorem followsAt_keyAfter_some {s t : State} {j : Input} {n : Nat} {k : KeyMatch} (h : s.Longer (s.on j))
    (ht : t.tape.input = s.tape.input.skip n) (d : Nat) (recursiveTerms active : Mask) (q q' : State) (wildcards : Mask) :
    FollowsAt State.Longer (State.Live w) (keyAfter ctx d recursiveTerms active (q, wildcards) (some (t, k)))
      (keyAfter ctx d recursiveTerms active (q', wildcards) (some (t.on (j.skip n), k))) s (s.on j) := by
  have ha := searches_preludeAnchor ctx d active
  have hlive : (preludeAnchor ctx t d active).1.Live w → t.Live w := ha.blind.live
  dsimp only [keyAfter]
  rw [ha.on t (j.skip n)]
  refine FollowsAt.set_bind (fun hl => ?_) (fun hl => ?_) (scansOn_pure _)
  · obtain ⟨hne, hend⟩ := hlive hl
    rw [ht] at hne hend
    rw [State.Live, Tape.Live, Input.rest_skip s.tape.input n]
    exact ⟨fun hrest => hne (List.append_eq_nil_iff.mp hrest).2, hend.trans (List.suffix_append _ _)⟩
  · refine State.Longer.carry (s := t) ?_ (ha.input t)
    rcases h with hs | ⟨k, hk, hshares⟩
    · refine .inl ?_
      rw [show j = s.tape.input from congrArg (fun r : State => r.tape.input) hs, ← ht]
    · obtain rfl : j = k := congrArg (fun r : State => r.tape.input) hk
      refine .inr ⟨_, rfl, ?_⟩
      rw [ht]
      refine hshares.skip ?_
      rw [← ht]
      exact (hlive hl).1

theorem scansOn_objectKey (d : Nat) : ScansOn w (objectKey ctx d) (objectKey ctx d) := by
  intro s r hR
  obtain ⟨j, rfl⟩ := hR.exists_on
  refine FollowsAt.congr (u := s) (v := s.on j) ?_ (objectKey_eq ctx d s) (objectKey_eq ctx d (s.on j)) id
  dsimp only
  generalize (if s.flatEqActive && !stopHitReady ctx s.hits then s.pathActive d else 0) = A
  generalize (if s.flatEqActive && !stopHitReady ctx s.hits then s.recursiveActive d else 0) = R
  have hr := searches_preludeRec ctx d A R
  have hw := searches_preludeWild ctx d A
  have hinput := (hw.blind.comp hr.blind).input s
  rw [hr.on s j, hw.on _ j]
  dsimp only at hinput ⊢
  generalize hw1 : preludeWild ctx (preludeRec ctx s d A R).1 d A = w at hinput ⊢
  generalize hactive : preludeActive ctx (preludeRec ctx s d A R).1 d A = active
  have hactive' : preludeActive ctx ((preludeRec ctx s d A R).1.on j) d A = active := hactive
  rw [hactive']
  by_cases hc : (!ctx.capture && decide (w.1.capturePathActive d = 0)) = true
  · rw [if_pos hc, if_pos hc]
    have hkey : plainKey j.buffer = plainKey w.1.tape.input.buffer := by rw [hinput]; exact hR.key
    rcases tryPlainKeyMatch_on ctx hkey active (preludeRec ctx s d A R).2 d with ⟨h1, h2⟩ | ⟨n, t, k, h1, ht, h2⟩
    · rw [h1, h2]
      exact followsAt_keyAfter_none ctx hR hinput d _ _ w.2
    · rw [h1, h2]
      exact followsAt_keyAfter_some ctx hR (by rw [ht, hinput]) d _ _ _ _ w.2
  · rw [if_neg hc, if_neg hc]
    exact followsAt_keyAfter_none ctx hR hinput d _ _ w.2

/-! ## Members -/

theorem goesOn_skipMember {skipFuel skipFuel' : Nat} (h : skipFuel ≤ skipFuel') :
    GoesOn w (skipMember skipFuel) (skipMember skipFuel') :=
  goesOn_skipStringFast.bind fun _ => goesOn_skipSpace.bind fun _ => (goesOn_takeExpected _).bind fun _ =>
    goesOn_skipSpace.bind fun _ => goesOn_skipValueFast _ _ h

theorem blind_setKeySegment (terms : Mask) : Blind fun s => setKeySegment ctx s terms := ⟨fun _ _ => rfl, fun _ => rfl⟩

theorem blind_setMasks (depth : Nat) (path recursive capture : Mask) : Blind fun s => setMasks s depth path recursive capture :=
  ⟨fun _ _ => rfl, fun _ => rfl⟩

theorem blind_reconcile (k : KeyMatch) (recursiveTerms : Mask) (d : Nat) : Blind fun s => reconcile ctx s k recursiveTerms d where
  on s j := by
    unfold reconcile
    dsimp only
    split <;> rfl
  input s := by rw [reconcile_tape]

theorem blind_carryRecursiveSegments (parentDepth childDepth : Nat) (recursiveTerms matched : Mask) :
    Blind fun s => carryRecursiveSegments ctx s parentDepth childDepth recursiveTerms matched where
  on s j := by
    unfold carryRecursiveSegments
    split <;> rfl
  input s := by rw [carryRecursiveSegments_tape]

/-- A step that is made or left out. -/
theorem scansOn_either {α : Type} {c : Prop} [Decidable c] {x : ScanM PUnit} {k k' : ScanM α} (hx : ScansOn w x x)
    (hk : ScansOn w k k') : ScansOn w (if c then x >>= fun _ => k else k) (if c then x >>= fun _ => k' else k') :=
  .ite (fun _ => hx.bind fun _ => hk) fun _ => hk

theorem scansOn_enterMember (d : Nat) (member : Member) (first : Option UInt8) :
    ScansOn w (enterMember ctx d member first) (enterMember ctx d member first) := by
  refine scansOn_either (scansOn_modify (blind_reconcile ctx _ _ _)) (scansOn_get (fun s => ?_) fun _ _ => rfl)
  refine .ite (fun _ => .ite (fun _ => ?_) fun _ => ?_) fun _ => scansOn_pure _
  · refine (scansOn_modify (blind_setMasks _ _ _ _)).bind fun _ => ?_
    exact scansOn_either (scansOn_modify (blind_carryRecursiveSegments ctx _ _ _ _)) (scansOn_pure _)
  · exact (scansOn_modify (blind_setMasks _ _ _ _)).bind fun _ => scansOn_pure _

theorem scansOn_recordCaptures (values : Mask) (start : Nat) :
    ScansOn w (recordCaptures ctx values start) (recordCaptures ctx values start) :=
  scansOn_modify ⟨fun _ _ => rfl, fun _ => rfl⟩

section Containers

variable {ctx : Ctx} {value value' : ScanM Unit} (hvalue : ScansOn w value value')
include hvalue

theorem scansOn_objectMember {skipFuel skipFuel' : Nat} (h : skipFuel ≤ skipFuel') (d : Nat) :
    ScansOn w (objectMember ctx value skipFuel d) (objectMember ctx value' skipFuel' d) := by
  refine (scansOn_objectKey ctx d).bind fun member => ?_
  refine scansOn_either (scansOn_modify (blind_setKeySegment ctx _)) (Follows.get_bind fun s r hR => ?_)
  obtain ⟨j, rfl⟩ := hR.exists_on
  have hexists : matchExists ctx (s.on j) member.key.matched = matchExists ctx s member.key.matched := rfl
  have hpresent : matchValuelessPresent ctx (s.on j) member.key.matched = matchValuelessPresent ctx s member.key.matched := rfl
  rw [hexists, hpresent]
  refine Follows.bind (scansOn_addHits _) (fun _ => ?_) s _ hR
  refine (scansOn_match _).bind fun _ => (scansOn_tape goesOn_skipSpace).bind fun _ => ?_
  refine (scansOn_tape (goesOn_takeExpected _)).bind fun _ => (scansOn_copy ctx _).bind fun _ => ?_
  refine (scansOn_tape goesOn_skipSpace).bind fun _ => (scansOn_tape goesOn_peek).bind fun first => ?_
  refine (scansOn_enterMember ctx d member first).bind fun below => ?_
  refine scansOn_either (scansOn_addHits _) (scansOn_get (fun s => ?_) fun _ _ => rfl)
  have hend : ScansOn w (recordCaptures ctx below.2.1 (captureOffset below.2.1 s) >>= fun _ =>
      if d + 1 < maxDepth then modify fun s => setMasks s (d + 1) 0 0 0 else pure ())
      (recordCaptures ctx below.2.1 (captureOffset below.2.1 s) >>= fun _ =>
      if d + 1 < maxDepth then modify fun s => setMasks s (d + 1) 0 0 0 else pure ()) :=
    (scansOn_recordCaptures ctx _ _).bind fun _ =>
      .ite (fun _ => scansOn_modify (blind_setMasks _ _ _ _)) fun _ => scansOn_pure _
  refine .ite (fun _ => (scansOn_memberValue ctx hvalue _ _).bind fun _ => hend) fun _ => ?_
  exact .ite (fun _ => (scansOn_tape (goesOn_skipValueFast _ _ h)).bind fun _ => hend) fun _ => hvalue.bind fun _ => hend

theorem scansOn_objectMembers {skipFuel skipFuel' : Nat} (hskip : skipFuel ≤ skipFuel') (d : Nat) :
    ∀ (fuel fuel' : Nat) (first : Option UInt8), fuel ≤ fuel' →
      ScansOn w (objectMembers ctx value skipFuel d fuel first) (objectMembers ctx value' skipFuel' d fuel' first)
  | 0, _, _, _ => scansOn_error _ _
  | fuel + 1, 0, _, h => absurd h (Nat.not_succ_le_zero _)
  | fuel + 1, fuel' + 1, first, h => by
    have hagain := fun next => scansOn_objectMembers hskip d fuel fuel' next (Nat.le_of_succ_le_succ h)
    refine .ite (fun _ => follows_throw_bind _ _ _) fun _ => Follows.get_bind fun s r hR => ?_
    obtain ⟨j, rfl⟩ := hR.exists_on
    refine Follows.ite (fun _ => ?_) (fun _ => ?_) s _ hR
    · refine (scansOn_tape (goesOn_skipMember hskip)).bind fun _ => (scansOn_tape goesOn_skipSpace).bind fun _ => ?_
      refine (scansOn_tape goesOn_take).bind fun c => .ite (fun _ => scansOn_tape goesOn_leave) fun _ => ?_
      refine .ite (fun _ => scansOn_error _ _) fun _ => (scansOn_tape goesOn_skipSpace).bind fun _ => ?_
      exact (scansOn_tape goesOn_peek).bind hagain
    · refine (scansOn_objectMember hvalue hskip d).bind fun _ => (scansOn_tape goesOn_skipSpace).bind fun _ => ?_
      refine (scansOn_tape goesOn_take).bind fun c => .ite (fun _ => ?_) fun _ => .ite (fun _ => scansOn_error _ _) fun _ => ?_
      · exact (scansOn_copy ctx _).bind fun _ => scansOn_tape goesOn_leave
      · refine (scansOn_copy ctx _).bind fun _ => (scansOn_tape goesOn_skipSpace).bind fun _ => ?_
        exact (scansOn_tape goesOn_peek).bind hagain

theorem scansOn_object {fuel fuel' : Nat} (h : fuel ≤ fuel') :
    ScansOn w (object ctx value fuel) (object ctx value' fuel') := by
  refine Follows.get_bind fun s r hR => ?_
  obtain ⟨j, rfl⟩ := hR.exists_on
  refine Follows.bind (scansOn_tape goesOn_enter) (fun _ => ?_) s _ hR
  refine (scansOn_tape (goesOn_takeExpected _)).bind fun _ => (scansOn_copy ctx _).bind fun _ => ?_
  refine (scansOn_tape goesOn_skipSpace).bind fun _ => (scansOn_tape goesOn_peek).bind fun first => ?_
  refine .ite (fun _ => ?_) fun _ => scansOn_objectMembers hvalue h _ fuel fuel' first h
  exact (scansOn_tape goesOn_advance).bind fun _ => (scansOn_copy ctx _).bind fun _ => scansOn_tape goesOn_leave

end Containers

/-! ## Elements -/

theorem blind_elementMasks (a : ArrayScan) (carry : Option UInt8) (element : Mask) :
    Blind fun s => elementMasks ctx a carry element s where
  on s j := by
    unfold elementMasks
    dsimp only
    split
    · unfold carryRecursiveSegments
      split <;> rfl
    · rfl
  input s := by rw [elementMasks_tape]

/-- What an element leaves once its terms are known: those that it matched, and how. -/
theorem blind_elementState (a : ArrayScan) (index : Nat) (carry : Option UInt8) (element direct : Mask)
    (segments : Nat → Nat) : Blind fun q : State =>
      let s1 := setKeySegment ctx (setTermSegment ctx q element fun i =>
        if direct.has i then segments i else q.m.termSegment i) element
      let s2 := elementMasks ctx a carry element s1
      { s2 with
        capturePathActive := setAt s2.capturePathActive s1.tape.depth
          (captureDescendants ctx (elementCaptures ctx a.segment a.captureActive index) a.segment) } where
  on q j := by
    have h := (blind_elementMasks ctx a carry element).on (setKeySegment ctx (setTermSegment ctx q element fun i =>
      if direct.has i then segments i else q.m.termSegment i) element) j
    dsimp only at h ⊢
    exact congrArg (fun s2 : State => { s2 with
      capturePathActive := setAt s2.capturePathActive q.tape.depth
        (captureDescendants ctx (elementCaptures ctx a.segment a.captureActive index) a.segment) }) h
  input q := (blind_elementMasks ctx a carry element).input _

theorem scansOn_enterElement (a : ArrayScan) (index : Nat) (carry : Option UInt8) :
    ScansOn w (enterElement ctx a index carry) (enterElement ctx a index carry) := by
  intro s r hR
  obtain ⟨j, rfl⟩ := hR.exists_on
  have hx : Searches fun s => matchArrayIndex ctx s a.active a.segment index := ⟨fun _ _ => rfl, fun _ => rfl⟩
  have hy : Searches fun s => matchRecursiveArrayTerms ctx s a.recursiveTerms a.segment index := ⟨fun _ _ => rfl, fun _ => rfl⟩
  have hz := searches_matchTerminalRecursiveTerms ctx a.recursiveTerms a.segment
  have hq := searches_preludeAnchor ctx a.segment a.active
  have hlast := blind_elementState ctx a index carry
  obtain ⟨result, t, hs, hinput, hon⟩ : ∃ result t, enterElement ctx a index carry s = .ok result t ∧
      t.tape.input = s.tape.input ∧ enterElement ctx a index carry (s.on j) = .ok result (t.on j) := by
    refine ⟨_, _, enterElement_eq ctx a index carry s, ?_, ?_⟩
    · exact ((hlast _ _ _).input _).trans ((hq.blind.comp (hz.blind.comp (hy.blind.comp hx.blind))).input s)
    · rw [enterElement_eq]
      dsimp only
      rw [hx.on s j, hy.on _ j, hz.on _ j, hq.on _ j]
      exact congrArg (EStateM.Result.ok _) ((hlast _ _ _).on _ j)
  intro b s' h hl
  cases hs.symm.trans h
  refine ⟨?_, _, hon, hR.carry hinput⟩
  rw [State.Live, Tape.Live, ← hinput]
  exact hl

section Containers

variable {ctx : Ctx} {value value' : ScanM Unit} (hvalue : ScansOn w value value')
include hvalue

theorem scansOn_arrayElement (a : ArrayScan) (index : Nat) (carry : Option UInt8) :
    ScansOn w (arrayElement ctx value a index carry) (arrayElement ctx value' a index carry) := by
  refine (scansOn_enterElement ctx a index carry).bind fun found => scansOn_get (fun s => ?_) fun _ _ => rfl
  have hcleared : Blind fun s : State => setMasks s s.tape.depth 0 0 0 := ⟨fun _ _ => rfl, fun _ => rfl⟩
  have hend : ScansOn w (recordCaptures ctx found.2 (captureOffset found.2 s) >>= fun _ =>
      modify fun s => setMasks s s.tape.depth 0 0 0) (recordCaptures ctx found.2 (captureOffset found.2 s) >>= fun _ =>
      modify fun s => setMasks s s.tape.depth 0 0 0) :=
    (scansOn_recordCaptures ctx _ _).bind fun _ => scansOn_modify hcleared
  refine .ite (fun _ => ?_) fun _ => hvalue.bind fun _ => hend
  exact (scansOn_tape goesOn_peek).bind fun first => (scansOn_matchedScalarValue ctx hvalue _ first).bind fun _ => hend

theorem scansOn_arrayElements (a : ArrayScan) : ∀ (fuel fuel' index : Nat) (carry : Option UInt8), fuel ≤ fuel' →
    ScansOn w (arrayElements ctx value a fuel index carry) (arrayElements ctx value' a fuel' index carry)
  | 0, _, _, _, _ => scansOn_error _ _
  | fuel + 1, 0, _, _, h => absurd h (Nat.not_succ_le_zero _)
  | fuel + 1, fuel' + 1, index, carry, h => by
    refine (scansOn_arrayElement hvalue a index carry).bind fun _ => (scansOn_tape goesOn_skipSpace).bind fun _ => ?_
    refine (scansOn_tape goesOn_take).bind fun c => .ite (fun _ => ?_) fun _ => .ite (fun _ => scansOn_error _ _) fun _ => ?_
    · exact (scansOn_copy ctx _).bind fun _ => scansOn_tape goesOn_leave
    · refine (scansOn_copy ctx _).bind fun _ => (scansOn_tape goesOn_skipSpace).bind fun _ => ?_
      exact scansOn_arrayElements a fuel fuel' (index + 1) _ (Nat.le_of_succ_le_succ h)

theorem scansOn_array {fuel fuel' : Nat} (h : fuel ≤ fuel') : ScansOn w (array ctx value fuel) (array ctx value' fuel') := by
  refine Follows.get_bind fun s r hR => ?_
  obtain ⟨j, rfl⟩ := hR.exists_on
  have hm := searches_matchRecursiveTerms ctx (s.pathActive s.tape.depth) s.tape.depth
  have hbelow (d : Nat) : Blind fun s : State => if d + 1 < maxDepth then
      { s with
        pathActive := setAt s.pathActive (d + 1) 0
        capturePathActive := setAt s.capturePathActive (d + 1) 0 }
    else s := by
    refine ⟨fun s j => ?_, fun s => ?_⟩
    · split <;> rfl
    · split <;> rfl
  have hset := (hbelow s.tape.depth).comp hm.blind
  refine FollowsAt.ite (fun _ => follows_throw_bind _ _ _ s _ hR) fun _ => ?_
  dsimp only
  rw [hm.on s j]
  dsimp only at hset ⊢
  refine FollowsAt.set_bind hset.live (fun _ => ?_) ?_
  · rw [(hbelow s.tape.depth).on _ j]
    exact hR.carry (hset.input s)
  refine (scansOn_tape goesOn_enter).bind fun _ => (scansOn_tape (goesOn_takeExpected _)).bind fun _ => ?_
  refine (scansOn_copy ctx _).bind fun _ => (scansOn_tape goesOn_skipSpace).bind fun _ => ?_
  refine (scansOn_tape goesOn_peek).bind fun first => .ite (fun _ => ?_) fun _ => ?_
  · exact (scansOn_tape goesOn_advance).bind fun _ => (scansOn_copy ctx _).bind fun _ => scansOn_tape goesOn_leave
  · refine scansOn_get (fun s => ?_) fun _ _ => rfl
    exact .ite (fun _ => scansOn_error _ _) fun _ => scansOn_arrayElements hvalue _ fuel fuel' 0 first h

end Containers

theorem scansOn_value : ∀ (fuel fuel' : Nat), fuel ≤ fuel' → ScansOn w (value ctx fuel) (value ctx fuel')
  | 0, _, _ => scansOn_error _ _
  | fuel + 1, 0, h => absurd h (Nat.not_succ_le_zero _)
  | fuel + 1, fuel' + 1, h => by
    have hle := Nat.le_of_succ_le_succ h
    have hvalue := scansOn_value fuel fuel' hle
    refine (scansOn_tape goesOn_peek).bind fun first => ?_
    cases first with
    | none => exact scansOn_number ctx
    | some c =>
      exact .ite (fun _ => scansOn_object hvalue hle) fun _ => .ite (fun _ => scansOn_array hvalue hle) fun _ =>
        .ite (fun _ => scansOn_string ctx) fun _ => .ite (fun _ => scansOn_literal ctx _) fun _ =>
        .ite (fun _ => scansOn_literal ctx _) fun _ => .ite (fun _ => scansOn_literal ctx _) fun _ => scansOn_number ctx

end Lql.Scan
