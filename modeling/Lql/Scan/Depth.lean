import Lql.Scan.Independence

/-!
# Skipping and scanning

The scanner reads a value in two ways: it scans it, or, where nothing looks for anything in it, it
skips it. Both follow the same grammar, but they count depth differently: an array with elements that
is scanned needs one level more than one that is skipped. So they agree exactly on what leaves that
level free, and a selector that makes the scanner look into a document can only matter there.
-/

namespace Lql.Scan

open Lib Json

/-- From every state at depth `d` with these bytes to read, skipping a value and scanning it without
terms both fail, or both end at the same place and depth. -/
def SkipAgrees (d : Nat) (bytes : Bytes) : Prop :=
  ∀ (total : Nat) (ctx : Ctx) (s : State) (compact : Bool), ctx.terms = [] →
    Rel total s.tape { rest := bytes, compact } → s.tape.depth = d →
    (∃ t' s', skipValueFast (bytes.length + 1) s.tape = .ok () t' ∧
        value ctx (bytes.length + 1) s = .ok () s' ∧
        t'.input.consumed = s'.tape.input.consumed ∧ t'.depth = s'.tape.depth) ∨
      (∃ e t' e' s', skipValueFast (bytes.length + 1) s.tape = .error e t' ∧
        value ctx (bytes.length + 1) s = .error e' s')

/-- The value at the front, if it fits at depth `d`, has no array with elements on the last level. -/
def RoomAt (d : Nat) (bytes : Bytes) : Prop :=
  ∀ compact v f', valueP (bytes.length + 1) { rest := bytes, compact } = some (v, f') →
    v.fits maxDepth d = true → v.scans d = true

/-- A scan at depth `d` in front of these bytes, which come one by one. -/
def stateAt (d : Nat) (bytes : Bytes) : State :=
  { State.start (bytes.map fun c => [c]) with
    tape := { (State.start (bytes.map fun c => [c])).tape with depth := d } }

theorem readerOk_single (bytes : Bytes) : ReaderOk (bytes.map fun c => [c]) := by
  intro c hc
  obtain ⟨b, -, rfl⟩ := List.mem_map.mp hc
  exact ⟨List.cons_ne_nil _ _, Nat.le_of_ble_eq_true rfl⟩

theorem flatten_single (bytes : Bytes) : (bytes.map fun c => [c]).flatten = bytes := by
  induction bytes with
  | nil => rfl
  | cons c bytes ih => rw [List.map_cons, List.flatten_cons, ih]; rfl

theorem stateAt_rel (d : Nat) (bytes : Bytes) (compact : Bool) :
    Rel bytes.length (stateAt d bytes).tape { rest := bytes, compact } := by
  have h := Between.start { terms := [], capture := true, stopMatchingOnHit := false, stopHitMask := 0
                            captureKeys := [] } (readerOk_single bytes)
  rw [flatten_single] at h
  have := h.rel compact
  exact ⟨this.ok, this.emit, this.rest, this.compact⟩

/-- What skipping does, by what the parser reads. -/
theorem skipValueFast_outcome (fuel : Nat) {total d : Nat} {t : Tape} {f : Flat} (h : Rel total t f) (hdepth : t.depth = d)
    (hd : d ≤ maxDepth) :
    match valueP fuel f with
    | none => ∃ e t', skipValueFast fuel t = .error e t'
    | some (v, f') =>
      if v.fits maxDepth d = true then ∃ t', skipValueFast fuel t = .ok () t' ∧ Rel total t' f' ∧ Step t t' []
      else ∃ e t', skipValueFast fuel t = .error e t' := by
  have hsim := skipValueFast_sim fuel d t f h hdepth hd
  have hp : (valueP fuel >>= fun v => liftO (checkFits d v)) f =
      (valueP fuel f).bind fun r => (checkFits d r.1).map fun u => (u, r.2) := rfl
  cases hv : valueP fuel f with
  | none =>
      obtain ⟨e, t', hx, -⟩ := hsim.fails (by rw [hp, hv]; rfl)
      exact ⟨e, t', hx⟩
  | some r =>
      obtain ⟨v, f'⟩ := r
      dsimp only
      split
      · next hfits =>
          obtain ⟨u, t', hx, hrel, hstep⟩ := hsim.ends (b := ()) (u := f') (by
            rw [hp, hv, Option.bind_some, checkFits, if_pos hfits]
            rfl)
          exact ⟨t', hx, hrel, hstep⟩
      · next hfits =>
          obtain ⟨e, t', hx, -⟩ := hsim.fails (by
            rw [hp, hv, Option.bind_some, checkFits, if_neg hfits]
            rfl)
          exact ⟨e, t', hx⟩

/-- A scan that captures, for nothing. -/
def emptyScan (capture : Bool) : Ctx :=
  { terms := [], capture, stopMatchingOnHit := false, stopHitMask := 0, captureKeys := [] }

/-- **Skipping and scanning agree exactly where there is room.** -/
theorem skipAgrees_iff {d : Nat} (hd : d ≤ maxDepth) (bytes : Bytes) :
    SkipAgrees d bytes ↔ RoomAt d bytes := by
  constructor
  · intro h compact v f' hv hfits
    have hrel := stateAt_rel d bytes compact
    have hskip := skipValueFast_outcome (d := d) (bytes.length + 1) hrel rfl hd
    rw [hv] at hskip
    dsimp only at hskip
    rw [if_pos hfits] at hskip
    obtain ⟨t', hx, -⟩ := hskip
    have hnone : ∀ i < (emptyScan true).n, ((emptyScan true).term i).NumberOk :=
      fun i hi => absurd hi (Nat.not_lt_zero i)
    have hacc := value_accepts hnone (bytes.length + 1) d _ _ hrel rfl hd
    rcases h _ (emptyScan true) (stateAt d bytes) compact rfl hrel rfl with
      ⟨-, s', -, hs', -⟩ | ⟨e, t'', -, -, hfail, -⟩
    · rcases hacc.ends hv with ⟨u, s2, hs2, htook⟩ | ⟨-, e, s2, hs2, -⟩
      · exact htook.scans rfl
      · rw [hs2] at hs'
        cases hs'
    · rw [hx] at hfail
      cases hfail
  · intro h total ctx s compact hterms hrel hdepth
    have hskip := skipValueFast_outcome (bytes.length + 1) hrel hdepth hd
    have hnone : ∀ i < ctx.n, (ctx.term i).NumberOk := by
      intro i hi
      rw [Ctx.n, hterms] at hi
      exact absurd hi (Nat.not_lt_zero i)
    have hacc := value_accepts hnone (bytes.length + 1) d s _ hrel hdepth hd
    cases hv : valueP (bytes.length + 1) { rest := bytes, compact } with
    | none =>
        rw [hv] at hskip
        obtain ⟨e, t', hx⟩ := hskip
        obtain ⟨e', s', hx', -⟩ := hacc.fails hv
        exact .inr ⟨e, t', e', s', hx, hx'⟩
    | some r =>
        obtain ⟨v, f'⟩ := r
        rw [hv] at hskip
        dsimp only at hskip
        split at hskip
        · next hfits =>
            obtain ⟨t', hx, hrel', hstep⟩ := hskip
            rcases hacc.ends hv with ⟨u, s', hx', htook⟩ | ⟨hscans, -⟩
            · refine .inl ⟨t', s', hx, hx', ?_, ?_⟩
              · rw [hrel'.ok.consumed, htook.took.rel.ok.consumed, hrel'.rest, htook.took.rel.rest]
              · rw [hstep.depth, htook.took.step.depth]
            · rw [h compact v f' hv hfits] at hscans
              cases hscans
        · next hfits =>
            obtain ⟨e, t', hx⟩ := hskip
            rcases hacc.ends hv with ⟨u, s', hx', htook⟩ | ⟨-, e', s', hx', -⟩
            · exact absurd htook.fits hfits
            · exact .inr ⟨e, t', e', s', hx, hx'⟩

/-- At the last level but one, `[1]` can be skipped and not scanned. -/
theorem skip_outreaches_scan : ¬ SkipAgrees 127 [chLBracket, 0x31, chRBracket] := by
  intro h
  have := (skipAgrees_iff (by decide) _).mp h true (.arr (.cons (.num [0x31]) .nil)) { rest := [] }
    (by decide +kernel) (by decide)
  exact absurd this (by decide)

/-! ## Whole inputs -/

/-- Whether the input is accepted does not depend on the terms, the captures and the reader. -/
def AcceptedAlike (bytes : Bytes) : Prop :=
  ∀ (ctx ctx' : Ctx) (chunks chunks' : List Bytes), ctx.Fits → ctx'.Fits → ReaderOk chunks → ReaderOk chunks' →
    chunks.flatten = bytes → chunks'.flatten = bytes →
    ((scanAll ctx chunks).2 = .ok ↔ (scanAll ctx' chunks').2 = .ok)

/-- If all documents of the input fit, none has an array with elements on the last level. -/
def RoomyRun (bytes : Bytes) : Prop :=
  ∀ es, Ndjson 0 bytes es → (∀ e ∈ es, e.value.fits maxDepth 0 = true) → ∀ e ∈ es, e.value.scans 0 = true

theorem emptyScan_sound (capture : Bool) : (emptyScan capture).Sound := by
  have hnone : ∀ i < (emptyScan capture).n, False := fun i hi => Nat.not_lt_zero i hi
  exact ⟨⟨Nat.zero_le _, Nat.zero_le _, fun i hi => (hnone i hi).elim⟩, fun i hi => (hnone i hi).elim,
    fun i hi => (hnone i hi).elim, fun c hc => absurd hc (Nat.not_lt_zero c)⟩

/-- Looking for nothing, a scan only checks the members of an object. -/
theorem walkMembers_empty : ∀ (ms : Json.Members) {d : Nat} {A R C : Mask} {w : Walk},
    ms.fits maxDepth (d + 1) = true → (walkMembers (emptyScan false) d A R C ms w).isSome = true
  | .nil, _, _, _, _, _, _ => rfl
  | .cons key v rest, d, A, R, C, w, h => by
    rw [Members.fits, Bool.and_eq_true] at h
    have hidle : (keyDescent (emptyScan false) d A R C w.hits key.text).idle = true := by
      have hzero : ∀ p : Nat → Bool, maskOf 0 p = 0 := fun p => maskOf_false fun i hi => absurd hi (Nat.not_lt_zero i)
      have hn : (emptyScan false).n = 0 := rfl
      have hk : (emptyScan false).captureKeys.length = 0 := rfl
      simp only [Descent.idle, keyDescent, hereTerms, belowTerms, recTerms, keyCaptures, hn, hk, hzero,
        decide_true, Bool.and_self]
    rw [walkMembers_cons, walkMember, hidle, Bool.or_true]
    simp only [emptyScan, Bool.not_false, Bool.and_self, if_true, h.1]
    exact walkMembers_empty rest h.2

theorem emptyScan_walks {v : Value} (hroot : v.isArray = false) (hfits : v.fits maxDepth 0 = true) (cap : Nat) :
    ∃ w, walkRecord (emptyScan false) cap v = some w := by
  refine Option.isSome_iff_exists.mp ?_
  rw [walkRecord]
  cases v with
  | obj ms =>
      rw [Value.fits, Bool.and_eq_true, decide_eq_true_eq] at hfits
      rw [walkValue, if_pos hfits.1]
      exact walkMembers_empty ms hfits.2
  | arr _ => cases hroot
  | str _ => rfl
  | num _ => rfl
  | lit _ => rfl

/-- A run of documents that are all walked is accepted. -/
theorem runRecords_accepts {ctx : Ctx} {total : Nat} : ∀ (fuel index cap pos : Nat) (bytes : Bytes)
    (es : List Entry), Ndjson pos bytes es → bytes.length < fuel →
    (∀ e ∈ es, e.value.isArray = false → ∀ cap, ∃ w, walkRecord ctx cap e.value = some w) →
    (runRecords ctx total fuel index cap bytes).2 = .ok
  | 0, _, _, _, _, _, _, hf, _ => absurd hf (Nat.not_lt_zero _)
  | fuel + 1, index, cap, pos, bytes, es, hes, hf, hw => by
    cases hes with
    | nil hs =>
        rw [runRecords, if_pos (List.dropWhile_eq_nil_iff.mpr hs)]
    | @cons _ w text sep rest v entries hs hv hroot hsep hrest =>
        obtain ⟨mid, hrun⟩ := runRecords_cons ctx total fuel index cap hs hv hroot hsep
        obtain ⟨w1, hw1⟩ := hw _ List.mem_cons_self hroot cap
        rw [hrun, hw1]
        refine runRecords_accepts fuel (index + 1) w1.cap _ rest entries hrest ?_
          fun e he => hw e (List.mem_cons_of_mem _ he)
        obtain ⟨c, t, htext, -⟩ := hv.head
        rw [htext] at hf
        simp only [List.length_append, List.length_cons] at hf
        omega

/-- **Acceptance depends on nothing but the input exactly where there is room.** -/
theorem acceptedAlike_iff (bytes : Bytes) : AcceptedAlike bytes ↔ RoomyRun bytes := by
  have hruns : ∀ {ctx : Ctx} {chunks : List Bytes}, ctx.Fits → ReaderOk chunks → chunks.flatten = bytes →
      ((scanAll ctx chunks).2 = .ok → ∃ es, Ndjson 0 bytes es ∧ (∀ e ∈ es, e.value.fits maxDepth 0 = true) ∧
          (ctx.capture = true → ∀ e ∈ es, e.value.scans 0 = true)) ∧
        ∀ es, Ndjson 0 bytes es → (∀ e ∈ es, e.value.scans 0 = true) → (scanAll ctx chunks).2 = .ok := by
    rintro ctx chunks hctx hc rfl
    have hread := recordLoop_reads hctx.numbers (chunks.flatten.length + 2) 0 [] (State.start chunks)
      chunks.flatten (Between.start ctx hc) (by omega)
    rw [Nat.sub_self] at hread
    rw [scanAll_eq hctx]
    refine ⟨fun hok => ?_, fun es hes hscans => ?_⟩
    · cases he : entriesP (chunks.flatten.length + 2) 0 chunks.flatten with
      | none =>
          rw [he] at hread
          rw [hread] at hok
          cases hok
      | some es =>
          rw [he] at hread
          rcases hread with hran | ⟨-, hstatus⟩
          · exact ⟨es, entriesP_sound _ _ _ _ he, hran.fits, hran.scans⟩
          · rw [hstatus] at hok
            cases hok
    · rw [entriesP_complete hes _ (by omega)] at hread
      rcases hread with hran | ⟨⟨e, hmem, he⟩, -⟩
      · exact hran.status
      · rw [hscans e hmem] at he
        cases he
  constructor
  · intro h es hes hfits
    -- a scan for nothing accepts what fits, so a scan that captures must
    have hempty : (scanAll (emptyScan false) (bytes.map fun c => [c])).2 = .ok := by
      rw [scanAll_run (emptyScan_sound false) (readerOk_single bytes), flatten_single]
      exact runRecords_accepts _ _ _ 0 _ es hes (by omega)
        fun e he hroot cap => emptyScan_walks hroot (hfits e he) cap
    have hcaptured := (h _ (emptyScan true) _ _ (emptyScan_sound false).fits (emptyScan_sound true).fits
      (readerOk_single bytes) (readerOk_single bytes) (flatten_single bytes) (flatten_single bytes)).mp hempty
    obtain ⟨es', hes', -, hscans⟩ :=
      (hruns (emptyScan_sound true).fits (readerOk_single bytes) (flatten_single bytes)).1 hcaptured
    rw [hes.unique hes']
    exact hscans rfl
  · intro h ctx ctx' chunks chunks' hctx hctx' hc hc' he he'
    have hone : ∀ {c c' : Ctx} {k k' : List Bytes}, c.Fits → c'.Fits → ReaderOk k → ReaderOk k' →
        k.flatten = bytes → k'.flatten = bytes → (scanAll c k).2 = .ok → (scanAll c' k').2 = .ok := by
      intro c c' k k' hctx hctx' hk hk' he he' hok
      obtain ⟨es, hes, hfits, -⟩ := (hruns hctx hk he).1 hok
      exact (hruns hctx' hk' he').2 es hes (h es hes hfits)
    exact ⟨hone hctx hctx' hc hc' he he', hone hctx' hctx hc' hc he' he⟩

/-- **Skipping validates what scanning validates exactly where there is room**: for a value at any depth,
and for whether an input is accepted. -/
theorem skip_validates_alike (bytes : Bytes) :
    (∀ d ≤ maxDepth, SkipAgrees d bytes ↔ RoomAt d bytes) ∧ (AcceptedAlike bytes ↔ RoomyRun bytes) :=
  ⟨fun _ hd => skipAgrees_iff hd bytes, acceptedAlike_iff bytes⟩

/-- A value that is no container is skipped and scanned alike, at the last level too. -/
theorem skip_validates_alike_number : SkipAgrees 128 [0x31] := by
  refine ((skip_validates_alike _).1 128 (Nat.le_refl _)).mpr ?_
  intro compact v f' hv _
  have hone : valueP 2 { rest := [0x31], compact } = some (.num [0x31], { rest := [], compact }) := by
    cases compact <;> rfl
  cases hone.symm.trans hv
  rfl

end Lql.Scan
