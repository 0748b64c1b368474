import Lql.Json.Text
import Lql.Scan.SkipSpec
import Lql.Scan.Value

/-!
# Strings, literals and numbers, against the parser

The scalar scanners read what the parser reads, copy it, and hand its bytes to the
string cursor and to the number. A string may reach the cursor cut into runs in any
way (`Feed`): the cuts are where the buffer ended.
-/

namespace Lql.Scan

open Lib Json

variable {total : Nat} {ctx : Ctx}

/-- What a scan that captures puts out for `bytes`. -/
def emitted (ctx : Ctx) (bytes : Bytes) : Bytes := if ctx.capture then bytes else []

@[simp] theorem emitted_nil : emitted ctx [] = [] := by
  unfold emitted
  split <;> rfl

@[simp] theorem emitted_append (a b : Bytes) :
    emitted ctx (a ++ b) = emitted ctx a ++ emitted ctx b := by
  unfold emitted
  split <;> simp

/-! ## Copying -/

theorem writeLoop_out : ∀ (fuel : Nat) (data : Bytes) (t : Tape), data.length ≤ fuel →
    t.emit.length ≤ emitBufferSize →
    (writeLoop fuel data t).out = t.out ++ data ∧
      (writeLoop fuel data t).emit.length ≤ emitBufferSize ∧
      (writeLoop fuel data t).input = t.input ∧ (writeLoop fuel data t).depth = t.depth ∧
      (writeLoop fuel data t).compactRangeActive = t.compactRangeActive ∧
      (writeLoop fuel data t).compactRangeOk = t.compactRangeOk
  | 0, data, t, hlen, he => by
    have : data = [] := List.length_eq_zero_iff.mp (Nat.le_zero.mp hlen)
    subst this
    exact ⟨by simp [writeLoop], he, rfl, rfl, rfl, rfl⟩
  | fuel + 1, data, t, hlen, he => by
    rw [writeLoop]
    by_cases hd : data = []
    · rw [if_pos hd]
      subst hd
      exact ⟨by simp, he, rfl, rfl, rfl, rfl⟩
    rw [if_neg hd]
    have hpos : 0 < data.length := List.length_pos_iff.mpr hd
    -- after the possible flush there is room for at least one byte
    have step : ∀ u : Tape, u.out = t.out → u.emit.length < emitBufferSize → u.input = t.input →
        u.depth = t.depth → u.compactRangeActive = t.compactRangeActive →
        u.compactRangeOk = t.compactRangeOk →
        let amount := min (emitBufferSize - u.emit.length) data.length
        let r := writeLoop fuel (data.drop amount) { u with emit := u.emit ++ data.take amount }
        r.out = t.out ++ data ∧ r.emit.length ≤ emitBufferSize ∧ r.input = t.input ∧
          r.depth = t.depth ∧ r.compactRangeActive = t.compactRangeActive ∧
          r.compactRangeOk = t.compactRangeOk := by
      intro u hout hroom hi hdp ha hc
      dsimp only
      generalize hn : min (emitBufferSize - u.emit.length) data.length = n
      obtain ⟨h1, h2, h3, h4, h5, h6⟩ := writeLoop_out fuel (data.drop n)
        { u with emit := u.emit ++ data.take n } (by rw [List.length_drop]; omega)
        (by simp only [List.length_append, List.length_take]; omega)
      refine ⟨?_, h2, h3.trans hi, h4.trans hdp, h5.trans ha, h6.trans hc⟩
      rw [h1, ← hout]
      simp [Tape.out]
    by_cases hfull : t.emit.length = emitBufferSize
    · simp only [if_pos hfull]
      exact step { t with spool := t.spool ++ t.emit, emit := [] } (by simp [Tape.out])
        (show 0 < emitBufferSize by decide) rfl rfl rfl rfl
    · simp only [if_neg hfull]
      exact step t rfl (by omega) rfl rfl rfl rfl

section Tape

variable {t : Tape} {f : Flat}

theorem write_ok (ctx : Ctx) (h : Rel total t f) (data : Bytes) :
    ∃ t', write ctx.capture data t = .ok () t' ∧ Rel total t' f ∧ Step t t' (emitted ctx data) := by
  refine ⟨_, rfl, ?_, ?_⟩
  all_goals
    cases hc : ctx.capture with
    | false => simpa [emitted, hc] using by first | exact h | exact Step.refl t
    | true =>
      obtain ⟨h1, h2, h3, h4, h5, h6⟩ := writeLoop_out data.length data t (Nat.le_refl _) h.emit
      first
        | exact ⟨by simpa [h3] using h.ok, by simpa using h2, by simpa [h3] using h.rest,
            by simpa [h5, h6] using h.compact⟩
        | exact ⟨by simpa [emitted, hc] using h1, by simpa using h4, by simpa using h5⟩

theorem copyByte_ok (ctx : Ctx) (h : Rel total t f) (c : UInt8) :
    ∃ t', copyByte ctx.capture c t = .ok () t' ∧ Rel total t' f ∧ Step t t' (emitted ctx [c]) := by
  refine ⟨_, rfl, ?_, ?_⟩
  · cases hc : ctx.capture with
    | false => simpa [hc] using h
    | true =>
      by_cases hfull : t.emit.length = emitBufferSize
      · simpa [hfull] using ⟨h.ok, show 1 ≤ emitBufferSize by decide, h.rest, h.compact⟩
      · have := h.emit
        simp only [Bool.not_true, Bool.false_eq_true, if_false, if_neg hfull]
        exact ⟨h.ok, by simp only [List.length_append, List.length_singleton]; omega, h.rest, h.compact⟩
  · cases hc : ctx.capture with
    | false => simpa [emitted, hc] using Step.refl t
    | true =>
      by_cases hfull : t.emit.length = emitBufferSize
      · exact ⟨by simp [hfull, emitted, hc, Tape.out], by simp [hfull], by simp [hfull]⟩
      · exact ⟨by simp [hfull, emitted, hc, Tape.out], by simp [hfull], by simp [hfull]⟩

end Tape

/-! ## Steps of the whole scanner -/

section Lift

variable {s : State} {f : Flat} {α β : Type}

/-- A reading step changes the tape only. -/
theorem sim_onTape {x : TapeM α} {p : P β} {Q : α → Tape → β → Flat → Prop}
    (h : Sim JsonFault x p s.tape f Q) :
    Sim JsonFault (onTape x) p s f fun a s' b f' => ∃ t', s' = { s with tape := t' } ∧ Q a t' b f' := by
  cases hp : p f with
  | none =>
    obtain ⟨e, t', hx, he⟩ := h.fails hp
    exact .of_none hp ⟨e, { s with tape := t' }, by simp [onTape, hx], he⟩
  | some r =>
    obtain ⟨a, t', hx, hQ⟩ := h.ends hp
    exact .of_some hp (by simp [onTape, hx]) ⟨t', rfl, hQ⟩

theorem onTape_ok {x : TapeM α} {a : α} {t' : Tape} (h : x s.tape = .ok a t') :
    onTape x s = .ok a { s with tape := t' } := by simp [onTape, h]

end Lift

/-! ## Strings -/

/-- A byte of a literal or a number, for the cursor. -/
def matchGate (ctx : Ctx) (m : Match) (c : UInt8) : Match := if matchLive m then matchByte ctx m c else m

/-- The cursor after a text: the plain bytes of a string arrive in runs cut anywhere, and
only while something can still match; its other pieces byte by byte, and so do the bytes of
a literal or a number. -/
inductive Feed (ctx : Ctx) : Match → Str → Match → Prop where
  | nil (m : Match) : Feed ctx m [] m
  | span {m m' : Match} {ps : Str} (data : Bytes) (plain : ∀ c ∈ data, isPlain c = true) :
      Feed ctx (if matchLive m then matchSpan ctx m data else m) ps m' →
      Feed ctx m (plainStr data ++ ps) m'
  | byte {m m' : Match} {ps : Str} (c : UInt8) (ascii : c < 0x80) :
      Feed ctx (matchGate ctx m c) ps m' → Feed ctx m (plainStr [c] ++ ps) m'
  | coded {m m' : Match} {ps : Str} (raw text : Bytes) (whole : Whole text) :
      Feed ctx (text.foldl (matchByte ctx) m) ps m' → Feed ctx m (.coded raw text :: ps) m'

/-- The bytes of a literal or a number. -/
theorem Feed.token (ctx : Ctx) : ∀ (m : Match) (token : Bytes), (∀ c ∈ token, c < 0x80) →
    Feed ctx m (plainStr token) (token.foldl (matchGate ctx) m)
  | _, [], _ => .nil _
  | _, c :: token, h =>
    .byte c (h c List.mem_cons_self)
      (.token ctx _ token fun d hd => h d (List.mem_cons_of_mem _ hd))

/-- The tape and the cursor moved, nothing else. -/
structure Fed (total : Nat) (ctx : Ctx) (s s' : State) (added : Bytes) (f' : Flat) (m' : Match) :
    Prop where
  state : s' = { s with tape := s'.tape, m := m' }
  rel : Rel total s'.tape f'
  step : Step s.tape s'.tape added

theorem Fed.refl {s : State} {f : Flat} (h : Rel total s.tape f) : Fed total ctx s s [] f s.m :=
  ⟨rfl, h, .refl _⟩

theorem Fed.trans {s1 s2 s3 : State} {a b : Bytes} {f1 f2 : Flat} {m1 m2 : Match}
    (h1 : Fed total ctx s1 s2 a f1 m1) (h2 : Fed total ctx s2 s3 b f2 m2) :
    Fed total ctx s1 s3 (a ++ b) f2 m2 :=
  ⟨by rw [h2.state, h1.state], h2.rel, h1.step.trans h2.step⟩

theorem Fed.m {s s' : State} {a : Bytes} {f' : Flat} {m' : Match} (h : Fed total ctx s s' a f' m') :
    s'.m = m' := by rw [h.state]

/-- A step on the cursor. -/
theorem Fed.onMatch {s s' : State} {a : Bytes} {f' : Flat} {m' : Match}
    (h : Fed total ctx s s' a f' m') (g : Match → Match) :
    Fed total ctx s { s' with m := g s'.m } a f' (g m') :=
  ⟨by rw [h.state], h.rel, h.step⟩

/-- A copied byte. -/
theorem Fed.copy {s s' : State} {a : Bytes} {f' : Flat} {m' : Match}
    (h : Fed total ctx s s' a f' m') (c : UInt8) :
    ∃ s2, onTape (copyByte ctx.capture c) s' = .ok () s2 ∧
      Fed total ctx s s2 (a ++ emitted ctx [c]) f' m' := by
  obtain ⟨t', hx, hrel, hstep⟩ := copyByte_ok ctx h.rel c
  exact ⟨_, onTape_ok hx, by rw [h.state], hrel, h.step.trans hstep⟩

theorem Fed.write {s s' : State} {a : Bytes} {f' : Flat} {m' : Match}
    (h : Fed total ctx s s' a f' m') (data : Bytes) :
    ∃ s2, onTape (write ctx.capture data) s' = .ok () s2 ∧
      Fed total ctx s s2 (a ++ emitted ctx data) f' m' := by
  obtain ⟨t', hx, hrel, hstep⟩ := write_ok ctx h.rel data
  exact ⟨_, onTape_ok hx, by rw [h.state], hrel, h.step.trans hstep⟩

/-- A quiet reading step. -/
theorem Fed.moves {α β : Type} {s s' : State} {a : Bytes} {f : Flat} {m' : Match} {x : TapeM α}
    {p : P β} (h : Fed total ctx s s' a f m') (hx : Sim JsonFault x p s'.tape f (Moves total s'.tape)) :
    Sim JsonFault (onTape x) p s' f fun _ s2 _ f' => Fed total ctx s s2 a f' m' := by
  refine (sim_onTape hx).mono ?_
  rintro _ s2 _ f' ⟨t', rfl, hrel, hstep⟩
  exact ⟨by rw [h.state], hrel, by simpa using h.step.trans hstep⟩

theorem Fed.reads {α : Type} {s s' : State} {a : Bytes} {f : Flat} {m' : Match} {x : TapeM α}
    {p : P α} (h : Fed total ctx s s' a f m') (hx : Sim JsonFault x p s'.tape f (Reads total s'.tape)) :
    Sim JsonFault (onTape x) p s' f fun v s2 w f' => v = w ∧ Fed total ctx s s2 a f' m' := by
  refine (sim_onTape hx).mono ?_
  rintro v s2 w f' ⟨t', rfl, hv, hrel, hstep⟩
  exact ⟨hv, by rw [h.state], hrel, by simpa using h.step.trans hstep⟩

/-- The piece of a string behind `s`, added to what was put out before. -/
def FedPiece (total : Nat) (ctx : Ctx) (s : State) (m : Match) (a : Bytes) (_ : Unit) (s' : State)
    (piece : Piece) (f' : Flat) : Prop :=
  ∃ raw text, piece = .coded raw text ∧
    Fed total ctx s s' (a ++ emitted ctx raw) f' (text.foldl (matchByte ctx) m)

theorem stringContinuation_sim {s : State} : ∀ (k : Nat) (lo hi : UInt8) (s' : State) (a : Bytes)
    (f : Flat) (m : Match), Fed total ctx s s' a f m →
    Sim JsonFault (stringContinuation ctx k lo hi) (continuationP k lo hi) s' f
      fun _ s2 cs f' => Fed total ctx s s2 (a ++ emitted ctx cs) f' (cs.foldl (matchByte ctx) m)
  | 0, _, _, _, _, _, _, h => .of_pure (by simpa using h)
  | k + 1, lo, hi, s', a, f, m, h => by
    refine (h.reads (take_sim h.rel)).bind fun c s1 b f1 _ hm => ?_
    obtain ⟨rfl, h1⟩ := hm
    split
    · exact .of_throw rfl rfl
    obtain ⟨s2, hc, h2⟩ := h1.copy c
    refine Sim.bind_left hc ?_
    refine Sim.bind_left (a := ()) (r := { s2 with m := matchByte ctx s2.m c }) rfl ?_
    refine (stringContinuation_sim k 0x80 0xbf _ _ f1 _ (h2.onMatch fun m => matchByte ctx m c)).map_right
      (c :: ·) ?_ ?_
    · show (continuationP k 0x80 0xbf f1).bind _ = _
      cases continuationP k 0x80 0xbf f1 <;> rfl
    · intro _ s3 cs f3 h3
      have : a ++ emitted ctx (c :: cs) = a ++ emitted ctx [c] ++ emitted ctx cs := by
        rw [List.append_assoc, ← emitted_append]
        rfl
      rw [this]
      exact h3

theorem stringEscape_sim {s s' : State} {a : Bytes} {f : Flat} {m : Match}
    (h : Fed total ctx s s' a f m) :
    Sim JsonFault (stringEscape ctx) escapeP s' f (FedPiece total ctx s m a) := by
  obtain ⟨s1, hc1, h1⟩ := h.copy chBackslash
  refine Sim.bind_left hc1 ((h1.reads (take_sim h1.rel)).bind fun next s2 b f2 _ hm => ?_)
  obtain ⟨rfl, h2⟩ := hm
  split
  · refine Sim.bind_left (a := ()) (r := { s2 with m := matchByte ctx s2.m (shortEscapeByte next) }) rfl ?_
    obtain ⟨s3, hc3, h3⟩ := (h2.onMatch fun m => matchByte ctx m (shortEscapeByte next)).copy next
    refine Sim.of_some rfl hc3 ⟨_, _, rfl, ?_⟩
    have : a ++ emitted ctx [chBackslash, next] =
        a ++ emitted ctx [chBackslash] ++ emitted ctx [next] := by
      rw [List.append_assoc, ← emitted_append]
      rfl
    rw [this]
    exact h3
  split
  · exact .of_throw rfl rfl
  obtain ⟨s3, hc3, h3⟩ := h2.copy next
  refine Sim.bind_left hc3 ((h3.reads (takeHexLoop_sim 4 0 [] _ _ h3.rel)).bind
    fun u s4 b f4 _ hm => ?_)
  obtain ⟨rfl, h4⟩ := hm
  obtain ⟨unicode, raw⟩ := u
  dsimp only
  obtain ⟨s5, hc5, h5⟩ := h4.write raw
  refine Sim.bind_left hc5 ?_
  have e5 : a ++ emitted ctx [chBackslash] ++ emitted ctx [next] ++ emitted ctx raw =
      a ++ emitted ctx ([chBackslash, next] ++ raw) := by
    rw [emitted_append, show [chBackslash, next] = [chBackslash] ++ [next] from rfl, emitted_append]
    simp only [List.append_assoc]
  rw [e5] at h5
  split
  · exact .of_throw rfl rfl
  split
  · exact .of_some rfl rfl ⟨_, _, rfl, h5.onMatch fun m => matchUnicode ctx m unicode⟩
  refine (h5.moves (takeExpected_sim h5.rel _)).bind fun _ s6 _ f6 _ h6 => ?_
  obtain ⟨s7, hc7, h7⟩ := h6.copy chBackslash
  refine Sim.bind_left hc7 ((h7.moves (takeExpected_sim h7.rel _)).bind fun _ s8 _ f8 _ h8 => ?_)
  obtain ⟨s9, hc9, h9⟩ := h8.copy chU
  refine Sim.bind_left hc9 ((h9.reads (takeHexLoop_sim 4 0 [] _ _ h9.rel)).bind
    fun u s10 b f10 _ hm => ?_)
  obtain ⟨rfl, h10⟩ := hm
  obtain ⟨low, lowRaw⟩ := u
  dsimp only
  obtain ⟨s11, hc11, h11⟩ := h10.write lowRaw
  refine Sim.bind_left hc11 ?_
  have e11 : a ++ emitted ctx ([chBackslash, next] ++ raw) ++ emitted ctx [chBackslash] ++
      emitted ctx [chU] ++ emitted ctx lowRaw =
      a ++ emitted ctx ([chBackslash, next] ++ raw ++ [chBackslash, chU] ++ lowRaw) := by
    rw [emitted_append _ lowRaw, emitted_append _ [chBackslash, chU],
      show [chBackslash, chU] = [chBackslash] ++ [chU] from rfl, emitted_append [chBackslash] [chU]]
    simp only [List.append_assoc]
  rw [e11] at h11
  split
  · exact .of_throw rfl rfl
  · generalize 0x10000 + ((unicode - 0xd800) <<< 10) + (low - 0xdc00) = rune
    exact .of_some rfl rfl ⟨_, _, rfl, h11.onMatch fun m => matchUnicode ctx m rune⟩

/-- What the loop over the pieces leaves: everything up to and with the closing quote is
copied, and the cursor has seen it. -/
def FedString (total : Nat) (ctx : Ctx) (s : State) (m : Match) (a : Bytes) (_ : Unit) (s' : State)
    (ps : Str) (f' : Flat) : Prop :=
  ∃ m', Feed ctx m ps m' ∧ Fed total ctx s s' (a ++ emitted ctx (ps.raw ++ [chQuote])) f' m'

theorem stringLoop_sim {s : State} : ∀ (n k : Nat) (s' : State) (a : Bytes) (f : Flat) (m : Match),
    Fed total ctx s s' a f m → f.rest.length < n → f.rest.length < k →
    Sim JsonFault (stringLoop ctx n) (piecesP k) s' f (FedString total ctx s m a)
  | 0, _, _, _, _, _, _, hn, _ => absurd hn (Nat.not_lt_zero _)
  | n + 1, k, s', a, f, m, h, hn, hk => by
    obtain ⟨i, hx, hok, hrest, hnil⟩ := refill_ok h.rel
    have hrel := h.rel.input hok hrest
    have h1 : Fed total ctx s { s' with tape := { s'.tape with input := i } } a f m :=
      ⟨by rw [h.state], hrel, by simpa using h.step.trans (step_input s'.tape i)⟩
    refine Sim.bind_left (onTape_ok hx) ?_
    refine Sim.bind_left (a := { s' with tape := { s'.tape with input := i } }) rfl ?_
    obtain ⟨k, rfl⟩ : ∃ j, k = j + 1 := ⟨k - 1, by omega⟩
    cases hb : i.buffer with
    | nil => exact .of_throw (bind_eq_none (by simp [takeP, hnil hb])) rfl
    | cons value buffer =>
      dsimp only
      rw [plainAsciiSpan_eq]
      by_cases hspan : plainKeySpan (value :: buffer) ≠ 0
      · rw [if_pos hspan]
        have hsplit := i.rest_skip (plainKeySpan (value :: buffer))
        have hplain := plain_of_mem_span (value :: buffer)
        have hlen : ((value :: buffer).take (plainKeySpan (value :: buffer))).length =
            plainKeySpan (value :: buffer) := by
          rw [List.length_take, Nat.min_eq_left (plainKeySpan_le _)]
        rw [hrest, hb] at hsplit
        generalize hs : plainKeySpan (value :: buffer) = span at *
        generalize hd : (value :: buffer).take span = data at *
        have hlt := congrArg List.length hsplit
        rw [List.length_append] at hlt
        have h2 : Fed total ctx s { s' with tape := { s'.tape with input := i.skip span } } a
            { f with rest := (i.skip span).rest } m :=
          ⟨by rw [h.state], h.rel.input (hok.skip span) rfl,
            by simpa using h.step.trans (step_input s'.tape (i.skip span))⟩
        refine Sim.bind_left (a := ())
          (r := { s' with tape := { s'.tape with input := i.skip span } }) rfl ?_
        obtain ⟨s3, hw, h3⟩ := h2.write data
        refine Sim.bind_left hw (Sim.bind_left (a := ())
          (r := { s3 with m := if matchLive s3.m then matchSpan ctx s3.m data else s3.m }) rfl ?_)
        have ih := stringLoop_sim n (k + 1 - span) _ _ _ _
          (h3.onMatch fun m => if matchLive m then matchSpan ctx m data else m)
          (by dsimp only; omega) (by dsimp only; omega)
        refine ih.map_right (plainStr data ++ ·) ?_ ?_
        · have := piecesP_plain (k + 1 - span) (i.skip span).rest f.compact data hplain
          rw [hlen, ← hsplit, Nat.sub_add_cancel (by omega)] at this
          exact this
        · rintro _ s4 ps f4 ⟨m4, hfeed, h4⟩
          refine ⟨m4, .span data hplain hfeed, ?_⟩
          have hraw : Str.raw (plainStr data ++ ps) = data ++ Str.raw ps := by
            simp [plainStr, Str.raw, Piece.raw, List.flatMap_map]
          rw [hraw, List.append_assoc, emitted_append, ← List.append_assoc]
          exact h4
      · rw [if_neg hspan]
        have hvalue : ¬ isPlain value = true := by
          intro hp
          rw [plainKeySpan, if_pos hp] at hspan
          omega
        obtain ⟨rest, hf⟩ : ∃ rest, f.rest = value :: rest :=
          ⟨buffer ++ i.chunks.flatten, by rw [← hrest, Input.rest, hb]; rfl⟩
        obtain ⟨ha, hrel2⟩ := advance_ok hrel rfl (by rw [hb]; rfl) hf
        have h2 : Fed total ctx s { s' with tape := { s'.tape with input := i.advance } } a
            { f with rest } m :=
          ⟨by rw [h.state], hrel2, by simpa using h.step.trans (step_input s'.tape i.advance)⟩
        refine Sim.bind_left (r := { s' with tape := { s'.tape with input := i.advance } })
          (onTape_ok ha) (Sim.bind_right (takeP_cons hf) ?_)
        rw [if_neg hvalue]
        have hlen : rest.length < k := by simp only [hf, List.length_cons] at hk; omega
        have hlen' : rest.length < n := by simp only [hf, List.length_cons] at hn; omega
        by_cases hq : value = chQuote
        · rw [if_pos hq, if_pos hq, hq]
          obtain ⟨s3, hc, h3⟩ := h2.copy chQuote
          exact .of_some rfl hc ⟨m, .nil m, h3⟩
        rw [if_neg hq, if_neg hq]
        have next : ∀ {x : ScanM Unit} {p : P Piece},
            Sim JsonFault x p { s' with tape := { s'.tape with input := i.advance } } { f with rest }
              (FedPiece total ctx s m a) → Tame p →
            (∀ f piece f', p f = some (piece, f') → ∃ raw text, piece = .coded raw text ∧ Whole text) →
            Sim JsonFault (x >>= fun _ => stringLoop ctx n)
              (p >>= fun piece => piecesP k >>= fun rest => pure (piece :: rest))
              { s' with tape := { s'.tape with input := i.advance } } { f with rest }
              (FedString total ctx s m a) := by
          intro x p hx hp hwhole
          refine hx.bind fun _ s3 piece f3 hpf hm => ?_
          obtain ⟨raw, text, rfl, h3⟩ := hm
          obtain ⟨_, _, e, htext⟩ := hwhole _ _ _ hpf
          cases e
          have hle := hp.le hpf
          dsimp only at hle
          refine (stringLoop_sim n k s3 _ f3 _ h3 (by omega) (by omega)).map_right
            (.coded raw text :: ·) ?_ ?_
          · show (piecesP k f3).bind _ = _
            cases piecesP k f3 <;> rfl
          · rintro _ s4 ps f4 ⟨m4, hfeed, h4⟩
            refine ⟨m4, .coded raw text htext hfeed, ?_⟩
            have hraw : Str.raw (.coded raw text :: ps) = raw ++ Str.raw ps := by
              simp [Str.raw, Piece.raw]
            rw [hraw, List.append_assoc, emitted_append, ← List.append_assoc]
            exact h4
        by_cases hctl : value < 0x20
        · rw [if_pos hctl]
          exact .of_throw (bind_eq_none (by simp [codedP, hctl])) rfl
        rw [if_neg hctl]
        by_cases hbs : value = chBackslash
        · rw [if_pos hbs]
          have := next (stringEscape_sim h2) escapeP_closed.tame fun _ _ _ => whole_escape
          simpa only [codedP, if_neg hctl, if_pos hbs] using this
        rw [if_neg hbs]
        have hhigh : ¬ value < 0x80 := by
          intro hlow
          refine hvalue ?_
          simp only [isPlain, ne_eq, hq, hbs, not_false_eq_true, decide_true, Bool.true_and,
            Bool.and_eq_true, decide_eq_true_eq]
          exact ⟨UInt8.not_lt.mp hctl, hlow⟩
        rw [if_neg hhigh]
        cases hlead : leadInfo value with
        | none => exact .of_throw (bind_eq_none (by simp [codedP, hctl, hbs, hlead])) rfl
        | some info =>
          obtain ⟨remaining, lo, hi⟩ := info
          obtain ⟨s3, hc, h3⟩ := h2.copy value
          have hcoded : Sim JsonFault
              (do
                onTape (copyByte ctx.capture value)
                onMatch fun m => matchByte ctx m value
                stringContinuation ctx remaining lo hi) (codedP value)
              { s' with tape := { s'.tape with input := i.advance } } { f with rest }
              (FedPiece total ctx s m a) := by
            refine Sim.bind_left hc (Sim.bind_left (a := ())
              (r := { s3 with m := matchByte ctx s3.m value }) rfl ?_)
            refine (stringContinuation_sim remaining lo hi _ _ _ _
              (h3.onMatch fun m => matchByte ctx m value)).map_right
              (fun cs => .coded (value :: cs) (value :: cs)) ?_ ?_
            · simp only [codedP, if_neg hctl, if_neg hbs, hlead]
              show (continuationP remaining lo hi _).bind _ = _
              cases continuationP remaining lo hi { f with rest } <;> rfl
            · intro _ s4 cs f4 h4
              refine ⟨_, _, rfl, ?_⟩
              have : a ++ emitted ctx (value :: cs) = a ++ emitted ctx [value] ++ emitted ctx cs := by
                rw [List.append_assoc, ← emitted_append]
                rfl
              rw [this]
              exact h4
          have := next hcoded (codedP_closed value).tame fun _ _ _ => whole_coded
          simpa only [bind_assoc] using this

/-- **A string is read, copied with its quotes, and handed to the cursor.** -/
theorem string_sim (ctx : Ctx) {s : State} {f : Flat} (h : Rel total s.tape f) :
    Sim JsonFault (string ctx) stringP s f fun _ s' str f' =>
      ∃ m', Feed ctx s.m str m' ∧
        Fed total ctx s s' (emitted ctx ([chQuote] ++ str.raw ++ [chQuote])) f' m' := by
  have h0 : Fed total ctx s s [] f s.m := .refl h
  refine (h0.moves (takeExpected_sim h chQuote)).bind fun _ s1 _ f1 _ h1 => ?_
  obtain ⟨s2, hc, h2⟩ := h1.copy chQuote
  refine Sim.bind_left hc (Sim.bind_left (a := s2) rfl (Sim.bind_right (get_apply f1) ?_))
  refine (stringLoop_sim _ _ s2 _ f1 _ h2 ?_ (Nat.lt_succ_self _)).mono ?_
  · rw [Input.size_eq, h2.rel.rest]
    exact Nat.lt_succ_self _
  · rintro _ s3 ps f3 ⟨m', hfeed, h3⟩
    refine ⟨m', hfeed, ?_⟩
    rw [List.append_assoc, emitted_append]
    exact h3

/-! ## Literals and numbers -/

/-- The token has been copied and handed to the cursor and to the number. -/
structure Tokened (total : Nat) (ctx : Ctx) (s : State) (token : Bytes) (s' : State) (f' : Flat) :
    Prop where
  state : s' = { s with
    tape := s'.tape
    m := token.foldl (matchGate ctx) s.m
    num := token.foldl (numberRangeByte ctx) s.num }
  rel : Rel total s'.tape f'
  step : Step s.tape s'.tape (emitted ctx token)

theorem Tokened.start {s : State} {f : Flat} (h : Rel total s.tape f) : Tokened total ctx s [] s f :=
  ⟨rfl, h, by simpa using Step.refl s.tape⟩

/-- One more byte of a token, behind a step that only moved the input. -/
theorem Tokened.byte {s s' : State} {token : Bytes} {f f' : Flat} {t : Tape}
    (h : Tokened total ctx s token s' f) (hrel : Rel total t f') (hstep : Step s'.tape t [])
    (c : UInt8) :
    ∃ s2, matchCopyByte ctx c { s' with tape := t } = .ok () s2 ∧
      Tokened total ctx s (token ++ [c]) s2 f' := by
  obtain ⟨t2, hx, hrel2, hstep2⟩ := copyByte_ok ctx hrel c
  refine ⟨{ s' with
    tape := t2
    m := matchGate ctx s'.m c
    num := numberRangeByte ctx s'.num c }, ?_, ?_, hrel2, ?_⟩
  · rw [matchCopyByte, onMatch, modify_bind, onNumber, modify_bind]
    exact onTape_ok hx
  · rw [h.state]
    simp [List.foldl_append]
  · rw [emitted_append]
    simpa using (h.step.trans hstep).trans hstep2

theorem literal_sim (ctx : Ctx) {s : State} : ∀ (text token : Bytes) (s' : State) (f : Flat),
    Tokened total ctx s token s' f →
    Sim JsonFault (literal ctx text) (literalP text) s' f
      fun _ s2 _ f' => Tokened total ctx s (token ++ text) s2 f'
  | [], token, _, _, h => .of_pure (by simpa using h)
  | c :: rest, token, s', f, h => by
    refine (sim_onTape (takeExpected_sim h.rel c)).bind fun _ s1 _ f1 _ hm => ?_
    obtain ⟨t, rfl, hrel, hstep⟩ := hm
    obtain ⟨s2, hx, h2⟩ := h.byte hrel hstep c
    refine Sim.bind_left hx ((literal_sim _ rest _ s2 f1 h2).mono fun _ _ _ _ h3 => ?_)
    simpa using h3

/-- **A number is read, copied, and handed to the cursor and to the number.** -/
theorem number_sim {s : State} {f : Flat} (h : Rel total s.tape f) :
    Sim JsonFault (number ctx) numberP s f fun _ s' token f' => Tokened total ctx s token s' f' := by
  have steps : NumberSteps (onTape peek) (fun c => do onTape advance; matchCopyByte ctx c)
      (fun token s' f => Tokened total ctx s token s' f)
      (fun token s' f => Tokened total ctx s token s' f ∧
        s'.tape.input.buffer.head? = f.rest.head?) := by
    refine ⟨fun token s' f h => ?_, fun token s' f c rest ⟨h, hhead⟩ hf => ?_⟩
    · obtain ⟨i, hx, hok, hrest, hhead⟩ := peek_ok h.rel
      refine ⟨_, onTape_ok hx, ⟨by rw [h.state], h.rel.input hok hrest, ?_⟩, hhead⟩
      simpa using h.step.trans (step_input s'.tape i)
    · obtain ⟨ha, hrel⟩ := advance_ok h.rel rfl (by rw [hhead, hf]; rfl) hf
      obtain ⟨s2, hx, h2⟩ := h.byte hrel (step_input _ _) c
      exact ⟨s2, by rw [bind_ok (onTape_ok ha)]; exact hx, h2⟩
  refine Sim.bind_left (a := s) rfl ?_
  refine (steps.number (.start h) ?_).mono fun _ s' token f' hm => hm.1
  rw [Input.size_eq, h.rest]
  exact Nat.le_succ _

end Lql.Scan
