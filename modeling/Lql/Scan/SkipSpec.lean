import Lql.Scan.ReadSpec

/-!
# The structural skipper, against the parser

`lql_json_skip_value_fast` accepts exactly the documents of the grammar whose
containers nest at most 128 deep, counted from the depth it is called at, and moves
to their end.
-/

namespace Lql.Scan

open Lib Json

variable {total : Nat} {t : Tape} {f : Flat}

/-! ## Strings -/

theorem takeHexLoop_sim : ∀ (k value : Nat) (raw : Bytes) (t : Tape) (f : Flat), Rel total t f →
    Sim JsonFault (takeHexLoop k value raw) (hexP k value raw) t f (Reads total t)
  | 0, value, raw, t, _, h => .of_pure ⟨rfl, h, .refl t⟩
  | k + 1, value, raw, t, f, h => by
    refine (take_sim h).bind fun c t' b f' _ hm => ?_
    obtain ⟨rfl, hrel, hstep⟩ := hm
    cases hexValue c with
    | none => exact sim_fail _ rfl
    | some digit =>
      refine (takeHexLoop_sim k _ _ t' f' hrel).mono ?_
      rintro a t2 b f2 ⟨rfl, hrel2, hstep2⟩
      exact ⟨rfl, hrel2, by simpa using hstep.trans hstep2⟩

theorem skipContinuation_sim : ∀ (k : Nat) (lo hi : UInt8) (t : Tape) (f : Flat), Rel total t f →
    Sim JsonFault (skipContinuation k lo hi) (continuationP k lo hi) t f (Moves total t)
  | 0, _, _, t, _, h => sim_done h _ _
  | k + 1, lo, hi, t, f, h => by
    refine sim_bind_reads (take_sim h) fun c t' f' _ h' _ => ?_
    split
    · exact sim_fail _ rfl
    · refine (skipContinuation_sim k 0x80 0xbf t' f' h').map_right (c :: ·) ?_ fun _ _ _ _ hm => hm
      show (continuationP k 0x80 0xbf f').bind _ = _
      cases continuationP k 0x80 0xbf f' <;> rfl

theorem skipEscape_sim (h : Rel total t f) :
    Sim JsonFault skipEscape escapeP t f (Moves total t) := by
  refine sim_bind_reads (take_sim h) fun next t1 f1 _ h1 _ => ?_
  split
  · exact sim_done h1 _ _
  split
  · exact sim_fail _ rfl
  refine sim_bind_reads (takeHexLoop_sim 4 0 [] t1 f1 h1) fun ⟨unicode, raw⟩ t2 f2 _ h2 _ => ?_
  dsimp only
  split
  · exact sim_fail _ rfl
  split
  · exact sim_done h2 _ _
  refine sim_bind_moves (takeExpected_sim h2 _) fun _ t3 _ f3 _ h3 _ => ?_
  refine sim_bind_moves (takeExpected_sim h3 _) fun _ t4 _ f4 _ h4 _ => ?_
  refine sim_bind_reads (takeHexLoop_sim 4 0 [] t4 f4 h4) fun ⟨low, lowRaw⟩ t5 f5 _ h5 _ => ?_
  dsimp only
  split
  · exact sim_fail _ rfl
  · exact sim_done h5 _ _

theorem skipStringLoop_sim : ∀ (n m : Nat) (t : Tape) (f : Flat), Rel total t f →
    f.rest.length < n → f.rest.length < m →
    Sim JsonFault (skipStringLoop n) (piecesP m) t f (Moves total t)
  | 0, _, _, _, _, hn, _ => absurd hn (Nat.not_lt_zero _)
  | n + 1, m, t, f, h, hn, hm => by
    obtain ⟨i, hx, hok, hrest, hnil⟩ := refill_ok h
    have hrel := h.input hok hrest
    refine Sim.bind_left hx (Sim.bind_left (a := { t with input := i }) rfl ?_)
    obtain ⟨m, rfl⟩ : ∃ k, m = k + 1 := ⟨m - 1, by omega⟩
    cases hb : i.buffer with
    | nil =>
      refine sim_fail _ (bind_eq_none ?_)
      simp [takeP, hnil hb]
    | cons value buffer =>
      dsimp only
      rw [plainAsciiSpan_eq]
      by_cases hspan : plainKeySpan (value :: buffer) ≠ 0
      · -- a run of plain bytes is one round here and one round per byte in the parser
        rw [if_pos hspan]
        have hsplit := i.rest_skip (plainKeySpan (value :: buffer))
        have hplain := plain_of_mem_span (value :: buffer)
        have hlen : ((value :: buffer).take (plainKeySpan (value :: buffer))).length =
            plainKeySpan (value :: buffer) := by
          rw [List.length_take, Nat.min_eq_left (plainKeySpan_le _)]
        rw [hrest, hb] at hsplit
        generalize hs : plainKeySpan (value :: buffer) = span at *
        generalize hd : (value :: buffer).take span = data at *
        have hlt := congrArg List.length hsplit
        rw [List.length_append] at hlt
        refine Sim.bind_left (a := ()) (r := { t with input := i.skip span }) rfl ?_
        have ih := skipStringLoop_sim n (m + 1 - span) { t with input := i.skip span }
          { f with rest := (i.skip span).rest } (h.input (hok.skip span) rfl)
          (by dsimp only; omega) (by dsimp only; omega)
        refine ih.map_right (data.map .plain ++ ·) ?_ ?_
        · have := piecesP_plain (m + 1 - span) (i.skip span).rest f.compact data hplain
          rw [hlen, ← hsplit, Nat.sub_add_cancel (by omega)] at this
          exact this
        · rintro _ t2 _ f2 ⟨hrel2, hstep2⟩
          exact ⟨hrel2, by simpa using (step_input t (i.skip span)).trans hstep2⟩
      · rw [if_neg hspan]
        have hvalue : ¬ isPlain value = true := by
          intro hp
          rw [plainKeySpan, if_pos hp] at hspan
          omega
        obtain ⟨rest, hf⟩ : ∃ rest, f.rest = value :: rest :=
          ⟨buffer ++ i.chunks.flatten, by rw [← hrest, Input.rest, hb]; rfl⟩
        obtain ⟨ha, hrel1⟩ := advance_ok hrel rfl (by rw [hb]; rfl) hf
        have htake : takeP f = some (value, { f with rest }) := by simp [takeP, hf]
        have hstep1 := step_input t i.advance
        refine Sim.bind_left ha (Sim.bind_right htake ?_)
        rw [if_neg hvalue]
        have hlen : rest.length < m := by simp only [hf, List.length_cons] at hm; omega
        have hlen' : rest.length < n := by simp only [hf, List.length_cons] at hn; omega
        by_cases hq : value = chQuote
        · rw [if_pos hq, if_pos hq]
          exact .of_pure ⟨hrel1, hstep1⟩
        rw [if_neg hq, if_neg hq]
        have next : ∀ {x : TapeM Unit} {p : P Piece},
            Sim JsonFault x p { t with input := i.advance } { f with rest }
              (Moves total { t with input := i.advance }) → Tame p →
            Sim JsonFault (x >>= fun _ => skipStringLoop n)
              (p >>= fun piece => piecesP m >>= fun rest => pure (piece :: rest))
              { t with input := i.advance } { f with rest } (Moves total t) := by
          intro x p hx hp
          refine hx.bind fun _ t2 piece f2 hpf hm2 => ?_
          have hle := hp.le hpf
          dsimp only at hle
          refine (skipStringLoop_sim n m t2 f2 hm2.1 (by omega) (by omega)).map_right (piece :: ·)
            ?_ ?_
          · show (piecesP m f2).bind _ = _
            cases piecesP m f2 <;> rfl
          · rintro _ t3 _ f3 ⟨hrel3, hstep3⟩
            exact ⟨hrel3, by simpa using (hstep1.trans hm2.2).trans hstep3⟩
        by_cases hctl : value < 0x20
        · rw [if_pos hctl]
          exact sim_fail _ (bind_eq_none (by simp [codedP, hctl]))
        rw [if_neg hctl]
        by_cases hbs : value = chBackslash
        · rw [if_pos hbs]
          have := next (skipEscape_sim hrel1) escapeP_closed.tame
          simpa only [codedP, if_neg hctl, if_pos hbs] using this
        rw [if_neg hbs]
        cases hlead : leadInfo value with
        | none =>
          exact sim_fail _ (bind_eq_none (by simp [codedP, hctl, hbs, hlead]))
        | some info =>
          obtain ⟨remaining, lo, hi⟩ := info
          have hcont := (skipContinuation_sim remaining lo hi _ _ hrel1).map_right
            (q := codedP value) (fun cs => .coded (value :: cs) (value :: cs)) (u := { f with rest })
            (Q := Moves total { t with input := i.advance }) (by
              simp only [codedP, if_neg hctl, if_neg hbs, hlead]
              show (continuationP remaining lo hi _).bind _ = _
              cases continuationP remaining lo hi { f with rest } <;> rfl) fun _ _ _ _ hm => hm
          exact next hcont (codedP_closed value).tame

theorem skipStringFast_sim (h : Rel total t f) :
    Sim JsonFault skipStringFast stringP t f (Moves total t) := by
  refine sim_bind_moves (takeExpected_sim h chQuote) fun _ t1 _ f1 _ h1 _ => ?_
  refine Sim.bind_left (a := t1) rfl (Sim.bind_right (get_apply f1) ?_)
  refine skipStringLoop_sim _ _ t1 f1 h1 ?_ (Nat.lt_succ_self _)
  rw [Input.size_eq, h1.rest]
  exact Nat.lt_succ_self _

theorem skipLiteralFast_sim : ∀ (text : Bytes) (t : Tape) (f : Flat), Rel total t f →
    Sim JsonFault (skipLiteralFast text) (literalP text) t f (Moves total t)
  | [], _, _, h => sim_done h _ _
  | c :: rest, _, _, h => sim_bind_moves (takeExpected_sim h c) fun _ t1 _ f1 _ h1 _ =>
    skipLiteralFast_sim rest t1 f1 h1

/-! ## Numbers -/

section NumberWith

/-! The two number scanners share their control flow; so do their proofs. `I` says what
holds between the bytes of a token, `J` what holds right after a peek, when the next
byte is in the buffer. -/

variable {σ : Type} {peekS : EStateM Err σ (Option UInt8)} {eat : UInt8 → EStateM Err σ Unit}
  {I J : Bytes → σ → Flat → Prop}

/-- The steps of a number scanner on a state that the parser knows as `Flat`. -/
structure NumberSteps (peekS : EStateM Err σ (Option UInt8)) (eat : UInt8 → EStateM Err σ Unit)
    (I J : Bytes → σ → Flat → Prop) : Prop where
  peek : ∀ token s f, I token s f → ∃ s', peekS s = .ok f.rest.head? s' ∧ J token s' f
  eat : ∀ token s f c rest, J token s f → f.rest = c :: rest →
    ∃ s', eat c s = .ok () s' ∧ I (token ++ [c]) s' { f with rest }

/-- A part of a number that starts and ends right after a peek. -/
def Part (J : Bytes → σ → Flat → Prop) (token : Bytes) (v : Option UInt8) (s' : σ) (b : Bytes)
    (f' : Flat) : Prop := v = f'.rest.head? ∧ J (token ++ b) s' f'

variable (hs : NumberSteps peekS eat I J)
include hs

/-- Take the byte that was peeked, and peek again. -/
theorem NumberSteps.next {token : Bytes} {s : σ} {f : Flat} {c : UInt8} {rest : Bytes}
    (h : J token s f) (hf : f.rest = c :: rest) :
    ∃ s', (do eat c; peekS : EStateM Err σ (Option UInt8)) s = .ok rest.head? s' ∧
      J (token ++ [c]) s' { f with rest } := by
  obtain ⟨s1, h1, hI⟩ := hs.eat token s f c rest h hf
  obtain ⟨s2, h2, hJ⟩ := hs.peek _ _ _ hI
  exact ⟨s2, by rw [bind_ok h1]; exact h2, hJ⟩

theorem NumberSteps.digits : ∀ (fuel : Nat) (token : Bytes) (s : σ) (f : Flat) (c : UInt8)
    (rest : Bytes), J token s f → f.rest = c :: rest → isDigit c = true → f.rest.length ≤ fuel →
    ∃ s', digitsLoop peekS eat fuel c s = .ok (f.rest.dropWhile isDigit).head? s' ∧
      J (token ++ f.rest.takeWhile isDigit) s' { f with rest := f.rest.dropWhile isDigit }
  | 0, _, _, f, _, _, _, hf, _, hlen => by simp [hf] at hlen
  | fuel + 1, token, s, f, c, rest, h, hf, hc, hlen => by
    obtain ⟨s1, h1, hI⟩ := hs.eat token s f c rest h hf
    obtain ⟨s2, h2, hJ⟩ := hs.peek _ _ _ hI
    have htake : f.rest.takeWhile isDigit = c :: rest.takeWhile isDigit := by
      rw [hf, List.takeWhile_cons_of_pos hc]
    have hdrop : f.rest.dropWhile isDigit = rest.dropWhile isDigit := by
      rw [hf, List.dropWhile_cons_of_pos hc]
    rw [htake, hdrop, digitsLoop, bind_ok h1, bind_ok h2]
    cases rest with
    | nil => exact ⟨s2, rfl, by simpa using hJ⟩
    | cons d rest =>
      simp only [List.head?_cons]
      by_cases hd : isDigit d = true
      · rw [if_pos hd]
        obtain ⟨s3, h3, hJ3⟩ := NumberSteps.digits fuel (token ++ [c]) s2 { f with rest := d :: rest } d
          rest hJ rfl hd (by simp only [hf, List.length_cons] at hlen ⊢; omega)
        exact ⟨s3, h3, by simpa using hJ3⟩
      · rw [if_neg hd]
        refine ⟨s2, ?_, ?_⟩
        · rw [List.dropWhile_cons_of_neg hd]
          rfl
        · rw [List.takeWhile_cons_of_neg hd, List.dropWhile_cons_of_neg hd]
          exact hJ

theorem NumberSteps.sign {token : Bytes} {s : σ} {f : Flat} (h : J token s f) :
    Sim JsonFault (signWith peekS eat f.rest.head?) signP s f (Part J token) := by
  have hp : peekP f = some (f.rest.head?, f) := rfl
  refine Sim.bind_right hp ?_
  rw [signWith]
  split
  · next hc =>
    cases hf : f.rest with
    | nil => rw [hf] at hc; cases hc
    | cons c rest =>
      rw [hf] at hc
      cases hc
      obtain ⟨s1, h1, hJ⟩ := hs.next h hf
      have htake : takeP f = some (chMinus, { f with rest }) := by simp [takeP, hf]
      exact .of_some (by rw [bind_eq htake]; rfl) h1 ⟨rfl, hJ⟩
  · exact .of_pure ⟨rfl, by simpa using h⟩

theorem NumberSteps.integer {token : Bytes} {s : σ} {f : Flat} {fuel : Nat} (h : J token s f)
    (hlen : f.rest.length ≤ fuel) :
    Sim JsonFault (integerWith peekS eat fuel f.rest.head?) integerP s f (Part J token) := by
  have hp : peekP f = some (f.rest.head?, f) := rfl
  refine Sim.bind_right hp ?_
  unfold integerWith
  cases hf : f.rest with
  | nil => exact .of_throw rfl rfl
  | cons c rest =>
    dsimp only [List.head?_cons]
    split
    · obtain ⟨s1, h1, hJ⟩ := hs.next h hf
      have htake : takeP f = some (c, { f with rest }) := by simp [takeP, hf]
      exact .of_some (by rw [bind_eq htake]; rfl) h1 ⟨rfl, hJ⟩
    split
    · next hd =>
      have hdig : isDigit c = true := isDigit_of_isDigit19 hd
      obtain ⟨s1, h1, hJ⟩ := hs.digits fuel token s f c rest h hf hdig hlen
      exact .of_some rfl h1 ⟨rfl, hJ⟩
    · exact .of_throw rfl rfl

theorem NumberSteps.digits1 {token : Bytes} {s : σ} {f : Flat} {fuel : Nat} (message : String)
    (h : J token s f) (hlen : f.rest.length ≤ fuel) :
    Sim JsonFault (digits1With peekS eat message fuel f.rest.head?) digits1P s f (Part J token) := by
  have hp : peekP f = some (f.rest.head?, f) := rfl
  refine Sim.bind_right hp ?_
  unfold digits1With
  cases hf : f.rest with
  | nil => exact .of_throw rfl rfl
  | cons c rest =>
    dsimp only [List.head?_cons]
    split
    · next hd =>
      obtain ⟨s1, h1, hJ⟩ := hs.digits fuel token s f c rest h hf hd hlen
      exact .of_some rfl h1 ⟨rfl, hJ⟩
    · exact .of_throw rfl rfl

theorem NumberSteps.fraction {token : Bytes} {s : σ} {f : Flat} {fuel : Nat} (h : J token s f)
    (hlen : f.rest.length ≤ fuel) :
    Sim JsonFault (fractionWith peekS eat fuel f.rest.head?) fractionP s f (Part J token) := by
  have hp : peekP f = some (f.rest.head?, f) := rfl
  refine Sim.bind_right hp ?_
  rw [fractionWith]
  split
  · next hc =>
    cases hf : f.rest with
    | nil => rw [hf] at hc; cases hc
    | cons c rest =>
      rw [hf] at hc
      cases hc
      obtain ⟨s1, h1, hI⟩ := hs.eat token s f chDot rest h hf
      obtain ⟨s2, h2, hJ⟩ := hs.peek _ _ _ hI
      have htake : takeP f = some (chDot, { f with rest }) := by simp [takeP, hf]
      refine Sim.bind_left h1 (Sim.bind_left h2 (Sim.bind_right htake ?_))
      refine (hs.digits1 "invalid JSON fraction" hJ (by
        simp only [hf, List.length_cons] at hlen
        dsimp only
        omega)).map_right (chDot :: ·) ?_ ?_
      · show (digits1P _).bind _ = _
        cases digits1P { f with rest } <;> rfl
      · rintro v s3 b f3 ⟨rfl, hJ3⟩
        exact ⟨rfl, by simpa using hJ3⟩
  · exact .of_pure ⟨rfl, by simpa using h⟩

theorem NumberSteps.exponentSign {token : Bytes} {s : σ} {f : Flat} (h : J token s f) :
    Sim JsonFault (exponentSignWith peekS eat f.rest.head?) exponentSignP s f (Part J token) := by
  have hp : peekP f = some (f.rest.head?, f) := rfl
  refine Sim.bind_right hp ?_
  unfold exponentSignWith
  cases hf : f.rest with
  | nil => exact .of_pure ⟨by rw [hf]; rfl, by simpa using h⟩
  | cons c rest =>
    dsimp only [List.head?_cons]
    split
    · obtain ⟨s1, h1, hJ⟩ := hs.next h hf
      have htake : takeP f = some (c, { f with rest }) := by simp [takeP, hf]
      exact .of_some (by rw [bind_eq htake]; rfl) h1 ⟨rfl, hJ⟩
    · exact .of_pure ⟨by rw [hf]; rfl, by simpa using h⟩

theorem NumberSteps.exponent {token : Bytes} {s : σ} {f : Flat} {fuel : Nat} (h : J token s f)
    (hlen : f.rest.length ≤ fuel) :
    Sim JsonFault (exponentWith peekS eat fuel f.rest.head?) exponentP s f (Part J token) := by
  have hp : peekP f = some (f.rest.head?, f) := rfl
  refine Sim.bind_right hp ?_
  unfold exponentWith
  cases hf : f.rest with
  | nil => exact .of_pure ⟨by rw [hf]; rfl, by simpa using h⟩
  | cons c rest =>
    dsimp only [List.head?_cons]
    split
    · obtain ⟨s1, h1, hI⟩ := hs.eat token s f c rest h hf
      obtain ⟨s2, h2, hJ⟩ := hs.peek _ _ _ hI
      have htake : takeP f = some (c, { f with rest }) := by simp [takeP, hf]
      refine Sim.bind_left h1 (Sim.bind_left h2 (Sim.bind_right htake ?_))
      refine (hs.exponentSign hJ).bind fun v s3 sign f3 he hm => ?_
      obtain ⟨rfl, hJ3⟩ := hm
      have hle := exponentSignP_tame.le he
      refine (hs.digits1 "invalid JSON exponent" hJ3 (by
        simp only [hf, List.length_cons] at hlen
        dsimp only at hle
        omega)).map_right (fun digits => c :: (sign ++ digits)) ?_ ?_
      · show (digits1P _).bind _ = _
        cases digits1P f3 <;> rfl
      · rintro v s4 b f4 ⟨rfl, hJ4⟩
        exact ⟨rfl, by simpa using hJ4⟩
    · exact .of_pure ⟨by rw [hf]; rfl, by simpa using h⟩

/-- **A number scanner reads one number token**, and has handed on its bytes in order. -/
theorem NumberSteps.number {s : σ} {f : Flat} {fuel : Nat} (h : I [] s f)
    (hlen : f.rest.length ≤ fuel) :
    Sim JsonFault (numberWith peekS eat fuel) numberP s f fun _ s' token f' => J token s' f' := by
  obtain ⟨s0, h0, hJ⟩ := hs.peek _ _ _ h
  refine Sim.bind_left h0 ((hs.sign hJ).bind fun v s1 sign f1 e1 hm1 => ?_)
  obtain ⟨rfl, hJ1⟩ := hm1
  have l1 := signP_tame.le e1
  refine (hs.integer hJ1 (Nat.le_trans l1 hlen)).bind fun v s2 int f2 e2 hm2 => ?_
  obtain ⟨rfl, hJ2⟩ := hm2
  have l2 := integerP_tame.le e2
  refine (hs.fraction hJ2 (by omega)).bind fun v s3 frac f3 e3 hm3 => ?_
  obtain ⟨rfl, hJ3⟩ := hm3
  have l3 := fractionP_tame.le e3
  refine (hs.exponent hJ3 (by omega)).bind fun v s4 exp f4 e4 hm4 => ?_
  obtain ⟨rfl, hJ4⟩ := hm4
  exact .of_pure (by simpa using hJ4)

end NumberWith

theorem skipNumberFast_sim (h : Rel total t f) :
    Sim JsonFault skipNumberFast numberP t f (Moves total t) := by
  have steps : NumberSteps peek (fun _ => advance)
      (fun _ s f => Rel total s f ∧ Step t s [])
      (fun _ s f => (Rel total s f ∧ Step t s []) ∧ s.input.buffer.head? = f.rest.head?) := by
    refine ⟨fun _ s f ⟨hrel, hstep⟩ => ?_, fun _ s f c rest ⟨⟨hrel, hstep⟩, hhead⟩ hf => ?_⟩
    · obtain ⟨i, hx, hok, hrest, hhead⟩ := peek_ok hrel
      exact ⟨_, hx, ⟨hrel.input hok hrest, by simpa using hstep.trans (step_input s i)⟩, hhead⟩
    · obtain ⟨ha, hrel'⟩ := advance_ok hrel rfl (by rw [hhead, hf]; rfl) hf
      exact ⟨_, ha, hrel', by simpa using hstep.trans (step_input s _)⟩
  refine Sim.bind_left (a := t) rfl ?_
  refine (steps.number ⟨h, .refl t⟩ ?_).mono fun _ s' token f' hm => hm.1
  rw [Input.size_eq, h.rest]
  exact Nat.le_succ _

/-! ## Containers -/

/-- The nesting limit as a check. -/
def checkFits (d : Nat) (v : Value) : Option Unit := if v.fits maxDepth d then some () else none

def checkMembers (d : Nat) (ms : Members) : Option Unit :=
  if ms.fits maxDepth d then some () else none

def checkElements (d : Nat) (es : Elements) : Option Unit :=
  if es.fits maxDepth d then some () else none

/-- The step moved the tape with the parser, put nothing out, and left a container. -/
def Leaves (total : Nat) (t : Tape) {α β : Type} (_ : α) (t' : Tape) (_ : β) (f' : Flat) : Prop :=
  Rel total t' f' ∧ Step { t with depth := t.depth - 1 } t' []

theorem leave_ok (h : Rel total t f) :
    leave t = .ok () { t with depth := t.depth - 1 } ∧
      Rel total { t with depth := t.depth - 1 } f :=
  ⟨rfl, h.ok, h.emit, h.rest, h.compact⟩

theorem enter_ok (h : Rel total t f) (hd : t.depth < maxDepth) :
    enter t = .ok () { t with depth := t.depth + 1 } ∧
      Rel total { t with depth := t.depth + 1 } f := by
  refine ⟨?_, h.ok, h.emit, h.rest, h.compact⟩
  have hne : t.depth ≠ maxDepth := Nat.ne_of_lt hd
  rw [enter, get_bind]
  dsimp only
  rw [if_neg hne]
  rfl

theorem enter_error (hd : t.depth = maxDepth) :
    enter t = .error (.json "JSON nesting exceeds the scanner limit") t := by
  rw [enter, get_bind]
  dsimp only
  rw [if_pos hd]
  rfl

section Containers

variable {p : P Value} {skip : TapeM Unit} {d : Nat}

/-- The skipper of the nested values, at the depth of the members. -/
def SkipsAt (total d : Nat) (skip : TapeM Unit) (p : P Value) : Prop :=
  ∀ t f, Rel total t f → t.depth = d →
    Sim JsonFault skip (p >>= fun v => liftO (checkFits d v)) t f (Moves total t)

/-- Close a container: the last byte has been taken. -/
theorem sim_leave {β : Type} {t : Tape} {f : Flat} (h : Rel total t f) (b : β) :
    Sim JsonFault leave (pure b) t f (Leaves total t) :=
  .of_some rfl (leave_ok h).1 ⟨(leave_ok h).2, .refl _⟩

theorem Leaves.of_step {α β : Type} {t t1 t2 : Tape} {a : α} {b : β} {f2 : Flat}
    (hs : Step t t1 []) (h : Leaves total t1 a t2 b f2) : Leaves total t a t2 b f2 := by
  refine ⟨h.1, ?_⟩
  have h3 : Step { t with depth := t.depth - 1 } { t1 with depth := t1.depth - 1 } [] :=
    ⟨hs.out, by rw [hs.depth], hs.active⟩
  simpa using h3.trans h.2

theorem sim_bind_leaves {α β γ δ : Type} {x : TapeM α} {q : P β} {k : α → TapeM γ} {r : β → P δ}
    {t : Tape} {f : Flat} (hx : Sim JsonFault x q t f (Moves total t))
    (hk : ∀ a t' b f', q f = some (b, f') → Rel total t' f' → t'.depth = t.depth →
      Sim JsonFault (k a) (r b) t' f' (Leaves total t')) :
    Sim JsonFault (x >>= k) (q >>= r) t f (Leaves total t) := by
  exact hx.bind fun a t' b f' hp hm => (hk a t' b f' hp hm.1 hm.2.depth).mono
    fun _ _ _ _ h2 => h2.of_step hm.2

theorem sim_read_leaves {α γ δ : Type} {x : TapeM α} {q : P α} {k : α → TapeM γ} {r : α → P δ}
    {t : Tape} {f : Flat} (hx : Sim JsonFault x q t f (Reads total t))
    (hk : ∀ a t' f', q f = some (a, f') → Rel total t' f' → t'.depth = t.depth →
      Sim JsonFault (k a) (r a) t' f' (Leaves total t')) :
    Sim JsonFault (x >>= k) (q >>= r) t f (Leaves total t) := by
  refine hx.bind fun a t' b f' hp hm => ?_
  obtain ⟨rfl, hrel, hstep⟩ := hm
  exact (hk a t' f' hp hrel hstep.depth).mono fun _ _ _ _ h2 => h2.of_step hstep

/-- A peek that the parser does without. -/
theorem sim_peek_leaves {γ δ : Type} {k : Option UInt8 → TapeM γ} {r : P δ} {t : Tape} {f : Flat}
    (h : Rel total t f) (hk : ∀ i, Rel total { t with input := i } f →
      Sim JsonFault (k f.rest.head?) r { t with input := i } f (Leaves total { t with input := i })) :
    Sim JsonFault (peek >>= k) r t f (Leaves total t) := by
  obtain ⟨i, hx, hok, hrest, -⟩ := peek_ok h
  exact .bind_left hx ((hk i (h.input hok hrest)).mono fun _ _ _ _ h2 =>
    h2.of_step (step_input t i))

theorem checked_memberEndP {ω : Type} {r : P Members} {key : Str} {v : Value} {g : Members → Option ω}
    (hg : ∀ rest, g (.cons key v rest) = none) (f : Flat) :
    (memberEndP r key v >>= fun ms => liftO (g ms)) f = none := by
  cases h : memberEndP r key v f with
  | none => exact bind_eq_none h
  | some x =>
    obtain ⟨rest, hms⟩ := memberEndP_some h
    rw [bind_eq h, hms, hg]
    rfl

theorem checked_elementEndP {ω : Type} {r : P Elements} {v : Value} {g : Elements → Option ω}
    (hg : ∀ rest, g (.cons v rest) = none) (f : Flat) :
    (elementEndP r v >>= fun es => liftO (g es)) f = none := by
  cases h : elementEndP r v f with
  | none => exact bind_eq_none h
  | some x =>
    obtain ⟨rest, hes⟩ := elementEndP_some h
    rw [bind_eq h, hes, hg]
    rfl

theorem checkFits_some {v : Value} {w : Unit} (h : checkFits d v = some w) :
    v.fits maxDepth d = true := by
  rw [checkFits] at h
  split at h
  · assumption
  · cases h

theorem checkFits_none {v : Value} (h : checkFits d v = none) : v.fits maxDepth d = false := by
  rw [checkFits] at h
  split at h
  · cases h
  · next hv => simpa using hv

theorem checkMembers_cons {key : Str} {v : Value} (h : v.fits maxDepth d = true) (rest : Members) :
    checkMembers d (.cons key v rest) = checkMembers d rest := by
  simp [checkMembers, Members.fits, h]

theorem checkElements_cons {v : Value} (h : v.fits maxDepth d = true) (rest : Elements) :
    checkElements d (.cons v rest) = checkElements d rest := by
  simp [checkElements, Elements.fits, h]

theorem skipMembers_sim (hskip : SkipsAt total d skip p) : ∀ (fuel : Nat) (t : Tape) (f : Flat),
    Rel total t f → t.depth = d →
    Sim JsonFault (skipMembers skip fuel f.rest.head?)
      (membersP p fuel >>= fun ms => liftO (checkMembers d ms)) t f (Leaves total t)
  | 0, _, _, _, _ => .of_throw rfl rfl
  | fuel + 1, t, f, h, hd => by
    rw [skipMembers]
    by_cases hq : f.rest.head? = some chQuote
    · simp only [membersP, bind_assoc, hq, ne_eq, not_true_eq_false, if_false]
      refine sim_bind_leaves (skipStringFast_sim h) fun _ t1 key f1 _ h1 d1 => ?_
      refine sim_bind_leaves (skipSpace_sim h1) fun _ t2 _ f2 _ h2 d2 => ?_
      refine sim_bind_leaves (takeExpected_sim h2 _) fun _ t3 _ f3 _ h3 d3 => ?_
      refine sim_bind_leaves (skipSpace_sim h3) fun _ t4 _ f4 _ h4 d4 => ?_
      refine (hskip t4 f4 h4 (by omega)).bind_check (fun v f5 _ hv => ?_)
        fun _ t5 v f5 w _ hv hm => ?_
      · have := checkFits_none hv
        exact checked_memberEndP (fun rest => by simp [checkMembers, Members.fits, this]) f5
      · have hfit := checkFits_some hv
        refine Sim.mono (P := Leaves total t5) ?_ fun _ _ _ _ h2 => h2.of_step hm.2
        have d5 := hm.2.depth
        simp only [memberEndP, bind_assoc]
        refine sim_bind_leaves (skipSpace_sim hm.1) fun _ t6 _ f6 _ h6 d6 => ?_
        refine sim_read_leaves (take_sim h6) fun c t7 f7 _ h7 d7 => ?_
        by_cases hc : c = chRBrace
        · rw [if_pos hc, if_pos hc, pure_bind, checkMembers_cons hfit]
          exact sim_leave h7 ()
        rw [if_neg hc, if_neg hc]
        by_cases hc' : c ≠ chComma
        · rw [if_pos hc', if_pos hc']
          exact .of_throw rfl rfl
        rw [if_neg hc', if_neg hc']
        simp only [bind_assoc, pure_bind, checkMembers_cons hfit]
        refine sim_bind_leaves (skipSpace_sim h7) fun _ t8 _ f8 _ h8 d8 => ?_
        exact sim_peek_leaves h8 fun i h9 => skipMembers_sim hskip fuel _ f8 h9 (by
          dsimp only
          omega)
    · rw [if_pos hq]
      refine .of_none (bind_eq_none (bind_eq_none (stringP_none hq))) ⟨_, t, rfl, rfl⟩

theorem skipElements_sim (hskip : SkipsAt total d skip p) : ∀ (fuel : Nat) (t : Tape) (f : Flat),
    Rel total t f → t.depth = d →
    Sim JsonFault (skipElements skip fuel)
      (elementsP p fuel >>= fun es => liftO (checkElements d es)) t f (Leaves total t)
  | 0, _, _, _, _ => .of_throw rfl rfl
  | fuel + 1, t, f, h, hd => by
    simp only [skipElements, elementsP, bind_assoc]
    refine (hskip t f h hd).bind_check (fun v f5 _ hv => ?_) fun _ t5 v f5 w _ hv hm => ?_
    · have := checkFits_none hv
      exact checked_elementEndP (fun rest => by simp [checkElements, Elements.fits, this]) f5
    · have hfit := checkFits_some hv
      refine Sim.mono (P := Leaves total t5) ?_ fun _ _ _ _ h2 => h2.of_step hm.2
      have d5 := hm.2.depth
      simp only [elementEndP, bind_assoc]
      refine sim_bind_leaves (skipSpace_sim hm.1) fun _ t6 _ f6 _ h6 d6 => ?_
      refine sim_read_leaves (take_sim h6) fun c t7 f7 _ h7 d7 => ?_
      by_cases hc : c = chRBracket
      · rw [if_pos hc, if_pos hc, pure_bind, checkElements_cons hfit]
        exact sim_leave h7 ()
      rw [if_neg hc, if_neg hc]
      by_cases hc' : c ≠ chComma
      · rw [if_pos hc', if_pos hc']
        exact .of_throw rfl rfl
      rw [if_neg hc', if_neg hc']
      simp only [bind_assoc, pure_bind, checkElements_cons hfit]
      refine sim_bind_leaves (skipSpace_sim h7) fun _ t8 _ f8 _ h8 d8 => ?_
      exact skipElements_sim hskip fuel _ f8 h8 (by omega)

/-- From inside a container back to the depth it was entered at. -/
theorem Leaves.moves {α β : Type} {t t' : Tape} {a : α} {b : β} {f' : Flat}
    (h : Leaves total { t with depth := t.depth + 1 } a t' b f') : Moves total t a t' b f' :=
  ⟨h.1, h.2⟩

/-- A check that refuses whatever value a parser can return. -/
theorem checked_none {ω : Type} {q : P Value} {g : Value → Option ω} {f : Flat}
    (hg : ∀ v f', q f = some (v, f') → g v = none) : (q >>= fun v => liftO (g v)) f = none := by
  cases h : q f with
  | none => exact bind_eq_none h
  | some x =>
    rw [bind_eq h, hg x.1 x.2 h]
    rfl

theorem head_eq_cons {f : Flat} {c : UInt8} (h : f.rest.head? = some c) :
    ∃ rest, f.rest = c :: rest := by
  cases hr : f.rest with
  | nil => rw [hr] at h; cases h
  | cons d rest => rw [hr] at h; cases h; exact ⟨rest, rfl⟩

theorem takeP_cons {f : Flat} {c : UInt8} {rest : Bytes} (h : f.rest = c :: rest) :
    takeP f = some (c, { f with rest }) := by simp [takeP, h]

theorem skipObjectFast_sim {fuel : Nat} (hskip : d < maxDepth → SkipsAt total (d + 1) skip p)
    (h : Rel total t f) (hd : t.depth = d) (hle : d ≤ maxDepth) :
    Sim JsonFault (skipObjectFast skip fuel) (objectP p fuel >>= fun v => liftO (checkFits d v)) t f
      (Moves total t) := by
  by_cases hmax : t.depth < maxDepth
  · simp only [skipObjectFast, objectP, bind_assoc]
    obtain ⟨he, h1⟩ := enter_ok h hmax
    have hlt : d < maxDepth := hd ▸ hmax
    refine Sim.bind_left he (Sim.mono (P := Leaves total { t with depth := t.depth + 1 }) ?_
      fun _ _ _ _ h2 => h2.moves)
    refine sim_bind_leaves (takeExpected_sim h1 _) fun _ t2 _ f2 _ h2 d2 => ?_
    refine sim_bind_leaves (skipSpace_sim h2) fun _ t3 _ f3 _ h3 d3 => ?_
    obtain ⟨i, hx, hok, hrest, hhead⟩ := peek_ok h3
    have h4 := h3.input hok hrest
    refine Sim.bind_left hx (Sim.bind_right (show peekP f3 = some (f3.rest.head?, f3) from rfl)
      (Sim.mono (P := Leaves total { t3 with input := i }) ?_
        fun _ _ _ _ h2 => h2.of_step (step_input t3 i)))
    by_cases hc : f3.rest.head? = some chRBrace
    · rw [if_pos hc, if_pos hc]
      obtain ⟨rest, hr⟩ := head_eq_cons hc
      obtain ⟨ha, h5⟩ := advance_ok h4 rfl (hhead.trans hc) hr
      refine Sim.bind_left ha ?_
      simp only [bind_assoc, pure_bind]
      refine Sim.bind_right (takeP_cons hr) ?_
      have hcheck : checkFits d (.obj .nil) = some () := by
        simp [checkFits, Value.fits, Members.fits, hlt]
      rw [hcheck]
      exact (sim_leave h5 ()).mono fun _ _ _ _ h2 => h2.of_step (step_input _ _)
    · rw [if_neg hc, if_neg hc]
      simp only [bind_assoc, pure_bind]
      have hcheck : ∀ ms, checkFits d (.obj ms) = checkMembers (d + 1) ms := fun ms => by
        simp [checkFits, checkMembers, Value.fits, hlt]
      simp only [hcheck]
      exact skipMembers_sim (hskip hlt) fuel _ f3 h4 (by dsimp only at d2 d3 ⊢; omega)
  · refine .of_none (checked_none fun v f' hv => ?_)
      ⟨_, t, bind_error (enter_error (by omega)) _, rfl⟩
    obtain ⟨ms, rfl⟩ := objectP_some hv
    have : ¬ d < maxDepth := by omega
    simp [checkFits, Value.fits, this]

theorem skipArrayFast_sim {fuel : Nat} (hskip : d < maxDepth → SkipsAt total (d + 1) skip p)
    (h : Rel total t f) (hd : t.depth = d) (hle : d ≤ maxDepth) :
    Sim JsonFault (skipArrayFast skip fuel) (arrayP p fuel >>= fun v => liftO (checkFits d v)) t f
      (Moves total t) := by
  by_cases hmax : t.depth < maxDepth
  · simp only [skipArrayFast, arrayP, bind_assoc]
    obtain ⟨he, h1⟩ := enter_ok h hmax
    have hlt : d < maxDepth := hd ▸ hmax
    refine Sim.bind_left he (Sim.mono (P := Leaves total { t with depth := t.depth + 1 }) ?_
      fun _ _ _ _ h2 => h2.moves)
    refine sim_bind_leaves (takeExpected_sim h1 _) fun _ t2 _ f2 _ h2 d2 => ?_
    refine sim_bind_leaves (skipSpace_sim h2) fun _ t3 _ f3 _ h3 d3 => ?_
    obtain ⟨i, hx, hok, hrest, hhead⟩ := peek_ok h3
    have h4 := h3.input hok hrest
    refine Sim.bind_left hx (Sim.bind_right (show peekP f3 = some (f3.rest.head?, f3) from rfl)
      (Sim.mono (P := Leaves total { t3 with input := i }) ?_
        fun _ _ _ _ h2 => h2.of_step (step_input t3 i)))
    by_cases hc : f3.rest.head? = some chRBracket
    · rw [if_pos hc, if_pos hc]
      obtain ⟨rest, hr⟩ := head_eq_cons hc
      obtain ⟨ha, h5⟩ := advance_ok h4 rfl (hhead.trans hc) hr
      refine Sim.bind_left ha ?_
      simp only [bind_assoc, pure_bind]
      refine Sim.bind_right (takeP_cons hr) ?_
      have hcheck : checkFits d (.arr .nil) = some () := by
        simp [checkFits, Value.fits, Elements.fits, hlt]
      rw [hcheck]
      exact (sim_leave h5 ()).mono fun _ _ _ _ h2 => h2.of_step (step_input _ _)
    · rw [if_neg hc, if_neg hc]
      simp only [bind_assoc, pure_bind]
      have hcheck : ∀ es, checkFits d (.arr es) = checkElements (d + 1) es := fun es => by
        simp [checkFits, checkElements, Value.fits, hlt]
      simp only [hcheck]
      exact skipElements_sim (hskip hlt) fuel _ f3 h4 (by dsimp only at d2 d3 ⊢; omega)
  · refine .of_none (checked_none fun v f' hv => ?_)
      ⟨_, t, bind_error (enter_error (by omega)) _, rfl⟩
    obtain ⟨es, rfl⟩ := arrayP_some hv
    have : ¬ d < maxDepth := by omega
    simp [checkFits, Value.fits, this]

end Containers

/-- A parsed scalar passes the nesting check. -/
theorem sim_scalar {α β : Type} {x : TapeM α} {q : P β} {g : β → Value} {d : Nat} {t : Tape} {f : Flat}
    (hx : Sim JsonFault x q t f (Moves total t)) (hg : ∀ b, (g b).fits maxDepth d = true) :
    Sim JsonFault x ((do let b ← q; return g b) >>= fun v => liftO (checkFits d v)) t f
      (Moves total t) := by
  refine hx.map_right (fun _ => ()) ?_ fun _ _ _ _ hm => hm
  simp only [bind_assoc, pure_bind]
  cases hq : q f with
  | none => exact bind_eq_none hq
  | some r =>
    rw [bind_eq hq, checkFits, if_pos (hg r.1)]
    rfl

/-- **The skipper accepts the documents that fit**, and moves behind them. -/
theorem skipValueFast_sim : ∀ (fuel d : Nat) (t : Tape) (f : Flat), Rel total t f → t.depth = d →
    d ≤ maxDepth →
    Sim JsonFault (skipValueFast fuel) (valueP fuel >>= fun v => liftO (checkFits d v)) t f
      (Moves total t)
  | 0, _, _, _, _, _, _ => .of_throw rfl rfl
  | fuel + 1, d, t, f, h, hd, hle => by
    have inner : d < maxDepth → SkipsAt total (d + 1) (skipValueFast fuel) (valueP fuel) :=
      fun hlt t f h hd => skipValueFast_sim fuel (d + 1) t f h hd hlt
    obtain ⟨i, hx, hok, hrest, hhead⟩ := peek_ok h
    have h1 := h.input hok hrest
    simp only [skipValueFast, valueP, bind_assoc]
    refine Sim.bind_left hx (Sim.bind_right (show peekP f = some (f.rest.head?, f) from rfl)
      (Sim.mono (P := Moves total { t with input := i }) ?_
        fun _ _ _ _ h2 => ⟨h2.1, by simpa using (step_input t i).trans h2.2⟩))
    cases hc : f.rest.head? with
    | none =>
      have hnil : f.rest = [] := by simpa using hc
      have hnum : numberP f = none := by
        cases hn : numberP f with
        | none => rfl
        | some r =>
          have := numberP_eats _ _ _ hn
          rw [hnil] at this
          exact absurd this (Nat.not_lt_zero _)
      exact .of_none rfl ((skipNumberFast_sim h1).fails hnum)
    | some c =>
      dsimp only
      by_cases c1 : c = chLBrace
      · simp only [if_pos c1]
        exact skipObjectFast_sim inner h1 hd hle
      simp only [if_neg c1]
      by_cases c2 : c = chLBracket
      · simp only [if_pos c2]
        exact skipArrayFast_sim inner h1 hd hle
      simp only [if_neg c2]
      by_cases c3 : c = chQuote
      · simp only [if_pos c3]
        exact sim_scalar (skipStringFast_sim h1) fun _ => rfl
      simp only [if_neg c3]
      by_cases c4 : c = chT
      · simp only [if_pos c4]
        exact sim_scalar (g := fun _ => .lit .tt) (skipLiteralFast_sim _ _ _ h1) fun _ => rfl
      simp only [if_neg c4]
      by_cases c5 : c = chF
      · simp only [if_pos c5]
        exact sim_scalar (g := fun _ => .lit .ff) (skipLiteralFast_sim _ _ _ h1) fun _ => rfl
      simp only [if_neg c5]
      by_cases c6 : c = chN
      · simp only [if_pos c6]
        exact sim_scalar (g := fun _ => .lit .nul) (skipLiteralFast_sim _ _ _ h1) fun _ => rfl
      simp only [if_neg c6]
      exact sim_scalar (skipNumberFast_sim h1) fun _ => rfl

end Lql.Scan
