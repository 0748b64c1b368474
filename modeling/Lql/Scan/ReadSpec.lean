import Lql.Lib.Sim
import Lql.Json.Local
import Lql.Scan.Span

/-!
# Reading, against the parser

How the bytes arrive does not show. A reader that keeps its contract (no empty chunk
before the end, none above the buffer) is seen only through the bytes to come, and
every reading step of the scanner does what the parser does to those.
-/

namespace Lql.Scan

open Lib Json

/-- The bytes to come. -/
def Input.rest (i : Input) : Bytes := i.buffer ++ i.chunks.flatten

/-- What holds of an input over a well-behaved reader of `total` bytes. -/
structure Input.Ok (total : Nat) (i : Input) : Prop where
  chunks : ∀ c ∈ i.chunks, c ≠ [] ∧ c.length ≤ readBufferSize
  eof : i.eof = true → i.chunks = []
  total : i.bytesRead + i.chunks.flatten.length = total
  le : i.buffer.length ≤ i.bytesRead

theorem Input.size_eq (i : Input) : i.size = i.rest.length := by
  simp [Input.size, Input.rest]

/-- The bytes consumed so far, whatever the buffer holds. -/
theorem Input.Ok.consumed {total : Nat} {i : Input} (h : i.Ok total) :
    i.consumed = total - i.rest.length := by
  have h1 := h.total
  have h2 := h.le
  simp only [Input.consumed, Input.rest, List.length_append]
  omega

theorem Input.Ok.rest_le {total : Nat} {i : Input} (h : i.Ok total) : i.rest.length ≤ total := by
  have h1 := h.total
  have h2 := h.le
  simp only [Input.rest, List.length_append]
  omega

/-- A refill brings bytes unless there are none. -/
theorem Input.Ok.refill {total : Nat} {i : Input} (h : i.Ok total) :
    ∃ i', i.refill = .ok i' ∧ i'.Ok total ∧ i'.rest = i.rest ∧ (i'.buffer = [] → i.rest = []) := by
  unfold Input.refill
  split
  · next hb => exact ⟨i, rfl, h, rfl, fun hn => absurd hn hb⟩
  next hb =>
  have hb : i.buffer = [] := not_not.mp hb
  split
  · next he =>
    refine ⟨i, rfl, h, rfl, fun _ => ?_⟩
    rw [Input.rest, hb, h.eof he]
    rfl
  · split
    · next hc =>
      refine ⟨_, rfl, ⟨by simp [hc], fun _ => hc, h.total, h.le⟩, rfl,
        fun _ => ?_⟩
      rw [Input.rest, hb, hc]
      rfl
    · next chunk chunks hc =>
      have hchunk := h.chunks chunk (by rw [hc]; exact List.mem_cons_self)
      rw [if_neg (Nat.not_lt.mpr hchunk.2)]
      have htot := h.total
      have hle := h.le
      refine ⟨_, rfl, ⟨fun c hc' => h.chunks c (by rw [hc]; exact List.mem_cons_of_mem _ hc'), ?_, ?_,
        Nat.le_add_left _ _⟩, ?_, ?_⟩
      · intro he
        exact absurd (by simpa using he) hchunk.1
      · rw [hc, List.flatten_cons, List.length_append] at htot
        show i.bytesRead + chunk.length + chunks.flatten.length = total
        omega
      · simp [Input.rest, hb, hc]
      · intro he
        exact absurd he hchunk.1

theorem Input.Ok.advance {total : Nat} {i : Input} {c : UInt8} {b : Bytes} (h : i.Ok total)
    (hb : i.buffer = c :: b) : i.advance.Ok total ∧ i.rest = c :: i.advance.rest := by
  refine ⟨⟨h.chunks, h.eof, h.total, ?_⟩, ?_⟩
  · exact Nat.le_trans (by simp [Input.advance, hb]) h.le
  · simp [Input.rest, Input.advance, hb]

theorem Input.Ok.skip {total : Nat} {i : Input} (h : i.Ok total) (n : Nat) :
    (i.skip n).Ok total :=
  ⟨h.chunks, h.eof, h.total, Nat.le_trans (by simp [Input.skip]) h.le⟩

theorem Input.rest_skip (i : Input) (n : Nat) :
    i.rest = i.buffer.take n ++ (i.skip n).rest := by
  simp [Input.rest, Input.skip, ← List.append_assoc]

/-- The tape stands where the parser stands. -/
structure Rel (total : Nat) (t : Tape) (f : Flat) : Prop where
  ok : t.input.Ok total
  emit : t.emit.length ≤ emitBufferSize
  rest : t.input.rest = f.rest
  compact : t.compactRangeActive = true → t.compactRangeOk = f.compact

/-- What a tape has put out. -/
def Tape.out (t : Tape) : Bytes := t.spool ++ t.emit

/-- From `t` to `t'` the bytes `added` were put out, and the scanner is no deeper. -/
structure Step (t t' : Tape) (added : Bytes) : Prop where
  out : t'.out = t.out ++ added
  depth : t'.depth = t.depth
  active : t'.compactRangeActive = t.compactRangeActive

theorem Step.refl (t : Tape) : Step t t [] := ⟨by simp, rfl, rfl⟩

theorem Step.trans {t1 t2 t3 : Tape} {a b : Bytes} (h1 : Step t1 t2 a) (h2 : Step t2 t3 b) :
    Step t1 t3 (a ++ b) :=
  ⟨by rw [h2.out, h1.out, List.append_assoc], h2.depth.trans h1.depth, h2.active.trans h1.active⟩

/-- An error of the input: `LQL_STATUS_JSON_ERROR`. -/
def JsonFault (e : Err) : Prop := e.status = .jsonError

/-- The step moved the tape with the parser and put nothing out. -/
def Moves (total : Nat) (t : Tape) {α β : Type} (_ : α) (t' : Tape) (_ : β) (f' : Flat) : Prop :=
  Rel total t' f' ∧ Step t t' []

/-- The same, with the parser's answer. -/
def Reads (total : Nat) (t : Tape) {α : Type} (a : α) (t' : Tape) (b : α) (f' : Flat) : Prop :=
  a = b ∧ Rel total t' f' ∧ Step t t' []

section Steps

variable {total : Nat} {α β γ δ : Type}

/-- A quiet step, then more. -/
theorem sim_bind_moves {x : TapeM α} {p : P β} {k : α → TapeM γ} {q : β → P δ} {t : Tape} {f : Flat}
    (hx : Sim JsonFault x p t f (Moves total t))
    (hk : ∀ a t' b f', p f = some (b, f') → Rel total t' f' →
      t'.depth = t.depth → Sim JsonFault (k a) (q b) t' f' (Moves total t')) :
    Sim JsonFault (x >>= k) (p >>= q) t f (Moves total t) := by
  refine hx.bind fun a t' b f' hp hm => (hk a t' b f' hp hm.1 hm.2.depth).mono ?_
  intro _ t2 _ f2 h2
  exact ⟨h2.1, by simpa using hm.2.trans h2.2⟩

theorem sim_bind_reads {x : TapeM α} {p : P α} {k : α → TapeM γ} {q : α → P δ} {t : Tape} {f : Flat}
    (hx : Sim JsonFault x p t f (Reads total t))
    (hk : ∀ a t' f', p f = some (a, f') → Rel total t' f' → t'.depth = t.depth →
      Sim JsonFault (k a) (q a) t' f' (Moves total t')) :
    Sim JsonFault (x >>= k) (p >>= q) t f (Moves total t) := by
  refine hx.bind fun a t' b f' hp hm => ?_
  obtain ⟨rfl, hrel, hstep⟩ := hm
  refine (hk a t' f' hp hrel hstep.depth).mono ?_
  intro _ t2 _ f2 h2
  exact ⟨h2.1, by simpa using hstep.trans h2.2⟩

theorem Reads.moves {t : Tape} {a b : α} {t' : Tape} {f' : Flat} (h : Reads total t a t' b f') :
    Moves total t a t' b f' := h.2

theorem sim_fail {t : Tape} {f : Flat} {p : P β} {Q : α → Tape → β → Flat → Prop} (message : String)
    (hp : p f = none) : Sim JsonFault (jsonError message) p t f Q :=
  .of_none hp ⟨_, t, rfl, rfl⟩

theorem sim_done {t : Tape} {f : Flat} (h : Rel total t f) (a : α) (b : β) :
    Sim JsonFault (pure a) (pure b) t f (Moves total t) := .of_pure ⟨h, .refl t⟩

end Steps

/-! ## Single bytes -/

section Bytes

variable {total : Nat} {t : Tape} {f : Flat}

theorem Rel.input (h : Rel total t f) {i : Input} {rest : Bytes} (hi : i.Ok total)
    (hr : i.rest = rest) : Rel total { t with input := i } { f with rest } :=
  ⟨hi, h.emit, hr, h.compact⟩

theorem step_input (t : Tape) (i : Input) : Step t { t with input := i } [] := ⟨by simp [Tape.out], rfl, rfl⟩

/-- A refill: the buffer is empty only at the end. -/
theorem refill_ok (h : Rel total t f) :
    ∃ i, refill t = .ok () { t with input := i } ∧ i.Ok total ∧ i.rest = f.rest ∧
      (i.buffer = [] → f.rest = []) := by
  obtain ⟨i, hi, hok, hrest, hnil⟩ := h.ok.refill
  refine ⟨i, ?_, hok, hrest.trans h.rest, fun hb => h.rest ▸ hnil hb⟩
  simp [refill, hi]

theorem head_of_buffer {i : Input} (hr : i.rest = f.rest) (hn : i.buffer = [] → f.rest = []) :
    i.buffer.head? = f.rest.head? := by
  cases hb : i.buffer with
  | nil => rw [hn hb]
  | cons c b => rw [← hr, Input.rest, hb]; rfl

/-- A peek: its answer, and a buffer that shows it. -/
theorem peek_ok (h : Rel total t f) :
    ∃ i, peek t = .ok f.rest.head? { t with input := i } ∧ i.Ok total ∧ i.rest = f.rest ∧
      i.buffer.head? = f.rest.head? := by
  obtain ⟨i, hx, hok, hrest, hnil⟩ := refill_ok h
  have hhead := head_of_buffer hrest hnil
  refine ⟨i, ?_, hok, hrest, hhead⟩
  rw [peek, bind_ok hx]
  show EStateM.Result.ok i.buffer.head? _ = _
  rw [hhead]

theorem peek_sim (h : Rel total t f) : Sim JsonFault peek peekP t f (Reads total t) := by
  obtain ⟨i, hx, hok, hrest, -⟩ := peek_ok h
  exact .of_some rfl hx ⟨rfl, h.input hok hrest, step_input t i⟩

/-- Moving past the byte that the buffer shows. -/
theorem advance_ok {c : UInt8} {rest : Bytes} {i : Input} (h : Rel total t f)
    (ht : t.input = i) (hc : i.buffer.head? = some c) (hf : f.rest = c :: rest) :
    advance t = .ok () { t with input := i.advance } ∧
      Rel total { t with input := i.advance } { f with rest } := by
  subst ht
  obtain ⟨b, hb⟩ : ∃ b, t.input.buffer = c :: b := by
    cases hbuf : t.input.buffer with
    | nil => rw [hbuf] at hc; cases hc
    | cons d b => rw [hbuf] at hc; cases hc; exact ⟨b, rfl⟩
  obtain ⟨hok, hrest⟩ := h.ok.advance hb
  refine ⟨rfl, h.input hok ?_⟩
  rw [h.rest, hf] at hrest
  exact (List.cons.inj hrest).2.symm

theorem take_sim (h : Rel total t f) : Sim JsonFault take takeP t f (Reads total t) := by
  obtain ⟨i, hx, hok, hrest, hhead⟩ := peek_ok h
  cases hf : f.rest with
  | nil =>
    refine Sim.of_none (by simp [takeP, hf])
      ⟨.json "unexpected end of JSON input", { t with input := i }, ?_, rfl⟩
    rw [take, bind_ok hx, hf]
    rfl
  | cons c rest =>
    have hc : i.buffer.head? = some c := by rw [hhead, hf]; rfl
    obtain ⟨ha, hrel⟩ := advance_ok (h.input hok hrest) rfl hc hf
    refine Sim.of_some (u := { f with rest }) (by simp [takeP, hf]) (?_ : take t = .ok c _)
      ⟨rfl, hrel, step_input t _⟩
    rw [take, bind_ok hx, hf]
    show (advance >>= fun _ => pure c) _ = _
    rw [bind_ok ha]
    rfl

theorem takeExpected_sim (h : Rel total t f) (c : UInt8) :
    Sim JsonFault (takeExpected c) (expectP c) t f (Moves total t) := by
  refine sim_bind_reads (take_sim h) fun d t' f' _ h' _ => ?_
  split
  · exact sim_fail _ rfl
  · exact sim_done h' _ _

/-! ## Spaces -/

/-- What is left of the input behind its spaces. -/
def afterSpace (f : Flat) (skipped : Bool) : Flat :=
  let rest := f.rest.dropWhile isSpace
  { rest, compact := f.compact && (rest.isEmpty || (!skipped && rest.length = f.rest.length)) }

theorem skipSpaceLoop_ok : ∀ fuel skipped t f, Rel total t f → f.rest.length < fuel →
    ∃ t', skipSpaceLoop fuel skipped t = .ok () t' ∧ Rel total t' (afterSpace f skipped) ∧
      Step t t' [] ∧ t'.emit = t.emit
  | 0, _, _, _, _, hfuel => absurd hfuel (Nat.not_lt_zero _)
  | fuel + 1, skipped, t, f, h, hfuel => by
    obtain ⟨i, hx, hok, hrest, hhead⟩ := peek_ok h
    have hrel := h.input hok hrest
    rw [skipSpaceLoop, bind_ok hx]
    cases hf : f.rest with
    | nil =>
      refine ⟨{ t with input := i }, rfl, ?_, step_input t i, rfl⟩
      have : afterSpace f skipped = f := by
        obtain ⟨rest, compact⟩ := f
        simp_all [afterSpace]
      rw [this]
      exact hrel
    | cons c rest =>
      have hc : i.buffer.head? = some c := by rw [hhead, hf]; rfl
      simp only [List.head?_cons]
      by_cases hs : isSpace c = true
      · obtain ⟨ha, hrel'⟩ := advance_ok hrel rfl hc hf
        obtain ⟨t', hl, hrel2, hstep, hemit⟩ := skipSpaceLoop_ok fuel true _ _ hrel' (by
          simp only [hf, List.length_cons] at hfuel ⊢
          omega)
        refine ⟨t', ?_, ?_, ?_, hemit⟩
        · rw [if_pos hs, bind_ok ha]
          exact hl
        · have : afterSpace f skipped = afterSpace { f with rest } true := by
            have hle := (List.dropWhile_sublist (p := isSpace) (l := rest)).length_le
            have hlt : (List.dropWhile isSpace rest).length ≠ rest.length + 1 := by omega
            simp [afterSpace, hf, List.dropWhile_cons_of_pos hs, hlt]
          rw [this]
          exact hrel2
        · simpa using (step_input t i.advance).trans hstep
      · have hdrop : f.rest.dropWhile isSpace = f.rest := by
          rw [hf, List.dropWhile_cons_of_neg hs]
        rw [if_neg hs]
        cases skipped with
        | false =>
          refine ⟨{ t with input := i }, rfl, ?_, step_input t i, rfl⟩
          have : afterSpace f false = f := by simp [afterSpace, hdrop]
          rw [this]
          exact hrel
        | true =>
          have hafter : afterSpace f true = { f with compact := false } := by
            simp only [afterSpace, hdrop]
            simp [hf]
          rw [hafter]
          refine ⟨_, rfl, ?_, ?_, ?_⟩
          · cases ha : t.compactRangeActive with
            | true => exact ⟨by simpa [ha] using hok, by simpa [ha] using h.emit,
                by simpa [ha] using hrest, fun _ => by simp⟩
            | false => exact ⟨by simpa [ha] using hok, by simpa [ha] using h.emit,
                by simpa [ha] using hrest, fun hact => by simp at hact⟩
          · cases ha : t.compactRangeActive with
            | true => exact ⟨by simp [Tape.out], rfl, by simp [ha]⟩
            | false => exact ⟨by simp [Tape.out], rfl, by simp [ha]⟩
          · cases ha : t.compactRangeActive with
            | true => rfl
            | false => rfl

theorem skipSpace_sim (h : Rel total t f) : Sim JsonFault skipSpace spaceP t f (Moves total t) := by
  obtain ⟨t', hx, hrel, hstep, -⟩ := skipSpaceLoop_ok (t.input.size + 1) false t f h (by
    rw [Input.size_eq, h.rest]
    exact Nat.lt_succ_self _)
  have hafter : spaceP f = some ((), afterSpace f false) := by simp [spaceP, afterSpace]
  exact .of_some hafter hx ⟨hrel, hstep⟩

end Bytes

end Lql.Scan
