import Lql.Lib.Follow
import Lql.Scan.Keys
import Lql.Scan.ReadSpec

/-!
# Reading with more behind

Two inputs that begin alike, the first ending with a line end where the second goes on. As long as the first is not used up,
a step of the scanner cannot tell them apart: it looks at a byte at a time, or at a run of bytes that a line end stops.
-/

namespace Lql.Scan

open Lib Json

/-- Pieces of an input that ends with a line end, and pieces that go on where these end. -/
inductive Extended : List Bytes → List Bytes → Prop where
  | last (c x : Bytes) (more : List Bytes) : Extended [c ++ [chLF]] ((c ++ chLF :: x) :: more)
  | cons (b : Bytes) {l k : List Bytes} : Extended l k → Extended (b :: l) (b :: k)

/-- `i` and `j` have consumed as much, and `j` goes on where `i` ends. -/
structure Input.Shares (i j : Input) : Prop where
  pieces : Extended (i.buffer :: i.chunks) (j.buffer :: j.chunks)
  consumed : i.consumed = j.consumed
  ok : ∃ total, i.Ok total
  okBehind : ∃ total, j.Ok total

/-- The last piece is at hand, or it is still to come. -/
theorem Input.Shares.split {i j : Input} (h : i.Shares j) :
    (∃ c x, i.buffer = c ++ [chLF] ∧ i.chunks = [] ∧ j.buffer = c ++ chLF :: x) ∨
      j.buffer = i.buffer ∧ Extended i.chunks j.chunks := by
  obtain ⟨b, l, n, e⟩ := i
  obtain ⟨b', k, m, e'⟩ := j
  cases h.pieces with
  | last c x more => exact .inl ⟨c, x, rfl, rfl, rfl⟩
  | cons b h => exact .inr ⟨rfl, h⟩

theorem Extended.exists_cons {l k : List Bytes} (h : Extended l k) : ∃ b l' b' k', l = b :: l' ∧ k = b' :: k' := by
  cases h with
  | last c x more => exact ⟨_, _, _, _, rfl, rfl⟩
  | cons b h => exact ⟨_, _, _, _, rfl, rfl⟩

theorem Input.Ok.consumed_skip {total : Nat} {i : Input} (h : i.Ok total) (n : Nat) :
    (i.skip n).consumed = i.consumed + min n i.buffer.length := by
  have hle := h.le
  simp only [Input.consumed, Input.skip, List.length_drop]
  omega

theorem Input.advance_eq_skip (i : Input) : i.advance = i.skip 1 := by
  rw [Input.advance, Input.skip, List.drop_one]

/-- Both inputs move on by as much, and the first is not used up. -/
theorem Input.Shares.skip {i j : Input} (h : i.Shares j) {n : Nat} (hn : (i.skip n).rest ≠ []) :
    (i.skip n).Shares (j.skip n) := by
  obtain ⟨ti, hi⟩ := h.ok
  obtain ⟨tj, hj⟩ := h.okBehind
  have hconsumed := h.consumed
  rcases h.split with ⟨c, x, hb, hc, hb'⟩ | ⟨hb, hk⟩
  · have hle : n ≤ c.length := by
      by_contra hlt
      refine hn ?_
      rw [Input.rest, Input.skip, hb, hc, List.flatten_nil, List.append_nil, List.drop_eq_nil_iff, List.length_append,
        List.length_singleton]
      omega
    refine ⟨?_, ?_, ⟨ti, hi.skip n⟩, ⟨tj, hj.skip n⟩⟩
    · simp only [Input.skip, hb, hc, hb', List.drop_append_of_le_length hle]
      exact .last _ _ _
    · rw [hi.consumed_skip, hj.consumed_skip, hb, hb', hconsumed]
      simp only [List.length_append, List.length_cons]
      omega
  · refine ⟨?_, ?_, ⟨ti, hi.skip n⟩, ⟨tj, hj.skip n⟩⟩
    · simp only [Input.skip, hb]
      exact .cons _ hk
    · rw [hi.consumed_skip, hj.consumed_skip, hb, hconsumed]

/-- A refill brings the same byte to both. -/
theorem Input.Shares.refill {i j : Input} (h : i.Shares j) :
    ∃ i' j', i.refill = .ok i' ∧ j.refill = .ok j' ∧ i'.Shares j' ∧ i'.rest = i.rest ∧ i'.buffer ≠ [] := by
  obtain ⟨ti, hi⟩ := h.ok
  obtain ⟨tj, hj⟩ := h.okBehind
  by_cases hb : i.buffer = []
  · -- nothing is at hand, so the last piece is still to come
    obtain ⟨hb', hk⟩ : j.buffer = i.buffer ∧ Extended i.chunks j.chunks := by
      rcases h.split with ⟨c, x, hbc, -, -⟩ | hsame
      · rw [hb] at hbc
        exact absurd hbc.symm (by simp)
      · exact hsame
    obtain ⟨b, l, b', k, hl, hk'⟩ := hk.exists_cons
    have hiEof : ¬ i.eof = true := fun he => by rw [hi.eof he] at hl; cases hl
    have hjEof : ¬ j.eof = true := fun he => by rw [hj.eof he] at hk'; cases hk'
    have hib := hi.chunks b (by rw [hl]; exact List.mem_cons_self)
    have hjb := hj.chunks b' (by rw [hk']; exact List.mem_cons_self)
    have hri : i.refill = .ok ⟨b, l, i.bytesRead + b.length, b = []⟩ := by
      rw [Input.refill, if_neg (by simp [hb]), if_neg hiEof, hl]
      exact if_neg (Nat.not_lt.mpr hib.2)
    have hrj : j.refill = .ok ⟨b', k, j.bytesRead + b'.length, b' = []⟩ := by
      rw [Input.refill, if_neg (by simp [hb', hb]), if_neg hjEof, hk']
      exact if_neg (Nat.not_lt.mpr hjb.2)
    obtain ⟨i', hi1, hi2, hi3, -⟩ := hi.refill
    obtain ⟨j', hj1, hj2, -, -⟩ := hj.refill
    cases hri.symm.trans hi1
    cases hrj.symm.trans hj1
    refine ⟨_, _, hi1, hj1, ⟨by rw [hl, hk'] at hk; exact hk, ?_, ⟨ti, hi2⟩, ⟨tj, hj2⟩⟩, hi3, hib.1⟩
    have hconsumed := h.consumed
    simp only [Input.consumed, hb', hb, List.length_nil] at hconsumed ⊢
    omega
  · have hb' : j.buffer ≠ [] := by
      rcases h.split with ⟨c, x, -, -, hjb⟩ | ⟨hjb, -⟩
      · rw [hjb]
        simp
      · rw [hjb]
        exact hb
    exact ⟨i, j, if_pos hb, if_pos hb', h, rfl, hb⟩

/-- What a scanner sees of the byte at hand. -/
theorem Input.Shares.head {i j : Input} (h : i.Shares j) : j.buffer.head? = i.buffer.head? := by
  rcases h.split with ⟨c, x, hi, -, hj⟩ | ⟨hj, -⟩
  · rw [hi, hj]
    cases c <;> rfl
  · rw [hj]

/-- There is as much to come at least. -/
theorem Input.Shares.size_le {i j : Input} (h : i.Shares j) : i.size ≤ j.size := by
  have hle : ∀ {l k : List Bytes}, Extended l k → l.flatten.length ≤ k.flatten.length := by
    intro l k hlk
    induction hlk with
    | last c x more => simp
    | cons b _ ih => simpa using ih
  have := hle h.pieces
  rwa [List.flatten_cons, List.flatten_cons, List.length_append, List.length_append] at this

/-- A run of plain bytes ends in front of a line end. -/
theorem plainKeySpan_line (c x : Bytes) : plainKeySpan (c ++ chLF :: x) = plainKeySpan (c ++ [chLF]) := by
  induction c with
  | nil => rfl
  | cons b c ih => rw [List.cons_append, List.cons_append, plainKeySpan, plainKeySpan, ih]

theorem plainKeySpan_line_le (c x : Bytes) : plainKeySpan (c ++ chLF :: x) ≤ c.length := by
  induction c with
  | nil => exact Nat.le_refl 0
  | cons b c ih =>
    rw [List.cons_append, plainKeySpan, List.length_cons]
    split <;> omega

/-- What a scanner sees of a buffer: its first byte, the plain run at its front and the byte behind that. -/
structure SameFront (b b' : Bytes) : Prop where
  head : b'.head? = b.head?
  span : plainKeySpan b' = plainKeySpan b
  run : b'.take (plainKeySpan b) = b.take (plainKeySpan b)
  behind : b'[plainKeySpan b]? = b[plainKeySpan b]?

theorem sameFront_line (c x : Bytes) : SameFront (c ++ [chLF]) (c ++ chLF :: x) := by
  have hle := plainKeySpan_line_le c []
  refine ⟨by cases c <;> rfl, plainKeySpan_line c x, ?_, ?_⟩
  · rw [List.take_append_of_le_length hle, List.take_append_of_le_length hle]
  · rcases Nat.lt_or_eq_of_le hle with hlt | heq
    · rw [List.getElem?_append_left hlt, List.getElem?_append_left hlt]
    · simp [heq]

theorem Input.Shares.front {i j : Input} (h : i.Shares j) : SameFront i.buffer j.buffer := by
  rcases h.split with ⟨c, x, hi, -, hj⟩ | ⟨hj, -⟩
  · rw [hi, hj]
    exact sameFront_line c x
  · rw [hj]
    exact ⟨rfl, rfl, rfl, rfl⟩

/-- A key that lies in the one buffer lies in the other. -/
theorem Input.Shares.key {i j : Input} (h : i.Shares j) : plainKey j.buffer = plainKey i.buffer := by
  rcases h.split with ⟨c, x, hi, -, hj⟩ | ⟨hj, -⟩
  · rw [hi, hj]
    cases c with
    | nil => rfl
    | cons b c =>
      have hfront := sameFront_line c x
      simp only [List.cons_append, plainKey, hfront.span, hfront.run, hfront.behind]
  · rw [hj]

/-! ## The tape -/

/-- The tape over another input. -/
abbrev Tape.on (t : Tape) (j : Input) : Tape := { t with input := j }

/-- `u` is `t`, or it is `t` over an input that goes on. -/
def Tape.Longer (t u : Tape) : Prop := u = t ∨ ∃ j, u = t.on j ∧ t.input.Shares j

/-- There is something to come, and it ends with `w`. -/
def Tape.Live (w : Bytes) (t : Tape) : Prop := t.input.rest ≠ [] ∧ w <:+ t.input.rest

instance : Std.Refl Tape.Longer := ⟨fun _ => .inl rfl⟩

/-- `y` does on a longer input what `x` does, as long as something is left. -/
abbrev GoesOn {α : Type} (w : Bytes) (x y : TapeM α) : Prop := Follows Tape.Longer (Tape.Live w) x y

variable {w : Bytes}

theorem Tape.Longer.size_le {t u : Tape} (h : t.Longer u) : t.input.size ≤ u.input.size := by
  rcases h with rfl | ⟨j, rfl, hj⟩
  · exact Nat.le_refl _
  · exact hj.size_le

theorem Tape.Longer.front {t u : Tape} (h : t.Longer u) : SameFront t.input.buffer u.input.buffer := by
  rcases h with rfl | ⟨j, rfl, hj⟩
  · exact ⟨rfl, rfl, rfl, rfl⟩
  · exact hj.front

theorem Tape.Longer.depth {t u : Tape} (h : t.Longer u) : u.depth = t.depth := by
  rcases h with rfl | ⟨j, rfl, -⟩ <;> rfl

/-- A step is compared with itself over an input that goes on. -/
theorem GoesOn.of_step {α : Type} {x : TapeM α} (h : ∀ t a t', x t = .ok a t' → t'.Live w → t.Live w ∧ ∀ j,
    t.input.Shares j → ∃ j', x (t.on j) = .ok a (t'.on j') ∧ t'.input.Shares j') : GoesOn w x x := by
  intro t u hR a t' hx hl
  obtain ⟨hlive, hstep⟩ := h t a t' hx hl
  rcases hR with rfl | ⟨j, rfl, hj⟩
  · exact ⟨hlive, t', hx, .inl rfl⟩
  · obtain ⟨j', hy, hj'⟩ := hstep j hj
    exact ⟨hlive, _, hy, .inr ⟨j', rfl, hj'⟩⟩

/-- A step that leaves the input alone. -/
theorem GoesOn.beside {f : Tape → Tape} (h : ∀ t j, f (t.on j) = (f t).on j) (hin : ∀ t, (f t).input = t.input) :
    GoesOn w (modify f) (modify f) := by
  refine GoesOn.of_step fun t a t' hx hl => ?_
  cases hx
  have hrest : (f t).Live w = t.Live w := by rw [Tape.Live, Tape.Live, hin]
  refine ⟨hrest ▸ hl, fun j hj => ⟨j, ?_, by rw [hin]; exact hj⟩⟩
  exact congrArg (EStateM.Result.ok ()) (h t j)

theorem Input.refill_rest {i i' : Input} (h : i.refill = .ok i') : i'.rest = i.rest := by
  unfold Input.refill at h
  split at h
  · cases h
    rfl
  next hb =>
  split at h
  · cases h
    rfl
  split at h
  · cases h
    rfl
  next chunk chunks hc =>
  split at h
  · cases h
  · cases h
    simp [Input.rest, not_not.mp hb, hc]

theorem goesOn_refill : GoesOn w refill refill := by
  refine GoesOn.of_step fun t a t' hx hl => ?_
  unfold refill at hx
  cases hi : t.input.refill with
  | error e =>
    rw [hi] at hx
    cases hx
  | ok i =>
    rw [hi] at hx
    cases hx
    have hrest := Input.refill_rest hi
    refine ⟨by rw [Tape.Live, ← hrest]; exact hl, fun j hj => ?_⟩
    obtain ⟨i', j', hi', hj', hshares, -⟩ := hj.refill
    cases hi.symm.trans hi'
    exact ⟨j', by rw [refill, hj'], hshares⟩

theorem goesOn_skip (n : Nat) : GoesOn w (modify fun t => { t with input := t.input.skip n })
    (modify fun t => { t with input := t.input.skip n }) := by
  refine GoesOn.of_step fun t a t' hx hl => ?_
  cases hx
  refine ⟨⟨fun hrest => hl.1 ?_, ?_⟩, fun j hj => ⟨j.skip n, rfl, hj.skip hl.1⟩⟩
  · rw [Input.rest_skip t.input n] at hrest
    exact (List.append_eq_nil_iff.mp hrest).2
  · rw [Input.rest_skip t.input n]
    exact hl.2.trans (List.suffix_append _ _)

theorem goesOn_advance : GoesOn w advance advance := by
  have hskip : advance = modify fun t => { t with input := t.input.skip 1 } := by
    unfold advance
    simp only [Input.advance_eq_skip]
  rw [hskip]
  exact goesOn_skip 1

theorem goesOn_peek : GoesOn w peek peek := by
  refine goesOn_refill.bind fun _ => Follows.get_bind fun t u hR => ?_
  rw [hR.front.head]
  exact Follows.pure _ t u hR

/-- What fails is followed by anything. -/
theorem goesOn_error {α : Type} (message : String) (y : TapeM α) : GoesOn w (jsonError message) y := Follows.throw _ y

theorem goesOn_pure {α : Type} (a : α) : GoesOn w (pure a) (pure a) := Follows.pure a

theorem goesOn_take : GoesOn w take take := by
  refine goesOn_peek.bind fun first => ?_
  cases first with
  | none => exact goesOn_error _ _
  | some c => exact goesOn_advance.bind fun _ => goesOn_pure c

theorem goesOn_takeExpected (expected : UInt8) : GoesOn w (takeExpected expected) (takeExpected expected) :=
  goesOn_take.bind fun _ => .ite (fun _ => goesOn_error _ _) fun _ => goesOn_pure _

theorem goesOn_skipSpaceLoop : ∀ (fuel fuel' : Nat) (skipped : Bool), fuel ≤ fuel' →
    GoesOn w (skipSpaceLoop fuel skipped) (skipSpaceLoop fuel' skipped)
  | 0, _, _, _ => goesOn_error _ _
  | fuel + 1, 0, _, h => absurd h (Nat.not_succ_le_zero _)
  | fuel + 1, fuel' + 1, skipped, h => by
    refine goesOn_peek.bind fun first => ?_
    cases first with
    | none => exact goesOn_pure _
    | some c =>
      refine .ite (fun _ => goesOn_advance.bind fun _ => ?_) fun _ => .ite (fun _ => ?_) fun _ => goesOn_pure _
      · exact goesOn_skipSpaceLoop fuel fuel' true (Nat.le_of_succ_le_succ h)
      · refine GoesOn.beside (fun t j => ?_) fun t => ?_
        · dsimp only
          split <;> rfl
        · split <;> rfl

theorem goesOn_skipSpace : GoesOn w skipSpace skipSpace :=
  Follows.get_bind fun t u hR =>
    goesOn_skipSpaceLoop _ _ false (Nat.succ_le_succ hR.size_le) t u hR

/-! ## Copying -/

theorem writeLoop_on : ∀ (fuel : Nat) (data : Bytes) (t : Tape) (j : Input),
    writeLoop fuel data (t.on j) = (writeLoop fuel data t).on j
  | 0, _, _, _ => rfl
  | fuel + 1, data, t, j => by
    rw [writeLoop, writeLoop]
    by_cases hdata : data = []
    · rw [if_pos hdata, if_pos hdata]
    rw [if_neg hdata, if_neg hdata]
    by_cases hfull : t.emit.length = emitBufferSize
    · rw [if_pos hfull, if_pos hfull]
      exact writeLoop_on fuel _ { t with spool := t.spool ++ t.emit, emit := _ } j
    · rw [if_neg hfull, if_neg hfull]
      exact writeLoop_on fuel _ { t with emit := _ } j

theorem writeLoop_input : ∀ (fuel : Nat) (data : Bytes) (t : Tape), (writeLoop fuel data t).input = t.input
  | 0, _, _ => rfl
  | fuel + 1, data, t => by
    rw [writeLoop]
    by_cases hdata : data = []
    · rw [if_pos hdata]
    rw [if_neg hdata, writeLoop_input fuel]
    split <;> rfl

theorem goesOn_write (capture : Bool) (data : Bytes) : GoesOn w (write capture data) (write capture data) := by
  cases capture with
  | false => exact GoesOn.beside (fun _ _ => rfl) fun _ => rfl
  | true => exact GoesOn.beside (fun t j => writeLoop_on _ data t j) fun t => writeLoop_input _ data t

theorem goesOn_copyByte (capture : Bool) (c : UInt8) : GoesOn w (copyByte capture c) (copyByte capture c) := by
  cases capture with
  | false => exact GoesOn.beside (fun _ _ => rfl) fun _ => rfl
  | true =>
    refine GoesOn.beside (fun t j => ?_) fun t => ?_
    · simp only [Bool.not_true, Bool.false_eq_true, if_false]
      split <;> rfl
    · simp only [Bool.not_true, Bool.false_eq_true, if_false]
      split <;> rfl

theorem goesOn_enter : GoesOn w enter enter := by
  refine Follows.get_bind fun t u hR => ?_
  rw [hR.depth]
  refine Follows.ite (fun _ => follows_throw_bind _ _ _) (fun _ => ?_) t u hR
  exact GoesOn.beside (fun _ _ => rfl) fun _ => rfl

theorem goesOn_leave : GoesOn w leave leave := GoesOn.beside (fun _ _ => rfl) fun _ => rfl

/-! ## Escapes -/

theorem goesOn_takeHexLoop : ∀ (k value : Nat) (raw : Bytes), GoesOn w (takeHexLoop k value raw) (takeHexLoop k value raw)
  | 0, _, _ => goesOn_pure _
  | k + 1, value, raw => by
    refine goesOn_take.bind fun c => ?_
    cases hexValue c with
    | none => exact goesOn_error _ _
    | some digit => exact goesOn_takeHexLoop k _ _

theorem goesOn_takeHex4 : GoesOn w takeHex4 takeHex4 := goesOn_takeHexLoop 4 0 []

theorem goesOn_skipContinuation : ∀ (k : Nat) (lo hi : UInt8),
    GoesOn w (skipContinuation k lo hi) (skipContinuation k lo hi)
  | 0, _, _ => goesOn_pure _
  | k + 1, _, _ =>
    goesOn_take.bind fun _ => .ite (fun _ => goesOn_error _ _) fun _ => goesOn_skipContinuation k _ _

theorem goesOn_skipEscape : GoesOn w skipEscape skipEscape := by
  refine goesOn_take.bind fun next => .ite (fun _ => goesOn_pure _) fun _ => .ite (fun _ => goesOn_error _ _) fun _ => ?_
  refine goesOn_takeHex4.bind fun first => .ite (fun _ => goesOn_error _ _) fun _ => .ite (fun _ => goesOn_pure _) fun _ => ?_
  refine (goesOn_takeExpected _).bind fun _ => (goesOn_takeExpected _).bind fun _ => ?_
  exact goesOn_takeHex4.bind fun second => .ite (fun _ => goesOn_error _ _) fun _ => goesOn_pure _

/-! ## Skipping -/

/-- Both loops look at the byte at hand, and at the plain run from there on. -/
theorem Tape.Longer.buffer {t u : Tape} (h : t.Longer u) {value : UInt8} {rest : Bytes}
    (hb : t.input.buffer = value :: rest) : ∃ rest', u.input.buffer = value :: rest' ∧
      plainAsciiSpan (value :: rest') = plainAsciiSpan (value :: rest) ∧
      (value :: rest').take (plainAsciiSpan (value :: rest)) = (value :: rest).take (plainAsciiSpan (value :: rest)) := by
  have hfront := h.front
  rw [hb] at hfront
  cases hu : u.input.buffer with
  | nil =>
    rw [hu] at hfront
    exact absurd hfront.head (by simp)
  | cons value' rest' =>
    rw [hu] at hfront
    obtain rfl : value' = value := by simpa using hfront.head
    exact ⟨rest', rfl, by rw [plainAsciiSpan_eq, plainAsciiSpan_eq, hfront.span], by
      rw [plainAsciiSpan_eq, hfront.run]⟩

theorem goesOn_skipStringLoop : ∀ (fuel fuel' : Nat), fuel ≤ fuel' → GoesOn w (skipStringLoop fuel) (skipStringLoop fuel')
  | 0, _, _ => goesOn_error _ _
  | fuel + 1, 0, h => absurd h (Nat.not_succ_le_zero _)
  | fuel + 1, fuel' + 1, h => by
    have hagain := goesOn_skipStringLoop fuel fuel' (Nat.le_of_succ_le_succ h)
    refine goesOn_refill.bind fun _ => Follows.get_bind fun t u hR => ?_
    cases hb : t.input.buffer with
    | nil => exact Follows.throw _ _ t u hR
    | cons value rest =>
      obtain ⟨rest', hu, hspan, -⟩ := hR.buffer hb
      rw [hu]
      dsimp only
      rw [hspan]
      refine Follows.ite (fun _ => (goesOn_skip _).bind fun _ => hagain) (fun _ => goesOn_advance.bind fun _ => ?_) t u hR
      refine .ite (fun _ => goesOn_pure _) fun _ => .ite (fun _ => goesOn_error _ _) fun _ =>
        .ite (fun _ => goesOn_skipEscape.bind fun _ => hagain) fun _ => ?_
      cases leadInfo value with
      | none => exact goesOn_error _ _
      | some info => exact (goesOn_skipContinuation _ _ _).bind fun _ => hagain

theorem goesOn_skipStringFast : GoesOn w skipStringFast skipStringFast :=
  (goesOn_takeExpected _).bind fun _ => Follows.get_bind fun t u hR =>
    goesOn_skipStringLoop _ _ (Nat.succ_le_succ hR.size_le) t u hR

theorem goesOn_skipLiteralFast : ∀ text : Bytes, GoesOn w (skipLiteralFast text) (skipLiteralFast text)
  | [] => goesOn_pure _
  | c :: rest => (goesOn_takeExpected c).bind fun _ => goesOn_skipLiteralFast rest

section Number

variable {σ : Type} {R : σ → σ → Prop} [Std.Refl R] {live : σ → Prop} {peek : EStateM Err σ (Option UInt8)}
  {eat : UInt8 → EStateM Err σ Unit} (hpeek : Follows R live peek peek) (heat : ∀ c, Follows R live (eat c) (eat c))
include hpeek heat

theorem follows_digitsLoop : ∀ (fuel fuel' : Nat) (c : UInt8), fuel ≤ fuel' →
    Follows R live (digitsLoop peek eat fuel c) (digitsLoop peek eat fuel' c)
  | 0, _, _, _ => Follows.throw _ _
  | fuel + 1, 0, _, h => absurd h (Nat.not_succ_le_zero _)
  | fuel + 1, fuel' + 1, c, h => by
    refine (heat c).bind fun _ => hpeek.bind fun next => ?_
    cases next with
    | none => exact Follows.pure _
    | some d =>
      exact .ite (fun _ => follows_digitsLoop fuel fuel' d (Nat.le_of_succ_le_succ h)) fun _ => Follows.pure _

theorem follows_digits1With (message : String) {fuel fuel' : Nat} (h : fuel ≤ fuel') (next : Option UInt8) :
    Follows R live (digits1With peek eat message fuel next) (digits1With peek eat message fuel' next) := by
  cases next with
  | none => exact Follows.throw _ _
  | some c => exact .ite (fun _ => follows_digitsLoop hpeek heat fuel fuel' c h) fun _ => Follows.throw _ _

/-- A number is read alike, with as much fuel at least. -/
theorem follows_numberWith {fuel fuel' : Nat} (h : fuel ≤ fuel') :
    Follows R live (numberWith peek eat fuel) (numberWith peek eat fuel') := by
  have hsign : ∀ next, Follows R live (signWith peek eat next) (signWith peek eat next) := fun next =>
    .ite (fun _ => (heat _).bind fun _ => hpeek) fun _ => Follows.pure _
  have hinteger : ∀ next, Follows R live (integerWith peek eat fuel next) (integerWith peek eat fuel' next) := by
    intro next
    cases next with
    | none => exact Follows.throw _ _
    | some c =>
      exact .ite (fun _ => (heat _).bind fun _ => hpeek) fun _ => .ite
        (fun _ => follows_digitsLoop hpeek heat fuel fuel' c h) fun _ => Follows.throw _ _
  have hfraction : ∀ next, Follows R live (fractionWith peek eat fuel next) (fractionWith peek eat fuel' next) := fun next =>
    .ite (fun _ => (heat _).bind fun _ => hpeek.bind fun next => follows_digits1With hpeek heat _ h next) fun _ =>
      Follows.pure _
  have hexponentSign : ∀ next, Follows R live (exponentSignWith peek eat next) (exponentSignWith peek eat next) := by
    intro next
    cases next with
    | none => exact Follows.pure _
    | some c => exact .ite (fun _ => (heat _).bind fun _ => hpeek) fun _ => Follows.pure _
  have hexponent : ∀ next, Follows R live (exponentWith peek eat fuel next) (exponentWith peek eat fuel' next) := by
    intro next
    cases next with
    | none => exact Follows.pure _
    | some c =>
      exact .ite (fun _ => (heat _).bind fun _ => hpeek.bind fun next => (hexponentSign next).bind fun next =>
        follows_digits1With hpeek heat _ h next) fun _ => Follows.pure _
  exact hpeek.bind fun next => (hsign next).bind fun next => (hinteger next).bind fun next =>
    (hfraction next).bind fun next => (hexponent next).bind fun _ => Follows.pure _

end Number

theorem goesOn_skipNumberFast : GoesOn w skipNumberFast skipNumberFast :=
  Follows.get_bind fun t u hR =>
    follows_numberWith goesOn_peek (fun _ => goesOn_advance) (Nat.succ_le_succ hR.size_le) t u hR

section Containers

variable {value value' : TapeM Unit} (hvalue : GoesOn w value value')
include hvalue

theorem goesOn_skipMembers : ∀ (fuel fuel' : Nat) (first : Option UInt8), fuel ≤ fuel' →
    GoesOn w (skipMembers value fuel first) (skipMembers value' fuel' first)
  | 0, _, _, _ => goesOn_error _ _
  | fuel + 1, 0, _, h => absurd h (Nat.not_succ_le_zero _)
  | fuel + 1, fuel' + 1, first, h => by
    refine .ite (fun _ => follows_throw_bind _ _ _) fun _ => ?_
    refine goesOn_skipStringFast.bind fun _ => goesOn_skipSpace.bind fun _ => (goesOn_takeExpected _).bind fun _ => ?_
    refine goesOn_skipSpace.bind fun _ => hvalue.bind fun _ => goesOn_skipSpace.bind fun _ => goesOn_take.bind fun c => ?_
    refine .ite (fun _ => goesOn_leave) fun _ => .ite (fun _ => goesOn_error _ _) fun _ => ?_
    exact goesOn_skipSpace.bind fun _ => goesOn_peek.bind fun next =>
      goesOn_skipMembers fuel fuel' next (Nat.le_of_succ_le_succ h)

theorem goesOn_skipElements : ∀ (fuel fuel' : Nat), fuel ≤ fuel' →
    GoesOn w (skipElements value fuel) (skipElements value' fuel')
  | 0, _, _ => goesOn_error _ _
  | fuel + 1, 0, h => absurd h (Nat.not_succ_le_zero _)
  | fuel + 1, fuel' + 1, h => by
    refine hvalue.bind fun _ => goesOn_skipSpace.bind fun _ => goesOn_take.bind fun c => ?_
    refine .ite (fun _ => goesOn_leave) fun _ => .ite (fun _ => goesOn_error _ _) fun _ => ?_
    exact goesOn_skipSpace.bind fun _ => goesOn_skipElements fuel fuel' (Nat.le_of_succ_le_succ h)

theorem goesOn_skipObjectFast {fuel fuel' : Nat} (h : fuel ≤ fuel') :
    GoesOn w (skipObjectFast value fuel) (skipObjectFast value' fuel') := by
  refine goesOn_enter.bind fun _ => (goesOn_takeExpected _).bind fun _ => goesOn_skipSpace.bind fun _ =>
    goesOn_peek.bind fun first => ?_
  exact .ite (fun _ => goesOn_advance.bind fun _ => goesOn_leave) fun _ => goesOn_skipMembers hvalue fuel fuel' first h

theorem goesOn_skipArrayFast {fuel fuel' : Nat} (h : fuel ≤ fuel') :
    GoesOn w (skipArrayFast value fuel) (skipArrayFast value' fuel') := by
  refine goesOn_enter.bind fun _ => (goesOn_takeExpected _).bind fun _ => goesOn_skipSpace.bind fun _ =>
    goesOn_peek.bind fun first => ?_
  exact .ite (fun _ => goesOn_advance.bind fun _ => goesOn_leave) fun _ => goesOn_skipElements hvalue fuel fuel' h

end Containers

theorem goesOn_skipValueFast : ∀ (fuel fuel' : Nat), fuel ≤ fuel' → GoesOn w (skipValueFast fuel) (skipValueFast fuel')
  | 0, _, _ => goesOn_error _ _
  | fuel + 1, 0, h => absurd h (Nat.not_succ_le_zero _)
  | fuel + 1, fuel' + 1, h => by
    have hle := Nat.le_of_succ_le_succ h
    have hvalue := goesOn_skipValueFast fuel fuel' hle
    refine goesOn_peek.bind fun first => ?_
    cases first with
    | none => exact goesOn_skipNumberFast
    | some c =>
      exact .ite (fun _ => goesOn_skipObjectFast hvalue hle) fun _ => .ite (fun _ => goesOn_skipArrayFast hvalue hle) fun _ =>
        .ite (fun _ => goesOn_skipStringFast) fun _ => .ite (fun _ => goesOn_skipLiteralFast _) fun _ =>
        .ite (fun _ => goesOn_skipLiteralFast _) fun _ => .ite (fun _ => goesOn_skipLiteralFast _) fun _ =>
        goesOn_skipNumberFast

end Lql.Scan
