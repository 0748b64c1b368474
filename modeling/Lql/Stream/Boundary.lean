import Lql.Scan.Boundary
import Lql.Stream.Limits
import Lql.Stream.Numbers

/-!
# A stream that goes on

A caller may feed a stream line by line. What a run decides, hands out and writes for the lines it has been given so far, a
run over more of the stream decides, hands out and writes first; and where it has been stopped early, more of the stream
makes no difference.
-/

namespace Lql.Stream

open Lib Scan Selector

variable {δ : Type} (req : StreamRequest δ) (plan : Plan)

/-- The runs have stopped at the same place, at a record or at a limit that both have reached. -/
structure Alongside (o o' : Outcome (Session δ)) : Prop where
  same : o' = { o with bytesRead := o'.bytesRead }
  reached : o.limitStop = true → o.status = .stop ∧ o.user.Free ∧
    (req.limits.maxRecords ≠ 0 ∧ req.limits.maxRecords ≤ o.user.result.recordsSeen ∨
      req.limits.maxBytes ≠ 0 ∧ req.limits.maxBytes ≤ o.bytesRead ∧ req.limits.maxBytes ≤ o'.bytesRead)

/-- The run has come to the end of its input, the other goes on. -/
structure Ahead (o o' : Outcome (Session δ)) : Prop extends o.user.Before o'.user, o.user.Free where
  limit : o.limitStop = false

theorem Trace.finish_limit (t : Trace) (records bytesRead : Nat) (s : Session δ) :
    (t.finish records bytesRead s).limitStop = false := by
  rw [Trace.finish]
  split <;> rfl

/-- **Two runs over steps of which the ones begin the others**, from any point on. -/
theorem play_along {t t' : Trace} (hend : t'.ending ≠ none) :
    ∀ (steps steps' : List TraceStep) (records bytesRead bytesRead' : Nat) (s : Session δ), Going req records True s →
      (∀ step ∈ steps, step.consumed ≤ step.bytesRead) → (∀ step ∈ steps', step.consumed ≤ step.bytesRead) →
      steps.map (·.shown) <+: steps'.map (·.shown) →
      Alongside req (play (plan.request req) t records bytesRead s steps)
          (play (plan.request req) t' records bytesRead' s steps') ∨
        Ahead (play (plan.request req) t records bytesRead s steps)
          (play (plan.request req) t' records bytesRead' s steps')
  | [], steps', records, bytesRead, bytesRead', s, hgo, _, _, _ => by
    have hlive := hgo.1
    by_cases hfull : t.ending ≠ none ∧ (plan.request req).full records = true
    · left
      have hmost := ((plan.request req).full_iff records).mp hfull.2
      have hstop : play (plan.request req) t' records bytesRead' s steps' =
          { status := .stop, records, bytesRead := bytesRead', limitStop := true, user := s } := by
        cases steps' with
        | nil => exact if_pos ⟨hend, hfull.2⟩
        | cons step rest => exact if_pos hfull.2
      rw [hstop, play, if_pos hfull]
      refine ⟨rfl, fun _ => ⟨rfl, hlive.toFree, .inl ⟨hmost.1, ?_⟩⟩⟩
      rw [hlive.seen, hlive.length]
      exact hmost.2
    · right
      have hadds := play_adds req plan t' steps' records bytesRead' s
      have huser := Trace.finish_user t records bytesRead s
      rw [play, if_neg hfull]
      exact ⟨by rw [huser]; exact hadds, by rw [huser]; exact hlive.toFree, Trace.finish_limit t records bytesRead s⟩
  | step :: rest, [], _, _, _, _, _, _, _, h => by
    have hlen := h.length_le
    simp at hlen
  | step :: rest, step' :: rest', records, bytesRead, bytesRead', s, hgo, hread, hread', h => by
    have hlive := hgo.1
    rw [List.map_cons, List.map_cons, List.cons_prefix_cons] at h
    obtain ⟨hshown, hrest⟩ := h
    obtain ⟨hrecord, hconsumed⟩ := Prod.mk.inj hshown
    by_cases hfull : (plan.request req).full records = true
    · left
      have hmost := ((plan.request req).full_iff records).mp hfull
      rw [play, if_pos hfull, play, if_pos hfull]
      refine ⟨rfl, fun _ => ⟨rfl, hlive.toFree, .inl ⟨hmost.1, ?_⟩⟩⟩
      rw [hlive.seen, hlive.length]
      exact hmost.2
    rw [play, if_neg hfull, play, if_neg hfull, ← hrecord]
    have hends := ends_judge req plan step.record s hgo
    have hcall : (plan.request req).record s step.record = returned s (plan.judge req step.record) := rfl
    rw [hcall, returned]
    cases hx : plan.judge req step.record s with
    | error e s1 =>
      rw [hx] at hends
      dsimp only
      rw [if_pos hends.failed, if_pos hends.failed]
      exact .inl ⟨rfl, fun hlimit => absurd hlimit Bool.false_ne_true⟩
    | ok u s1 =>
      rw [hx] at hends
      dsimp only
      have hok : ¬ (Status.ok ≠ Status.ok) := not_not.mpr rfl
      rw [if_neg hok, if_neg hok, ← hconsumed]
      by_cases hsated : (plan.request req).sated step.consumed = true
      · left
        have hlive1 := hends.1
        have hmost := ((plan.request req).sated_iff step.consumed).mp hsated
        have hle := hread step List.mem_cons_self
        have hle' := hread' step' List.mem_cons_self
        rw [if_pos hsated, if_pos hsated]
        exact ⟨rfl, fun _ => ⟨rfl, hlive1.toFree, .inr ⟨hmost.1, hmost.2.trans hle, hmost.2.trans (hconsumed ▸ hle')⟩⟩⟩
      · rw [if_neg hsated, if_neg hsated]
        exact play_along hend rest rest' _ _ _ s1 hends (fun step hmem => hread step (List.mem_cons_of_mem _ hmem))
          (fun step hmem => hread' step (List.mem_cons_of_mem _ hmem)) hrest

/-- What a run over complete lines, `a`, says of a run over a stream that goes on behind them, `b`. -/
structure Begins (a b : Session δ × Status) : Prop extends a.1.Before b.1 where
  /-- A run that was stopped early is the same run, whatever comes behind; only more may have been read. -/
  stopped : a.1.result.stoppedEarly = true →
    b = ({ a.1 with result := { a.1.result with bytesConsumed := b.1.result.bytesConsumed } }, a.2)

variable {req}

theorem Ahead.begins {o o' : Outcome (Session δ)} (h : Ahead o o') : Begins (finish req o) (finish req o') where
  decisions := h.decisions
  values := h.values
  output := h.output
  stopped hstop := by
    rw [finish_free req h.limit] at hstop
    exact absurd (h.early.symm.trans hstop) Bool.false_ne_true

theorem Alongside.begins {o o' : Outcome (Session δ)} (h : Alongside req o o') : Begins (finish req o) (finish req o') := by
  obtain ⟨n, rfl⟩ : ∃ n, o' = { o with bytesRead := n } := ⟨_, h.same⟩
  refine ⟨⟨List.prefix_rfl, List.prefix_rfl, List.prefix_rfl⟩, fun _ => ?_⟩
  by_cases hlimit : o.limitStop = true
  · obtain ⟨hstatus, hfree, hreached⟩ := h.reached hlimit
    have hearly := hfree.early
    unfold finish
    dsimp only
    by_cases hrecords : req.limits.maxRecords ≠ 0 ∧ req.limits.maxRecords ≤ o.user.result.recordsSeen
    · -- both are stopped by the limit on records, which goes first
      have hnote : ∀ (o' : Outcome (Session δ)) (m : Nat), o'.status = .stop → o'.limitStop = true →
          noteLimit .recordLimit req.limits.maxRecords o.user.result.recordsSeen o'
              { o.user.result with bytesConsumed := m } =
            { o.user.result with bytesConsumed := m, stoppedEarly := true, stopReason := .recordLimit } :=
        fun o' m hs hl => if_pos (by simp [hs, hl, hearly, hrecords.1, hrecords.2])
      rw [hnote o _ hstatus hlimit, hnote { o with bytesRead := n } _ hstatus hlimit, noteLimit_early rfl,
        noteLimit_early rfl]
    · have hbytes := hreached.resolve_left hrecords
      have hnot : ∀ (o' : Outcome (Session δ)) (m : Nat), noteLimit .recordLimit req.limits.maxRecords
          o.user.result.recordsSeen o' { o.user.result with bytesConsumed := m } =
            { o.user.result with bytesConsumed := m } := by
        intro o' m
        refine if_neg fun h => hrecords ?_
        simp only [Bool.and_eq_true, decide_eq_true_eq] at h
        exact ⟨h.1.2, h.2⟩
      have hnote : ∀ (o' : Outcome (Session δ)) (m : Nat), o'.status = .stop → o'.limitStop = true →
          req.limits.maxBytes ≤ m → noteLimit .byteLimit req.limits.maxBytes m o'
              { o.user.result with bytesConsumed := m } =
            { o.user.result with bytesConsumed := m, stoppedEarly := true, stopReason := .byteLimit } :=
        fun o' m hs hl hm => if_pos (by simp [hs, hl, hearly, hbytes.1, hm])
      rw [hnot, hnot, hnote o _ hstatus hlimit hbytes.2.1, hnote { o with bytesRead := n } _ hstatus hlimit hbytes.2.2]
  · have hfree : o.limitStop = false := Bool.eq_false_of_not_eq_true hlimit
    rw [finish_free req hfree, finish_free req (o := { o with bytesRead := n }) hfree]

/-- A run that has not looked at a record. -/
theorem begins_refused (user : δ) (error : Option Err) (status : Status) :
    Begins (({ user, error } : Session δ), status) ({ user, error }, status) :=
  ⟨.refl _, fun _ => rfl⟩

/-- A scan that is not set up comes to nothing, whatever it is given. -/
theorem scan_wide {r : Scan.Request (Session δ)} (h : r.ctx.n > wordBits ∨ r.ctx.captureKeys.length > wordBits)
    (chunks chunks' : List Bytes) (s : Session δ) : scanFlatEqNdjson r chunks s = scanFlatEqNdjson r chunks' s := by
  rw [scanFlatEqNdjson, if_pos h, scanFlatEqNdjson, if_pos h]

theorem streamApplyFlatEq_begins (req : StreamRequest δ) (hs : NumbersOk req.selector) {lines more : List Bytes}
    (hl : ReaderOk lines) (hm : ReaderOk more) (h : Extended lines more) (allowSpool : Bool) (user : δ) :
    Begins (streamApplyFlatEq req allowSpool lines user) (streamApplyFlatEq req allowSpool more user) := by
  rw [streamApplyFlatEq, streamApplyFlatEq]
  cases hplan : flatEqPlan req allowSpool with
  | error e => exact begins_refused user _ _
  | ok plan =>
    dsimp only
    have hn := plan_numbers hs hplan
    have hgo : Going req 0 True ({ user } : Session δ) :=
      ⟨⟨⟨rfl, rfl⟩, ⟨rfl, rfl, rfl⟩, rfl⟩, fun _ hlimit => Nat.pos_of_ne_zero hlimit⟩
    by_cases hwide : (plan.request req).ctx.n > wordBits ∨ (plan.request req).ctx.captureKeys.length > wordBits
    · rw [scan_wide hwide more lines]
      exact ⟨.refl _, fun _ => rfl⟩
    · rw [scan_play _ _ _ hwide, scan_play _ _ _ hwide]
      rcases play_along req plan (t := trace (plan.request req).ctx lines) (trace_ends hn hm) _ _ 0 0 0 _ hgo
        (traceLoop_read _ _ _ _) (traceLoop_read _ _ _ _) (trace_firstRecords hn hl hm h) with h | h
      · exact h.begins
      · exact h.begins

/-- **What a stream has decided, it has decided**: the records of complete lines come out first, and the same, whatever
follows them. -/
theorem streamApply_begins (req : StreamRequest δ) (hs : NumbersOk req.selector) {lines more : List Bytes}
    (hl : ReaderOk lines) (hm : ReaderOk more) (h : Extended lines more) (allowSpool : Bool) (user : δ) :
    Begins (streamApplyCommon req allowSpool lines user) (streamApplyCommon req allowSpool more user) := by
  rw [streamApplyCommon, streamApplyCommon]
  cases unserved req allowSpool with
  | some message => exact begins_refused user _ _
  | none => exact streamApplyFlatEq_begins req hs hl hm h allowSpool user

/-- One line, and the beginning of another. -/
theorem streamApply_begins_line :
    Begins (streamApplyCommon ({ selector := existsAt (ascii "/a") } : StreamRequest Unit) false
        [[chLBrace, chRBrace] ++ [chLF]] ())
      (streamApplyCommon { selector := existsAt (ascii "/a") } false [[chLBrace, chRBrace] ++ chLF :: [chLBrace]] ()) := by
  have hs : NumbersOk (existsAt (ascii "/a")) :=
    ⟨⟨fun h => LiteralKind.noConfusion h, List.forall_mem_nil _, fun _ key h => by cases key <;> cases h⟩, trivial⟩
  have hreader : ∀ b : Bytes, b ≠ [] → b.length ≤ readBufferSize → ReaderOk [b] := by
    intro b hne hlen c hc
    rw [List.mem_singleton.mp hc]
    exact ⟨hne, hlen⟩
  exact streamApply_begins _ hs (hreader _ (by decide) (by decide)) (hreader _ (by decide) (by decide)) (.last _ _ _) false ()

end Lql.Stream
