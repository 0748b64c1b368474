import Lql.Lib.Short
import Lql.Scan.Trace
import Lql.Stream.Apply

/-!
# Limits

A run with limits, for a caller who may ask to stop, against the run without: record by record they do the same until
the first one stops, and it stops behind a decision, for a reason that is there.
-/

namespace Lql.Stream

open Lib Scan Selector

variable {δ : Type}

/-- A callback that never asks to stop. -/
def patient {β : Type} (callback : δ → β → δ × CallbackResult) (user : δ) (b : β) : δ × CallbackResult :=
  ((callback user b).1, if (callback user b).2 = .stop then .proceed else (callback user b).2)

/-- The request without its limits, from a caller who never asks to stop. -/
def StreamRequest.unlimited (req : StreamRequest δ) : StreamRequest δ :=
  { req with limits := {}, onDecision := req.onDecision.map patient, onValue := req.onValue.map patient }

/-- Behind `s`, more has been decided and handed out. -/
structure Session.Before (s t : Session δ) : Prop where
  decisions : s.decisions <+: t.decisions
  values : s.values <+: t.values
  output : s.output <+: t.output

theorem Session.Before.refl (s : Session δ) : s.Before s :=
  ⟨List.prefix_rfl, List.prefix_rfl, List.prefix_rfl⟩

theorem Session.Before.trans {s t u : Session δ} (h1 : s.Before t) (h2 : t.Before u) : s.Before u :=
  ⟨h1.decisions.trans h2.decisions, h1.values.trans h2.values, h1.output.trans h2.output⟩

/-- Nothing more has gone out. -/
theorem Session.Before.of_same {s t : Session δ} (hd : t.decisions = s.decisions) (hv : t.values = s.values)
    (ho : t.output = s.output) : s.Before t :=
  ⟨by rw [hd], by rw [hv], by rw [ho]⟩

/-! ## What goes out stays out -/

/-- The computation only adds to what has gone out. -/
abbrev Adds (x : SessionM δ Unit) : Prop := Extends Session.Before x

theorem Adds.bind {x : SessionM δ Unit} {f : Unit → SessionM δ Unit} (hx : Adds x) (hf : ∀ u, Adds (f u)) :
    Adds (x >>= f) := Extends.bind (fun _ _ _ => .trans) hx hf

theorem adds_pure (u : Unit) : Adds (pure u : SessionM δ Unit) := Session.Before.refl

theorem adds_fail (e : Err) : Adds (fail e : SessionM δ Unit) := fun _ => .of_same rfl rfl rfl

theorem adds_stopFor (reason : StopReason) : Adds (stopFor reason : SessionM δ Unit) := fun _ => .of_same rfl rfl rfl

theorem adds_heed (message : String) (answer : CallbackResult) : Adds (heed message answer : SessionM δ Unit) := by
  cases answer with
  | proceed => exact adds_pure ()
  | stop => exact fun _ => .of_same rfl rfl rfl
  | error => exact adds_fail _

variable (req : StreamRequest δ)

theorem adds_takeDecision (index : Nat) (hit : Bool) : Adds (takeDecision req index hit) := by
  unfold takeDecision
  refine Adds.bind (fun s => ⟨List.prefix_append _ _, List.prefix_rfl, List.prefix_rfl⟩) fun _ => ?_
  cases req.onDecision with
  | none => exact adds_pure ()
  | some callback =>
    exact Extends.update (fun _ _ _ => .trans) (fun _ => .of_same rfl rfl rfl) fun _ => adds_heed _ _

theorem adds_deliverValue (capture hit : Bool) (r : Record) : Adds (deliverValue req capture hit r) := by
  unfold deliverValue
  cases req.onValue with
  | none => exact adds_pure ()
  | some callback =>
    refine .ite (adds_pure ()) (.ite (adds_fail _) (Extends.update (fun _ _ _ => .trans) (fun _ => ?_) fun _ => adds_heed _ _))
    exact ⟨List.prefix_rfl, List.prefix_append _ _, List.prefix_rfl⟩

theorem adds_emit (written : Written) : Adds (emit written : SessionM δ Unit) := by
  refine Adds.bind (fun s => ⟨List.prefix_rfl, List.prefix_rfl, List.prefix_append _ _⟩) fun _ => ?_
  cases written.2 with
  | none => exact adds_pure ()
  | some e => exact .ite (adds_pure ()) (adds_fail e)

theorem adds_needObject {r : Record} {message : String} {go : SessionM δ Unit} (h : Adds go) :
    Adds (needObject r message go) := Extends.ite (adds_fail _) h

theorem adds_emitRecord (capture hit : Bool) (r : Record) : Adds (emitRecord req capture hit r) := by
  unfold emitRecord
  cases req.outputMode with
  | decisionOnly => exact adds_pure ()
  | selectedRecord =>
    exact .ite (adds_pure ()) (.ite (adds_emit _) (.ite (adds_fail _) (adds_emit _)))
  | projection => exact .ite (adds_pure ()) (adds_needObject (.ite (adds_emit _) (adds_pure ())))
  | mutation =>
    exact .ite (adds_needObject (adds_emit _)) (.ite (adds_pure ()) (.ite (adds_fail _) (adds_emit _)))
  | projectionThenMutation =>
    exact .ite (adds_needObject (adds_emit _))
      (.ite (adds_pure ()) (adds_needObject (.ite (adds_emit _) (adds_pure ()))))

theorem adds_checkMatches (hit : Bool) : Adds (checkMatches req hit) := by
  refine Extends.get_bind fun s => ?_
  exact Extends.ite (adds_stopFor _) (adds_pure ()) s

theorem adds_recordDecided (capture hit : Bool) (r : Record) : Adds (recordDecided req capture hit r) :=
  (adds_takeDecision req r.index hit).bind fun _ => (adds_deliverValue req capture hit r).bind fun _ =>
    (adds_emitRecord req capture hit r).bind fun _ => adds_checkMatches req hit

/-! ## Stopping short -/

/-- The session has been stopped, for a reason that is there. -/
def Session.Halted (req : StreamRequest δ) (s : Session δ) : Prop :=
  s.result.stoppedEarly = true ∧
    (s.result.stopReason = .callback ∧ s.asked = true ∨
      s.result.stopReason = .matchLimit ∧ req.limits.maxMatches ≠ 0 ∧ req.limits.maxMatches ≤ s.result.recordsMatched)

/-- `x` does what `y` does, or is stopped short of it. -/
abbrev Cut (req : StreamRequest δ) (x y : SessionM δ Unit) : Prop :=
  Short Session.Before (fun status s => status = Status.stop ∧ s.Halted req) x y

theorem Cut.bind {x y : SessionM δ Unit} {f g : Unit → SessionM δ Unit} (hx : Cut req x y)
    (hf : ∀ u, Cut req (f u) (g u)) (hg : ∀ u, Adds (g u)) : Cut req (x >>= f) (y >>= g) :=
  Short.bind (fun _ _ _ => .trans) hx hf hg

theorem cut_heed (message : String) (answer : CallbackResult) :
    Cut req (heed message answer) (heed message (if answer = .stop then .proceed else answer)) := by
  cases answer with
  | proceed => exact .refl _
  | error => exact .refl _
  | stop => exact fun s => .inr ⟨_, _, rfl, ⟨rfl, rfl, .inl ⟨rfl, rfl⟩⟩, .of_same rfl rfl rfl⟩

theorem cut_takeDecision (index : Nat) (hit : Bool) :
    Cut req (takeDecision req index hit) (takeDecision req.unlimited index hit) := by
  unfold takeDecision
  have hcallback : req.unlimited.onDecision = req.onDecision.map patient := rfl
  rw [hcallback]
  cases req.onDecision with
  | none => exact .refl _
  | some callback =>
    refine Cut.bind req (.refl _) (fun _ => .update fun s => cut_heed req _ _) fun _ => ?_
    exact Extends.update (fun _ _ _ => .trans) (fun _ => .of_same rfl rfl rfl) fun _ => adds_heed _ _

theorem cut_deliverValue (capture hit : Bool) (r : Record) :
    Cut req (deliverValue req capture hit r) (deliverValue req.unlimited capture hit r) := by
  unfold deliverValue
  have hcallback : req.unlimited.onValue = req.onValue.map patient := rfl
  rw [hcallback]
  cases req.onValue with
  | none => exact .refl _
  | some callback => exact .ite (.refl _) (.ite (.refl _) (.update fun s => cut_heed req _ _))

/-- The limit on matches is reached, by a record that was hit. -/
def matchesReached (hit : Bool) (s : Session δ) : Bool :=
  hit && req.limits.maxMatches ≠ 0 && s.result.recordsMatched ≥ req.limits.maxMatches

theorem checkMatches_run (hit : Bool) (s : Session δ) :
    checkMatches req hit s = if matchesReached req hit s then stopFor .matchLimit s else .ok () s := by
  have hrun : checkMatches req hit s = (if matchesReached req hit s then stopFor .matchLimit else pure ()) s := rfl
  rw [hrun]
  split
  · rfl
  · rfl

theorem cut_checkMatches (hit : Bool) : Cut req (checkMatches req hit) (checkMatches req.unlimited hit) := by
  intro s
  have hnever : matchesReached req.unlimited hit s = false := by simp [matchesReached, StreamRequest.unlimited]
  rw [checkMatches_run, checkMatches_run, hnever]
  cases hreached : matchesReached req hit s with
  | false => exact .inl rfl
  | true =>
    simp only [matchesReached, Bool.and_eq_true, decide_eq_true_eq] at hreached
    exact .inr ⟨_, _, rfl, ⟨rfl, rfl, .inr ⟨rfl, hreached.1.2, hreached.2⟩⟩, .of_same rfl rfl rfl⟩

theorem cut_recordDecided (capture hit : Bool) (r : Record) :
    Cut req (recordDecided req capture hit r) (recordDecided req.unlimited capture hit r) :=
  (cut_takeDecision req r.index hit).bind req (fun _ => (cut_deliverValue req capture hit r).bind req
    (fun _ => Cut.bind req (.refl _) (fun _ => cut_checkMatches req hit) fun _ => adds_checkMatches _ hit)
    fun _ => (adds_emitRecord _ capture hit r).bind fun _ => adds_checkMatches _ hit)
    fun _ => (adds_deliverValue _ capture hit r).bind fun _ => (adds_emitRecord _ capture hit r).bind fun _ =>
      adds_checkMatches _ hit

/-! ## What a record leaves -/

/-- The limit on matches has not been reached. -/
def Session.Few (s : Session δ) : Prop := req.limits.maxMatches ≠ 0 → s.result.recordsMatched < req.limits.maxMatches

/-- The counters tell what has been decided. -/
structure Session.Counted (s : Session δ) : Prop where
  seen : s.result.recordsSeen = s.decisions.length
  matched : s.result.recordsMatched = s.decisions.count true

/-- Nothing has stopped the run. -/
structure Session.Free (s : Session δ) : Prop where
  early : s.result.stoppedEarly = false
  reason : s.result.stopReason = .none
  asked : s.asked = false

/-- The run goes on behind `n` decisions. -/
structure Session.Live (n : Nat) (s : Session δ) : Prop extends s.Counted, s.Free where
  length : s.decisions.length = n

/-- A session in which the run ends: it has not been stopped, or it has. -/
structure Session.Over (status : Status) (s : Session δ) : Prop extends s.Counted where
  failed : status ≠ .ok
  ending : s.Free ∨ status = .stop ∧ s.Halted req ∧ (s.asked = true → s.result.stopReason = .callback)

section Records

variable {req} {n : Nat} {c : Prop}

/-- The run goes on, and the limit on matches has not been reached where `c` holds. -/
def Going (req : StreamRequest δ) (n : Nat) (c : Prop) (s : Session δ) : Prop := s.Live n ∧ (c → s.Few req)

theorem ends_throw {Q : Unit → Session δ → Prop} {status : Status} (h : status ≠ .ok) :
    Ends (Going req n c) (throw status : SessionM δ Unit) Q (Session.Over req) :=
  fun _ hgo => ⟨⟨hgo.1.seen, hgo.1.matched⟩, h, .inl ⟨hgo.1.early, hgo.1.reason, hgo.1.asked⟩⟩

theorem ends_fail {Q : Unit → Session δ → Prop} {e : Err} (h : e.status ≠ .ok) :
    Ends (Going req n c) (fail e : SessionM δ Unit) Q (Session.Over req) :=
  fun _ hgo => ⟨⟨hgo.1.seen, hgo.1.matched⟩, h, .inl ⟨hgo.1.early, hgo.1.reason, hgo.1.asked⟩⟩

theorem ends_heed (message : String) (answer : CallbackResult) :
    Ends (Going req n c) (heed message answer : SessionM δ Unit) (fun _ => Going req n c) (Session.Over req) := by
  cases answer with
  | proceed => exact fun _ h => h
  | error => exact ends_fail (by simp)
  | stop =>
    exact fun _ hgo =>
      ⟨⟨hgo.1.seen, hgo.1.matched⟩, by simp, .inr ⟨rfl, ⟨rfl, .inl ⟨rfl, rfl⟩⟩, fun _ => rfl⟩⟩

/-- A callback is called, which changes what the run says nothing about. -/
theorem ends_callback {g : Session δ → Session δ} {message : String} {answer : Session δ → CallbackResult}
    (hg : ∀ s, Going req n c s → Going req n c (g s)) :
    Ends (Going req n c) (get >>= fun s => set (g s) >>= fun _ => heed message (answer s) : SessionM δ Unit)
      (fun _ => Going req n c) (Session.Over req) :=
  fun s hs => ends_heed message (answer s) (g s) (hg s hs)

theorem Session.Live.count {s : Session δ} (h : s.Live n) (hit : Bool) : (s.count hit).Live (n + 1) where
  seen := by rw [Session.count, List.length_append, h.seen]; rfl
  matched := by
    cases hit with
    | false => simpa [Session.count] using h.matched
    | true => simpa [Session.count] using h.matched
  early := h.early
  reason := h.reason
  asked := h.asked
  length := by rw [Session.count, List.length_append, h.length]; rfl

theorem ends_takeDecision (index : Nat) (hit : Bool) :
    Ends (Going req n True) (takeDecision req index hit) (fun _ => Going req (n + 1) (hit = false))
      (Session.Over req) := by
  have hcount : Ends (Going req n True) (modify fun s => s.count hit : SessionM δ Unit)
      (fun _ => Going req (n + 1) (hit = false)) (Session.Over req) := by
    intro s h
    refine ⟨h.1.count hit, fun hmiss hlimit => ?_⟩
    subst hmiss
    exact h.2 trivial hlimit
  unfold takeDecision
  refine hcount.bind fun _ => ?_
  cases req.onDecision with
  | none => exact fun _ h => h
  | some callback =>
    exact ends_callback (g := fun s => { s with user := (callback s.user ⟨index, hit⟩).1 }) fun s h =>
      ⟨⟨⟨h.1.seen, h.1.matched⟩, ⟨h.1.early, h.1.reason, h.1.asked⟩, h.1.length⟩, h.2⟩

theorem ends_deliverValue (capture hit : Bool) (r : Record) :
    Ends (Going req n c) (deliverValue req capture hit r) (fun _ => Going req n c) (Session.Over req) := by
  unfold deliverValue
  cases req.onValue with
  | none => exact fun _ h => h
  | some callback =>
    refine .ite (fun _ _ h => h) fun _ => .ite (fun _ => ends_fail (by simp)) fun _ => ?_
    exact ends_callback fun s h =>
      ⟨⟨⟨h.1.seen, h.1.matched⟩, ⟨h.1.early, h.1.reason, h.1.asked⟩, h.1.length⟩, h.2⟩

theorem ends_emit (written : Written) :
    Ends (Going req n c) (emit written : SessionM δ Unit) (fun _ => Going req n c) (Session.Over req) := by
  have hwritten : Ends (Going req n c) (modify fun s => { s with output := s.output ++ [written.1] } : SessionM δ Unit)
      (fun _ => Going req n c) (Session.Over req) := fun s h =>
    ⟨⟨⟨h.1.seen, h.1.matched⟩, ⟨h.1.early, h.1.reason, h.1.asked⟩, h.1.length⟩, h.2⟩
  refine hwritten.bind fun _ => ?_
  cases written.2 with
  | none => exact fun _ h => h
  | some e => exact .ite (fun _ _ h => h) fun h => ends_fail h

theorem ends_needObject {r : Record} {message : String} {go : SessionM δ Unit}
    (h : Ends (Going req n c) go (fun _ => Going req n c) (Session.Over req)) :
    Ends (Going req n c) (needObject r message go) (fun _ => Going req n c) (Session.Over req) :=
  .ite (fun _ => ends_fail (by simp)) fun _ => h

theorem ends_emitRecord (capture hit : Bool) (r : Record) :
    Ends (Going req n c) (emitRecord req capture hit r) (fun _ => Going req n c) (Session.Over req) := by
  have hpure : Ends (Going req n c) (pure () : SessionM δ Unit) (fun _ => Going req n c) (Session.Over req) :=
    fun _ h => h
  unfold emitRecord
  cases req.outputMode with
  | decisionOnly => exact hpure
  | selectedRecord =>
    exact .ite (fun _ => hpure) fun _ => .ite (fun _ => ends_emit _) fun _ => .ite (fun _ => ends_fail (by simp)) fun _ =>
      ends_emit _
  | projection =>
    exact .ite (fun _ => hpure) fun _ => ends_needObject (.ite (fun _ => ends_emit _) fun _ => hpure)
  | mutation =>
    exact .ite (fun _ => ends_needObject (ends_emit _)) fun _ => .ite (fun _ => hpure) fun _ =>
      .ite (fun _ => ends_fail (by simp)) fun _ => ends_emit _
  | projectionThenMutation =>
    exact .ite (fun _ => ends_needObject (ends_emit _)) fun _ => .ite (fun _ => hpure) fun _ =>
      ends_needObject (.ite (fun _ => ends_emit _) fun _ => hpure)

theorem ends_checkMatches (hit : Bool) :
    Ends (Going req n (hit = false)) (checkMatches req hit) (fun _ => Going req n True) (Session.Over req) := by
  intro s h
  rw [checkMatches_run]
  cases hreached : matchesReached req hit s with
  | true =>
    simp only [matchesReached, Bool.and_eq_true, decide_eq_true_eq] at hreached
    refine ⟨⟨h.1.seen, h.1.matched⟩, by simp, .inr ⟨rfl, ⟨rfl, .inr ⟨rfl, hreached.1.2, hreached.2⟩⟩, fun hasked => ?_⟩⟩
    exact absurd (h.1.asked.symm.trans hasked) (by simp)
  | false =>
    refine ⟨h.1, fun _ hlimit => ?_⟩
    cases hit with
    | false => exact h.2 rfl hlimit
    | true => simpa [matchesReached, hlimit] using hreached

/-- **A record** is counted, and leaves the run going or over. -/
theorem ends_recordDecided (capture hit : Bool) (r : Record) :
    Ends (Going req n True) (recordDecided req capture hit r) (fun _ => Going req (n + 1) True) (Session.Over req) :=
  (ends_takeDecision r.index hit).bind fun _ => (ends_deliverValue capture hit r).bind fun _ =>
    (ends_emitRecord capture hit r).bind fun _ => ends_checkMatches hit

end Records

/-! ## Whole runs -/

section Runs

variable (plan : Plan)

theorem termBatches_error {program : Program} {early : Bool} {text : Bytes} {status : Status} :
    ∀ {offsets : List Nat} {hits : Nat → Mask}, flatEqTermBatches program early text offsets hits = .error status →
      status ≠ .ok
  | [], _, h => by cases h
  | offset :: rest, hits, h => by
    rw [flatEqTermBatches] at h
    split at h
    · dsimp only at h
      split at h
      · cases h
      · exact termBatches_error h
    · next hbatch _ =>
      cases h
      exact hbatch

theorem captureBatches_error {keys : List (List Bytes)} {text : Bytes} {e : Err} :
    ∀ {offsets : List Nat} {spans : List CaptureSpan}, flatEqCaptureBatches keys text offsets spans = .error e →
      e.status ≠ .ok
  | [], _, h => by cases h
  | offset :: rest, spans, h => by
    rw [flatEqCaptureBatches] at h
    split at h
    · exact captureBatches_error h
    · next hbatch _ =>
      cases h
      exact hbatch

/-- What holds of `recordDecided` holds of a record, whatever the plan: the batches of a wide plan decide it, or
stop. -/
theorem judge_induct {motive : SessionM δ Unit → Prop} (r : Record)
    (hdecided : ∀ hit r', motive (recordDecided req plan.capture hit r'))
    (hthrow : ∀ status, status ≠ .ok → motive (throw status)) (hfail : ∀ e, e.status ≠ .ok → motive (fail e)) :
    motive (plan.judge req r) := by
  unfold Plan.judge
  split
  · unfold flatEqBatchedRecord
    dsimp only
    split
    · next h => exact hthrow _ (termBatches_error h)
    · exact hdecided _ _
    · split
      · next h => exact hfail _ (captureBatches_error h)
      · exact hdecided _ _
  · exact hdecided _ _

theorem adds_judge (r : Record) : Adds (plan.judge req r) :=
  judge_induct req plan r (fun _ _ => adds_recordDecided req _ _ _) (fun _ _ => Session.Before.refl)
    fun _ _ => adds_fail _

theorem ends_judge {n : Nat} (r : Record) :
    Ends (Going req n True) (plan.judge req r) (fun _ => Going req (n + 1) True) (Session.Over req) :=
  judge_induct req plan (motive := fun x => Ends (Going req n True) x (fun _ => Going req (n + 1) True)
    (Session.Over req)) r (fun _ _ => ends_recordDecided _ _ _) (fun _ h => ends_throw h)
    fun _ h => ends_fail h

theorem cut_judge (r : Record) : Cut req (plan.judge req r) (plan.judge req.unlimited r) := by
  unfold Plan.judge
  refine .ite ?_ (cut_recordDecided req _ _ _)
  unfold flatEqBatchedRecord
  dsimp only
  split
  · next h =>
    rw [show req.unlimited.matchedOnly = req.matchedOnly from rfl, h]
    exact .refl _
  · next h =>
    rw [show req.unlimited.matchedOnly = req.matchedOnly from rfl, h]
    exact cut_recordDecided req _ _ _
  · next h =>
    rw [show req.unlimited.matchedOnly = req.matchedOnly from rfl, h]
    dsimp only
    split
    · exact .refl _
    · exact cut_recordDecided req _ _ _

theorem plan_unlimited (allowSpool : Bool) : flatEqPlan req.unlimited allowSpool = flatEqPlan req allowSpool := by
  have hvalue : req.unlimited.onValue.isSome = req.onValue.isSome := Option.isSome_map ..
  unfold flatEqPlan
  rw [hvalue]
  rfl

/-- The run is the run without limits: nothing has stopped it, and where it ends well no limit has been reached. -/
structure Unstopped (o o' : Outcome (Session δ)) : Prop extends o.user.Counted, o.user.Free where
  same : o' = o
  free : o.limitStop = false
  open_ : o.status = .ok →
    o.user.Few req ∧ (req.limits.maxRecords ≠ 0 → o.user.result.recordsSeen < req.limits.maxRecords)

/-- The run has been stopped short of the run without limits, by the record it has just looked at or by a limit of
the scan. -/
structure Stopped (o o' : Outcome (Session δ)) : Prop extends o.user.Counted where
  before : o.user.Before o'.user
  status : o.status = .stop
  cause : o.limitStop = false ∧ o.user.Halted req ∧ (o.user.asked = true → o.user.result.stopReason = .callback) ∨
    o.limitStop = true ∧ o.user.Free ∧
      (req.limits.maxRecords ≠ 0 ∧ req.limits.maxRecords ≤ o.user.result.recordsSeen ∨
        req.limits.maxBytes ≠ 0 ∧ req.limits.maxBytes ≤ o.bytesRead)

/-- Whatever is played adds to what has gone out. -/
theorem play_adds (t : Trace) : ∀ (steps : List TraceStep) (records bytesRead : Nat) (s : Session δ),
    s.Before (play (plan.request req) t records bytesRead s steps).user
  | [], records, bytesRead, s => by
    rw [play]
    split
    · exact .refl s
    · rw [Trace.finish_user]
      exact .refl s
  | step :: rest, records, bytesRead, s => by
    have hstep : s.Before ((plan.request req).record s step.record).1 := by
      have h := adds_judge req plan step.record s
      show s.Before (returned s (plan.judge req step.record)).1
      rw [returned]
      cases hr : plan.judge req step.record s with
      | ok u t => simpa only [hr, left] using h
      | error e t => simpa only [hr, left] using h
    rw [play]
    split
    · exact .refl s
    dsimp only
    split
    · exact hstep
    split
    · exact hstep
    · exact hstep.trans (play_adds t rest _ _ _)

/-- **A run with limits against the run without**, from any point on. -/
theorem play_cut (t : Trace) : ∀ (steps : List TraceStep) (records bytesRead : Nat) (s : Session δ),
    Going req records True s → (∀ step ∈ steps, step.consumed ≤ step.bytesRead) →
    Unstopped req (play (plan.request req) t records bytesRead s steps)
        (play (plan.request req.unlimited) t records bytesRead s steps) ∨
      Stopped req (play (plan.request req) t records bytesRead s steps)
        (play (plan.request req.unlimited) t records bytesRead s steps)
  | [], records, bytesRead, s, hgo, _ => by
    have hlive := hgo.1
    have hnever : (plan.request req.unlimited).full records = false := rfl
    rw [play, play, if_neg (c := t.ending ≠ none ∧ (plan.request req.unlimited).full records = true) (by simp [hnever])]
    split
    · next hfull =>
      right
      have hmost := ((plan.request req).full_iff records).mp hfull.2
      refine ⟨⟨hlive.seen, hlive.matched⟩, ?_, rfl, .inr ⟨rfl, ⟨hlive.early, hlive.reason, hlive.asked⟩, .inl ⟨hmost.1, ?_⟩⟩⟩
      · rw [Trace.finish_user]
        exact .refl s
      · rw [hlive.seen, hlive.length]
        exact hmost.2
    · next hfull =>
      left
      rw [Trace.finish]
      split
      · exact ⟨⟨hlive.seen, hlive.matched⟩, ⟨hlive.early, hlive.reason, hlive.asked⟩, rfl, rfl, by simp⟩
      · next hending =>
        refine ⟨⟨hlive.seen, hlive.matched⟩, ⟨hlive.early, hlive.reason, hlive.asked⟩, rfl, rfl, fun _ =>
          ⟨hgo.2 trivial, fun hmost => ?_⟩⟩
        rw [hlive.seen, hlive.length]
        refine Nat.lt_of_not_le fun hle => hfull ⟨by simp [hending], ?_⟩
        exact ((plan.request req).full_iff records).mpr ⟨hmost, hle⟩
  | step :: rest, records, bytesRead, s, hgo, hread => by
    have hlive := hgo.1
    have hends := ends_judge req plan step.record s hgo
    have hunlimited : ∀ {s'}, plan.judge req.unlimited step.record s = .ok () s' →
        play (plan.request req.unlimited) t records bytesRead s (step :: rest) =
          play (plan.request req.unlimited) t (records + 1) step.bytesRead s' rest := by
      intro s' hy
      have hrecord : (plan.request req.unlimited).record s step.record = (s', .ok) := by
        show returned s (plan.judge req.unlimited step.record) = _
        rw [returned, hy]
      rw [play, if_neg (by exact Bool.false_ne_true), hrecord]
      rfl
    have hover : ∀ {e s'}, e ≠ Status.ok → plan.judge req.unlimited step.record s = .error e s' →
        play (plan.request req.unlimited) t records bytesRead s (step :: rest) =
          { status := e, records := records + 1, bytesRead := step.bytesRead, user := s' } := by
      intro e s' he hy
      have hrecord : (plan.request req.unlimited).record s step.record = (s', e) := by
        show returned s (plan.judge req.unlimited step.record) = _
        rw [returned, hy]
      rw [play, if_neg (by exact Bool.false_ne_true), hrecord]
      exact if_pos he
    by_cases hfull : (plan.request req).full records = true
    · right
      have hmost := ((plan.request req).full_iff records).mp hfull
      have hadds := play_adds req.unlimited plan t (step :: rest) records bytesRead s
      rw [play, if_pos hfull]
      refine ⟨⟨hlive.seen, hlive.matched⟩, hadds, rfl, .inr ⟨rfl, ⟨hlive.early, hlive.reason, hlive.asked⟩,
        .inl ⟨hmost.1, ?_⟩⟩⟩
      rw [hlive.seen, hlive.length]
      exact hmost.2
    rw [play.eq_2 (plan.request req), if_neg hfull]
    have hrecord : (plan.request req).record s step.record = returned s (plan.judge req step.record) := rfl
    rw [hrecord, returned]
    cases hx : plan.judge req step.record s with
    | ok u s1 =>
      rw [hx] at hends
      have hy : plan.judge req.unlimited step.record s = .ok () s1 := by
        rcases cut_judge req plan step.record s with h | ⟨e, s2, h, -⟩
        · exact h.trans hx
        · rw [hx] at h
          cases h
      rw [hunlimited hy]
      dsimp only
      rw [if_neg (by simp)]
      split
      · next hsated =>
        right
        have hlive1 := hends.1
        have hmost := ((plan.request req).sated_iff step.consumed).mp hsated
        refine ⟨⟨hlive1.seen, hlive1.matched⟩, play_adds req.unlimited plan t rest _ _ _, rfl, .inr ⟨rfl,
          ⟨hlive1.early, hlive1.reason, hlive1.asked⟩, .inr ⟨hmost.1, ?_⟩⟩⟩
        exact hmost.2.trans (hread step List.mem_cons_self)
      · exact play_cut t rest _ _ s1 hends fun step hmem => hread step (List.mem_cons_of_mem _ hmem)
    | error e s1 =>
      rw [hx] at hends
      dsimp only
      rw [if_pos hends.failed]
      rcases cut_judge req plan step.record s with h | ⟨e', s2, h, hcut, hext⟩
      · rw [hover hends.failed (h.trans hx)]
        rcases hends.ending with hfree | ⟨rfl, hhalted, hasked⟩
        · exact .inl ⟨⟨hends.seen, hends.matched⟩, hfree, rfl, rfl, fun hok => absurd hok hends.failed⟩
        · exact .inr ⟨⟨hends.seen, hends.matched⟩, .refl s1, rfl, .inl ⟨rfl, hhalted, hasked⟩⟩
      · rw [hx] at h
        cases h
        obtain ⟨rfl, hhalted⟩ := hcut
        refine .inr ⟨⟨hends.seen, hends.matched⟩, ?_, rfl, .inl ⟨rfl, hhalted, ?_⟩⟩
        · cases hy : plan.judge req.unlimited step.record s with
          | ok u s2 =>
            rw [hy] at hext
            rw [hunlimited hy]
            exact Session.Before.trans hext (play_adds req.unlimited plan t rest _ _ _)
          | error e s2 =>
            have hgo' : Going req.unlimited records True s := ⟨hlive, fun _ hlimit => absurd rfl hlimit⟩
            have hends' := ends_judge req.unlimited plan step.record s hgo'
            rw [hy] at hext hends'
            rw [hover hends'.failed hy]
            exact hext
        · rcases hends.ending with hfree | ⟨-, -, hasked⟩
          · exact absurd (hfree.early.symm.trans hhalted.1) (by simp)
          · exact hasked

/-- The reason that the result gives is there: a callback has asked, or the limit has been reached. -/
def Session.ReasonHolds (s : Session δ) : Prop :=
  match s.result.stopReason with
  | .none => False
  | .recordLimit => req.limits.maxRecords ≠ 0 ∧ req.limits.maxRecords ≤ s.result.recordsSeen
  | .matchLimit => req.limits.maxMatches ≠ 0 ∧ req.limits.maxMatches ≤ s.result.recordsMatched
  | .byteLimit => req.limits.maxBytes ≠ 0 ∧ req.limits.maxBytes ≤ s.result.bytesConsumed
  | .callback => s.asked = true

/-- A run with limits, `cut`, against the run without, `full`. -/
structure CutOff (cut full : Session δ × Status) : Prop extends cut.1.Counted, cut.1.Before full.1 where
  /-- A run that was stopped early went well, for a reason that is there. -/
  halted : cut.1.result.stoppedEarly = true → cut.2 = .ok ∧ cut.1.ReasonHolds req
  /-- One that was not is the run without limits, and where it went well no limit on records was reached. -/
  whole : cut.1.result.stoppedEarly = false → cut = full ∧ cut.1.result.stopReason = .none ∧
    (cut.2 = .ok → cut.1.Few req ∧
      (req.limits.maxRecords ≠ 0 → cut.1.result.recordsSeen < req.limits.maxRecords))
  /-- A callback that asks to stop is heard. -/
  asked : cut.1.asked = true → cut.1.result.stoppedEarly = true ∧ cut.1.result.stopReason = .callback

theorem noteLimit_free {reason : StopReason} {limit reached : Nat} {o : Outcome (Session δ)} {result : StreamResult}
    (h : o.limitStop = false) : noteLimit reason limit reached o result = result :=
  if_neg (by simp [h])

theorem noteLimit_early {reason : StopReason} {limit reached : Nat} {o : Outcome (Session δ)} {result : StreamResult}
    (h : result.stoppedEarly = true) : noteLimit reason limit reached o result = result :=
  if_neg (by simp [h])

theorem noteLimit_zero {reason : StopReason} {reached : Nat} {o : Outcome (Session δ)} {result : StreamResult} :
    noteLimit reason 0 reached o result = result :=
  if_neg (by simp)

/-- A run that nothing has stopped is finished as it is. -/
theorem finish_free {o : Outcome (Session δ)} (h : o.limitStop = false) :
    finish req o = ({ o.user with result := { o.user.result with bytesConsumed := o.bytesRead } },
      if o.status = .stop && o.user.result.stoppedEarly then .ok else o.status) := by
  unfold finish
  dsimp only
  rw [noteLimit_free h, noteLimit_free h]

theorem Unstopped.cutOff {o o' : Outcome (Session δ)} (h : Unstopped req o o') :
    CutOff req (finish req o) (finish req.unlimited o') := by
  have hearly := h.early
  rw [h.same, finish_free req h.free, finish_free req.unlimited h.free, hearly, Bool.and_false,
    if_neg Bool.false_ne_true]
  refine ⟨⟨h.seen, h.matched⟩, .refl _, fun hstop => ?_, fun _ => ⟨rfl, h.reason, h.open_⟩, fun hasked => ?_⟩
  · exact absurd (hearly.symm.trans hstop) Bool.false_ne_true
  · exact absurd (h.asked.symm.trans hasked) Bool.false_ne_true

/-- Where the scan has stopped at a limit, that limit is found, or another one that is reached as well. -/
theorem noteLimit_found {o : Outcome (Session δ)} (hstatus : o.status = .stop) (hlimit : o.limitStop = true)
    (hfree : o.user.Free) (hreached : req.limits.maxRecords ≠ 0 ∧ req.limits.maxRecords ≤ o.user.result.recordsSeen ∨
      req.limits.maxBytes ≠ 0 ∧ req.limits.maxBytes ≤ o.bytesRead) :
    (finish req o).1.result.stoppedEarly = true ∧ (finish req o).1.ReasonHolds req ∧ (finish req o).2 = .ok ∧
      (finish req o).1.result.recordsSeen = o.user.result.recordsSeen ∧
      (finish req o).1.result.recordsMatched = o.user.result.recordsMatched := by
  have hearly := hfree.early
  unfold finish
  dsimp only
  by_cases hrecords : req.limits.maxRecords ≠ 0 ∧ req.limits.maxRecords ≤ o.user.result.recordsSeen
  · rw [noteLimit.eq_1 .recordLimit, if_pos (by simp [hstatus, hlimit, hearly, hrecords.1, hrecords.2]),
      noteLimit_early rfl]
    exact ⟨rfl, hrecords, by simp [hstatus], rfl, rfl⟩
  · have hbytes := hreached.resolve_left hrecords
    have hnot : noteLimit .recordLimit req.limits.maxRecords o.user.result.recordsSeen o
        { o.user.result with bytesConsumed := o.bytesRead } = { o.user.result with bytesConsumed := o.bytesRead } := by
      refine if_neg fun h => hrecords ?_
      simp only [Bool.and_eq_true, decide_eq_true_eq] at h
      exact ⟨h.1.2, h.2⟩
    rw [hnot, noteLimit, if_pos (by simp [hstatus, hlimit, hearly, hbytes.1, hbytes.2])]
    exact ⟨rfl, hbytes, by simp [hstatus], rfl, rfl⟩

theorem finish_user (o : Outcome (Session δ)) : (finish req o).1.decisions = o.user.decisions ∧
    (finish req o).1.values = o.user.values ∧ (finish req o).1.output = o.user.output ∧
    (finish req o).1.asked = o.user.asked := ⟨rfl, rfl, rfl, rfl⟩

theorem Stopped.cutOff {o o' : Outcome (Session δ)} (h : Stopped req o o') :
    CutOff req (finish req o) (finish req.unlimited o') := by
  have hbefore : (finish req o).1.Before (finish req.unlimited o').1 :=
    ⟨h.before.decisions, h.before.values, h.before.output⟩
  rcases h.cause with ⟨hlimit, hhalted, hasked⟩ | ⟨hlimit, hfree, hreached⟩
  · have hearly := hhalted.1
    rw [finish_free req hlimit] at hbefore ⊢
    refine ⟨⟨h.seen, h.matched⟩, hbefore, fun _ => ⟨by simp [h.status, hearly], ?_⟩, fun hstop => ?_, fun ha =>
      ⟨hearly, hasked ha⟩⟩
    · rcases hhalted.2 with ⟨hreason, ha⟩ | ⟨hreason, hmost⟩
      · simpa only [Session.ReasonHolds, hreason] using ha
      · simpa only [Session.ReasonHolds, hreason] using hmost
    · exact absurd (hearly.symm.trans hstop) (by simp)
  · obtain ⟨hearly, hreason, hok, hseen, hmatched⟩ := noteLimit_found req h.status hlimit hfree hreached
    refine ⟨⟨hseen.trans h.seen, hmatched.trans h.matched⟩, hbefore, fun _ => ⟨hok, hreason⟩, fun hstop => ?_, fun ha => ?_⟩
    · exact absurd (hearly.symm.trans hstop) (by simp)
    · exact absurd (hfree.asked.symm.trans ha) (by simp)

/-- A run that has not looked at a record. -/
theorem cutOff_refused (user : δ) (error : Option Err) (status : Status) :
    CutOff req (({ user, error } : Session δ), status) ({ user, error }, status) := by
  refine ⟨⟨rfl, rfl⟩, .refl _, fun hstop => ?_, fun _ => ⟨rfl, rfl, fun _ => ?_⟩, fun hasked => ?_⟩
  · cases hstop
  · exact ⟨fun hlimit => Nat.pos_of_ne_zero hlimit, fun hlimit => Nat.pos_of_ne_zero hlimit⟩
  · cases hasked

theorem streamApplyFlatEq_cutOff (allowSpool : Bool) (chunks : List Bytes) (user : δ) :
    CutOff req (streamApplyFlatEq req allowSpool chunks user) (streamApplyFlatEq req.unlimited allowSpool chunks user) := by
  rw [streamApplyFlatEq, streamApplyFlatEq, plan_unlimited]
  cases flatEqPlan req allowSpool with
  | error e => exact cutOff_refused req user _ _
  | ok plan =>
    dsimp only
    have hgo : Going req 0 True ({ user } : Session δ) :=
      ⟨⟨⟨rfl, rfl⟩, ⟨rfl, rfl, rfl⟩, rfl⟩, fun _ hlimit => Nat.pos_of_ne_zero hlimit⟩
    by_cases hwide : (plan.request req).ctx.n > wordBits ∨ (plan.request req).ctx.captureKeys.length > wordBits
    · have hwide' : (plan.request req.unlimited).ctx.n > wordBits ∨
          (plan.request req.unlimited).ctx.captureKeys.length > wordBits := hwide
      rw [scanFlatEqNdjson, if_pos hwide, scanFlatEqNdjson, if_pos hwide']
      exact Unstopped.cutOff req ⟨⟨rfl, rfl⟩, ⟨rfl, rfl, rfl⟩, rfl, rfl, by simp⟩
    · have hwide' : ¬ ((plan.request req.unlimited).ctx.n > wordBits ∨
          (plan.request req.unlimited).ctx.captureKeys.length > wordBits) := hwide
      rw [scan_play _ _ _ hwide, scan_play _ _ _ hwide']
      rcases play_cut req plan _ _ 0 0 _ hgo (traceLoop_read _ _ _ _) with h | h
      · exact h.cutOff
      · exact h.cutOff

end Runs

end Lql.Stream
