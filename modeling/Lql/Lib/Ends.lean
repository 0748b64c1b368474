/-!
# Computations with a state that can stop

A computation that keeps a state and can stop in the middle leaves a state behind in both cases. What it promises is
said of both: from a state in `P` it ends in `Q` of its answer, and where it stops, in `R` of the reason.
-/

namespace Lib

variable {ε σ α β : Type}

/-- From a state in `P` the computation ends in `Q` of its answer, and where it stops, in `R`. -/
def Ends (P : σ → Prop) (x : EStateM ε σ α) (Q : α → σ → Prop) (R : ε → σ → Prop) : Prop :=
  ∀ s, P s → match x s with
    | .ok a s' => Q a s'
    | .error e s' => R e s'

variable {P P' : σ → Prop} {Q Q' : α → σ → Prop} {R : ε → σ → Prop} {S : β → σ → Prop}

theorem Ends.bind {x : EStateM ε σ α} {f : α → EStateM ε σ β} (hx : Ends P x Q R) (hf : ∀ a, Ends (Q a) (f a) S R) :
    Ends P (x >>= f) S R := by
  intro s hs
  have h := hx s hs
  change match EStateM.bind x f s with
    | .ok a s' => S a s'
    | .error e s' => R e s'
  unfold EStateM.bind
  cases hr : x s with
  | ok a s' =>
    rw [hr] at h
    exact hf a s' h
  | error e s' =>
    rw [hr] at h
    exact h

theorem Ends.pure {a : α} (h : ∀ s, P s → Q a s) : Ends (ε := ε) P (pure a) Q R := h

theorem Ends.throw {e : ε} (h : ∀ s, P s → R e s) : Ends P (throw e : EStateM ε σ α) Q R := h

/-- The state at hand is known from here on. -/
theorem Ends.get_bind {f : σ → EStateM ε σ α} (h : ∀ s, P s → Ends (· = s) (f s) Q R) :
    Ends P (get >>= f) Q R := fun s hs => h s hs s rfl

theorem Ends.weaken {x : EStateM ε σ α} (h : Ends P' x Q' R) (hP : ∀ s, P s → P' s) (hQ : ∀ a s, Q' a s → Q a s) :
    Ends P x Q R := by
  intro s hs
  have hr := h s (hP s hs)
  cases hx : x s with
  | ok a s' =>
    rw [hx] at hr
    exact hQ a s' hr
  | error e s' =>
    rw [hx] at hr
    exact hr

theorem Ends.stops {R' : ε → σ → Prop} {x : EStateM ε σ α} (h : Ends P x Q R') (hR : ∀ e s, R' e s → R e s) : Ends P x Q R := by
  intro s hs
  have hr := h s hs
  cases hx : x s with
  | ok a s' =>
    rw [hx] at hr
    exact hr
  | error e s' =>
    rw [hx] at hr
    exact hR e s' hr

/-- What is known of no state is known from here on. -/
theorem Ends.of_fact {c : Prop} {x : EStateM ε σ α} (h : c → Ends P x Q R) : Ends (fun s => P s ∧ c) x Q R :=
  fun s hs => h hs.2 s hs.1

theorem Ends.of_exists {ι : Type} {P : ι → σ → Prop} {x : EStateM ε σ α} (h : ∀ i, Ends (P i) x Q R) :
    Ends (fun s => ∃ i, P i s) x Q R :=
  fun s ⟨i, hs⟩ => h i s hs

theorem Ends.ite {c : Prop} [Decidable c] {x y : EStateM ε σ α} (hx : c → Ends P x Q R) (hy : ¬ c → Ends P y Q R) :
    Ends P (if c then x else y) Q R := by
  split
  · exact hx ‹_›
  · exact hy ‹_›

/-- A case distinction on the state at hand. -/
theorem Ends.cases {c : σ → Prop} {x : EStateM ε σ α} (hx : Ends (fun s => P s ∧ c s) x Q R)
    (hy : Ends (fun s => P s ∧ ¬ c s) x Q R) : Ends P x Q R := by
  intro s hs
  by_cases hc : c s
  · exact hx s ⟨hs, hc⟩
  · exact hy s ⟨hs, hc⟩

/-- How a computation goes on where its first part comes to an end. -/
theorem ok_bind {x : EStateM ε σ α} {f : α → EStateM ε σ β} {s t : σ} {a : α} (h : x s = .ok a t) :
    (x >>= f) s = f a t := by
  change EStateM.bind x f s = _
  rw [EStateM.bind, h]

theorem get_run (f : σ → EStateM ε σ α) (s : σ) : (get >>= f) s = f s s := rfl

theorem Ends.ok {x : EStateM ε σ α} {a : α} {s s' : σ} (h : Ends P x Q R) (hs : P s) (hx : x s = .ok a s') : Q a s' := by
  have hr := h s hs
  rw [hx] at hr
  exact hr

theorem Ends.error {x : EStateM ε σ α} {e : ε} {s s' : σ} (h : Ends P x Q R) (hs : P s) (hx : x s = .error e s') :
    R e s' := by
  have hr := h s hs
  rw [hx] at hr
  exact hr

/-- What has no reason to stop comes to its end. -/
theorem Ends.total {x : EStateM ε σ α} {s : σ} (h : Ends P x Q R) (hs : P s) (hR : ∀ e t, ¬ R e t) :
    ∃ a t, x s = .ok a t ∧ Q a t := by
  cases hx : x s with
  | ok a t => exact ⟨a, t, rfl, h.ok hs hx⟩
  | error e t => exact absurd (h.error hs hx) (hR e t)

end Lib
