import Lql.Lib.Sim

/-!
# Going on alike

Two computations over a state, and two runs of them from related states, of which the first sees less of what is to come.
Where the first ends well before all is used up, the second ends with the same answer in a related state. Nothing is said
of a run that uses up all there is.
-/

namespace Lib

section Follow

variable {ε σ α β : Type}

/-- From `s` and `t`, `y` goes on as `x` does, as long as something is left. -/
def FollowsAt (R : σ → σ → Prop) (live : σ → Prop) (x y : EStateM ε σ α) (s t : σ) : Prop :=
  ∀ a s', x s = .ok a s' → live s' → live s ∧ ∃ t', y t = .ok a t' ∧ R s' t'

/-- From related states, `y` goes on as `x` does, as long as something is left. -/
def Follows (R : σ → σ → Prop) (live : σ → Prop) (x y : EStateM ε σ α) : Prop :=
  ∀ s t, R s t → FollowsAt R live x y s t

variable {R : σ → σ → Prop} {live : σ → Prop}

theorem Follows.pure (a : α) : Follows (ε := ε) R live (pure a) (pure a) := by
  intro s t hR b s' h hlive
  cases h
  exact ⟨hlive, t, rfl, hR⟩

/-- What never ends well is followed by anything. -/
theorem Follows.throw (e : ε) (y : EStateM ε σ α) : Follows R live (throw e) y := by
  intro s t _ a s' h
  cases h

theorem follows_throw_bind (e : ε) (k : α → EStateM ε σ β) (y : EStateM ε σ β) : Follows R live (throw e >>= k) y := by
  intro s t _ a s' h
  cases h

theorem Follows.modify {f : σ → σ} (h : ∀ s t, R s t → R (f s) (f t)) (hlive : ∀ s, live (f s) → live s) :
    Follows (ε := ε) R live (modify f) (modify f) := by
  intro s t hR a s' hx hl
  cases hx
  exact ⟨hlive s hl, f t, rfl, h s t hR⟩

theorem FollowsAt.ite {c : Prop} [Decidable c] {x x' y y' : EStateM ε σ α} {s t : σ}
    (hx : c → FollowsAt R live x x' s t) (hy : ¬ c → FollowsAt R live y y' s t) :
    FollowsAt R live (if c then x else y) (if c then x' else y') s t := by
  by_cases hc : c
  · rw [if_pos hc, if_pos hc]
    exact hx hc
  · rw [if_neg hc, if_neg hc]
    exact hy hc

theorem Follows.ite {c : Prop} [Decidable c] {x x' y y' : EStateM ε σ α} (hx : c → Follows R live x x')
    (hy : ¬ c → Follows R live y y') : Follows R live (if c then x else y) (if c then x' else y') :=
  fun s t hR => .ite (fun hc => hx hc s t hR) fun hc => hy hc s t hR

/-- One after the other. What is left behind both was left behind the first, as the second computation shows when it is
followed by itself. -/
theorem FollowsAt.bind [Std.Refl R] {x y : EStateM ε σ α} {f g : α → EStateM ε σ β} {s t : σ}
    (hx : FollowsAt R live x y s t) (hf : ∀ a, Follows R live (f a) (g a)) : FollowsAt R live (x >>= f) (y >>= g) s t := by
  intro b s2 h hlive
  cases hr : x s with
  | error e s1 =>
    rw [bind_error hr] at h
    cases h
  | ok a s1 =>
    rw [bind_ok hr] at h
    have hlive1 := (hf a s1 s1 (Std.Refl.refl s1) b s2 h hlive).1
    obtain ⟨hl, t1, hy, hR⟩ := hx a s1 hr hlive1
    obtain ⟨-, t2, hg, hR2⟩ := hf a s1 t1 hR b s2 h hlive
    exact ⟨hl, t2, (bind_ok hy _).trans hg, hR2⟩

theorem Follows.bind [Std.Refl R] {x y : EStateM ε σ α} {f g : α → EStateM ε σ β} (hx : Follows R live x y)
    (hf : ∀ a, Follows R live (f a) (g a)) : Follows R live (x >>= f) (y >>= g) :=
  fun s t hR => (hx s t hR).bind hf

/-- The state is read: what comes then is compared state by state. -/
theorem Follows.get_bind {f g : σ → EStateM ε σ α} (h : ∀ s t, R s t → FollowsAt R live (f s) (g t) s t) :
    Follows R live (get >>= f) (get >>= g) := h

/-- The state is written. -/
theorem FollowsAt.set_bind [Std.Refl R] {u v s t : σ} {f g : PUnit → EStateM ε σ α} (hlive : live u → live s)
    (hR : live u → R u v) (h : Follows R live (f ⟨⟩) (g ⟨⟩)) : FollowsAt R live (set u >>= f) (set v >>= g) s t := by
  intro b s2 hx hl
  have hu := (h u u (Std.Refl.refl u) b s2 hx hl).1
  obtain ⟨-, t2, hy, hR2⟩ := h u v (hR hu) b s2 hx hl
  exact ⟨hlive hu, t2, hy, hR2⟩

/-- Both computations do from here what is known of them from there. -/
theorem FollowsAt.congr {x x' y y' : EStateM ε σ α} {s t u v : σ} (h : FollowsAt R live x y u v) (hx : x' s = x u)
    (hy : y' t = y v) (hlive : live u → live s) : FollowsAt R live x' y' s t := by
  intro a s' hr hl
  obtain ⟨hu, t', ht, hR⟩ := h a s' (hx.symm.trans hr) hl
  exact ⟨hlive hu, t', hy.trans ht, hR⟩

end Follow

end Lib
