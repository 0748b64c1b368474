import Lql.Lib.Ends

/-!
# Stopping short

Two computations with the same state, of which one may stop where the other goes on. As long as it does not, they do
the same; where it does, what the other leaves behind is an extension of what the one has left.
-/

namespace Lib

variable {ε σ α β : Type}

/-- The state that a computation leaves behind. -/
def left : EStateM.Result ε σ α → σ
  | .ok _ s => s
  | .error _ s => s

/-- Whatever the computation does extends the state. -/
def Extends (ext : σ → σ → Prop) (x : EStateM ε σ α) : Prop := ∀ s, ext s (left (x s))

/-- `x` does what `y` does, or stops short of it: then `cut` holds of the reason and the state. -/
def Short (ext : σ → σ → Prop) (cut : ε → σ → Prop) (x y : EStateM ε σ α) : Prop :=
  ∀ s, y s = x s ∨ ∃ e t, x s = .error e t ∧ cut e t ∧ ext t (left (y s))

variable {ext : σ → σ → Prop} {cut : ε → σ → Prop}

theorem left_bind (x : EStateM ε σ α) (f : α → EStateM ε σ β) (s : σ) :
    left ((x >>= f) s) = match x s with
      | .ok a t => left (f a t)
      | .error _ t => t := by
  change left (EStateM.bind x f s) = _
  unfold EStateM.bind
  cases x s <;> rfl

section Extends

variable (hrefl : ∀ s, ext s s) (htrans : ∀ s t u, ext s t → ext t u → ext s u)
include hrefl

theorem Extends.pure (a : α) : Extends (ε := ε) ext (pure a) := hrefl

theorem Extends.throw (e : ε) : Extends ext (throw e : EStateM ε σ α) := hrefl

omit hrefl

theorem Extends.modify {f : σ → σ} (h : ∀ s, ext s (f s)) : Extends (ε := ε) ext (modify f) := h

include htrans

theorem Extends.bind {x : EStateM ε σ α} {f : α → EStateM ε σ β} (hx : Extends ext x) (hf : ∀ a, Extends ext (f a)) :
    Extends ext (x >>= f) := by
  intro s
  have h := hx s
  rw [left_bind]
  cases hr : x s with
  | ok a t =>
    rw [hr] at h
    exact htrans _ _ _ h (hf a t)
  | error e t =>
    rw [hr] at h
    exact h

end Extends

theorem Extends.get_bind {f : σ → EStateM ε σ α} (h : ∀ s, ext s (left (f s s))) : Extends ext (get >>= f) := h

/-- The state is read, and changed. -/
theorem Extends.update {g : σ → σ} {f : σ → EStateM ε σ α} (htrans : ∀ s t u, ext s t → ext t u → ext s u)
    (hg : ∀ s, ext s (g s)) (hf : ∀ s, Extends ext (f s)) :
    Extends ext (get >>= fun s => set (g s) >>= fun _ => f s) := fun s => htrans _ _ _ (hg s) (hf s (g s))

theorem Extends.ite {c : Prop} [Decidable c] {x y : EStateM ε σ α} (hx : Extends ext x) (hy : Extends ext y) :
    Extends ext (if c then x else y) := by
  split
  · exact hx
  · exact hy

theorem Short.refl (x : EStateM ε σ α) : Short ext cut x x := fun _ => .inl rfl

theorem Short.ite {c : Prop} [Decidable c] {x x' y y' : EStateM ε σ α} (hx : Short ext cut x x')
    (hy : Short ext cut y y') : Short ext cut (if c then x else y) (if c then x' else y') := by
  split
  · exact hx
  · exact hy

theorem Short.get_bind {f g : σ → EStateM ε σ α} (h : ∀ s, Short ext cut (f s) (g s)) :
    Short ext cut (get >>= f) (get >>= g) := fun s => h s s

theorem Short.update {g : σ → σ} {f f' : σ → EStateM ε σ α} (h : ∀ s, Short ext cut (f s) (f' s)) :
    Short ext cut (get >>= fun s => set (g s) >>= fun _ => f s) (get >>= fun s => set (g s) >>= fun _ => f' s) :=
  fun s => h s (g s)

/-- One after the other: where the first stops short, what comes behind it in the other only extends. -/
theorem Short.bind {x y : EStateM ε σ α} {f g : α → EStateM ε σ β} (htrans : ∀ s t u, ext s t → ext t u → ext s u)
    (hx : Short ext cut x y) (hf : ∀ a, Short ext cut (f a) (g a)) (hg : ∀ a, Extends ext (g a)) :
    Short ext cut (x >>= f) (y >>= g) := by
  intro s
  have hbind : ∀ {z : EStateM ε σ α} {k : α → EStateM ε σ β}, (z >>= k) s = match z s with
      | .ok a t => k a t
      | .error e t => .error e t := by
    intro z k
    change EStateM.bind z k s = _
    unfold EStateM.bind
    cases z s <;> rfl
  rcases hx s with hsame | ⟨e, t, hxs, hcut, hext⟩
  · cases hr : x s with
    | error e t =>
      left
      rw [hbind, hbind, hsame, hr]
    | ok a t =>
      rw [hbind, hbind, hsame, hr]
      exact hf a t
  · refine .inr ⟨e, t, ?_, hcut, ?_⟩
    · rw [hbind, hxs]
    · rw [left_bind]
      cases hr : y s with
      | error e' u =>
        rw [hr] at hext
        exact hext
      | ok a u =>
        rw [hr] at hext
        exact htrans _ _ _ hext (hg a u)

end Lib
