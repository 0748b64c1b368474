/-!
# Running against a reference

A program with state and errors, run beside a reference that either has no answer
or has one: the program fails exactly when the reference does, and otherwise ends
in a state related to the reference's. The rules follow the shape of the two
programs; a caller never looks at how a step was proved.
-/

namespace Lib

section Sim

variable {ε σ τ α β γ δ : Type} {E : ε → Prop}

/-- `x` from `s` does what the reference `p` does from `t`: it fails with an error of
`E` where `p` has no answer, and ends with `Q` where it has one. -/
def Sim (E : ε → Prop) (x : EStateM ε σ α) (p : StateT τ Option β) (s : σ) (t : τ)
    (Q : α → σ → β → τ → Prop) : Prop :=
  match p t with
  | none => ∃ e s', x s = .error e s' ∧ E e
  | some (b, t') => ∃ a s', x s = .ok a s' ∧ Q a s' b t'

theorem Sim.of_none {x : EStateM ε σ α} {p : StateT τ Option β} {s : σ} {t : τ}
    {Q : α → σ → β → τ → Prop} (hp : p t = none) (hx : ∃ e s', x s = .error e s' ∧ E e) :
    Sim E x p s t Q := by
  rw [Sim, hp]
  exact hx

theorem Sim.of_some {x : EStateM ε σ α} {p : StateT τ Option β} {s r : σ} {t u : τ} {a : α}
    {b : β} {Q : α → σ → β → τ → Prop} (hp : p t = some (b, u)) (hx : x s = .ok a r)
    (hQ : Q a r b u) : Sim E x p s t Q := by
  rw [Sim, hp]
  exact ⟨a, r, hx, hQ⟩

theorem Sim.fails {x : EStateM ε σ α} {p : StateT τ Option β} {s : σ} {t : τ}
    {Q : α → σ → β → τ → Prop} (h : Sim E x p s t Q) (hp : p t = none) :
    ∃ e s', x s = .error e s' ∧ E e := by
  rw [Sim, hp] at h
  exact h

theorem Sim.ends {x : EStateM ε σ α} {p : StateT τ Option β} {s : σ} {t u : τ} {b : β}
    {Q : α → σ → β → τ → Prop} (h : Sim E x p s t Q) (hp : p t = some (b, u)) :
    ∃ a s', x s = .ok a s' ∧ Q a s' b u := by
  rw [Sim, hp] at h
  exact h

theorem Sim.mono {x : EStateM ε σ α} {p : StateT τ Option β} {s : σ} {t : τ}
    {P Q : α → σ → β → τ → Prop} (h : Sim E x p s t P)
    (hPQ : ∀ a s' b t', P a s' b t' → Q a s' b t') : Sim E x p s t Q := by
  cases hp : p t with
  | none => exact .of_none hp (h.fails hp)
  | some r =>
    obtain ⟨a, s', hx, hP⟩ := h.ends hp
    exact .of_some hp hx (hPQ _ _ _ _ hP)

theorem Sim.of_pure {s : σ} {t : τ} {a : α} {b : β} {Q : α → σ → β → τ → Prop} (h : Q a s b t) :
    Sim E (pure a) (pure b) s t Q := ⟨a, s, rfl, h⟩

theorem Sim.of_throw {p : StateT τ Option β} {s : σ} {t : τ} {e : ε} {Q : α → σ → β → τ → Prop}
    (hp : p t = none) (he : E e) : Sim E (throw e) p s t Q := .of_none hp ⟨e, s, rfl, he⟩

theorem bind_ok {x : EStateM ε σ α} {s s' : σ} {a : α} (h : x s = .ok a s')
    (k : α → EStateM ε σ γ) : (x >>= k) s = k a s' := by
  show EStateM.bind x k s = _
  simp [EStateM.bind, h]

theorem bind_error {x : EStateM ε σ α} {s s' : σ} {e : ε} (h : x s = .error e s')
    (k : α → EStateM ε σ γ) : (x >>= k) s = .error e s' := by
  show EStateM.bind x k s = _
  simp [EStateM.bind, h]

theorem get_bind (k : σ → EStateM ε σ α) (s : σ) : (get >>= k) s = k s s := rfl

theorem set_bind (r : σ) (k : PUnit → EStateM ε σ α) (s : σ) : (set r >>= k) s = k ⟨⟩ r := rfl

theorem modify_bind (g : σ → σ) (k : PUnit → EStateM ε σ α) (s : σ) :
    (modify g >>= k) s = k ⟨⟩ (g s) := rfl

theorem Sim.bind {x : EStateM ε σ α} {p : StateT τ Option β} {k : α → EStateM ε σ γ}
    {q : β → StateT τ Option δ} {s : σ} {t : τ} {P : α → σ → β → τ → Prop}
    {Q : γ → σ → δ → τ → Prop} (h : Sim E x p s t P)
    (hk : ∀ a s' b t', p t = some (b, t') → P a s' b t' → Sim E (k a) (q b) s' t' Q) :
    Sim E (x >>= k) (p >>= q) s t Q := by
  have hpq : (p >>= q) t = (p t).bind fun r => q r.1 r.2 := rfl
  cases hp : p t with
  | none =>
    obtain ⟨e, s', hx, he⟩ := h.fails hp
    exact .of_none (by rw [hpq, hp]; rfl) ⟨e, s', bind_error hx k, he⟩
  | some r =>
    obtain ⟨b, t'⟩ := r
    obtain ⟨a, s', hx, hP⟩ := h.ends hp
    have h2 := hk _ _ _ _ hp hP
    have e1 : (p >>= q) t = q b t' := by rw [hpq, hp]; rfl
    have e2 : (x >>= k) s = k a s' := bind_ok hx k
    unfold Sim at h2 ⊢
    rw [e1, e2]
    exact h2

/-- A step of the program that the reference does not have. -/
theorem Sim.bind_left {x : EStateM ε σ α} {k : α → EStateM ε σ γ} {q : StateT τ Option δ} {s r : σ}
    {t : τ} {a : α} {Q : γ → σ → δ → τ → Prop} (hx : x s = .ok a r)
    (hk : Sim E (k a) q r t Q) : Sim E (x >>= k) q s t Q := by
  unfold Sim at hk ⊢
  rw [bind_ok hx k]
  exact hk

/-- A step of the reference that the program does not have. -/
theorem Sim.bind_right {x : EStateM ε σ α} {p : StateT τ Option β} {q : β → StateT τ Option δ}
    {s : σ} {t t' : τ} {b : β} {Q : α → σ → δ → τ → Prop} (hp : p t = some (b, t'))
    (hk : Sim E x (q b) s t' Q) : Sim E x (p >>= q) s t Q := by
  have e1 : (p >>= q) t = q b t' := by
    show (p t).bind _ = _
    rw [hp]
    rfl
  unfold Sim at hk ⊢
  rw [e1]
  exact hk

/-- Both programs, seen from another pair of states, with the same answers. -/
theorem Sim.congr {x y : EStateM ε σ α} {p q : StateT τ Option β} {s r : σ} {t u : τ}
    {Q : α → σ → β → τ → Prop} (h : Sim E x p s t Q) (hx : y r = x s) (hp : q u = p t) :
    Sim E y q r u Q := by
  unfold Sim at h ⊢
  rw [hx, hp]
  exact h

/-- The reference's answer, renamed. -/
theorem Sim.map_right {x : EStateM ε σ α} {p : StateT τ Option β} {q : StateT τ Option δ} {s : σ}
    {t u : τ} {P : α → σ → β → τ → Prop} {Q : α → σ → δ → τ → Prop} (g : β → δ)
    (h : Sim E x p s t P) (hq : q u = (p t).map fun r => (g r.1, r.2))
    (hPQ : ∀ a s' b t', P a s' b t' → Q a s' (g b) t') : Sim E x q s u Q := by
  cases hp : p t with
  | none => exact .of_none (by rw [hq, hp]; rfl) (h.fails hp)
  | some r =>
    obtain ⟨a, s', hx, hP⟩ := h.ends hp
    exact .of_some (by rw [hq, hp]; rfl) hx (hPQ _ _ _ _ hP)

/-- An answer that does not depend on the reference's state. -/
def liftO (o : Option β) : StateT τ Option β := fun t => o.map fun b => (b, t)

@[simp] theorem liftO_some (b : β) (t : τ) : liftO (some b) t = some (b, t) := rfl

@[simp] theorem liftO_none (t : τ) : (liftO none : StateT τ Option β) t = none := rfl

/-- The program does in one step what the reference does in two, with a check `g` in
the second: when the check fails the rest of the reference must have no answer. -/
theorem Sim.bind_check {ω : Type} {x : EStateM ε σ α} {k : α → EStateM ε σ γ}
    {p : StateT τ Option β} {g : β → Option ω} {q : β → StateT τ Option δ} {s : σ} {t : τ}
    {P : α → σ → ω → τ → Prop} {Q : γ → σ → δ → τ → Prop}
    (h : Sim E x (p >>= fun b => liftO (g b)) s t P)
    (hnone : ∀ b t', p t = some (b, t') → g b = none → q b t' = none)
    (hk : ∀ a s' b t' w, p t = some (b, t') → g b = some w → P a s' w t' →
      Sim E (k a) (q b) s' t' Q) :
    Sim E (x >>= k) (p >>= q) s t Q := by
  have e1 : (p >>= fun b => liftO (g b)) t = (p t).bind fun r => liftO (g r.1) r.2 := rfl
  have e2 : (p >>= q) t = (p t).bind fun r => q r.1 r.2 := rfl
  cases hp : p t with
  | none =>
    obtain ⟨e, s', hx, he⟩ := h.fails (by rw [e1, hp]; rfl)
    exact .of_none (by rw [e2, hp]; rfl) ⟨e, s', bind_error hx k, he⟩
  | some r =>
    obtain ⟨b, t'⟩ := r
    cases hg : g b with
    | none =>
      obtain ⟨e, s', hx, he⟩ := h.fails (by rw [e1, hp]; simp [hg])
      exact .of_none (by rw [e2, hp]; exact hnone b t' hp hg) ⟨e, s', bind_error hx k, he⟩
    | some w =>
      obtain ⟨a, s', hx, hP⟩ := h.ends (u := t') (b := w) (by rw [e1, hp]; simp [hg])
      exact .bind_left hx (.bind_right hp (hk a s' b t' w hp hg hP))

/-! ## A program that may refuse more -/

/-- As `Sim`, but where the reference has an answer in `F` the program may fail all the same. -/
def SimUpTo (E : ε → Prop) (F : β → Prop) (x : EStateM ε σ α) (p : StateT τ Option β) (s : σ) (t : τ)
    (Q : α → σ → β → τ → Prop) : Prop :=
  match p t with
  | none => ∃ e s', x s = .error e s' ∧ E e
  | some (b, t') =>
    (∃ a s', x s = .ok a s' ∧ Q a s' b t') ∨ (F b ∧ ∃ e s', x s = .error e s' ∧ E e)

theorem SimUpTo.of_none {F : β → Prop} {x : EStateM ε σ α} {p : StateT τ Option β} {s : σ} {t : τ}
    {Q : α → σ → β → τ → Prop} (hp : p t = none) (hx : ∃ e s', x s = .error e s' ∧ E e) :
    SimUpTo E F x p s t Q := by
  rw [SimUpTo, hp]
  exact hx

theorem SimUpTo.of_some {F : β → Prop} {x : EStateM ε σ α} {p : StateT τ Option β} {s : σ} {t u : τ}
    {b : β} {Q : α → σ → β → τ → Prop} (hp : p t = some (b, u))
    (hx : (∃ a s', x s = .ok a s' ∧ Q a s' b u) ∨ (F b ∧ ∃ e s', x s = .error e s' ∧ E e)) :
    SimUpTo E F x p s t Q := by
  rw [SimUpTo, hp]
  exact hx

theorem SimUpTo.of_fails {F : β → Prop} {x : EStateM ε σ α} {p : StateT τ Option β} {s : σ} {t : τ}
    {Q : α → σ → β → τ → Prop} (hx : ∃ e s', x s = .error e s' ∧ E e)
    (hF : ∀ b u, p t = some (b, u) → F b) : SimUpTo E F x p s t Q := by
  cases hp : p t with
  | none => exact .of_none hp hx
  | some r => exact .of_some hp (.inr ⟨hF r.1 r.2 hp, hx⟩)

theorem SimUpTo.fails {F : β → Prop} {x : EStateM ε σ α} {p : StateT τ Option β} {s : σ} {t : τ}
    {Q : α → σ → β → τ → Prop} (h : SimUpTo E F x p s t Q) (hp : p t = none) :
    ∃ e s', x s = .error e s' ∧ E e := by
  rw [SimUpTo, hp] at h
  exact h

theorem SimUpTo.ends {F : β → Prop} {x : EStateM ε σ α} {p : StateT τ Option β} {s : σ} {t u : τ}
    {b : β} {Q : α → σ → β → τ → Prop} (h : SimUpTo E F x p s t Q) (hp : p t = some (b, u)) :
    (∃ a s', x s = .ok a s' ∧ Q a s' b u) ∨ (F b ∧ ∃ e s', x s = .error e s' ∧ E e) := by
  rw [SimUpTo, hp] at h
  exact h

theorem Sim.upTo {F : β → Prop} {x : EStateM ε σ α} {p : StateT τ Option β} {s : σ} {t : τ}
    {Q : α → σ → β → τ → Prop} (h : Sim E x p s t Q) : SimUpTo E F x p s t Q := by
  cases hp : p t with
  | none => exact .of_none hp (h.fails hp)
  | some r => exact .of_some hp (.inl (h.ends hp))

theorem SimUpTo.mono {F : β → Prop} {x : EStateM ε σ α} {p : StateT τ Option β} {s : σ} {t : τ}
    {P Q : α → σ → β → τ → Prop} (h : SimUpTo E F x p s t P)
    (hPQ : ∀ a s' b t', P a s' b t' → Q a s' b t') : SimUpTo E F x p s t Q := by
  cases hp : p t with
  | none => exact .of_none hp (h.fails hp)
  | some r =>
    rcases h.ends hp with ⟨a, s', hx, hP⟩ | hfail
    · exact .of_some hp (.inl ⟨a, s', hx, hPQ _ _ _ _ hP⟩)
    · exact .of_some hp (.inr hfail)

/-- With the reference's answer at hand. -/
theorem SimUpTo.weaken {F G : β → Prop} {x : EStateM ε σ α} {p : StateT τ Option β} {s : σ} {t : τ}
    {P Q : α → σ → β → τ → Prop} (h : SimUpTo E F x p s t P)
    (hFG : ∀ b t', p t = some (b, t') → F b → G b)
    (hPQ : ∀ a s' b t', p t = some (b, t') → P a s' b t' → Q a s' b t') :
    SimUpTo E G x p s t Q := by
  cases hp : p t with
  | none => exact .of_none hp (h.fails hp)
  | some r =>
    rcases h.ends hp with ⟨a, s', hx, hP⟩ | ⟨hF, hfail⟩
    · exact .of_some hp (.inl ⟨a, s', hx, hPQ _ _ _ _ hp hP⟩)
    · exact .of_some hp (.inr ⟨hFG _ _ hp hF, hfail⟩)

/-- A refusal in the first step must be one of the whole. -/
theorem SimUpTo.bind {F : β → Prop} {G : δ → Prop} {x : EStateM ε σ α} {p : StateT τ Option β}
    {k : α → EStateM ε σ γ} {q : β → StateT τ Option δ} {s : σ} {t : τ} {P : α → σ → β → τ → Prop}
    {Q : γ → σ → δ → τ → Prop} (h : SimUpTo E F x p s t P)
    (hF : ∀ b t' c u, p t = some (b, t') → F b → q b t' = some (c, u) → G c)
    (hk : ∀ a s' b t', p t = some (b, t') → P a s' b t' → SimUpTo E G (k a) (q b) s' t' Q) :
    SimUpTo E G (x >>= k) (p >>= q) s t Q := by
  have hpq : (p >>= q) t = (p t).bind fun r => q r.1 r.2 := rfl
  cases hp : p t with
  | none =>
    obtain ⟨e, s', hx, he⟩ := h.fails hp
    exact .of_none (by rw [hpq, hp]; rfl) ⟨e, s', bind_error hx k, he⟩
  | some r =>
    obtain ⟨b, t'⟩ := r
    have e1 : (p >>= q) t = q b t' := by rw [hpq, hp]; rfl
    rcases h.ends hp with ⟨a, s', hx, hP⟩ | ⟨hFb, e, s', hx, he⟩
    · have h2 := hk _ _ _ _ hp hP
      unfold SimUpTo at h2 ⊢
      rw [e1, bind_ok hx k]
      exact h2
    · have hfail : ∃ e s', (x >>= k) s = .error e s' ∧ E e := ⟨e, s', bind_error hx k, he⟩
      cases hq : q b t' with
      | none => exact .of_none (e1.trans hq) hfail
      | some c => exact .of_some (e1.trans hq) (.inr ⟨hF b t' c.1 c.2 hp hFb hq, hfail⟩)

theorem Sim.bind_upTo {G : δ → Prop} {x : EStateM ε σ α} {p : StateT τ Option β}
    {k : α → EStateM ε σ γ} {q : β → StateT τ Option δ} {s : σ} {t : τ} {P : α → σ → β → τ → Prop}
    {Q : γ → σ → δ → τ → Prop} (h : Sim E x p s t P)
    (hk : ∀ a s' b t', p t = some (b, t') → P a s' b t' → SimUpTo E G (k a) (q b) s' t' Q) :
    SimUpTo E G (x >>= k) (p >>= q) s t Q :=
  (h.upTo (F := fun _ => False)).bind (fun _ _ _ _ _ hF _ => hF.elim) hk

theorem SimUpTo.congr {F : β → Prop} {x y : EStateM ε σ α} {p q : StateT τ Option β} {s r : σ}
    {t u : τ} {Q : α → σ → β → τ → Prop} (h : SimUpTo E F x p s t Q) (hx : y r = x s)
    (hp : q u = p t) : SimUpTo E F y q r u Q := by
  unfold SimUpTo at h ⊢
  rw [hx, hp]
  exact h

theorem SimUpTo.map_right {F : β → Prop} {G : δ → Prop} {x : EStateM ε σ α} {p : StateT τ Option β}
    {q : StateT τ Option δ} {s : σ} {t u : τ} {P : α → σ → β → τ → Prop}
    {Q : α → σ → δ → τ → Prop} (g : β → δ) (h : SimUpTo E F x p s t P)
    (hq : q u = (p t).map fun r => (g r.1, r.2)) (hFG : ∀ b, F b → G (g b))
    (hPQ : ∀ a s' b t', P a s' b t' → Q a s' (g b) t') : SimUpTo E G x q s u Q := by
  cases hp : p t with
  | none => exact .of_none (by rw [hq, hp]; rfl) (h.fails hp)
  | some r =>
    refine .of_some (u := r.2) (b := g r.1) (by rw [hq, hp]; rfl) ?_
    rcases h.ends hp with ⟨a, s', hx, hP⟩ | ⟨hF, hfail⟩
    · exact .inl ⟨a, s', hx, hPQ _ _ _ _ hP⟩
    · exact .inr ⟨hFG _ hF, hfail⟩

theorem SimUpTo.bind_left {F : δ → Prop} {x : EStateM ε σ α} {k : α → EStateM ε σ γ}
    {q : StateT τ Option δ} {s r : σ} {t : τ} {a : α} {Q : γ → σ → δ → τ → Prop} (hx : x s = .ok a r)
    (hk : SimUpTo E F (k a) q r t Q) : SimUpTo E F (x >>= k) q s t Q := by
  unfold SimUpTo at hk ⊢
  rw [bind_ok hx k]
  exact hk

theorem SimUpTo.bind_right {F : δ → Prop} {x : EStateM ε σ α} {p : StateT τ Option β}
    {q : β → StateT τ Option δ} {s : σ} {t t' : τ} {b : β} {Q : α → σ → δ → τ → Prop}
    (hp : p t = some (b, t')) (hk : SimUpTo E F x (q b) s t' Q) : SimUpTo E F x (p >>= q) s t Q := by
  have e1 : (p >>= q) t = q b t' := by
    show (p t).bind _ = _
    rw [hp]
    rfl
  unfold SimUpTo at hk ⊢
  rw [e1]
  exact hk

end Sim

end Lib
