import Lql.Json.Lexer

/-!
# What the parser reads

The parser and the grammar agree: what the parser answers may be written as the bytes it took,
and a text that a document may be written as is read back as that document. Along the way the
parser notices whether the text had spaces.
-/

namespace Lql.Json

open Lql.Scan (isSpace)

/-! ## Soundness -/

/-- From `f` to `f'` the bytes `text` were taken; without spaces they are `n` bytes, and the
watch for spaces has seen whether there were more. -/
structure Wrote (f f' : Flat) (text : Bytes) (n : Nat) : Prop where
  rest : f.rest = text ++ f'.rest
  le : n ≤ text.length
  compact : f'.compact = (f.compact && decide (text.length = n))

theorem Wrote.trans {f1 f2 f3 : Flat} {a b : Bytes} {m n : Nat} (h1 : Wrote f1 f2 a m)
    (h2 : Wrote f2 f3 b n) : Wrote f1 f3 (a ++ b) (m + n) := by
  have hle1 := h1.le
  have hle2 := h2.le
  refine ⟨by rw [h1.rest, h2.rest, List.append_assoc], by rw [List.length_append]; omega, ?_⟩
  have hiff : (a ++ b).length = m + n ↔ a.length = m ∧ b.length = n := by
    rw [List.length_append]
    omega
  rw [h2.compact, h1.compact, Bool.and_assoc, ← Bool.decide_and]
  simp only [hiff]

/-- A token, taken as it stands. -/
theorem Wrote.token {f f' : Flat} {text : Bytes}
    (h : f = { rest := text ++ f'.rest, compact := f'.compact }) : Wrote f f' text text.length := by
  subst h
  exact ⟨rfl, Nat.le_refl _, by simp⟩

theorem Wrote.take {f f' : Flat} {c : UInt8} (h : takeP f = some (c, f')) : Wrote f f' [c] 1 :=
  .token (takeP_some h)

theorem Wrote.expect {f f' : Flat} {c : UInt8} {u : Unit} (h : expectP c f = some (u, f')) :
    Wrote f f' [c] 1 := .token (expectP_eq_some h)

/-- Spaces are no part of the document. The watch only counts them when something follows. -/
theorem Wrote.space {f f' : Flat} {u : Unit} (h : spaceP f = some (u, f')) (hne : f'.rest ≠ []) :
    ∃ w, Spaces w ∧ Wrote f f' w 0 := by
  cases h
  refine ⟨f.rest.takeWhile isSpace, fun c hc => List.mem_takeWhile_imp hc,
    (List.takeWhile_append_dropWhile ..).symm, Nat.zero_le _, ?_⟩
  have hlen := congrArg List.length (List.takeWhile_append_dropWhile (p := isSpace) (l := f.rest))
  rw [List.length_append] at hlen
  have hempty : (f.rest.dropWhile isSpace).isEmpty = false := by
    cases hr : f.rest.dropWhile isSpace with
    | nil => exact absurd hr hne
    | cons => rfl
  have hiff : (f.rest.dropWhile isSpace).length = f.rest.length ↔
      (f.rest.takeWhile isSpace).length = 0 := by omega
  simp only [hempty, Bool.false_or, hiff]

theorem ne_nil_of_eats {α : Type} {p : P α} (hp : Eats p) {f f' : Flat} {a : α}
    (h : p f = some (a, f')) : f.rest ≠ [] := by
  intro he
  have := hp f a f' h
  rw [he] at this
  exact Nat.not_lt_zero _ this

theorem literalP_sound : ∀ (text : Bytes) {f f' : Flat} {u : Unit}, literalP text f = some (u, f') →
    f = { rest := text ++ f'.rest, compact := f'.compact }
  | [], _, _, _, h => by cases h; rfl
  | c :: text, f, f', u, h => by
    obtain ⟨_, f1, h1, h⟩ := bind_eq_some.mp h
    rw [expectP_eq_some h1, literalP_sound text h]
    rfl

/-- The value was read off the front of `f`. -/
def Value.Read (v : Value) (f f' : Flat) : Prop :=
  ∃ text, v.Writes text ∧ Wrote f f' text v.compact.length

/-- The members were read up to the closing brace. -/
def Members.Read (ms : Members) (first : Bool) (f f' : Flat) : Prop :=
  ∃ text, ms.Writes first text ∧ Wrote f f' text (ms.squeezed first).length

def Elements.Read (es : Elements) (first : Bool) (f f' : Flat) : Prop :=
  ∃ text, es.Writes first text ∧ Wrote f f' text (es.squeezed first).length

section Containers

variable {p : P Value} {f f' : Flat}

/-- A comma and spaces turn the first member into a later one. -/
theorem Members.Read.later {ms : Members} {f1 f2 : Flat} {w : Bytes} (h : ms.Read true f1 f2)
    (hne : ms.isNil = false) (hw : Spaces w) (hc : Wrote f f1 (chComma :: w) 1) :
    ms.Read false f f2 := by
  obtain ⟨text, hms, hwrote⟩ := h
  cases ms with
  | nil => cases hne
  | cons key v rest =>
    obtain ⟨lead, w1, w2, tv, w3, t, rfl, hlead, hrest⟩ := hms
    rw [show lead = [] from hlead] at hwrote
    refine ⟨_, ⟨chComma :: w, w1, w2, tv, w3, t, rfl, ⟨w, hw, rfl⟩, hrest⟩, ?_⟩
    have := hc.trans hwrote
    rw [Members.squeezed_cons, List.length_append] at this ⊢
    simpa [Nat.add_comm] using this

theorem Elements.Read.later {es : Elements} {f1 f2 : Flat} {w : Bytes} (h : es.Read true f1 f2)
    (hne : es.isNil = false) (hw : Spaces w) (hc : Wrote f f1 (chComma :: w) 1) :
    es.Read false f f2 := by
  obtain ⟨text, hes, hwrote⟩ := h
  cases es with
  | nil => cases hne
  | cons v rest =>
    obtain ⟨lead, tv, w1, t, rfl, hlead, hrest⟩ := hes
    rw [show lead = [] from hlead] at hwrote
    refine ⟨_, ⟨chComma :: w, tv, w1, t, rfl, ⟨w, hw, rfl⟩, hrest⟩, ?_⟩
    have := hc.trans hwrote
    rw [Elements.squeezed_cons, List.length_append] at this ⊢
    simpa [Nat.add_comm] using this

theorem memberEndP_sound {r : P Members}
    (hr : ∀ f f' ms, r f = some (ms, f') → ms.Read true f f' ∧ ms.isNil = false)
    (hre : Eats r) {key : Str} {v : Value} {ms : Members}
    (h : memberEndP r key v f = some (ms, f')) :
    ∃ w f1 rest, ms = .cons key v rest ∧ Spaces w ∧ Wrote f f1 w 0 ∧ rest.Read false f1 f' := by
  obtain ⟨_, f1, h1, h⟩ := bind_eq_some.mp h
  obtain ⟨c, f2, h2, h⟩ := bind_eq_some.mp h
  obtain ⟨w, hw, hwrote⟩ := Wrote.space h1 (ne_nil_of_eats takeP_eats h2)
  split at h
  · next hc =>
    cases h
    rw [hc] at h2
    exact ⟨w, f1, .nil, rfl, hw, hwrote, _, rfl, .take h2⟩
  split at h
  · cases h
  next hc =>
  rw [not_not.mp hc] at h2
  obtain ⟨_, f3, h3, h⟩ := bind_eq_some.mp h
  obtain ⟨rest, f4, h4, h⟩ := bind_eq_some.mp h
  cases h
  obtain ⟨w2, hw2, hwrote2⟩ := Wrote.space h3 (ne_nil_of_eats hre h4)
  obtain ⟨hread, hne⟩ := hr _ _ _ h4
  exact ⟨w, f1, rest, rfl, hw, hwrote, hread.later hne hw2 ((Wrote.take h2).trans hwrote2)⟩

theorem membersP_sound (hp : ∀ f f' v, p f = some (v, f') → v.Read f f') (ht : Tame p)
    (he : Eats p) : ∀ (n : Nat) (f f' : Flat) (ms : Members), membersP p n f = some (ms, f') →
      ms.Read true f f' ∧ ms.isNil = false
  | 0, _, _, _, h => by cases h
  | n + 1, f, f', ms, h => by
    obtain ⟨key, f1, h1, h⟩ := bind_eq_some.mp h
    obtain ⟨_, f2, h2, h⟩ := bind_eq_some.mp h
    obtain ⟨_, f3, h3, h⟩ := bind_eq_some.mp h
    obtain ⟨_, f4, h4, h⟩ := bind_eq_some.mp h
    obtain ⟨v, f5, h5, h⟩ := bind_eq_some.mp h
    obtain ⟨hkey, e1⟩ := stringP_sound h1
    obtain ⟨w1, hw1, hwrote1⟩ := Wrote.space h2 (ne_nil_of_eats (expectP_eats _) h3)
    obtain ⟨w2, hw2, hwrote2⟩ := Wrote.space h4 (ne_nil_of_eats he h5)
    obtain ⟨tv, hv, hwrotev⟩ := hp _ _ _ h5
    obtain ⟨w3, f6, rest, rfl, hw3, hwrote3, t, hrest, hwrotet⟩ :=
      memberEndP_sound (membersP_sound hp ht he n) (membersP_token ht n).eats h
    refine ⟨⟨_, ⟨[], w1, w2, tv, w3, t, rfl, rfl, hkey, hw1, hw2, hv, hw3, hrest⟩, ?_⟩, rfl⟩
    have hall := (Wrote.token e1).trans (hwrote1.trans ((Wrote.expect h3).trans
      (hwrote2.trans (hwrotev.trans (hwrote3.trans hwrotet)))))
    rw [Members.squeezed_cons]
    simpa [Members.squeezed, Nat.add_comm, Nat.add_assoc, Nat.add_left_comm] using hall

theorem elementEndP_sound {r : P Elements}
    (hr : ∀ f f' es, r f = some (es, f') → es.Read true f f' ∧ es.isNil = false)
    (hre : Eats r) {v : Value} {es : Elements} (h : elementEndP r v f = some (es, f')) :
    ∃ w f1 rest, es = .cons v rest ∧ Spaces w ∧ Wrote f f1 w 0 ∧ rest.Read false f1 f' := by
  obtain ⟨_, f1, h1, h⟩ := bind_eq_some.mp h
  obtain ⟨c, f2, h2, h⟩ := bind_eq_some.mp h
  obtain ⟨w, hw, hwrote⟩ := Wrote.space h1 (ne_nil_of_eats takeP_eats h2)
  split at h
  · next hc =>
    cases h
    rw [hc] at h2
    exact ⟨w, f1, .nil, rfl, hw, hwrote, _, rfl, .take h2⟩
  split at h
  · cases h
  next hc =>
  rw [not_not.mp hc] at h2
  obtain ⟨_, f3, h3, h⟩ := bind_eq_some.mp h
  obtain ⟨rest, f4, h4, h⟩ := bind_eq_some.mp h
  cases h
  obtain ⟨w2, hw2, hwrote2⟩ := Wrote.space h3 (ne_nil_of_eats hre h4)
  obtain ⟨hread, hne⟩ := hr _ _ _ h4
  exact ⟨w, f1, rest, rfl, hw, hwrote, hread.later hne hw2 ((Wrote.take h2).trans hwrote2)⟩

theorem elementsP_sound (hp : ∀ f f' v, p f = some (v, f') → v.Read f f') (ht : Tame p) :
    ∀ (n : Nat) (f f' : Flat) (es : Elements), elementsP p n f = some (es, f') →
      es.Read true f f' ∧ es.isNil = false
  | 0, _, _, _, h => by cases h
  | n + 1, f, f', es, h => by
    obtain ⟨v, f1, h1, h⟩ := bind_eq_some.mp h
    obtain ⟨tv, hv, hwrotev⟩ := hp _ _ _ h1
    obtain ⟨w, f2, rest, rfl, hw, hwrote, t, hrest, hwrotet⟩ :=
      elementEndP_sound (elementsP_sound hp ht n) (elementsP_token ht n).eats h
    refine ⟨⟨_, ⟨[], tv, w, t, rfl, rfl, hv, hw, hrest⟩, ?_⟩, rfl⟩
    have hall := hwrotev.trans (hwrote.trans hwrotet)
    rw [Elements.squeezed_cons]
    simpa [Elements.squeezed] using hall

theorem objectP_sound (hp : ∀ f f' v, p f = some (v, f') → v.Read f f') (ht : Tame p)
    (he : Eats p) {n : Nat} {v : Value} (h : objectP p n f = some (v, f')) : v.Read f f' := by
  obtain ⟨_, f1, h1, h⟩ := bind_eq_some.mp h
  obtain ⟨_, f2, h2, h⟩ := bind_eq_some.mp h
  obtain ⟨first, f3, h3, h⟩ := bind_eq_some.mp h
  cases h3
  split at h
  · next hc =>
    obtain ⟨c, f4, h4, h⟩ := bind_eq_some.mp h
    obtain ⟨w, hw, hwrote⟩ := Wrote.space h2 (ne_nil_of_eats takeP_eats h4)
    cases h
    have hc : c = chRBrace := by
      rw [takeP_some h4] at hc
      exact Option.some.inj hc
    rw [hc] at h4
    exact ⟨_, ⟨w, [chRBrace], rfl, hw, rfl⟩, (Wrote.expect h1).trans (hwrote.trans (.take h4))⟩
  · obtain ⟨ms, f4, h4, h⟩ := bind_eq_some.mp h
    obtain ⟨w, hw, hwrote⟩ := Wrote.space h2 (ne_nil_of_eats (membersP_token ht n).eats h4)
    cases h
    obtain ⟨⟨t, hms, hwrotet⟩, -⟩ := membersP_sound hp ht he n _ _ _ h4
    refine ⟨_, ⟨w, t, rfl, hw, hms⟩, ?_⟩
    simpa [Value.compact, Members.squeezed, Nat.add_comm] using
      (Wrote.expect h1).trans (hwrote.trans hwrotet)

theorem arrayP_sound (hp : ∀ f f' v, p f = some (v, f') → v.Read f f') (ht : Tame p)
    {n : Nat} {v : Value} (h : arrayP p n f = some (v, f')) : v.Read f f' := by
  obtain ⟨_, f1, h1, h⟩ := bind_eq_some.mp h
  obtain ⟨_, f2, h2, h⟩ := bind_eq_some.mp h
  obtain ⟨first, f3, h3, h⟩ := bind_eq_some.mp h
  cases h3
  split at h
  · next hc =>
    obtain ⟨c, f4, h4, h⟩ := bind_eq_some.mp h
    obtain ⟨w, hw, hwrote⟩ := Wrote.space h2 (ne_nil_of_eats takeP_eats h4)
    cases h
    have hc : c = chRBracket := by
      rw [takeP_some h4] at hc
      exact Option.some.inj hc
    rw [hc] at h4
    exact ⟨_, ⟨w, [chRBracket], rfl, hw, rfl⟩, (Wrote.expect h1).trans (hwrote.trans (.take h4))⟩
  · obtain ⟨es, f4, h4, h⟩ := bind_eq_some.mp h
    obtain ⟨w, hw, hwrote⟩ := Wrote.space h2 (ne_nil_of_eats (elementsP_token ht n).eats h4)
    cases h
    obtain ⟨⟨t, hes, hwrotet⟩, -⟩ := elementsP_sound hp ht n _ _ _ h4
    refine ⟨_, ⟨w, t, rfl, hw, hes⟩, ?_⟩
    simpa [Value.compact, Elements.squeezed, Nat.add_comm] using
      (Wrote.expect h1).trans (hwrote.trans hwrotet)

end Containers

/-- **What the parser answers may be written as the bytes it took.** -/
theorem valueP_sound : ∀ (n : Nat) (f f' : Flat) (v : Value), valueP n f = some (v, f') →
    v.Read f f'
  | 0, _, _, _, h => by cases h
  | n + 1, f, f', v, h => by
    have ih := valueP_sound n
    obtain ⟨first, f1, h1, h⟩ := bind_eq_some.mp h
    cases h1
    cases hc : f.rest.head? with
    | none => rw [hc] at h; cases h
    | some c =>
      rw [hc] at h
      dsimp only at h
      split at h
      · exact objectP_sound ih (valueP_tame n) (valueP_eats n) h
      split at h
      · exact arrayP_sound ih (valueP_tame n) h
      split at h
      · obtain ⟨s, f2, h2, h⟩ := bind_eq_some.mp h
        cases h
        obtain ⟨hs, e⟩ := stringP_sound h2
        exact ⟨_, ⟨rfl, hs⟩, .token e⟩
      split at h
      · obtain ⟨_, f2, h2, h⟩ := bind_eq_some.mp h
        cases h
        exact ⟨_, rfl, .token (literalP_sound _ h2)⟩
      split at h
      · obtain ⟨_, f2, h2, h⟩ := bind_eq_some.mp h
        cases h
        exact ⟨_, rfl, .token (literalP_sound _ h2)⟩
      split at h
      · obtain ⟨_, f2, h2, h⟩ := bind_eq_some.mp h
        cases h
        exact ⟨_, rfl, .token (literalP_sound _ h2)⟩
      · obtain ⟨token, f2, h2, h⟩ := bind_eq_some.mp h
        cases h
        obtain ⟨htoken, e⟩ := numberP_sound h2
        exact ⟨_, ⟨rfl, htoken⟩, .token e⟩

/-! ## Completeness -/

/-- The text goes on with a byte that is no space. -/
def Goes (text : Bytes) : Prop := ∃ c rest, text = c :: rest ∧ isSpace c = false

theorem spaceP_complete {w rest : Bytes} (hw : Spaces w) (hr : Goes rest) (compact : Bool) :
    ∃ compact', spaceP { rest := w ++ rest, compact } = some ((), { rest, compact := compact' }) := by
  obtain ⟨c, t, rfl, hc⟩ := hr
  have hdrop : (w ++ c :: t).dropWhile isSpace = c :: t := by
    rw [List.dropWhile_append_of_pos hw]
    simp [List.dropWhile, hc]
  exact ⟨_, by rw [spaceP]; simp only [hdrop]; rfl⟩

theorem literalP_complete : ∀ (text rest : Bytes) (compact : Bool),
    literalP text { rest := text ++ rest, compact } = some ((), { rest, compact })
  | [], _, _ => rfl
  | c :: text, rest, compact => by
    rw [literalP, List.cons_append, bind_eq (expectP_cons _ _ _)]
    exact literalP_complete text rest compact

/-- How the text of a value starts: the parser tells the kinds apart by it. -/
theorem number_head {token : Bytes} (h : NumberToken token) :
    ∃ c t, token = c :: t ∧ (c = chMinus ∨ isDigit c = true) := by
  obtain ⟨sign, int, fraction, exponent, rfl, hp⟩ := h
  rcases hp.sign with rfl | rfl
  · rcases hp.int with rfl | ⟨c, ds, rfl, hc, -⟩
    · exact ⟨chZero, _, rfl, .inr (by decide)⟩
    · exact ⟨c, _, rfl, .inr (isDigit_of_isDigit19 hc)⟩
  · exact ⟨chMinus, _, rfl, .inl rfl⟩

theorem Value.Writes.head {v : Value} {text : Bytes} (h : v.Writes text) :
    ∃ c t, text = c :: t ∧ isSpace c = false ∧ isClose c = false := by
  cases v with
  | obj members =>
    obtain ⟨w, t, rfl, -⟩ := h
    exact ⟨_, _, rfl, by decide, by decide⟩
  | arr elements =>
    obtain ⟨w, t, rfl, -⟩ := h
    exact ⟨_, _, rfl, by decide, by decide⟩
  | str s =>
    obtain ⟨rfl, -⟩ := h
    exact ⟨_, _, rfl, by decide, by decide⟩
  | num token =>
    obtain ⟨rfl, h⟩ := h
    obtain ⟨c, t, rfl, hc⟩ := number_head h
    have hdull := number_dull h c List.mem_cons_self
    simp only [isDull, Bool.and_eq_true, Bool.not_eq_true'] at hdull
    exact ⟨c, t, rfl, hdull.1.1.2, hdull.2⟩
  | lit l =>
    rw [show text = l.text from h]
    cases l <;> exact ⟨_, _, rfl, by decide, by decide⟩

theorem Value.Writes.goes {v : Value} {text : Bytes} (h : v.Writes text) (rest : Bytes) :
    Goes (text ++ rest) := by
  obtain ⟨c, t, rfl, hc, -⟩ := h.head
  exact ⟨c, _, rfl, hc⟩

theorem stops_cons {c : UInt8} (rest : Bytes)
    (h : isDigit c = false ∧ c ≠ chDot ∧ c ≠ chLowerE ∧ c ≠ chUpperE) : Stops (c :: rest) := by
  intro d hd
  cases hd
  exact h

theorem stops_space {c : UInt8} (h : isSpace c = true) (rest : Bytes) : Stops (c :: rest) := by
  simp only [isSpace, Bool.or_eq_true, decide_eq_true_eq] at h
  rcases h with ((rfl | rfl) | rfl) | rfl <;> exact stops_cons _ (by decide)

/-- Behind a value of a container stand spaces, a comma or the closing byte. -/
theorem stops_spaces {w rest : Bytes} (hw : Spaces w) (hr : Stops rest) : Stops (w ++ rest) := by
  cases w with
  | nil => exact hr
  | cons c w => exact stops_space (hw c List.mem_cons_self) _

theorem Members.writes_later {ms : Members} {text : Bytes} (h : ms.Writes false text) :
    (ms = .nil ∧ text = [chRBrace]) ∨
      ∃ w t, ms.isNil = false ∧ text = chComma :: (w ++ t) ∧ Spaces w ∧ ms.Writes true t := by
  cases ms with
  | nil => exact .inl ⟨rfl, h⟩
  | cons key v rest =>
    obtain ⟨lead, w1, w2, tv, w3, t, rfl, ⟨w, hw, rfl⟩, hrest⟩ := h
    exact .inr ⟨w, _, rfl, rfl, hw, [], w1, w2, tv, w3, t, rfl, rfl, hrest⟩

theorem Elements.writes_later {es : Elements} {text : Bytes} (h : es.Writes false text) :
    (es = .nil ∧ text = [chRBracket]) ∨
      ∃ w t, es.isNil = false ∧ text = chComma :: (w ++ t) ∧ Spaces w ∧ es.Writes true t := by
  cases es with
  | nil => exact .inl ⟨rfl, h⟩
  | cons v rest =>
    obtain ⟨lead, tv, w1, t, rfl, ⟨w, hw, rfl⟩, hrest⟩ := h
    exact .inr ⟨w, _, rfl, rfl, hw, [], tv, w1, t, rfl, rfl, hrest⟩

theorem Members.stops_later {ms : Members} {text : Bytes} (h : ms.Writes false text) (rest : Bytes) :
    Stops (text ++ rest) ∧ Goes (text ++ rest) := by
  rcases Members.writes_later h with ⟨-, rfl⟩ | ⟨w, t, -, rfl, -⟩
  · exact ⟨stops_cons _ (by decide), _, _, rfl, by decide⟩
  · exact ⟨stops_cons _ (by decide), _, _, rfl, by decide⟩

theorem Elements.stops_later {es : Elements} {text : Bytes} (h : es.Writes false text)
    (rest : Bytes) : Stops (text ++ rest) ∧ Goes (text ++ rest) := by
  rcases Elements.writes_later h with ⟨-, rfl⟩ | ⟨w, t, -, rfl, -⟩
  · exact ⟨stops_cons _ (by decide), _, _, rfl, by decide⟩
  · exact ⟨stops_cons _ (by decide), _, _, rfl, by decide⟩

/-- A parser that reads `text` off the front, whatever follows, as `a`. -/
def Takes {α : Type} (p : P α) (a : α) (text rest : Bytes) : Prop :=
  ∀ compact, ∃ compact', p { rest := text ++ rest, compact } = some (a, { rest, compact := compact' })

theorem Takes.bind {α β : Type} {p : P α} {q : α → P β} {a : α} {b : β} {t1 t2 rest : Bytes}
    (hp : Takes p a t1 (t2 ++ rest)) (hq : Takes (q a) b t2 rest) :
    Takes (p >>= q) b (t1 ++ t2) rest := by
  intro compact
  obtain ⟨c1, h1⟩ := hp compact
  obtain ⟨c2, h2⟩ := hq c1
  refine ⟨c2, ?_⟩
  rw [List.append_assoc, bind_eq h1]
  exact h2

theorem takes_space {w rest : Bytes} (hw : Spaces w) (hr : Goes rest) : Takes spaceP () w rest :=
  spaceP_complete hw hr

theorem takes_expect (c : UInt8) (rest : Bytes) : Takes (expectP c) () [c] rest :=
  fun compact => ⟨compact, expectP_cons c rest compact⟩

theorem takes_take (c : UInt8) (rest : Bytes) : Takes takeP c [c] rest := fun compact => ⟨compact, rfl⟩

theorem takes_string {s : Str} (hs : s.Ok) (rest : Bytes) : Takes stringP s s.quoted rest :=
  fun compact => ⟨compact, stringP_complete hs rest compact⟩

theorem takes_pure {α : Type} (a : α) (rest : Bytes) : Takes (pure a) a [] rest :=
  fun compact => ⟨compact, rfl⟩

theorem takes_append_nil {α : Type} {p : P α} {a : α} {t rest : Bytes} (h : Takes p a (t ++ []) rest) :
    Takes p a t rest := by
  rwa [List.append_nil] at h

theorem takes_memberEnd {r : P Members} {key : Str} {v : Value} {ms : Members} {w t rest : Bytes}
    (hw : Spaces w) (hms : ms.Writes false t)
    (hr : ∀ w' t', t = chComma :: (w' ++ t') → ms.isNil = false → ms.Writes true t' →
      Takes r ms t' rest ∧ Goes (t' ++ rest)) :
    Takes (memberEndP r key v) (.cons key v ms) (w ++ t) rest := by
  refine (takes_space hw (Members.stops_later hms rest).2).bind ?_
  rcases Members.writes_later hms with ⟨rfl, rfl⟩ | ⟨w', t', hne, rfl, hw', hms'⟩
  · exact takes_append_nil ((takes_take _ _).bind (takes_pure _ _))
  · obtain ⟨htakes, hgoes⟩ := hr w' t' rfl hne hms'
    exact (takes_take _ _).bind ((takes_space hw' hgoes).bind
      (takes_append_nil (htakes.bind (takes_pure _ _))))

theorem takes_elementEnd {r : P Elements} {v : Value} {es : Elements} {w t rest : Bytes}
    (hw : Spaces w) (hes : es.Writes false t)
    (hr : ∀ w' t', t = chComma :: (w' ++ t') → es.isNil = false → es.Writes true t' →
      Takes r es t' rest ∧ Goes (t' ++ rest)) :
    Takes (elementEndP r v) (.cons v es) (w ++ t) rest := by
  refine (takes_space hw (Elements.stops_later hes rest).2).bind ?_
  rcases Elements.writes_later hes with ⟨rfl, rfl⟩ | ⟨w', t', hne, rfl, hw', hes'⟩
  · exact takes_append_nil ((takes_take _ _).bind (takes_pure _ _))
  · obtain ⟨htakes, hgoes⟩ := hr w' t' rfl hne hes'
    exact (takes_take _ _).bind ((takes_space hw' hgoes).bind
      (takes_append_nil (htakes.bind (takes_pure _ _))))

theorem Members.writes_first {ms : Members} {text : Bytes} (h : ms.Writes true text)
    (hne : ms.isNil = false) : ∃ t, text = chQuote :: t := by
  cases ms with
  | nil => cases hne
  | cons key v rest =>
    obtain ⟨lead, w1, w2, tv, w3, t, rfl, hlead, -⟩ := h
    rw [show lead = [] from hlead]
    exact ⟨_, rfl⟩

theorem Elements.writes_first {es : Elements} {text : Bytes} (h : es.Writes true text)
    (hne : es.isNil = false) : ∃ c t, text = c :: t ∧ isSpace c = false ∧ isClose c = false := by
  cases es with
  | nil => cases hne
  | cons v rest =>
    obtain ⟨lead, tv, w, t, rfl, hlead, hv, -⟩ := h
    rw [show lead = [] from hlead]
    obtain ⟨c, t', rfl, hc⟩ := hv.head
    exact ⟨c, _, rfl, hc⟩

/-- The first byte decides. -/
theorem takes_value {n : Nat} {v : Value} {c : UInt8} {t rest : Bytes} {q : P Value}
    (hq : Takes q v (c :: t) rest)
    (hc : (if c = chLBrace then objectP (valueP n) n
      else if c = chLBracket then arrayP (valueP n) n
      else if c = chQuote then do let s ← stringP; return .str s
      else if c = chT then do literalP txtTrue; return .lit .tt
      else if c = chF then do literalP txtFalse; return .lit .ff
      else if c = chN then do literalP txtNull; return .lit .nul
      else do let token ← numberP; return .num token) = q) :
    Takes (valueP (n + 1)) v (c :: t) rest := by
  intro compact
  obtain ⟨c', h⟩ := hq compact
  refine ⟨c', ?_⟩
  rw [valueP, peek_bind]
  show (if c = chLBrace then _ else _ : P Value) _ = _
  rw [hc]
  exact h

/-- A container: its opening byte, spaces, and its items or the closing byte. -/
theorem takes_object {p : P Value} {n : Nat} {ms : Members} {w t rest : Bytes} (hw : Spaces w)
    (hms : ms.Writes true t) (hr : ms.isNil = false → Takes (membersP p n) ms t rest) :
    Takes (objectP p n) (.obj ms) (chLBrace :: (w ++ t)) rest := by
  cases ms with
  | nil =>
    rw [show t = [chRBrace] from hms]
    have hinner : Takes (peekP >>= fun c => if c = some chRBrace then do
        let _ ← takeP
        return .obj .nil
      else do
        let members ← membersP p n
        return .obj members : P Value) (.obj .nil) [chRBrace] rest :=
      fun compact => ⟨compact, rfl⟩
    exact (takes_expect chLBrace _).bind ((takes_space hw ⟨_, _, rfl, by decide⟩).bind hinner)
  | cons key v rest' =>
    obtain ⟨t', rfl⟩ := Members.writes_first hms rfl
    have hitems := hr rfl
    have hinner : Takes (peekP >>= fun c => if c = some chRBrace then do
        let _ ← takeP
        return .obj .nil
      else do
        let members ← membersP p n
        return .obj members : P Value) (.obj (.cons key v rest')) (chQuote :: t') rest := by
      have hread : Takes (do let members ← membersP p n; return .obj members : P Value)
          (.obj (.cons key v rest')) (chQuote :: t') rest :=
        takes_append_nil (Takes.bind (a := .cons key v rest') hitems (takes_pure _ _))
      exact hread
    exact (takes_expect chLBrace _).bind ((takes_space hw ⟨_, _, rfl, by decide⟩).bind hinner)

theorem takes_array {p : P Value} {n : Nat} {es : Elements} {w t rest : Bytes} (hw : Spaces w)
    (hes : es.Writes true t) (hr : es.isNil = false → Takes (elementsP p n) es t rest) :
    Takes (arrayP p n) (.arr es) (chLBracket :: (w ++ t)) rest := by
  cases es with
  | nil =>
    rw [show t = [chRBracket] from hes]
    have hinner : Takes (peekP >>= fun c => if c = some chRBracket then do
        let _ ← takeP
        return .arr .nil
      else do
        let elements ← elementsP p n
        return .arr elements : P Value) (.arr .nil) [chRBracket] rest :=
      fun compact => ⟨compact, rfl⟩
    exact (takes_expect chLBracket _).bind ((takes_space hw ⟨_, _, rfl, by decide⟩).bind hinner)
  | cons v rest' =>
    obtain ⟨c, t', rfl, hspace, hclose⟩ := Elements.writes_first hes rfl
    have hitems := hr rfl
    have hc : c ≠ chRBracket := by rintro rfl; exact absurd hclose (by decide)
    have hinner : Takes (peekP >>= fun c => if c = some chRBracket then do
        let _ ← takeP
        return .arr .nil
      else do
        let elements ← elementsP p n
        return .arr elements : P Value) (.arr (.cons v rest')) (c :: t') rest := by
      have hread : Takes (do let elements ← elementsP p n; return .arr elements : P Value)
          (.arr (.cons v rest')) (c :: t') rest :=
        takes_append_nil (Takes.bind (a := .cons v rest') hitems (takes_pure _ _))
      intro compact
      obtain ⟨compact', hx⟩ := hread compact
      refine ⟨compact', ?_⟩
      rw [peek_bind]
      show (if some c = some chRBracket then _ else _ : P Value) _ = _
      rw [if_neg (fun h => hc (Option.some.inj h))]
      exact hx
    exact (takes_expect chLBracket _).bind ((takes_space hw ⟨_, _, rfl, hspace⟩).bind hinner)

mutual

/-- **Every text that a value may be written as is read back**, provided the byte behind it does
not carry a number on. -/
theorem Value.reads_back : ∀ (v : Value) (text rest : Bytes) (n : Nat), v.Writes text → Stops rest →
    text.length < n → Takes (valueP n) v text rest
  | _, _, _, 0, _, _, hn => absurd hn (Nat.not_lt_zero _)
  | .obj ms, _, rest, n + 1, h, _, hn => by
    obtain ⟨w, t, rfl, hw, ht⟩ := h
    have hlen : t.length < n := by
      rw [List.length_cons, List.length_append] at hn
      omega
    exact takes_value (takes_object hw ht fun hne => ms.reads_back t rest n n ht hne hlen hlen) rfl
  | .arr es, _, rest, n + 1, h, _, hn => by
    obtain ⟨w, t, rfl, hw, ht⟩ := h
    have hlen : t.length < n := by
      rw [List.length_cons, List.length_append] at hn
      omega
    exact takes_value (takes_array hw ht fun hne => es.reads_back t rest n n ht hne hlen hlen) rfl
  | .str s, _, rest, n + 1, h, _, _ => by
    obtain ⟨rfl, hs⟩ := h
    exact takes_value (takes_append_nil ((takes_string hs _).bind (takes_pure _ _))) rfl
  | .num token, text, rest, n + 1, h, hstop, _ => by
    obtain ⟨e, ht⟩ := h
    rw [e]
    have hnum : Takes numberP token token rest :=
      fun compact => ⟨compact, numberP_complete ht hstop compact⟩
    have hall : Takes (do let token ← numberP; return .num token : P Value) (.num token) token rest :=
      takes_append_nil (Takes.bind (a := token) hnum (takes_pure _ _))
    obtain ⟨c, t, rfl, hc⟩ := number_head ht
    refine takes_value hall ?_
    have hne : c ≠ chLBrace ∧ c ≠ chLBracket ∧ c ≠ chQuote ∧ c ≠ chT ∧ c ≠ chF ∧ c ≠ chN := by
      refine ⟨?_, ?_, ?_, ?_, ?_, ?_⟩ <;>
        · rintro rfl
          exact absurd hc (by decide)
    rw [if_neg hne.1, if_neg hne.2.1, if_neg hne.2.2.1, if_neg hne.2.2.2.1, if_neg hne.2.2.2.2.1,
      if_neg hne.2.2.2.2.2]
  | .lit l, text, rest, n + 1, h, _, _ => by
    rw [show text = l.text from h]
    have hlit : ∀ l : Literal, Takes (do literalP l.text; return Value.lit l : P Value) (.lit l) l.text
        rest := fun l => takes_append_nil (Takes.bind
      (fun compact => ⟨compact, literalP_complete l.text _ compact⟩) (takes_pure _ _))
    cases l with
    | tt => exact takes_value (hlit .tt) rfl
    | ff => exact takes_value (hlit .ff) rfl
    | nul => exact takes_value (hlit .nul) rfl

theorem Members.reads_back : ∀ (ms : Members) (text rest : Bytes) (n m : Nat), ms.Writes true text →
    ms.isNil = false → text.length < n → text.length < m →
    Takes (membersP (valueP n) m) ms text rest
  | .nil, _, _, _, _, _, hne, _, _ => nomatch hne
  | .cons _ _ _, _, _, _, 0, _, _, _, hm => absurd hm (Nat.not_lt_zero _)
  | .cons key v ms, _, rest, n, m + 1, h, _, hn, hm => by
    obtain ⟨lead, w1, w2, tv, w3, t, rfl, hlead, hkey, hw1, hw2, hv, hw3, ht⟩ := h
    rw [show lead = [] from hlead] at hn hm ⊢
    simp only [List.nil_append, List.length_append, List.length_cons] at hn hm ⊢
    have hstop : Stops (w3 ++ t ++ rest) := by
      rw [List.append_assoc]
      exact stops_spaces hw3 (Members.stops_later ht rest).1
    have hvalue := v.reads_back tv (w3 ++ t ++ rest) n hv hstop (by omega)
    have hend : Takes (memberEndP (membersP (valueP n) m) key v) (.cons key v ms) (w3 ++ t) rest := by
      refine takes_memberEnd hw3 ht fun w' t' e hne hms => ⟨?_, ?_⟩
      · have hlen : t'.length ≤ t.length := by
          rw [e, List.length_cons, List.length_append]
          omega
        exact ms.reads_back t' rest n m hms hne (by omega) (by omega)
      · obtain ⟨u, rfl⟩ := Members.writes_first hms hne
        exact ⟨_, _, rfl, by decide⟩
    refine (takes_string hkey _).bind ((takes_space hw1 ⟨_, _, rfl, by decide⟩).bind
      ((takes_expect chColon _).bind ((takes_space hw2 ?_).bind (hvalue.bind hend))))
    rw [List.append_assoc]
    exact hv.goes _

theorem Elements.reads_back : ∀ (es : Elements) (text rest : Bytes) (n m : Nat),
    es.Writes true text → es.isNil = false → text.length < n → text.length < m →
    Takes (elementsP (valueP n) m) es text rest
  | .nil, _, _, _, _, _, hne, _, _ => nomatch hne
  | .cons _ _, _, _, _, 0, _, _, _, hm => absurd hm (Nat.not_lt_zero _)
  | .cons v es, _, rest, n, m + 1, h, _, hn, hm => by
    obtain ⟨lead, tv, w, t, rfl, hlead, hv, hw, ht⟩ := h
    rw [show lead = [] from hlead] at hn hm ⊢
    simp only [List.nil_append, List.length_append] at hn hm ⊢
    have hpos : 0 < tv.length := by
      obtain ⟨c, u, rfl, -⟩ := hv.head
      exact Nat.succ_pos _
    have hstop : Stops (w ++ t ++ rest) := by
      rw [List.append_assoc]
      exact stops_spaces hw (Elements.stops_later ht rest).1
    refine (v.reads_back tv (w ++ t ++ rest) n hv hstop (by omega)).bind
      (takes_elementEnd hw ht fun w' t' e hne hes => ⟨?_, ?_⟩)
    · have hlen : t'.length ≤ t.length := by
        rw [e, List.length_cons, List.length_append]
        omega
      exact es.reads_back t' rest n m hes hne (by omega) (by omega)
    · obtain ⟨c, u, rfl, hc, -⟩ := Elements.writes_first hes hne
      exact ⟨_, _, rfl, hc⟩

end

end Lql.Json
