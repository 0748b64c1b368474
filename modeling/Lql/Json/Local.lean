import Mathlib.Data.List.TakeWhile
import Lql.Json.Parse

/-!
# How far a parser looks

A parser takes a piece off the front of the input and looks at most at the byte
behind it (`Tame`); a string, a literal or a container does not even look at that one
(`Closed`). It follows that the fuel of the loops does not matter once it exceeds the
input, and that a document is the same whatever stands behind it.
-/

namespace Lql.Json

open Lql.Scan (isPlain isSpace isShortEscape shortEscapeByte hexValue leadInfo unicodeBytes)

section Laws

variable {α β : Type}

theorem bind_eq_some {p : P α} {q : α → P β} {f : Flat} {r : β × Flat} :
    (p >>= q) f = some r ↔ ∃ a f', p f = some (a, f') ∧ q a f' = some r := by
  have h : (p >>= q) f = (p f).bind fun x => q x.1 x.2 := rfl
  rw [h, Option.bind_eq_some_iff]
  constructor
  · rintro ⟨⟨a, f'⟩, h1, h2⟩
    exact ⟨a, f', h1, h2⟩
  · rintro ⟨a, f', h1, h2⟩
    exact ⟨(a, f'), h1, h2⟩

theorem bind_eq {p : P α} {q : α → P β} {f f' : Flat} {a : α} (h : p f = some (a, f')) :
    (p >>= q) f = q a f' := by
  have e : (p >>= q) f = (p f).bind fun x => q x.1 x.2 := rfl
  rw [e, h]
  rfl

theorem bind_eq_none {p : P α} {q : α → P β} {f : Flat} (h : p f = none) :
    (p >>= q) f = none := by
  have e : (p >>= q) f = (p f).bind fun x => q x.1 x.2 := rfl
  rw [e, h]
  rfl

@[simp] theorem pure_apply (a : α) (f : Flat) : (pure a : P α) f = some (a, f) := rfl

@[simp] theorem failure_apply (f : Flat) : (failure : P α) f = none := rfl

@[simp] theorem get_apply (f : Flat) : (get : P Flat) f = some (f, f) := rfl

/-- `p` takes a prefix of the input and looks at most one byte further. -/
def Tame (p : P α) : Prop :=
  ∀ f a f', p f = some (a, f') → ∃ pre, f.rest = pre ++ f'.rest ∧
    ∀ c y, f'.rest.head? = some c →
      p { rest := pre ++ c :: y, compact := f.compact } = some (a, { f' with rest := c :: y })

/-- `p` takes a prefix of the input and does not look further. -/
def Closed (p : P α) : Prop :=
  ∀ f a f', p f = some (a, f') → ∃ pre, f.rest = pre ++ f'.rest ∧
    ∀ y, p { rest := pre ++ y, compact := f.compact } = some (a, { f' with rest := y })

/-- `p` takes at least one byte. -/
def Eats (p : P α) : Prop := ∀ f a f', p f = some (a, f') → f'.rest.length < f.rest.length

theorem Closed.tame {p : P α} (h : Closed p) : Tame p := by
  intro f a f' hp
  obtain ⟨pre, hpre, hy⟩ := h f a f' hp
  exact ⟨pre, hpre, fun c y _ => hy (c :: y)⟩

theorem Tame.le {p : P α} (h : Tame p) {f f' : Flat} {a : α} (hp : p f = some (a, f')) :
    f'.rest.length ≤ f.rest.length := by
  obtain ⟨pre, hpre, -⟩ := h f a f' hp
  rw [hpre, List.length_append]
  exact Nat.le_add_left _ _

theorem Tame.pure (a : α) : Tame (pure a : P α) := by
  intro f b f' h
  cases h
  exact ⟨[], rfl, fun c y _ => rfl⟩

theorem Closed.pure (a : α) : Closed (pure a : P α) := by
  intro f b f' h
  cases h
  exact ⟨[], rfl, fun y => rfl⟩

theorem Closed.failure : Closed (failure : P α) := by
  intro f b f' h
  exact absurd h (by simp)

theorem Tame.bind {p : P α} {q : α → P β} (hp : Tame p) (hq : ∀ a, Tame (q a)) :
    Tame (p >>= q) := by
  intro f b f' h
  obtain ⟨a, f1, h1, h2⟩ := bind_eq_some.mp h
  obtain ⟨pre1, e1, loc1⟩ := hp f a f1 h1
  obtain ⟨pre2, e2, loc2⟩ := hq a f1 b f' h2
  refine ⟨pre1 ++ pre2, by rw [e1, e2, List.append_assoc], ?_⟩
  intro c y hc
  obtain ⟨d, z, hdz⟩ : ∃ d z, pre2 ++ c :: y = d :: z ∧ f1.rest.head? = some d := by
    cases pre2 with
    | nil => exact ⟨c, y, rfl, by rw [e2]; simpa using hc⟩
    | cons d pre => exact ⟨d, pre ++ c :: y, rfl, by rw [e2]; rfl⟩
  have h1' := loc1 d z hdz.2
  rw [← hdz.1] at h1'
  rw [List.append_assoc, bind_eq h1']
  exact loc2 c y hc

/-- Behind a tame parser, one that takes something and does not look further. -/
theorem Closed.bind {p : P α} {q : α → P β} (hp : Tame p) (hq : ∀ a, Closed (q a))
    (he : ∀ a, Eats (q a)) : Closed (p >>= q) := by
  intro f b f' h
  obtain ⟨a, f1, h1, h2⟩ := bind_eq_some.mp h
  obtain ⟨pre1, e1, loc1⟩ := hp f a f1 h1
  obtain ⟨pre2, e2, loc2⟩ := hq a f1 b f' h2
  have hlt := he a f1 b f' h2
  refine ⟨pre1 ++ pre2, by rw [e1, e2, List.append_assoc], ?_⟩
  intro y
  cases pre2 with
  | nil => simp [e2] at hlt
  | cons d pre =>
    have h1' := loc1 d (pre ++ y) (by rw [e2]; rfl)
    rw [List.append_assoc, List.cons_append, bind_eq h1']
    exact loc2 y

/-- Behind a parser that does not look further, another one. -/
theorem Closed.seq {p : P α} {q : α → P β} (hp : Closed p) (hq : ∀ a, Closed (q a)) :
    Closed (p >>= q) := by
  intro f b f' h
  obtain ⟨a, f1, h1, h2⟩ := bind_eq_some.mp h
  obtain ⟨pre1, e1, loc1⟩ := hp f a f1 h1
  obtain ⟨pre2, e2, loc2⟩ := hq a f1 b f' h2
  refine ⟨pre1 ++ pre2, by rw [e1, e2, List.append_assoc], ?_⟩
  intro y
  rw [List.append_assoc, bind_eq (loc1 (pre2 ++ y))]
  exact loc2 y

theorem Eats.bind {p : P α} {q : α → P β} (hp : Eats p) (hq : ∀ a, Tame (q a)) :
    Eats (p >>= q) := by
  intro f b f' h
  obtain ⟨a, f1, h1, h2⟩ := bind_eq_some.mp h
  exact Nat.lt_of_le_of_lt ((hq a).le h2) (hp f a f1 h1)

theorem Eats.bind_right {p : P α} {q : α → P β} (hp : Tame p) (hq : ∀ a, Eats (q a)) :
    Eats (p >>= q) := by
  intro f b f' h
  obtain ⟨a, f1, h1, h2⟩ := bind_eq_some.mp h
  exact Nat.lt_of_lt_of_le (hq a f1 b f' h2) (hp.le h1)

theorem Eats.failure : Eats (failure : P α) := by
  intro f b f' h
  exact absurd h (by simp)

end Laws

/-! ## Tokens -/

theorem takeP_closed : Closed takeP := by
  intro f a f' h
  obtain ⟨rest, compact⟩ := f
  cases rest with
  | nil => cases h
  | cons c rest =>
    cases h
    exact ⟨[a], rfl, fun y => rfl⟩

theorem takeP_eats : Eats takeP := by
  intro f a f' h
  obtain ⟨rest, compact⟩ := f
  cases rest with
  | nil => cases h
  | cons c rest =>
    cases h
    exact Nat.lt_succ_self _

theorem takeP_some {f f' : Flat} {c : UInt8} (h : takeP f = some (c, f')) :
    f = { rest := c :: f'.rest, compact := f'.compact } := by
  obtain ⟨rest, compact⟩ := f
  cases rest with
  | nil => cases h
  | cons d rest => cases h; rfl

theorem peekP_tame : Tame peekP := by
  intro f a f' h
  cases h
  refine ⟨[], rfl, fun c y hc => ?_⟩
  simp [peekP, hc]

theorem expectP_closed (c : UInt8) : Closed (expectP c) := by
  refine takeP_closed.seq fun a => ?_
  split
  · exact .failure
  · exact .pure _

theorem expectP_eats (c : UInt8) : Eats (expectP c) := by
  refine takeP_eats.bind fun a => ?_
  split
  · exact Closed.failure.tame
  · exact .pure _

theorem spaceP_tame : Tame spaceP := by
  intro f a f' h
  cases h
  refine ⟨f.rest.takeWhile isSpace, (List.takeWhile_append_dropWhile ..).symm, ?_⟩
  intro c y hc
  have hc' : isSpace c = false := by
    have := List.head?_dropWhile_not isSpace f.rest
    rw [hc] at this
    simpa using this
  have hdrop : (f.rest.takeWhile isSpace ++ c :: y).dropWhile isSpace = c :: y := by
    rw [List.dropWhile_append_of_pos (fun b hb => List.mem_takeWhile_imp hb)]
    simp [List.dropWhile, hc']
  have hne : (f.rest.dropWhile isSpace).isEmpty = false := by
    cases hr : f.rest.dropWhile isSpace with
    | nil => rw [hr] at hc; cases hc
    | cons => rfl
  have hlen : (f.rest.dropWhile isSpace).length = f.rest.length ↔
      (f.rest.takeWhile isSpace).length = 0 := by
    have := congrArg List.length (List.takeWhile_append_dropWhile (p := isSpace) (l := f.rest))
    rw [List.length_append] at this
    omega
  simp only [spaceP, hdrop, hne, hlen, Bool.false_or, List.isEmpty_cons, List.length_append]
  congr 4
  have : (c :: y).length = (f.rest.takeWhile isSpace).length + (c :: y).length ↔
      (f.rest.takeWhile isSpace).length = 0 := by omega
  simp only [this]

theorem literalP_closed : ∀ text, Closed (literalP text)
  | [] => .pure _
  | c :: rest => (expectP_closed c).seq fun _ => literalP_closed rest

/-! ## Strings -/

theorem hexP_closed : ∀ k value raw, Closed (hexP k value raw)
  | 0, _, _ => .pure _
  | k + 1, value, raw => takeP_closed.seq fun c => by
    cases hexValue c with
    | none => exact .failure
    | some digit => exact hexP_closed k _ _

theorem escapeP_closed : Closed escapeP := by
  refine takeP_closed.seq fun next => ?_
  split
  · exact .pure _
  split
  · exact .failure
  refine (hexP_closed _ _ _).seq fun ⟨unicode, raw⟩ => ?_
  dsimp only
  split
  · exact .failure
  split
  · exact .pure _
  refine (expectP_closed _).seq fun _ => (expectP_closed _).seq fun _ =>
    (hexP_closed _ _ _).seq fun ⟨low, lowRaw⟩ => ?_
  dsimp only
  split
  · exact .failure
  · exact .pure _

theorem continuationP_closed : ∀ k lo hi, Closed (continuationP k lo hi)
  | 0, _, _ => .pure _
  | k + 1, lo, hi => takeP_closed.seq fun c => by
    split
    · exact .failure
    · exact (continuationP_closed k _ _).seq fun _ => .pure _

theorem codedP_closed (c : UInt8) : Closed (codedP c) := by
  unfold codedP
  split
  · exact .failure
  split
  · exact escapeP_closed
  split
  · exact .failure
  · exact (continuationP_closed _ _ _).seq fun _ => .pure _

theorem piecesP_closed : ∀ fuel, Closed (piecesP fuel)
  | 0 => .failure
  | fuel + 1 => takeP_closed.seq fun c => by
    split
    · exact (piecesP_closed fuel).seq fun _ => .pure _
    split
    · exact .pure _
    · exact (codedP_closed c).seq fun _ => (piecesP_closed fuel).seq fun _ => .pure _

theorem piecesP_eats : ∀ fuel, Eats (piecesP fuel)
  | 0 => .failure
  | fuel + 1 => takeP_eats.bind fun c => by
    split
    · exact ((piecesP_closed fuel).seq fun _ => .pure _).tame
    split
    · exact .pure _
    · exact ((codedP_closed c).seq fun _ => (piecesP_closed fuel).seq fun _ => .pure _).tame

/-- Fuel above the input is enough: a string has no more pieces than bytes. -/
theorem piecesP_fuel : ∀ m n f r, piecesP m f = some r → f.rest.length < n → piecesP n f = some r
  | 0, _, _, _, h, _ => by cases h
  | m + 1, 0, _, _, _, hn => absurd hn (Nat.not_lt_zero _)
  | m + 1, n + 1, f, r, h, hn => by
    obtain ⟨c, f1, h1, h2⟩ := bind_eq_some.mp h
    have hlt : f1.rest.length < n := Nat.lt_of_lt_of_le (takeP_eats _ _ _ h1) (Nat.le_of_lt_succ hn)
    rw [piecesP, bind_eq h1]
    split at h2
    · next hc =>
      obtain ⟨ps, f2, h3, h4⟩ := bind_eq_some.mp h2
      rw [if_pos hc, bind_eq (piecesP_fuel m n f1 _ h3 hlt)]
      exact h4
    · next hc =>
      rw [if_neg hc]
      split at h2
      · next hq =>
        rw [if_pos hq]
        exact h2
      · next hq =>
        rw [if_neg hq]
        obtain ⟨piece, f2, h3, h4⟩ := bind_eq_some.mp h2
        obtain ⟨ps, f3, h5, h6⟩ := bind_eq_some.mp h4
        have hlt2 : f2.rest.length < n := Nat.lt_of_le_of_lt ((codedP_closed c).tame.le h3) hlt
        rw [bind_eq h3, bind_eq (piecesP_fuel m n f2 _ h5 hlt2)]
        exact h6

/-- Plain bytes are pieces of their own. -/
theorem piecesP_plain (m : Nat) (rest : Bytes) (compact : Bool) :
    ∀ data : Bytes, (∀ c ∈ data, isPlain c = true) →
      piecesP (m + data.length) { rest := data ++ rest, compact } =
        (piecesP m { rest, compact }).map fun r => (data.map .plain ++ r.1, r.2)
  | [], _ => by
    simp only [List.length_nil, Nat.add_zero, List.nil_append, List.map_nil]
    cases piecesP m { rest, compact } <;> rfl
  | c :: data, h => by
    have hc := h c List.mem_cons_self
    have ih := piecesP_plain m rest compact data fun d hd => h d (List.mem_cons_of_mem _ hd)
    have htake : takeP { rest := c :: (data ++ rest), compact } =
        some (c, { rest := data ++ rest, compact }) := rfl
    rw [List.length_cons, ← Nat.add_assoc, piecesP, List.cons_append, bind_eq htake, if_pos hc]
    cases hp : piecesP m { rest, compact } with
    | none =>
      rw [hp] at ih
      rw [bind_eq_none ih]
      rfl
    | some r =>
      rw [hp] at ih
      rw [bind_eq ih]
      rfl

theorem stringP_closed : Closed stringP := by
  intro f a f' h
  obtain ⟨_, f1, h1, h2⟩ := bind_eq_some.mp h
  have h2' : piecesP (f1.rest.length + 1) f1 = some (a, f') := h2
  obtain ⟨pre1, e1, loc1⟩ := expectP_closed chQuote _ _ _ h1
  obtain ⟨pre2, e2, loc2⟩ := piecesP_closed _ _ _ _ h2'
  refine ⟨pre1 ++ pre2, by rw [e1, e2, List.append_assoc], fun y => ?_⟩
  rw [List.append_assoc, stringP, bind_eq (loc1 (pre2 ++ y)), bind_eq (get_apply _)]
  exact piecesP_fuel _ _ _ _ (loc2 y) (Nat.lt_succ_self _)

theorem expectP_none {c : UInt8} {f : Flat} (h : f.rest.head? ≠ some c) : expectP c f = none := by
  obtain ⟨rest, compact⟩ := f
  cases rest with
  | nil => rfl
  | cons d rest =>
    have hd : d ≠ c := fun e => h (by rw [e]; rfl)
    have ht : takeP { rest := d :: rest, compact } = some (d, { rest, compact }) := rfl
    rw [expectP, bind_eq ht, if_pos hd]
    rfl

theorem expectP_some {c : UInt8} {f : Flat} {rest : Bytes} (h : f.rest = c :: rest) :
    expectP c f = some ((), { f with rest }) := by
  have ht : takeP f = some (c, { f with rest }) := by simp [takeP, h]
  rw [expectP, bind_eq ht, if_neg (not_not.mpr rfl)]
  rfl

theorem stringP_none {f : Flat} (h : f.rest.head? ≠ some chQuote) : stringP f = none :=
  bind_eq_none (expectP_none h)

theorem stringP_eats : Eats stringP := by
  intro f a f' h
  obtain ⟨_, f1, h1, h2⟩ := bind_eq_some.mp h
  exact Nat.lt_trans (piecesP_eats _ f1 a f' h2) (expectP_eats chQuote _ _ _ h1)

/-! ## Numbers -/

theorem digitsP_tame : Tame digitsP := by
  intro f a f' h
  cases h
  refine ⟨f.rest.takeWhile isDigit, (List.takeWhile_append_dropWhile ..).symm, ?_⟩
  intro c y hc
  have hc' : isDigit c = false := by
    have := List.head?_dropWhile_not isDigit f.rest
    rw [hc] at this
    simpa using this
  have hall : ∀ b ∈ f.rest.takeWhile isDigit, isDigit b = true := fun b hb =>
    List.mem_takeWhile_imp hb
  simp [digitsP, List.takeWhile_append_of_pos hall, List.dropWhile_append_of_pos hall, hc']

theorem integerP_tame : Tame integerP := by
  refine peekP_tame.bind fun v => ?_
  cases v with
  | none => exact Closed.failure.tame
  | some c =>
    dsimp only
    split
    · exact takeP_closed.tame.bind fun _ => .pure _
    split
    · exact digitsP_tame
    · exact Closed.failure.tame

theorem digits1P_tame : Tame digits1P := by
  refine peekP_tame.bind fun v => ?_
  cases v with
  | none => exact Closed.failure.tame
  | some c =>
    dsimp only
    split
    · exact digitsP_tame
    · exact Closed.failure.tame

theorem fractionP_tame : Tame fractionP := by
  refine peekP_tame.bind fun v => ?_
  split
  · exact takeP_closed.tame.bind fun _ => digits1P_tame.bind fun _ => .pure _
  · exact .pure _

theorem signP_tame : Tame signP := by
  refine peekP_tame.bind fun v => ?_
  split
  · exact takeP_closed.tame.bind fun _ => .pure _
  · exact .pure _

theorem exponentSignP_tame : Tame exponentSignP := by
  refine peekP_tame.bind fun v => ?_
  cases v with
  | none => exact .pure _
  | some c =>
    dsimp only
    split
    · exact takeP_closed.tame.bind fun _ => .pure _
    · exact .pure _

theorem exponentP_tame : Tame exponentP := by
  refine peekP_tame.bind fun v => ?_
  cases v with
  | none => exact .pure _
  | some c =>
    dsimp only
    split
    · exact takeP_closed.tame.bind fun _ => exponentSignP_tame.bind fun _ =>
        digits1P_tame.bind fun _ => .pure _
    · exact .pure _

theorem numberP_tame : Tame numberP :=
  signP_tame.bind fun _ => integerP_tame.bind fun _ => fractionP_tame.bind fun _ =>
    exponentP_tame.bind fun _ => .pure _

theorem integerP_eats : Eats integerP := by
  intro f a f' h
  obtain ⟨v, f1, h1, h2⟩ := bind_eq_some.mp h
  cases h1
  cases hf : f.rest with
  | nil => simp [hf] at h2
  | cons c rest =>
    simp only [hf, List.head?_cons] at h2
    split at h2
    · obtain ⟨d, f2, h3, h4⟩ := bind_eq_some.mp h2
      cases h4
      rw [← hf]
      exact takeP_eats _ _ _ h3
    split at h2
    · next hd =>
      have hdig : isDigit c = true := isDigit_of_isDigit19 hd
      cases h2
      simp only [hf, List.dropWhile_cons_of_pos hdig, List.length_cons]
      exact Nat.lt_succ_of_le (List.dropWhile_sublist _).length_le
    · cases h2

theorem numberP_eats : Eats numberP :=
  .bind_right signP_tame fun _ => integerP_eats.bind fun _ => fractionP_tame.bind fun _ =>
    exponentP_tame.bind fun _ => .pure _

/-! ## Containers -/

/-- A parser that takes something and does not look further. -/
structure Token {α : Type} (p : P α) : Prop where
  closed : Closed p
  eats : Eats p

theorem Token.tame {α : Type} {p : P α} (h : Token p) : Tame p := h.closed.tame

theorem Token.bind {α β : Type} {p : P α} {q : α → P β} (hp : Tame p) (hq : ∀ a, Token (q a)) :
    Token (p >>= q) :=
  ⟨.bind hp (fun a => (hq a).closed) fun a => (hq a).eats, .bind_right hp fun a => (hq a).eats⟩

theorem Token.seq {α β : Type} {p : P α} {q : α → P β} (hp : Token p) (hq : ∀ a, Closed (q a)) :
    Token (p >>= q) :=
  ⟨hp.closed.seq hq, hp.eats.bind fun a => (hq a).tame⟩

theorem takeP_token : Token takeP := ⟨takeP_closed, takeP_eats⟩

theorem expectP_token (c : UInt8) : Token (expectP c) := ⟨expectP_closed c, expectP_eats c⟩

theorem stringP_token : Token stringP := ⟨stringP_closed, stringP_eats⟩

section Containers

variable {p q : P Value}

theorem memberEndP_token {r : P Members} (hr : Token r) (key : Str) (v : Value) :
    Token (memberEndP r key v) := by
  refine .bind spaceP_tame fun _ => takeP_token.seq fun c => ?_
  split
  · exact .pure _
  split
  · exact .failure
  · exact Token.closed (.bind spaceP_tame fun _ => hr.seq fun _ => .pure _)

theorem membersP_token (hp : Tame p) : ∀ fuel, Token (membersP p fuel)
  | 0 => ⟨.failure, .failure⟩
  | fuel + 1 => stringP_token.seq fun key => Token.closed (.bind spaceP_tame fun _ =>
      (expectP_token _).seq fun _ => Token.closed (.bind spaceP_tame fun _ => .bind hp fun v =>
        memberEndP_token (membersP_token hp fuel) key v))

theorem elementEndP_token {r : P Elements} (hr : Token r) (v : Value) :
    Token (elementEndP r v) := by
  refine .bind spaceP_tame fun _ => takeP_token.seq fun c => ?_
  split
  · exact .pure _
  split
  · exact .failure
  · exact Token.closed (.bind spaceP_tame fun _ => hr.seq fun _ => .pure _)

theorem elementsP_token (hp : Tame p) : ∀ fuel, Token (elementsP p fuel)
  | 0 => ⟨.failure, .failure⟩
  | fuel + 1 => .bind hp fun v => elementEndP_token (elementsP_token hp fuel) v

theorem memberEndP_some {r : P Members} {key : Str} {v : Value} {f f' : Flat} {ms : Members}
    (h : memberEndP r key v f = some (ms, f')) : ∃ rest, ms = .cons key v rest := by
  obtain ⟨_, f1, -, h⟩ := bind_eq_some.mp h
  obtain ⟨c, f2, -, h⟩ := bind_eq_some.mp h
  split at h
  · cases h
    exact ⟨_, rfl⟩
  split at h
  · cases h
  · obtain ⟨_, f3, -, h⟩ := bind_eq_some.mp h
    obtain ⟨rest, f4, -, h⟩ := bind_eq_some.mp h
    cases h
    exact ⟨_, rfl⟩

theorem elementEndP_some {r : P Elements} {v : Value} {f f' : Flat} {es : Elements}
    (h : elementEndP r v f = some (es, f')) : ∃ rest, es = .cons v rest := by
  obtain ⟨_, f1, -, h⟩ := bind_eq_some.mp h
  obtain ⟨c, f2, -, h⟩ := bind_eq_some.mp h
  split at h
  · cases h
    exact ⟨_, rfl⟩
  split at h
  · cases h
  · obtain ⟨_, f3, -, h⟩ := bind_eq_some.mp h
    obtain ⟨rest, f4, -, h⟩ := bind_eq_some.mp h
    cases h
    exact ⟨_, rfl⟩

theorem objectP_token (hp : Tame p) (fuel : Nat) : Token (objectP p fuel) := by
  refine (expectP_token _).seq fun _ => Token.closed (.bind spaceP_tame fun _ =>
    .bind peekP_tame fun first => ?_)
  split
  · exact takeP_token.seq fun _ => .pure _
  · exact (membersP_token hp fuel).seq fun _ => .pure _

theorem arrayP_token (hp : Tame p) (fuel : Nat) : Token (arrayP p fuel) := by
  refine (expectP_token _).seq fun _ => Token.closed (.bind spaceP_tame fun _ =>
    .bind peekP_tame fun first => ?_)
  split
  · exact takeP_token.seq fun _ => .pure _
  · exact (elementsP_token hp fuel).seq fun _ => .pure _

theorem objectP_some {fuel : Nat} {f f' : Flat} {v : Value} (h : objectP p fuel f = some (v, f')) :
    ∃ ms, v = .obj ms := by
  obtain ⟨_, f1, -, h⟩ := bind_eq_some.mp h
  obtain ⟨_, f2, -, h⟩ := bind_eq_some.mp h
  obtain ⟨first, f3, -, h⟩ := bind_eq_some.mp h
  split at h
  · obtain ⟨_, f4, -, h⟩ := bind_eq_some.mp h
    cases h
    exact ⟨_, rfl⟩
  · obtain ⟨ms, f4, -, h⟩ := bind_eq_some.mp h
    cases h
    exact ⟨_, rfl⟩

theorem arrayP_some {fuel : Nat} {f f' : Flat} {v : Value} (h : arrayP p fuel f = some (v, f')) :
    ∃ es, v = .arr es := by
  obtain ⟨_, f1, -, h⟩ := bind_eq_some.mp h
  obtain ⟨_, f2, -, h⟩ := bind_eq_some.mp h
  obtain ⟨first, f3, -, h⟩ := bind_eq_some.mp h
  split at h
  · obtain ⟨_, f4, -, h⟩ := bind_eq_some.mp h
    cases h
    exact ⟨_, rfl⟩
  · obtain ⟨es, f4, -, h⟩ := bind_eq_some.mp h
    cases h
    exact ⟨_, rfl⟩

end Containers

theorem literalP_eats {text : Bytes} (h : text ≠ []) : Eats (literalP text) := by
  cases text with
  | nil => exact absurd rfl h
  | cons c rest => exact (expectP_eats c).bind fun _ => (literalP_closed rest).tame

theorem valueP_tame : ∀ fuel, Tame (valueP fuel)
  | 0 => Closed.failure.tame
  | fuel + 1 => by
    refine peekP_tame.bind fun v => ?_
    cases v with
    | none => exact Closed.failure.tame
    | some c =>
      dsimp only
      split
      · exact (objectP_token (valueP_tame fuel) fuel).tame
      split
      · exact (arrayP_token (valueP_tame fuel) fuel).tame
      split
      · exact stringP_token.tame.bind fun _ => .pure _
      split
      · exact (literalP_closed _).tame.bind fun _ => .pure _
      split
      · exact (literalP_closed _).tame.bind fun _ => .pure _
      split
      · exact (literalP_closed _).tame.bind fun _ => .pure _
      · exact numberP_tame.bind fun _ => .pure _

theorem valueP_eats : ∀ fuel, Eats (valueP fuel)
  | 0 => .failure
  | fuel + 1 => by
    refine Eats.bind_right peekP_tame fun v => ?_
    cases v with
    | none => exact .failure
    | some c =>
      dsimp only
      split
      · exact (objectP_token (valueP_tame fuel) fuel).eats
      split
      · exact (arrayP_token (valueP_tame fuel) fuel).eats
      split
      · exact stringP_eats.bind fun _ => .pure _
      split
      · exact (literalP_eats (by decide)).bind fun _ => .pure _
      split
      · exact (literalP_eats (by decide)).bind fun _ => .pure _
      split
      · exact (literalP_eats (by decide)).bind fun _ => .pure _
      · exact numberP_eats.bind fun _ => .pure _

/-! ## Fuel -/

section Fuel

variable {p q : P Value}

/-- Two value parsers that agree on inputs shorter than `n`. -/
def Agrees (p q : P Value) (n : Nat) : Prop :=
  ∀ f r, p f = some r → f.rest.length < n → q f = some r

theorem memberEndP_fuel {r s : P Members} {n : Nat}
    (hrs : ∀ f x, r f = some x → f.rest.length < n → s f = some x) {key : Str} {v : Value} {f : Flat}
    {x : Members × Flat} (h : memberEndP r key v f = some x) (hn : f.rest.length ≤ n) :
    memberEndP s key v f = some x := by
  obtain ⟨_, f1, h1, h⟩ := bind_eq_some.mp h
  obtain ⟨c, f2, h2, h⟩ := bind_eq_some.mp h
  have l1 := spaceP_tame.le h1
  have l2 := takeP_eats _ _ _ h2
  rw [memberEndP, bind_eq h1, bind_eq h2]
  split at h
  · next hc =>
    rw [if_pos hc]
    exact h
  next hc =>
  rw [if_neg hc]
  split at h
  · cases h
  next hc' =>
  rw [if_neg hc']
  obtain ⟨_, f3, h3, h⟩ := bind_eq_some.mp h
  obtain ⟨ms, f4, h4, h⟩ := bind_eq_some.mp h
  have l3 := spaceP_tame.le h3
  rw [bind_eq h3, bind_eq (hrs _ _ h4 (by omega))]
  exact h

theorem membersP_fuel (hp : Tame p) {k : Nat} (hpq : Agrees p q k) :
    ∀ m n f r, membersP p m f = some r → f.rest.length < n → f.rest.length ≤ k →
      membersP q n f = some r
  | 0, _, _, _, h, _, _ => by cases h
  | m + 1, 0, _, _, _, hn, _ => absurd hn (Nat.not_lt_zero _)
  | m + 1, n + 1, f, r, h, hn, hk => by
    obtain ⟨key, f1, h1, h⟩ := bind_eq_some.mp h
    obtain ⟨_, f2, h2, h⟩ := bind_eq_some.mp h
    obtain ⟨_, f3, h3, h⟩ := bind_eq_some.mp h
    obtain ⟨_, f4, h4, h⟩ := bind_eq_some.mp h
    obtain ⟨v, f5, h5, h⟩ := bind_eq_some.mp h
    have l1 := stringP_eats _ _ _ h1
    have l2 := spaceP_tame.le h2
    have l3 := expectP_eats _ _ _ _ h3
    have l4 := spaceP_tame.le h4
    have l5 := hp.le h5
    rw [membersP, bind_eq h1, bind_eq h2, bind_eq h3, bind_eq h4, bind_eq (hpq _ _ h5 (by omega))]
    exact memberEndP_fuel (n := f5.rest.length)
      (fun f x hf hlt => membersP_fuel hp hpq m n f x hf (by omega) (by omega)) h (Nat.le_refl _)

theorem elementEndP_fuel {r s : P Elements} {n : Nat}
    (hrs : ∀ f x, r f = some x → f.rest.length < n → s f = some x) {v : Value} {f : Flat}
    {x : Elements × Flat} (h : elementEndP r v f = some x) (hn : f.rest.length ≤ n) :
    elementEndP s v f = some x := by
  obtain ⟨_, f1, h1, h⟩ := bind_eq_some.mp h
  obtain ⟨c, f2, h2, h⟩ := bind_eq_some.mp h
  have l1 := spaceP_tame.le h1
  have l2 := takeP_eats _ _ _ h2
  rw [elementEndP, bind_eq h1, bind_eq h2]
  split at h
  · next hc =>
    rw [if_pos hc]
    exact h
  next hc =>
  rw [if_neg hc]
  split at h
  · cases h
  next hc' =>
  rw [if_neg hc']
  obtain ⟨_, f3, h3, h⟩ := bind_eq_some.mp h
  obtain ⟨es, f4, h4, h⟩ := bind_eq_some.mp h
  have l3 := spaceP_tame.le h3
  rw [bind_eq h3, bind_eq (hrs _ _ h4 (by omega))]
  exact h

theorem elementsP_fuel (hp : Tame p) {k : Nat} (hpq : Agrees p q k) :
    ∀ m n f r, elementsP p m f = some r → f.rest.length < n → f.rest.length < k →
      elementsP q n f = some r
  | 0, _, _, _, h, _, _ => by cases h
  | m + 1, 0, _, _, _, hn, _ => absurd hn (Nat.not_lt_zero _)
  | m + 1, n + 1, f, r, h, hn, hk => by
    obtain ⟨v, f1, h1, h⟩ := bind_eq_some.mp h
    have l1 := hp.le h1
    rw [elementsP, bind_eq (hpq _ _ h1 hk)]
    exact elementEndP_fuel (n := f1.rest.length)
      (fun f x hf hlt => elementsP_fuel hp hpq m n f x hf (by omega) (by omega)) h (Nat.le_refl _)

end Fuel

/-- Fuel above the input is enough for a value. -/
theorem valueP_fuel : ∀ m n f r, valueP m f = some r → f.rest.length < n → valueP n f = some r
  | 0, _, _, _, h, _ => by cases h
  | m + 1, 0, _, _, _, hn => absurd hn (Nat.not_lt_zero _)
  | m + 1, n + 1, f, r, h, hn => by
    have agree : Agrees (valueP m) (valueP n) n := fun f r h hf => valueP_fuel m n f r h hf
    obtain ⟨v, f1, h1, h⟩ := bind_eq_some.mp h
    rw [valueP, bind_eq h1]
    cases h1
    cases hf : f.rest.head? with
    | none => simp [hf] at h
    | some c =>
      simp only [hf] at h ⊢
      by_cases h1 : c = chLBrace
      · rw [if_pos h1] at h ⊢
        obtain ⟨_, f2, e2, h⟩ := bind_eq_some.mp h
        obtain ⟨_, f3, e3, h⟩ := bind_eq_some.mp h
        obtain ⟨first, f4, e4, h⟩ := bind_eq_some.mp h
        rw [objectP, bind_eq e2, bind_eq e3, bind_eq e4]
        have l2 := expectP_eats _ _ _ _ e2
        have l3 := spaceP_tame.le e3
        have l4 := peekP_tame.le e4
        split at h
        · next hc =>
          rw [if_pos hc]
          exact h
        · next hc =>
          obtain ⟨ms, f5, e5, h⟩ := bind_eq_some.mp h
          rw [if_neg hc, bind_eq (membersP_fuel (valueP_tame m) agree m n f4 _ e5 (by omega)
            (by omega))]
          exact h
      rw [if_neg h1] at h ⊢
      by_cases h2 : c = chLBracket
      · rw [if_pos h2] at h ⊢
        obtain ⟨_, f2, e2, h⟩ := bind_eq_some.mp h
        obtain ⟨_, f3, e3, h⟩ := bind_eq_some.mp h
        obtain ⟨first, f4, e4, h⟩ := bind_eq_some.mp h
        rw [arrayP, bind_eq e2, bind_eq e3, bind_eq e4]
        have l2 := expectP_eats _ _ _ _ e2
        have l3 := spaceP_tame.le e3
        have l4 := peekP_tame.le e4
        split at h
        · next hc =>
          rw [if_pos hc]
          exact h
        · next hc =>
          obtain ⟨es, f5, e5, h⟩ := bind_eq_some.mp h
          rw [if_neg hc, bind_eq (elementsP_fuel (valueP_tame m) agree m n f4 _ e5
            (by omega) (by omega))]
          exact h
      rw [if_neg h2] at h ⊢
      exact h

/-- Beyond the length of the input the fuel does not matter. -/
theorem valueP_fuel_eq {m n : Nat} {f : Flat} (hm : f.rest.length < m) (hn : f.rest.length < n) :
    valueP m f = valueP n f := by
  cases h : valueP n f with
  | some r => exact valueP_fuel n m f r h hm
  | none =>
    cases h' : valueP m f with
    | none => rfl
    | some r => rw [valueP_fuel m n f r h' hn] at h; cases h

end Lql.Json
