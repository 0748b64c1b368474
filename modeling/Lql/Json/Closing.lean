import Lql.Json.Lexer
import Lql.Spool.Refine

/-!
# Where a value ends

A reader that counts braces and brackets, without telling the two kinds apart, and passes over strings
finds the end of an object or an array. In a document they nest, so the count is at the end of every value
inside what it was at its beginning, and the bracket that takes it to zero is the last one of the value.
-/

namespace Lql.Json

open Lql.Scan (isPlain isSpace)
open Lql.Spool (stringScan stringScan_append stringScan_plain)

/-! ## Counting -/

/-- With `depth` braces and brackets open, the bytes up to and with the one that leaves none. -/
def closing : Mode → Nat → Bytes → Option Nat
  | _, _, [] => none
  | .outside, depth, c :: rest =>
    if c = chQuote then (closing .inside depth rest).map (· + 1)
    else if isOpen c then (closing .outside (depth + 1) rest).map (· + 1)
    else if isClose c then
      if depth = 0 then none
      else if depth - 1 = 0 then some 1
      else (closing .outside (depth - 1) rest).map (· + 1)
    else (closing .outside depth rest).map (· + 1)
  | .inside, depth, c :: rest => (closing (Mode.inside.next c) depth rest).map (· + 1)
  | .escaped, depth, _ :: rest => (closing .inside depth rest).map (· + 1)

/-- Bytes behind others, counted from where these begin. -/
theorem map_shift (o : Option Nat) (a b : Nat) : (o.map (· + a)).map (· + b) = o.map (· + (a + b)) := by
  cases o with
  | none => rfl
  | some n => exact congrArg some (Nat.add_assoc n a b)

/-- Inside a string the count stands still up to the end that the string scan finds. -/
theorem closing_scan : ∀ (text : Bytes) (depth : Nat) (escaped : Bool),
    closing (if escaped then .escaped else .inside) depth text =
      (stringScan text escaped).1.bind fun k => (closing .outside depth (text.drop k)).map (· + k)
  | [], _, escaped => by cases escaped <;> rfl
  | c :: text, depth, true => by
    have ih := closing_scan text depth false
    rw [if_neg Bool.false_ne_true] at ih
    rw [if_pos rfl, closing, stringScan, ih]
    cases (stringScan text false).1 with
    | none => rfl
    | some k => exact map_shift _ k 1
  | c :: text, depth, false => by
    rw [if_neg Bool.false_ne_true, closing, stringScan, Mode.next]
    by_cases hq : c = chQuote
    · rw [if_pos hq, if_pos hq]
      rfl
    · have ih := closing_scan text depth (c == chBackslash)
      have hmode : (if c = chBackslash then Mode.escaped else .inside) =
          if (c == chBackslash) = true then .escaped else .inside := by
        by_cases hb : c = chBackslash <;> simp [hb]
      rw [if_neg hq, if_neg hq, hmode, ih]
      cases (stringScan text (c == chBackslash)).1 with
      | none => rfl
      | some k => exact map_shift _ k 1

/-- What a string writes has no end of its own. -/
theorem scan_raw : ∀ {s : Str}, s.Ok → stringScan s.raw false = (none, false)
  | [], _ => rfl
  | p :: s, h => by
    obtain ⟨hp, hs⟩ := List.forall_mem_cons.mp h
    have plain : ∀ {bs : Bytes}, (∀ c ∈ bs, c ≠ chQuote ∧ c ≠ chBackslash) → stringScan bs false = (none, false) :=
      fun hbs => stringScan_plain (fun hq => (hbs _ hq).1 rfl) fun hb => (hbs _ hb).2 rfl
    have joined : ∀ {a b : Bytes}, stringScan a false = (none, false) → stringScan b false = (none, false) →
        stringScan (a ++ b) false = (none, false) := fun ha hb => by
      rw [stringScan_append _ (by rw [ha]), ha, hb]
      rfl
    refine joined ?_ (scan_raw hs)
    cases hp with
    | @plain c hc =>
      simp only [isPlain, Bool.and_eq_true, decide_eq_true_eq] at hc
      exact plain (List.forall_mem_singleton.mpr ⟨hc.1.1.1, hc.1.1.2⟩)
    | utf8 c hc => exact plain (char_plain hc)
    | short => rfl
    | unicode hx _ => exact joined (a := [chBackslash, chU]) rfl (plain (hex_plain hx))
    | pair hh hl _ _ =>
      exact joined (joined (joined (a := [chBackslash, chU]) rfl (plain (hex_plain hh)))
        (b := [chBackslash, chU]) rfl) (plain (hex_plain hl))

/-- The scan of a string behind its opening quote ends behind the closing one. -/
theorem scan_quoted {s : Str} (h : s.Ok) (rest : Bytes) :
    (stringScan (s.raw ++ chQuote :: rest) false).1 = some (s.raw.length + 1) := by
  rw [stringScan_append _ (by rw [scan_raw h]), scan_raw h]
  simp [stringScan, Nat.add_comm]

/-! ## Level texts -/

/-- A text that leaves the count where it was, whatever is open around it. -/
def Level (text : Bytes) : Prop :=
  ∀ depth rest, closing .outside (depth + 1) (text ++ rest) =
    (closing .outside (depth + 1) rest).map (· + text.length)

theorem Level.nil : Level [] := fun depth rest => by
  show closing .outside (depth + 1) rest = _
  cases closing .outside (depth + 1) rest <;> rfl

theorem Level.append {a b : Bytes} (ha : Level a) (hb : Level b) : Level (a ++ b) := by
  intro depth rest
  rw [List.append_assoc, ha, hb, map_shift, List.length_append, Nat.add_comm b.length]

/-- A byte that is neither a quote nor a brace or a bracket. -/
theorem Level.byte {c : UInt8} (hq : c ≠ chQuote) (ho : isOpen c = false) (hc : isClose c = false) :
    Level [c] := by
  intro depth rest
  rw [List.singleton_append, closing, if_neg hq, if_neg (by simp [ho]), if_neg (by simp [hc])]
  rfl

theorem Level.of_forall : ∀ {text : Bytes}, (∀ c ∈ text, isDull c = true ∨ isSpace c = true) → Level text
  | [], _ => .nil
  | c :: text, h => by
    obtain ⟨hc, htext⟩ := List.forall_mem_cons.mp h
    refine Level.append (a := [c]) ?_ (.of_forall htext)
    rcases hc with hc | hc
    · simp only [isDull, Bool.and_eq_true, decide_eq_true_eq, Bool.not_eq_true'] at hc
      exact .byte hc.1.1.1 hc.1.2 hc.2
    · simp only [isSpace, Bool.or_eq_true, decide_eq_true_eq] at hc
      rcases hc with ((rfl | rfl) | rfl) | rfl <;> exact .byte (by decide) rfl rfl

theorem Level.spaces {w : Bytes} (h : Spaces w) : Level w := .of_forall fun c hc => .inr (h c hc)

theorem Level.quoted {s : Str} (h : s.Ok) : Level s.quoted := by
  intro depth rest
  have hdrop : (s.raw ++ chQuote :: rest).drop (s.raw.length + 1) = rest := by
    rw [← List.drop_drop, List.drop_left]
    rfl
  have hin : s.quoted ++ rest = chQuote :: (s.raw ++ chQuote :: rest) := by simp [Str.quoted]
  have hlen : s.quoted.length = s.raw.length + 1 + 1 := by simp [Str.quoted]
  have hstring := closing_scan (s.raw ++ chQuote :: rest) (depth + 1) false
  rw [if_neg Bool.false_ne_true, scan_quoted h, Option.bind_some, hdrop] at hstring
  rw [hin, closing, if_pos rfl, hstring, map_shift, hlen]

/-- The count at a bracket that closes. -/
theorem closing_close {close : UInt8} (hclose : isClose close = true) (depth : Nat) (rest : Bytes) :
    closing .outside (depth + 2) (close :: rest) = (closing .outside (depth + 1) rest).map (· + 1) ∧
      closing .outside 1 (close :: rest) = some 1 := by
  simp only [isClose, Bool.or_eq_true, decide_eq_true_eq] at hclose
  rcases hclose with rfl | rfl <;> exact ⟨rfl, rfl⟩

theorem closing_open {opening : UInt8} (hopen : isOpen opening = true) (depth : Nat) (rest : Bytes) :
    closing .outside depth (opening :: rest) = (closing .outside (depth + 1) rest).map (· + 1) := by
  simp only [isOpen, Bool.or_eq_true, decide_eq_true_eq] at hopen
  rcases hopen with rfl | rfl <;> rfl

/-- A level text between brackets is level. -/
theorem Level.wrap {opening close : UInt8} {inner : Bytes} (hopen : isOpen opening = true)
    (hclose : isClose close = true) (h : Level inner) : Level (opening :: (inner ++ [close])) := by
  intro depth rest
  rw [List.cons_append, List.append_assoc, closing_open hopen, h, List.singleton_append,
    (closing_close hclose depth rest).1, map_shift, map_shift]
  simp [Nat.add_comm]

/-- **The bracket that closes a value takes the count to zero.** -/
theorem closing_container {opening close : UInt8} {inner : Bytes} (hopen : isOpen opening = true)
    (hclose : isClose close = true) (h : Level inner) (rest : Bytes) :
    closing .outside 0 (opening :: (inner ++ [close]) ++ rest) = some (opening :: (inner ++ [close])).length := by
  rw [List.cons_append, List.append_assoc, closing_open hopen, h, List.singleton_append,
    (closing_close hclose 0 rest).2]
  simp [Nat.add_comm]

/-! ## Documents -/

theorem Level.lead {first : Bool} {lead : Bytes} (h : Lead first lead) : Level lead := by
  cases first with
  | true =>
    rw [show lead = [] from h]
    exact .nil
  | false =>
    obtain ⟨w, hw, rfl⟩ := h
    exact (Level.byte (c := chComma) (by decide) rfl rfl).append (.spaces hw)

mutual

/-- A value leaves the count where it was. -/
theorem Value.level : ∀ (v : Value) {text : Bytes}, v.Writes text → Level text
  | .obj members, _, h => by
    obtain ⟨w, t, rfl, hw, ht⟩ := h
    obtain ⟨inner, rfl, hinner⟩ := members.level_inner ht
    rw [← List.append_assoc]
    exact .wrap rfl rfl ((Level.spaces hw).append hinner)
  | .arr elements, _, h => by
    obtain ⟨w, t, rfl, hw, ht⟩ := h
    obtain ⟨inner, rfl, hinner⟩ := elements.level_inner ht
    rw [← List.append_assoc]
    exact .wrap rfl rfl ((Level.spaces hw).append hinner)
  | .str s, _, h => by
    obtain ⟨rfl, hs⟩ := h
    exact .quoted hs
  | .num token, _, h => by
    obtain ⟨rfl, ht⟩ := h
    exact .of_forall fun c hc => .inl (number_dull ht c hc)
  | .lit l, _, h => by
    rw [show _ = l.text from h]
    exact .of_forall fun c hc => .inl (literal_dull l c hc)

theorem Members.level_inner : ∀ (ms : Members) {first : Bool} {text : Bytes}, ms.Writes first text →
    ∃ inner, text = inner ++ [chRBrace] ∧ Level inner
  | .nil, _, _, h => ⟨[], by rw [show _ = [chRBrace] from h]; rfl, .nil⟩
  | .cons key v ms, first, _, h => by
    obtain ⟨lead, w1, w2, tv, w3, t, rfl, hlead, hkey, hw1, hw2, hv, hw3, ht⟩ := h
    obtain ⟨inner, rfl, hinner⟩ := ms.level_inner ht
    have hcolon : Level [chColon] := .byte (by decide) rfl rfl
    refine ⟨lead ++ (key.quoted ++ (w1 ++ ([chColon] ++ (w2 ++ (tv ++ (w3 ++ inner)))))), by simp, ?_⟩
    exact (Level.lead hlead).append ((Level.quoted hkey).append ((Level.spaces hw1).append (hcolon.append
      ((Level.spaces hw2).append ((v.level hv).append ((Level.spaces hw3).append hinner))))))

theorem Elements.level_inner : ∀ (es : Elements) {first : Bool} {text : Bytes}, es.Writes first text →
    ∃ inner, text = inner ++ [chRBracket] ∧ Level inner
  | .nil, _, _, h => ⟨[], by rw [show _ = [chRBracket] from h]; rfl, .nil⟩
  | .cons v es, first, _, h => by
    obtain ⟨lead, tv, w, t, rfl, hlead, hv, hw, ht⟩ := h
    obtain ⟨inner, rfl, hinner⟩ := es.level_inner ht
    refine ⟨lead ++ (tv ++ (w ++ inner)), by simp, ?_⟩
    exact (Level.lead hlead).append ((v.level hv).append ((Level.spaces hw).append hinner))

end

/-- An object or an array is closed by its own last bracket. -/
theorem Value.closes {v : Value} {text : Bytes} (h : v.Writes text) (rest : Bytes) {c : UInt8} {t : Bytes}
    (htext : text = c :: t) (hopen : isOpen c = true) : closing .outside 0 (text ++ rest) = some text.length := by
  cases v with
  | obj members =>
    obtain ⟨w, t, rfl, hw, ht⟩ := h
    obtain ⟨inner, rfl, hinner⟩ := members.level_inner ht
    rw [← List.append_assoc w]
    exact closing_container rfl rfl ((Level.spaces hw).append hinner) rest
  | arr elements =>
    obtain ⟨w, t, rfl, hw, ht⟩ := h
    obtain ⟨inner, rfl, hinner⟩ := elements.level_inner ht
    rw [← List.append_assoc w]
    exact closing_container rfl rfl ((Level.spaces hw).append hinner) rest
  | str s =>
    obtain ⟨rfl, -⟩ := h
    obtain ⟨rfl, -⟩ := List.cons.inj htext
    cases hopen
  | num token =>
    obtain ⟨rfl, ht⟩ := h
    have hdull := number_dull ht c (by rw [htext]; exact List.mem_cons_self)
    simp [isDull, hopen] at hdull
  | lit l =>
    have hdull := literal_dull l c (by rw [← show text = l.text from h, htext]; exact List.mem_cons_self)
    simp [isDull, hopen] at hdull

/-! ## Where the values of a document stand -/

/-- The byte behind a value inside another one. -/
def Separates (c : UInt8) : Prop := c = chComma ∨ c = chRBrace ∨ c = chRBracket

instance (c : UInt8) : Decidable (Separates c) :=
  inferInstanceAs (Decidable (c = chComma ∨ c = chRBrace ∨ c = chRBracket))

theorem together_of_all {text : Bytes} (h : (text.all fun c => decide (¬ Separates c)) = true) :
    ∀ c ∈ text, ¬ Separates c :=
  fun c hc => of_decide_eq_true (List.all_eq_true.mp h c hc)

theorem number_together {token : Bytes} (h : NumberToken token) : ∀ c ∈ token, ¬ Separates c :=
  h.forall (by decide) (together_of_all rfl)

theorem literal_together (l : Literal) : ∀ c ∈ l.text, ¬ Separates c := by
  cases l <;> exact together_of_all rfl

mutual

/-- In the document without spaces, a value begins at this offset. -/
inductive Value.Spot : Value → Nat → Value → Prop where
  | here (v : Value) : Value.Spot v 0 v
  | member {ms : Members} {o : Nat} {u : Value} (h : Members.Spot ms o u) : Value.Spot (.obj ms) (o + 1) u
  | element {es : Elements} {o : Nat} {u : Value} (h : Elements.Spot es o u) : Value.Spot (.arr es) (o + 1) u

inductive Members.Spot : Members → Nat → Value → Prop where
  | value {key : Str} {v : Value} {rest : Members} {o : Nat} {u : Value} (h : Value.Spot v o u) :
    Members.Spot (.cons key v rest) (key.quoted.length + 1 + o) u
  | rest {key : Str} {v : Value} {rest : Members} {o : Nat} {u : Value} (h : Members.Spot rest o u) :
    Members.Spot (.cons key v rest) (key.quoted.length + 1 + v.compact.length + 1 + o) u

inductive Elements.Spot : Elements → Nat → Value → Prop where
  | value {v : Value} {rest : Elements} {o : Nat} {u : Value} (h : Value.Spot v o u) :
    Elements.Spot (.cons v rest) o u
  | rest {v : Value} {rest : Elements} {o : Nat} {u : Value} (h : Elements.Spot rest o u) :
    Elements.Spot (.cons v rest) (v.compact.length + 1 + o) u

end

/-- At this offset of the text stands the value, which may be written so, and what is behind it does not
go on with it. -/
def Stands (text : Bytes) (o : Nat) (u : Value) (behind : Bytes) : Prop :=
  text.drop o = u.compact ++ behind ∧ o + u.compact.length + behind.length = text.length ∧ u.Writes u.compact ∧
    (behind = [] ∨ ∃ c rest, behind = c :: rest ∧ Separates c)

/-- What stands in a part stands in the whole. -/
theorem Stands.within {text behind : Bytes} {o : Nat} {u : Value} (h : Stands text o u behind) (before after : Bytes)
    (hafter : behind = [] → ∃ c rest, after = c :: rest ∧ Separates c) :
    Stands (before ++ (text ++ after)) (before.length + o) u (behind ++ after) := by
  obtain ⟨hdrop, hlen, hw, hbehind⟩ := h
  refine ⟨?_, ?_, hw, .inr ?_⟩
  · rw [← List.drop_drop, List.drop_left, List.drop_append_of_le_length (by omega), hdrop, List.append_assoc]
  · simp only [List.length_append]
    omega
  · rcases hbehind with rfl | ⟨c, rest, rfl, hc⟩
    · exact hafter rfl
    · exact ⟨c, rest ++ after, rfl, hc⟩

theorem Value.stands_here (v : Value) {text : Bytes} (h : v.Writes text) : ∃ behind, Stands v.compact 0 v behind :=
  ⟨[], by simp, by simp, v.writes_compact text h, .inl rfl⟩

theorem Members.tail_separates : ∀ ms : Members, ∃ c rest, ms.tail = c :: rest ∧ Separates c
  | .nil => ⟨chRBrace, [], rfl, .inr (.inl rfl)⟩
  | .cons _ _ _ => ⟨chComma, _, rfl, .inl rfl⟩

theorem Elements.tail_separates : ∀ es : Elements, ∃ c rest, es.tail = c :: rest ∧ Separates c
  | .nil => ⟨chRBracket, [], rfl, .inr (.inr rfl)⟩
  | .cons _ _ => ⟨chComma, _, rfl, .inl rfl⟩

mutual

/-- **Where a value begins it stands.** -/
theorem Value.spot_stands : ∀ (v : Value) {u : Value} {o : Nat} {text : Bytes}, v.Writes text →
    Value.Spot v o u → ∃ behind, Stands v.compact o u behind
  | .obj ms, u, o, text, hw, h => by
    cases h with
    | here => exact (Value.obj ms).stands_here hw
    | @member _ o _ h =>
      obtain ⟨w, t, rfl, -, ht⟩ := hw
      obtain ⟨behind, hst, hne⟩ := ms.spot_stands ht h
      have hin := hst.within [chLBrace] [] fun hnil => absurd hnil hne
      rw [List.append_nil, List.append_nil, List.length_singleton, Nat.add_comm] at hin
      exact ⟨behind, hin⟩
  | .arr es, u, o, text, hw, h => by
    cases h with
    | here => exact (Value.arr es).stands_here hw
    | @element _ o _ h =>
      obtain ⟨w, t, rfl, -, ht⟩ := hw
      obtain ⟨behind, hst, hne⟩ := es.spot_stands ht h
      have hin := hst.within [chLBracket] [] fun hnil => absurd hnil hne
      rw [List.append_nil, List.append_nil, List.length_singleton, Nat.add_comm] at hin
      exact ⟨behind, hin⟩
  | .str s, _, _, _, hw, .here _ => (Value.str s).stands_here hw
  | .num token, _, _, _, hw, .here _ => (Value.num token).stands_here hw
  | .lit l, _, _, _, hw, .here _ => (Value.lit l).stands_here hw

theorem Members.spot_stands : ∀ (ms : Members) {first : Bool} {u : Value} {o : Nat} {text : Bytes},
    ms.Writes first text → Members.Spot ms o u → ∃ behind, Stands ms.compact o u behind ∧ behind ≠ []
  | .nil, _, _, _, _, _, h => nomatch h
  | .cons key v rest, first, u, o, text, hw, h => by
    obtain ⟨lead, w1, w2, tv, w3, t, -, -, -, -, -, hv, -, ht⟩ := hw
    cases h with
    | @value _ _ _ o _ h =>
      obtain ⟨behind, hst⟩ := v.spot_stands hv h
      obtain ⟨c, r, htail, hc⟩ := rest.tail_separates
      refine ⟨behind ++ rest.tail, ?_, by simp [htail]⟩
      have hin := hst.within (key.quoted ++ [chColon]) _ fun _ => ⟨c, r, htail, hc⟩
      rw [Members.compact_cons, List.append_assoc]
      rwa [List.length_append, List.length_singleton] at hin
    | @rest _ _ _ o _ h =>
      obtain ⟨behind, hst, hne⟩ := rest.spot_stands ht h
      refine ⟨behind, ?_, hne⟩
      have htail : rest.tail = chComma :: rest.compact := by
        cases rest with
        | nil => nomatch h
        | cons => rfl
      have hin := hst.within (key.quoted ++ [chColon] ++ v.compact ++ [chComma]) []
        fun hnil => absurd hnil hne
      have hbefore : (key.quoted ++ [chColon] ++ v.compact ++ [chComma]).length =
          key.quoted.length + 1 + v.compact.length + 1 := by simp only [List.length_append, List.length_singleton]
      rw [Members.compact_cons, htail]
      rw [hbefore] at hin
      simpa using hin

theorem Elements.spot_stands : ∀ (es : Elements) {first : Bool} {u : Value} {o : Nat} {text : Bytes},
    es.Writes first text → Elements.Spot es o u → ∃ behind, Stands es.compact o u behind ∧ behind ≠ []
  | .nil, _, _, _, _, _, h => nomatch h
  | .cons v rest, first, u, o, text, hw, h => by
    obtain ⟨lead, tv, w, t, -, -, hv, -, ht⟩ := hw
    cases h with
    | @value _ _ o _ h =>
      obtain ⟨behind, hst⟩ := v.spot_stands hv h
      obtain ⟨c, r, htail, hc⟩ := rest.tail_separates
      refine ⟨behind ++ rest.tail, ?_, by simp [htail]⟩
      have hin := hst.within [] _ fun _ => ⟨c, r, htail, hc⟩
      rw [Elements.compact_cons]
      simpa using hin
    | @rest _ _ o _ h =>
      obtain ⟨behind, hst, hne⟩ := rest.spot_stands ht h
      refine ⟨behind, ?_, hne⟩
      have htail : rest.tail = chComma :: rest.compact := by
        cases rest with
        | nil => nomatch h
        | cons => rfl
      have hin := hst.within (v.compact ++ [chComma]) [] fun hnil => absurd hnil hne
      rw [Elements.compact_cons, htail]
      simpa using hin

end

end Lql.Json
