import Lql.Mutation.Cut

/-!
# Expressions in one text

Expressions that are joined by commas and line ends are parsed as in an array just where every comma stands in front
of a start that the scanner knows, and no line end stands behind an empty value.
-/

namespace Lql.Mutation

open Lib (run_bind_ok run_lift_ok)
open Selector (ascii)

/-! ## Scanning plain texts -/

/-- A byte that is no separator and opens or closes nothing. -/
def PlainByte (c : UInt8) : Prop :=
  c ≠ 0 ∧ c ≠ chComma ∧ c ≠ chLF ∧ c ≠ chQuote ∧ c ≠ 0x27 ∧ c ≠ chLBrace ∧ c ≠ chRBrace ∧ c ≠ chLBracket ∧
    c ≠ chRBracket

/-- A text without separators, quotes, braces and brackets. -/
def Plain (text : Bytes) : Prop := ∀ c ∈ text, PlainByte c

/-- A scanner that is in no quotes, braces and brackets. -/
def ScanState.Calm (s : ScanState) : Prop := s.quote = none ∧ s.braceDepth = 0 ∧ s.bracketDepth = 0

/-- What a plain byte does to a calm scanner. -/
def glide (s : ScanState) (c : UInt8) : ScanState :=
  if !s.inValue && c = 0x3d then { s with inValue := true, valueStarted := false }
  else if s.inValue && !s.valueStarted && mutationSpace c then s
  else if s.inValue then { s with valueStarted := true }
  else s

theorem step_plain {s : ScanState} (hs : s.Calm) {c : UInt8} (hc : PlainByte c) (rest : Bytes) :
    s.step c rest = some (glide s c) := by
  obtain ⟨hq, hb, hk⟩ := hs
  obtain ⟨-, hcomma, hlf, hquote, hquote', hlb, hrb, hlk, hrk⟩ := hc
  simp only [ScanState.step, glide, hq, hb, hk, hcomma, hlf, hquote, hquote', hlb, hrb, hlk, hrk]
  simp only [Option.isSome_none, Bool.false_eq_true, if_false, ne_eq, not_true_eq_false, decide_false, Bool.or_self,
    Bool.and_false, Bool.false_and]
  split
  · rfl
  · split
    · rfl
    · split <;> rfl

theorem glide_calm {s : ScanState} (hs : s.Calm) (c : UInt8) : (glide s c).Calm := by
  rw [glide]
  split
  · exact hs
  · split
    · exact hs
    · split <;> exact hs

theorem foldl_glide_calm {s : ScanState} (hs : s.Calm) (text : Bytes) : (text.foldl glide s).Calm := by
  induction text generalizing s with
  | nil => exact hs
  | cons c text ih => exact ih (glide_calm hs c)

theorem cut_plain {s : ScanState} (hs : s.Calm) {text : Bytes} (h : Plain text) (tail : Bytes) :
    cutParts s (text ++ tail) = text.foldr pushByte (cutParts (text.foldl glide s) tail) := by
  induction text generalizing s with
  | nil => rfl
  | cons c text ih =>
    rw [List.cons_append, cutParts_cons (by rw [hs.1]; rfl), step_plain hs (h c (List.mem_cons_self ..)),
      List.foldr_cons]
    exact congrArg (pushByte c) (ih (glide_calm hs c) fun c' hc' => h c' (List.mem_cons_of_mem _ hc'))

theorem cut_plain_length {s : ScanState} (hs : s.Calm) {text : Bytes} (h : Plain text) (tail : Bytes) :
    (cutParts s (text ++ tail)).1.length = (cutParts (text.foldl glide s) tail).1.length := by
  rw [cut_plain hs h]
  rcases hcut : cutParts (text.foldl glide s) tail with ⟨_ | ⟨part, parts⟩, last⟩
  · exact absurd (congrArg Prod.fst hcut) (cutParts_ne_nil _ _)
  · rw [foldr_pushByte]
    rfl

/-- The value of a text is empty: nothing but blanks stands behind its first `=`. -/
def valueless (text : Bytes) : Bool := (splitEqual text).any fun x => x.2.all mutationSpace

theorem foldl_glide_value (started : Bool) (text : Bytes) (s : ScanState) (hv : s.inValue = true)
    (hs : s.valueStarted = started) : (text.foldl glide s).inValue = true ∧
      (text.foldl glide s).valueStarted = (started || !text.all mutationSpace) := by
  induction text generalizing s started with
  | nil => exact ⟨hv, by rw [List.foldl_nil, hs, List.all_nil, Bool.not_true, Bool.or_false]⟩
  | cons c text ih =>
    rw [List.foldl_cons, List.all_cons]
    cases started with
    | true =>
      have hg : glide s c = { s with valueStarted := true } := by
        simp only [glide, hv, hs, Bool.not_true, Bool.false_and, Bool.and_false, Bool.false_eq_true, if_false, if_true]
      rw [hg]
      exact ih true _ hv rfl
    | false =>
      cases hc : mutationSpace c with
      | true =>
        have hg : glide s c = s := by
          simp only [glide, hv, hs, hc, Bool.not_true, Bool.not_false, Bool.false_and, Bool.and_true,
            Bool.false_eq_true, if_false, if_true]
        rw [hg, Bool.true_and]
        exact ih false s hv hs
      | false =>
        have hg : glide s c = { s with valueStarted := true } := by
          simp only [glide, hv, hs, hc, Bool.not_true, Bool.not_false, Bool.false_and, Bool.and_true,
            Bool.and_false, Bool.false_eq_true, if_false, if_true]
        rw [hg]
        exact ih true _ hv rfl

/-- The scanner waits for a value behind a text just where the value of the text is empty. -/
theorem foldl_glide_waits (text : Bytes) :
    ((text.foldl glide {}).inValue && !(text.foldl glide {}).valueStarted) = valueless text := by
  induction text with
  | nil => rfl
  | cons c text ih =>
    rw [List.foldl_cons, valueless, splitEqual]
    split
    · next hc =>
      have hg : glide {} c = { inValue := true } := by rw [hc]; rfl
      obtain ⟨h1, h2⟩ := foldl_glide_value false text { inValue := true } rfl rfl
      rw [hg, h1, h2, Bool.true_and, Bool.false_or, Bool.not_not]
      rfl
    · next hc =>
      have hg : glide {} c = {} := by
        simp only [glide, hc, decide_false, Bool.and_false, Bool.false_and, Bool.false_eq_true, if_false]
      rw [hg, ih, valueless]
      cases splitEqual text <;> rfl

/-! ## Joined texts -/

/-- Texts with a separator in front of each but the first. -/
def joined (text : Bytes) : List (UInt8 × Bytes) → Bytes
  | [] => text
  | (c, next) :: rest => text ++ c :: joined next rest

/-- Every comma stands in front of a start that the scanner knows, and every line end behind a text without an empty
value. -/
def Cuts : Bytes → List (UInt8 × Bytes) → Prop
  | _, [] => True
  | text, (c, next) :: rest =>
    (if c = chComma then commaStartsExpression next = true else valueless text = false) ∧ Cuts next rest

/-- The starts of expressions, those first that the scanner knows behind a comma. -/
def knownStarts : List String := ["/", "rm:", "del:", "delete:", "time:"]

def otherStarts : List String := ["remove:", "file:", "textfile:", "base64file:"]

/-- A text starts with a word, blanks aside. -/
def Starts (word : String) (text : Bytes) : Prop :=
  ∃ blanks rest, text = blanks ++ (ascii word ++ rest) ∧ blanks.all mutationSpace = true

/-- A text starts as an expression does. -/
def HasStart (text : Bytes) : Prop := ∃ word ∈ knownStarts ++ otherStarts, Starts word text

theorem exists_word {word : String} (h : word ∈ knownStarts ++ otherStarts) :
    ∃ c more, ascii word = c :: more ∧ mutationSpace c = false := by
  simp only [knownStarts, otherStarts, List.cons_append, List.nil_append, List.mem_cons, List.not_mem_nil,
    or_false] at h
  rcases h with rfl | rfl | rfl | rfl | rfl | rfl | rfl | rfl | rfl <;> exact ⟨_, _, rfl, rfl⟩

theorem commaStarts_word {word : String} (h : word ∈ knownStarts ++ otherStarts) {text : Bytes}
    (ht : Starts word text) : commaStartsExpression text = knownStarts.contains word := by
  obtain ⟨blanks, rest, rfl, hblanks⟩ := ht
  have hdrop : (blanks ++ (ascii word ++ rest)).dropWhile mutationSpace = ascii word ++ rest := by
    obtain ⟨c, more, hw, hc⟩ := exists_word h
    rw [hw]
    exact dropWhile_start hblanks hc
  rw [commaStartsExpression, hdrop]
  simp only [knownStarts, otherStarts, List.cons_append, List.nil_append, List.mem_cons, List.not_mem_nil,
    or_false] at h
  rcases h with rfl | rfl | rfl | rfl | rfl | rfl | rfl | rfl | rfl <;> rfl

theorem starts_rtrim {word : String} (h : word ∈ knownStarts ++ otherStarts) {text : Bytes} (ht : Starts word text) :
    Starts word (rtrim text) := by
  obtain ⟨blanks, rest, rfl, hblanks⟩ := ht
  obtain ⟨c, more, hw, hc⟩ := exists_word h
  have hlast : ∃ front b, ascii word = front ++ [b] ∧ mutationSpace b = false := by
    simp only [knownStarts, otherStarts, List.cons_append, List.nil_append, List.mem_cons, List.not_mem_nil,
      or_false] at h
    rcases h with rfl | rfl | rfl | rfl | rfl | rfl | rfl | rfl | rfl
    · exact ⟨[], _, rfl, rfl⟩
    · exact ⟨ascii "rm", _, rfl, rfl⟩
    · exact ⟨ascii "del", _, rfl, rfl⟩
    · exact ⟨ascii "delete", _, rfl, rfl⟩
    · exact ⟨ascii "time", _, rfl, rfl⟩
    · exact ⟨ascii "remove", _, rfl, rfl⟩
    · exact ⟨ascii "file", _, rfl, rfl⟩
    · exact ⟨ascii "textfile", _, rfl, rfl⟩
    · exact ⟨ascii "base64file", _, rfl, rfl⟩
  obtain ⟨front, b, hfront, hb⟩ := hlast
  refine ⟨blanks, rtrim rest, ?_, hblanks⟩
  rw [hfront, List.append_assoc, List.singleton_append, ← List.append_assoc, rtrim_append _ _ _ hb,
    List.append_assoc, List.append_assoc, List.singleton_append]

theorem starts_joined {word : String} {text : Bytes} (h : Starts word text) (rest : List (UInt8 × Bytes)) :
    Starts word (joined text rest) := by
  obtain ⟨blanks, more, rfl, hblanks⟩ := h
  cases rest with
  | nil => exact ⟨blanks, more, rfl, hblanks⟩
  | cons x rest =>
    refine ⟨blanks, more ++ x.1 :: joined x.2 rest, ?_, hblanks⟩
    rw [joined, List.append_assoc, List.append_assoc]

theorem rtrim_starts {word : String} (h : word ∈ knownStarts ++ otherStarts) {text : Bytes} (ht : Starts word text)
    (front : Bytes) : rtrim (front ++ text) = front ++ rtrim text := by
  obtain ⟨blanks, rest, rfl, hblanks⟩ := ht
  obtain ⟨c, more, hw, hc⟩ := exists_word h
  rw [hw, List.cons_append, ← List.append_assoc, rtrim_append _ _ _ hc, rtrim_append _ _ _ hc, List.append_assoc]

theorem step_comma {s : ScanState} (hs : s.Calm) (rest : Bytes) :
    if commaStartsExpression rest then s.step chComma rest = none else ∃ s', s.step chComma rest = some s' ∧ s'.Calm := by
  have hstep : s.step chComma rest = if commaStartsExpression rest then none
      else if s.inValue then some { s with valueStarted := true } else some s := by
    obtain ⟨quote, strict, inValue, started, brace, bracket⟩ := s
    obtain ⟨rfl, rfl, rfl⟩ := hs
    cases inValue <;> cases started <;> rfl
  rw [hstep]
  split
  · rfl
  · split <;> exact ⟨_, rfl, hs⟩

theorem step_lf {s : ScanState} (hs : s.Calm) (rest : Bytes) :
    s.step chLF rest = if s.inValue && !s.valueStarted then some s else none := by
  obtain ⟨quote, strict, inValue, started, brace, bracket⟩ := s
  obtain ⟨rfl, rfl, rfl⟩ := hs
  cases inValue <;> cases started <;> rfl

/-- **Where a joined text is cut**: at all its separators, or at fewer. -/
theorem cut_joined (rest : List (UInt8 × Bytes)) (hrest : ∀ x ∈ rest, (x.1 = chComma ∨ x.1 = chLF) ∧ Plain x.2 ∧
    HasStart x.2) : ∀ (text : Bytes), Plain text → ∀ s : ScanState, s.Calm →
      (cutParts s (rtrim (joined text rest))).1.length ≤ rest.length + 1 ∧
      (s = {} → ¬ Cuts text rest → (cutParts s (rtrim (joined text rest))).1.length ≤ rest.length) ∧
      (s = {} → Cuts text rest → (cutParts s (rtrim (joined text rest))).2.Calm ∧
        (cutParts s (rtrim (joined text rest))).1.map trim = (text :: rest.map Prod.snd).map trim) := by
  induction rest with
  | nil =>
    intro text htext s hs
    have hplain : Plain (rtrim text) := fun c hc => htext c (by
      rw [rtrim, List.mem_reverse] at hc
      exact List.mem_reverse.mp ((List.dropWhile_suffix _).subset hc))
    have hcut := cut_plain hs hplain []
    rw [List.append_nil, cutParts, foldr_pushByte, List.append_nil] at hcut
    rw [joined, hcut]
    refine ⟨Nat.le_refl 1, fun _ h => absurd trivial h, fun _ _ => ⟨foldl_glide_calm hs _, ?_⟩⟩
    rw [List.map_nil, List.map_singleton, List.map_singleton, trim_rtrim]
  | cons x rest ih =>
    obtain ⟨c, next⟩ := x
    intro text htext s hs
    obtain ⟨hc, hnext, word, hword, hstarts⟩ := hrest _ (List.mem_cons_self ..)
    have ih := ih (fun y hy => hrest y (List.mem_cons_of_mem _ hy)) next hnext
    have hjoined := starts_joined hstarts rest
    have htrim : rtrim (joined text ((c, next) :: rest)) = text ++ c :: rtrim (joined next rest) := by
      rw [joined, ← List.singleton_append, ← List.append_assoc, rtrim_starts hword hjoined, List.append_assoc]
      rfl
    have hs1 := foldl_glide_calm hs text
    rw [htrim, cut_plain_length hs htext, cut_plain hs htext, cutParts_cons (by rw [hs1.1]; rfl)]
    have hcomma : commaStartsExpression (rtrim (joined next rest)) = commaStartsExpression next := by
      rw [commaStarts_word hword (starts_rtrim hword hjoined), commaStarts_word hword hstarts]
    -- the separator cuts, or the scanner goes on behind it
    have hstep : ((text.foldl glide s).step c (rtrim (joined next rest)) = none ∧ (s = {} → (Cuts text ((c, next) :: rest) ↔
          Cuts next rest))) ∨
        ∃ s', (text.foldl glide s).step c (rtrim (joined next rest)) = some s' ∧ s'.Calm ∧
          (s = {} → ¬ Cuts text ((c, next) :: rest)) := by
      rcases hc with rfl | rfl
      · have hstep := step_comma hs1 (rtrim (joined next rest))
        rw [hcomma] at hstep
        split at hstep
        · next hcut => exact .inl ⟨hstep, fun _ => ⟨fun h => h.2, fun h => ⟨hcut, h⟩⟩⟩
        · next hcut =>
          obtain ⟨s', hs', hcalm⟩ := hstep
          exact .inr ⟨s', hs', hcalm, fun _ h => hcut h.1⟩
      · have hstep := step_lf hs1 (rtrim (joined next rest))
        split at hstep
        · next hwaits =>
          refine .inr ⟨_, hstep, hs1, fun h hcuts => ?_⟩
          subst h
          rw [foldl_glide_waits] at hwaits
          exact Bool.false_ne_true (hcuts.1.symm.trans hwaits)
        · next hwaits =>
          refine .inl ⟨hstep, fun h => ⟨fun hcuts => hcuts.2, fun hcuts => ⟨?_, hcuts⟩⟩⟩
          subst h
          rw [foldl_glide_waits] at hwaits
          exact eq_false_of_ne_true hwaits
    rcases hstep with ⟨hstep, hcuts⟩ | ⟨s', hstep, hcalm, hcuts⟩
    · obtain ⟨h1, h2, h3⟩ := ih {} ⟨rfl, rfl, rfl⟩
      rw [hstep, foldr_pushByte]
      refine ⟨Nat.succ_le_succ h1, fun h hno => Nat.succ_le_succ (h2 rfl ((not_congr (hcuts h)).mp hno)), fun h hyes => ?_⟩
      obtain ⟨h4, h5⟩ := h3 rfl ((hcuts h).mp hyes)
      exact ⟨h4, by rw [List.append_nil, List.map_cons, h5]; rfl⟩
    · obtain ⟨h1, -, -⟩ := ih s' hcalm
      rw [hstep, pushByte_length]
      exact ⟨Nat.le_succ_of_le h1, fun _ _ => h1, fun h hyes => absurd hyes (hcuts h)⟩

/-! ## Accepted expressions -/

section

variable {δ : Type} [Doubles δ]

/-- The clock after some readings. -/
def later (clock : Clock) (k : Nat) : Clock := fun n => clock (n + k)

/-- A program does nothing to the clock but to read it. -/
def Ticks {α : Type} (x : Parse α) : Prop :=
  ∀ (clock : Clock) (a : α) (clock' : Clock), x clock = .ok (a, clock') → ∃ k, clock' = later clock k

theorem ticks_pure {α : Type} (a : α) : Ticks (pure a : Parse α) := by
  intro clock b clock' h
  cases h
  exact ⟨0, rfl⟩

theorem ticks_lift {α : Type} (x : Except Err α) : Ticks (StateT.lift x : Parse α) := by
  intro clock a clock' h
  exact ⟨0, (run_lift_ok.mp h).2⟩

theorem ticks_bind {α β : Type} {x : Parse α} {f : α → Parse β} (hx : Ticks x) (hf : ∀ a, Ticks (f a)) :
    Ticks (x >>= f) := by
  intro clock b clock' h
  obtain ⟨a, clock1, h1, h2⟩ := run_bind_ok.mp h
  obtain ⟨k, rfl⟩ := hx _ _ _ h1
  obtain ⟨k', rfl⟩ := hf a _ _ _ h2
  exact ⟨k' + k, by funext n; rw [later, later, later, Nat.add_assoc]⟩

theorem ticks_ite {α : Type} {p : Prop} [Decidable p] {x y : Parse α} (hx : Ticks x) (hy : Ticks y) :
    Ticks (if p then x else y) := by
  split
  · exact hx
  · exact hy

theorem ticks_readClock : Ticks readClock := by
  intro clock a clock' h
  cases h
  exact ⟨1, rfl⟩

theorem ticks_timeOf (env : Env) (value : Bytes) : Ticks (timeOf env value) := by
  refine ticks_ite (ticks_bind ticks_readClock fun now => ?_) ?_
  · dsimp only
    split
    · exact ticks_pure _
    · exact ticks_lift _
  · split
    · exact ticks_pure _
    · exact ticks_lift _

theorem ticks_timeValue (env : Env) (text : Bytes) : Ticks (parseTimeValue env text) := by
  refine ticks_ite (ticks_lift _) (ticks_bind (ticks_timeOf env _) fun t => ?_)
  split
  · exact ticks_pure _
  · exact ticks_lift _

theorem ticks_timeSet (env : Env) (text : Bytes) : Ticks (parseTimeSet (δ := δ) env text) := by
  refine ticks_ite (ticks_lift _) (ticks_ite (ticks_lift _) ?_)
  split
  · exact ticks_lift _
  · exact ticks_bind (ticks_lift _) fun _ => ticks_bind (ticks_timeValue env _) fun _ => ticks_pure _

theorem ticks_parseOne (env : Env) (raw : Bytes) : Ticks (parseOne (δ := δ) env raw) := by
  rw [parseOne]
  dsimp only
  iterate 4 refine ticks_ite (ticks_lift _) ?_
  refine ticks_ite (ticks_timeSet env _) ?_
  iterate 6 refine ticks_ite (ticks_lift _) ?_
  split <;> exact ticks_lift _

/-! ### How an accepted expression starts -/

theorem starts_of_trim {word : String} {text : Bytes} (ht : Starts word (trim text)) : Starts word text := by
  obtain ⟨blanks, rest, heq, hblanks⟩ := ht
  obtain ⟨back, hback, -⟩ := exists_rtrim (text.dropWhile mutationSpace)
  rw [← trim_eq, heq] at hback
  refine ⟨text.takeWhile mutationSpace ++ blanks, rest ++ back, ?_, ?_⟩
  · calc text = text.takeWhile mutationSpace ++ text.dropWhile mutationSpace := List.takeWhile_append_dropWhile.symm
      _ = _ := by rw [hback]; simp only [List.append_assoc]
  · rw [List.all_append, hblanks, Bool.and_true]
    exact List.all_takeWhile

theorem hasPrefix_starts {text : Bytes} {word : String} (h : hasPrefix text word = true) : Starts word text := by
  obtain ⟨rest, rfl⟩ := List.isPrefixOf_iff_prefix.mp h
  exact ⟨[], rest, rfl, rfl⟩

theorem parsePath_start {text : Bytes} {segments : List Bytes} (h : parsePath text = .ok segments) :
    ∃ rest, trim text = chSlash :: rest := by
  rw [parsePath] at h
  split at h
  · cases h
  · next c rest heq =>
    split at h
    · cases h
    · next hc => exact ⟨rest, by rw [heq, Decidable.not_not.mp hc]⟩

/-- A path at the front of a trimmed text starts with the text. -/
theorem starts_of_path {raw front back : Bytes} {segments : List Bytes} (htext : trim raw = front ++ back)
    (h : parsePath front = .ok segments) : Starts "/" (trim raw) := by
  obtain ⟨rest, hrest⟩ := parsePath_start h
  have hblank : front.all mutationSpace = false := by
    cases hb : front.all mutationSpace with
    | true => rw [trim_blank hb] at hrest; cases hrest
    | false => rfl
  obtain ⟨blanks, c, more, rfl, hblanks, hc⟩ := exists_start hblank
  rw [trim_start hblanks hc] at hrest
  cases hrest
  exact ⟨blanks, more ++ back, by rw [htext, List.append_assoc]; rfl, hblanks⟩

theorem map_ok {α β : Type} {x : Except Err α} {f : α → β} {b : β} (h : x.map f = .ok b) : ∃ a, x = .ok a := by
  cases x with
  | error e => cases h
  | ok a => exact ⟨a, rfl⟩

theorem parseAssignment_path {path value : Bytes} {action : Action δ} (h : parseAssignment path value = .ok action) :
    ∃ segments, parsePath path = .ok segments := by
  cases hp : parsePath path with
  | error e => rw [parseAssignment, hp] at h; cases h
  | ok segments => exact ⟨segments, rfl⟩

theorem ite_ok {α : Type} {p : Prop} [Decidable p] {x y : Parse α} {clock : Clock} {r : α × Clock}
    (h : (if p then x else y) clock = .ok r) : (p ∧ x clock = .ok r) ∨ y clock = .ok r := by
  split at h
  · next hp => exact .inl ⟨hp, h⟩
  · exact .inr h

theorem parseOne_start {env : Env} {raw : Bytes} {clock : Clock} {r : Action δ × Clock}
    (h : parseOne env raw clock = .ok r) : HasStart (trim raw) := by
  have hword : ∀ word ∈ knownStarts ++ otherStarts, hasPrefix (trim raw) word = true → HasStart (trim raw) :=
    fun word hmem hp => ⟨word, hmem, hasPrefix_starts hp⟩
  have hslash : ∀ {front back : Bytes} {segments : List Bytes}, trim raw = front ++ back →
      parsePath front = .ok segments → HasStart (trim raw) :=
    fun htext hp => ⟨"/", by decide, starts_of_path htext hp⟩
  have hincrement : ∀ (delta : δ), (StateT.lift ((parsePath ((trim raw).take ((trim raw).length - 2))).map fun segments =>
      { blankAction δ .increment segments with delta := delta }) : Parse (Action δ)) clock = .ok r →
      HasStart (trim raw) := by
    intro delta h
    obtain ⟨segments, hp⟩ := map_ok (run_lift_ok.mp h).1
    exact hslash (List.take_append_drop _ _).symm hp
  rw [parseOne] at h
  dsimp only at h
  rcases ite_ok h with ⟨-, h⟩ | h
  · exact absurd h fail_ok
  iterate 8
    rcases ite_ok h with ⟨hp, -⟩ | h
    · exact hword _ (by decide) hp
  iterate 2
    rcases ite_ok h with ⟨-, h⟩ | h
    · exact hincrement _ h
  cases heq : splitEqual (trim raw) with
  | none =>
    rw [heq] at h
    exact absurd h fail_ok
  | some x =>
    rw [heq] at h
    obtain ⟨segments, hp⟩ := parseAssignment_path (run_lift_ok.mp h).1
    exact hslash (splitEqual_eq heq) hp

/-! ### Parsing plain and joined texts -/

theorem endCheck_calm {s : ScanState} (h : s.Calm) : endCheck s = pure () := by
  rw [endCheck, h.1, h.2.1]
  rfl

theorem parseList_plain (env : Env) {text : Bytes} (h : Plain text) :
    parseExpressionList (δ := δ) env text = parseTrimmed (parseExpression env) text := by
  have hcut := cut_plain (s := {}) ⟨rfl, rfl, rfl⟩ (fun c hc => h c (trim_subset text hc)) []
  rw [List.append_nil, cutParts, foldr_pushByte, List.append_nil] at hcut
  rw [parseExpressionList, cstr_eq fun c hc => (h c hc).1, hcut]
  dsimp only
  rw [parseParts, endCheck_calm (foldl_glide_calm ⟨rfl, rfl, rfl⟩ _), pure_bind, parseTrimmed_trim]

theorem parseLists_plain (env : Env) {texts : List Bytes} (h : ∀ text ∈ texts, Plain text) :
    parseLists (δ := δ) env texts = parseParts (parseTrimmed (parseExpression env)) (pure ()) texts := by
  induction texts with
  | nil => rfl
  | cons text texts ih =>
    rw [parseLists, parseParts_cons, parseList_plain env (h text (List.mem_cons_self ..)),
      ih fun t ht => h t (List.mem_cons_of_mem _ ht)]

theorem foldl_glide_blank {blanks : Bytes} (h : blanks.all mutationSpace = true) : blanks.foldl glide {} = {} := by
  induction blanks with
  | nil => rfl
  | cons c blanks ih =>
    rw [List.all_cons, Bool.and_eq_true] at h
    have hc : c ≠ 0x3d := by
      rintro rfl
      cases h.1
    have hg : glide {} c = {} := by
      simp only [glide, hc, decide_false, Bool.and_false, Bool.false_and, Bool.false_eq_true, if_false]
    rw [List.foldl_cons, hg, ih h.2]

/-- The parts of a joined text, blanks aside. -/
theorem cut_trim {text : Bytes} (htext : Plain text) (hstart : HasStart text) (rest : List (UInt8 × Bytes)) :
    (cutParts {} (rtrim (joined text rest))).1.map trim = (cutParts {} (trim (joined text rest))).1.map trim ∧
      (cutParts {} (rtrim (joined text rest))).1.length = (cutParts {} (trim (joined text rest))).1.length ∧
      (cutParts {} (rtrim (joined text rest))).2 = (cutParts {} (trim (joined text rest))).2 := by
  obtain ⟨word, hword, blanks, more, rfl, hblanks⟩ := hstart
  have hself : Starts word (ascii word ++ more) := ⟨[], more, rfl, rfl⟩
  have hstarts := starts_joined hself rest
  have hjoined : joined (blanks ++ (ascii word ++ more)) rest = blanks ++ joined (ascii word ++ more) rest := by
    cases rest <;> simp only [joined, List.append_assoc]
  have htrim : trim (blanks ++ joined (ascii word ++ more) rest) = rtrim (joined (ascii word ++ more) rest) := by
    obtain ⟨c, tail, hc, hspace⟩ := exists_word hword
    have hhead : ∃ tail', joined (ascii word ++ more) rest = c :: tail' := by
      rw [hc]
      cases rest <;> exact ⟨_, rfl⟩
    obtain ⟨tail', htail⟩ := hhead
    rw [htail, trim_start hblanks hspace]
    exact (rtrim_append [] c tail' hspace).symm
  rw [hjoined, htrim, rtrim_starts hword hstarts, cut_plain (s := {}) ⟨rfl, rfl, rfl⟩
    (fun c hc => htext c (List.mem_append_left _ hc)), foldl_glide_blank hblanks]
  rcases hcut : cutParts {} (rtrim (joined (ascii word ++ more) rest)) with ⟨_ | ⟨part, parts⟩, last⟩
  · exact absurd (congrArg Prod.fst hcut) (cutParts_ne_nil _ _)
  · rw [foldr_pushByte]
    exact ⟨by rw [List.map_cons, List.map_cons, trim_append_left _ hblanks], rfl, rfl⟩

/-! ### Counting actions -/

theorem parseTrimmed_one (env : Env) {text : Bytes} (h : chRBrace ∉ text) (hne : trim text ≠ []) :
    parseTrimmed (parseExpression (δ := δ) env) text = (do
      let action ← parseOne env (trim text)
      pure [action]) := by
  rw [parseTrimmed, if_neg hne, parseExpression_eq, trim_trim, findBrace_none fun hc => h (trim_subset text hc)]

theorem parseTrimmed_length {env : Env} {text : Bytes} (h : chRBrace ∉ text) {clock clock' : Clock}
    {actions : List (Action δ)} (hparse : parseTrimmed (parseExpression env) text clock = .ok (actions, clock')) :
    actions.length ≤ 1 := by
  by_cases hne : trim text = []
  · rw [parseTrimmed, if_pos hne] at hparse
    cases hparse
    exact Nat.zero_le 1
  · rw [parseTrimmed_one env h hne] at hparse
    obtain ⟨action, clock1, -, hpure⟩ := run_bind_ok.mp hparse
    cases hpure
    exact Nat.le_refl 1

/-- Parts without braces have one action each at most. -/
theorem parseParts_length {env : Env} {check : Parse Unit} {parts : List Bytes} (h : ∀ part ∈ parts, chRBrace ∉ part)
    {clock clock' : Clock} {actions : List (Action δ)}
    (hparse : parseParts (parseTrimmed (parseExpression env)) check parts clock = .ok (actions, clock')) :
    actions.length ≤ parts.length := by
  induction parts generalizing clock actions with
  | nil =>
    cases hparse
    exact Nat.le_refl 0
  | cons part rest ih =>
    cases rest with
    | nil =>
      obtain ⟨-, clock1, -, hlast⟩ := run_bind_ok.mp hparse
      exact parseTrimmed_length (h part (List.mem_cons_self ..)) hlast
    | cons next rest =>
      obtain ⟨actions1, clock1, hfirst, hparse⟩ := run_bind_ok.mp hparse
      obtain ⟨others, clock2, hrest, hpure⟩ := run_bind_ok.mp hparse
      cases hpure
      have h1 := parseTrimmed_length (h part (List.mem_cons_self ..)) hfirst
      have h2 := ih (fun p hp => h p (List.mem_cons_of_mem _ hp)) hrest
      rw [List.length_append, List.length_cons (a := part)]
      omega

theorem mem_joined {text : Bytes} {rest : List (UInt8 × Bytes)} (htext : Plain text)
    (hrest : ∀ x ∈ rest, (x.1 = chComma ∨ x.1 = chLF) ∧ Plain x.2) :
    ∀ c ∈ joined text rest, c ≠ 0 ∧ c ≠ chRBrace := by
  have hplain : ∀ {t : Bytes}, Plain t → ∀ c ∈ t, c ≠ 0 ∧ c ≠ chRBrace := fun ht c hc =>
    ⟨(ht c hc).1, (ht c hc).2.2.2.2.2.2.1⟩
  induction rest generalizing text with
  | nil => exact hplain htext
  | cons x rest ih =>
    intro c hc
    obtain ⟨hsep, hnext⟩ := hrest x (List.mem_cons_self ..)
    rcases List.mem_append.mp hc with hc | hc
    · exact hplain htext c hc
    · rcases List.mem_cons.mp hc with rfl | hc
      · rcases hsep with h | h <;> rw [h] <;> exact ⟨by decide, by decide⟩
      · exact ih hnext (fun y hy => hrest y (List.mem_cons_of_mem _ hy)) c hc

/-! ## Joined texts and arrays -/

/-- A text is accepted on its own, with the clock where it is. -/
def Accepted (δ : Type) [Doubles δ] (env : Env) (text : Bytes) (clock : Clock) : Prop :=
  ∃ r, parseInternal (δ := δ) env [some text] clock = .ok r

/-- An accepted plain text is one action, and starts as one. -/
theorem accepted_plain {env : Env} {text : Bytes} (h : Plain text) {clock : Clock} (hacc : Accepted δ env text clock) :
    HasStart text ∧ ∃ action k, parseTrimmed (parseExpression (δ := δ) env) text clock = .ok ([action], later clock k) := by
  obtain ⟨r, hr⟩ := hacc
  have htexts := parseInternal_texts (δ := δ) env (List.cons_ne_nil text [])
  rw [List.map_singleton] at htexts
  rw [htexts, parseLists_single, parseList_plain env h] at hr
  obtain ⟨actions, clock', hactions, hr⟩ := run_bind_ok.mp hr
  have hbrace : chRBrace ∉ text := fun hc => (h _ hc).2.2.2.2.2.2.1 rfl
  by_cases hne : trim text = []
  · rw [parseTrimmed, if_pos hne] at hactions
    cases hactions
    exact absurd hr fail_ok
  · rw [parseTrimmed_one env hbrace hne] at hactions ⊢
    have hticks : Ticks (parseOne (δ := δ) env (trim text) >>= fun action => pure [action]) :=
      ticks_bind (ticks_parseOne env _) fun _ => ticks_pure _
    obtain ⟨k, rfl⟩ := hticks _ _ _ hactions
    obtain ⟨action, clock1, hone, hpure⟩ := run_bind_ok.mp hactions
    have hstart := parseOne_start hone
    rw [trim_trim] at hstart
    obtain ⟨word, hword, hstarts⟩ := hstart
    cases hpure
    exact ⟨⟨word, hword, starts_of_trim hstarts⟩, action, k, hactions⟩

/-- An array of accepted plain texts has as many actions as texts. -/
theorem parseLists_accepted {env : Env} {texts : List Bytes} (h : ∀ text ∈ texts, Plain text) (clock : Clock)
    (hacc : ∀ text ∈ texts, ∀ k, Accepted δ env text (later clock k)) (k : Nat) :
    ∃ actions clock', parseLists (δ := δ) env texts (later clock k) = .ok (actions, clock') ∧
      actions.length = texts.length := by
  rw [parseLists_plain env h]
  induction texts generalizing k with
  | nil => exact ⟨[], _, rfl, rfl⟩
  | cons text texts ih =>
    have hmem := List.mem_cons_self (a := text) (l := texts)
    obtain ⟨-, action, k', hfirst⟩ := accepted_plain (h text hmem) (hacc text hmem k)
    have hlater : later (later clock k) k' = later clock (k' + k) := by
      funext n
      rw [later, later, later, Nat.add_assoc]
    rw [hlater] at hfirst
    obtain ⟨others, clock', hrest, hlen⟩ := ih (fun t ht => h t (List.mem_cons_of_mem _ ht))
      (fun t ht => hacc t (List.mem_cons_of_mem _ ht)) (k' + k)
    refine ⟨action :: others, clock', ?_, by rw [List.length_cons, List.length_cons, hlen]⟩
    rw [parseParts_cons]
    exact run_bind_ok.mpr ⟨_, _, hfirst, run_bind_ok.mpr ⟨_, _, hrest, rfl⟩⟩

/-- **A joined text is an array** just where its separators cut. Each of the texts is accepted on its own, and each is
plain; they are joined by commas and line ends. -/
theorem joined_as_array (δ : Type) [Doubles δ] (env : Env) (text : Bytes) (rest : List (UInt8 × Bytes))
    (hsep : ∀ x ∈ rest, x.1 = chComma ∨ x.1 = chLF) (hplain : ∀ t ∈ text :: rest.map Prod.snd, Plain t) (clock : Clock)
    (hacc : ∀ t ∈ text :: rest.map Prod.snd, ∀ k, Accepted δ env t (later clock k)) :
    (parseInternal (δ := δ) env [some (joined text rest)] clock).map Prod.fst =
        (parseInternal env ((text :: rest.map Prod.snd).map some) clock).map Prod.fst ↔
      Cuts text rest := by
  have hmem : text ∈ text :: rest.map Prod.snd := List.mem_cons_self ..
  have hstart : ∀ t ∈ text :: rest.map Prod.snd, HasStart t := fun t ht =>
    (accepted_plain (hplain t ht) (hacc t ht 0)).1
  have hrest : ∀ x ∈ rest, (x.1 = chComma ∨ x.1 = chLF) ∧ Plain x.2 ∧ HasStart x.2 := fun x hx =>
    have hin := List.mem_cons_of_mem text (List.mem_map_of_mem (f := Prod.snd) hx)
    ⟨hsep x hx, hplain _ hin, hstart _ hin⟩
  obtain ⟨-, hfewer, hcuts⟩ := cut_joined rest hrest text (hplain text hmem) {} ⟨rfl, rfl, rfl⟩
  obtain ⟨htrim, hlength, hlast⟩ := cut_trim (hplain text hmem) (hstart text hmem) rest
  have hbytes := mem_joined (hplain text hmem) fun x hx => ⟨(hrest x hx).1, (hrest x hx).2.1⟩
  have hlist : parseExpressionList (δ := δ) env (joined text rest) = parseParts (parseTrimmed (parseExpression env))
      (endCheck (cutParts {} (trim (joined text rest))).2) (cutParts {} (trim (joined text rest))).1 := by
    rw [parseExpressionList, cstr_eq fun c hc => (hbytes c hc).1]
  have hsingle := parseInternal_texts (δ := δ) env (List.cons_ne_nil (joined text rest) [])
  rw [List.map_singleton, parseLists_single] at hsingle
  have harray := parseInternal_texts (δ := δ) env (List.cons_ne_nil text (rest.map Prod.snd))
  constructor
  · intro heq
    refine Classical.byContradiction fun hno => ?_
    -- the array has an action for every text, and the joined text has fewer parts
    obtain ⟨actions, clock', hok, hcount⟩ := parseLists_accepted hplain clock hacc 0
    have hzero : later clock 0 = clock := rfl
    rw [hzero] at hok
    have hne : actions ≠ [] := by
      rintro rfl
      cases hcount
    have hresult : parseInternal (δ := δ) env ((text :: rest.map Prod.snd).map some) clock = .ok (actions, clock') := by
      rw [harray]
      refine run_bind_ok.mpr ⟨_, _, hok, ?_⟩
      rw [List.isEmpty_eq_false_iff.mpr hne]
      rfl
    rw [hresult] at heq
    cases hjoined : parseInternal (δ := δ) env [some (joined text rest)] clock with
    | error e => rw [hjoined] at heq; cases heq
    | ok r =>
      rw [hjoined] at heq
      have hfst : r.1 = actions := Except.ok.inj heq
      rw [hsingle] at hjoined
      obtain ⟨actions', clock1, hparts, hpure⟩ := run_bind_ok.mp hjoined
      have hsame : actions' = actions := by
        split at hpure
        · exact absurd hpure fail_ok
        · cases hpure
          exact hfst
      rw [hsame, hlist] at hparts
      have hshort := parseParts_length (fun part hpart hc =>
        (hbytes _ (trim_subset _ (cutParts_subset _ _ part hpart hc))).2 rfl) hparts
      have hless := hfewer rfl hno
      rw [← hlength] at hshort
      rw [List.length_cons, List.length_map] at hcount
      omega
  · intro hyes
    obtain ⟨hcalm, hparts⟩ := hcuts rfl hyes
    rw [hsingle, harray, hlist, parseLists_plain env hplain, ← hlast, endCheck_calm hcalm,
      parseParts_trim _ _ (htrim.symm.trans hparts)]

end

/-- Numbers for texts that have none. -/
instance noNumbers : Doubles Unit where
  parseJson _ := none
  finite _ := true
  isZero _ := false
  zero := ()
  one := ()
  minusOne := ()

/-- No options, and a clock that stands still. -/
def bareEnv : Env := ⟨none, none⟩

def stillClock : Clock := fun _ => 0

/-- The actions of some texts. -/
def actionsOf (texts : List String) : Option (List (Action Unit)) :=
  ((parseInternal bareEnv (texts.map fun text => some (ascii text)) stillClock).map Prod.fst).toOption

instance (c : UInt8) : Decidable (PlainByte c) :=
  inferInstanceAs (Decidable (c ≠ 0 ∧ c ≠ chComma ∧ c ≠ chLF ∧ c ≠ chQuote ∧ c ≠ 0x27 ∧ c ≠ chLBrace ∧ c ≠ chRBrace ∧
    c ≠ chLBracket ∧ c ≠ chRBracket))

theorem accepted_still {text : String} (h : (actionsOf [text]).isSome = true) (k : Nat) :
    Accepted Unit bareEnv (ascii text) (later stillClock k) := by
  have hstill : later stillClock k = stillClock := rfl
  rw [hstill]
  cases hr : parseInternal (δ := Unit) bareEnv [some (ascii text)] stillClock with
  | ok r => exact ⟨r, hr⟩
  | error e =>
    rw [actionsOf, List.map_singleton, hr] at h
    cases h

/-- A removal behind a comma, and an assignment without a value behind a line end. -/
theorem joined_as_array_three :
    (parseInternal (δ := Unit) bareEnv [some (ascii "/a=x,rm:/b\n/c=")] stillClock).map Prod.fst =
      (parseInternal bareEnv [some (ascii "/a=x"), some (ascii "rm:/b"), some (ascii "/c=")] stillClock).map Prod.fst := by
  refine (joined_as_array Unit bareEnv (ascii "/a=x") [(chComma, ascii "rm:/b"), (chLF, ascii "/c=")] ?_ ?_ stillClock
    ?_).mpr ⟨by decide, by decide, trivial⟩
  · intro x hx
    rcases List.mem_cons.mp hx with rfl | hx
    · exact .inl rfl
    · rw [List.mem_singleton.mp hx]
      exact .inr rfl
  · have h : ∀ t ∈ [ascii "/a=x", ascii "rm:/b", ascii "/c="], ∀ c ∈ t, PlainByte c := by decide +kernel
    exact h
  · intro t ht
    rcases List.mem_cons.mp ht with rfl | ht
    · exact accepted_still (by decide +kernel)
    · rcases List.mem_cons.mp ht with rfl | ht
      · exact accepted_still (by decide +kernel)
      · rw [List.mem_singleton.mp ht]
        exact accepted_still (by decide +kernel)

/-- A `remove:` behind a comma stays in the value in front of it, and so does an assignment behind an empty value. -/
theorem joined_kept_together :
    ((actionsOf ["/a=x"]).isSome ∧ (actionsOf ["remove:/b"]).isSome ∧
      (actionsOf ["/a=x", "remove:/b"]).map (List.map Action.kind) = some [.set, .remove] ∧
      (actionsOf ["/a=x,remove:/b"]).map (List.map Action.value) = some [some (ascii "x,remove:/b")]) ∧
    (actionsOf ["/a="]).isSome ∧ (actionsOf ["/b=y"]).isSome ∧
      (actionsOf ["/a=", "/b=y"]).map (List.map Action.value) = some [some [], some (ascii "y")] ∧
      (actionsOf ["/a=\n/b=y"]).map (List.map Action.value) = some [some (ascii "/b=y")] := by
  refine ⟨⟨?_, ?_, ?_, ?_⟩, ?_, ?_, ?_, ?_⟩ <;> decide +kernel

end Lql.Mutation
