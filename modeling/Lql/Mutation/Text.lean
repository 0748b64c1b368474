import Lql.Lib.Heap
import Lql.Mutation.Action

/-!
# The text of a mutation

A mutation text is cut at its commas and line ends into expressions, and an expression is one action or a path with
further expressions in braces. Commas and line ends do not cut inside quotes, braces and brackets, and a comma only
where an expression seems to follow.
-/

namespace Lql.Mutation

open Selector (ascii parseError)

/-! ## Where expressions start -/

/-- `mutation_brace_shorthand_start` -/
def braceShorthandStart (rest : Bytes) : Bool :=
  match rest.dropWhile mutationSpace with
  | [] => false
  | c :: _ => c ≠ 0x3d && c ≠ chComma && c ≠ chLF

/-- `mutation_comma_starts_expression` -/
def commaStartsExpression (rest : Bytes) : Bool :=
  let text := rest.dropWhile mutationSpace
  text.head? = some chSlash || hasPrefix text "rm:" || hasPrefix text "del:" || hasPrefix text "delete:" ||
    hasPrefix text "time:"

/-- The texts in front of the first opening brace and behind it. -/
def findOpen : Bytes → Option (Bytes × Bytes)
  | [] => none
  | c :: rest =>
    if c = 0x3d then none
    else if c = chLBrace && braceShorthandStart rest then some ([], rest)
    else (findOpen rest).map fun (path, body) => (c :: path, body)

/-- `mutation_find_brace`: the path in front of the braces, and what is in them. -/
def findBrace (text : Bytes) : Option (Bytes × Bytes) :=
  if text.getLast? ≠ some chRBrace then none
  else match findOpen text with
  | some (c :: path, rest) => some (c :: path, rest.dropLast)
  | _ => none

/-! ## Cutting a text -/

/-- What a scanner knows at a byte: the quote it is in, whether it is behind an `=`, and how deep it is. -/
structure ScanState where
  quote : Option UInt8 := none
  quoteStrict : Bool := false
  inValue : Bool := false
  valueStarted : Bool := false
  braceDepth : Nat := 0
  bracketDepth : Nat := 0
  deriving DecidableEq, Repr

/-- One byte of a scanner, with what stands behind it; `none` where it cuts. -/
def ScanState.step (s : ScanState) (c : UInt8) (rest : Bytes) : Option ScanState :=
  if s.quote.isSome then some (if s.quote = some c then { s with quote := none } else s)
  else if s.braceDepth ≠ 0 then
    -- quotes are not looked at in here
    some (if c = chLBrace then { s with braceDepth := s.braceDepth + 1 }
      else if c = chRBrace then { s with braceDepth := s.braceDepth - 1 } else s)
  else if !s.inValue && c = 0x3d then some { s with inValue := true, valueStarted := false }
  else if s.inValue && !s.valueStarted && mutationSpace c then some s
  else if s.inValue && !s.valueStarted && (c = chQuote || c = 0x27) then
    some { s with quote := some c, quoteStrict := !s.valueStarted, valueStarted := true }
  else if !s.inValue && c = chLBrace && braceShorthandStart rest then some { s with braceDepth := s.braceDepth + 1 }
  else if c = chRBrace then some s
  else if s.inValue && c = chLBracket then some { s with bracketDepth := s.bracketDepth + 1, valueStarted := true }
  else if c = chRBracket && s.bracketDepth ≠ 0 then some { s with bracketDepth := s.bracketDepth - 1 }
  else if (c = chLF && s.braceDepth = 0 && s.bracketDepth = 0) || (c = chComma && commaStartsExpression rest) then none
  else if s.inValue then some { s with valueStarted := true }
  else some s

/-- A byte in front of the first part. -/
def pushByte (c : UInt8) : List Bytes × ScanState → List Bytes × ScanState
  | (part :: parts, s) => ((c :: part) :: parts, s)
  | ([], s) => ([[c]], s)

/-- The parts of a text, and the state of the scanner at its end. In quotes a backslash takes the next byte along. -/
def cutParts (s : ScanState) : Bytes → List Bytes × ScanState
  | [] => ([[]], s)
  | c :: rest =>
    if s.quote.isSome && c = chBackslash then
      match rest with
      | [] => ([[c]], s)
      | c' :: rest' => pushByte c (pushByte c' (cutParts s rest'))
    else match s.step c rest with
    | some s' => pushByte c (cutParts s' rest)
    | none => let (parts, last) := cutParts {} rest; ([] :: parts, last)

theorem cutParts_cons {s : ScanState} {c : UInt8} (h : (s.quote.isSome && c = chBackslash) = false) (rest : Bytes) :
    cutParts s (c :: rest) =
      match s.step c rest with
      | some s' => pushByte c (cutParts s' rest)
      | none => let (parts, last) := cutParts {} rest; ([] :: parts, last) := by
  rw [cutParts.eq_def]
  simp only [h, Bool.false_eq_true, if_false]

theorem cutParts_length (text : Bytes) : ∀ (s : ScanState), ∀ part ∈ (cutParts s text).1, part.length ≤ text.length := by
  have hpush : ∀ (c : UInt8) (n : Nat) (r : List Bytes × ScanState), (∀ part ∈ r.1, part.length ≤ n) →
      ∀ part ∈ (pushByte c r).1, part.length ≤ n + 1 := by
    intro c n r h part hpart
    rcases r with ⟨_ | ⟨p, ps⟩, s⟩
    · rw [List.mem_singleton.mp hpart, List.length_singleton]
      omega
    · rcases List.mem_cons.mp hpart with rfl | hmem
      · rw [List.length_cons]
        exact Nat.succ_le_succ (h p (List.mem_cons_self ..))
      · exact Nat.le_succ_of_le (h part (List.mem_cons_of_mem _ hmem))
  intro s
  fun_induction cutParts s text with
  | case1 s =>
    intro part hpart
    exact Nat.le_of_eq (congrArg List.length (List.mem_singleton.mp hpart))
  | case2 s c _ =>
    intro part hpart
    exact Nat.le_of_eq (congrArg List.length (List.mem_singleton.mp hpart))
  | case3 s c _ c' rest ih => exact hpush c _ _ (hpush c' _ _ ih)
  | case4 s c rest _ s' _ ih => exact hpush c _ _ ih
  | case5 s c rest _ _ parts last heq ih =>
    intro part hpart
    rcases List.mem_cons.mp hpart with rfl | hmem
    · exact Nat.zero_le _
    · rw [heq] at ih
      exact Nat.le_succ_of_le (ih part hmem)

/-! ## Parsing the parts -/

section

variable {δ : Type} [Doubles δ]

/-- What a scanner says at the end of its text. -/
def endCheck (s : ScanState) : Parse Unit :=
  if s.quote.isSome && s.quoteStrict then fail "unterminated quoted mutation value"
  else if s.braceDepth ≠ 0 then fail "unterminated mutation brace"
  else pure ()

/-- The actions of all parts; the scanner is at the end of its text when the last part is parsed. -/
def parseParts {α : Type} (parse : α → Parse (List (Action δ))) (check : Parse Unit) :
    List α → Parse (List (Action δ))
  | [] => pure []
  | [last] => do
    check
    parse last
  | part :: next :: rest => do
    let actions ← parse part
    let others ← parseParts parse check (next :: rest)
    pure (actions ++ others)

omit [Doubles δ] in
theorem parseParts_attach (parse : Bytes → Parse (List (Action δ))) (check : Parse Unit) {α : Type} (f : α → Bytes)
    (parts : List α) : parseParts (fun part => parse (f part)) check parts = parseParts parse check (parts.map f) := by
  induction parts with
  | nil => rfl
  | cons part rest ih =>
    cases rest with
    | nil => rfl
    | cons next rest =>
      rw [List.map_cons, List.map_cons, parseParts, parseParts, ih, List.map_cons]

/-- `mutation_trim` of a part, and nothing is parsed where nothing is left. -/
def parseTrimmed (parse : Bytes → Parse (List (Action δ))) (part : Bytes) : Parse (List (Action δ)) :=
  if trim part = [] then pure [] else parse (trim part)

/-- `mutation_prepend_segments` -/
def prependSegments (segments : List Bytes) (action : Action δ) : Action δ :=
  { action with segments := segments ++ action.segments }

theorem trim_length (text : Bytes) : (trim text).length ≤ text.length := by
  have hdrop : ∀ l : Bytes, (l.dropWhile mutationSpace).length ≤ l.length := fun l =>
    (List.dropWhile_suffix _).length_le
  rw [trim, List.length_reverse]
  calc _ ≤ _ := hdrop _
    _ = _ := List.length_reverse
    _ ≤ _ := hdrop text

theorem findOpen_length {text path rest : Bytes} (h : findOpen text = some (path, rest)) :
    text.length = path.length + rest.length + 1 := by
  induction text generalizing path with
  | nil => cases h
  | cons c text ih =>
    rw [findOpen] at h
    split at h
    · cases h
    · split at h
      · cases h
        rw [List.length_cons, List.length_nil]
        omega
      · obtain ⟨⟨path', rest'⟩, h', heq⟩ := Option.map_eq_some_iff.mp h
        cases heq
        rw [List.length_cons, List.length_cons, ih h']
        omega

theorem findBrace_length {text path body : Bytes} (h : findBrace text = some (path, body)) :
    body.length < text.length := by
  rw [findBrace] at h
  split at h
  · cases h
  · split at h
    · next hopen =>
      cases h
      rw [findOpen_length hopen, List.length_dropLast]
      omega
    · cases h

/-- `mutation_parse_expression` -/
def parseExpression (env : Env) (raw : Bytes) : Parse (List (Action δ)) :=
  match h : findBrace (trim raw) with
  | none => do
    let action ← parseOne env raw
    pure [action]
  | some (path, body) => do
    let segments ← StateT.lift (parsePath path)
    let cut := cutParts {} body
    let children ← parseParts
      (fun part => if trim part.1 = [] then pure [] else parseExpression env (trim part.1)) (endCheck cut.2) cut.1.attach
    pure (children.map (prependSegments segments))
termination_by raw.length
decreasing_by
  have h1 := cutParts_length body {} part.1 part.2
  have h2 := findBrace_length h
  have h3 := trim_length raw
  have h4 := trim_length part.1
  omega

theorem parseExpression_eq (env : Env) (raw : Bytes) : parseExpression (δ := δ) env raw =
    (match findBrace (trim raw) with
    | none => do
      let action ← parseOne env raw
      pure [action]
    | some (path, body) => do
      let segments ← StateT.lift (parsePath path)
      let children ← parseParts (parseTrimmed (parseExpression env)) (endCheck (cutParts {} body).2) (cutParts {} body).1
      pure (children.map (prependSegments segments))) := by
  rw [parseExpression]
  split
  · next h => rw [h]
  · next path body h =>
    rw [h]
    simp only []
    congr 1
    funext segments
    have hmap := parseParts_attach (parseTrimmed (parseExpression (δ := δ) env)) (endCheck (cutParts {} body).2)
      Subtype.val (cutParts {} body).1.attach
    rw [List.attach_map_subtype_val] at hmap
    exact congrArg (· >>= fun children => pure (children.map (prependSegments segments))) hmap

/-- `mutation_parse_expression_list` -/
def parseExpressionList (env : Env) (raw : Bytes) : Parse (List (Action δ)) :=
  let cut := cutParts {} (trim (Temporal.cstr raw))
  parseParts (parseTrimmed (parseExpression env)) (endCheck cut.2) cut.1

/-- The actions of all texts. -/
def parseLists (env : Env) : List Bytes → Parse (List (Action δ))
  | [] => pure []
  | raw :: rest => do
    let actions ← parseExpressionList env raw
    let others ← parseLists env rest
    pure (actions ++ others)

/-- `lql_mutation_parse_internal_with_options` -/
def parseInternal (env : Env) (expressions : List (Option Bytes)) : Parse (List (Action δ)) :=
  if expressions = [] then fail "mutation expressions are required"
  else if none ∈ expressions then
    StateT.lift (.error ⟨.invalidArgument, "mutation expression entries are required"⟩)
  else do
    let actions ← parseLists env (expressions.filterMap id)
    if actions.isEmpty then fail "mutation expressions are required" else pure actions

end

end Lql.Mutation
