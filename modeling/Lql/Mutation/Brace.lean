import Lql.Mutation.Join

/-!
# Values in braces

A path with members in braces is short for the members with the path in front of each. The scanners pass over a
quoted value whatever is in it, but in braces they see no quotes: they have to find as many braces closed as opened.
-/

namespace Lql.Mutation

open Selector (ascii)

/-! ## Members -/

/-- A byte of a plain path segment, or the slash in front of it. -/
def PathByte (c : UInt8) : Prop :=
  c ≠ 0 ∧ c ≠ chLBrace ∧ c ≠ chRBrace ∧ c ≠ 0x3d ∧ c ≠ chComma ∧ c ≠ chQuote ∧ c ≠ 0x27 ∧ mutationSpace c = false

/-- A path of plain segments; a slash alone is the root. -/
structure PathText where
  text : Bytes
  segments : ∃ c rest, text = chSlash :: c :: rest
  plain : ∀ c ∈ text, PathByte c

/-- A path behind another. -/
def PathText.append (p q : PathText) : PathText where
  text := p.text ++ q.text
  segments := by
    obtain ⟨c, rest, h⟩ := p.segments
    exact ⟨c, rest ++ q.text, by rw [h]; rfl⟩
  plain := by
    intro c hc
    rcases List.mem_append.mp hc with hc | hc
    · exact p.plain c hc
    · exact q.plain c hc

/-- A value in quotes, with neither a backslash nor its quote in it. -/
structure Quoted where
  quote : UInt8
  text : Bytes
  kind : quote = chQuote ∨ quote = 0x27
  inside : ∀ c ∈ text, c ≠ 0 ∧ c ≠ quote ∧ c ≠ chBackslash

/-- A path with a value, or with further members. -/
inductive Member where
  | value (path : PathText) (v : Quoted)
  | group (path : PathText) (members : List Member)

/-- `path="value"` -/
def valueText (path : PathText) (v : Quoted) : Bytes := path.text ++ 0x3d :: v.quote :: (v.text ++ [v.quote])

mutual

def Member.text : Member → Bytes
  | .value path v => valueText path v
  | .group path members => path.text ++ chLBrace :: (membersText members ++ [chRBrace])

/-- Members with commas between them. -/
def membersText : List Member → Bytes
  | [] => []
  | m :: rest => m.text ++ (if rest.isEmpty then [] else [chComma]) ++ membersText rest

end

mutual

/-- The values of a member, each with its whole path. -/
def Member.leaves (front : PathText) : Member → List (PathText × Quoted)
  | .value path v => [(front.append path, v)]
  | .group path members => leavesOf (front.append path) members

def leavesOf (front : PathText) : List Member → List (PathText × Quoted)
  | [] => []
  | m :: rest => m.leaves front ++ leavesOf front rest

end

/-- The segments of a path. -/
def PathText.segmentList (path : PathText) : List Bytes := ((path.text.drop 1).splitOn chSlash).flatMap pathSegments

section

variable {δ : Type} [Doubles δ]

/-- The action that sets a path to a string. -/
def setString (δ : Type) [Doubles δ] (path : PathText) (v : Quoted) : Action δ :=
  { blankAction δ .set path.segmentList with valueKind := .string, value := some v.text }

mutual

/-- The actions of a member. -/
def Member.actions (δ : Type) [Doubles δ] : Member → List (Action δ)
  | .value path v => [setString δ path v]
  | .group path members => (actionsAll δ members).map (prependSegments path.segmentList)

def actionsAll (δ : Type) [Doubles δ] : List Member → List (Action δ)
  | [] => []
  | m :: rest => m.actions δ ++ actionsAll δ rest

end

end

/-! ## Braces -/

/-- The depth behind a text in braces; `none` where the last brace is closed in it. -/
def depthAfter (depth : Nat) : Bytes → Option Nat
  | [] => some depth
  | c :: rest =>
    if c = chLBrace then depthAfter (depth + 1) rest
    else if c = chRBrace then (if depth ≤ 1 then none else depthAfter (depth - 1) rest)
    else depthAfter depth rest

mutual

/-- The braces of every group, those in quotes included, are closed where the group is. -/
def Member.Closed : Member → Prop
  | .value _ _ => True
  | .group _ members => depthAfter 1 (membersText members) = some 1 ∧ AllClosed members

def AllClosed : List Member → Prop
  | [] => True
  | m :: rest => m.Closed ∧ AllClosed rest

end

theorem depthAfter_append (depth : Nat) (text rest : Bytes) :
    depthAfter depth (text ++ rest) = (depthAfter depth text).bind fun d => depthAfter d rest := by
  induction text generalizing depth with
  | nil => rfl
  | cons c text ih =>
    rw [List.cons_append, depthAfter, depthAfter]
    split
    · exact ih _
    · split
      · split
        · rfl
        · exact ih _
      · exact ih _

theorem depthAfter_add {depth depth' : Nat} {text : Bytes} (h : depthAfter depth text = some depth') (k : Nat) :
    depthAfter (depth + k) text = some (depth' + k) := by
  induction text generalizing depth with
  | nil =>
    cases h
    rfl
  | cons c text ih =>
    rw [depthAfter] at h ⊢
    split at h
    · next hc =>
      rw [if_pos hc, Nat.add_right_comm]
      exact ih h
    · next hc =>
      rw [if_neg hc]
      split at h
      · next hc' =>
        rw [if_pos hc']
        split at h
        · cases h
        · next hd =>
          have hsub : depth + k - 1 = depth - 1 + k := by omega
          rw [if_neg (by omega), hsub]
          exact ih h
      · next hc' =>
        rw [if_neg hc']
        exact ih h

theorem depthAfter_none {text : Bytes} (h : ∀ c ∈ text, c ≠ chLBrace ∧ c ≠ chRBrace) (depth : Nat) :
    depthAfter depth text = some depth := by
  induction text with
  | nil => rfl
  | cons c text ih =>
    obtain ⟨h1, h2⟩ := h c (List.mem_cons_self ..)
    rw [depthAfter, if_neg h1, if_neg h2]
    exact ih fun c' hc' => h c' (List.mem_cons_of_mem _ hc')

mutual

/-- The braces in every value match. -/
def Member.Matched : Member → Prop
  | .value _ v => depthAfter 1 v.text = some 1
  | .group _ members => AllMatched members

def AllMatched : List Member → Prop
  | [] => True
  | m :: rest => m.Matched ∧ AllMatched rest

end

theorem depthAfter_path (path : PathText) (depth : Nat) (rest : Bytes) :
    depthAfter depth (path.text ++ rest) = depthAfter depth rest := by
  rw [depthAfter_append, depthAfter_none fun c hc => ⟨(path.plain c hc).2.1, (path.plain c hc).2.2.1⟩]
  rfl

mutual

theorem depthAfter_member : (m : Member) → m.Matched → depthAfter 1 m.text = some 1
  | .value path v, h => by
    have hquote : v.quote ≠ chLBrace ∧ v.quote ≠ chRBrace := by
      rcases v.kind with h | h <;> rw [h] <;> decide
    have hopen : ∀ rest, depthAfter 1 (0x3d :: v.quote :: rest) = depthAfter 1 rest := by
      intro rest
      rw [depthAfter, if_neg (by decide), if_neg (by decide), depthAfter, if_neg hquote.1, if_neg hquote.2]
    have hclose : depthAfter 1 [v.quote] = some 1 := by
      rw [depthAfter, if_neg hquote.1, if_neg hquote.2, depthAfter]
    have hvalue : depthAfter 1 v.text = some 1 := h
    rw [Member.text, valueText, depthAfter_path, hopen, depthAfter_append, hvalue, Option.bind_some, hclose]
  | .group path members, h => by
    have hmembers := depthAfter_add (depthAfter_members members h) 1
    rw [Member.text, depthAfter_path, depthAfter, if_pos rfl, depthAfter_append, hmembers]
    rfl

theorem depthAfter_members : (members : List Member) → AllMatched members → depthAfter 1 (membersText members) = some 1
  | [], _ => rfl
  | m :: rest, h => by
    have hcomma : depthAfter 1 (if rest.isEmpty then [] else [chComma]) = some 1 := by
      split <;> rfl
    rw [membersText, depthAfter_append, depthAfter_append, depthAfter_member m h.1, Option.bind_some, hcomma,
      Option.bind_some, depthAfter_members rest h.2]

end

mutual

/-- Where the braces in every value match, every group is closed where it should be. -/
theorem closed_of_matched : (m : Member) → m.Matched → m.Closed
  | .value _ _, _ => trivial
  | .group _ members, h => ⟨depthAfter_members members h, allClosed_of_matched members h⟩

theorem allClosed_of_matched : (members : List Member) → AllMatched members → AllClosed members
  | [], _ => trivial
  | m :: rest, h => ⟨closed_of_matched m h.1, allClosed_of_matched rest h.2⟩

end

/-! ## Scanning members -/

/-- The scanner behind a quoted value. -/
def behindValue : ScanState := { quoteStrict := true, inValue := true, valueStarted := true }

theorem step_path {c : UInt8} (h : PathByte c) (rest : Bytes) : ScanState.step {} c rest = some {} := by
  obtain ⟨-, hlb, hrb, heq, hcomma, -, -, hspace⟩ := h
  have hlf : c ≠ chLF := by
    rintro rfl
    cases hspace
  simp only [ScanState.step, Option.isSome_none, Bool.false_eq_true, if_false, ne_eq, not_true_eq_false, heq,
    decide_false, Bool.and_false, Bool.false_and, hlb, hrb, hcomma, hlf, Bool.or_self]

theorem cut_path {text : Bytes} (h : ∀ c ∈ text, PathByte c) (tail : Bytes) :
    cutParts {} (text ++ tail) = text.foldr pushByte (cutParts {} tail) := by
  induction text with
  | nil => rfl
  | cons c text ih =>
    rw [List.cons_append, cutParts_cons rfl, step_path (h c (List.mem_cons_self ..)), List.foldr_cons]
    exact congrArg (pushByte c) (ih fun c' hc' => h c' (List.mem_cons_of_mem _ hc'))

theorem cut_quoted {q : UInt8} {text : Bytes} (h : ∀ c ∈ text, c ≠ 0 ∧ c ≠ q ∧ c ≠ chBackslash) (s : ScanState)
    (hs : s.quote = some q) (tail : Bytes) :
    cutParts s (text ++ tail) = text.foldr pushByte (cutParts s tail) := by
  induction text with
  | nil => rfl
  | cons c text ih =>
    obtain ⟨-, hq, hb⟩ := h c (List.mem_cons_self ..)
    have hstep : s.step c (text ++ tail) = some s := by
      rw [ScanState.step, hs]
      simp only [Option.isSome_some, if_true, Option.some.injEq, Ne.symm hq, if_false]
    rw [List.cons_append, cutParts_cons (by simp only [hb, decide_false, Bool.and_false]), hstep, List.foldr_cons]
    exact congrArg (pushByte c) (ih fun c' hc' => h c' (List.mem_cons_of_mem _ hc'))

/-- **A quoted value is passed over**, whatever is in it. -/
theorem cut_value (v : Quoted) (tail : Bytes) :
    cutParts {} (0x3d :: v.quote :: (v.text ++ [v.quote]) ++ tail) =
      (0x3d :: v.quote :: (v.text ++ [v.quote])).foldr pushByte (cutParts behindValue tail) := by
  have hquote : (v.quote = chBackslash) = False := by
    rcases v.kind with h | h <;> rw [h] <;> exact eq_false (by decide)
  have hopen : ScanState.step { inValue := true } v.quote (v.text ++ v.quote :: tail) =
      some { behindValue with quote := some v.quote } := by
    rcases v.kind with h | h <;> rw [h] <;> rfl
  have hclose : ScanState.step { behindValue with quote := some v.quote } v.quote tail = some behindValue := by
    rw [ScanState.step]
    simp only [Option.isSome_some, if_true]
    rfl
  have hbody := cut_quoted v.inside { behindValue with quote := some v.quote } rfl (v.quote :: tail)
  rw [cutParts_cons (by simp only [hquote, decide_false, Bool.and_false]), hclose] at hbody
  have hequal : ScanState.step {} 0x3d (v.quote :: (v.text ++ v.quote :: tail)) = some { inValue := true } := rfl
  rw [List.cons_append, List.cons_append, List.append_assoc, List.singleton_append, cutParts_cons rfl, hequal]
  refine congrArg (pushByte 0x3d) ?_
  rw [cutParts_cons rfl, hopen]
  refine congrArg (pushByte v.quote) ?_
  rw [hbody, List.foldr_append]
  rfl

theorem cut_braces {depth depth' : Nat} {text : Bytes} (hd : depth ≠ 0) (h : depthAfter depth text = some depth')
    (tail : Bytes) : cutParts { braceDepth := depth } (text ++ tail) =
      text.foldr pushByte (cutParts { braceDepth := depth' } tail) := by
  induction text generalizing depth with
  | nil =>
    cases h
    rfl
  | cons c text ih =>
    have hstep : ScanState.step { braceDepth := depth } c (text ++ tail) =
        some (if c = chLBrace then { braceDepth := depth + 1 }
          else if c = chRBrace then { braceDepth := depth - 1 } else { braceDepth := depth }) := by
      rw [ScanState.step]
      simp only [Option.isSome_none, Bool.false_eq_true, if_false, ne_eq, hd, not_false_eq_true, if_true]
    rw [List.cons_append, cutParts_cons rfl, hstep, List.foldr_cons]
    refine congrArg (pushByte c) ?_
    rw [depthAfter] at h
    split at h
    · next hc =>
      rw [if_pos hc]
      exact ih (Nat.succ_ne_zero _) h
    · next hc =>
      rw [if_neg hc]
      split at h
      · next hc' =>
        rw [if_pos hc']
        split at h
        · cases h
        · next hle => exact ih (by omega) h
      · next hc' =>
        rw [if_neg hc']
        exact ih hd h

/-! ### What members look like -/

theorem path_start (p : PathText) : ∃ rest, p.text = chSlash :: rest := by
  obtain ⟨c, rest, h⟩ := p.segments
  exact ⟨c :: rest, h⟩

theorem quote_ne (v : Quoted) : v.quote ≠ chRBrace ∧ mutationSpace v.quote = false ∧ v.quote ≠ 0 ∧ v.quote ≠ chPlus ∧
    v.quote ≠ chMinus := by
  rcases v.kind with h | h <;> rw [h] <;> decide

/-- A member starts with a slash, and ends with a brace or a quote. -/
theorem member_start (m : Member) : ∃ rest, m.text = chSlash :: rest := by
  cases m with
  | value path v =>
    obtain ⟨rest, h⟩ := path_start path
    exact ⟨_, by rw [Member.text, valueText, h]; rfl⟩
  | group path members =>
    obtain ⟨rest, h⟩ := path_start path
    exact ⟨_, by rw [Member.text, h]; rfl⟩

theorem member_end (m : Member) : ∃ front c, m.text = front ++ [c] ∧ mutationSpace c = false := by
  cases m with
  | value path v =>
    refine ⟨path.text ++ 0x3d :: v.quote :: v.text, v.quote, ?_, (quote_ne v).2.1⟩
    rw [Member.text, valueText, List.append_assoc]
    rfl
  | group path members =>
    refine ⟨path.text ++ chLBrace :: membersText members, chRBrace, ?_, rfl⟩
    rw [Member.text, List.append_assoc]
    rfl

theorem trim_member (m : Member) : trim m.text = m.text := by
  obtain ⟨rest, hstart⟩ := member_start m
  obtain ⟨front, c, hend, hc⟩ := member_end m
  calc trim m.text = rtrim m.text := by
        rw [hstart]
        exact (trim_start (a := []) rfl rfl).trans (rtrim_append [] chSlash rest rfl).symm
    _ = m.text := by
        rw [hend]
        exact rtrim_append front c [] hc

theorem members_start (members : List Member) (tail : Bytes) :
    braceShorthandStart (membersText members ++ chRBrace :: tail) = true := by
  cases members with
  | nil => rfl
  | cons m rest =>
    obtain ⟨more, h⟩ := member_start m
    rw [membersText, h]
    rfl

theorem cut_group {path : PathText} {members : List Member} (h : depthAfter 1 (membersText members) = some 1)
    (tail : Bytes) : cutParts {} ((Member.group path members).text ++ tail) =
      (Member.group path members).text.foldr pushByte (cutParts {} tail) := by
  have hopen : ScanState.step {} chLBrace (membersText members ++ chRBrace :: tail) = some { braceDepth := 1 } := by
    have hstart := members_start members tail
    simp only [ScanState.step, hstart]
    rfl
  have hclose : ScanState.step { braceDepth := 1 } chRBrace tail = some {} := rfl
  have hbody := cut_braces Nat.one_ne_zero h (chRBrace :: tail)
  rw [cutParts_cons rfl, hclose] at hbody
  rw [Member.text, List.append_assoc, cut_path path.plain, List.foldr_append]
  refine congrArg (List.foldr pushByte · path.text) ?_
  rw [List.cons_append, List.append_assoc, List.singleton_append, cutParts_cons rfl, hopen]
  refine congrArg (pushByte chLBrace) ?_
  rw [hbody, List.foldr_append]
  rfl

/-- **A member is passed over**, up to the comma behind it. -/
theorem cut_member {m : Member} (h : m.Closed) (tail : Bytes) : ∃ s : ScanState,
    (s = {} ∨ s = behindValue) ∧ cutParts {} (m.text ++ tail) = m.text.foldr pushByte (cutParts s tail) := by
  cases m with
  | value path v =>
    refine ⟨behindValue, .inr rfl, ?_⟩
    rw [Member.text, valueText, List.append_assoc, cut_path path.plain, cut_value, List.foldr_append]
  | group path members => exact ⟨{}, .inl rfl, cut_group h.1 tail⟩

theorem cut_members {m : Member} {rest : List Member} (h : AllClosed (m :: rest)) : ∃ s : ScanState,
    (s = {} ∨ s = behindValue) ∧ cutParts {} (membersText (m :: rest)) = ((m :: rest).map Member.text, s) := by
  induction rest generalizing m with
  | nil =>
    obtain ⟨s, hs, hcut⟩ := cut_member h.1 []
    refine ⟨s, hs, ?_⟩
    rw [membersText, List.isEmpty_nil, if_pos rfl, List.append_nil, membersText, hcut, cutParts, foldr_pushByte,
      List.append_nil]
    rfl
  | cons next rest ih =>
    obtain ⟨s, hs, hcut⟩ := ih h.2
    obtain ⟨s', hs', hfirst⟩ := cut_member h.1 (chComma :: membersText (next :: rest))
    have hstep : s'.step chComma (membersText (next :: rest)) = none := by
      obtain ⟨more, hnext⟩ := member_start next
      have hstart : commaStartsExpression (membersText (next :: rest)) = true := by
        rw [membersText, hnext]
        rfl
      rcases hs' with rfl | rfl <;> simp only [ScanState.step, hstart] <;> rfl
    refine ⟨s, hs, ?_⟩
    have htext : membersText (m :: next :: rest) = m.text ++ chComma :: membersText (next :: rest) := by
      rw [membersText, List.isEmpty_cons, if_neg Bool.false_ne_true, List.append_assoc, List.singleton_append]
    have hquote : s'.quote.isSome = false := by rcases hs' with rfl | rfl <;> rfl
    rw [htext, hfirst, cutParts_cons (by rw [hquote]; rfl), hstep, hcut, foldr_pushByte, List.append_nil]
    rfl

/-! ## Parsing members -/

theorem findOpen_path {path : Bytes} (h : ∀ c ∈ path, PathByte c) {rest : Bytes}
    (hrest : braceShorthandStart rest = true) : findOpen (path ++ chLBrace :: rest) = some (path, rest) := by
  induction path with
  | nil =>
    rw [List.nil_append, findOpen, if_neg (by decide), hrest]
    rfl
  | cons c path ih =>
    obtain ⟨-, hlb, -, heq, -⟩ := h c (List.mem_cons_self ..)
    rw [List.cons_append, findOpen, if_neg heq, ih fun c' hc' => h c' (List.mem_cons_of_mem _ hc')]
    simp only [hlb, decide_false, Bool.false_and, Bool.false_eq_true, if_false]
    rfl

theorem findBrace_group (path : PathText) (members : List Member) :
    findBrace (Member.group path members).text = some (path.text, membersText members) := by
  obtain ⟨rest, hpath⟩ := path_start path
  have hopen := findOpen_path path.plain (members_start members [])
  have hlast : (Member.group path members).text.getLast? = some chRBrace := by
    rw [Member.text, ← List.cons_append, ← List.append_assoc, List.getLast?_concat]
  rw [findBrace, if_neg (not_not_intro hlast), Member.text, hopen, hpath]
  simp only [List.dropLast_concat]

theorem findBrace_value (path : PathText) (v : Quoted) : findBrace (valueText path v) = none := by
  have hlast : (valueText path v).getLast? = some v.quote := by
    rw [valueText, ← List.cons_append, ← List.cons_append, ← List.append_assoc, List.getLast?_concat]
  rw [findBrace, if_pos]
  rw [hlast]
  exact fun h => (quote_ne v).1 (Option.some.inj h)

theorem trim_path (path : PathText) : trim path.text = path.text := by
  obtain ⟨c, rest, h⟩ := path.segments
  have hlast := List.dropLast_concat_getLast (l := path.text) (by rw [h]; exact List.cons_ne_nil _ _)
  have hspace := (path.plain _ (List.getLast_mem (by rw [h]; exact List.cons_ne_nil _ _))).2.2.2.2.2.2.2
  calc trim path.text = rtrim path.text := by
        rw [h]
        exact (trim_start (a := []) rfl rfl).trans (rtrim_append [] chSlash (c :: rest) rfl).symm
    _ = path.text := by
        rw [← hlast]
        exact rtrim_append _ _ [] hspace

theorem parsePath_text (path : PathText) : parsePath path.text = .ok path.segmentList := by
  obtain ⟨c, rest, h⟩ := path.segments
  rw [parsePath, trim_path, PathText.segmentList, h]
  rfl

theorem segmentList_append (p q : PathText) : (p.append q).segmentList = p.segmentList ++ q.segmentList := by
  obtain ⟨c, rest, hp⟩ := p.segments
  obtain ⟨c', rest', hq⟩ := q.segments
  have htext : (p.append q).text.drop 1 = (c :: rest) ++ chSlash :: (c' :: rest') := by
    change (p.text ++ q.text).drop 1 = _
    rw [hp, hq]
    rfl
  rw [PathText.segmentList, htext, List.splitOn_append_cons_self, List.flatMap_append, PathText.segmentList,
    PathText.segmentList, hp, hq]
  rfl

theorem splitEqual_path {path : Bytes} (h : ∀ c ∈ path, PathByte c) (value : Bytes) :
    splitEqual (path ++ 0x3d :: value) = some (path, value) := by
  induction path with
  | nil => rfl
  | cons c path ih =>
    have hc := (h c (List.mem_cons_self ..)).2.2.2.1
    rw [List.cons_append, splitEqual, if_neg hc, ih fun c' hc' => h c' (List.mem_cons_of_mem _ hc')]
    rfl

theorem endsTwice_value (path : PathText) (v : Quoted) {c : UInt8} (h : v.quote ≠ c) :
    endsTwice (valueText path v) c = false := by
  rw [endsTwice, Bool.eq_false_iff]
  intro hsuffix
  obtain ⟨front, hfront⟩ := List.isSuffixOf_iff_suffix.mp hsuffix
  have hlast := congrArg List.getLast? hfront
  rw [valueText, ← List.cons_append, ← List.cons_append, ← List.append_assoc, List.getLast?_concat,
    ← List.singleton_append, ← List.append_assoc, List.getLast?_concat] at hlast
  exact h (Option.some.inj hlast).symm

section

variable {δ : Type} [Doubles δ]

theorem parseAssignment_value (path : PathText) (v : Quoted) :
    parseAssignment path.text (v.quote :: (v.text ++ [v.quote])) = .ok (setString δ path v) := by
  obtain ⟨-, hspace, -, hplus, hminus⟩ := quote_ne v
  have htrim : trim (v.quote :: (v.text ++ [v.quote])) = v.quote :: (v.text ++ [v.quote]) :=
    (trim_start (a := []) rfl hspace).trans (congrArg (v.quote :: ·) (rtrim_append v.text v.quote [] hspace))
  have hquoted : unquoted? (v.quote :: (v.text ++ [v.quote])) = some v.text := by
    have hkind : (v.quote = chQuote || v.quote = 0x27) = true := by
      rcases v.kind with h | h <;> rw [h] <;> rfl
    simp only [unquoted?, hkind, List.getLast?_concat, List.dropLast_concat, decide_true, Bool.and_self, if_true]
  have hvalue : parseValue δ (v.quote :: (v.text ++ [v.quote])) = .ok (.string, v.text) := by
    rw [parseValue, htrim]
    simp only [List.cons_ne_nil, if_false, hquoted]
  rw [parseAssignment, parsePath_text, htrim]
  simp only [bind, Except.bind, List.head?_cons, Option.some.injEq, hplus, hminus, decide_false, Bool.or_self,
    Bool.false_eq_true, if_false, hvalue]
  rfl

theorem parseOne_value (env : Env) (path : PathText) (v : Quoted) :
    parseOne (δ := δ) env (valueText path v) = pure (setString δ path v) := by
  obtain ⟨-, -, -, hplus, hminus⟩ := quote_ne v
  have htrim : trim (valueText path v) = valueText path v := trim_member (.value path v)
  obtain ⟨rest, hstart⟩ := path_start path
  have hcons : ∃ rest, valueText path v = chSlash :: rest := ⟨_, by rw [valueText, hstart]; rfl⟩
  have hprefix : ∀ word ∈ ["textfile:", "base64file:", "file:", "time:", "rm:", "remove:", "delete:", "del:"],
      hasPrefix (valueText path v) word = false := by
    obtain ⟨more, hmore⟩ := hcons
    rw [hmore]
    intro word hword
    simp only [List.mem_cons, List.not_mem_nil, or_false] at hword
    rcases hword with rfl | rfl | rfl | rfl | rfl | rfl | rfl | rfl <;> rfl
  have hne : valueText path v ≠ [] := by
    obtain ⟨more, hmore⟩ := hcons
    rw [hmore]
    exact List.cons_ne_nil _ _
  have hsplit := splitEqual_path path.plain (v.quote :: (v.text ++ [v.quote]))
  rw [← valueText] at hsplit
  rw [parseOne, htrim]
  simp only [hne, hprefix "textfile:" (by decide), hprefix "base64file:" (by decide), hprefix "file:" (by decide),
    hprefix "time:" (by decide), hprefix "rm:" (by decide), hprefix "remove:" (by decide),
    hprefix "delete:" (by decide), hprefix "del:" (by decide), endsTwice_value path v hplus, endsTwice_value path v hminus, hsplit,
    parseAssignment_value, if_false, Bool.false_eq_true]
  rfl

theorem parse_value (env : Env) (path : PathText) (v : Quoted) :
    parseExpression (δ := δ) env (valueText path v) = pure [setString δ path v] := by
  rw [parseExpression_eq, show trim (valueText path v) = valueText path v from trim_member (.value path v),
    findBrace_value, parseOne_value, pure_bind]

mutual

/-- **A member is parsed to its actions.** -/
theorem parse_member (env : Env) : (m : Member) → m.Closed → parseExpression (δ := δ) env m.text = pure (m.actions δ)
  | .value path v, _ => parse_value env path v
  | .group path members, h => by
    have hmembers := parse_members env members h.2
    rw [parseExpression_eq, trim_member, findBrace_group]
    dsimp only
    rw [parsePath_text, hmembers]
    rfl

theorem parse_members (env : Env) : (members : List Member) → AllClosed members →
    parseParts (parseTrimmed (parseExpression (δ := δ) env)) (endCheck (cutParts {} (membersText members)).2)
      (cutParts {} (membersText members)).1 = pure (actionsAll δ members)
  | [], _ => rfl
  | m :: rest, h => by
    obtain ⟨s, hs, hcut⟩ := cut_members h
    have hcheck : endCheck s = pure () := by rcases hs with rfl | rfl <;> rfl
    rw [hcut, hcheck]
    exact parse_all env (m :: rest) h

theorem parse_all (env : Env) : (members : List Member) → AllClosed members →
    parseParts (parseTrimmed (parseExpression (δ := δ) env)) (pure ()) (members.map Member.text) =
      pure (actionsAll δ members)
  | [], _ => rfl
  | m :: rest, h => by
    have hne : m.text ≠ [] := by
      obtain ⟨more, hmore⟩ := member_start m
      rw [hmore]
      exact List.cons_ne_nil _ _
    rw [List.map_cons, parseParts_cons, parseTrimmed, trim_member, if_neg hne, parse_member env m h.1, pure_bind,
      parse_all env rest h.2, pure_bind]
    rfl

end

/-! ## The same values one by one -/

omit [Doubles δ] in
theorem prependSegments_append (front back : List Bytes) (action : Action δ) :
    prependSegments (front ++ back) action = prependSegments front (prependSegments back action) := by
  rw [prependSegments, prependSegments, prependSegments, List.append_assoc]

mutual

theorem leaves_actions (front : PathText) : (m : Member) →
    (m.leaves front).map (fun leaf => setString δ leaf.1 leaf.2) = (m.actions δ).map (prependSegments front.segmentList)
  | .value path v => by
    rw [Member.leaves, Member.actions, List.map_singleton, List.map_singleton, setString, segmentList_append]
    rfl
  | .group path members => by
    rw [Member.leaves, leavesOf_actions, Member.actions, List.map_map, segmentList_append]
    exact List.map_congr_left fun action _ => prependSegments_append _ _ action

theorem leavesOf_actions (front : PathText) : (members : List Member) →
    (leavesOf front members).map (fun leaf => setString δ leaf.1 leaf.2) =
      (actionsAll δ members).map (prependSegments front.segmentList)
  | [] => rfl
  | m :: rest => by
    rw [leavesOf, List.map_append, leaves_actions front m, leavesOf_actions front rest, actionsAll, List.map_append]

end

mutual

theorem member_bytes : (m : Member) → ∀ c ∈ m.text, c ≠ 0
  | .value path v, c, hc => by
    rcases List.mem_append.mp hc with hc | hc
    · exact (path.plain c hc).1
    · rcases List.mem_cons.mp hc with rfl | hc
      · decide
      · rcases List.mem_cons.mp hc with rfl | hc
        · exact (quote_ne v).2.2.1
        · rcases List.mem_append.mp hc with hc | hc
          · exact (v.inside c hc).1
          · rw [List.mem_singleton.mp hc]
            exact (quote_ne v).2.2.1
  | .group path members, c, hc => by
    rcases List.mem_append.mp hc with hc | hc
    · exact (path.plain c hc).1
    · rcases List.mem_cons.mp hc with rfl | hc
      · decide
      · rcases List.mem_append.mp hc with hc | hc
        · exact members_bytes members c hc
        · rw [List.mem_singleton.mp hc]
          decide

theorem members_bytes : (members : List Member) → ∀ c ∈ membersText members, c ≠ 0
  | [], c, hc => nomatch hc
  | m :: rest, c, hc => by
    rcases List.mem_append.mp hc with hc | hc
    · rcases List.mem_append.mp hc with hc | hc
      · exact member_bytes m c hc
      · cases hrest : rest.isEmpty with
        | true => rw [hrest] at hc; cases hc
        | false =>
          rw [hrest] at hc
          rw [List.mem_singleton.mp hc]
          decide
    · exact members_bytes rest c hc

end

/-- A text that is one member is parsed to its actions. -/
theorem parseList_member (env : Env) {m : Member} (h : m.Closed) :
    parseExpressionList (δ := δ) env m.text = pure (m.actions δ) := by
  obtain ⟨s, hs, hcut⟩ := cut_member h []
  have hcheck : endCheck s = pure () := by rcases hs with rfl | rfl <;> rfl
  have hne : m.text ≠ [] := by
    obtain ⟨more, hmore⟩ := member_start m
    rw [hmore]
    exact List.cons_ne_nil _ _
  rw [List.append_nil, cutParts, foldr_pushByte, List.append_nil] at hcut
  rw [parseExpressionList, cstr_eq (member_bytes m), trim_member, hcut]
  dsimp only
  rw [parseParts, hcheck, pure_bind, parseTrimmed, trim_member, if_neg hne, parse_member env m h]

theorem parseLists_leaves (env : Env) (leaves : List (PathText × Quoted)) :
    parseLists (δ := δ) env (leaves.map fun leaf => valueText leaf.1 leaf.2) =
      pure (leaves.map fun leaf => setString δ leaf.1 leaf.2) := by
  induction leaves with
  | nil => rfl
  | cons leaf leaves ih =>
    have hfirst := parseList_member (δ := δ) env (m := .value leaf.1 leaf.2) trivial
    rw [Member.text, Member.actions] at hfirst
    rw [List.map_cons, List.map_cons, parseLists, hfirst, pure_bind, ih, pure_bind]
    rfl

/-- **Values in braces are values one by one.** Where the braces of every group are closed where the group is, a path
with members in braces is parsed to the same actions as its values are, each with its whole path in front of it: they
set the paths to the strings, in order. -/
theorem braces_one_by_one (δ : Type) [Doubles δ] (env : Env) (path : PathText) (members : List Member)
    (h : (Member.group path members).Closed) (clock : Clock) :
    parseInternal (δ := δ) env [some (Member.group path members).text] clock =
        parseInternal env ((leavesOf path members).map fun leaf => some (valueText leaf.1 leaf.2)) clock ∧
      (leavesOf path members ≠ [] → parseInternal (δ := δ) env [some (Member.group path members).text] clock =
        .ok ((leavesOf path members).map fun leaf => setString δ leaf.1 leaf.2, clock)) := by
  have hsingle := parseInternal_texts (δ := δ) env (List.cons_ne_nil (Member.group path members).text [])
  rw [List.map_singleton, parseLists_single, parseList_member env h, pure_bind, Member.actions, ← leavesOf_actions]
    at hsingle
  by_cases hne : leavesOf path members = []
  · rw [hsingle, hne]
    exact ⟨rfl, fun hno => absurd rfl hno⟩
  · have htexts : ((leavesOf path members).map fun leaf => valueText leaf.1 leaf.2) ≠ [] := by
      rwa [ne_eq, List.map_eq_nil_iff]
    have harray := parseInternal_texts (δ := δ) env htexts
    rw [parseLists_leaves, pure_bind, List.map_map] at harray
    have hempty : ((leavesOf path members).map fun leaf => setString δ leaf.1 leaf.2).isEmpty = false := by
      rw [List.isEmpty_eq_false_iff, ne_eq, List.map_eq_nil_iff]
      exact hne
    rw [hsingle, hempty]
    refine ⟨?_, fun _ => rfl⟩
    change _ = parseInternal (δ := δ) env ((leavesOf path members).map (some ∘ fun leaf => valueText leaf.1 leaf.2)) clock
    rw [harray, hempty]

end

instance (c : UInt8) : Decidable (PathByte c) :=
  inferInstanceAs (Decidable (c ≠ 0 ∧ c ≠ chLBrace ∧ c ≠ chRBrace ∧ c ≠ 0x3d ∧ c ≠ chComma ∧ c ≠ chQuote ∧
    c ≠ 0x27 ∧ mutationSpace c = false))

def pathA : PathText := ⟨ascii "/a", ⟨_, _, rfl⟩, by decide +kernel⟩

def pathB : PathText := ⟨ascii "/b", ⟨_, _, rfl⟩, by decide +kernel⟩

/-- A value with separators and two braces that match. -/
def structured : Quoted := ⟨chQuote, ascii "\x7b,/c=1\n]\x7d", .inl rfl, by decide +kernel⟩

/-- A brace that nothing closes. -/
def openBrace : Quoted := ⟨chQuote, ascii "\x7b", .inl rfl, by decide +kernel⟩

/-- A value with separators in it, below two groups. -/
theorem braces_one_by_one_nested :
    parseInternal (δ := Unit) bareEnv [some (Member.group pathA [.group pathB [.value pathA structured]]).text] stillClock =
      .ok ([setString Unit ((pathA.append pathB).append pathA) structured], stillClock) :=
  (braces_one_by_one Unit bareEnv pathA [.group pathB [.value pathA structured]]
    ⟨by decide, ⟨by decide, trivial, trivial⟩, trivial⟩ stillClock).2 (List.cons_ne_nil _ _)

/-- A brace in quotes is counted as a brace, and none is left to close the group. -/
theorem quoted_brace_counted :
    (Member.group pathA [.value pathB openBrace]).text = ascii "/a\x7b/b=\"\x7b\"\x7d" ∧
      valueText (pathA.append pathB) openBrace = ascii "/a/b=\"\x7b\"" ∧
      actionsOf ["/a\x7b/b=\"\x7b\"\x7d"] = none ∧
      actionsOf ["/a/b=\"\x7b\""] = some [setString Unit (pathA.append pathB) openBrace] := by
  refine ⟨?_, ?_, ?_, ?_⟩ <;> decide +kernel

end Lql.Mutation
