import Lql.Selector.Text

/-!
# Clauses and groups

The clauses of a text are put into groups. `and.` and `or.` with a number put a clause into the group of that
number, at any depth; without a number they wrap one clause, as `not.` does. When all clauses are in, the groups
become a selector.
-/

namespace Lql.Selector

open Temporal (cstr)

/-- The wrappers that a group can have. -/
inductive Join where
  | and
  | or
  deriving DecidableEq, Repr

/-- The wrappers that one clause can have. -/
inductive Wrapper where
  | and
  | or
  | not
  deriving DecidableEq, Repr

def Wrapper.kind : Wrapper → SelectorKind
  | .and => .and
  | .or => .or
  | .not => .not

/-- `strncmp(token, name, strlen(name)) == 0`: what stands behind the name. -/
def stripName (name : String) (token : Bytes) : Option Bytes :=
  if (ascii name).isPrefixOf token then some (token.drop name.length) else none

/-- `parse_simple_wrapper` -/
def parseSimpleWrapper (token : Bytes) : Option (Wrapper × Bytes) :=
  match stripName "and." token with
  | some rest => some (.and, rest)
  | none =>
    match stripName "or." token with
    | some rest => some (.or, rest)
    | none =>
      match stripName "not." token with
      | some rest => some (.not, rest)
      | none => none

/-- The number and the dot of an indexed wrapper. -/
def parseIndex (p : Bytes) : Option (Bytes × Bytes) :=
  match p.dropWhile isDigit with
  | [] => none
  | c :: rest => if p.takeWhile isDigit = [] || c ≠ chDot then none else some (p.takeWhile isDigit, rest)

/-- `parse_indexed_wrapper` -/
def parseIndexedWrapper (token : Bytes) : Option (Join × Bytes × Bytes) :=
  match stripName "and." token with
  | some p => (parseIndex p).map fun r => (.and, r)
  | none =>
    match stripName "or." token with
    | some p => (parseIndex p).map fun r => (.or, r)
    | none => none

theorem stripName_length {name : String} {token rest : Bytes} (h : stripName name token = some rest)
    (hn : 0 < name.length) : rest.length < token.length := by
  rw [stripName] at h
  split at h
  · next hp =>
    cases h
    have hlen := (List.isPrefixOf_iff_prefix.mp hp).length_le
    rw [ascii, List.length_map, String.length_toList] at hlen
    rw [List.length_drop]
    omega
  · cases h

theorem parseSimpleWrapper_length {token rest : Bytes} {w : Wrapper}
    (h : parseSimpleWrapper token = some (w, rest)) : rest.length < token.length := by
  rw [parseSimpleWrapper] at h
  split at h
  · next hs =>
    cases h
    exact stripName_length hs (by decide)
  split at h
  · next hs =>
    cases h
    exact stripName_length hs (by decide)
  split at h
  · next hs =>
    cases h
    exact stripName_length hs (by decide)
  · cases h

theorem parseIndex_length {p index rest : Bytes} (h : parseIndex p = some (index, rest)) : rest.length < p.length := by
  rw [parseIndex] at h
  split at h
  · cases h
  · next c tail hd =>
    split at h
    · cases h
    · cases h
      have := (List.dropWhile_suffix isDigit (l := p)).length_le
      rw [hd, List.length_cons] at this
      exact this

theorem parseIndexedWrapper_length {token index rest : Bytes} {w : Join}
    (h : parseIndexedWrapper token = some (w, index, rest)) : rest.length < token.length := by
  rw [parseIndexedWrapper] at h
  split at h
  · next p hs =>
    obtain ⟨⟨i, r⟩, hi, he⟩ := Option.map_eq_some_iff.mp h
    cases he
    exact Nat.lt_trans (parseIndex_length hi) (stripName_length hs (by decide))
  split at h
  · next p hs =>
    obtain ⟨⟨i, r⟩, hi, he⟩ := Option.map_eq_some_iff.mp h
    cases he
    exact Nat.lt_trans (parseIndex_length hi) (stripName_length hs (by decide))
  · cases h

/-- `parse_one` -/
def parseOne (expr : Bytes) : Except Err Selector :=
  if expr = ascii "/" || expr = ascii "." || expr = ascii "\x7b\x7d" then .ok (.leaf .all {})
  else
    match _h : parseSimpleWrapper expr with
    | some (w, rest) => do
      let child ← parseOne rest
      .ok (.node w.kind {} [child])
    | none => parsePredicate expr
termination_by expr.length
decreasing_by exact parseSimpleWrapper_length ‹_›

/-- `token_contains_indexed_wrapper` -/
def tokenContainsIndexedWrapper (token : Bytes) : Bool :=
  match parseIndexedWrapper token with
  | some _ => true
  | none =>
    match _h : parseSimpleWrapper token with
    | some (_, rest) => tokenContainsIndexedWrapper rest
    | none => false
termination_by token.length
decreasing_by exact parseSimpleWrapper_length ‹_›

/-! ## Groups -/

/-- `indexed_group` -/
structure IndexedGroup where
  indexed : Bool
  wrapper : Join
  index : Bytes
  selector : Selector
  orGroup : Selector
  groups : List IndexedGroup

/-- A group that `ensure_indexed_group` has just made. -/
def IndexedGroup.indexedNew (wrapper : Join) (index : Bytes) : IndexedGroup :=
  { indexed := true, wrapper, index, selector := .leaf .and {}, orGroup := .leaf .all {}, groups := [] }

/-- A group from `calloc`, for the clauses of a text or for one wrapped clause. -/
def IndexedGroup.plainNew (kind : SelectorKind) : IndexedGroup :=
  { indexed := false, wrapper := .and, index := [], selector := .leaf kind {}, orGroup := .leaf .all {}, groups := [] }

/-- `selector_conflicts_with_child` -/
def selectorConflictsWithChild (selector child : Selector) : Bool :=
  (child.isPredicate || child.kind = .not) && selector.children.any (·.kind = child.kind)

/-- `if (group->or_group.kind == LQL_SELECTOR_KIND_ALL) group->or_group.kind = LQL_SELECTOR_KIND_OR` -/
def orGroupKind : Selector → Selector
  | .node kind payload children => .node (if kind = .all then .or else kind) payload children

/-- `append_plain_group_node` -/
def appendPlainGroupNode (group : IndexedGroup) (child : Selector) : Except Err IndexedGroup :=
  match child with
  | .node .or _ [inner] =>
    if group.indexed && selectorConflictsWithChild (orGroupKind group.orGroup) inner then
      parseError "selector expression has conflicting indexed clauses"
    else .ok { group with orGroup := (orGroupKind group.orGroup).append inner }
  | child =>
    if group.indexed && selectorConflictsWithChild group.selector child then
      parseError "selector expression has conflicting indexed clauses"
    else .ok { group with selector := group.selector.append child }

/-- `append_finalized_indexed_selector` -/
def appendFinalizedIndexedSelector (parent child : Selector) : Selector :=
  match child with
  | .node .and _ [inner] => parent.append inner
  | child => parent.append child

mutual

/-- `finalize_indexed_group`: the selector that the group ends as. -/
def finalizeIndexedGroup (rootOrMode : Bool) : IndexedGroup → Selector
  | { indexed, wrapper := _, index := _, selector, orGroup, groups } =>
    let (selector, orGroup) := finalizeGroups rootOrMode indexed groups selector (orGroupKind orGroup)
    if orGroup.children.length ≠ 0 then
      -- without other clauses the disjunction takes the group's place
      if !indexed && selector.kind = .and && selector.children.length = 0 then orGroup
      else selector.append orGroup
    else selector

/-- The loop of `finalize_indexed_group` over the groups below. -/
def finalizeGroups (rootOrMode indexed : Bool) : List IndexedGroup → Selector → Selector → Selector × Selector
  | [], selector, orGroup => (selector, orGroup)
  | group :: rest, selector, orGroup =>
    let child := finalizeIndexedGroup false group
    if !rootOrMode && group.wrapper = .or then
      finalizeGroups rootOrMode indexed rest selector (appendFinalizedIndexedSelector orGroup child)
    else if !indexed && group.wrapper = .and then
      finalizeGroups rootOrMode indexed rest (appendFinalizedIndexedSelector selector child) orGroup
    else finalizeGroups rootOrMode indexed rest (selector.append child) orGroup

end

/-- `ensure_indexed_group` and what is then done with the group it finds or makes. -/
def ensureIndexedGroup (wrapper : Join) (index : Bytes) (append : IndexedGroup → Except Err IndexedGroup) :
    List IndexedGroup → Except Err (List IndexedGroup)
  | [] => do
    let group ← append (.indexedNew wrapper index)
    .ok [group]
  | group :: rest =>
    if group.wrapper = wrapper && group.index = index then do
      let group ← append group
      .ok (group :: rest)
    else do
      let rest ← ensureIndexedGroup wrapper index append rest
      .ok (group :: rest)

/-- `append_token_to_group` -/
def appendTokenToGroup (group : IndexedGroup) (token : Bytes) : Except Err IndexedGroup :=
  match _h : parseIndexedWrapper token with
  | some (wrapper, index, rest) => do
    let groups ← ensureIndexedGroup wrapper index (appendTokenToGroup · rest) group.groups
    .ok { group with groups }
  | none =>
    match _h : parseSimpleWrapper token with
    | some (wrapper, rest) => do
      let wrapped ← appendTokenToGroup (.plainNew wrapper.kind) rest
      appendPlainGroupNode group (finalizeIndexedGroup (wrapper = .or) wrapped)
    | none => do
      let child ← parseOne token
      appendPlainGroupNode group child
termination_by token.length
decreasing_by
  · exact parseIndexedWrapper_length ‹_›
  · exact parseSimpleWrapper_length ‹_›

/-- `parse_group_tokens` -/
def parseGroupTokens (tokens : List Bytes) (orMode : Bool) : Except Err Selector := do
  let group ← tokens.foldlM appendTokenToGroup (.plainNew (if orMode then .or else .and))
  .ok (finalizeIndexedGroup orMode group)

/-- What `lql_parse_selector_internal` makes of the clauses. -/
def parseTokens (tokens : List Bytes) (orMode : Bool) : Except Err Selector :=
  match tokens with
  | [] => .ok (.leaf .all {})
  | [token] =>
    if (parseIndexedWrapper token).isSome || tokenContainsIndexedWrapper token then parseGroupTokens [token] orMode
    else parseOne token
  | tokens => parseGroupTokens tokens orMode

/-- `lql_parse_selector_internal`; no text is a null pointer. -/
def parseSelectorInternal (expr : Option Bytes) (orMode : Bool) : Except Err Selector :=
  match expr.map cstr with
  | none => .ok (.leaf .all {})
  | some [] => .ok (.leaf .all {})
  | some text => do
    let tokens ← splitTop text
    parseTokens tokens orMode

end Lql.Selector
