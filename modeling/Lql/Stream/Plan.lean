import Lql.Scan.State
import Lql.Scan.NumberRange
import Lql.Selector.Node

/-!
# The plan of a stream

A selector is compiled into the terms of one scan. The plan remembers for each term the node it was made for; a
record is decided by the tree and by the terms that were hit.
-/

namespace Lql.Stream

open Lib Scan Selector
open Selector (Selector)

/-- The way from the root of a selector to one of its nodes; it stands for the address of the node. -/
abbrev Address := List Nat

/-- `lql_flat_eq_time_bounds`: each bound where it is ready. -/
structure TimeBounds where
  now : Option Temporal.Temporal
  today : Option Temporal.Temporal
  yesterday : Option Temporal.Temporal

/-- `lql_flat_eq_program`: its terms, and the node of each; once they are built, the terms that a wide plan scans for,
and the place of each term among them. -/
structure Program where
  terms : List Term := []
  selectors : List Address := []
  scanTerms : List Term := []
  termSources : Option (List Nat) := none

/-- A term for the node at `a`. -/
def Program.push (program : Program) (a : Address) (t : Term) : Program :=
  { program with terms := program.terms ++ [t], selectors := program.selectors ++ [a] }

/-- `lql_flat_eq_literal_kind` -/
def flatEqLiteralKind : LiteralKind → TermKind
  | .string => .eq
  | .number => .numberEq
  | .bool => .boolEq
  | .null => .nullEq

/-- `lql_flat_eq_lower_value` -/
def flatEqLowerValue (value : Bytes) : Option Bytes :=
  if value.length > (sizeMax - 1) / 2 then none else Unicode.utf8Lower value

/-! ## Terms -/

/-- The term that the loop of `lql_flat_eq_append_contains` makes of one needle. -/
def flatEqContainsTerm (path : Term) (ignoreCase : Bool) (value : Bytes) : Option Term :=
  if ignoreCase then
    (flatEqLowerValue value).map fun lowered =>
      { path with kind := .icontains, value := lowered, containsFailure := containsFailure lowered }
  else some { path with kind := .contains, value, containsFailure := containsFailure value }

/-- The loop of `lql_flat_eq_append_contains` over `any`. -/
def flatEqAppendContainsAny (a : Address) (path : Term) (ignoreCase : Bool) : List AnyValue → Program → Option Program
  | [], program => some program
  | item :: rest, program =>
    if item.kind ≠ .string then none
    else
      match flatEqContainsTerm path ignoreCase item.text with
      | none => none
      | some t => flatEqAppendContainsAny a path ignoreCase rest (program.push a t)

/-- `lql_flat_eq_append_contains` -/
def flatEqAppendContains (program : Program) (a : Address) (p : Payload) (path : Term) (ignoreCase : Bool) :
    Option Program :=
  if p.anyValues ≠ [] then flatEqAppendContainsAny a path ignoreCase p.anyValues program
  else if !p.valueSet then some (program.push a { path with kind := .valuelessPresent })
  else if p.valueIsTemporal || p.valueKind ≠ .string then none
  else p.value.bind fun value => (flatEqContainsTerm path ignoreCase value).map (program.push a)

/-- The loop of `lql_flat_eq_append` over the values of an `in`. -/
def flatEqAppendIn (a : Address) (path : Term) : List AnyValue → Program → Program
  | [], program => program
  | item :: rest, program =>
    flatEqAppendIn a path rest (program.push a { path with kind := flatEqLiteralKind item.kind, value := item.text })

/-- One numeric bound of a range term. -/
def flatEqBound (p : Payload) (key : BoundKey) : Option Bound :=
  (p.hasRange.get key).map fun _ =>
    let text := (p.rangeTexts.get key).getD []
    { text, unsigned := parseUnsignedIntegerToken text }

/-- The dates of a selector on the term of its path. -/
def flatEqDates (p : Payload) (path : Term) : Term :=
  { path with
    kind := .temporalRange
    temporalEq := p.temporalEq
    temporalGt := p.temporal.gt
    temporalGte := p.temporal.gte
    temporalLt := p.temporal.lt
    temporalLte := p.temporal.lte }

/-- The branch of `lql_flat_eq_append` for `range`. -/
def flatEqRangeTerm (p : Payload) (path : Term) : Term :=
  { flatEqDates p path with
    kind := if p.rangeIsTemporal then .temporalRange else .numberRange
    rangeGt := flatEqBound p .gt
    rangeGte := flatEqBound p .gte
    rangeLt := flatEqBound p .lt
    rangeLte := flatEqBound p .lte }

/-- The branch of `lql_flat_eq_append` for `date`. -/
def flatEqDateTerm (bounds : Option TimeBounds) (p : Payload) (path : Term) : Option Term :=
  let since (bound : TimeBounds → Option Temporal.Temporal) : Option Term :=
    (bounds.bind bound).map fun value => { flatEqDates p path with temporalGte := some value }
  match p.sinceMacro with
  | .none => some (flatEqDates p path)
  | .now => since TimeBounds.now
  | .today => since TimeBounds.today
  | .yesterday => since TimeBounds.yesterday

/-- The last branch of `lql_flat_eq_append`: `eq`, `ne`, `exists`, `prefix` and `iprefix`. -/
def flatEqScalarTerm (kind : SelectorKind) (p : Payload) (path : Term) : Option Term :=
  let isEq := kind = .eq || kind = .ne
  if kind = .exist then some { path with kind := .exist }
  else if !p.valueSet then
    -- without a value `eq` compares with the empty string, the others ask whether the path is there
    if isEq && p.valueIsTemporal then some { path with kind := .temporalRange, temporalEq := p.temporalEq }
    else if isEq then some { path with kind := flatEqLiteralKind p.valueKind }
    else some { path with kind := .valuelessPresent, value := p.value.getD [] }
  else if isEq && p.valueIsTemporal then
    p.value.map fun value => { path with kind := .temporalRange, temporalEq := p.temporalEq, value }
  else if p.valueIsTemporal then none
  else if isEq then p.value.map fun value => { path with kind := flatEqLiteralKind p.valueKind, value }
  else if p.valueKind ≠ .string then none
  else if kind = .ipfx || p.ignoreCase then
    (p.value.bind flatEqLowerValue).map fun value => { path with kind := .ipfx, value }
  else p.value.map fun value => { path with kind := .pfx, value }

/-- `lql_flat_eq_append` on a predicate. -/
def flatEqAppendPredicate (bounds : Option TimeBounds) (program : Program) (a : Address) (kind : SelectorKind)
    (p : Payload) : Option Program :=
  (p.field.bind compilePath).bind fun path =>
    match kind with
    | .isIn => if p.anyValues = [] then none else some (flatEqAppendIn a path p.anyValues program)
    | .contains => flatEqAppendContains program a p path p.ignoreCase
    | .icontains => flatEqAppendContains program a p path true
    | .range => some (program.push a (flatEqRangeTerm p path))
    | .date => (flatEqDateTerm bounds p path).map (program.push a)
    | kind => (flatEqScalarTerm kind p path).map (program.push a)

mutual

/-- `lql_flat_eq_append` -/
def flatEqAppend (bounds : Option TimeBounds) (program : Program) (a : Address) : Selector → Option Program
  | .node .all _ _ => some program
  | .node .and _ children => flatEqAppendChildren bounds program a 0 children
  | .node .or _ children => flatEqAppendChildren bounds program a 0 children
  | .node .not _ children =>
    (flatEqAppendChildren bounds program a 0 children).bind fun program =>
      if children.length = 1 then some program else none
  | .node kind p _ => flatEqAppendPredicate bounds program a kind p

/-- The loop of `lql_flat_eq_append` over the children, from child `i` on. -/
def flatEqAppendChildren (bounds : Option TimeBounds) (program : Program) (a : Address) (i : Nat) :
    List Selector → Option Program
  | [] => some program
  | child :: rest =>
    match flatEqAppend bounds program (a ++ [i]) child with
    | none => none
    | some program => flatEqAppendChildren bounds program a (i + 1) rest

end

/-- The plan of a selector. -/
def plan (bounds : Option TimeBounds) (s : Selector) : Option Program := flatEqAppend bounds {} [] s

/-! ## Decisions -/

/-- `&hits`: the hits of a plan that fits into one word. -/
def oneWord (hits : Mask) : Nat → Mask := fun k => if k = 0 then hits else 0

/-- `lql_flat_eq_hit` -/
def flatEqHit (hits : Nat → Mask) (index : Nat) : Bool := (hits (index / wordBits)).has (index % wordBits)

/-- `program->term_sources == NULL ? i : program->term_sources[i]` -/
def Program.source (program : Program) (i : Nat) : Nat :=
  match program.termSources with
  | none => i
  | some sources => sources.getD i 0

section Decisions

variable (program : Program) (hits : Nat → Mask)

/-- `lql_flat_eq_selector_group_find`: where the terms of a node begin, and how many it has. -/
def Program.group (a : Address) : Option (Nat × Nat) :=
  if a ∈ program.selectors then some (program.selectors.idxOf a, program.selectors.count a) else none

/-- `lql_flat_eq_matches` on a predicate. -/
def flatEqMatchesPredicate (kind : SelectorKind) (a : Address) : Bool :=
  match program.group a with
  | none => kind = .ne
  | some (first, count) =>
    let hit := (List.range count).any fun k => flatEqHit hits (program.source (first + k))
    if kind = .ne then !hit else hit

mutual

/-- `lql_flat_eq_matches_record` -/
def flatEqMatchesRecord (rootIsObject : Bool) (a : Address) : Selector → Bool
  | .node .all _ _ => true
  | .node .and _ children => flatEqMatchesAll rootIsObject a 0 children
  | .node .or _ children => flatEqMatchesAny rootIsObject a 0 children
  | .node .not _ children => flatEqMatchesNot rootIsObject a children
  | .node kind _ _ => if !rootIsObject && kind = .ne then false else flatEqMatchesPredicate program hits kind a

def flatEqMatchesAll (rootIsObject : Bool) (a : Address) (i : Nat) : List Selector → Bool
  | [] => true
  | child :: rest =>
    if !flatEqMatchesRecord rootIsObject (a ++ [i]) child then false
    else flatEqMatchesAll rootIsObject a (i + 1) rest

def flatEqMatchesAny (rootIsObject : Bool) (a : Address) (i : Nat) : List Selector → Bool
  | [] => false
  | child :: rest =>
    if flatEqMatchesRecord rootIsObject (a ++ [i]) child then true
    else flatEqMatchesAny rootIsObject a (i + 1) rest

def flatEqMatchesNot (rootIsObject : Bool) (a : Address) : List Selector → Bool
  | [child] => !flatEqMatchesRecord rootIsObject (a ++ [0]) child
  | _ => false

end

end Decisions

/-! ## Stopping early -/

/-- `lql_flat_eq_leaf_stop_mask`: the one term of a node. -/
def flatEqLeafStopMask (program : Program) (a : Address) : Mask :=
  match (List.range program.terms.length).filter fun i => program.selectors[i]? = some a with
  | [i] => bit i
  | _ => 0

mutual

/-- `lql_flat_eq_stop_mask` -/
def flatEqStopMask (program : Program) (a : Address) : Selector → Mask
  | .node .and _ children => flatEqStopMasks program a 0 0 children
  | .node .eq _ _ | .node .exist _ _ | .node .pfx _ _ | .node .ipfx _ _ | .node .contains _ _
  | .node .icontains _ _ | .node .range _ _ | .node .date _ _ => flatEqLeafStopMask program a
  | _ => 0

/-- The loop of `lql_flat_eq_stop_mask` over the children, from child `i` on. -/
def flatEqStopMasks (program : Program) (a : Address) (mask : Mask) (i : Nat) : List Selector → Mask
  | [] => mask
  | child :: rest =>
    let stop := flatEqStopMask program (a ++ [i]) child
    if stop = 0 then 0 else flatEqStopMasks program a (mask ||| stop) (i + 1) rest

end

/-- The scan that `lql_stream_apply_flat_eq` sets up. A plan whose terms and captures fit into a word is scanned for
all of them at once, and may stop early; `wide` is what a wider one is scanned for, which has no stop mask. -/
def flatEqScan (program : Program) (s : Selector) (capture : Bool) (keys : List (List Bytes))
    (wide : List Term × List (List Bytes)) : Ctx :=
  let batched := program.terms.length > wordBits || keys.length > wordBits
  { terms := if batched then wide.1 else program.terms
    capture
    stopMatchingOnHit := !batched && flatEqStopMask program [] s ≠ 0
    stopHitMask := if batched then 0 else flatEqStopMask program [] s
    captureKeys := if batched then wide.2 else keys }

end Lql.Stream
