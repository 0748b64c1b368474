import Lql.Scan.Match
import Lql.Scan.Read

/-!
# Following paths

Which terms are alive where. At the container of nesting depth `d` a term without
`...` waits for its segment `d`; a term that has reached a `...` is kept in
`recursive_active`, with the position of its `...` in a slot per depth and term. This
module holds the functions that test the segments of the live terms against an
object key or an array index, and that hand the live terms on to a nested
container.
-/

namespace Lql.Scan

open Lib

/-! ## Slots -/

/-- `lql_json_active_recursive_segment` -/
def activeRecursiveSegment (s : State) (t : Term) (i depth : Nat) : Option Nat :=
  if depth < maxDepth ∧ i < wordBits ∧ s.recursiveTermSegment depth i ≠ 0 then
    some (s.recursiveTermSegment depth i - 1)
  else firstRecursive t.pathRecursiveSegments

/-- `lql_json_active_path_segment` -/
def activePathSegment (s : State) (t : Term) (i depth fallback : Nat) : Nat :=
  if t.pathRecursiveSegments ≠ 0 ∧ i < wordBits ∧ depth < maxDepth ∧
      s.recursivePathSegment depth i ≠ 0 then
    s.recursivePathSegment depth i - 1
  else fallback

/-- Write one column of a table with a row per depth. -/
def setRow (f : Nat → Nat → Nat) (depth : Nat) (p : Nat → Bool) (g : Nat → Nat) : Nat → Nat → Nat :=
  fun d i => if d = depth && p i then g i else f d i

/-- The terms for which a test holds. -/
def termsWhere (ctx : Ctx) (p : Nat → Term → Bool) : Mask := maskOf ctx.n fun i => p i (ctx.term i)

/-- `scan->match_term_segment[i] = segment (i)` for the terms of a mask. -/
def setTermSegment (ctx : Ctx) (s : State) (terms : Mask) (segment : Nat → Nat) : State :=
  { s with m := { s.m with termSegment := updWhere ctx.n terms.has segment s.m.termSegment } }

/-- `scan->key_term_segment[i] = scan->match_term_segment[i]` for the terms of a mask. -/
def setKeySegment (ctx : Ctx) (s : State) (terms : Mask) : State :=
  { s with keyTermSegment := updWhere ctx.n terms.has s.m.termSegment s.keyTermSegment }

/-! ## Starting a key -/

/-- `lql_json_match_start_key` -/
def matchStartKey (ctx : Ctx) (s : State) (ordinary recursive : Mask) (pathSegment : Nat) : State :=
  let m := matchStart ctx s.m (ordinary ||| recursive) true pathSegment
  let segment := fun i =>
    if ordinary.has i then activePathSegment s (ctx.term i) i pathSegment pathSegment
    else if recursive.has i then
      match activeRecursiveSegment s (ctx.term i) i pathSegment with
      | some r => nextRecursivePathSegment (ctx.term i) r
      | none => m.termSegment i
    else m.termSegment i
  { s with m := { m with termSegment := updWhere ctx.n (fun _ => true) segment m.termSegment } }

/-! ## Terms whose value is here -/

/-- `lql_json_match_terms_for_kind` -/
def matchTermsForKind (ctx : Ctx) (s : State) (keys : Mask) (kind : TermKind) : Mask :=
  termsWhere ctx fun i t => keys.has i && termValueAt t (s.keyTermSegment i) && t.kind = kind

/-- `lql_json_match_exists` -/
def matchExists (ctx : Ctx) (s : State) (keys : Mask) : Mask := matchTermsForKind ctx s keys .exist

/-- `lql_json_match_valueless_present` -/
def matchValuelessPresent (ctx : Ctx) (s : State) (keys : Mask) : Mask :=
  let keys := keys &&& ctx.valuelessPresentTerms
  if keys = 0 then 0 else matchTermsForKind ctx s keys .valuelessPresent

/-- The kinds that compare the text of any scalar but `null`. -/
def TermKind.isTextual (k : TermKind) : Bool :=
  k = .pfx || k = .contains || k = .icontains || k = .ipfx

/-- The kinds that compare a string value, dates apart. -/
def TermKind.isString (k : TermKind) : Bool := k = .eq || k = .textEq || k.isTextual

/-- `lql_json_match_textual_value_terms` -/
def matchTextualValueTerms (ctx : Ctx) (keys : Mask) (segments : Nat → Nat) : Mask :=
  termsWhere ctx fun i t => keys.has i && termValueAt t (segments i) && t.kind.isTextual

/-- `lql_json_scalar_literal_hits` -/
def scalarLiteralHits (ctx : Ctx) (terms : Mask) (literal : Bytes) : Mask :=
  termsWhere ctx fun i t => terms.has i && t.value = literal

/-- `lql_json_match_descendants` -/
def matchDescendants (ctx : Ctx) (s : State) (keys : Mask) : Mask :=
  termsWhere ctx fun i t =>
    keys.has i &&
      !(termValueAt t (s.keyTermSegment i) && !termTerminalRecursiveAnchor t (s.keyTermSegment i)) &&
      (termPathSegment t (s.keyTermSegment i + 1)).isSome

/-! ## Object keys -/

/-- `lql_json_match_object_terms` -/
def matchObjectTerms (ctx : Ctx) (s : State) (active : Mask) (pathSegment : Nat) : Mask :=
  termsWhere ctx fun i t =>
    let segment := activePathSegment s t i pathSegment pathSegment
    active.has i && (segment ≥ wordBits ||
      !(t.pathObjectWildcards ||| t.pathArrayWildcards ||| t.pathAnyWildcards |||
        t.pathRecursiveSegments).has segment)

/-- `lql_json_match_recursive_terms` -/
def matchRecursiveTerms (ctx : Ctx) (s : State) (active : Mask) (pathSegment : Nat) :
    State × Mask :=
  if pathSegment ≥ wordBits then (s, 0)
  else
    let found := termsWhere ctx fun i t => active.has i && t.pathRecursiveSegments.has pathSegment
    ({ s with recursiveTermSegment :=
        setRow s.recursiveTermSegment pathSegment found.has fun _ => pathSegment + 1 }, found)

/-- `lql_json_match_terminal_recursive_terms` -/
def matchTerminalRecursiveTerms (ctx : Ctx) (s : State) (active : Mask) (pathSegment : Nat) :
    State × Mask :=
  let active := active &&& ctx.terminalRecursiveTerms
  if active = 0 then (s, 0)
  else
    let found := termsWhere ctx fun i t =>
      active.has i && (List.range wordBits).any fun segment =>
        t.pathRecursiveSegments.has segment && t.pathSegmentCount = segment + 1 &&
          pathSegment ≥ segment
    (setTermSegment ctx s found fun _ => pathSegment, found)

/-- `lql_json_match_root_terminal_recursive_exists` -/
def matchRootTerminalRecursiveExists (ctx : Ctx) (s : State) : State × Mask :=
  let (s, found) := matchTerminalRecursiveTerms ctx s ctx.terminalRecursiveRootExistsTerms 0
  let s := setKeySegment ctx s found
  (s, matchExists ctx s found ||| matchValuelessPresent ctx s found)

/-- `lql_json_match_terminal_recursive_anchor_terms` -/
def matchTerminalRecursiveAnchorTerms (ctx : Ctx) (s : State) (active : Mask) (pathSegment : Nat) :
    State × Mask :=
  let found := termsWhere ctx fun i t =>
    active.has i && t.pathRecursiveSegments &&& (t.pathRecursiveSegments - 1) ≠ 0 &&
      termTerminalRecursiveAnchor t pathSegment
  (setTermSegment ctx s found fun _ => pathSegment, found)

/-- `lql_json_match_object_wildcards` -/
def matchObjectWildcards (ctx : Ctx) (s : State) (active : Mask) (pathSegment : Nat) :
    State × Mask :=
  if pathSegment ≥ wordBits then (s, 0)
  else
    let segment := fun i => activePathSegment s (ctx.term i) i pathSegment pathSegment
    let found := termsWhere ctx fun i t =>
      active.has i && segment i < wordBits &&
        (t.pathObjectWildcards ||| t.pathAnyWildcards).has (segment i)
    (setTermSegment ctx s found segment, found)

/-- `lql_json_match_recursive_object_wildcards`; the segment is set only where the
second test decides. -/
def matchRecursiveObjectWildcards (ctx : Ctx) (s : State) (recursiveTerms : Mask)
    (objectDepth : Nat) : State × Mask :=
  let atEnd := termsWhere ctx fun i t =>
    recursiveTerms.has i &&
      match activeRecursiveSegment s t i objectDepth with
      | none => false
      | some r => t.pathSegmentCount ≤ nextRecursivePathSegment t r && objectDepth ≥ r
  let segment := fun i =>
    match activeRecursiveSegment s (ctx.term i) i objectDepth with
    | none => 0
    | some r =>
      activePathSegment s (ctx.term i) i objectDepth (nextRecursivePathSegment (ctx.term i) r)
  let found := termsWhere ctx fun i t =>
    recursiveTerms.has i && !atEnd.has i && (activeRecursiveSegment s t i objectDepth).isSome &&
      segment i < wordBits &&
      (t.pathObjectWildcards ||| t.pathAnyWildcards ||| t.pathRecursiveSegments).has (segment i)
  (setTermSegment ctx s found segment, atEnd ||| found)

/-- What `lql_json_try_plain_key_match` finds out about one term. -/
structure KeyStep where
  ordinary : Bool := false
  recursive : Bool := false
  segment : Nat
  recursiveSegment : Nat := 0

/-- The round of one active term in the second loop of
`lql_json_try_plain_key_match`. -/
def plainKeyStep (ctx : Ctx) (s : State) (ordinary recursive : Mask) (objectDepth : Nat)
    (key : Bytes) (i : Nat) : KeyStep :=
  let t := ctx.term i
  let segment := activePathSegment s t i objectDepth objectDepth
  let k : KeyStep :=
    if ordinary.has i && termSegmentMatchesObjectKey t segment key then
      { ordinary := true, segment }
    else { segment := s.m.termSegment i }
  let last (segment : Nat) : KeyStep :=
    if termSegmentMatchesObjectKey t segment key then { k with ordinary := true, segment } else k
  let descend (segment : Nat) : KeyStep :=
    { k with
      recursive := true
      recursiveSegment := segment
      segment := if k.ordinary then k.segment else segment }
  if recursive.has i then
    match activeRecursiveSegment s t i objectDepth with
    | none => k
    | some r =>
      let next := nextRecursivePathSegment t r
      if t.pathSegmentCount ≤ next ∧ objectDepth ≥ r then descend objectDepth
      else if termSegmentMatchesObjectKey t next key then descend next
      else
        let segment := activePathSegment s t i objectDepth next
        if segment = next then k else last segment
  else last objectDepth

/-- The round of one active term in the first loop: at the root, with no `...`
around. -/
def rootKeyStep (ctx : Ctx) (s : State) (key : Bytes) (i : Nat) : KeyStep :=
  if plainSegmentEqual (ctx.term i).field (ctx.term i).fieldPlain key then
    { ordinary := true, segment := 0 }
  else { segment := s.m.termSegment i }

/-- What the key phase of `lql_json_object` hands on. -/
structure KeyMatch where
  matched : Mask
  ordinary : Mask := 0
  recursive : Mask := 0
  recursiveSegments : Nat → Nat := fun _ => 0

/-- The key of `lql_json_try_plain_key_match`: the bytes between two quotes, when the
whole key is plain and lies in the buffer. -/
def plainKey (buffer : Bytes) : Option Bytes :=
  match buffer with
  | [] => none
  | c :: rest =>
    if c ≠ chQuote then none
    else
      let len := plainKeySpan rest
      if rest[len]? = some chQuote then some (rest.take len) else none

/-- `lql_json_try_plain_key_match` -/
def tryPlainKeyMatch (ctx : Ctx) (s : State) (ordinary recursive : Mask) (objectDepth : Nat) :
    Option (State × KeyMatch) :=
  match plainKey s.tape.input.buffer with
  | none => none
  | some key =>
    let active := ordinary ||| recursive
    let step : Nat → KeyStep :=
      if recursive = 0 ∧ objectDepth = 0 then rootKeyStep ctx s key
      else plainKeyStep ctx s ordinary recursive objectDepth key
    let found (p : KeyStep → Bool) : Mask := maskOf ctx.n fun i => active.has i && p (step i)
    let matched := found fun k => k.ordinary || k.recursive
    let s := setTermSegment ctx s matched fun i => (step i).segment
    some ({ s with tape := { s.tape with input := s.tape.input.skip (key.length + 2) } },
      { matched := matched
        ordinary := found (·.ordinary)
        recursive := found (·.recursive)
        recursiveSegments := fun i => (step i).recursiveSegment })

/-- The two loops of `lql_json_object` between a key and a nested container: where
both the ordinary and the `...` segment have matched, go on from the latter. -/
def reconcile (ctx : Ctx) (s : State) (k : KeyMatch) (recursiveTerms : Mask) (objectDepth : Nat) :
    State :=
  let both := k.ordinary &&& k.recursive
  let first := termsWhere ctx fun i t => both.has i && !termValueAt t (k.recursiveSegments i)
  let s := setTermSegment ctx s first k.recursiveSegments
  let s := setKeySegment ctx s first
  if recursiveTerms = 0 then s
  else
    let next := fun i =>
      match activeRecursiveSegment s (ctx.term i) i objectDepth with
      | none => 0
      | some r => nextRecursivePathSegment (ctx.term i) r
    let second := termsWhere ctx fun i t =>
      k.matched.has i && recursiveTerms.has i &&
        (activeRecursiveSegment s t i objectDepth).isSome &&
        !(next i ≥ t.pathSegmentCount || next i = s.keyTermSegment i || termValueAt t (next i) ||
          !pathSegmentsEqual t (s.keyTermSegment i) (next i))
    setKeySegment ctx (setTermSegment ctx s second next) second

/-- `lql_json_carry_recursive_segments` -/
def carryRecursiveSegments (ctx : Ctx) (s : State) (parentDepth childDepth : Nat)
    (recursiveTerms matchedTerms : Mask) : State :=
  if parentDepth ≥ maxDepth ∨ childDepth ≥ maxDepth then s
  else
    let pathSlot := fun i =>
      let t := ctx.term i
      if !recursiveTerms.has i then 0
      else if matchedTerms.has i && s.keyTermSegment i + 1 < t.pathSegmentCount then
        s.keyTermSegment i + 2
      else 0
    let slot := fun i =>
      let t := ctx.term i
      if !recursiveTerms.has i then 0
      else if matchedTerms.has i && s.keyTermSegment i < wordBits &&
          t.pathRecursiveSegments.has (s.keyTermSegment i) then s.keyTermSegment i + 1
      else if s.recursiveTermSegment parentDepth i ≠ 0 then s.recursiveTermSegment parentDepth i
      else
        match firstRecursive t.pathRecursiveSegments with
        | some r => r + 1
        | none => 0
    { s with
      recursivePathSegment := setRow s.recursivePathSegment childDepth (fun i => i < ctx.n) pathSlot
      recursiveTermSegment := setRow s.recursiveTermSegment childDepth (fun i => i < ctx.n) slot }

/-! ## Array elements -/

/-- `lql_json_match_array_index` -/
def matchArrayIndex (ctx : Ctx) (s : State) (active : Mask) (pathSegment index : Nat) :
    State × Mask :=
  let segment := fun i => activePathSegment s (ctx.term i) i pathSegment pathSegment
  let found := termsWhere ctx fun i t =>
    active.has i && segment i < wordBits &&
      ((t.pathArrayWildcards ||| t.pathAnyWildcards).has (segment i) ||
        (t.pathArraySegments.has (segment i) && termArrayIndex t (segment i) = some index))
  (setTermSegment ctx s found segment, found)

/-- `lql_json_match_recursive_array_terms` -/
def matchRecursiveArrayTerms (ctx : Ctx) (s : State) (recursiveTerms : Mask)
    (arraySegment index : Nat) : State × Mask :=
  let atEnd := termsWhere ctx fun i t =>
    recursiveTerms.has i &&
      match activeRecursiveSegment s t i arraySegment with
      | none => false
      | some r => t.pathSegmentCount ≤ nextRecursivePathSegment t r && arraySegment ≥ r
  let segment := fun i =>
    match activeRecursiveSegment s (ctx.term i) i arraySegment with
    | none => 0
    | some r =>
      activePathSegment s (ctx.term i) i arraySegment (nextRecursivePathSegment (ctx.term i) r)
  let found := termsWhere ctx fun i t =>
    recursiveTerms.has i && !atEnd.has i && (activeRecursiveSegment s t i arraySegment).isSome &&
      segment i < wordBits &&
      if (t.pathArrayWildcards ||| t.pathAnyWildcards ||| t.pathRecursiveSegments).has (segment i)
      then true
      else
        t.pathArraySegments.has (segment i) && termArrayIndex t (segment i) = some index &&
          !(segment i + 1 < wordBits &&
            (t.pathObjectWildcards ||| t.pathAnyWildcards).has (segment i + 1))
  (setTermSegment ctx s found segment, atEnd ||| found)

end Lql.Scan
