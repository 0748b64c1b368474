import Lql.Scan.KeySpec
import Lql.Json.Grammar

/-!
# The walk over a document

What a scan makes of a document that has been parsed: the terms that are alive go down with
the keys and the indices, the values they arrive at are held against their predicates, and a
scan that captures puts the document out without its spaces. The walk knows nothing about
buffers and cursors; the scanner is shown to do what it does.
-/

namespace Lql.Scan

open Lib Json

/-! ## Predicates -/

/-- The string is a date that keeps the term's bounds. -/
def Term.holdsDate (t : Term) (text : Bytes) : Bool :=
  text.length < numberMatchBytes &&
    match Temporal.parseTemporalLiteral text with
    | none => false
    | some value => temporalSatisfies t value

/-- The value is there for the term, whatever it is. -/
def Term.present (t : Term) (v : Value) : Bool :=
  t.kind = .valuelessPresent || (t.kind = .exist && !v.isNull)

/-- The scalar passes the term's comparison; `excess` says that a number was too long to keep. -/
def Term.holds (t : Term) (excess : Bool) : Value → Bool
  | .obj _ => false
  | .arr _ => false
  | .str s => (t.kind.isString && t.holdsText s.text s.lower) ||
      (t.kind = .temporalRange && t.holdsDate s.text)
  | .num token => (t.kind.isTextual && t.holdsText token (plainStr token).lower) ||
      (t.kind = .numberRange && t.numInRange excess token) ||
      (t.kind = .numberEq && t.numEqual excess token)
  | .lit .nul => t.kind = .nullEq && t.value = txtNull
  | .lit l => (t.kind = .boolEq && t.value = l.text) ||
      (t.kind.isTextual && t.holdsText l.text (plainStr l.text).lower)

/-- The value satisfies the term. -/
def Term.satisfies (t : Term) (excess : Bool) (v : Value) : Bool := t.present v || t.holds excess v

/-! ## One step down -/

/-- The key arrives at the term's value. -/
def Term.hereKey (t : Term) (d : Nat) (o r : Bool) (key : Bytes) : Bool :=
  (o && t.ordKey d key && t.ordValue d) || (t.joins d o r && t.recKey key)

/-- The key leaves the term waiting for its next segment. -/
def Term.belowKey (t : Term) (d : Nat) (o : Bool) (key : Bytes) : Bool :=
  o && t.ordKey d key && d + 1 < t.segments.length

/-- The index leads the term on. -/
def Term.atIndex (t : Term) (d : Nat) (o r : Bool) (index : Nat) : Bool :=
  (o && t.ordIndex d index) || (t.joins d o r && t.recIndex index)

/-- The index arrives at the term's value. -/
def Term.hereIndex (t : Term) (d : Nat) (o r : Bool) (index : Nat) : Bool :=
  (o && t.ordIndex d index && t.ordValue d) || (t.joins d o r && t.recIndex index)

/-- An element keeps a term's `...` alive. -/
def Term.carries (t : Term) (d : Nat) (o r : Bool) (index : Nat) : Bool :=
  t.joins d o r || (t.atIndex d o r index && t.deep.isSome)

section Masks

variable (ctx : Ctx) (d : Nat) (A R : Mask)

def hereTerms (key : Bytes) : Mask :=
  maskOf ctx.n fun i => (ctx.term i).hereKey d (A.has i) (R.has i) key

def belowTerms (key : Bytes) : Mask := maskOf ctx.n fun i => (ctx.term i).belowKey d (A.has i) key

def elementTerms (index : Nat) : Mask :=
  maskOf ctx.n fun i => (ctx.term i).atIndex d (A.has i) (R.has i) index

def elementHere (index : Nat) : Mask :=
  maskOf ctx.n fun i => (ctx.term i).hereIndex d (A.has i) (R.has i) index

def elementRec (index : Nat) : Mask :=
  maskOf ctx.n fun i => (ctx.term i).carries d (A.has i) (R.has i) index

/-- The captures an index names. -/
def elementCaptures (C : Mask) (index : Nat) : Mask :=
  maskOf ctx.captureKeys.length fun i => C.has i && captureArrayIndex ctx i d index

end Masks

/-! ## The walk -/

/-- What a scan has found and put out so far. -/
structure Walk where
  hits : Mask
  cap : Nat
  out : Bytes
  spans : Nat → CaptureSpan

namespace Walk

def put (ctx : Ctx) (bytes : Bytes) (w : Walk) : Walk := { w with out := w.out ++ emitted ctx bytes }

/-- Note where the value of some captures is. -/
def note (ctx : Ctx) (values : Mask) (start : Nat) (w : Walk) : Walk :=
  let span : CaptureSpan := { offset := start, len := w.out.length - start, found := true }
  { w with spans := updWhere ctx.captureKeys.length values.has (fun _ => span) w.spans }

end Walk

/-- The terms of a mask that compare a number's value. -/
def numberTerms (ctx : Ctx) (here : Mask) : Mask :=
  maskOf ctx.n fun i => here.has i && ((ctx.term i).kind = .numberRange || (ctx.term i).kind = .numberEq)

/-- Whether the value is a number too long to keep, and the buffer's size behind it. -/
def overflows (ctx : Ctx) (here : Mask) (cap : Nat) : Value → Bool × Nat
  | .num token =>
    if numberTerms ctx here = 0 then (false, cap)
    else growTo (numberLimit ctx (numberTerms ctx here)) token.length 0 cap
  | _ => (false, cap)

/-- Hold a value against the terms that arrive at it. -/
def Walk.meet (ctx : Ctx) (here : Mask) (v : Value) (w : Walk) : Walk :=
  { w with
    hits := w.hits ||| maskOf ctx.n fun i =>
      here.has i && (ctx.term i).satisfies (overflows ctx here w.cap v).1 v
    cap := (overflows ctx here w.cap v).2 }

/-- A comma, where something follows. -/
def Walk.comma (ctx : Ctx) (last : Bool) (w : Walk) : Walk :=
  if last then w else w.put ctx [chComma]

/-- The terms of a mask that are still looked for. -/
def gate (ctx : Ctx) (hits M : Mask) : Mask := if stopHitReady ctx hits then 0 else M

/-- What a key hands on to its value. -/
structure Descent where
  here : Mask
  below : Mask
  recursive : Mask
  captures : Mask

/-- What the key of a member hands on at depth `d`. -/
def keyDescent (ctx : Ctx) (d : Nat) (A R C : Mask) (hits : Mask) (key : Bytes) : Descent :=
  { here := hereTerms ctx d (gate ctx hits A) (gate ctx hits R) key
    below := belowTerms ctx d (gate ctx hits A) key
    recursive := recTerms ctx d (gate ctx hits A) (gate ctx hits R)
    captures := keyCaptures ctx d C key }

/-- What the index of an element hands on at depth `d`. -/
def indexDescent (ctx : Ctx) (d : Nat) (A R C : Mask) (index : Nat) : Descent :=
  { here := elementHere ctx d A R index
    below := elementTerms ctx d A R index
    recursive := elementRec ctx d A R index
    captures := elementCaptures ctx d C index }

/-- Nothing looks at the value. -/
def Descent.idle (s : Descent) : Bool :=
  s.here = 0 && s.below = 0 && s.recursive = 0 && s.captures = 0

mutual

/-- A value at depth `d`: `A` are the terms that wait for segment `d`, `R` those below their
`...`, and `C` the captures. -/
def walkValue (ctx : Ctx) (d : Nat) (A R C : Mask) : Value → Walk → Option Walk
  | .obj members, w =>
    if d < maxDepth then walkMembers ctx d A R C members (w.put ctx [chLBrace]) else none
  | .arr elements, w =>
    -- an array with elements needs one level more than an object
    if d < maxDepth && (elements.isNil || d + 1 < maxDepth) then
      walkElements ctx d A R C 0 elements (w.put ctx [chLBracket])
    else none
  | .str s, w => some (w.put ctx s.quoted)
  | .num token, w => some (w.put ctx token)
  | .lit l, w => some (w.put ctx l.text)

def walkMembers (ctx : Ctx) (d : Nat) (A R C : Mask) : Members → Walk → Option Walk
  | .nil, w => some (w.put ctx [chRBrace])
  | .cons key v rest, w =>
    let step := keyDescent ctx d A R C w.hits key.text
    if !ctx.capture && ((stopHitReady ctx w.hits && C = 0) || step.idle) then
      -- enough is known, or nothing is looked for: the value is only checked
      if v.fits maxDepth (d + 1) then walkMembers ctx d A R C rest w else none
    else
      let w1 := (w.put ctx (key.quoted ++ [chColon])).meet ctx step.here v
      match walkValue ctx (d + 1) step.below step.recursive
          (captureDescendants ctx step.captures d) v w1 with
      | none => none
      | some w2 =>
        walkMembers ctx d A R C rest
          ((w2.note ctx (captureValues ctx step.captures d) w1.out.length).comma ctx rest.isNil)

def walkElements (ctx : Ctx) (d : Nat) (A R C : Mask) (index : Nat) : Elements → Walk → Option Walk
  | .nil, w => some (w.put ctx [chRBracket])
  | .cons v rest, w =>
    let step := indexDescent ctx d A R C index
    let w1 := w.meet ctx step.here v
    match walkValue ctx (d + 1) step.below step.recursive
        (captureDescendants ctx step.captures d) v w1 with
    | none => none
    | some w2 =>
      walkElements ctx d A R C (index + 1) rest
        ((w2.note ctx (captureValues ctx step.captures d) w1.out.length).comma ctx rest.isNil)

end

end Lql.Scan
