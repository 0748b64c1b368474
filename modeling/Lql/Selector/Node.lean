import Lql.Temporal

/-!
# Selectors

A selector is a tree: `and`, `or` and `not` above predicates on one field. What a record decides about the
predicates decides about the tree.
-/

namespace Lql.Selector

/-- A C string constant. -/
def ascii (text : String) : Bytes := text.toList.map fun c => UInt8.ofNat c.toNat

/-- `lql_selector_kind` -/
inductive SelectorKind where
  | all
  | and
  | or
  | not
  | eq
  | ne
  | contains
  | icontains
  | pfx
  | ipfx
  | range
  | date
  | isIn
  | exist
  deriving DecidableEq, Repr

/-- `lql_selector_literal_kind` -/
inductive LiteralKind where
  | string
  | number
  | bool
  | null
  deriving DecidableEq, Repr

/-- `lql_since_macro` -/
inductive SinceMacro where
  | none
  | now
  | today
  | yesterday
  deriving DecidableEq, Repr

/-- One entry of `any`, with its kind. -/
structure AnyValue where
  text : Bytes
  kind : LiteralKind
  fromJson : Bool
  deriving DecidableEq, Repr

/-- The keys of the four bounds. -/
inductive BoundKey where
  | gt
  | gte
  | lt
  | lte
  deriving DecidableEq, Repr

/-- What is kept for each of the four bounds. -/
structure Bounds (α : Type) where
  gt : Option α := none
  gte : Option α := none
  lt : Option α := none
  lte : Option α := none
  deriving DecidableEq, Repr

namespace Bounds

variable {α : Type}

def get (b : Bounds α) : BoundKey → Option α
  | .gt => b.gt
  | .gte => b.gte
  | .lt => b.lt
  | .lte => b.lte

def set (b : Bounds α) (key : BoundKey) (v : α) : Bounds α :=
  match key with
  | .gt => { b with gt := some v }
  | .gte => { b with gte := some v }
  | .lt => { b with lt := some v }
  | .lte => { b with lte := some v }

/-- One of the bounds is set. -/
def any (b : Bounds α) : Bool := b.gt.isSome || b.gte.isSome || b.lt.isSome || b.lte.isSome

end Bounds

/-- The texts of a `date` predicate. -/
structure DateTexts where
  value : Option Bytes := none
  since : Option Bytes := none
  after : Option Bytes := none
  before : Option Bytes := none
  bounds : Bounds Bytes := {}
  deriving DecidableEq, Repr

/-- The fields of a `lql_selector` beside its kind and its children. -/
structure Payload where
  field : Option Bytes := none
  value : Option Bytes := none
  valueSet : Bool := false
  valueIsString : Bool := false
  valueFromJson : Bool := false
  valueKind : LiteralKind := .string
  valueIsTemporal : Bool := false
  ignoreCase : Bool := false
  anyValues : List AnyValue := []
  rangeTexts : Bounds Bytes := {}
  dateTexts : DateTexts := {}
  hasRange : Bounds Unit := {}
  temporalEq : Option Temporal.Temporal := none
  temporal : Bounds Temporal.Temporal := {}
  rangeIsTemporal : Bool := false
  sinceMacro : SinceMacro := .none
  deriving DecidableEq, Repr

/-- `lql_selector` -/
inductive Selector where
  | node (kind : SelectorKind) (payload : Payload) (children : List Selector)

namespace Selector

def kind : Selector → SelectorKind
  | .node kind _ _ => kind

def payload : Selector → Payload
  | .node _ payload _ => payload

def children : Selector → List Selector
  | .node _ _ children => children

/-- A node without children. -/
def leaf (kind : SelectorKind) (payload : Payload) : Selector := .node kind payload []

/-- `append_selector` -/
def append : Selector → Selector → Selector
  | .node kind payload children, child => .node kind payload (children ++ [child])

@[simp] theorem kind_append (s c : Selector) : (s.append c).kind = s.kind := by cases s; rfl

@[simp] theorem payload_append (s c : Selector) : (s.append c).payload = s.payload := by cases s; rfl

@[simp] theorem children_append (s c : Selector) : (s.append c).children = s.children ++ [c] := by cases s; rfl

/-! ## Decisions -/

section Decides

-- what a record says about the predicates
variable (hit : SelectorKind → Payload → Bool)

mutual

/-- `lql_flat_eq_matches` over the predicates that a record has met. -/
def decides : Selector → Bool
  | .node .all _ _ => true
  | .node .and _ children => decidesAll children
  | .node .or _ children => decidesAny children
  | .node .not _ children => decidesNone children
  | .node kind payload _ => hit kind payload

def decidesAll : List Selector → Bool
  | [] => true
  | child :: rest => if decides child then decidesAll rest else false

def decidesAny : List Selector → Bool
  | [] => false
  | child :: rest => if decides child then true else decidesAny rest

/-- A `not` has one child. -/
def decidesNone : List Selector → Bool
  | [child] => !decides child
  | _ => false

end

theorem decidesAll_eq (children : List Selector) : decidesAll hit children = children.all (decides hit) := by
  induction children with
  | nil => rfl
  | cons child rest ih =>
    rw [decidesAll, ih, List.all_cons]
    cases decides hit child <;> rfl

theorem decidesAny_eq (children : List Selector) : decidesAny hit children = children.any (decides hit) := by
  induction children with
  | nil => rfl
  | cons child rest ih =>
    rw [decidesAny, ih, List.any_cons]
    cases decides hit child <;> rfl

theorem decides_and (payload : Payload) (children : List Selector) :
    decides hit (.node .and payload children) = children.all (decides hit) := decidesAll_eq hit children

theorem decides_or (payload : Payload) (children : List Selector) :
    decides hit (.node .or payload children) = children.any (decides hit) := decidesAny_eq hit children

theorem decides_not (payload : Payload) (child : Selector) :
    decides hit (.node .not payload [child]) = !decides hit child := rfl

end Decides

/-- `selector_is_predicate` -/
def isPredicate (s : Selector) : Bool :=
  match s.kind with
  | .eq | .ne | .contains | .icontains | .pfx | .ipfx | .range | .date | .isIn | .exist => true
  | _ => false

end Selector

end Lql.Selector
