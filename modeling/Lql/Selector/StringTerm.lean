import Lql.Selector.Build
import Lql.Selector.Json

/-!
# String terms from a builder

The builder of string predicates takes the field, the value and the `any` values as views of the caller's memory.
-/

namespace Lql.Selector

open Build (Call builderInit)

/-- `lql_string_view`: a length without data, or text. -/
inductive View where
  | null (len : Nat)
  | text (bytes : Bytes)
  deriving DecidableEq, Repr

/-- `view.len` -/
def View.len : View → Nat
  | .null len => len
  | .text bytes => bytes.length

/-- `lql_selector_string_term` -/
structure StringTerm where
  field : View
  valuePresent : Bool
  value : View
  ignoreCase : Bool
  anyCount : Nat
  deriving DecidableEq, Repr

/-- `view_contains_nul` -/
def viewContainsNul : View → Bool
  | .null _ => false
  | .text bytes => bytes.contains 0

/-- `view_to_cstr` -/
def viewToCstr (allowEmpty : Bool) : View → Option Bytes
  | .null len => if len ≠ 0 || !allowEmpty then none else some []
  | .text bytes => if !allowEmpty && bytes = [] then none else some bytes

/-- `build_field` -/
def buildField (view : View) : Option Bytes :=
  if viewContainsNul view then none else (viewToCstr false view).bind normalizeFieldPath

/-- `build_any_values` -/
def buildAnyValues : List View → List AnyValue → Option (List AnyValue)
  | [], values => some values
  | view :: rest, values =>
    match viewToCstr false view with
    | none => none
    | some text => buildAnyValues rest (values ++ [⟨text, .string, false⟩])

/-- The kinds of string predicates. -/
def isStringKind (kind : SelectorKind) : Bool := kind = .eq || selectorKindUsesTextualNeedles kind

/-- The part of `lql_selector_build_string_internal` for `any`. -/
def buildStringAny (kind : SelectorKind) (hasValue : Bool) (anyValues : Option (List View)) (count : Nat) :
    Except Err (List AnyValue) :=
  if count = 0 then .ok []
  else
    match anyValues with
    | none => .error ⟨.invalidArgument, "selector any values required"⟩
    | some views =>
      if kind ≠ .contains && kind ≠ .icontains then parseError "selector operator does not support any"
      else if hasValue then parseError "selector cannot set both value and any"
      else
        match buildAnyValues (views.take count) [] with
        | none => parseError "selector any requires values"
        | some values => .ok values

/-- The part of `lql_selector_build_string_internal` for the value. -/
def buildStringValue (term : StringTerm) (p : Payload) : Except Err Payload :=
  if !(term.valuePresent || term.value.len ≠ 0) then .ok p
  else
    match viewToCstr true term.value with
    | none => parseError "selector value invalid"
    | some value =>
      .ok { p with value := some value, valueSet := term.valuePresent, valueIsString := true, valueKind := .string }

/-- `lql_selector_build_string_internal` with `selector_build_result` -/
def buildString (call : Call) (kind : SelectorKind) (term : Option StringTerm) (anyValues : Option (List View)) :
    Except Err Selector := do
  builderInit call
  match term with
  | none => .error ⟨.invalidArgument, "string selector term required"⟩
  | some term =>
    if !isStringKind kind then .error ⟨.invalidArgument, "string selector kind invalid"⟩
    else
      match buildField term.field with
      | none => parseError "selector field required"
      | some field => do
        let anyValues ← buildStringAny kind (term.valuePresent || term.value.len ≠ 0) anyValues term.anyCount
        let p ← buildStringValue term { field := some field, anyValues }
        .ok (.leaf kind (prepareValueTemporal kind { p with ignoreCase := term.ignoreCase }))

end Lql.Selector
