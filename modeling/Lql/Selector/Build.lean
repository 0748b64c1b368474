import Lql.Lib.Heap
import Lql.Selector.Node

/-!
# Selectors in memory

A selector in memory is a struct with pointers to its strings, to the arrays of its `any` values and to the array of
its children. The builders of `lql_selector.c` clone the selectors they are given, and clean up after themselves where
an allocation is refused.
-/

namespace Lql.Build

open Lib Lib.Heap
open Selector (SelectorKind LiteralKind AnyValue)

/-! ## Structs and blocks -/

/-- The strings of a selector besides its value. -/
inductive Slot where
  | field
  | rangeGtText
  | rangeGteText
  | rangeLtText
  | rangeLteText
  | dateValueText
  | dateSinceText
  | dateAfterText
  | dateBeforeText
  | dateGtText
  | dateGteText
  | dateLtText
  | dateLteText
  deriving DecidableEq, Repr

/-- The strings that `lql_selector_cleanup` frees behind the arrays. -/
def Slot.bounds : List Slot :=
  [.rangeGtText, .rangeGteText, .rangeLtText, .rangeLteText, .dateValueText, .dateSinceText, .dateAfterText,
    .dateBeforeText, .dateGtText, .dateGteText, .dateLtText, .dateLteText]

/-- The strings in the order in which they are cloned. -/
def Slot.all : List Slot := .field :: Slot.bounds

theorem Slot.mem_all (slot : Slot) : slot ∈ Slot.all := by cases slot <;> decide

/-- `lql_selector`. The fields that hold no pointer and no count are copied as they are. -/
structure Node (σ : Type) where
  kind : SelectorKind
  texts : Slot → Option Nat
  value : Option Nat
  valueLen : Nat
  any : Option Nat
  anyLens : Option Nat
  anyKinds : Option Nat
  anyFromJson : Option Nat
  anyCount : Nat
  children : Option Nat
  childCount : Nat
  scalars : σ

/-- What a block holds. -/
inductive Block (σ : Type) where
  | text (bytes : Bytes)
  | pointers (ps : List (Option Nat))
  | lens (ls : List Nat)
  | kinds (ks : List LiteralKind)
  | flags (fs : List Bool)
  | nodes (ns : List (Node σ))

section

variable {σ : Type}

namespace Block

def text? : Block σ → Option Bytes
  | text bytes => some bytes
  | _ => none

def pointers? : Block σ → Option (List (Option Nat))
  | pointers ps => some ps
  | _ => none

def lens? : Block σ → Option (List Nat)
  | lens ls => some ls
  | _ => none

def kinds? : Block σ → Option (List LiteralKind)
  | kinds ks => some ks
  | _ => none

def flags? : Block σ → Option (List Bool)
  | flags fs => some fs
  | _ => none

def nodes? : Block σ → Option (List (Node σ))
  | nodes ns => some ns
  | _ => none

end Block

abbrev M (σ : Type) := HeapM (Block σ)

/-- `*p`, where `p` has to point to a block of a kind. -/
def readAs {α : Type} (f : Block σ → Option α) (p : Option Nat) : M σ α :=
  match p with
  | none => fault .null
  | some a => do
    match f (← read a) with
    | some x => pure x
    | none => fault .dead

/-- `p[i]` -/
def readAt {α : Type} (f : Block σ → Option (List α)) (p : Option Nat) (i : Nat) : M σ α := do
  match (← readAs f p)[i]? with
  | some x => pure x
  | none => fault .dead

/-- `p[i] = n` in an array of selectors. -/
def writeNode (a i : Nat) (n : Node σ) : M σ Unit := do
  let ns ← readAs Block.nodes? (some a)
  write a (.nodes (ns.set i n))

/-- `memset(selector, 0, sizeof(*selector))` -/
def Node.zero [Inhabited σ] : Node σ where
  kind := .all
  texts := fun _ => none
  value := none
  valueLen := 0
  any := none
  anyLens := none
  anyKinds := none
  anyFromJson := none
  anyCount := 0
  children := none
  childCount := 0
  scalars := default

def Node.setText (n : Node σ) (slot : Slot) (p : Option Nat) : Node σ :=
  { n with texts := fun slot' => if slot' = slot then p else n.texts slot' }

/-! ## Cleaning up -/

/-- The items of `any`, from `i` on. -/
def cleanupItems (any : Option Nat) : Nat → Nat → M σ Unit
  | _, 0 => pure ()
  | i, count + 1 => do
    free (← readAt Block.pointers? any i)
    cleanupItems any (i + 1) count

/-- What `lql_selector_cleanup` frees before it comes to the children. -/
def cleanupContent (n : Node σ) : M σ Unit := do
  free (n.texts .field)
  free n.value
  cleanupItems n.any 0 n.anyCount
  freeAll [n.any, n.anyLens, n.anyKinds, n.anyFromJson]
  freeAll (Slot.bounds.map n.texts)

/-- The children from `i` on, `&children[i]` being cleaned up and zeroed. Nothing happens at a null pointer, and that
is what `&children[0]` is where there is no array. -/
def cleanupChildren [Inhabited σ] (cleanup : Node σ → M σ Unit) (children : Option Nat) : Nat → Nat → M σ Unit
  | _, 0 => pure ()
  | i, count + 1 => do
    match children with
    | none => if i = 0 then pure () else fault .null
    | some a => do
      cleanup (← readAt Block.nodes? (some a) i)
      writeNode a i .zero
    cleanupChildren cleanup children (i + 1) count

/-- `lql_selector_cleanup`, down to a depth. -/
def cleanup [Inhabited σ] : Nat → Node σ → M σ Unit
  | 0, _ => fault .depth
  | depth + 1, n => do
    cleanupContent n
    cleanupChildren (cleanup depth) n.children 0 n.childCount
    free n.children

/-- `lql_selector_destroy` -/
def destroy [Inhabited σ] (depth : Nat) (a : Nat) : M σ Unit := do
  cleanup depth (← readAt Block.nodes? (some a) 0)
  free (some a)

/-! ## Cloning -/

variable (grants : Nat → Bool)

/-- `clone_string` -/
def cloneString (src : Option Nat) : M σ (Bool × Option Nat) :=
  match src with
  | none => pure (true, none)
  | some a => do
    let bytes ← readAs Block.text? (some a)
    let out ← alloc grants (.text bytes)
    pure (out.isSome, out)

/-- `lql_strndup_local` -/
def strndup (src : Option Nat) (len : Nat) : M σ (Option Nat) := do
  match ← alloc grants (.text []) with
  | none => pure none
  | some out => do
    let bytes ← readAs Block.text? src
    if bytes.length < len then fault .dead
    else do
      write out (.text (bytes.take len))
      pure (some out)

/-- The strings of `clone_selector_payload`, as far as they can be cloned. -/
def cloneTexts (src : Node σ) : List Slot → Node σ → M σ (Bool × Node σ)
  | [], dst => pure (true, dst)
  | slot :: rest, dst => do
    let (ok, out) ← cloneString grants (src.texts slot)
    if ok then cloneTexts src rest (dst.setText slot out) else pure (false, dst.setText slot out)

/-- The value of `clone_selector_payload`. -/
def cloneValue (src dst : Node σ) : M σ (Bool × Node σ) :=
  match src.value with
  | none => pure (true, dst)
  | some a => do
    let out ← strndup grants (some a) src.valueLen
    if out.isSome then pure (true, { dst with value := out, valueLen := src.valueLen })
    else pure (false, { dst with value := out })

/-- The four arrays of `selector_any_push_len`, as far as they can grow. -/
def growAny (dst : Node σ) : M σ (Bool × Node σ) := do
  match ← realloc grants (.pointers []) dst.any with
  | none => pure (false, dst)
  | some any => do
    let dst := { dst with any := some any }
    match ← realloc grants (.lens []) dst.anyLens with
    | none => pure (false, dst)
    | some lens => do
      let dst := { dst with anyLens := some lens }
      match ← realloc grants (.kinds []) dst.anyKinds with
      | none => pure (false, dst)
      | some kinds => do
        let dst := { dst with anyKinds := some kinds }
        match ← realloc grants (.flags []) dst.anyFromJson with
        | none => pure (false, dst)
        | some flags => pure (true, { dst with anyFromJson := some flags })

/-- An item behind the `count` items of an array. -/
def store {α : Type} (f : Block σ → Option (List α)) (block : List α → Block σ) (p : Option Nat) (count : Nat) (x : α) :
    M σ Unit :=
  match p with
  | none => fault .null
  | some a => do
    let xs ← readAs f (some a)
    write a (block (xs.take count ++ [x]))

/-- `selector_any_push_len` -/
def anyPush (dst : Node σ) (item : Option Nat) (len : Nat) (kind : LiteralKind) (fromJson : Bool) :
    M σ (Bool × Node σ) := do
  let (ok, dst) ← growAny grants dst
  if ok then do
    store Block.pointers? .pointers dst.any dst.anyCount item
    store Block.lens? .lens dst.anyLens dst.anyCount len
    store Block.kinds? .kinds dst.anyKinds dst.anyCount kind
    store Block.flags? .flags dst.anyFromJson dst.anyCount fromJson
    pure (true, { dst with anyCount := dst.anyCount + 1 })
  else pure (false, dst)

/-- `any_from_json != NULL ? any_from_json[i] : 0` -/
def readFromJson (src : Node σ) (i : Nat) : M σ Bool :=
  if src.anyFromJson.isSome then readAt Block.flags? src.anyFromJson i else pure false

/-- The `any` values of `clone_selector_payload`, from `i` on. -/
def cloneAny (src : Node σ) : Nat → Nat → Node σ → M σ (Bool × Node σ)
  | _, 0, dst => pure (true, dst)
  | i, count + 1, dst => do
    let len ← readAt Block.lens? src.anyLens i
    let copy ← strndup grants (← readAt Block.pointers? src.any i) len
    if copy.isNone then pure (false, dst)
    else do
      let kind ← readAt Block.kinds? src.anyKinds i
      let fromJson ← readFromJson src i
      let (ok, dst) ← anyPush grants dst copy len kind fromJson
      if ok then cloneAny src (i + 1) count dst
      else do
        free copy
        pure (false, dst)

/-- The copy that `clone_selector_payload` starts from: the source without its strings and arrays, but with its
children. -/
def Node.bare (src : Node σ) : Node σ :=
  { src with texts := fun _ => none, value := none, any := none, anyLens := none, anyKinds := none
             anyFromJson := none, anyCount := 0 }

/-- `clone_selector_payload` -/
def clonePayload (src : Node σ) : M σ (Bool × Node σ) := do
  let (ok, dst) ← cloneTexts grants src Slot.all src.bare
  if ok then do
    let (ok, dst) ← cloneValue grants src dst
    if ok then cloneAny grants src 0 src.anyCount dst else pure (false, dst)
  else pure (false, dst)

/-- The children of `clone_selector`, from `i` on, into an array. -/
def cloneChildren (clone : Node σ → M σ (Bool × Node σ)) (src : Option Nat) (dst : Nat) : Nat → Nat → M σ Bool
  | _, 0 => pure true
  | i, count + 1 => do
    let (ok, n) ← clone (← readAt Block.nodes? src i)
    writeNode dst i n
    if ok then cloneChildren clone src dst (i + 1) count else pure false

/-- `clone_selector`, down to a depth: the struct that it fills. -/
def cloneSelector [Inhabited σ] : Nat → Node σ → M σ (Bool × Node σ)
  | 0, _ => fault .depth
  | depth + 1, src => do
    let (ok, dst) ← clonePayload grants src
    if !ok then pure (false, dst)
    else if src.childCount = 0 then pure (true, dst)
    else do
      match ← alloc grants (.nodes (List.replicate src.childCount .zero)) with
      | none => pure (false, { dst with children := none })
      | some a => do
        let ok ← cloneChildren (cloneSelector depth) src.children a 0 src.childCount
        pure (ok, { dst with children := some a, childCount := src.childCount })

/-! ## Builders -/

/-- What a builder is called with: a place for its result, and a receiver with an allocator. -/
structure Call where
  out : Bool
  allocator : Bool
  deriving DecidableEq, Repr

/-- `children` and `child_count`. -/
inductive ChildArray where
  | null (count : Nat)
  | array (ps : List (Option Nat))

/-- `lql_set_error` with what is returned; nothing is built. -/
def refuse {α : Type} (status : Status) (message : String) : M σ (Except Err α) := pure (.error ⟨status, message⟩)

/-- `builder_init` -/
def builderInit (call : Call) : Except Err Unit :=
  if !call.out then .error ⟨.invalidArgument, "out selector required"⟩
  else if !call.allocator then .error ⟨.invalidArgument, "selector builder receiver required"⟩
  else .ok ()

/-- `selector_build_result` with `selector_from_built_root`: a struct of its own for the root. -/
def buildResult [Inhabited σ] (depth : Nat) (root : Node σ) : M σ (Except Err Nat) := do
  match ← alloc grants (.nodes [root]) with
  | some a => pure (.ok a)
  | none => do
    cleanup depth root
    refuse .noMemory "out of memory"

/-- The loop of `lql_selector_build_compound_internal`, from child `i` on. -/
def buildChildren [Inhabited σ] (depth : Nat) (root : Node σ) (a : Nat) : Nat → List (Option Nat) →
    M σ (Except Err Unit)
  | _, [] => pure (.ok ())
  | i, p :: rest => do
    match p with
    | none => do
      cleanup (depth + 1) root
      refuse .invalidArgument "compound selector child required"
    | some _ => do
      let (ok, n) ← cloneSelector grants depth (← readAt Block.nodes? p 0)
      writeNode a i n
      if ok then buildChildren depth root a (i + 1) rest
      else do
        cleanup (depth + 1) root
        refuse .noMemory "out of memory"

/-- `lql_selector_build_compound_internal`, for children down to a depth. -/
def buildCompound [Inhabited σ] (depth : Nat) (call : Call) (kind : SelectorKind) (children : ChildArray) :
    M σ (Except Err Nat) :=
  match builderInit call with
  | .error e => pure (.error e)
  | .ok () =>
    if kind ≠ .and ∧ kind ≠ .or then refuse .invalidArgument "compound selector kind must be AND or OR"
    else
      match children with
      | .null (_ + 1) => refuse .invalidArgument "compound selector children required"
      | .null 0 => buildResult grants (depth + 1) { (Node.zero : Node σ) with kind := .all }
      | .array [] => buildResult grants (depth + 1) { (Node.zero : Node σ) with kind := .all }
      | .array (p :: rest) => do
        match ← alloc grants (.nodes (List.replicate (p :: rest).length (Node.zero : Node σ))) with
        | none => refuse .noMemory "out of memory"
        | some a => do
          let root := { (Node.zero : Node σ) with kind := kind, children := some a, childCount := (p :: rest).length }
          match ← buildChildren grants depth root a 0 (p :: rest) with
          | .error e => pure (.error e)
          | .ok () => buildResult grants (depth + 1) root

/-- `lql_selector_build_not_internal`, for a child down to a depth. -/
def buildNot [Inhabited σ] (depth : Nat) (call : Call) (child : Option Nat) : M σ (Except Err Nat) :=
  match child with
  | none => refuse .invalidArgument "not selector child required"
  | some p =>
    match builderInit call with
    | .error e => pure (.error e)
    | .ok () => do
      match ← alloc grants (.nodes [(Node.zero : Node σ)]) with
      | none => refuse .noMemory "out of memory"
      | some a => do
        let root := { (Node.zero : Node σ) with kind := .not, children := some a, childCount := 1 }
        let (ok, n) ← cloneSelector grants depth (← readAt Block.nodes? (some p) 0)
        writeNode a 0 n
        if ok then buildResult grants (depth + 1) root
        else do
          cleanup (depth + 1) root
          refuse .noMemory "out of memory"

end

end Lql.Build
