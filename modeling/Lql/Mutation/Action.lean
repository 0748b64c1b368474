import Lql.Selector.Text
import Lql.Temporal.Format

/-!
# One mutation action

The text of one mutation is a path with a value, a removal or an increment, and the value may be a literal, a time or
a file. `lql_direct_actions.c` reads it into an action. Memory is taken to be there; numbers are C doubles, and what
`lql_number.c` makes of a text is a parameter.
-/

namespace Lql.Mutation

open Selector (ascii parseError)
open Temporal (Temporal temporalFromTimeT formatRfc3339Nano)

/-- `double`, with `lql_number_parse_json` and what is asked of its results. -/
class Doubles (δ : Type) where
  parseJson : Bytes → Option δ
  finite : δ → Bool
  isZero : δ → Bool
  zero : δ
  one : δ
  minusOne : δ

/-- `lql_mutation_kind` -/
inductive MutationKind where
  | set
  | increment
  | remove
  deriving DecidableEq, Repr

/-- `lql_mutation_value_kind` -/
inductive ValueKind where
  | string
  | number
  | bool
  | null
  | fileAuto
  | fileText
  | fileBase64
  deriving DecidableEq, Repr

/-- The callbacks of a file value, as the addresses they are. -/
structure FileValue where
  opens : Option Nat := none
  closes : Option Nat := none
  user : Nat := 0
  deriving DecidableEq, Repr

/-- `lql_mutation_action` -/
structure Action (δ : Type) where
  kind : MutationKind
  segments : List Bytes
  value : Option Bytes := none
  file : FileValue := {}
  valueKind : ValueKind := .string
  delta : δ
  deriving DecidableEq, Repr

/-- `lql_mutation_parse_options` -/
structure ParseOptions where
  enableFileValues : Bool
  fileValueBaseDir : Option Bytes
  file : FileValue
  timeNow : Bool
  deriving DecidableEq, Repr

/-- The options, if any, and `HOME`. -/
structure Env where
  options : Option ParseOptions
  home : Option Bytes
  deriving DecidableEq, Repr

/-- What the clock says at each further reading. -/
abbrev Clock := Nat → Int

abbrev Parse := StateT Clock (Except Err)

def fail {α : Type} (message : String) : Parse α := StateT.lift (parseError message)

/-- `time`, or the clock of the options. -/
def readClock : Parse Int := fun clock => .ok (clock 0, fun k => clock (k + 1))

/-! ## Texts -/

/-- `mutation_space` -/
def mutationSpace (c : UInt8) : Bool := c = chSpace || c = chTab || c = chCR || c = chLF

/-- `mutation_trim` -/
def trim (text : Bytes) : Bytes := (((text.dropWhile mutationSpace).reverse).dropWhile mutationSpace).reverse

/-- `mutation_has_prefix` -/
def hasPrefix (text : Bytes) (word : String) : Bool := (ascii word).isPrefixOf text

/-- `end[-2] == c && end[-1] == c` -/
def endsTwice (text : Bytes) (c : UInt8) : Bool := [c, c].isSuffixOf text

/-- `tolower` in the C locale. -/
def toLower (c : UInt8) : UInt8 := if 0x41 ≤ c && c ≤ 0x5a then c + 0x20 else c

/-- `mutation_equal_ci` -/
def equalCi (text : Bytes) (literal : String) : Bool := text.map toLower = (ascii literal).map toLower

/-- The text between two quotes of one kind. -/
def unquoted? : Bytes → Option Bytes
  | [] => none
  | q :: rest => if (q = chQuote || q = 0x27) && rest.getLast? = some q then some rest.dropLast else none

/-- The texts in front of the first `=` and behind it. -/
def splitEqual : Bytes → Option (Bytes × Bytes)
  | [] => none
  | c :: rest => if c = 0x3d then some ([], rest) else (splitEqual rest).map fun (path, value) => (c :: path, value)

/-! ## Paths -/

/-- A segment without its `~0` and `~1`. -/
def decodeSegment : Bytes → Bytes
  | [] => []
  | [c] => [c]
  | c :: c' :: rest =>
    if c = chTilde && c' = chZero then chTilde :: decodeSegment rest
    else if c = chTilde && c' = chOne then chSlash :: decodeSegment rest
    else c :: decodeSegment (c' :: rest)

/-- The segment, last byte first, without the `[]` behind it, and how many there are. -/
def stripElements : Bytes → Nat → Bytes × Nat
  | 0x5d :: 0x5b :: c :: rest, count => stripElements (c :: rest) (count + 1)
  | rev, count => (rev, count)

/-- The segments that stand between two slashes. -/
def pathSegments (text : Bytes) : List Bytes :=
  let decoded := decodeSegment text
  if decoded.length > 2 && decoded ≠ ascii "..." then
    let (rev, count) := stripElements decoded.reverse 0
    rev.reverse :: List.replicate count (ascii "[]")
  else [decoded]

/-- `mutation_parse_path` -/
def parsePath (text : Bytes) : Except Err (List Bytes) :=
  match trim text with
  | [] => parseError "mutation path must start with '/'"
  | c :: rest =>
    if c ≠ chSlash then parseError "mutation path must start with '/'"
    else if rest = [] then parseError "mutation path must not refer to the document root"
    else .ok ((rest.splitOn chSlash).flatMap pathSegments)

/-! ## Numbers -/

/-- One digit or more, and what stands behind them. -/
def jsonDigits (text : Bytes) : Option Bytes :=
  match text with
  | [] => none
  | c :: rest => if isDigit c then some (rest.dropWhile isDigit) else none

/-- `mutation_json_number` -/
def jsonNumber (text : Bytes) : Bool :=
  let text := match text with
    | c :: rest => if c = chMinus then rest else c :: rest
    | [] => []
  let whole := match text with
    | c :: rest => if c = chZero then some rest else jsonDigits (c :: rest)
    | [] => none
  let fraction := whole.bind fun
    | c :: rest => if c = chDot then jsonDigits rest else some (c :: rest)
    | [] => some []
  let exponent := fraction.bind fun
    | c :: rest =>
      if c = chLowerE || c = chUpperE then
        jsonDigits (match rest with
          | s :: rest' => if s = chPlus || s = chMinus then rest' else s :: rest'
          | [] => [])
      else some (c :: rest)
    | [] => some []
  exponent = some []

/-- `mutation_numeric_candidate` -/
def numericCandidate (text : Bytes) : Bool :=
  match text with
  | [] => false
  | c :: _ => c = chPlus || c = chMinus || isDigit c || equalCi text "nan" || equalCi text "inf" ||
      equalCi text "infinity"

/-! ## Values -/

section

variable {δ : Type} [Doubles δ]

/-- An action whose path is read and whose other fields are still zero. -/
def blankAction (δ : Type) [Doubles δ] (kind : MutationKind) (segments : List Bytes) : Action δ :=
  { kind := kind, segments := segments, delta := Doubles.zero }

/-- `mutation_parse_value`: the kind of the value and its text. -/
def parseValue (δ : Type) [Doubles δ] (text : Bytes) : Except Err (ValueKind × Bytes) :=
  let text := trim text
  if text = [] then .ok (.string, [])
  else match unquoted? text with
  | some inner => .ok (.string, inner)
  | none =>
    if equalCi text "true" then .ok (.bool, ascii "true")
    else if equalCi text "false" then .ok (.bool, ascii "false")
    else if equalCi text "null" then .ok (.null, ascii "null")
    else if numericCandidate text then
      if !jsonNumber text then parseError "mutation numeric value must be a JSON number"
      else if ((Doubles.parseJson text : Option δ).map Doubles.finite).getD false then .ok (.number, text)
      else parseError "mutation numeric value must be finite"
    else .ok (.string, text)

/-- The time that a value of `mutation_parse_time_value` stands for. -/
def timeOf (env : Env) (value : Bytes) : Parse Temporal :=
  if equalCi value "NOW" then do
    let now ← readClock
    -- the library takes `-1` from its own clock for a failure
    let ownClock := env.options.any (·.timeNow)
    match if !ownClock && now = -1 then none else temporalFromTimeT now false with
    | some t => pure t
    | none => fail "time mutation NOW value is invalid"
  else match Temporal.parseTemporalLiteralWithOptions value false false false with
  | some t => pure t
  | none => fail "time mutation value must be RFC3339"

/-- `mutation_parse_time_value` -/
def parseTimeValue (env : Env) (text : Bytes) : Parse Bytes :=
  if trim text = [] then fail "time mutation value is required"
  else do
    let temporal ← timeOf env ((unquoted? (trim text)).getD (trim text))
    match formatRfc3339Nano temporal 64 with
    | some formatted => pure formatted
    | none => fail "time mutation value could not be formatted"

/-- The words that start a removal. -/
def startsRemove (text : Bytes) : Bool :=
  hasPrefix text "rm:" || hasPrefix text "remove:" || hasPrefix text "delete:" || hasPrefix text "del:"

/-- `mutation_parse_time_set` -/
def parseTimeSet (env : Env) (text : Bytes) : Parse (Action δ) := do
  if startsRemove text then fail "time-prefixed mutation cannot be remove/delete"
  else if endsTwice text chPlus || endsTwice text chMinus then fail "time-prefixed mutation cannot be increment"
  else match splitEqual text with
  | none => fail "time-backed mutation requires path=value"
  | some (path, value) =>
    let segments ← StateT.lift (parsePath path)
    let value ← parseTimeValue env value
    pure { blankAction δ .set segments with valueKind := .string, value := some value }

/-- `mutation_resolve_file_path` -/
def resolveFilePath (env : Env) (text : Bytes) : Except Err Bytes :=
  let text := (unquoted? (trim text)).getD (trim text)
  match text with
  | [] => parseError "file-backed mutation path is required"
  | c :: rest =>
    if c = chTilde && (rest = [] || rest.head? = some chSlash) then
      match env.home with
      | some (h :: home) => .ok ((h :: home) ++ rest)
      | _ => .error ⟨.ioError, "HOME is required to resolve file-backed mutation path"⟩
    else if c = chSlash then .ok text
    else match env.options.bind (·.fileValueBaseDir) with
    | some (b :: base) =>
      if (b :: base).getLast? = some chSlash then .ok ((b :: base) ++ text) else .ok ((b :: base) ++ chSlash :: text)
    | _ => parseError "relative file-backed mutation path requires base dir"

/-- `mutation_parse_file_set` -/
def parseFileSet (env : Env) (valueKind : ValueKind) (text : Bytes) : Except Err (Action δ) := do
  match env.options with
  | none => parseError "file-backed mutations are disabled"
  | some options =>
    if !options.enableFileValues then parseError "file-backed mutations are disabled"
    else if startsRemove text || hasPrefix text "time:" then
      parseError "file-backed mutation values require path=file"
    else if endsTwice text chPlus then parseError "file-backed mutation values cannot use ++"
    else if endsTwice text chMinus then parseError "file-backed mutation values cannot use --"
    else match splitEqual text with
    | none => parseError "file-backed mutation requires path=file"
    | some (path, value) =>
      let segments ← parsePath path
      if options.file.opens.isNone ≠ options.file.closes.isNone then
        .error ⟨.invalidArgument, "file value open and close callbacks must be paired"⟩
      else if options.file.opens.isSome then
        let value := (unquoted? (trim value)).getD (trim value)
        if value = [] then parseError "file-backed mutation path is required"
        else .ok { blankAction δ .set segments with valueKind := valueKind, value := some value, file := options.file }
      else
        let value ← resolveFilePath env value
        .ok { blankAction δ .set segments with valueKind := valueKind, value := some value }

/-- The end of `mutation_parse_one`: a path with a value or a difference. -/
def parseAssignment (path value : Bytes) : Except Err (Action δ) := do
  let segments ← parsePath path
  let value := trim value
  if value.head? = some chPlus || value.head? = some chMinus then
    let number := if value.head? = some chPlus then value.drop 1 else value
    match (Doubles.parseJson number : Option δ) with
    | some delta =>
      if Doubles.isZero delta || !Doubles.finite delta then
        parseError "increment mutation requires non-zero JSON number delta"
      else .ok { blankAction δ .increment segments with delta := delta }
    | none => parseError "increment mutation requires non-zero JSON number delta"
  else
    let (kind, value) ← parseValue δ value
    .ok { blankAction δ .set segments with valueKind := kind, value := some value }

/-- `mutation_parse_one` -/
def parseOne (env : Env) (raw : Bytes) : Parse (Action δ) :=
  let text := trim raw
  let lifted (r : Except Err (Action δ)) : Parse (Action δ) := StateT.lift r
  let removal (n : Nat) := lifted ((parsePath (text.drop n)).map (blankAction δ .remove))
  let increment (delta : δ) := lifted ((parsePath (text.take (text.length - 2))).map fun segments =>
    { blankAction δ .increment segments with delta := delta })
  if text = [] then fail "mutation expression is required"
  else if hasPrefix text "textfile:" then lifted (parseFileSet env .fileText (text.drop 9))
  else if hasPrefix text "base64file:" then lifted (parseFileSet env .fileBase64 (text.drop 11))
  else if hasPrefix text "file:" then lifted (parseFileSet env .fileAuto (text.drop 5))
  else if hasPrefix text "time:" then parseTimeSet env (text.drop 5)
  else if hasPrefix text "rm:" then removal 3
  else if hasPrefix text "remove:" then removal 7
  else if hasPrefix text "delete:" then removal 7
  else if hasPrefix text "del:" then removal 4
  else if endsTwice text chPlus then increment Doubles.one
  else if endsTwice text chMinus then increment Doubles.minusOne
  else match splitEqual text with
  | none => fail "mutation must be remove, increment, or path=value"
  | some (path, value) => lifted (parseAssignment path value)

end

end Lql.Mutation
