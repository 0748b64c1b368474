import Lql.Json.Validate
import Lql.Lib.Base64
import Lql.Lib.Ends
import Lql.Mutation.Action

/-!
# Values that are the contents of files

`base64file:`, `textfile:` and `file:` values. A file is opened anew for every pass over it, and what is read comes in
chunks of any size up to what the pass has room for. A text pass validates and escapes byte by byte; a base64 pass keeps
the bytes of an unfinished group from one chunk to the next and collects letters in an area of fixed size.
-/

namespace Lql.Mutation.FileValue

open Json (Utf8State utf8Accept)

/-- How a callback fails: its status, and the message if it leaves one. -/
structure Fault where
  status : Status
  message : Option String := none
  deriving DecidableEq, Repr

/-- The error that is left; `message` where the callback leaves none. -/
def Fault.err (fault : Fault) (message : String) : Err := ⟨fault.status, fault.message.getD message⟩

/-- An operation ends early with an error, or because it writes behind the end of an array. -/
inductive Halt where
  | failed (e : Err)
  | overrun
  deriving DecidableEq, Repr

/-- What a reader delivers, read after read. Behind the last there is nothing. -/
abbrev Stream := List (Except Fault Bytes)

/-- The callbacks and the allocator. Passes over the file are counted: for each, whether its buffer is granted, and what
opening the file comes to, namely a reader that delivers in portions of up to the capacity it is asked with. -/
structure Host where
  grants : Nat → Bool
  opens : Nat → Except Fault (Nat → Stream)
  writer : List Bytes → Bytes → Option Fault

/-- The passes made so far, and what the writer was handed. -/
structure Io where
  passes : Nat := 0
  written : List Bytes := []
  deriving DecidableEq, Repr

abbrev FileM := EStateM Halt Io

variable (host : Host)

def fail {α : Type} (e : Err) : FileM α := throw (.failed e)

/-- `lql_flat_eq_write` -/
def write (data : Bytes) : FileM Unit := fun s =>
  match host.writer s.written data with
  | none => .ok () { s with written := s.written ++ [data] }
  | some fault => .error (.failed (fault.err "stream writer failed")) s

/-- The buffer of a pass is allocated and the file opened: `lql_flat_eq_file_open`. -/
def openPass (capacity : Nat) : FileM Stream := fun s =>
  if host.grants s.passes then
    match host.opens s.passes with
    | .ok reader => .ok (reader capacity) { s with passes := s.passes + 1 }
    | .error fault => .error (.failed (fault.err "file value open callback failed")) { s with passes := s.passes + 1 }
  else .error (.failed ⟨.noMemory, "out of memory allocating file value buffer"⟩) s

/-- The loop over the reads of a pass, each one `lql_flat_eq_file_read`; it goes on until nothing is read, or `stop`. -/
def forChunks {β : Type} (capacity : Nat) (stop : β → Bool) (body : β → Bytes → FileM β) : Stream → β → FileM β
  | [], b => pure b
  | .error fault :: _, _ => fail (fault.err "file value reader failed")
  | .ok chunk :: rest, b =>
    if capacity < chunk.length then fail ⟨.callbackError, "file value reader exceeded its buffer capacity"⟩
    else if chunk = [] then pure b
    else do
      let b ← body b chunk
      if stop b then pure b else forChunks capacity stop body rest b

/-! ## Text -/

def invalidUtf8 : Err := ⟨.jsonError, "textfile mutation value is not valid UTF-8"⟩

/-- One byte is checked. -/
def checkByte (utf8 : Utf8State) (ch : UInt8) : Except Err Utf8State :=
  if ch = 0 then .error ⟨.jsonError, "textfile mutation value contains NUL byte"⟩
  else
    match utf8Accept utf8 ch with
    | some utf8 => .ok utf8
    | none => .error invalidUtf8

/-- The bytes of one chunk in `lql_flat_eq_file_textlike`; `none` when they are no text and that is no error. -/
def textlikeBytes (strict : Bool) : Utf8State → Bytes → FileM (Option Utf8State)
  | utf8, [] => pure (some utf8)
  | utf8, ch :: rest =>
    match checkByte utf8 ch with
    | .ok utf8 => textlikeBytes strict utf8 rest
    | .error e => if strict then fail e else pure none

/-- `lql_flat_eq_file_textlike` -/
def textlike (strict : Bool) : FileM Bool := do
  let stream ← openPass host 4096
  let utf8 ← forChunks 4096 (·.isNone)
    (fun utf8 chunk => textlikeBytes strict (utf8.getD {}) chunk) stream (some {})
  match utf8 with
  | none => pure false
  | some utf8 =>
    if utf8.remaining = 0 then pure true
    else if strict then fail invalidUtf8
    else pure false

/-- `"0123456789abcdef"` -/
def hexDigits : Bytes :=
  [0x30, 0x31, 0x32, 0x33, 0x34, 0x35, 0x36, 0x37, 0x38, 0x39, 0x61, 0x62, 0x63, 0x64, 0x65, 0x66]

/-- What is written for one byte, write by write. -/
def escaped (ch : UInt8) : List Bytes :=
  if ch = chQuote ∨ ch = chBackslash then [[chBackslash], [ch]]
  else if ch < 0x20 then
    [[chBackslash, chU, chZero, chZero, hexDigits.getD (ch.toNat >>> 4) 0, hexDigits.getD (ch.toNat &&& 0x0f) 0]]
  else [[ch]]

/-- One byte of `lql_flat_eq_file_text_json_string`. -/
def textByte (validate : Bool) (utf8 : Utf8State) (ch : UInt8) : FileM Utf8State :=
  match if validate then checkByte utf8 ch else .ok utf8 with
  | .error e => fail e
  | .ok utf8 => do
    (escaped ch).forM (write host)
    pure utf8

/-- `lql_flat_eq_file_text_json_string` -/
def textJsonString (validate : Bool) : FileM Unit := do
  let stream ← openPass host 4096
  write host [chQuote]
  let utf8 ← forChunks 4096 (fun _ => false) (fun utf8 chunk => chunk.foldlM (textByte host validate) utf8) stream {}
  if validate ∧ utf8.remaining ≠ 0 then fail invalidUtf8
  else write host [chQuote]

/-! ## Base64 -/

/-- The capacity of the input buffer. -/
abbrev inputBytes : Nat := 12288

/-- The size of the output area: 28672 bytes less those of the input buffer. -/
abbrev outputBytes : Nat := 16384

/-- `"ABCDEFGHIJKLMNOPQRSTUVWXYZabcdefghijklmnopqrstuvwxyz0123456789+/"` -/
def table : Bytes :=
  [0x41, 0x42, 0x43, 0x44, 0x45, 0x46, 0x47, 0x48, 0x49, 0x4a, 0x4b, 0x4c, 0x4d, 0x4e, 0x4f, 0x50,
   0x51, 0x52, 0x53, 0x54, 0x55, 0x56, 0x57, 0x58, 0x59, 0x5a, 0x61, 0x62, 0x63, 0x64, 0x65, 0x66,
   0x67, 0x68, 0x69, 0x6a, 0x6b, 0x6c, 0x6d, 0x6e, 0x6f, 0x70, 0x71, 0x72, 0x73, 0x74, 0x75, 0x76,
   0x77, 0x78, 0x79, 0x7a, 0x30, 0x31, 0x32, 0x33, 0x34, 0x35, 0x36, 0x37, 0x38, 0x39, 0x2b, 0x2f]

/-- `table[(triple >> shift) & 0x3f]` -/
def tableAt (triple shift : Nat) : UInt8 := table.getD ((triple >>> shift) &&& 0x3f) 0

/-- The letters of three bytes. -/
def quad (a b c : UInt8) : Bytes :=
  let triple := a.toNat <<< 16 ||| b.toNat <<< 8 ||| c.toNat
  [tableAt triple 18, tableAt triple 12, tableAt triple 6, tableAt triple 0]

/-- The letters of the one or two bytes that are left at the end. -/
def lastQuad (carry : Bytes) : Bytes :=
  let two := carry.length = 2
  let triple := (carry.getD 0 0).toNat <<< 16 ||| if two then (carry.getD 1 0).toNat <<< 8 else 0
  [tableAt triple 18, tableAt triple 12, if two then tableAt triple 6 else Lib.Base64.pad, Lib.Base64.pad]

/-- Bytes are put behind the first ones of an array of `size` bytes. -/
def put (size : Nat) (array bytes : Bytes) : FileM Bytes :=
  if size < array.length + bytes.length then throw .overrun else pure (array ++ bytes)

/-- What is collected goes to the writer. -/
def flush (out : Bytes) : FileM Bytes :=
  if out = [] then pure []
  else do
    write host out
    pure []

/-- A group that was begun is filled up from the chunk; the answer is what is carried, what is collected and what is left
of the chunk. -/
def fillCarry (carry out buffer : Bytes) : FileM (Bytes × Bytes × Bytes) :=
  if carry = [] then pure (carry, out, buffer)
  else do
    let carry' ← put 3 carry (buffer.take (3 - carry.length))
    if carry'.length = 3 then
      let out ← put outputBytes out (quad (carry'.getD 0 0) (carry'.getD 1 0) (carry'.getD 2 0))
      pure ([], out, buffer.drop (3 - carry.length))
    else pure (carry', out, buffer.drop (3 - carry.length))

/-- The groups of three bytes; the answer is what is collected and what is left of the chunk. -/
def groups : Bytes → Bytes → FileM (Bytes × Bytes)
  | out, a :: b :: c :: rest => do
    let out ← put outputBytes out (quad a b c)
    groups out rest
  | out, rest => pure (out, rest)

/-- One chunk of `lql_flat_eq_file_base64_json_string`. -/
def base64Chunk (carryOut : Bytes × Bytes) (buffer : Bytes) : FileM (Bytes × Bytes) := do
  let (carry, out, rest) ← fillCarry carryOut.1 carryOut.2 buffer
  let (out, rest) ← groups out rest
  let out ← flush host out
  let carry ← put 3 carry rest
  pure (carry, out)

/-- The bytes that are left at the end. -/
def base64Last (carry out : Bytes) : FileM Bytes :=
  if carry = [] then pure out
  else do
    let out ← if outputBytes < out.length + 4 then flush host out else pure out
    put outputBytes out (lastQuad carry)

/-- `lql_flat_eq_file_base64_json_string` -/
def base64JsonString : FileM Unit := do
  let stream ← openPass host inputBytes
  write host [chQuote]
  let (carry, out) ← forChunks inputBytes (fun _ => false) (base64Chunk host) stream ([], [])
  let out ← base64Last host carry out
  let _ ← flush host out
  write host [chQuote]

/-- `lql_flat_eq_file_value` -/
def fileValue (valueKind : ValueKind) : FileM Unit :=
  if valueKind = .fileBase64 then base64JsonString host
  else if valueKind = .fileText then do
    let _ ← textlike host true
    textJsonString host true
  else do
    if ← textlike host false then textJsonString host true else base64JsonString host

end Lql.Mutation.FileValue
