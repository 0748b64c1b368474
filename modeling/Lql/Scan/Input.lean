import Lql.Basic

/-!
# The read buffer

The scanner reads through a buffer that the caller's reader fills. A reader is
the list of the chunks it will deliver; a read of length zero, or the end of the
list, is the end of the input. Only the part of the buffer that has not been
consumed is kept.
-/

namespace Lql.Scan

/-- `LQL_JSON_READ_BUFFER_SIZE` -/
abbrev readBufferSize : Nat := 16384

/-- `buffer[offset..length)`, what the reader still holds, `bytes_read` and `eof`. -/
structure Input where
  buffer : Bytes
  chunks : List Bytes
  bytesRead : Nat
  eof : Bool
  deriving DecidableEq, Repr

/-- A scan that has not read anything yet. -/
def Input.start (chunks : List Bytes) : Input := ⟨[], chunks, 0, false⟩

/-- An upper bound on the bytes to come, which bounds every loop over the input. -/
def Input.size (i : Input) : Nat := i.buffer.length + i.chunks.flatten.length

/-- `lql_json_refill` -/
def Input.refill (i : Input) : Except Err Input :=
  if i.buffer ≠ [] then .ok i
  else if i.eof then .ok i
  else
    match i.chunks with
    | [] => .ok { i with eof := true }
    | chunk :: chunks =>
      if chunk.length > readBufferSize then
        .error (.json "JSON reader exceeded its buffer capacity")
      else
        .ok { buffer := chunk, chunks, bytesRead := i.bytesRead + chunk.length
              eof := chunk = [] }

/-- `++scan->offset` -/
def Input.advance (i : Input) : Input := { i with buffer := i.buffer.tail }

/-- `scan->offset += n` -/
def Input.skip (i : Input) (n : Nat) : Input := { i with buffer := i.buffer.drop n }

/-- `lql_json_consumed` -/
def Input.consumed (i : Input) : Nat := i.bytesRead - i.buffer.length

end Lql.Scan
