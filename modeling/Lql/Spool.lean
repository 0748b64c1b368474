import Lql.Basic
import Lql.Lib.File
import Lql.Lib.Ends

/-!
# The spool

`lql_json_spool`: the bytes of one JSON value, kept in memory up to a limit and in a temporary file beyond it. The file
is an ordinary one, with one position that appends and reads share; single bytes are read through a cache.

Every call to the outside (an allocation, a temporary file, a flush, a seek, a transfer) can fail. The calls are
counted, and `fate` says what becomes of each: it goes well, or it stops, a transfer after so many bytes.
-/

namespace Lql.Spool

open Lib (File)

/-- `LQL_JSON_SPOOL_MEMORY_BYTES` -/
abbrev memoryBytes : Nat := 64 * 1024

/-- `LQL_JSON_SPOOL_IO_BUFFER_BYTES` -/
abbrev ioBufferBytes : Nat := 4096

/-- What an `off_t` cannot hold. -/
abbrev offLimit : Nat := 2 ^ 63

/-- `lql_json_spool`: `memory` is its first `memory_len` bytes and `readCache` those that `read_cache_len` counts;
`cacheAllocated` says that `read_cache` is not null. -/
structure Spool where
  memory : Bytes := []
  size : Nat := 0
  file : Option (File UInt8) := none
  /-- `ferror(file)` -/
  fileError : Bool := false
  cacheAllocated : Bool := false
  readCacheOffset : Nat := 0
  readCache : Bytes := []
  /-- Calls to the outside so far. -/
  calls : Nat := 0
  deriving DecidableEq, Repr

/-- What becomes of a call to the outside: `none` when it goes well, else how far a transfer comes. -/
abbrev Fate := Nat → Option Nat

abbrev SpoolM := EStateM Err Spool

variable (fate : Fate)

/-! ## Calls to the outside -/

/-- A call that goes well or does not. -/
def call : SpoolM Bool := fun s => .ok (fate s.calls).isNone { s with calls := s.calls + 1 }

/-- `lql_json_spool_seek` -/
def seek (offset : Nat) : SpoolM Bool := fun s =>
  let well := (fate s.calls).isNone && decide (offset < offLimit)
  .ok well { s with file := if well then s.file.map (·.seek offset) else s.file, calls := s.calls + 1 }

/-- How many of `n` bytes a transfer moves. -/
def moved (n : Nat) : Option Nat → Nat
  | none => n
  | some k => min k n

/-- `fwrite`: the number of bytes written. -/
def fwrite (data : Bytes) : SpoolM Nat := fun s =>
  let n := moved data.length (fate s.calls)
  .ok n { s with
    file := s.file.map (·.write (data.take n))
    fileError := s.fileError || decide (n < data.length)
    calls := s.calls + 1 }

/-- `fread`: the bytes read; fewer than asked for at the end of the file. -/
def fread (n : Nat) : SpoolM Bytes := fun s =>
  let there := match s.file with
    | none => []
    | some f => f.peek n
  let k := moved there.length (fate s.calls)
  .ok (there.take k) { s with
    file := s.file.map (·.advance k)
    fileError := s.fileError || decide (k < there.length)
    calls := s.calls + 1 }

/-- The operation stops where a condition is not met. -/
def refuse (bad : Prop) [Decidable bad] (e : Err) : SpoolM Unit := if bad then throw e else pure ()

/-- The operation stops where a call does not go well. -/
def need (x : SpoolM Bool) (e : Err) : SpoolM Unit := do
  if ← x then pure () else throw e

/-- `fflush(file) != 0 || lql_json_spool_seek(file, offset) != 0`, the other way round. -/
def flushSeek (offset : Nat) : SpoolM Bool := do
  if ← call fate then seek fate offset else pure false

/-- The cache forgets what it holds. -/
def dropCache : SpoolM Unit := modify fun s => { s with readCache := [] }

/-! ## Reset and append -/

/-- `lql_json_spool_reset` -/
def reset : SpoolM Unit := modify fun s =>
  { s with memory := [], size := 0, file := none, fileError := false, readCacheOffset := 0, readCache := [] }

/-- `lql_json_spool_spill`: the file is the spool's once the memory is in it. -/
def spill : SpoolM Unit := do
  need (call fate) ⟨.ioError, "unable to create JSON spool file"⟩
  let s ← get
  if s.memory = [] then
    modify fun s => { s with file := some File.empty, fileError := false }
  else
    modify fun s => { s with calls := s.calls + 1 }
    refuse (moved s.memory.length (fate s.calls) ≠ s.memory.length)
      ⟨.ioError, "unable to write JSON spool file"⟩
    modify fun s => { s with file := some (File.empty.write s.memory), fileError := false }

/-- The file is there. -/
def needFile : SpoolM Unit := do
  let s ← get
  if s.file = none then spill fate else pure ()

/-- All of `data` goes to the file. -/
def writeAll (data : Bytes) : SpoolM Unit :=
  if data = [] then pure ()
  else do
    let n ← fwrite fate data
    refuse (n ≠ data.length) ⟨.ioError, "unable to write JSON spool file"⟩

/-- `lql_json_spool_append` -/
def append (data : Bytes) : SpoolM Unit := do
  let s ← get
  refuse (sizeMax - s.size < data.length) ⟨.noMemory, "JSON spool is too large"⟩
  if s.file = none ∧ data.length ≤ memoryBytes - s.memory.length then
    modify fun s => { s with memory := s.memory ++ data, size := s.size + data.length }
  else
    needFile fate
    dropCache
    writeAll fate data
    modify fun s => { s with size := s.size + data.length }

/-! ## Slices -/

/-- A `lql_stream_writer_fn`: what it answers to the next chunk after the chunks it has been handed. -/
abbrev Writer := List Bytes → Bytes → Option Err

/-- What is left is moved at least a byte at a time. -/
theorem amount_pos {len : Nat} (h : len ≠ 0) : 0 < min len ioBufferBytes :=
  Nat.lt_min.mpr ⟨Nat.pos_of_ne_zero h, by decide⟩

/-- A chunk goes to the writer. -/
def hand (writer : Writer) (written : List Bytes) (chunk : Bytes) : SpoolM (List Bytes) :=
  match writer written chunk with
  | none => pure (written ++ [chunk])
  | some e => throw e

/-- The loop of `lql_json_spool_write_slice`. -/
def writeChunks (writer : Writer) (capacity : Nat) (hc : 0 < capacity) (offset len : Nat) (written : List Bytes) :
    SpoolM (List Bytes) :=
  if _h : len = 0 then pure written
  else do
    let amount := min len capacity
    need (flushSeek fate offset) ⟨.ioError, "unable to read JSON spool slice"⟩
    let buffer ← fread fate amount
    refuse (buffer.length ≠ amount) ⟨.ioError, "unable to read JSON spool slice"⟩
    let written ← hand writer written buffer
    writeChunks writer capacity hc (offset + amount) (len - amount) written
  termination_by len
  decreasing_by omega

/-- `lql_json_spool_write_slice`: the chunks the writer was handed. -/
def writeSlice (offset len : Nat) (writer : Writer) : SpoolM (List Bytes) := do
  let s ← get
  refuse (s.size < offset ∨ s.size - offset < len)
    ⟨.invalidArgument, "JSON spool slice arguments are invalid"⟩
  if s.file = none then
    hand writer [] ((s.memory.drop offset).take len)
  else if h : len = 0 then pure []
  else
    need (call fate) ⟨.noMemory, "out of memory reading JSON spool"⟩
    writeChunks fate writer (min len ioBufferBytes) (amount_pos h) offset len []

/-! ## Single bytes -/

/-- `read_cache` is allocated where it is not yet. -/
def needCache : SpoolM Unit := do
  let s ← get
  if s.cacheAllocated then pure ()
  else
    need (call fate) ⟨.noMemory, "out of memory reading JSON spool"⟩
    modify fun s => { s with cacheAllocated := true }

/-- The file is set to be read from `offset` on; where that fails the cache is dropped. -/
def readFrom (offset : Nat) (e : Err) : SpoolM Unit := do
  if ← flushSeek fate offset then pure ()
  else
    dropCache
    throw e

/-- The cache is filled with `amount` bytes of the file, which are those from `offset` on. -/
def fillCache (offset amount : Nat) (e : Err) : SpoolM Bytes := do
  let bytes ← fread fate amount
  if bytes.length = amount then
    modify fun s => { s with readCacheOffset := offset, readCache := bytes }
    pure bytes
  else
    dropCache
    throw e

/-- `lql_json_spool_byte_at` -/
def byteAt (offset : Nat) : SpoolM UInt8 := do
  let s ← get
  refuse (s.size ≤ offset) ⟨.invalidArgument, "JSON spool byte arguments are invalid"⟩
  if s.file = none then
    pure (s.memory.getD offset 0)
  else
    needCache fate
    if s.readCacheOffset ≤ offset ∧ offset < s.readCacheOffset + s.readCache.length then
      pure (s.readCache.getD (offset - s.readCacheOffset) 0)
    else
      readFrom fate offset ⟨.ioError, "unable to read JSON spool byte"⟩
      let bytes ← fillCache fate offset (min (s.size - offset) ioBufferBytes)
        ⟨.ioError, "unable to read JSON spool byte"⟩
      pure (bytes.getD 0 0)

/-! ## The end of a string -/

/-- `lql_json_spool_string_chunk_end`: what lies behind the closing quote, and whether the chunk ends behind a
backslash. -/
def stringChunkEnd (data : Bytes) (offset : Nat) (escaped : Bool) : Option Nat × Bool :=
  if h : offset < data.length then
    if escaped then stringChunkEnd data (offset + 1) false
    else
      match (data.drop offset).idxOf? chQuote, (data.drop offset).idxOf? chBackslash with
      | none, none => (none, escaped)
      | none, some slash => stringChunkEnd data (offset + slash + 1) true
      | some quote, none => (some (offset + quote + 1), escaped)
      | some quote, some slash =>
        if slash < quote then stringChunkEnd data (offset + slash + 1) true
        else (some (offset + quote + 1), escaped)
  else (none, escaped)
  termination_by data.length - offset

/-- The loop of `lql_json_spool_find_string_end` over the file. -/
def findInFile (pos stop : Nat) (escaped : Bool) : SpoolM Nat :=
  if _h : pos < stop then do
    let amount := min (stop - pos) ioBufferBytes
    let chunk ← fillCache fate pos amount ⟨.ioError, "unable to scan JSON spool string"⟩
    match stringChunkEnd chunk 0 escaped with
    | (some i, _) => pure (pos + i)
    | (none, escaped) => findInFile (pos + amount) stop escaped
  else throw ⟨.jsonError, "unterminated JSON spool string"⟩
  termination_by stop - pos
  decreasing_by
    have : 0 < min (stop - pos) ioBufferBytes := amount_pos (by omega)
    omega

/-- `lql_json_spool_find_string_end` -/
def findStringEnd (offset stop : Nat) : SpoolM Nat := do
  let s ← get
  refuse (stop ≤ offset ∨ s.size < stop)
    ⟨.invalidArgument, "JSON spool string scan arguments are invalid"⟩
  let ch ← byteAt fate offset
  refuse (ch ≠ chQuote) ⟨.jsonError, "JSON spool string scan expected quote"⟩
  if s.file = none then
    match stringChunkEnd ((s.memory.drop (offset + 1)).take (stop - (offset + 1))) 0 false with
    | (some found, _) => pure (offset + 1 + found)
    | (none, _) => throw ⟨.jsonError, "unterminated JSON spool string"⟩
  else
    readFrom fate (offset + 1) ⟨.ioError, "unable to scan JSON spool string"⟩
    findInFile fate (offset + 1) stop false

/-! ## The reader -/

/-- `lql_json_spool_reader_init`: the file goes back to its beginning, and what the two calls return is not looked at. The
answer is the reader's offset. -/
def readerInit : SpoolM Nat := do
  let s ← get
  if s.file = none then pure 0
  else
    let _ ← call fate
    let _ ← seek fate 0
    pure 0

/-- `lql_json_spool_read`: what it puts into the buffer, and the reader's offset behind it. -/
def read (offset capacity : Nat) : SpoolM (Bytes × Nat) := do
  refuse (capacity = 0) ⟨.invalidArgument, "JSON spool reader arguments are invalid"⟩
  let s ← get
  if s.file = none then
    let chunk := (s.memory.drop offset).take capacity
    pure (chunk, offset + chunk.length)
  else
    let chunk ← fread fate capacity
    let s ← get
    refuse (chunk = [] ∧ s.fileError) ⟨.ioError, "unable to read JSON spool file"⟩
    pure (chunk, offset + chunk.length)

end Lql.Spool
