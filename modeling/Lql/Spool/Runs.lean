import Lql.Spool.Refine

/-!
# Runs of the spool

Any sequence of operations on a spool. Each that succeeds answers what it would answer on the bytes themselves, as long
as every append finds the position of the file at the end of the bytes: the spool writes where the last operation left
the position, and a read leaves it where it stopped. A reader delivers the bytes, as long as nothing lies behind them in
the file.
-/

namespace Lql.Spool

open Lib (Ends File ok_bind get_run)

variable {fate : Fate} {bytes : Bytes} {s : Spool}

/-! ## Operations -/

/-- What is done to a spool. -/
inductive Op where
  | reset
  | append (data : Bytes)
  | byteAt (offset : Nat)
  | findStringEnd (offset stop : Nat)
  | writeSlice (offset len : Nat) (writer : Writer)

/-- What comes back. -/
inductive Answer where
  | done
  | byte (b : UInt8)
  | stringEnd (i : Nat)
  | slice (written : Bytes)
  deriving DecidableEq, Repr

/-- The operation on the spool. -/
def perform (fate : Fate) : Op → SpoolM Answer
  | .reset => reset >>= fun _ => pure .done
  | .append data => append fate data >>= fun _ => pure .done
  | .byteAt offset => byteAt fate offset >>= fun b => pure (.byte b)
  | .findStringEnd offset stop => findStringEnd fate offset stop >>= fun i => pure (.stringEnd i)
  | .writeSlice offset len writer => writeSlice fate offset len writer >>= fun w => pure (.slice w.flatten)

/-- The operation on the bytes: what it answers. -/
def answer (bytes : Bytes) : Op → Option Answer
  | .reset => some .done
  | .append _ => some .done
  | .byteAt offset => bytes[offset]?.map .byte
  | .findStringEnd offset stop =>
    if bytes[offset]? = some chQuote then (stringEnd bytes offset stop).map .stringEnd else none
  | .writeSlice offset len _ =>
    if offset + len ≤ bytes.length then some (.slice ((bytes.drop offset).take len)) else none

/-- The operation on the bytes: what becomes of them. -/
def after (bytes : Bytes) : Op → Bytes
  | .reset => []
  | .append data => bytes ++ data
  | _ => bytes

/-- An append of at least one byte finds the position of the file at the end of the bytes. -/
def Ready (s : Spool) : Op → Prop
  | .append data => data ≠ [] → AtEnd s
  | _ => True

/-- **One operation.** It answers what it answers on the bytes, and leaves behind what it makes of them; where it fails,
the spool stands for the bytes it stood for. -/
theorem op_ends (op : Op) :
    Ends (fun s => Holds bytes s ∧ Ready s op) (perform fate op)
      (fun a s => Holds (after bytes op) s ∧ answer bytes op = some a) (Kept bytes) := by
  cases op with
  | reset => exact (reset_ends.weaken (fun s hs => hs.1) fun _ _ hs => hs).bind fun _ => Ends.pure fun s hs => ⟨hs, rfl⟩
  | append data => exact (append_ends data).bind fun _ => Ends.pure fun s hs => ⟨hs, rfl⟩
  | byteAt offset =>
    refine Ends.bind (((byteAt_ends offset).weaken (fun s hs => hs.1) fun _ _ hs => hs).stops fun _ _ => And.left)
      fun b => Ends.pure fun s hs => ?_
    exact ⟨hs.1, congrArg (Option.map Answer.byte) hs.2⟩
  | findStringEnd offset stop =>
    refine Ends.bind (((findStringEnd_ends offset stop).weaken (fun s hs => hs.1) fun _ _ hs => hs).stops
      fun _ _ => And.left) fun i => Ends.pure fun s ⟨hs, hquote, hend⟩ => ⟨hs, ?_⟩
    simp only [answer, if_pos hquote, hend, Option.map_some]
  | writeSlice offset len writer =>
    refine ((writeSlice_ends offset len writer).weaken (fun s hs => hs.1) fun _ _ hs => hs).bind fun w =>
      Ends.pure fun s ⟨hs, hle, hw⟩ => ⟨hs, ?_⟩
    simp only [answer, if_pos hle, hw]

/-! ## Runs -/

/-- The spool and the bytes appended to it, after any number of operations that are all `allowed`. -/
inductive Run (fate : Fate) (allowed : Spool → Op → Prop) : Spool → Bytes → Prop where
  | init : Run fate allowed {} []
  | ok {s s' : Spool} {bytes : Bytes} {op : Op} {a : Answer} :
      Run fate allowed s bytes → allowed s op → perform fate op s = .ok a s' → Run fate allowed s' (after bytes op)
  | failed {s s' : Spool} {bytes : Bytes} {op : Op} {e : Err} :
      Run fate allowed s bytes → allowed s op → perform fate op s = .error e s' → Run fate allowed s' bytes

theorem holds_init : Holds [] {} := ⟨rfl, fun _ => rfl, Nat.zero_le _, nofun, List.nil_prefix⟩

/-- At every point of a run the spool stands for the bytes. -/
theorem Run.holds (h : Run fate Ready s bytes) : Holds bytes s := by
  induction h with
  | init => exact holds_init
  | ok _ hready hrun ih => exact ((op_ends _).ok ⟨ih, hready⟩ hrun).1
  | failed _ hready hrun ih => exact (op_ends _).error ⟨ih, hready⟩ hrun

/-! ## The reader -/

/-- What a reader puts out, read after read, up to the first that fails. -/
def deliver (fate : Fate) : List Nat → Nat → Spool → List Bytes
  | [], _, _ => []
  | capacity :: capacities, offset, s =>
    match read fate offset capacity s with
    | .ok (chunk, offset) s => chunk :: deliver fate capacities offset s
    | .error _ _ => []

/-- A reader is initialised on the spool, and read from with these capacities. -/
def readAll (fate : Fate) (capacities : List Nat) (s : Spool) : List Bytes :=
  match readerInit fate s with
  | .ok offset s => deliver fate capacities offset s
  | .error _ _ => []

/-- Nothing lies behind the bytes in the file, and it can be set back to its beginning. -/
def ReadyToRead (fate : Fate) (s : Spool) : Prop :=
  ∀ f ∈ s.file, f.content.length = s.size ∧ fate (s.calls + 1) = none

/-- `n` of the bytes are delivered. -/
structure Delivered (bytes : Bytes) (n : Nat) (s : Spool) : Prop where
  le : n ≤ bytes.length
  memory : s.file = none → s.memory = bytes
  file : ∀ f ∈ s.file, f.content = bytes ∧ f.pos = n

theorem readerInit_ends {R : Err → Spool → Prop} :
    Ends (fun s => Holds bytes s ∧ ReadyToRead fate s) (readerInit fate) (fun n s => n = 0 ∧ Delivered bytes 0 s) R := by
  unfold readerInit
  refine Ends.get_bind fun s ⟨hs, hready⟩ => Ends.ite (fun hmem => Ends.pure ?_) fun hfile => ?_
  · rintro t rfl
    exact ⟨rfl, Nat.zero_le _, hs.memory, fun f hf => absurd (hmem.symm.trans hf) nofun⟩
  · obtain ⟨f, hf⟩ := Option.ne_none_iff_exists'.mp hfile
    obtain ⟨hlen, hseek⟩ := hready f hf
    have hcontent : f.content = bytes := ((hs.file f hf).eq_of_length (by rw [hlen, hs.size])).symm
    refine Ends.bind (Q := fun _ t => t = { s with calls := s.calls + 1 }) (fun t ht => by rw [ht]; rfl) fun _ => ?_
    refine Ends.bind (Q := fun _ => Delivered bytes 0) ?_ fun _ => Ends.pure fun t ht => ⟨rfl, ht⟩
    rintro t rfl
    have hwell : ((fate (s.calls + 1)).isNone && decide (0 < offLimit)) = true := by rw [hseek]; rfl
    simp only [seek, hf, Option.map_some, if_pos hwell]
    refine ⟨Nat.zero_le _, nofun, fun g hg => ?_⟩
    obtain rfl := Option.some.inj hg
    exact ⟨hcontent, rfl⟩

/-- What begins the rest of the bytes leaves the rest behind it. -/
theorem prefix_rest {chunk : Bytes} {n : Nat} (hn : n ≤ bytes.length) (h : chunk <+: bytes.drop n) :
    n + chunk.length ≤ bytes.length ∧ chunk ++ bytes.drop (n + chunk.length) = bytes.drop n := by
  have hle := h.length_le
  rw [List.length_drop] at hle
  obtain ⟨rest, hrest⟩ := h
  refine ⟨by omega, ?_⟩
  rw [← List.drop_drop, ← hrest, List.drop_left]

/-- Nothing is there to read only at the end. -/
theorem end_of_take_nil {n capacity : Nat} (hn : n ≤ bytes.length) (hc : capacity ≠ 0)
    (h : (bytes.drop n).take capacity = []) : n = bytes.length := by
  have hdrop := (List.take_eq_nil_iff.mp h).resolve_left hc
  exact Nat.le_antisymm hn (List.drop_eq_nil_iff.mp hdrop)

/-- A transfer reads what comes next, and nothing only at the end or with an error. -/
theorem fread_delivers {R : Err → Spool → Prop} {n capacity : Nat} (hc : capacity ≠ 0) :
    Ends (fun s => Delivered bytes n s ∧ s.file ≠ none) (fread fate capacity)
      (fun chunk s => Delivered bytes (n + chunk.length) s ∧
        chunk ++ bytes.drop (n + chunk.length) = bytes.drop n ∧
        (chunk = [] → s.fileError = false → n = bytes.length)) R := by
  rintro s ⟨hs, hfile⟩
  obtain ⟨f, hf⟩ := Option.ne_none_iff_exists'.mp hfile
  obtain ⟨hcontent, hpos⟩ := hs.file f hf
  have hpeek : f.peek capacity = (bytes.drop n).take capacity := by rw [File.peek, hcontent, hpos]
  have hmoved := moved_le (f.peek capacity).length (fate s.calls)
  have hlen : ((f.peek capacity).take (moved (f.peek capacity).length (fate s.calls))).length =
      moved (f.peek capacity).length (fate s.calls) := List.length_take_of_le hmoved
  have hprefix : (f.peek capacity).take (moved (f.peek capacity).length (fate s.calls)) <+: bytes.drop n :=
    (List.take_prefix ..).trans (hpeek ▸ List.take_prefix ..)
  obtain ⟨hle, hrest⟩ := prefix_rest hs.le hprefix
  simp only [fread, hf, Option.map_some]
  refine ⟨⟨hle, (fun h => by cases h), fun g hg => ?_⟩, hrest, fun hnil herr => end_of_take_nil hs.le hc ?_⟩
  · obtain rfl := Option.some.inj hg
    exact ⟨hcontent, by rw [File.advance_pos, hpos, hlen]⟩
  · have hall := (Bool.or_eq_false_iff.mp herr).2
    rw [decide_eq_false_iff_not, Nat.not_lt, ← hlen, hnil] at hall
    exact hpeek ▸ List.length_eq_zero_iff.mp (Nat.le_zero.mp hall)

/-- A read delivers what comes next, and nothing only when nothing is left. -/
theorem read_ends (n capacity : Nat) :
    Ends (Delivered bytes n) (read fate n capacity)
      (fun r s => Delivered bytes r.2 s ∧ r.1 ++ bytes.drop r.2 = bytes.drop n ∧ (r.1 = [] → n = bytes.length))
      (fun _ _ => True) := by
  unfold read
  refine refuse_bind _ (fun _ _ _ => trivial) fun hc => Ends.get_bind fun s hs => ?_
  refine Ends.ite (fun hmem => Ends.pure ?_) fun hfile => ?_
  · rintro t rfl
    rw [hs.memory hmem]
    obtain ⟨hle, hrest⟩ := prefix_rest hs.le (List.take_prefix capacity (bytes.drop n))
    exact ⟨⟨hle, hs.memory, fun f hf => absurd (hmem.symm.trans hf) nofun⟩, hrest, end_of_take_nil hs.le hc⟩
  · refine ((fread_delivers hc).weaken (fun t ht => by rw [ht]; exact ⟨hs, hfile⟩) fun _ _ ht => ht).bind fun chunk => ?_
    refine Ends.get_bind fun t ⟨ht, hrest, hend⟩ => refuse_bind _ (fun _ _ _ => trivial) fun herr => Ends.pure ?_
    rintro u rfl
    exact ⟨ht, hrest, fun hnil => hend hnil (Bool.eq_false_iff.mpr fun h => herr ⟨hnil, h⟩)⟩

/-- From `n` on the reader delivers what lies behind, in order, and all of it when a read delivers nothing. -/
theorem deliver_spec : ∀ (capacities : List Nat) {n : Nat} {s : Spool}, Delivered bytes n s →
    (deliver fate capacities n s).flatten <+: bytes.drop n ∧
      ([] ∈ deliver fate capacities n s → (deliver fate capacities n s).flatten = bytes.drop n)
  | [], _, _, _ => ⟨List.nil_prefix, nofun⟩
  | capacity :: capacities, n, s, h => by
    unfold deliver
    cases hr : read fate n capacity s with
    | error e s' => exact ⟨List.nil_prefix, nofun⟩
    | ok r s' =>
      obtain ⟨hnext, hchunk, hend⟩ := (read_ends n capacity).ok h hr
      have ih := deliver_spec capacities hnext
      simp only [List.flatten_cons]
      rw [← hchunk]
      refine ⟨(List.prefix_append_right_inj _).mpr ih.1, fun hmem => congrArg (r.1 ++ ·) ?_⟩
      rcases List.mem_cons.mp hmem with hnil | hlater
      · have hrest : bytes.drop r.2 = [] := by
          have hall := hchunk
          rw [← hnil, hend hnil.symm, List.drop_length] at hall
          exact hall
        rw [hrest] at ih ⊢
        exact List.prefix_nil.mp ih.1
      · exact ih.2 hlater

/-- Every call goes well. -/
def well : Fate := fun _ => none

theorem append_letter : perform well (.append [0x61]) {} = .ok .done { memory := [0x61], size := 1 } := rfl

section

variable {data : Bytes} {f : File UInt8}

theorem refuse_run {bad : Prop} [Decidable bad] (e : Err) (h : ¬ bad) (s : Spool) : refuse bad e s = .ok () s := by
  rw [refuse, if_neg h]
  rfl

theorem call_run (s : Spool) : call well s = .ok true { s with calls := s.calls + 1 } := rfl

theorem dropCache_run (s : Spool) : dropCache s = .ok () { s with readCache := [] } := rfl

theorem fwrite_run (hf : s.file = some f) :
    fwrite well data s = .ok data.length { s with file := some (f.write data), calls := s.calls + 1 } := by
  simp [fwrite, well, moved, hf]

theorem writeAll_run (hf : s.file = some f) (h : data ≠ []) :
    writeAll well data s = .ok () { s with file := some (f.write data), calls := s.calls + 1 } := by
  rw [writeAll, if_neg h, ok_bind (fwrite_run hf), refuse_run _ (by simp)]

/-- An append to the file writes where its position is. -/
theorem append_run (data : Bytes) (hf : s.file = some f) (hsize : data.length ≤ sizeMax - s.size) (h : data ≠ []) :
    append well data s = .ok () { s with
      size := s.size + data.length, file := some (f.write data), readCache := [], calls := s.calls + 1 } := by
  have hmem : ¬ (s.file = none ∧ data.length ≤ memoryBytes - s.memory.length) := by simp [hf]
  have hneed : needFile well s = .ok () s := by
    rw [needFile, get_run, if_neg (by simp [hf])]
    rfl
  rw [append, get_run, ok_bind (refuse_run _ (Nat.not_lt.mpr hsize) s), if_neg hmem, ok_bind hneed,
    ok_bind (dropCache_run s), ok_bind (writeAll_run (s := { s with readCache := [] }) hf h)]
  rfl

/-- More bytes than the memory holds go to the file. -/
theorem append_spills (h : memoryBytes < data.length) (hmax : data.length ≤ sizeMax) :
    append well data {} = .ok () { size := data.length, file := some ⟨data, data.length⟩, calls := 2 } := by
  have hsize : ¬ sizeMax - ({} : Spool).size < data.length := Nat.not_lt.mpr hmax
  have hmem : ¬ (({} : Spool).file = none ∧ data.length ≤ memoryBytes - ({} : Spool).memory.length) :=
    fun hin => Nat.not_le.mpr h hin.2
  have hdata : data ≠ [] := by
    rintro rfl
    simp at h
  have hneed : needFile well {} = .ok () { file := some .empty, calls := 1 } := rfl
  rw [append, get_run, ok_bind (refuse_run _ hsize _), if_neg hmem, ok_bind hneed,
    ok_bind (dropCache_run _), ok_bind (writeAll_run rfl hdata)]
  have hwrite : (File.empty : File UInt8).write data = ⟨data, data.length⟩ := by simp [File.write, File.empty]
  rw [hwrite]
  show EStateM.Result.ok () ({ size := 0 + data.length, file := some ⟨data, data.length⟩, calls := 2 } : Spool) = _
  rw [Nat.zero_add]

theorem readFrom_run {offset : Nat} (e : Err) (hf : s.file = some f) (hoff : offset < offLimit) :
    readFrom well offset e s = .ok () { s with file := some (f.seek offset), calls := s.calls + 2 } := by
  have hseek : flushSeek well offset s = .ok true { s with file := some (f.seek offset), calls := s.calls + 2 } := by
    rw [flushSeek, ok_bind (call_run s)]
    simp [well, seek, hf, hoff]
  rw [readFrom, ok_bind hseek]
  rfl

theorem fillCache_run {offset amount : Nat} (e : Err) (hf : s.file = some f) (hlen : (f.peek amount).length = amount) :
    fillCache well offset amount e s = .ok (f.peek amount) { s with
      file := some (f.advance amount), readCacheOffset := offset, readCache := f.peek amount, calls := s.calls + 1 } := by
  have hread : fread well amount s =
      .ok (f.peek amount) { s with file := some (f.advance amount), calls := s.calls + 1 } := by
    simp [fread, well, moved, hf, hlen, List.take_of_length_le]
  rw [fillCache, ok_bind hread, if_pos hlen]
  rfl

theorem needCache_run (s : Spool) : ∃ n, needCache well s = .ok () { s with cacheAllocated := true, calls := n } := by
  obtain ⟨memory, size, file, fileError, allocated, offset, cache, calls⟩ := s
  cases allocated with
  | true => exact ⟨calls, rfl⟩
  | false => exact ⟨calls + 1, rfl⟩

/-- A byte that is not cached is read, and the position comes to stand behind what is cached. -/
theorem byteAt_run (offset amount : Nat) (hf : s.file = some f) (ho : offset < s.size) (hoff : offset < offLimit)
    (hc : s.readCache = []) (ha : amount = min (s.size - offset) ioBufferBytes)
    (hlen : ((f.seek offset).peek amount).length = amount) :
    ∃ n, byteAt well offset s = .ok (((f.seek offset).peek amount).getD 0 0) { s with
      file := some ((f.seek offset).advance amount), cacheAllocated := true
      readCacheOffset := offset, readCache := (f.seek offset).peek amount, calls := n } := by
  obtain ⟨n, hneed⟩ := needCache_run s
  have hmiss : ¬ (s.readCacheOffset ≤ offset ∧ offset < s.readCacheOffset + s.readCache.length) := by
    rw [hc]
    exact fun h => absurd h.2 (Nat.not_lt.mpr h.1)
  refine ⟨n + 3, ?_⟩
  rw [byteAt, get_run, ok_bind (refuse_run _ (Nat.not_le.mpr ho) s), if_neg (by simp [hf]), ok_bind hneed,
    if_neg hmiss, ok_bind (readFrom_run (s := { s with cacheAllocated := true, calls := n }) _ hf hoff), ← ha,
    ok_bind (fillCache_run _ rfl hlen)]
  rfl

/-- What was written over the bytes is what is read. -/
theorem peek_write {n : Nat} {b : UInt8} (h : f.pos ≤ f.content.length) :
    (((f.write [b]).seek f.pos).peek (n + 1)).getD 0 0 = b := by
  have hlen : (f.content.take f.pos).length = f.pos := List.length_take_of_le h
  rw [File.peek, File.seek_content, File.seek_pos, f.write_content h, List.append_assoc]
  nth_rewrite 1 [← hlen]
  rw [List.drop_left]
  rfl

end

end Lql.Spool
