import Mathlib.Data.List.Infix
import Lql.Spool

/-!
# The spool is a byte string

What a spool stands for is the bytes appended to it since it was last emptied. They are in the memory or at the
beginning of the file, and what the cache holds are bytes of them. Reading moves the position of the file, and an
append writes where the position is: it keeps what the spool stands for where the position is at the end.
-/

namespace Lql.Spool

open Lib (Ends File)

variable {fate : Fate} {bytes : Bytes}

/-! ## What a string scan finds -/

/-- What lies behind the first quote that no backslash escapes, and whether the text ends behind a backslash. -/
def stringScan : Bytes → Bool → Option Nat × Bool
  | [], escaped => (none, escaped)
  | _ :: cs, true => ((stringScan cs false).1.map (· + 1), (stringScan cs false).2)
  | c :: cs, false =>
    if c = chQuote then (some 1, false)
    else ((stringScan cs (c == chBackslash)).1.map (· + 1), (stringScan cs (c == chBackslash)).2)

/-- The scan of a text whose first part has no end of its own. -/
theorem stringScan_append : ∀ {xs : Bytes} (ys : Bytes) {escaped : Bool}, (stringScan xs escaped).1 = none →
    stringScan (xs ++ ys) escaped =
      ((stringScan ys (stringScan xs escaped).2).1.map (· + xs.length), (stringScan ys (stringScan xs escaped).2).2)
  | [], ys, escaped, _ => by simp [stringScan]
  | c :: xs, ys, true, h => by
    simp only [stringScan, Option.map_eq_none_iff] at h
    simp only [List.cons_append, stringScan, stringScan_append ys h, Option.map_map, List.length_cons]
    congr 2
  | c :: xs, ys, false, h => by
    by_cases hc : c = chQuote
    · simp [stringScan, hc] at h
    · simp only [stringScan, if_neg hc, Option.map_eq_none_iff] at h
      simp only [List.cons_append, stringScan, if_neg hc, stringScan_append ys h, Option.map_map, List.length_cons]
      congr 2

/-- An end found in a part is the end of the whole. -/
theorem stringScan_found : ∀ {xs : Bytes} (ys : Bytes) {escaped : Bool} {i : Nat},
    (stringScan xs escaped).1 = some i → (stringScan (xs ++ ys) escaped).1 = some i
  | [], _, _, _, h => by simp [stringScan] at h
  | c :: xs, ys, true, i, h => by
    obtain ⟨j, hj, rfl⟩ := Option.map_eq_some_iff.mp h
    simp [stringScan, stringScan_found ys hj]
  | c :: xs, ys, false, i, h => by
    by_cases hc : c = chQuote
    · simpa [stringScan, hc] using h
    · simp only [stringScan, if_neg hc] at h
      obtain ⟨j, hj, rfl⟩ := Option.map_eq_some_iff.mp h
      simp [stringScan, hc, stringScan_found ys hj]

/-- A text with neither quotes nor backslashes has no end. -/
theorem stringScan_plain : ∀ {xs : Bytes}, chQuote ∉ xs → chBackslash ∉ xs → stringScan xs false = (none, false)
  | [], _, _ => rfl
  | c :: xs, hq, hs => by
    rw [List.mem_cons, not_or] at hq hs
    have hc : (c == chBackslash) = false := beq_eq_false_iff_ne.mpr (Ne.symm hs.1)
    simp [stringScan, Ne.symm hq.1, hc, stringScan_plain hq.2 hs.2]

/-- A text is what lies before its first `c`, and the rest. -/
theorem split_at_idxOf {c : UInt8} {xs : Bytes} {i : Nat} (h : xs.idxOf? c = some i) :
    xs = xs.take i ++ c :: xs.drop (i + 1) ∧ c ∉ xs.take i ∧ i < xs.length := by
  obtain ⟨hlt, hc, hbefore⟩ := List.idxOf?_eq_some_iff.mp h
  refine ⟨?_, ?_, hlt⟩
  · rw [← hc, List.getElem_cons_drop, List.take_append_drop]
  · intro hmem
    obtain ⟨j, hj, hj'⟩ := List.mem_iff_getElem.mp hmem
    rw [List.length_take] at hj
    rw [List.getElem_take] at hj'
    exact hbefore j (by omega) hj'

/-- The scan up to the first backslash, where no quote comes before it. -/
theorem stringScan_slash {xs : Bytes} (ys : Bytes) (hq : chQuote ∉ xs) (hs : chBackslash ∉ xs) :
    stringScan (xs ++ chBackslash :: ys) false =
      ((stringScan ys true).1.map (· + (xs.length + 1)), (stringScan ys true).2) := by
  have hplain := stringScan_plain hq hs
  have hne : chBackslash ≠ chQuote := by decide
  rw [stringScan_append _ (by rw [hplain]), hplain]
  simp [stringScan, hne, Option.map_map, Function.comp_def, Nat.add_assoc, Nat.add_comm 1]

/-- The scan up to the first quote, where no backslash comes before it. -/
theorem stringScan_quote {xs : Bytes} (ys : Bytes) (hq : chQuote ∉ xs) (hs : chBackslash ∉ xs) :
    stringScan (xs ++ chQuote :: ys) false = (some (xs.length + 1), false) := by
  have hplain := stringScan_plain hq hs
  rw [stringScan_append _ (by rw [hplain]), hplain]
  simp [stringScan, Nat.add_comm]

theorem not_mem_take_of_le {c : UInt8} {xs : Bytes} {m n : Nat} (h : c ∉ xs.take n) (hmn : m ≤ n) : c ∉ xs.take m :=
  fun hmem => h (List.mem_of_mem_take (i := m) (by rwa [List.take_take, Nat.min_eq_left hmn]))

theorem not_mem_take_of_none {c : UInt8} {xs : Bytes} (h : xs.idxOf? c = none) (n : Nat) : c ∉ xs.take n :=
  fun hmem => List.idxOf?_eq_none_iff.mp h (List.mem_of_mem_take hmem)

/-- The scan from `offset` on where the next backslash is `slash` bytes further. -/
theorem stringScan_at_slash {data : Bytes} {offset slash : Nat} (hs : (data.drop offset).idxOf? chBackslash = some slash)
    (hq : chQuote ∉ (data.drop offset).take slash) :
    stringScan (data.drop offset) false =
      ((stringScan (data.drop (offset + slash + 1)) true).1.map (· + (slash + 1)),
        (stringScan (data.drop (offset + slash + 1)) true).2) := by
  obtain ⟨hsplit, hbefore, hlt⟩ := split_at_idxOf hs
  have hlen : ((data.drop offset).take slash).length = slash := List.length_take_of_le (Nat.le_of_lt hlt)
  rw [hsplit, stringScan_slash _ hq hbefore, hlen, List.drop_drop, Nat.add_assoc]

/-- The scan from `offset` on where the next quote is `quote` bytes further. -/
theorem stringScan_at_quote {data : Bytes} {offset quote : Nat} (hq : (data.drop offset).idxOf? chQuote = some quote)
    (hs : chBackslash ∉ (data.drop offset).take quote) :
    stringScan (data.drop offset) false = (some (quote + 1), false) := by
  obtain ⟨hsplit, hbefore, hlt⟩ := split_at_idxOf hq
  have hlen : ((data.drop offset).take quote).length = quote := List.length_take_of_le (Nat.le_of_lt hlt)
  rw [hsplit, stringScan_quote _ hbefore hs, hlen]

/-- **The chunk scan is the scan.** Looking for the next quote and the next backslash at once comes to the same. -/
theorem stringChunkEnd_eq (data : Bytes) (offset : Nat) (escaped : Bool) :
    stringChunkEnd data offset escaped =
      ((stringScan (data.drop offset) escaped).1.map (offset + ·), (stringScan (data.drop offset) escaped).2) := by
  fun_induction stringChunkEnd data offset escaped with
  | case1 offset h ih =>
    rw [ih, List.drop_eq_getElem_cons h]
    simp [stringScan, Option.map_map, Function.comp_def, Nat.add_assoc, Nat.add_comm 1]
  | case2 offset escaped h hesc hslash hquote =>
    obtain rfl : escaped = false := by simpa using hesc
    rw [stringScan_plain (List.idxOf?_eq_none_iff.mp hquote) (List.idxOf?_eq_none_iff.mp hslash)]
    rfl
  | case3 offset escaped h hesc slash hslash hquote ih =>
    obtain rfl : escaped = false := by simpa using hesc
    rw [ih, stringScan_at_slash hslash (not_mem_take_of_none hquote slash)]
    have hshift : ∀ x, offset + slash + 1 + x = offset + (x + (slash + 1)) := fun x => by omega
    simp only [Option.map_map, Function.comp_def, hshift]
  | case4 offset escaped h hesc quote hslash hquote =>
    obtain rfl : escaped = false := by simpa using hesc
    rw [stringScan_at_quote hquote (not_mem_take_of_none hslash quote)]
    rfl
  | case5 offset escaped h hesc quote slash hslash hquote hlt ih =>
    obtain rfl : escaped = false := by simpa using hesc
    rw [ih, stringScan_at_slash hslash (not_mem_take_of_le (split_at_idxOf hquote).2.1 (Nat.le_of_lt hlt))]
    have hshift : ∀ x, offset + slash + 1 + x = offset + (x + (slash + 1)) := fun x => by omega
    simp only [Option.map_map, Function.comp_def, hshift]
  | case6 offset escaped h hesc quote slash hslash hquote hlt =>
    obtain rfl : escaped = false := by simpa using hesc
    rw [stringScan_at_quote hquote (not_mem_take_of_le (split_at_idxOf hslash).2.1 (by omega))]
    rfl
  | case7 offset escaped h =>
    rw [List.drop_eq_nil_of_le (by omega)]
    rfl

/-! ## What a spool stands for -/

/-- **The spool stands for `bytes`.** They are in the memory, or at the beginning of the file, and what is cached is
among them. -/
structure Holds (bytes : Bytes) (s : Spool) : Prop where
  size : s.size = bytes.length
  memory : s.file = none → s.memory = bytes
  fits : s.memory.length ≤ memoryBytes
  file : ∀ f ∈ s.file, bytes <+: f.content
  cached : s.readCache <+: bytes.drop s.readCacheOffset

/-- A spool that was appended to and has not spilled. -/
theorem holds_memory (h : bytes.length ≤ memoryBytes) : Holds bytes { memory := bytes, size := bytes.length } :=
  ⟨rfl, fun _ => rfl, h, nofun, List.nil_prefix⟩

/-- The spool stands for `bytes`, in its memory. -/
def InMemory (bytes : Bytes) (s : Spool) : Prop := Holds bytes s ∧ s.file = none

/-- The spool stands for `bytes`, in its file. -/
def InFile (bytes : Bytes) (s : Spool) : Prop := Holds bytes s ∧ s.file ≠ none

/-- The spool stands for `bytes`, in its file, whose position is `pos`. -/
def InFileAt (bytes : Bytes) (pos : Nat) (s : Spool) : Prop := Holds bytes s ∧ ∃ f, s.file = some f ∧ f.pos = pos

theorem InFileAt.inFile {pos : Nat} {s : Spool} (h : InFileAt bytes pos s) : InFile bytes s := by
  obtain ⟨hs, f, hf, -⟩ := h
  exact ⟨hs, by simp [hf]⟩

/-- An operation that fails leaves the spool standing for what it stood for. -/
abbrev Kept (bytes : Bytes) : Err → Spool → Prop := fun _ => Holds bytes

/-- Every call to the outside goes well, and an `off_t` can count `n` bytes. -/
def Reliable (fate : Fate) (n : Nat) : Prop := (∀ k, fate k = none) ∧ n < offLimit

/-- An operation that is stopped by the outside. -/
abbrev Stopped (fate : Fate) (bytes : Bytes) : Err → Spool → Prop :=
  fun _ s => Holds bytes s ∧ ¬ Reliable fate bytes.length

/-! ## The calls -/

section

variable {α : Type} {P : Spool → Prop} {R : Err → Spool → Prop}

theorem call_ends (h : ∀ s n, P s → P { s with calls := n }) : Ends P (call fate) (fun _ => P) R :=
  fun s hs => h s (s.calls + 1) hs

/-- A call that does not go well is the fault of the outside. -/
theorem call_blames (n : Nat) (h : ∀ s n, P s → P { s with calls := n }) :
    Ends P (call fate) (fun well s => P s ∧ (well = false → ¬ Reliable fate n)) R := by
  refine fun s hs => ⟨h s (s.calls + 1) hs, fun hno hreliable => ?_⟩
  rw [hreliable.1] at hno
  cases hno

theorem refuse_ends {bad : Prop} [Decidable bad] (e : Err) (h : bad → ∀ s, P s → R e s) :
    Ends P (refuse bad e) (fun _ s => P s ∧ ¬ bad) R :=
  Ends.ite (fun hbad => Ends.throw (h hbad)) fun hbad => Ends.pure fun _ hs => ⟨hs, hbad⟩

/-- Behind a check the condition is met. -/
theorem refuse_bind {β : Type} {S : β → Spool → Prop} {bad : Prop} [Decidable bad] (e : Err) {f : Unit → SpoolM β}
    (h : bad → ∀ s, P s → R e s) (hf : ¬ bad → Ends P (f ()) S R) : Ends P (refuse bad e >>= f) S R :=
  (refuse_ends e h).bind fun _ => Ends.of_fact hf

theorem need_ends {Q : Bool → Spool → Prop} {x : SpoolM Bool} (e : Err) (hx : Ends P x Q R) (h : ∀ s, Q false s → R e s) :
    Ends P (need x e) (fun _ => Q true) R := by
  unfold need
  refine hx.bind fun well => ?_
  cases well with
  | true => exact Ends.pure fun _ hs => hs
  | false => exact Ends.throw h

theorem get_ends {Q : α → Spool → Prop} {f : Spool → SpoolM α} (h : ∀ s, P s → Ends (fun t => t = s ∧ P t) (f s) Q R) :
    Ends P (get >>= f) Q R := Ends.get_bind fun s hs => (h s hs).weaken (fun _ ht => ⟨ht, ht ▸ hs⟩) fun _ _ hq => hq

end

theorem Holds.call {s : Spool} (h : Holds bytes s) (n : Nat) : Holds bytes { s with calls := n } :=
  ⟨h.size, h.memory, h.fits, h.file, h.cached⟩

theorem Holds.dropped {s : Spool} (h : Holds bytes s) : Holds bytes { s with readCache := [] } :=
  ⟨h.size, h.memory, h.fits, h.file, List.nil_prefix⟩

/-- The file is another one that begins with the bytes. -/
theorem Holds.refile {s : Spool} {f : File UInt8} (h : Holds bytes s) (hf : bytes <+: f.content) (e : Bool) (n : Nat) :
    Holds bytes { s with file := some f, fileError := e, calls := n } where
  size := h.size
  memory := nofun
  fits := h.fits
  file := by
    intro g hg
    obtain rfl := Option.some.inj hg
    exact hf
  cached := h.cached

theorem dropCache_ends {R : Err → Spool → Prop} :
    Ends (InFile bytes) dropCache (fun _ s => InFile bytes s ∧ s.readCache = []) R :=
  fun _ hs => ⟨⟨hs.1.dropped, hs.2⟩, rfl⟩

/-- What a call to set the position leaves behind. -/
def Sought (fate : Fate) (bytes : Bytes) (offset : Nat) (well : Bool) (s : Spool) : Prop :=
  InFile bytes s ∧ (well = true → InFileAt bytes offset s) ∧
    (well = false → offset ≤ bytes.length → ¬ Reliable fate bytes.length)

theorem seek_ends {R : Err → Spool → Prop} (offset : Nat) :
    Ends (InFile bytes) (seek fate offset) (Sought fate bytes offset) R := by
  rintro s ⟨hs, hfile⟩
  obtain ⟨f, hf⟩ := Option.ne_none_iff_exists'.mp hfile
  have hprefix := hs.file f hf
  have hsought := hs.refile (f := f.seek offset) hprefix s.fileError (s.calls + 1)
  change Sought fate bytes offset _ _
  by_cases hw : ((fate s.calls).isNone && decide (offset < offLimit)) = true
  · simp only [hw, if_true, hf, Option.map_some]
    exact ⟨⟨hsought, nofun⟩, fun _ => ⟨hsought, _, rfl, rfl⟩, nofun⟩
  · simp only [hw, hf]
    refine ⟨⟨hf ▸ hs.call _, by simp⟩, nofun, fun _ hle hreliable => hw ?_⟩
    rw [hreliable.1, decide_eq_true (Nat.lt_of_le_of_lt hle hreliable.2)]
    rfl

theorem flushSeek_ends {R : Err → Spool → Prop} (offset : Nat) :
    Ends (InFile bytes) (flushSeek fate offset) (Sought fate bytes offset) R := by
  unfold flushSeek
  refine (call_blames bytes.length fun s n hs => ⟨hs.1.call n, hs.2⟩).bind fun well => Ends.of_fact fun hblame => ?_
  refine Ends.ite (fun _ => seek_ends offset) fun hw => Ends.pure fun s hs => ⟨hs, nofun, fun _ _ => ?_⟩
  exact hblame (Bool.eq_false_iff.mpr hw)

theorem moved_le (n : Nat) : ∀ o, moved n o ≤ n
  | none => Nat.le_refl n
  | some k => Nat.min_le_right k n

/-- A part of the bytes is the same part of the file. -/
theorem peek_eq {f : File UInt8} {n : Nat} (h : bytes <+: f.content) (hn : f.pos + n ≤ bytes.length) :
    f.peek n = (bytes.drop f.pos).take n := by
  obtain ⟨rest, hrest⟩ := h
  unfold File.peek
  rw [← hrest, List.drop_append_of_le_length (by omega), List.take_append_of_le_length (by simp; omega)]

/-- What a transfer reads lies in the file from the position on. -/
theorem fread_ends {R : Err → Spool → Prop} (pos n : Nat) :
    Ends (InFileAt bytes pos) (fread fate n)
      (fun chunk s => InFileAt bytes (pos + chunk.length) s ∧
        (chunk.length = n → pos + n ≤ bytes.length → chunk = (bytes.drop pos).take n) ∧
        (chunk.length ≠ n → pos + n ≤ bytes.length → ¬ Reliable fate bytes.length)) R := by
  rintro s ⟨hs, f, hf, rfl⟩
  have hk := moved_le (f.peek n).length (fate s.calls)
  have hlen : ((f.peek n).take (moved (f.peek n).length (fate s.calls))).length =
      moved (f.peek n).length (fate s.calls) := List.length_take_of_le hk
  simp only [fread, hf, Option.map_some]
  refine ⟨⟨hs.refile (f := f.advance _) (hs.file f hf) _ _, _, rfl, by rw [hlen, File.advance_pos]⟩,
    fun hn hpos => ?_, fun hn hpos hreliable => hn ?_⟩
  · have hpeek : (f.peek n).length ≤ n := List.length_take_le ..
    rw [List.take_of_length_le (by omega), peek_eq (hs.file f hf) hpos]
  · rw [hlen, hreliable.1, moved, peek_eq (hs.file f hf) hpos, List.length_take, List.length_drop]
    omega

/-- Where the file cannot be read the cache is dropped and the operation stops. -/
theorem drop_throw_ends {α : Type} {Q : α → Spool → Prop} (e : Err) (h : ¬ Reliable fate bytes.length) :
    Ends (InFile bytes) (dropCache >>= fun _ => (throw e : SpoolM α)) Q (Stopped fate bytes) :=
  dropCache_ends.bind fun _ => Ends.throw fun _ hs => ⟨hs.1.1, h⟩

/-- Where the file is set to be read it is read from there, else the operation stops. -/
theorem readFrom_ends {offset : Nat} (e : Err) (h : offset ≤ bytes.length) :
    Ends (InFile bytes) (readFrom fate offset e) (fun _ => InFileAt bytes offset) (Stopped fate bytes) := by
  unfold readFrom
  refine (flushSeek_ends offset).bind fun well => Ends.ite (fun hw => ?_) fun hw => ?_
  · exact Ends.pure fun s hs => hs.2.1 hw
  · refine Ends.weaken (Ends.of_fact fun hblame => drop_throw_ends e hblame)
      (fun s hs => ⟨hs.1, hs.2.2 (Bool.eq_false_iff.mpr hw) h⟩) fun _ _ hs => hs

/-- The cache is filled with the bytes it is said to hold. -/
theorem fillCache_ends {offset amount : Nat} (e : Err) (h : offset + amount ≤ bytes.length) :
    Ends (InFileAt bytes offset) (fillCache fate offset amount e)
      (fun chunk s => InFileAt bytes (offset + amount) s ∧ chunk = (bytes.drop offset).take amount)
      (Stopped fate bytes) := by
  unfold fillCache
  refine (fread_ends offset amount).bind fun chunk => Ends.ite (fun hlen => ?_) fun hlen => ?_
  · refine Ends.bind (Q := fun _ s => InFileAt bytes (offset + amount) s ∧ chunk = (bytes.drop offset).take amount) ?_
      fun _ => Ends.pure fun s hs => hs
    rintro s ⟨⟨hs, f, hf, hpos⟩, hchunk⟩
    have hcached := hchunk.1 hlen h
    refine ⟨⟨⟨hs.size, hs.memory, hs.fits, hs.file, ?_⟩, f, hf, by rw [hpos, hlen]⟩, hcached⟩
    exact hcached ▸ List.take_prefix ..
  · refine Ends.weaken (Ends.of_fact fun hblame => drop_throw_ends e hblame)
      (fun s hs => ⟨hs.1.inFile, hs.2.2 hlen h⟩) fun _ _ hs => hs

theorem needCache_ends : Ends (InFile bytes) (needCache fate) (fun _ => InFile bytes) (Stopped fate bytes) := by
  unfold needCache
  refine get_ends fun s _ => Ends.ite (fun _ => Ends.pure fun t ht => ht.2) fun _ => ?_
  refine (need_ends _ ((call_blames bytes.length fun t n ht => ⟨ht.1.call n, ht.2⟩).weaken (fun t ht => ht.2) fun _ _ ht => ht)
    fun t ht => ⟨ht.1.1, ht.2 rfl⟩).bind fun _ => ?_
  exact fun t ht => ⟨⟨ht.1.1.size, ht.1.1.memory, ht.1.1.fits, ht.1.1.file, ht.1.1.cached⟩, ht.1.2⟩

/-! ## Bytes -/

/-- What is cached is found in the bytes. -/
theorem Holds.cached_getD {s : Spool} (h : Holds bytes s) {offset : Nat} (hlo : s.readCacheOffset ≤ offset)
    (hhi : offset < s.readCacheOffset + s.readCache.length) :
    bytes[offset]? = some (s.readCache.getD (offset - s.readCacheOffset) 0) := by
  obtain ⟨rest, hrest⟩ := h.cached
  have hlt : offset - s.readCacheOffset < s.readCache.length := by omega
  have hget : (bytes.drop s.readCacheOffset)[offset - s.readCacheOffset]? = bytes[offset]? := by
    rw [List.getElem?_drop, Nat.add_sub_cancel' hlo]
  rw [← hget, ← hrest, List.getElem?_append_left hlt, List.getD_eq_getElem?_getD, List.getElem?_eq_getElem hlt]
  rfl

/-- Where a byte within the bytes is not read, the outside stopped it. -/
abbrev ByteStopped (fate : Fate) (bytes : Bytes) (offset : Nat) : Err → Spool → Prop :=
  fun _ s => Holds bytes s ∧ (offset < bytes.length → ¬ Reliable fate bytes.length)

theorem byteAt_memory (offset : Nat) :
    Ends (InMemory bytes) (byteAt fate offset) (fun b s => InMemory bytes s ∧ bytes[offset]? = some b)
      (ByteStopped fate bytes offset) := by
  unfold byteAt
  refine get_ends fun s hs => refuse_bind _ (fun hpast t ht => ⟨ht.2.1, fun hlt => ?_⟩) fun hsize => ?_
  · rw [hs.1.size] at hpast
    exact absurd hlt (Nat.not_lt.mpr hpast)
  refine Ends.ite (fun _ => Ends.pure fun t ht => ⟨ht.2, ?_⟩) fun h => absurd hs.2 h
  have hlt : offset < bytes.length := hs.1.size ▸ Nat.lt_of_not_le hsize
  rw [hs.1.memory hs.2, List.getD_eq_getElem?_getD, List.getElem?_eq_getElem hlt]
  rfl

theorem byteAt_file (offset : Nat) :
    Ends (InFile bytes) (byteAt fate offset) (fun b s => InFile bytes s ∧ bytes[offset]? = some b)
      (ByteStopped fate bytes offset) := by
  unfold byteAt
  refine get_ends fun s hs => refuse_bind _ (fun hpast t ht => ⟨ht.2.1, fun hlt => ?_⟩)
    fun hsize => Ends.ite (fun h => absurd h hs.2) fun _ => ?_
  · rw [hs.1.size] at hpast
    exact absurd hlt (Nat.not_lt.mpr hpast)
  refine @Ends.stops _ _ _ _ _ _ (Stopped fate bytes) _ ?_ fun _ _ hstopped => ⟨hstopped.1, fun _ => hstopped.2⟩
  have hlt : offset < bytes.length := hs.1.size ▸ Nat.lt_of_not_le hsize
  have hpos : 0 < min (s.size - offset) ioBufferBytes := amount_pos (by omega)
  have hamount : offset + min (s.size - offset) ioBufferBytes ≤ bytes.length := by
    rw [hs.1.size]
    omega
  refine (needCache_ends.weaken (fun t ht => ht.2) fun _ _ hq => hq).bind fun _ => Ends.ite (fun hin => ?_) fun _ => ?_
  · exact Ends.pure fun t ht => ⟨ht, hs.1.cached_getD hin.1 hin.2⟩
  · refine (readFrom_ends _ (Nat.le_of_lt hlt)).bind fun _ => (fillCache_ends _ hamount).bind fun chunk => Ends.pure ?_
    rintro t ⟨ht, rfl⟩
    refine ⟨ht.inFile, ?_⟩
    rw [List.getD_eq_getElem?_getD, List.getElem?_take_of_lt hpos, List.getElem?_drop, Nat.add_zero,
      List.getElem?_eq_getElem hlt]
    rfl

/-- **A byte that is read is the byte of the bytes.** -/
theorem byteAt_ends (offset : Nat) :
    Ends (Holds bytes) (byteAt fate offset) (fun b s => Holds bytes s ∧ bytes[offset]? = some b)
      (ByteStopped fate bytes offset) := by
  refine Ends.cases (c := fun s => s.file = none) ?_ ?_
  · exact (byteAt_memory offset).weaken (fun _ hs => hs) fun _ _ hq => ⟨hq.1.1, hq.2⟩
  · exact (byteAt_file offset).weaken (fun _ hs => hs) fun _ _ hq => ⟨hq.1.1, hq.2⟩

/-- A byte that is known to be there is read, unless the outside stops it. -/
theorem byteAt_here {offset : Nat} {c : UInt8} {rest : Bytes} (h : bytes.drop offset = c :: rest) :
    Ends (Holds bytes) (byteAt fate offset) (fun b s => Holds bytes s ∧ b = c) (Stopped fate bytes) := by
  have hlt : offset < bytes.length := by
    by_contra hge
    rw [List.drop_eq_nil_of_le (Nat.not_lt.mp hge)] at h
    cases h
  have hc : bytes[offset]? = some c := by rw [← List.head?_drop, h, List.head?_cons]
  refine Ends.stops ((byteAt_ends offset).weaken (fun _ hs => hs) fun b s hs => ⟨hs.1, ?_⟩)
    fun _ _ hstopped => ⟨hstopped.1, hstopped.2 hlt⟩
  exact Option.some.inj (hs.2.symm.trans hc)

/-! ## String ends -/

/-- The end of the string whose opening quote is at `offset`, before `stop`. -/
def stringEnd (bytes : Bytes) (offset stop : Nat) : Option Nat :=
  (stringScan ((bytes.drop (offset + 1)).take (stop - (offset + 1))) false).1.map (offset + 1 + ·)

/-- A text between two places, cut at a third. -/
theorem between_cut (xs : Bytes) {a b c : Nat} (hab : a ≤ b) (hbc : b ≤ c) :
    (xs.drop a).take (c - a) = (xs.drop a).take (b - a) ++ (xs.drop b).take (c - b) := by
  rw [show c - a = (b - a) + (c - b) by omega, List.take_add, List.drop_drop, Nat.add_sub_cancel' hab]

/-- The end that is found from `pos` on is the end of the whole, when what lies before has none. -/
theorem findInFile_ends {start stop : Nat} (hstop : stop ≤ bytes.length) : ∀ (pos : Nat) (escaped : Bool),
    start ≤ pos → pos ≤ stop →
    stringScan ((bytes.drop start).take (pos - start)) false = (none, escaped) →
    Ends (InFileAt bytes pos) (findInFile fate pos stop escaped)
      (fun i s => InFile bytes s ∧
        (stringScan ((bytes.drop start).take (stop - start)) false).1.map (start + ·) = some i)
      (fun _ s => Holds bytes s ∧ ((stringScan ((bytes.drop start).take (stop - start)) false).1 ≠ none →
        ¬ Reliable fate bytes.length)) := by
  intro pos escaped
  fun_induction findInFile fate pos stop escaped with
  | case1 pos escaped hlt amount ih =>
    intro hstart hle hscan
    refine ((fillCache_ends _ (by omega)).stops fun _ _ hstopped => ⟨hstopped.1, fun _ => hstopped.2⟩).bind
      fun chunk => Ends.of_fact fun hchunk => ?_
    have hcut := between_cut bytes hstart (show pos ≤ pos + amount by omega)
    rw [Nat.add_sub_cancel_left, ← hchunk] at hcut
    have hlen : ((bytes.drop start).take (pos - start)).length = pos - start :=
      List.length_take_of_le (by rw [List.length_drop]; omega)
    have hparts := stringScan_append chunk (by rw [hscan])
    rw [hscan, ← hcut, hlen] at hparts
    rw [stringChunkEnd_eq, List.drop_zero]
    rcases hr : stringScan chunk escaped with ⟨_ | i, escaped'⟩
    · rw [hr] at hparts
      exact ih escaped' (by omega) (by omega) hparts
    · rw [hr] at hparts
      refine Ends.pure fun s hs => ⟨hs.inFile, ?_⟩
      rw [between_cut bytes (b := pos + amount) (by omega) (by omega), stringScan_found _ (congrArg Prod.fst hparts)]
      have hshift : start + (i + (pos - start)) = pos + (0 + i) := by omega
      exact congrArg some hshift
  | case2 pos escaped hge =>
    intro hstart hle hscan
    obtain rfl : pos = stop := Nat.le_antisymm hle (Nat.not_lt.mp hge)
    exact Ends.throw fun s hs => ⟨hs.1, fun hfound => absurd (congrArg Prod.fst hscan) hfound⟩

/-- What is scanned is a string, and what is found is its end. -/
def StringEndAt (bytes : Bytes) (offset stop i : Nat) : Prop :=
  bytes[offset]? = some chQuote ∧ stringEnd bytes offset stop = some i

/-- Where the end of a string within the bytes is not found, the outside stopped it. -/
abbrev EndStopped (fate : Fate) (bytes : Bytes) (offset stop : Nat) : Err → Spool → Prop :=
  fun _ s => Holds bytes s ∧ (stop ≤ bytes.length → (∃ i, StringEndAt bytes offset stop i) →
    ¬ Reliable fate bytes.length)

/-- A string that ends before `stop` begins before it. -/
theorem StringEndAt.lt {offset stop i : Nat} (h : StringEndAt bytes offset stop i) : offset < stop := by
  rcases Nat.lt_or_ge offset stop with hlt | hge
  · exact hlt
  · have hend := h.2
    rw [stringEnd, show stop - (offset + 1) = 0 by omega, List.take_zero] at hend
    cases hend

/-- The checks in front of a scan pass where a string ends before `stop`. -/
theorem args_stopped {s t : Spool} {offset stop : Nat} (hs : Holds bytes s) (ht : Holds bytes t)
    (hargs : stop ≤ offset ∨ s.size < stop) (e : Err) : EndStopped fate bytes offset stop e t := by
  refine ⟨ht, fun hle ⟨i, hend⟩ => ?_⟩
  have hlt := hend.lt
  rw [hs.size] at hargs
  omega

theorem quote_stopped {s : Spool} {ch : UInt8} {offset stop : Nat} (hs : Holds bytes s)
    (hch : bytes[offset]? = some ch) (hquote : ch ≠ chQuote) (e : Err) :
    EndStopped fate bytes offset stop e s := by
  refine ⟨hs, fun _ ⟨i, hend⟩ => ?_⟩
  rw [hend.1, Option.some.injEq] at hch
  exact absurd hch.symm hquote

theorem byte_stopped {s : Spool} {offset stop : Nat} {e : Err} (h : ByteStopped fate bytes offset e s) :
    EndStopped fate bytes offset stop e s :=
  ⟨h.1, fun hle ⟨_, hend⟩ => h.2 (Nat.lt_of_lt_of_le hend.lt hle)⟩

theorem findStringEnd_memory (offset stop : Nat) :
    Ends (InMemory bytes) (findStringEnd fate offset stop)
      (fun i s => InMemory bytes s ∧ StringEndAt bytes offset stop i) (EndStopped fate bytes offset stop) := by
  unfold findStringEnd
  refine get_ends fun s hs => refuse_bind _ (fun hargs t ht => args_stopped hs.1 ht.2.1 hargs _) fun _ => ?_
  refine Ends.bind (((byteAt_memory offset).weaken (fun t ht => ht.2) fun _ _ hq => hq).stops fun _ _ => byte_stopped)
    fun ch => Ends.of_fact fun hch => ?_
  refine refuse_bind _ (fun hquote t ht => quote_stopped ht.1 hch hquote _) fun hquote =>
    Ends.ite (fun _ => ?_) fun h => absurd hs.2 h
  obtain rfl : ch = chQuote := Classical.not_not.mp hquote
  rw [hs.1.memory hs.2, stringChunkEnd_eq, List.drop_zero]
  rcases hr : stringScan ((bytes.drop (offset + 1)).take (stop - (offset + 1))) false with ⟨_ | i, escaped⟩
  · refine Ends.throw fun t ht => ⟨ht.1, fun _ ⟨i, hend⟩ => ?_⟩
    simp [StringEndAt, stringEnd, hr] at hend
  · refine Ends.pure fun t ht => ⟨ht, hch, ?_⟩
    simp [stringEnd, hr]

theorem findStringEnd_file (offset stop : Nat) :
    Ends (InFile bytes) (findStringEnd fate offset stop)
      (fun i s => InFile bytes s ∧ StringEndAt bytes offset stop i) (EndStopped fate bytes offset stop) := by
  unfold findStringEnd
  refine get_ends fun s hs => refuse_bind _ (fun hargs t ht => args_stopped hs.1 ht.2.1 hargs _) fun hargs => ?_
  rw [not_or, Nat.not_le, Nat.not_lt, hs.1.size] at hargs
  refine Ends.bind (((byteAt_file offset).weaken (fun t ht => ht.2) fun _ _ hq => hq).stops fun _ _ => byte_stopped)
    fun ch => Ends.of_fact fun hch => ?_
  refine refuse_bind _ (fun hquote t ht => quote_stopped ht.1 hch hquote _) fun hquote =>
    Ends.ite (fun h => absurd h hs.2) fun _ => ?_
  obtain rfl : ch = chQuote := Classical.not_not.mp hquote
  have hnone : stringScan ((bytes.drop (offset + 1)).take (offset + 1 - (offset + 1))) false = (none, false) := by
    rw [Nat.sub_self, List.take_zero]
    rfl
  have hin : offset + 1 ≤ bytes.length := Nat.le_trans hargs.1 hargs.2
  refine ((readFrom_ends _ hin).stops fun _ _ hstopped => ⟨hstopped.1, fun _ _ => hstopped.2⟩).bind fun _ => ?_
  refine Ends.stops ((findInFile_ends hargs.2 (offset + 1) false (Nat.le_refl _) hargs.1 hnone).weaken (fun _ ht => ht)
    fun _ _ hq => ⟨hq.1, hch, hq.2⟩) fun _ _ hstopped => ⟨hstopped.1, fun _ ⟨i, hend⟩ => hstopped.2 fun hno => ?_⟩
  have hfound := hend.2
  rw [stringEnd, hno] at hfound
  cases hfound

/-- **A string end that is found is the end of the string.** -/
theorem findStringEnd_ends (offset stop : Nat) :
    Ends (Holds bytes) (findStringEnd fate offset stop)
      (fun i s => Holds bytes s ∧ StringEndAt bytes offset stop i) (EndStopped fate bytes offset stop) := by
  refine Ends.cases (c := fun s => s.file = none) ?_ ?_
  · exact (findStringEnd_memory offset stop).weaken (fun _ hs => hs) fun _ _ hq => ⟨hq.1.1, hq.2⟩
  · exact (findStringEnd_file offset stop).weaken (fun _ hs => hs) fun _ _ hq => ⟨hq.1.1, hq.2⟩

/-! ## Slices -/

/-- A chunk goes to the writer, or the operation stops. -/
theorem hand_ends {P : Spool → Prop} {R : Err → Spool → Prop} (writer : Writer) (written : List Bytes) (chunk : Bytes)
    (h : ∀ e s, P s → R e s) : Ends P (hand writer written chunk) (fun w s => P s ∧ w = written ++ [chunk]) R := by
  unfold hand
  cases writer written chunk with
  | none => exact Ends.pure fun s hs => ⟨hs, rfl⟩
  | some e => exact Ends.throw (h e)

/-- Chunk by chunk the writer is handed the slice. -/
theorem writeChunks_ends {writer : Writer} {capacity : Nat} (hc : 0 < capacity) : ∀ (offset len : Nat) (written : List Bytes),
    offset + len ≤ bytes.length →
    Ends (InFile bytes) (writeChunks fate writer capacity hc offset len written)
      (fun w s => InFile bytes s ∧ w.flatten = written.flatten ++ (bytes.drop offset).take len) (Kept bytes) := by
  intro offset len written
  fun_induction writeChunks fate writer capacity hc offset len written with
  | case1 offset written =>
    intro _
    exact Ends.pure fun s hs => ⟨hs, by simp⟩
  | case2 offset len written hlen amount ih =>
    intro hle
    refine (need_ends _ (flushSeek_ends offset) fun s hs => hs.1.1).bind fun _ => ?_
    refine Ends.bind ((fread_ends offset amount).weaken (fun s hs => hs.2.1 rfl) fun _ _ hq => hq) fun buffer => ?_
    refine refuse_bind _ (fun _ s hs => hs.1.1) fun hamount => Ends.of_fact fun hbuffer => ?_
    have hread : buffer = (bytes.drop offset).take amount := hbuffer.1 (Classical.not_not.mp hamount) (by omega)
    refine (hand_ends writer written buffer fun _ s hs => hs.1).bind fun w => Ends.of_fact fun hw => ?_
    refine (ih w (by omega)).weaken (fun s hs => hs.inFile) fun w' s hs => ⟨hs.1, ?_⟩
    have hcut := between_cut bytes (a := offset) (b := offset + amount) (c := offset + len)
      (by omega) (by omega)
    rw [Nat.add_sub_cancel_left, Nat.add_sub_cancel_left, Nat.add_sub_add_left] at hcut
    rw [hs.2, hw, hcut, hread]
    simp

/-- **What is handed to the writer is the slice.** -/
theorem writeSlice_ends (offset len : Nat) (writer : Writer) :
    Ends (Holds bytes) (writeSlice fate offset len writer)
      (fun w s => Holds bytes s ∧ offset + len ≤ bytes.length ∧ w.flatten = (bytes.drop offset).take len)
      (Kept bytes) := by
  unfold writeSlice
  refine get_ends fun s hs => refuse_bind _ (fun _ t ht => ht.2) fun hargs => ?_
  have hle : offset + len ≤ bytes.length := by
    rw [← hs.size]
    omega
  refine Ends.ite (fun hmem => ?_) fun hfile => ?_
  · refine (hand_ends writer [] _ fun _ t ht => ht.2).weaken (fun _ ht => ht) fun w t ht => ⟨ht.1.2, hle, ?_⟩
    rw [ht.2, hs.memory hmem]
    simp
  · split
    · exact Ends.pure fun t ht => ⟨ht.2, hle, by simp [*]⟩
    · refine (need_ends (Q := fun _ => InFile bytes) _ ?_ fun t ht => ht.1).bind fun _ => ?_
      · refine Ends.weaken (call_ends fun t n ht => ⟨ht.1.call n, ht.2⟩) (fun t ht => ⟨ht.2, ?_⟩) fun _ _ ht => ht
        rw [ht.1]
        exact hfile
      · exact (writeChunks_ends _ offset len [] hle).weaken (fun _ ht => ht) fun w t ht => ⟨ht.1.1, hle, ht.2⟩

/-! ## Appends -/

/-- The spool can take an append: where the bytes are in the file, its position is at their end. -/
def AtEnd (s : Spool) : Prop := ∀ f ∈ s.file, f.pos = s.size

/-- What is written at the end of the bytes comes behind them. -/
theorem append_prefix_write {f : File UInt8} (h : bytes <+: f.content) (hpos : f.pos = bytes.length) (data : Bytes) :
    bytes ++ data <+: (f.write data).content := by
  have hbytes : f.content.take f.pos = bytes := by rw [hpos, ← List.prefix_iff_eq_take.mp h]
  rw [f.write_content (hpos ▸ h.length_le), hbytes]
  exact List.prefix_append ..

/-- The memory goes to the file, and the position is behind it. -/
theorem spill_ends : Ends (InMemory bytes) (spill fate) (fun _ => InFileAt bytes bytes.length) (Kept bytes) := by
  unfold spill
  refine (need_ends (Q := fun _ => InMemory bytes) _ (call_ends fun s n hs => ⟨hs.1.call n, hs.2⟩)
    fun s hs => hs.1).bind fun _ => get_ends fun s hs => ?_
  have hmem : s.memory = bytes := hs.1.memory hs.2
  refine Ends.ite (fun hnil => ?_) fun _ => ?_
  · rintro t ⟨rfl, -⟩
    obtain rfl : bytes = [] := hmem.symm.trans hnil
    exact ⟨hs.1.refile List.nil_prefix _ _, File.empty, rfl, rfl⟩
  · refine Ends.bind (Q := fun _ => InMemory bytes) (fun t ht => ⟨ht.2.1.call _, ht.2.2⟩) fun _ => ?_
    refine refuse_bind _ (fun _ t ht => ht.1) fun _ t ht => ⟨ht.1.refile ?_ _ _, _, rfl, ?_⟩
    · rw [ht.1.memory ht.2]
      exact append_prefix_write (f := File.empty) List.nil_prefix rfl bytes
    · rw [ht.1.memory ht.2]
      exact Nat.zero_add _

/-- What is written behind the bytes is there when all of it was written, and the bytes stay what they are. -/
theorem writeAll_ends (data : Bytes) :
    Ends (fun s => InFile bytes s ∧ (data ≠ [] → InFileAt bytes bytes.length s)) (writeAll fate data)
      (fun _ s => Holds bytes s ∧ ∃ f, s.file = some f ∧ bytes ++ data <+: f.content) (Kept bytes) := by
  unfold writeAll
  refine Ends.ite (fun hnil => Ends.pure fun s hs => ?_) fun hdata => ?_
  · obtain ⟨f, hf⟩ := Option.ne_none_iff_exists'.mp hs.1.2
    exact ⟨hs.1.1, f, hf, by rw [hnil, List.append_nil]; exact hs.1.1.file f hf⟩
  · refine Ends.bind (Q := fun n s => Holds bytes s ∧
      (n = data.length → ∃ f, s.file = some f ∧ bytes ++ data <+: f.content)) ?_ fun n => ?_
    · rintro s ⟨-, hs⟩
      obtain ⟨hs, f, hf, hpos⟩ := hs hdata
      have hwrite := append_prefix_write (hs.file f hf) hpos
      simp only [fwrite, hf, Option.map_some]
      refine ⟨hs.refile ((List.prefix_append ..).trans (hwrite _)) _ _, fun hn => ⟨_, rfl, ?_⟩⟩
      rw [hn, List.take_length]
      exact hwrite data
    · exact (refuse_ends _ fun _ s hs => hs.1).weaken (fun _ hs => hs) fun _ s hs =>
        ⟨hs.1.1, hs.1.2 (Classical.not_not.mp hs.2)⟩

theorem needFile_ends (data : Bytes) :
    Ends (fun s => Holds bytes s ∧ (data ≠ [] → AtEnd s)) (needFile fate)
      (fun _ s => InFile bytes s ∧ (data ≠ [] → InFileAt bytes bytes.length s)) (Kept bytes) := by
  unfold needFile
  refine get_ends fun s hs => Ends.ite (fun hnone => ?_) fun hsome => Ends.pure ?_
  · refine spill_ends.weaken (fun t ht => ⟨ht.2.1, ?_⟩) fun _ t ht => ⟨ht.inFile, fun _ => ht⟩
    rw [ht.1]
    exact hnone
  · rintro t ⟨rfl, ht, hend⟩
    obtain ⟨f, hf⟩ := Option.ne_none_iff_exists'.mp hsome
    exact ⟨⟨ht, hsome⟩, fun hdata => ⟨ht, f, hf, (hend hdata f hf).trans ht.size⟩⟩

/-- What is cached stays among the bytes when more of them come. -/
theorem Holds.cached_append {s : Spool} (h : Holds bytes s) (data : Bytes) :
    s.readCache <+: (bytes ++ data).drop s.readCacheOffset :=
  h.cached.trans (List.IsPrefix.drop (List.prefix_append bytes data) s.readCacheOffset)

theorem Holds.size_append {s : Spool} (h : Holds bytes s) (data : Bytes) :
    s.size + data.length = (bytes ++ data).length := by
  rw [h.size, List.length_append]

/-- **An append adds to the bytes**, where it writes at their end. -/
theorem append_ends (data : Bytes) :
    Ends (fun s => Holds bytes s ∧ (data ≠ [] → AtEnd s)) (append fate data) (fun _ => Holds (bytes ++ data))
      (Kept bytes) := by
  unfold append
  refine get_ends fun s hs => refuse_bind _ (fun _ t ht => ht.2.1) fun _ => Ends.ite (fun hmem => ?_) fun _ => ?_
  · rintro t ⟨rfl, ht, -⟩
    have hmemory : t.memory = bytes := ht.memory hmem.1
    have hfits := ht.fits
    refine ⟨ht.size_append data, fun _ => ?_, ?_, fun f hf => ?_, ht.cached_append data⟩
    · exact congrArg (· ++ data) hmemory
    · change (t.memory ++ data).length ≤ memoryBytes
      rw [List.length_append]
      omega
    · exact absurd (hmem.1.symm.trans hf) nofun
  · refine Ends.bind ((needFile_ends data).weaken (fun t ht => ht.2) fun _ _ ht => ht) fun _ => ?_
    refine Ends.bind (Q := fun _ t => InFile bytes t ∧ (data ≠ [] → InFileAt bytes bytes.length t)) ?_ fun _ => ?_
    · exact fun t ht => ⟨⟨ht.1.1.dropped, ht.1.2⟩, fun hdata => ⟨ht.1.1.dropped, (ht.2 hdata).2⟩⟩
    refine (writeAll_ends data).bind fun _ => ?_
    rintro t ⟨ht, f, hf, hprefix⟩
    refine ⟨ht.size_append data, fun hnone => ?_, ht.fits, fun g hg => ?_, ht.cached_append data⟩
    · exact absurd (hf.symm.trans hnone) nofun
    · obtain rfl := Option.some.inj (hf.symm.trans hg)
      exact hprefix

theorem reset_ends {R : Err → Spool → Prop} : Ends (Holds bytes) reset (fun _ => Holds []) R :=
  fun _ _ => ⟨rfl, fun _ => rfl, Nat.zero_le _, nofun, List.nil_prefix⟩

end Lql.Spool
