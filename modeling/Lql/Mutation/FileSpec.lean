import Lql.Json.Lexer
import Lql.Mutation.FileValue

/-!
# Files are encoded faithfully

What a file value emits depends on the content of the file and not on the chunks it comes in. A base64 pass has encoded
the whole groups of what it has read and carries the rest; a text pass stands where the validator stands behind what it
has read, and has written it escaped.
-/

namespace Lql.Mutation.FileValue

open Json (Utf8State utf8Accept utf8AcceptAll AcceptsFrom IsText accepts_iff)
open Lib (Ends Base64.encode Base64.letter Base64.pad)

variable {host : Host} {content : Bytes}

/-! ## The host -/

/-- The stream delivers the content in chunks that are not empty and that there is room for. -/
def Delivers (content : Bytes) (capacity : Nat) (stream : Stream) : Prop :=
  ∃ chunks : List Bytes, stream = chunks.map .ok ∧ chunks.flatten = content ∧ ∀ c ∈ chunks, c ≠ [] ∧ c.length ≤ capacity

/-- **The host serves the file.** Buffers are granted, what is written is taken, and every pass finds the same content. -/
structure Host.Serves (host : Host) (content : Bytes) : Prop where
  grants : ∀ n, host.grants n = true
  writes : ∀ written data, host.writer written data = none
  opens : ∀ n, ∃ reader, host.opens n = .ok reader ∧ ∀ capacity, 0 < capacity → Delivers content capacity (reader capacity)

/-- What the writer was handed. -/
def Io.bytes (s : Io) : Bytes := s.written.flatten

/-- A pass that ends early does so because the host does not serve the file. -/
abbrev Blamed (host : Host) (content : Bytes) : Halt → Io → Prop := fun e _ => e ≠ .overrun ∧ ¬ host.Serves content

theorem write_ends {R : Halt → Io → Prop} (hR : ∀ e s, e ≠ .overrun → ¬ host.Serves content → R e s) (Φ : Bytes → Prop)
    (data : Bytes) : Ends (fun s => Φ (s.bytes ++ data)) (write host data) (fun _ s => Φ s.bytes) R := by
  intro s hs
  unfold write
  cases h : host.writer s.written data with
  | none => simpa [Io.bytes] using hs
  | some fault =>
    refine hR _ _ nofun fun hserves => ?_
    rw [hserves.writes] at h
    cases h

/-- A pass is opened, and nothing is written. -/
theorem openPass_ends {P : Io → Prop} {R : Halt → Io → Prop} (hP : ∀ s n, P s → P { s with passes := n })
    (hR : ∀ e s, P s → e ≠ .overrun → ¬ host.Serves content → R e s) {capacity : Nat} (hcap : 0 < capacity) :
    Ends P (openPass host capacity) (fun stream s => P s ∧ (host.Serves content → Delivers content capacity stream)) R := by
  intro s hs
  unfold openPass
  by_cases hg : host.grants s.passes = true
  · rw [if_pos hg]
    cases ho : host.opens s.passes with
    | ok reader =>
      refine ⟨hP s _ hs, fun hserves => ?_⟩
      obtain ⟨reader', ho', hreader⟩ := hserves.opens s.passes
      rw [ho] at ho'
      cases ho'
      exact hreader capacity hcap
    | error fault =>
      refine hR _ _ (hP s _ hs) nofun fun hserves => ?_
      obtain ⟨reader', ho', -⟩ := hserves.opens s.passes
      rw [ho] at ho'
      cases ho'
  · rw [if_neg hg]
    exact hR _ _ hs nofun fun hserves => hg (hserves.grants _)

/-- **The rule of a pass.** What holds of what has been read, and is kept by every chunk, holds at the end of all. -/
theorem forChunks_ends {β : Type} {S : Prop} {capacity : Nat} (content : Bytes) (stop : β → Bool)
    (body : β → Bytes → FileM β) {I : Bytes → β → Io → Prop} {R : Halt → Io → Prop}
    (hR : ∀ e got b s, I got b s → e ≠ .overrun → ¬ S → R e s)
    (hbody : ∀ got b chunk, chunk.length ≤ capacity → stop b = false → (S → got ++ chunk <+: content) →
      Ends (I got b) (body b chunk) (I (got ++ chunk)) R) :
    ∀ (stream : Stream) (got : Bytes) (b : β), stop b = false →
      (S → ∃ rest, Delivers rest capacity stream ∧ got ++ rest = content) →
      Ends (I got b) (forChunks capacity stop body stream b)
        (fun b' s => ∃ got', I got' b' s ∧ (S → got' <+: content) ∧ (stop b' = false → S → got' = content)) R := by
  intro stream
  induction stream with
  | nil =>
    intro got b hb hstream
    refine Ends.pure fun s hs => ⟨got, hs, fun hS => ?_, fun _ hS => ?_⟩
    · obtain ⟨rest, -, hrest⟩ := hstream hS
      exact ⟨rest, hrest⟩
    · obtain ⟨rest, ⟨chunks, hchunks, hflat, -⟩, hrest⟩ := hstream hS
      rw [List.map_eq_nil_iff.mp hchunks.symm] at hflat
      rw [← hrest, ← hflat, List.flatten_nil, List.append_nil]
  | cons r stream ih =>
    intro got b hb hstream
    -- what a served stream says of its first portion
    have hfirst : S → ∃ chunk rest, r = .ok chunk ∧ chunk ≠ [] ∧ chunk.length ≤ capacity ∧
        Delivers rest capacity stream ∧ got ++ chunk ++ rest = content := by
      intro hS
      obtain ⟨rest, ⟨chunks, hchunks, hflat, hall⟩, hrest⟩ := hstream hS
      cases chunks with
      | nil => cases hchunks
      | cons chunk chunks =>
        obtain ⟨hr, hchunks⟩ := List.cons.inj hchunks
        obtain ⟨⟨hne, hle⟩, hall⟩ := List.forall_mem_cons.mp hall
        refine ⟨chunk, chunks.flatten, hr, hne, hle, ⟨chunks, hchunks, rfl, hall⟩, ?_⟩
        rw [← hrest, ← hflat, List.flatten_cons, List.append_assoc]
    cases r with
    | error fault =>
      refine Ends.throw fun s hs => hR _ _ _ _ hs nofun fun hS => ?_
      obtain ⟨_, _, h, -⟩ := hfirst hS
      cases h
    | ok chunk =>
      unfold forChunks
      refine Ends.ite (fun hlong => ?_) fun hfits => Ends.ite (fun hnil => ?_) fun hne => ?_
      · refine Ends.throw fun s hs => hR _ _ _ _ hs nofun fun hS => ?_
        obtain ⟨_, _, h, -, hle, -⟩ := hfirst hS
        cases h
        omega
      · refine Ends.pure fun s hs => ⟨got, hs, fun hS => ?_, fun _ hS => ?_⟩
        all_goals
          obtain ⟨_, _, h, hne, -⟩ := hfirst hS
          cases h
          exact absurd hnil hne
      · have hpart : S → got ++ chunk <+: content := by
          intro hS
          obtain ⟨_, rest, h, -, -, -, hrest⟩ := hfirst hS
          cases h
          exact ⟨rest, hrest⟩
        refine (hbody got b chunk (Nat.le_of_not_lt hfits) hb hpart).bind fun b' => Ends.ite (fun hstop => ?_) fun hgo => ?_
        · exact Ends.pure fun s hs => ⟨_, hs, hpart, fun h => absurd h (by simp [hstop])⟩
        · refine ih (got ++ chunk) b' (by simpa using hgo) fun hS => ?_
          obtain ⟨_, rest, h, -, -, hdel, hrest⟩ := hfirst hS
          cases h
          exact ⟨rest, hdel, hrest⟩

/-! ## Base64 -/

theorem table_letter : ∀ n < 64, table.getD n 0 = Base64.letter n := by decide +kernel

/-- A letter is that of the sextet `shift` places from the right. -/
theorem tableAt_eq (triple shift : Nat) : tableAt triple shift = Base64.letter (triple / 2 ^ shift % 64) := by
  rw [tableAt, Lib.Base64.sextet_eq, table_letter _ (Nat.mod_lt _ (by decide))]

theorem quad_eq (a b c : UInt8) : quad a b c = Base64.encode [a, b, c] := by
  have hb : b.toNat < 256 := b.toNat_lt
  have hc : c.toNat < 256 := c.toNat_lt
  have ha : a.toNat < 256 := a.toNat_lt
  have h1 : (a.toNat * 65536 + b.toNat * 256 + c.toNat) / 2 ^ 18 % 64 = a.toNat / 4 := by omega
  have h2 : (a.toNat * 65536 + b.toNat * 256 + c.toNat) / 2 ^ 12 % 64 = a.toNat % 4 * 16 + b.toNat / 16 := by omega
  have h3 : (a.toNat * 65536 + b.toNat * 256 + c.toNat) / 2 ^ 6 % 64 = b.toNat % 16 * 4 + c.toNat / 64 := by omega
  have h4 : (a.toNat * 65536 + b.toNat * 256 + c.toNat) / 2 ^ 0 % 64 = c.toNat % 64 := by omega
  simp only [quad, tableAt_eq, Lib.Base64.triple_eq, Base64.encode, h1, h2, h3, h4]

/-- What is left at the end is encoded with its filling. -/
theorem lastQuad_eq {carry : Bytes} (hne : carry ≠ []) (h : carry.length < 3) : lastQuad carry = Base64.encode carry := by
  match carry, hne, h with
  | [a], _, _ =>
    have ha : a.toNat < 256 := a.toNat_lt
    have htriple : a.toNat <<< 16 ||| 0 = a.toNat * 65536 := by rw [Nat.or_zero, Nat.shiftLeft_eq]
    have h1 : a.toNat * 65536 / 2 ^ 18 % 64 = a.toNat / 4 := by omega
    have h2 : a.toNat * 65536 / 2 ^ 12 % 64 = a.toNat % 4 * 16 := by omega
    simp only [lastQuad, tableAt_eq, Base64.encode, List.getD_cons_zero, List.length_singleton, OfNat.one_ne_ofNat,
      if_false, htriple, h1, h2]
  | [a, b], _, _ =>
    have ha : a.toNat < 256 := a.toNat_lt
    have hb : b.toNat < 256 := b.toNat_lt
    have htriple := Lib.Base64.triple_eq a b 0
    rw [UInt8.toNat_zero, Nat.or_zero, Nat.add_zero] at htriple
    have h1 : (a.toNat * 65536 + b.toNat * 256) / 2 ^ 18 % 64 = a.toNat / 4 := by omega
    have h2 : (a.toNat * 65536 + b.toNat * 256) / 2 ^ 12 % 64 = a.toNat % 4 * 16 + b.toNat / 16 := by omega
    have h3 : (a.toNat * 65536 + b.toNat * 256) / 2 ^ 6 % 64 = b.toNat % 16 * 4 := by omega
    simp only [lastQuad, tableAt_eq, Base64.encode, List.getD_cons_zero, List.getD_cons_succ, List.length_cons,
      List.length_nil, if_true, htriple, h1, h2, h3]

/-- Bytes are put where there is room. -/
theorem put_eq {size : Nat} {array bytes : Bytes} (h : array.length + bytes.length ≤ size) :
    put size array bytes = pure (array ++ bytes) := by
  rw [put, if_neg (Nat.not_lt.mpr h)]

/-- The whole groups of a chunk are encoded, and less than a group is left. -/
theorem groups_eq : ∀ (buffer out : Bytes), out.length + 4 * (buffer.length / 3) ≤ outputBytes →
    ∃ whole rest, buffer = whole ++ rest ∧ whole.length % 3 = 0 ∧ rest.length < 3 ∧
      groups out buffer = pure (out ++ Base64.encode whole, rest)
  | a :: b :: c :: buffer, out, h => by
    simp only [List.length_cons] at h
    have hquad : (quad a b c).length = 4 := rfl
    obtain ⟨whole, rest, rfl, hwhole, hrest, hgroups⟩ := groups_eq buffer (out ++ quad a b c)
      (by rw [List.length_append, hquad]; omega)
    refine ⟨a :: b :: c :: whole, rest, rfl, by simp only [List.length_cons]; omega, hrest, ?_⟩
    have hput : put outputBytes out (quad a b c) = pure (out ++ quad a b c) := put_eq (by rw [hquad]; omega)
    rw [groups, hput, pure_bind, hgroups, quad_eq, List.append_assoc]
    rfl
  | [], out, _ => ⟨[], [], rfl, rfl, by decide, by rw [groups]; simp [Base64.encode]; intro x y z rest h; cases h⟩
  | [a], out, _ => ⟨[], [a], rfl, rfl, by simp, by rw [groups]; simp [Base64.encode]; intro x y z rest h; cases h⟩
  | [a, b], out, _ => ⟨[], [a, b], rfl, rfl, by simp, by rw [groups]; simp [Base64.encode]; intro x y z rest h; cases h⟩

/-- A group that was begun is finished where the chunk is long enough. -/
theorem fillCarry_eq {carry : Bytes} (buffer : Bytes) (h : carry.length < 3) :
    ∃ whole carry' rest, carry ++ buffer = whole ++ (carry' ++ rest) ∧ whole.length % 3 = 0 ∧ (carry' = [] ∨ rest = []) ∧
      carry'.length < 3 ∧ fillCarry carry [] buffer = pure (carry', Base64.encode whole, rest) := by
  unfold fillCarry
  by_cases hnil : carry = []
  · rw [if_pos hnil, hnil]
    exact ⟨[], [], buffer, rfl, rfl, .inl rfl, by decide, rfl⟩
  have htake : (buffer.take (3 - carry.length)).length ≤ 3 - carry.length := List.length_take_le ..
  have hput : put 3 carry (buffer.take (3 - carry.length)) = pure (carry ++ buffer.take (3 - carry.length)) :=
    put_eq (by omega)
  rw [if_neg hnil, hput, pure_bind]
  by_cases hfull : (carry ++ buffer.take (3 - carry.length)).length = 3
  · obtain ⟨a, b, c, habc⟩ := List.length_eq_three.mp hfull
    refine ⟨[a, b, c], [], buffer.drop (3 - carry.length), ?_, by simp, .inl rfl, by decide, ?_⟩
    · rw [← habc, List.nil_append, List.append_assoc, List.take_append_drop]
    · have hlen : (Base64.encode [a, b, c]).length = 4 := rfl
      have hquad : put outputBytes [] (Base64.encode [a, b, c]) = pure (Base64.encode [a, b, c]) :=
        put_eq (by rw [hlen]; decide)
      rw [if_pos hfull, habc]
      simp only [List.getD_cons_zero, List.getD_cons_succ, quad_eq, hquad, pure_bind]
  · have hshort : buffer.length ≤ 3 - carry.length := by
      rw [List.length_append, List.length_take] at hfull
      omega
    refine ⟨[], carry ++ buffer, [], by simp, rfl, .inr rfl, ?_, ?_⟩
    · rw [List.take_of_length_le hshort, List.length_append] at hfull
      rw [List.length_append]
      omega
    · rw [if_neg hfull, List.take_of_length_le hshort, List.drop_eq_nil_of_le hshort]
      rfl

/-- **What a base64 pass keeps.** Of what it has read the whole groups are encoded, and the rest is carried. -/
def Encoded (w got : Bytes) (carryOut : Bytes × Bytes) (s : Io) : Prop :=
  carryOut.2 = [] ∧ carryOut.1.length < 3 ∧
    ∃ whole, got = whole ++ carryOut.1 ∧ whole.length % 3 = 0 ∧ s.bytes = w ++ Base64.encode whole

theorem flush_ends (host : Host) (content : Bytes) {v : Bytes} (out : Bytes) :
    Ends (fun s => s.bytes ++ out = v) (flush host out) (fun out' s => out' = [] ∧ s.bytes = v) (Blamed host content) := by
  unfold flush
  refine Ends.ite (fun hnil => Ends.pure fun s hs => ⟨rfl, ?_⟩) fun _ => ?_
  · rwa [hnil, List.append_nil] at hs
  · exact (write_ends (fun e s he hS => ⟨he, hS⟩) (· = v) out).bind fun _ => Ends.pure fun s hs => ⟨rfl, hs⟩

/-- **One chunk.** The output area has room for the letters of a full input buffer and of what was carried. -/
theorem base64Chunk_ends {w got chunk : Bytes} {carryOut : Bytes × Bytes} (hlen : chunk.length ≤ inputBytes) :
    Ends (Encoded w got carryOut) (base64Chunk host carryOut chunk) (Encoded w (got ++ chunk)) (Blamed host content) := by
  obtain ⟨carry, out⟩ := carryOut
  rintro s ⟨rfl, hcarry, before, rfl, hbefore, hs⟩
  obtain ⟨whole, carry', rest, hsplit, hwhole, hor, hcarry', hfill⟩ := fillCarry_eq chunk hcarry
  have hlengths := congrArg List.length hsplit
  have hletters := Lib.Base64.length_encode hwhole
  have hin : inputBytes = 12288 := rfl
  have hout : outputBytes = 16384 := rfl
  dsimp only at hcarry
  simp only [List.length_append] at hlengths
  obtain ⟨more, left, rfl, hmore, hleft, hgroups⟩ := groups_eq rest (Base64.encode whole) (by omega)
  have hnext : (carry' ++ left).length < 3 := by
    rcases hor with rfl | hnil
    · simpa using hleft
    · rw [(List.append_eq_nil_iff.mp hnil).2, List.append_nil]
      exact hcarry'
  have hput : put 3 carry' left = pure (carry' ++ left) := put_eq (by rw [List.length_append] at hnext; omega)
  have hrun : base64Chunk host (carry, []) chunk =
      (flush host (Base64.encode whole ++ Base64.encode more) >>= fun out => pure (carry' ++ left, out)) := by
    simp only [base64Chunk, hfill, hgroups, hput, pure_bind]
  have hflush := (flush_ends host content (v := s.bytes ++ (Base64.encode whole ++ Base64.encode more))
    (Base64.encode whole ++ Base64.encode more)).bind
    (f := fun out => pure (carry' ++ left, out)) (S := Encoded w (before ++ carry ++ chunk)) fun out =>
    Ends.pure fun t ⟨hnil, ht⟩ => ⟨hnil, hnext, before ++ whole ++ more, ?_, ?_, ?_⟩
  · rw [hrun]
    exact hflush s rfl
  · rw [List.append_assoc, hsplit]
    rcases hor with rfl | hnil
    · simp
    · obtain ⟨rfl, rfl⟩ := List.append_eq_nil_iff.mp hnil
      simp
  · simp only [List.length_append]
    omega
  · have hgroup : (before ++ whole).length % 3 = 0 := by
      rw [List.length_append]
      omega
    rw [ht, hs, Lib.Base64.encode_append more hgroup, Lib.Base64.encode_append whole hbefore]
    simp only [List.append_assoc]

/-- What is left at the end is encoded behind the rest. -/
theorem base64Last_ends {w got : Bytes} {carryOut : Bytes × Bytes} :
    Ends (Encoded w got carryOut) (base64Last host carryOut.1 carryOut.2) (fun out s => s.bytes ++ out = w ++ Base64.encode got)
      (Blamed host content) := by
  obtain ⟨carry, out⟩ := carryOut
  rintro s ⟨rfl, hcarry, whole, rfl, hwhole, hs⟩
  have hencode : s.bytes ++ Base64.encode carry = w ++ Base64.encode (whole ++ carry) := by
    rw [hs, Lib.Base64.encode_append carry hwhole, List.append_assoc]
  have hlast : base64Last host carry [] = pure (Base64.encode carry) := by
    unfold base64Last
    by_cases hnil : carry = []
    · rw [if_pos hnil, hnil]
      rfl
    · have hlen : (lastQuad carry).length = 4 := rfl
      have hput : put outputBytes [] (lastQuad carry) = pure (lastQuad carry) := put_eq (by rw [hlen]; decide)
      rw [if_neg hnil, if_neg (by decide), pure_bind]
      exact hput.trans (congrArg pure (lastQuad_eq hnil hcarry))
  rw [hlast]
  exact hencode

/-- **A base64 pass** emits the encoding of the content as a string, and fails only when the host does. -/
theorem base64JsonString_ends (host : Host) (content w : Bytes) :
    Ends (fun s => s.bytes = w) (base64JsonString host)
      (fun _ s => host.Serves content → s.bytes = w ++ ([chQuote] ++ Base64.encode content ++ [chQuote]))
      (Blamed host content) := by
  have hblame : ∀ e (s : Io), e ≠ Halt.overrun → ¬ host.Serves content → Blamed host content e s := fun e s he hS => ⟨he, hS⟩
  unfold base64JsonString
  refine (openPass_ends (fun s n hs => hs) (fun e s _ => hblame e s) (by decide)).bind fun stream =>
    Ends.of_fact fun hstream => ?_
  refine Ends.bind ((write_ends hblame (· = w ++ [chQuote]) [chQuote]).weaken (fun s hs => by rw [hs]) fun _ _ hs => hs)
    fun _ => ?_
  have hloop := forChunks_ends content (fun _ => false) (base64Chunk host) (I := Encoded (w ++ [chQuote])) (R := Blamed host content)
    (fun e _ _ s _ => hblame e s) (fun got b chunk hlen _ _ => base64Chunk_ends hlen) stream [] ([], []) rfl
    fun hS => ⟨content, hstream hS, rfl⟩
  refine (hloop.weaken ?_ fun _ _ h => h).bind fun carryOut => Ends.of_exists fun got => Ends.of_fact fun hgot => ?_
  · exact fun s hs => ⟨rfl, by decide, [], rfl, rfl, by simp [hs, Base64.encode]⟩
  refine base64Last_ends.bind fun out => (flush_ends host content out).bind fun _ => ?_
  refine (write_ends hblame (· = w ++ [chQuote] ++ Base64.encode got ++ [chQuote]) [chQuote]).weaken
    (fun s hs => by rw [hs.2]) fun _ s hs hS => ?_
  rw [hs, hgot.2 rfl hS]
  simp

/-! ## Text -/

/-- The bytes of a text, checked one after the other. -/
def checkAll (utf8 : Utf8State) (text : Bytes) : Except Err Utf8State := text.foldlM checkByte utf8

theorem checkAll_cons (utf8 : Utf8State) (ch : UInt8) (text : Bytes) :
    checkAll utf8 (ch :: text) = (checkByte utf8 ch).bind fun u => checkAll u text := rfl

theorem checkAll_append (utf8 : Utf8State) (a b : Bytes) :
    checkAll utf8 (a ++ b) = (checkAll utf8 a).bind fun u => checkAll u b := List.foldlM_append

/-- A text is checked where it has no NUL and the validator takes it. -/
theorem checkAll_ok : ∀ {text : Bytes} {utf8 u : Utf8State},
    checkAll utf8 text = .ok u ↔ 0 ∉ text ∧ utf8AcceptAll utf8 text = some u
  | [], utf8, u => by simp [checkAll, utf8AcceptAll, pure, Except.pure]
  | ch :: text, utf8, u => by
    rw [checkAll_cons, Json.utf8AcceptAll_cons, checkByte, List.mem_cons, not_or]
    by_cases hzero : ch = 0
    · rw [if_pos hzero]
      exact ⟨nofun, fun h => absurd hzero.symm h.1.1⟩
    · rw [if_neg hzero]
      cases h : utf8Accept utf8 ch with
      | none => exact ⟨nofun, fun h => nomatch h.2⟩
      | some u' =>
        refine Iff.trans checkAll_ok ⟨fun h => ⟨⟨Ne.symm hzero, h.1⟩, h.2⟩, fun h => ⟨h.1.2, h.2⟩⟩

/-- **What is checked to the end is text.** -/
theorem isText_iff (content : Bytes) : IsText content ↔ ∃ u, checkAll {} content = .ok u ∧ u.remaining = 0 := by
  constructor
  · rintro ⟨hzero, htext⟩
    obtain ⟨u, hu, hrem⟩ : AcceptsFrom {} content := (accepts_iff rfl content).mpr htext
    exact ⟨u, checkAll_ok.mpr ⟨hzero, hu⟩, hrem⟩
  · rintro ⟨u, hu, hrem⟩
    obtain ⟨hzero, hu⟩ := checkAll_ok.mp hu
    exact ⟨hzero, (accepts_iff rfl content).mp ⟨u, hu, hrem⟩⟩

/-- What does not pass begins no text. -/
theorem not_isText_of_part {got : Bytes} {e : Err} (h : checkAll {} got = .error e) (hp : got <+: content) :
    ¬ IsText content := by
  rw [isText_iff]
  rintro ⟨u, hu, -⟩
  obtain ⟨rest, rfl⟩ := hp
  rw [checkAll_append, h] at hu
  cases hu

theorem textlikeBytes_eq (strict : Bool) : ∀ (utf8 : Utf8State) (chunk : Bytes),
    textlikeBytes strict utf8 chunk = match checkAll utf8 chunk with
      | .ok u => pure (some u)
      | .error e => if strict then fail e else pure none
  | utf8, [] => rfl
  | utf8, ch :: chunk => by
    rw [textlikeBytes, checkAll_cons]
    cases checkByte utf8 ch with
    | error e => rfl
    | ok u => exact textlikeBytes_eq strict u chunk

/-- What a pass that only looks at the file keeps: it stands where the validator stands behind what it has read. -/
def Looked (strict : Bool) (w got : Bytes) (utf8 : Option Utf8State) (s : Io) : Prop :=
  s.bytes = w ∧ match utf8 with
    | some u => checkAll {} got = .ok u
    | none => strict = false ∧ ∃ e, checkAll {} got = .error e

/-- How such a pass fails: it writes nothing, and the host is to blame or, where that is an error, the text. -/
def LookFails (host : Host) (content : Bytes) (strict : Bool) (w : Bytes) (e : Halt) (s : Io) : Prop :=
  s.bytes = w ∧ e ≠ .overrun ∧ ¬ (host.Serves content ∧ (strict = true → IsText content))

/-- A chunk is looked at. -/
theorem looked_chunk {strict : Bool} {w got chunk : Bytes} {utf8 : Option Utf8State} (hb : utf8.isNone = false)
    (hpart : host.Serves content → got ++ chunk <+: content) :
    Ends (Looked strict w got utf8) (textlikeBytes strict (utf8.getD {}) chunk) (Looked strict w (got ++ chunk))
      (LookFails host content strict w) := by
  cases utf8 with
  | none => cases hb
  | some u =>
    rintro s ⟨hs, hgot⟩
    have hall : checkAll {} (got ++ chunk) = checkAll u chunk := by
      rw [checkAll_append]
      exact congrArg (fun r => r.bind fun u => checkAll u chunk) hgot
    rw [textlikeBytes_eq]
    cases hc : checkAll u chunk with
    | ok u' =>
      rw [Option.getD_some, hc]
      exact ⟨hs, hall.trans hc⟩
    | error e =>
      have herr : checkAll {} (got ++ chunk) = .error e := hall.trans hc
      rw [Option.getD_some, hc]
      cases strict with
      | true => exact ⟨hs, nofun, fun h => not_isText_of_part herr (hpart h.1) (h.2 rfl)⟩
      | false => exact ⟨hs, rfl, e, herr⟩

/-- **A pass that only looks at the file** finds out whether it is text, and writes nothing. -/
theorem textlike_ends (host : Host) (content : Bytes) (strict : Bool) (w : Bytes) :
    Ends (fun s => s.bytes = w) (textlike host strict)
      (fun r s => s.bytes = w ∧ (strict = true → r = true) ∧ (host.Serves content → (r = true ↔ IsText content)))
      (LookFails host content strict w) := by
  unfold textlike
  refine (openPass_ends (fun s n hs => hs) (fun e s hs he hS => ⟨hs, he, fun h => hS h.1⟩) (by decide)).bind fun stream =>
    Ends.of_fact fun hstream => ?_
  have hloop := forChunks_ends content Option.isNone (fun utf8 chunk => textlikeBytes strict (utf8.getD {}) chunk)
    (I := Looked strict w)
    (R := LookFails host content strict w) (fun e got b s hs he hS => ⟨hs.1, he, fun h => hS h.1⟩)
    (fun got b chunk _ hb hpart => looked_chunk hb hpart) stream [] (some {}) rfl
    fun hS => ⟨content, hstream hS, rfl⟩
  refine (hloop.weaken (fun s hs => ⟨hs, rfl⟩) fun _ _ h => h).bind fun utf8 => Ends.of_exists fun got =>
    Ends.of_fact fun hgot => ?_
  cases utf8 with
  | none =>
    refine Ends.pure fun s ⟨hs, hstrict, e, herr⟩ => ⟨hs, by simp [hstrict], fun hS => ?_⟩
    simp [not_isText_of_part herr (hgot.1 hS)]
  | some u =>
    have htext : host.Serves content → checkAll {} got = .ok u → (IsText content ↔ u.remaining = 0) := by
      intro hS hu
      rw [isText_iff, ← hgot.2 rfl hS, hu]
      exact ⟨fun ⟨u', hu', hrem⟩ => by cases hu'; exact hrem, fun hrem => ⟨u, rfl, hrem⟩⟩
    refine Ends.ite (fun hrem => ?_) fun hrem => Ends.ite (fun hstrict => ?_) fun hstrict => ?_
    · exact Ends.pure fun s hs => ⟨hs.1, fun _ => rfl, fun hS => by simp [htext hS hs.2, hrem]⟩
    · refine Ends.throw fun s hs => ⟨hs.1, nofun, fun h => hrem ?_⟩
      exact (htext h.1 hs.2).mp (h.2 hstrict)
    · exact Ends.pure fun s hs => ⟨hs.1, fun h => absurd h hstrict, fun hS => by simp [htext hS hs.2, hrem]⟩

/-- The content, escaped. -/
def escapeAll (text : Bytes) : Bytes := text.flatMap fun ch => (escaped ch).flatten

/-- How a text pass fails: the host is to blame, or the text. -/
def TextFails (host : Host) (content : Bytes) (e : Halt) (_ : Io) : Prop :=
  e ≠ .overrun ∧ ¬ (host.Serves content ∧ IsText content)

/-- What a text pass keeps: it stands where the validator stands behind what it has read, and has written it. -/
def Emitted (w got : Bytes) (utf8 : Utf8State) (s : Io) : Prop :=
  s.bytes = w ++ escapeAll got ∧ checkAll {} got = .ok utf8

theorem writes_ends {R : Halt → Io → Prop} (hR : ∀ e s, e ≠ .overrun → ¬ host.Serves content → R e s) (v : Bytes) :
    ∀ datas : List Bytes, Ends (fun s => s.bytes ++ datas.flatten = v) (datas.forM (write host)) (fun _ s => s.bytes = v) R
  | [] => Ends.pure fun s hs => by simpa using hs
  | data :: datas => by
    change Ends _ (write host data >>= fun _ => datas.forM (write host)) _ R
    refine Ends.bind ((write_ends hR (· ++ datas.flatten = v) data).weaken (fun s hs => ?_) fun _ _ hs => hs)
      fun _ => writes_ends hR v datas
    rwa [List.append_assoc]

/-- A chunk is validated and written. -/
theorem emitted_chunk {w : Bytes} : ∀ {chunk got : Bytes} {utf8 : Utf8State},
    (host.Serves content → got ++ chunk <+: content) →
    Ends (Emitted w got utf8) (chunk.foldlM (textByte host true) utf8) (Emitted w (got ++ chunk)) (TextFails host content)
  | [], got, utf8, _ => Ends.pure fun s hs => by rwa [List.append_nil]
  | ch :: chunk, got, utf8, hpart => by
    have hsplit : got ++ ch :: chunk = got ++ [ch] ++ chunk := by simp
    rw [hsplit] at hpart ⊢
    change Ends _ (textByte host true utf8 ch >>= fun u => chunk.foldlM (textByte host true) u) _ _
    refine Ends.bind (Q := Emitted w (got ++ [ch])) (Ends.of_fact fun hgot => ?_) fun u => emitted_chunk hpart
    have hnext : checkAll {} (got ++ [ch]) = checkByte utf8 ch := by
      rw [checkAll_append, hgot, Except.bind, checkAll_cons]
      cases checkByte utf8 ch <;> rfl
    unfold textByte
    rw [if_pos rfl]
    cases hc : checkByte utf8 ch with
    | error e =>
      refine Ends.throw fun s hs => ⟨nofun, fun h => ?_⟩
      exact not_isText_of_part (hnext.trans hc) ((List.prefix_append ..).trans (hpart h.1)) h.2
    | ok u =>
      have hR : ∀ (e : Halt) (s : Io), e ≠ .overrun → ¬ host.Serves content → TextFails host content e s :=
        fun e s he hS => ⟨he, fun h => hS h.1⟩
      refine Ends.bind ((writes_ends hR (w ++ escapeAll (got ++ [ch])) (escaped ch)).weaken (fun s hs => ?_) fun _ _ hs => hs)
        fun _ => Ends.pure fun s hs => ⟨hs, hnext.trans hc⟩
      rw [hs, List.append_assoc, escapeAll, escapeAll, List.flatMap_append, List.flatMap_singleton]

/-- **A text pass** emits the content escaped as a string, and fails when the content is no text or the host does. -/
theorem textJsonString_ends (host : Host) (content w : Bytes) :
    Ends (fun s => s.bytes = w) (textJsonString host true)
      (fun _ s => host.Serves content → s.bytes = w ++ ([chQuote] ++ escapeAll content ++ [chQuote]))
      (TextFails host content) := by
  have hR : ∀ (e : Halt) (s : Io), e ≠ .overrun → ¬ host.Serves content → TextFails host content e s :=
    fun e s he hS => ⟨he, fun h => hS h.1⟩
  unfold textJsonString
  refine (openPass_ends (fun s n hs => hs) (fun e s _ => hR e s) (by decide)).bind fun stream =>
    Ends.of_fact fun hstream => ?_
  refine Ends.bind ((write_ends hR (· = w ++ [chQuote]) [chQuote]).weaken (fun s hs => by rw [hs]) fun _ _ hs => hs)
    fun _ => ?_
  have hloop := forChunks_ends content (fun _ => false) (fun utf8 chunk => chunk.foldlM (textByte host true) utf8)
    (I := Emitted (w ++ [chQuote]))
    (R := TextFails host content) (fun e _ _ s _ => hR e s) (fun got b chunk _ _ hpart => emitted_chunk hpart)
    stream [] {} rfl fun hS => ⟨content, hstream hS, rfl⟩
  refine (hloop.weaken (fun s hs => ⟨by simp [hs, escapeAll], rfl⟩) fun _ _ h => h).bind fun utf8 =>
    Ends.of_exists fun got => Ends.of_fact fun hgot => Ends.of_fact fun hcheck => Ends.ite (fun hrem => ?_) fun _ => ?_
  · refine Ends.throw fun s _ => ⟨nofun, fun h => hrem.2 ?_⟩
    obtain ⟨u, hu, hzero⟩ := (isText_iff content).mp h.2
    rw [← hgot.2 rfl h.1, hcheck] at hu
    cases hu
    exact hzero
  · refine (write_ends hR (· = w ++ [chQuote] ++ escapeAll got ++ [chQuote]) [chQuote]).weaken
      (fun s hs => by rw [hs]) fun _ s hs hS => ?_
    rw [hs, hgot.2 rfl hS]
    simp

/-! ## What is written is read back -/

theorem escaped_control : ∀ n < 32, Json.Hex4
    [chZero, chZero, hexDigits.getD ((UInt8.ofNat n).toNat >>> 4) 0, hexDigits.getD ((UInt8.ofNat n).toNat &&& 0x0f) 0] n ∧
    Scan.unicodeBytes n = [UInt8.ofNat n] := by
  unfold Json.Hex4
  decide +kernel

theorem escaped_special : ∀ n < 128, ¬ UInt8.ofNat n < 0x20 → UInt8.ofNat n ≠ chQuote → UInt8.ofNat n ≠ chBackslash →
    Scan.isPlain (UInt8.ofNat n) = true := by
  decide +kernel

/-- One ASCII byte is written as a piece of a string that stands for it. -/
theorem piece_ascii {ch : UInt8} (h : ch < 0x80) : ∃ p : Json.Piece, p.Ok ∧ p.text = [ch] ∧ p.raw = (escaped ch).flatten := by
  have hlt : ch.toNat < 128 := UInt8.lt_iff_toNat_lt.mp h
  unfold escaped
  by_cases hq : ch = chQuote ∨ ch = chBackslash
  · rw [if_pos hq]
    rcases hq with rfl | rfl
    · exact ⟨_, .short (c := chQuote) (by decide), by decide, rfl⟩
    · exact ⟨_, .short (c := chBackslash) (by decide), by decide, rfl⟩
  rw [if_neg hq]
  by_cases hc : ch < 0x20
  · have hlt : ch.toNat < 32 := UInt8.lt_iff_toNat_lt.mp hc
    obtain ⟨hhex, htext⟩ := escaped_control ch.toNat hlt
    rw [UInt8.ofNat_toNat] at hhex htext
    rw [if_pos hc]
    exact ⟨_, .unicode hhex (.inl (by omega)), htext, rfl⟩
  · rw [if_neg hc]
    have hplain := escaped_special ch.toNat hlt
    rw [UInt8.ofNat_toNat] at hplain
    exact ⟨_, .plain (hplain hc (fun h => hq (.inl h)) fun h => hq (.inr h)), rfl, rfl⟩

/-- The bytes of a character beyond ASCII are written as they are. -/
theorem escapeAll_high : ∀ {bs : Bytes}, (∀ b ∈ bs, 0x80 ≤ b) → escapeAll bs = bs
  | [], _ => rfl
  | b :: bs, h => by
    obtain ⟨hb, hbs⟩ := List.forall_mem_cons.mp h
    have hb : 0x80 ≤ b.toNat := UInt8.le_iff_toNat_le.mp hb
    have hq : ¬ (b = chQuote ∨ b = chBackslash) := by
      rintro (rfl | rfl) <;> exact absurd hb (by decide)
    have hc : ¬ b < 0x20 := by
      rw [UInt8.lt_iff_toNat_lt]
      simp only [UInt8.reduceToNat]
      omega
    have hone : (escaped b).flatten = [b] := by
      rw [escaped, if_neg hq, if_neg hc]
      rfl
    have ih := escapeAll_high hbs
    rw [escapeAll] at ih ⊢
    rw [List.flatMap_cons, hone, ih, List.singleton_append]

/-- A character is written as a piece of a string that stands for it. -/
theorem piece_char (c : Char) : ∃ p : Json.Piece, p.Ok ∧ p.text = String.utf8EncodeChar c ∧
    p.raw = escapeAll (String.utf8EncodeChar c) := by
  rcases Json.utf8_head c with ⟨b, hb, htext⟩ | ⟨hc, -⟩
  · obtain ⟨p, hp, ht, hr⟩ := piece_ascii hb
    refine ⟨p, hp, ht.trans htext.symm, hr.trans ?_⟩
    rw [htext, escapeAll, List.flatMap_singleton]
  · refine ⟨_, .utf8 c hc, rfl, ?_⟩
    rw [escapeAll_high (Json.char_high hc)]
    rfl

/-- **A text, escaped, is a string that stands for it.** -/
theorem str_of_text : ∀ cs : List Char, ∃ str : Json.Str, str.Ok ∧ str.text = Unicode.utf8 cs ∧
    str.raw = escapeAll (Unicode.utf8 cs)
  | [] => ⟨[], List.forall_mem_nil _, rfl, rfl⟩
  | c :: cs => by
    obtain ⟨p, hp, hptext, hpraw⟩ := piece_char c
    obtain ⟨str, hok, htext, hraw⟩ := str_of_text cs
    refine ⟨p :: str, List.forall_mem_cons.mpr ⟨hp, hok⟩, ?_, ?_⟩
    · rw [Unicode.utf8_cons, ← hptext, ← htext]
      rfl
    · rw [Unicode.utf8_cons, escapeAll, List.flatMap_append, ← escapeAll, ← escapeAll, ← hpraw, ← hraw]
      rfl

/-! ## File values -/

/-- A text value fails when the content is no text or the host does, and in the first case nothing is written. -/
def TextValueFails (host : Host) (content w : Bytes) (e : Halt) (s : Io) : Prop :=
  e ≠ .overrun ∧ ¬ (host.Serves content ∧ IsText content) ∧ (host.Serves content → s.bytes = w)

theorem fileText_ends (host : Host) (content w : Bytes) :
    Ends (fun s => s.bytes = w) (fileValue host .fileText)
      (fun _ s => host.Serves content →
        IsText content ∧ s.bytes = w ++ ([chQuote] ++ escapeAll content ++ [chQuote]))
      (TextValueFails host content w) := by
  rw [fileValue, if_neg nofun, if_pos rfl]
  refine Ends.bind ((textlike_ends host content true w).stops fun e s h => ?_) fun r => ?_
  · exact ⟨h.2.1, fun hS => h.2.2 ⟨hS.1, fun _ => hS.2⟩, fun _ => h.1⟩
  · refine Ends.of_fact fun ⟨hr, htext⟩ => ((textJsonString_ends host content w).stops fun e s h => ?_).weaken
      (fun _ hs => hs) fun _ s hs hS => ⟨(htext hS).mp (hr rfl), hs hS⟩
    exact ⟨h.1, h.2, fun hS => absurd ⟨hS, (htext hS).mp (hr rfl)⟩ h.2⟩

/-- A value of either kind is text or base64, and fails only when the host does. -/
theorem fileEither_ends (host : Host) (content : Bytes) {valueKind : ValueKind} (hb : valueKind ≠ .fileBase64) (ht : valueKind ≠ .fileText) (w : Bytes) :
    Ends (fun s => s.bytes = w) (fileValue host valueKind)
      (fun _ s => host.Serves content →
        (IsText content → s.bytes = w ++ ([chQuote] ++ escapeAll content ++ [chQuote])) ∧
        (¬ IsText content → s.bytes = w ++ ([chQuote] ++ Base64.encode content ++ [chQuote])))
      (Blamed host content) := by
  rw [fileValue, if_neg hb, if_neg ht]
  refine Ends.bind ((textlike_ends host content false w).stops fun e s h => ?_) fun r => Ends.of_fact fun ⟨_, hr⟩ =>
    Ends.ite (fun hyes => ?_) fun hno => ?_
  · exact ⟨h.2.1, fun hS => h.2.2 ⟨hS, nofun⟩⟩
  · refine ((textJsonString_ends host content w).weaken (fun _ hs => hs) fun _ s hs hS => ?_).stops fun e s h => ⟨h.1, fun hS => ?_⟩
    · exact ⟨fun _ => hs hS, fun h => absurd ((hr hS).mp hyes) h⟩
    · exact h.2 ⟨hS, (hr hS).mp hyes⟩
  · refine (base64JsonString_ends host content w).weaken (fun _ hs => hs) fun _ s hs hS => ?_
    exact ⟨fun h => absurd ((hr hS).mpr h) hno, fun _ => hs hS⟩

/-- No file value writes behind the output area, whatever the host does. -/
theorem no_overrun (host : Host) (valueKind : ValueKind) (s t : Io) : fileValue host valueKind s ≠ .error .overrun t := by
  intro h
  by_cases hb : valueKind = .fileBase64
  · rw [hb, fileValue, if_pos rfl] at h
    exact ((base64JsonString_ends host [] s.bytes).error rfl h).1 rfl
  by_cases ht : valueKind = .fileText
  · rw [ht] at h
    exact ((fileText_ends host [] s.bytes).error rfl h).1 rfl
  · exact ((fileEither_ends host [] hb ht s.bytes).error rfl h).1 rfl

/-- The value is emitted, and this is what is written for it. -/
def Emits (host : Host) (valueKind : ValueKind) (s : Io) (text : Bytes) : Prop :=
  ∃ t, fileValue host valueKind s = .ok () t ∧ t.bytes = s.bytes ++ text

/-- **File values are encoded faithfully.** Nothing is ever written behind the output area. Where the host serves the file,
a base64 value is emitted as the base64 of the content; a text value is emitted exactly when the content is text, as a
string that is read back as the content, and else nothing is; a value of either kind is emitted as text in that case and
as base64 else. -/
theorem file_values (host : Host) (content : Bytes) :
    (∀ valueKind s t, fileValue host valueKind s ≠ .error .overrun t) ∧
    (host.Serves content → ∀ s,
      Emits host .fileBase64 s ([chQuote] ++ Base64.encode content ++ [chQuote]) ∧
      (IsText content → ∃ str : Json.Str, str.text = content ∧
        (∀ rest compact, Json.stringP { rest := str.quoted ++ rest, compact } = some (str, { rest, compact })) ∧
        Emits host .fileText s str.quoted ∧ Emits host .fileAuto s str.quoted) ∧
      (¬ IsText content → (∃ e t, fileValue host .fileText s = .error e t ∧ t.bytes = s.bytes) ∧
        Emits host .fileAuto s ([chQuote] ++ Base64.encode content ++ [chQuote]))) := by
  have hauto : ValueKind.fileAuto ≠ .fileBase64 ∧ ValueKind.fileAuto ≠ .fileText := by decide
  refine ⟨no_overrun host, fun hS s => ⟨?_, fun htext => ?_, fun htext => ⟨?_, ?_⟩⟩⟩
  · obtain ⟨_, t, hrun, ht⟩ := (base64JsonString_ends host content s.bytes).total rfl fun e t h => h.2 hS
    exact ⟨t, hrun, ht hS⟩
  · obtain ⟨cs, hcs⟩ := htext.2
    obtain ⟨str, hok, htext', hraw⟩ := str_of_text cs
    rw [← hcs] at htext' hraw
    have hquoted : str.quoted = [chQuote] ++ escapeAll content ++ [chQuote] := by rw [Json.Str.quoted, hraw]
    refine ⟨str, htext', fun rest compact => Json.stringP_complete hok rest compact, ?_, ?_⟩
    · obtain ⟨_, t, hrun, ht⟩ := (fileText_ends host content s.bytes).total rfl fun e t h => h.2.1 ⟨hS, htext⟩
      exact ⟨t, hrun, hquoted ▸ (ht hS).2⟩
    · obtain ⟨_, t, hrun, ht⟩ := (fileEither_ends host content hauto.1 hauto.2 s.bytes).total rfl fun e t h => h.2 hS
      exact ⟨t, hrun, hquoted ▸ (ht hS).1 htext⟩
  · cases hrun : fileValue host .fileText s with
    | ok u t =>
      exact absurd ((fileText_ends host content s.bytes).ok rfl hrun hS).1 htext
    | error e t => exact ⟨e, t, rfl, ((fileText_ends host content s.bytes).error rfl hrun).2.2 hS⟩
  · obtain ⟨_, t, hrun, ht⟩ := (fileEither_ends host content hauto.1 hauto.2 s.bytes).total rfl fun e t h => h.2 hS
    exact ⟨t, hrun, (ht hS).2 htext⟩

/-- A host that hands over the content byte by byte. -/
def bytewise (content : Bytes) : Host where
  grants _ := true
  opens _ := .ok fun _ => content.map fun b => .ok [b]
  writer _ _ := none

theorem bytewise_serves (content : Bytes) : (bytewise content).Serves content where
  grants _ := rfl
  writes _ _ := rfl
  opens _ := by
    refine ⟨_, rfl, fun capacity hcap => ⟨content.map fun b => [b], ?_, ?_, fun c hc => ?_⟩⟩
    · rw [List.map_map]
      rfl
    · rw [← List.flatMap_def, List.flatMap_singleton']
    · obtain ⟨b, -, rfl⟩ := List.mem_map.mp hc
      exact ⟨List.cons_ne_nil _ _, hcap⟩

theorem file_values_letter : Emits (bytewise [0x61]) .fileBase64 {} [0x22, 0x59, 0x51, 0x3d, 0x3d, 0x22] :=
  ((file_values (bytewise [0x61]) [0x61]).2 (bytewise_serves [0x61]) {}).1

end Lql.Mutation.FileValue
