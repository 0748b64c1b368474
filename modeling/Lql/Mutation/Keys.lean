import Lql.Json.Lexer
import Lql.Json.Validate
import Lql.Mutation.Walk
import Lql.Spool.Refine

/-!
# A key is its decoded bytes

`lql_flat_eq_key_equals` decodes a key as it compares it: a byte at a time, but for the escapes, and
of these the `\u` ones give up to four bytes at once. In every round it has compared as many bytes of the
segment as it has decoded. A NUL that the key encodes is never equal to the segment's, which ends it.
-/

namespace Lql.Mutation

open Json (Str Piece Hex4 hexNumber hexNumber_lt pair_range unicodeBytes_eq)
open Lib (Ends)
open Scan (isPlain isShortEscape shortEscapeByte unicodeBytes)
open Spool (Fate Holds Reliable SpoolM Stopped byteAt byteAt_here refuse_bind)

variable {fate : Fate} {bytes : Bytes}

/-! ## Rounds -/

/-- What one round reads, and the bytes it decodes them to. -/
inductive Round : Bytes → Bytes → Prop where
  | byte {c : UInt8} (hq : c ≠ chQuote) (hb : c ≠ chBackslash) : Round [c] [c]
  | short {c : UInt8} (h : isShortEscape c = true) : Round [chBackslash, c] [shortEscapeByte c]
  | unicode {digits : Bytes} {value : Nat} (h : Hex4 digits value) (hv : value < 0xd800 ∨ 0xdfff < value) :
    Round ([chBackslash, chU] ++ digits) (unicodeBytes value)
  | pair {high low : Bytes} {hi lo : Nat} (hh : Hex4 high hi) (hl : Hex4 low lo)
    (hhi : 0xd800 ≤ hi ∧ hi ≤ 0xdbff) (hlo : 0xdc00 ≤ lo ∧ lo ≤ 0xdfff) :
    Round ([chBackslash, chU] ++ high ++ [chBackslash, chU] ++ low)
      (unicodeBytes (0x10000 + ((hi - 0xd800) <<< 10) + (lo - 0xdc00)))

/-- Round after round. -/
inductive Rounds : Bytes → Bytes → Prop where
  | nil : Rounds [] []
  | cons {raw text raws texts : Bytes} (h : Round raw text) (hrest : Rounds raws texts) :
    Rounds (raw ++ raws) (text ++ texts)

theorem Rounds.append {a b c d : Bytes} (h : Rounds a b) (h' : Rounds c d) : Rounds (a ++ c) (b ++ d) := by
  induction h with
  | nil => exact h'
  | cons hround _ ih =>
    rw [List.append_assoc, List.append_assoc]
    exact .cons hround ih

/-- Bytes that stand for themselves are read one by one. -/
theorem rounds_of_bytes : ∀ {bs : Bytes}, (∀ c ∈ bs, c ≠ chQuote ∧ c ≠ chBackslash) → Rounds bs bs
  | [], _ => .nil
  | c :: bs, h => by
    obtain ⟨hc, hbs⟩ := List.forall_mem_cons.mp h
    exact .cons (.byte hc.1 hc.2) (rounds_of_bytes hbs)

theorem rounds_of_piece {p : Piece} (h : p.Ok) : Rounds p.raw p.text := by
  have single : ∀ {raw text : Bytes}, Round raw text → Rounds raw text := fun hround => by
    simpa using Rounds.cons hround .nil
  cases h with
  | @plain c hc =>
    simp only [isPlain, Bool.and_eq_true, decide_eq_true_eq] at hc
    exact single (.byte hc.1.1.1 hc.1.1.2)
  | utf8 c hc => exact rounds_of_bytes (Json.char_plain hc)
  | short hc => exact single (.short hc)
  | unicode hx hv => exact single (.unicode hx hv)
  | pair hh hl hhi hlo =>
    have hround := Round.pair hh hl hhi hlo
    rw [Piece.raw, Piece.text]
    exact single hround

/-- **A string is read in rounds**, which decode it. -/
theorem rounds_of_str : ∀ {s : Str}, s.Ok → Rounds s.raw s.text
  | [], _ => .nil
  | p :: s, h => by
    obtain ⟨hp, hs⟩ := List.forall_mem_cons.mp h
    exact (rounds_of_piece hp).append (rounds_of_str hs)

/-! ## Reading -/

/-- What stands behind a part of the bytes. -/
theorem drop_behind {offset : Nat} {a b : Bytes} (h : bytes.drop offset = a ++ b) :
    bytes.drop (offset + a.length) = b := by
  rw [← List.drop_drop, h, List.drop_left]

theorem readHexLoop_ends : ∀ {digits rest : Bytes} {offset value n : Nat}, hexNumber value digits = some n →
    bytes.drop offset = digits ++ rest →
    Ends (Holds bytes) (readHexLoop fate digits.length offset value) (fun v s => Holds bytes s ∧ v = n)
      (Stopped fate bytes)
  | [], _, _, _, _, h, _ => by
    cases h
    exact Ends.pure fun s hs => ⟨hs, rfl⟩
  | c :: digits, rest, offset, value, n, h, hdrop => by
    rw [hexNumber] at h
    rw [List.length_cons, readHexLoop]
    refine (byteAt_here hdrop).bind fun b => Ends.of_fact fun hb => ?_
    rw [hb, hexValue]
    cases hc : Scan.hexValue c with
    | none =>
      rw [hc] at h
      cases h
    | some digit =>
      rw [hc] at h
      have hor : value <<< 4 ||| digit = value * 16 + digit := by
        rw [← Nat.shiftLeft_add_eq_or_of_lt (i := 4) (Json.hexValue_lt hc), Nat.shiftLeft_eq]
      dsimp only
      rw [hor]
      exact readHexLoop_ends h (drop_behind (a := [c]) hdrop)

theorem readHex4_ends {digits rest : Bytes} {offset stop value : Nat} (h : Hex4 digits value)
    (hdrop : bytes.drop offset = digits ++ rest) (hstop : offset + 4 ≤ stop) :
    Ends (Holds bytes) (readHex4 fate offset stop) (fun v s => Holds bytes s ∧ v = value)
      (Stopped fate bytes) := by
  unfold readHex4
  refine refuse_bind _ (fun hbad => absurd hbad (by omega)) fun _ => ?_
  rw [← h.1]
  exact readHexLoop_ends h.2 hdrop

theorem keyEncoded_ends {value : Nat} (hv : value < 0xd800 ∨ 0xdfff < value ∧ value < 0x110000) (offset : Nat) :
    Ends (Holds bytes) (keyEncoded value offset)
      (fun r s => Holds bytes s ∧ r = (unicodeBytes value, offset)) (Stopped fate bytes) := by
  unfold keyEncoded
  rw [← unicodeBytes_eq hv]
  refine refuse_bind _ (fun hnil => absurd hnil ?_) fun _ => Ends.pure fun s hs => ⟨hs, rfl⟩
  unfold unicodeBytes
  split
  · simp
  split
  · simp
  split <;> simp

/-- Four hex digits behind `\u` that are no surrogate. -/
theorem keyUnicode_single {digits rest : Bytes} {offset stop value : Nat} (h : Hex4 digits value)
    (hv : value < 0xd800 ∨ 0xdfff < value) (hdrop : bytes.drop offset = digits ++ rest)
    (hstop : offset + 4 ≤ stop) :
    Ends (Holds bytes) (keyUnicode fate offset stop)
      (fun r s => Holds bytes s ∧ r = (unicodeBytes value, offset + 4)) (Stopped fate bytes) := by
  have hlt := hexNumber_lt h.2
  rw [h.1] at hlt
  unfold keyUnicode
  refine (readHex4_ends h hdrop hstop).bind fun v => Ends.of_fact fun hvalue => ?_
  rw [hvalue]
  refine Ends.ite (fun hhigh => absurd hhigh (by omega)) fun _ => ?_
  exact refuse_bind _ (fun hlow => absurd hlow (by omega)) fun _ => keyEncoded_ends (by omega) _

/-- A pair of surrogates behind `\u`. -/
theorem keyUnicode_pair {high low rest : Bytes} {offset stop hi lo : Nat} (hh : Hex4 high hi)
    (hl : Hex4 low lo) (hhi : 0xd800 ≤ hi ∧ hi ≤ 0xdbff) (hlo : 0xdc00 ≤ lo ∧ lo ≤ 0xdfff)
    (hdrop : bytes.drop offset = high ++ ([chBackslash, chU] ++ (low ++ rest))) (hstop : offset + 10 ≤ stop) :
    Ends (Holds bytes) (keyUnicode fate offset stop)
      (fun r s => Holds bytes s ∧
        r = (unicodeBytes (0x10000 + ((hi - 0xd800) <<< 10) + (lo - 0xdc00)), offset + 10))
      (Stopped fate bytes) := by
  have hslash := drop_behind hdrop
  rw [hh.1] at hslash
  have hu := drop_behind (a := [chBackslash]) hslash
  have hlow := drop_behind (a := [chBackslash, chU]) hslash
  have hor : 0x10000 + ((hi - 0xd800) <<< 10 ||| (lo - 0xdc00)) =
      0x10000 + ((hi - 0xd800) <<< 10) + (lo - 0xdc00) := by
    rw [← Nat.shiftLeft_add_eq_or_of_lt (i := 10) (by omega), Nat.add_assoc]
  have hrange := pair_range hhi hlo
  generalize 0x10000 + ((hi - 0xd800) <<< 10) + (lo - 0xdc00) = value at hor hrange ⊢
  unfold keyUnicode
  refine (readHex4_ends hh hdrop (by omega)).bind fun v => Ends.of_fact fun hvalue => ?_
  rw [hvalue]
  refine Ends.ite (fun _ => ?_) fun hno => absurd hhi hno
  refine (byteAt_here hslash).bind fun b => Ends.of_fact fun hb => ?_
  refine refuse_bind _ (fun hne => absurd hb hne) fun _ => ?_
  refine (byteAt_here hu).bind fun b => Ends.of_fact fun hb => ?_
  refine refuse_bind _ (fun hne => absurd hb hne) fun _ => ?_
  refine (readHex4_ends hl hlow (by omega)).bind fun v => Ends.of_fact fun hvalue => ?_
  rw [hvalue]
  refine refuse_bind _ (fun hout => absurd hout (by omega)) fun _ => ?_
  rw [hor]
  exact keyEncoded_ends (.inr hrange) _

theorem keyEscapeByte_eq {c : UInt8} (h : isShortEscape c = true) :
    c ≠ chU ∧ keyEscapeByte c = shortEscapeByte c := by
  simp only [isShortEscape, Bool.or_eq_true, decide_eq_true_eq] at h
  rcases h with ((((((rfl | rfl) | rfl) | rfl) | rfl) | rfl) | rfl) | rfl <;> decide

/-- The closing quote ends the key. -/
theorem keyPiece_quote {rest : Bytes} {offset : Nat} (stop : Nat) (hdrop : bytes.drop offset = chQuote :: rest) :
    Ends (Holds bytes) (keyPiece fate offset stop) (fun r s => Holds bytes s ∧ r = none)
      (Stopped fate bytes) := by
  unfold keyPiece
  refine (byteAt_here hdrop).bind fun b => Ends.of_fact fun hb => ?_
  rw [hb, if_pos rfl]
  exact Ends.pure fun s hs => ⟨hs, rfl⟩

/-- **One round** reads what it is there to read, and decodes it. -/
theorem keyPiece_ends {raw text rest : Bytes} {offset stop : Nat} (h : Round raw text)
    (hdrop : bytes.drop offset = raw ++ rest) (hstop : offset + raw.length ≤ stop) :
    Ends (Holds bytes) (keyPiece fate offset stop)
      (fun r s => Holds bytes s ∧ r = some (text, offset + raw.length)) (Stopped fate bytes) := by
  have hslash : chBackslash ≠ chQuote := by decide
  unfold keyPiece
  cases h with
  | byte hq hb =>
    refine (byteAt_here hdrop).bind fun b => Ends.of_fact fun hc => ?_
    rw [hc, if_neg hq, if_neg hb]
    exact Ends.pure fun s hs => ⟨hs, rfl⟩
  | @short c hc =>
    obtain ⟨hu, hbyte⟩ := keyEscapeByte_eq hc
    refine (byteAt_here hdrop).bind fun b => Ends.of_fact fun hb => ?_
    rw [hb, if_neg hslash, if_pos rfl]
    refine (byteAt_here (drop_behind (a := [chBackslash]) hdrop)).bind fun b => Ends.of_fact fun hb => ?_
    rw [hb, if_neg hu, hbyte]
    exact Ends.pure fun s hs => ⟨hs, rfl⟩
  | @unicode digits value hx hv =>
    have hlen : ([chBackslash, chU] ++ digits).length = 6 := by rw [List.length_append, hx.1]; rfl
    rw [hlen] at hstop ⊢
    rw [List.append_assoc] at hdrop
    refine (byteAt_here hdrop).bind fun b => Ends.of_fact fun hb => ?_
    rw [hb, if_neg hslash, if_pos rfl]
    refine (byteAt_here (drop_behind (a := [chBackslash]) hdrop)).bind fun b => Ends.of_fact fun hb => ?_
    rw [hb, if_pos rfl]
    refine (keyUnicode_single hx hv (drop_behind hdrop) (by simpa using hstop)).bind fun r => ?_
    exact Ends.pure fun s hs => ⟨hs.1, by rw [hs.2]; rfl⟩
  | @pair high low hi lo hh hl hhi hlo =>
    have hlen : ([chBackslash, chU] ++ high ++ [chBackslash, chU] ++ low).length = 12 := by
      simp only [List.length_append, hh.1, hl.1, List.length_cons, List.length_nil]
    rw [hlen] at hstop ⊢
    simp only [List.append_assoc] at hdrop
    refine (byteAt_here hdrop).bind fun b => Ends.of_fact fun hb => ?_
    rw [hb, if_neg hslash, if_pos rfl]
    refine (byteAt_here (drop_behind (a := [chBackslash]) hdrop)).bind fun b => Ends.of_fact fun hb => ?_
    rw [hb, if_pos rfl]
    refine (keyUnicode_pair hh hl hhi hlo (drop_behind hdrop) (by simpa using hstop)).bind fun r => ?_
    exact Ends.pure fun s hs => ⟨hs.1, by rw [hs.2]; rfl⟩

/-! ## Comparing -/

/-- Behind its last byte a segment without NULs has its only one. -/
theorem keyByte_eq_zero {key : Bytes} {pos : Nat} (hkey : 0 ∉ key) :
    keyByte key pos = 0 ↔ key.drop pos = [] := by
  rw [keyByte, List.getD_eq_getElem?_getD, ← List.head?_drop]
  cases hd : key.drop pos with
  | nil => simp
  | cons b rest =>
    have hb : b ∈ key := List.mem_of_mem_drop (i := pos) (by rw [hd]; exact List.mem_cons_self)
    simp only [List.head?_cons, Option.getD_some, reduceCtorEq, iff_false]
    rintro rfl
    exact hkey hb

/-- What is left of the segment begins with what matches. -/
theorem matchKey_some : ∀ {key text : Bytes} {pos n : Nat}, 0 ∉ key → matchKey key pos text = some n →
    key.drop pos = text ++ key.drop n
  | key, [], pos, n, _, h => by
    cases h
    rfl
  | key, b :: text, pos, n, hkey, h => by
    rw [matchKey] at h
    split at h
    · cases h
    next hno =>
    rw [not_or, not_not] at hno
    rw [keyByte_eq_zero hkey] at hno
    obtain ⟨c, rest, hdrop⟩ := List.exists_cons_of_ne_nil hno.1
    have hbyte : keyByte key pos = c := by
      rw [keyByte, List.getD_eq_getElem?_getD, ← List.head?_drop, hdrop]
      rfl
    have hnext : key.drop (pos + 1) = rest := by rw [← List.drop_drop, hdrop, List.drop_one, List.tail_cons]
    rw [hdrop, hno.2, hbyte, ← hnext, matchKey_some hkey h, List.cons_append]

/-- What is left of the segment does not begin with what does not match. -/
theorem matchKey_none : ∀ {key text : Bytes} {pos : Nat}, 0 ∉ key → matchKey key pos text = none →
    ∀ more, text ++ more ≠ key.drop pos
  | key, [], pos, _, h, _ => by cases h
  | key, b :: text, pos, hkey, h, more => by
    intro hdrop
    rw [List.cons_append] at hdrop
    have hbyte : keyByte key pos = b := by
      rw [keyByte, List.getD_eq_getElem?_getD, ← List.head?_drop, ← hdrop]
      rfl
    have hnext : key.drop (pos + 1) = text ++ more := by
      rw [← List.drop_drop, ← hdrop, List.drop_one, List.tail_cons]
    have hne : key.drop pos ≠ [] := by rw [← hdrop]; exact List.cons_ne_nil _ _
    rw [matchKey, if_neg (not_or.mpr ⟨fun h0 => hne ((keyByte_eq_zero hkey).mp h0), fun hb => hb hbyte.symm⟩)] at h
    exact matchKey_none hkey h more hnext.symm

/-- **The loop** answers whether what is left of the key is what is left of the segment. -/
theorem keyLoop_ends {key : Bytes} (hkey : 0 ∉ key) {raw text : Bytes} (h : Rounds raw text) :
    ∀ {rest : Bytes} {fuel offset stop pos : Nat}, bytes.drop offset = raw ++ chQuote :: rest →
      offset + raw.length < stop → stop ≤ offset + fuel →
      Ends (Holds bytes) (keyLoop fate key stop fuel offset pos)
        (fun b s => Holds bytes s ∧ b = decide (text = key.drop pos)) (Stopped fate bytes) := by
  induction h with
  | nil =>
    intro rest fuel offset stop pos hdrop hstop hfuel
    rw [List.length_nil] at hstop
    obtain ⟨fuel, rfl⟩ : ∃ j, fuel = j + 1 := ⟨fuel - 1, by omega⟩
    rw [keyLoop, if_pos (by omega)]
    refine (keyPiece_quote stop hdrop).bind fun r => Ends.of_fact fun hr => ?_
    rw [hr]
    refine Ends.pure fun s hs => ⟨hs, ?_⟩
    rw [decide_eq_decide, keyByte_eq_zero hkey]
    exact eq_comm
  | @cons raw text raws texts hround _ ih =>
    intro rest fuel offset stop pos hdrop hstop hfuel
    rw [List.length_append] at hstop
    rw [List.append_assoc] at hdrop
    have hpos : 0 < raw.length := by cases hround <;> simp
    obtain ⟨fuel, rfl⟩ : ∃ j, fuel = j + 1 := ⟨fuel - 1, by omega⟩
    rw [keyLoop, if_pos (by omega)]
    refine (keyPiece_ends hround hdrop (by omega)).bind fun r => Ends.of_fact fun hr => ?_
    rw [hr]
    dsimp only
    cases hm : matchKey key pos text with
    | none =>
      refine Ends.pure fun s hs => ⟨hs, ?_⟩
      exact (decide_eq_false (matchKey_none hkey hm texts)).symm
    | some n =>
      refine (ih (drop_behind hdrop) (by omega) (by omega)).weaken (fun _ hs => hs) fun b s hs => ⟨hs.1, ?_⟩
      rw [hs.2, decide_eq_decide, matchKey_some hkey hm, List.append_cancel_left_eq]

/-- A key is compared with a segment, unless the outside stops it. -/
theorem keyEquals_ends {key : Bytes} (hkey : 0 ∉ key) {str : Str} (hok : str.Ok) {rest : Bytes}
    {offset stop : Nat} (hdrop : bytes.drop offset = str.quoted ++ rest)
    (hstop : offset + str.quoted.length ≤ stop) :
    Ends (Holds bytes) (keyEquals fate offset stop key)
      (fun b s => Holds bytes s ∧ b = decide (str.text = key)) (Stopped fate bytes) := by
  have hquoted : str.quoted ++ rest = chQuote :: (str.raw ++ chQuote :: rest) := by simp [Str.quoted]
  have hlen : str.quoted.length = str.raw.length + 2 := by simp [Str.quoted]
  rw [hquoted] at hdrop
  unfold keyEquals
  refine refuse_bind _ (fun hbad => absurd hbad (by omega)) fun _ => ?_
  refine (byteAt_here hdrop).bind fun b => Ends.of_fact fun hb => ?_
  refine refuse_bind _ (fun hne => absurd hb hne) fun _ => ?_
  exact keyLoop_ends hkey (rounds_of_str hok) (drop_behind (a := [chQuote]) hdrop) (by omega) (by omega)

/-- **A key equals a segment when its decoded bytes do.** Where the spool holds a key, however it is written
and whatever stands around it, the comparison succeeds and answers that. -/
theorem keyEquals_decoded {s : Spool.Spool} (hs : Holds bytes s) (hfate : Reliable fate bytes.length) {key : Bytes}
    (hkey : 0 ∉ key) {str : Str} (hok : str.Ok) {rest : Bytes} {offset stop : Nat}
    (hdrop : bytes.drop offset = str.quoted ++ rest) (hstop : offset + str.quoted.length ≤ stop) :
    ∃ t, keyEquals fate offset stop key s = .ok (decide (str.text = key)) t ∧ Holds bytes t := by
  obtain ⟨b, t, hrun, ht, rfl⟩ := (keyEquals_ends hkey hok hdrop hstop).total hs fun _ _ hstopped => hstopped.2 hfate
  exact ⟨t, hrun, ht⟩

/-- The key of a record that writes its only letter as an escape. -/
theorem keyEquals_decoded_letter :
    ∃ t, keyEquals (fun _ => none) 1 12 [0x61]
        { memory := [chLBrace, chQuote, chBackslash, chU, chZero, chZero, 0x36, 0x31, chQuote, chColon, 0x31, chRBrace],
          size := 12 } = .ok true t ∧
      Holds [chLBrace, chQuote, chBackslash, chU, chZero, chZero, 0x36, 0x31, chQuote, chColon, 0x31, chRBrace] t := by
  have hok : Str.Ok [.coded ([chBackslash, chU] ++ [chZero, chZero, 0x36, 0x31]) (unicodeBytes 0x61)] :=
    List.forall_mem_singleton.mpr (.unicode ⟨rfl, rfl⟩ (.inl (by decide)))
  exact keyEquals_decoded (Spool.holds_memory (by decide))
    ⟨fun _ => rfl, by decide⟩ (by decide) hok (show _ = _ ++ [chColon, 0x31, chRBrace] from rfl) (by decide)

end Lql.Mutation
