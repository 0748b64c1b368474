import Lql.Lib.Ranges
import Lql.Utf8

/-!
# Lowercasing into an output area

The library lowercases a needle into an area of twice its length and one byte. A character grows by at most its own
length, so the area is large enough, whatever the needle is.
-/

namespace Lql.Unicode

/-! ## The mapping of one code point -/

/-- The code point that a range sends a code point to. -/
def shifted (e : Nat × Nat × Int) (value : Nat) : Nat :=
  if e.2.2 = upperLower then e.1 + ((value - e.1) ||| 1) else (value + e.2.2).toNat

/-- The simple lowercase of a code point: the range that covers it says, and without one it stands for itself. -/
def mapped (value : Nat) : Nat :=
  match lowerRanges.find? (fun e => Lib.Covers value e) with
  | some e => shifted e value
  | none => value

theorem lowerRanges_ascending : Lib.Ascending lowerRanges where
  inhabited := by decide +kernel
  ordered := by
    have hchain : lowerRanges.IsChain (fun a b => a.2.1 < b.1 ∧ b.1 ≤ b.2.1) := by decide +kernel
    have htrans : lowerRanges.Pairwise (fun a b => a.2.1 < b.1 ∧ b.1 ≤ b.2.1) := by
      have : IsTrans (Nat × Nat × Int) (fun a b => a.2.1 < b.1 ∧ b.1 ≤ b.2.1) :=
        ⟨fun a b c hab hbc => ⟨by omega, hbc.2⟩⟩
      exact List.isChain_iff_pairwise.mp hchain
    exact htrans.imp And.left

theorem simpleLowerSearch_eq (value : Nat) : ∀ fuel first last : Nat,
    simpleLowerSearch value fuel first last =
      match Lib.bisect lowerRanges value fuel first last with
      | some e => shifted e value
      | none => value
  | 0, _, _ => rfl
  | fuel + 1, first, last => by
    rw [simpleLowerSearch, Lib.bisect]
    split
    · dsimp only
      cases hm : lowerRanges[first + (last - first) / 2]? with
      | none => rfl
      | some e =>
        dsimp only
        split
        · exact simpleLowerSearch_eq value fuel _ _
        split
        · exact simpleLowerSearch_eq value fuel _ _
        · rfl
    · rfl

/-- The search finds what the table says. -/
theorem simpleLower_mapped (value : Nat) : simpleLower value = mapped value := by
  rw [simpleLower]
  split
  · next hupper =>
    rw [mapped, lowerRanges, List.find?_cons_of_pos (by rw [decide_eq_true_eq]; exact hupper)]
    rfl
  · rw [simpleLowerSearch_eq, Lib.bisect_eq_find lowerRanges_ascending, mapped]

theorem lowerChar_mapped (c : Char) : (lowerChar c).toNat = mapped c.toNat := by
  rw [lowerChar_toNat, simpleLower_mapped]

/-! ## The length of a character -/

/-- The bytes of a code point. -/
def size (value : Nat) : Nat :=
  if value < 0x80 then 1 else if value < 0x800 then 2 else if value < 0x10000 then 3 else 4

theorem length_utf8EncodeChar (c : Char) : (String.utf8EncodeChar c).length = size c.toNat := by
  have hvalid : c.toNat < 0xd800 ∨ 0xdfff < c.toNat ∧ c.toNat < 0x110000 := c.valid
  rw [← utf8Encode_char, utf8Encode, size, if_neg (by omega)]
  split
  · rfl
  split
  · rfl
  split <;> rfl

theorem simpleLower_ascii : ∀ v < 0x80, simpleLower v < 0x800 := by decide +kernel

theorem size_lower (value : Nat) : size (simpleLower value) ≤ 2 * size value := by
  rw [size, size]
  by_cases h : value < 0x80
  · have hlow := simpleLower_ascii value h
    rw [if_pos h, if_pos hlow]
    split <;> decide
  · rw [if_neg h]
    repeat' split
    all_goals decide

/-- Lowercasing makes a text at most twice as long. -/
theorem length_utf8_lower (cs : List Char) : (utf8 (cs.map lowerChar)).length ≤ 2 * (utf8 cs).length := by
  induction cs with
  | nil => exact Nat.le_refl 0
  | cons c cs ih =>
    have hc := size_lower c.toNat
    rw [List.map_cons, utf8_cons, utf8_cons, List.length_append, List.length_append, length_utf8EncodeChar,
      length_utf8EncodeChar, lowerChar_toNat]
    omega

/-! ## Writing into the area -/

/-- `lql_unicode_utf8_append`: what the output area of `capacity` bytes holds with the code point behind it. -/
def utf8Append (value capacity : Nat) (output : Bytes) : Option Bytes :=
  if value > 0x10ffff ∨ (0xd800 ≤ value ∧ value ≤ 0xdfff) then none
  else if size value > capacity - output.length then none
  else some (output ++ utf8Encode value)

/-- The loop of `lql_unicode_utf8_lower`. -/
def utf8LowerIntoLoop (capacity : Nat) : Nat → Bytes → Bytes → Option Bytes
  | _, [], output => some output
  | 0, _ :: _, _ => none
  | fuel + 1, a :: input, output => do
    let (value, rest) ← utf8Decode (a :: input)
    let output ← utf8Append (simpleLower value) capacity output
    utf8LowerIntoLoop capacity fuel rest output

/-- `lql_unicode_utf8_lower` into an output area of `capacity` bytes. -/
def utf8LowerInto (capacity : Nat) (input : Bytes) : Option Bytes :=
  utf8LowerIntoLoop capacity input.length input []

/-- `lql_flat_eq_lower_value`, the area granted. -/
def lowerValue (value : Bytes) : Option Bytes :=
  if value.length > (2 ^ 64 - 1 - 1) / 2 then none
  else utf8LowerInto (value.length * 2 + 1) value

theorem utf8Append_char {c : Char} {capacity : Nat} {output : Bytes}
    (h : output.length + (String.utf8EncodeChar c).length ≤ capacity) :
    utf8Append c.toNat capacity output = some (output ++ String.utf8EncodeChar c) := by
  have hvalid : c.toNat < 0xd800 ∨ 0xdfff < c.toNat ∧ c.toNat < 0x110000 := c.valid
  rw [length_utf8EncodeChar] at h
  rw [utf8Append, if_neg (by omega), if_neg (by omega), utf8Encode_char]

theorem utf8LowerIntoLoop_chars {capacity : Nat} : ∀ (cs : List Char) {fuel : Nat} {output : Bytes},
    cs.length ≤ fuel → output.length + (utf8 (cs.map lowerChar)).length ≤ capacity →
      utf8LowerIntoLoop capacity fuel (utf8 cs) output = some (output ++ utf8 (cs.map lowerChar))
  | [], fuel, output, _, _ => by
    rw [show utf8 [] = [] from rfl, utf8LowerIntoLoop]
    exact congrArg some (List.append_nil output).symm
  | c :: cs, 0, _, h, _ => absurd h (Nat.not_succ_le_zero _)
  | c :: cs, fuel + 1, output, h, hroom => by
    rw [List.map_cons, utf8_cons, List.length_append] at hroom
    have hdecode := utf8Decode_char c (utf8 cs)
    obtain ⟨a, as, ha⟩ := List.exists_cons_of_ne_nil (utf8EncodeChar_ne c)
    rw [utf8_cons, List.map_cons, utf8_cons, ← List.append_assoc]
    rw [ha, List.cons_append] at hdecode ⊢
    rw [utf8LowerIntoLoop, hdecode]
    change ((utf8Append (simpleLower c.toNat) capacity output).bind fun output =>
      utf8LowerIntoLoop capacity fuel (utf8 cs) output) = _
    rw [← lowerChar_toNat, utf8Append_char (by omega), Option.bind_some]
    refine utf8LowerIntoLoop_chars cs (Nat.le_of_succ_le_succ h) ?_
    rw [List.length_append]
    omega

/-- What the loop accepts is a text. -/
theorem utf8LowerIntoLoop_some {capacity : Nat} : ∀ {fuel : Nat} {input output low : Bytes},
    utf8LowerIntoLoop capacity fuel input output = some low → ∃ cs, input = utf8 cs
  | _, [], _, _, _ => ⟨[], rfl⟩
  | 0, _ :: _, _, _, h => nomatch h
  | fuel + 1, a :: input, output, low, h => by
    rw [utf8LowerIntoLoop] at h
    obtain ⟨⟨value, rest⟩, hdecode, h⟩ := Option.bind_eq_some_iff.mp h
    obtain ⟨output', -, h⟩ := Option.bind_eq_some_iff.mp h
    obtain ⟨c, -, hin⟩ := utf8Decode_some hdecode
    obtain ⟨cs, hcs⟩ := utf8LowerIntoLoop_some h
    exact ⟨c :: cs, by rw [hin, hcs, utf8_cons]⟩

theorem utf8LowerInto_chars (cs : List Char) :
    utf8LowerInto (2 * (utf8 cs).length + 1) (utf8 cs) = some (utf8 (cs.map lowerChar)) := by
  have hlen := length_utf8_lower cs
  rw [utf8LowerInto, utf8LowerIntoLoop_chars cs (length_le_utf8 cs) (by rw [List.length_nil]; omega), List.nil_append]

/-- The area never decides: the library lowercases into it what it would into a larger one. -/
theorem utf8LowerInto_eq (input : Bytes) : utf8LowerInto (2 * input.length + 1) input = utf8Lower input := by
  cases hlow : utf8Lower input with
  | some low =>
    obtain ⟨cs, rfl, rfl⟩ := utf8Lower_some hlow
    exact utf8LowerInto_chars cs
  | none =>
    cases hinto : utf8LowerInto (2 * input.length + 1) input with
    | none => rfl
    | some low =>
      obtain ⟨cs, rfl⟩ := utf8LowerIntoLoop_some hinto
      rw [utf8Lower_chars] at hlow
      cases hlow

/-- A needle of a C string's length is lowercased as the plan's terms have it. -/
theorem lowerValue_eq {value : Bytes} (h : value.length < 2 ^ 63) : lowerValue value = utf8Lower value := by
  rw [lowerValue, if_neg (by omega), Nat.mul_comm, utf8LowerInto_eq]

/-- The decoder reads a code point exactly where the encoder wrote it. -/
theorem utf8Decode_iff (input rest : Bytes) (value : Nat) :
    utf8Decode input = some (value, rest) ↔ ∃ c : Char, c.toNat = value ∧ input = utf8Encode value ++ rest := by
  constructor
  · intro h
    obtain ⟨c, rfl, hin⟩ := utf8Decode_some h
    exact ⟨c, rfl, by rw [utf8Encode_char, hin]⟩
  · rintro ⟨c, rfl, rfl⟩
    rw [utf8Encode_char, utf8Decode_char]

theorem utf8DecodeOne_encode (c : Char) : utf8DecodeOne (utf8Encode c.toNat) = some c.toNat := by
  have h := utf8Decode_char c []
  rw [List.append_nil] at h
  rw [utf8DecodeOne, utf8Encode_char, h]

/-- **Lowercasing fits and distributes.** A text is lowercased within twice its bytes and one more, character by
character as the table says, the parts of a text apart; and the decoder reads a code point where, and only where,
the encoder wrote it. -/
theorem lower_fits :
    (∀ cs : List Char, utf8LowerInto (2 * (utf8 cs).length + 1) (utf8 cs) = some (utf8 (cs.map lowerChar))) ∧
    (∀ c : Char, (lowerChar c).toNat = mapped c.toNat ∧ simpleLower c.toNat = mapped c.toNat) ∧
    (∀ cs ds : List Char, utf8LowerInto (2 * (utf8 cs ++ utf8 ds).length + 1) (utf8 cs ++ utf8 ds) =
      (utf8LowerInto (2 * (utf8 cs).length + 1) (utf8 cs)).bind fun a =>
        (utf8LowerInto (2 * (utf8 ds).length + 1) (utf8 ds)).map (a ++ ·)) ∧
    (∀ c : Char, utf8DecodeOne (utf8Encode c.toNat) = some c.toNat) ∧
    (∀ (input rest : Bytes) (value : Nat), utf8Decode input = some (value, rest) ↔
      ∃ c : Char, c.toNat = value ∧ input = utf8Encode value ++ rest) := by
  refine ⟨utf8LowerInto_chars, fun c => ⟨lowerChar_mapped c, simpleLower_mapped c.toNat⟩, fun cs ds => ?_,
    utf8DecodeOne_encode, utf8Decode_iff⟩
  rw [← utf8_append, utf8LowerInto_chars, utf8LowerInto_chars, utf8LowerInto_chars, Option.bind_some, Option.map_some,
    List.map_append, utf8_append]

end Lql.Unicode
