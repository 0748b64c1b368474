import Lql.Scan.Long

/-!
# Plain runs, a word at a time

`lql_json_plain_ascii_span` looks at a whole `unsigned long` at once. It stops at the
same byte as the plain loop of `lql_json_plain_key_span`, and the scanner of the model
is the one whose words are eight bytes.
-/

namespace Lql.Scan

theorem wordOnes_eq : wordOnes = longOnes 8 := by decide

theorem wordHigh_eq : wordHigh = longHigh 8 := by decide

theorem loadWord_eq (bs : Bytes) : loadWord bs = loadLow 8 bs := by
  induction bs with
  | nil => rfl
  | cons c bs ih => rw [loadWord, loadLow, ih]

theorem wordHasZeroByte_eq (value : BitVec 64) : wordHasZeroByte value = longHasZeroByte 8 value := by
  rw [wordHasZeroByte, longHasZeroByte, wordOnes_eq, wordHigh_eq]

theorem wordHasSpecial_eq (word : BitVec 64) : wordHasSpecial word = longHasSpecial 8 word := by
  rw [wordHasSpecial, longHasSpecial, wordHasZeroByte_eq, wordHasZeroByte_eq, wordOnes_eq,
    wordHigh_eq]

theorem plainWords_eq : ∀ fuel data, plainWords fuel data = plainLongs 8 .little fuel data
  | 0, _ => rfl
  | fuel + 1, data => by
    rw [plainWords, plainLongs, loadWord_eq, wordHasSpecial_eq, plainWords_eq fuel]
    rfl

/-- **The word loop changes nothing**: the span ends at the first byte that is not
plain. -/
theorem plainAsciiSpan_eq (data : Bytes) : plainAsciiSpan data = plainKeySpan data := by
  rw [plainAsciiSpan, plainWords_eq]
  exact plainLongs_span _ _ data.length data

/-- The scanner's span is the one of a machine with eight-byte words. -/
theorem plainAsciiSpan_eq_on (data : Bytes) :
    plainAsciiSpan data = plainAsciiSpanOn .eight .little data := by
  rw [plainAsciiSpan_eq, plainAsciiSpanOn_eq]

/-- **The span is the longest plain prefix** of the bytes it is given, on every
machine. -/
theorem plainAsciiSpanOn_longest (size : LongSize) (order : ByteOrder) (buffer : Bytes)
    (start len : Nat) :
    let data := (buffer.drop start).take len
    let isText := fun c : UInt8 => 0x20 ≤ c ∧ c ≤ 0x7f ∧ c ≠ chQuote ∧ c ≠ chBackslash
    plainAsciiSpanOn size order data ≤ data.length ∧
      (∀ c ∈ data.take (plainAsciiSpanOn size order data), isText c) ∧
      ∀ n ≤ data.length, (∀ c ∈ data.take n, isText c) → n ≤ plainAsciiSpanOn size order data := by
  intro data isText
  have htext : ∀ c, isPlain c = true ↔ isText c := fun c => by
    have hle : c < 0x80 ↔ c ≤ 0x7f := by
      rw [UInt8.lt_iff_toNat_lt, UInt8.le_iff_toNat_le]
      exact Nat.lt_succ_iff
    simp only [isPlain, isText, Bool.and_eq_true, decide_eq_true_eq, hle]
    tauto
  rw [plainAsciiSpanOn_eq]
  refine ⟨plainKeySpan_le data, fun c hc => (htext c).mp (plain_of_mem_span data c hc), ?_⟩
  intro n hn hall
  -- a longer plain prefix would hold the byte that ends the span
  by_contra hlt
  have hin : plainKeySpan data < data.length := by omega
  have hbyte : data[plainKeySpan data]? = some data[plainKeySpan data] :=
    List.getElem?_eq_getElem hin
  have hmem : data[plainKeySpan data] ∈ data.take n :=
    List.mem_take_iff_getElem.mpr ⟨plainKeySpan data, by omega, rfl⟩
  have hplain := (htext _).mpr (hall _ hmem)
  rw [not_plain_behind_span hbyte] at hplain
  cases hplain

end Lql.Scan
