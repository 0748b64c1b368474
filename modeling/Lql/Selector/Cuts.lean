import Mathlib.Data.List.DropRight
import Lql.Selector.Field
import Lql.Selector.Spell

/-!
# Where the parser cuts a text

The parser trims texts, cuts them at bars and rewrites paths. It cuts at ASCII bytes only, so that what is left of a text of
characters is a text of characters.
-/

namespace Lql.Selector

open Temporal (isSpace)
open Unicode (utf8)

/-- Characters, and no NUL among them. -/
def Clean (text : Bytes) : Prop := IsUtf8 text ∧ 0 ∉ text

theorem isUtf8_append {a b : Bytes} (ha : IsUtf8 a) (hb : IsUtf8 b) : IsUtf8 (a ++ b) := by
  obtain ⟨as, rfl⟩ := ha
  obtain ⟨bs, rfl⟩ := hb
  exact ⟨as ++ bs, (Unicode.utf8_append as bs).symm⟩

/-- A byte of ASCII stands between characters. -/
theorem IsUtf8.split {a b : Bytes} {c : UInt8} (h : IsUtf8 (a ++ c :: b)) (hc : c < 0x80) : IsUtf8 a ∧ IsUtf8 b := by
  obtain ⟨cs, h⟩ := h
  induction cs generalizing a with
  | nil => exact absurd h (List.append_ne_nil_of_right_ne_nil _ (List.cons_ne_nil _ _))
  | cons ch cs ih =>
    rw [Unicode.utf8_cons] at h
    rcases List.append_eq_append_iff.mp h with ⟨mid, hch, hrest⟩ | ⟨mid, rfl, hrest⟩
    · cases mid with
      | nil =>
        -- the character ends in front of the byte
        rw [List.append_nil] at hch
        obtain ⟨-, hb⟩ := ih (a := []) hrest
        exact ⟨⟨[ch], by rw [Unicode.utf8_cons, hch]; exact (List.append_nil a).symm⟩, hb⟩
      | cons d mid =>
        obtain ⟨rfl, rfl⟩ := List.cons.inj hrest
        have hmem : c ∈ String.utf8EncodeChar ch := by
          rw [hch]
          exact List.mem_append_right _ List.mem_cons_self
        rcases Json.utf8_head ch with ⟨e, -, hone⟩ | ⟨hhigh, -⟩
        · rw [hone] at hch
          obtain ⟨rfl, hnil⟩ : a = [] ∧ mid = [] := by
            cases a with
            | nil => exact ⟨rfl, (List.cons.inj hch).2.symm⟩
            | cons e' a =>
              have hlen := congrArg List.length hch
              simp at hlen
          exact ⟨⟨[], rfl⟩, ⟨cs, by rw [hnil]; rfl⟩⟩
        · exact absurd hc (UInt8.not_lt.mpr (Json.char_high hhigh c hmem))
    · obtain ⟨hmid, hb⟩ := ih hrest.symm
      exact ⟨isUtf8_append ⟨[ch], by rw [Unicode.utf8_cons]; exact (List.append_nil _).symm⟩ hmid, hb⟩

theorem IsUtf8.drop_ascii : ∀ {w text : Bytes}, (∀ c ∈ w, c < 0x80) → IsUtf8 (w ++ text) → IsUtf8 text
  | [], _, _, h => h
  | c :: _, _, hw, h => IsUtf8.drop_ascii (fun d hd => hw d (List.mem_cons_of_mem _ hd))
      (IsUtf8.split (a := []) h (hw c List.mem_cons_self)).2

theorem IsUtf8.take_ascii {w text : Bytes} (hw : ∀ c ∈ w, c < 0x80) (h : IsUtf8 (text ++ w)) : IsUtf8 text := by
  cases w with
  | nil => rwa [List.append_nil] at h
  | cons c w => exact (h.split (hw c List.mem_cons_self)).1

theorem clean_append {a b : Bytes} (ha : Clean a) (hb : Clean b) : Clean (a ++ b) :=
  ⟨isUtf8_append ha.1 hb.1, fun h => (List.mem_append.mp h).elim ha.2 hb.2⟩

theorem clean_of_ascii {text : Bytes} (h : ∀ c ∈ text, c < 0x80 ∧ c ≠ 0) : Clean text :=
  ⟨isUtf8_ascii fun c hc => (h c hc).1, fun h0 => (h 0 h0).2 rfl⟩

/-- All bytes are ASCII, and none is NUL. -/
def allAscii (text : Bytes) : Bool := text.all fun c => c < 0x80 && c ≠ 0

theorem allAscii_mem {text : Bytes} (h : allAscii text = true) : ∀ c ∈ text, c < 0x80 ∧ c ≠ 0 := by
  intro c hc
  have hall := List.all_eq_true.mp h c hc
  simpa using hall

/-- A word of the source. -/
theorem clean_ascii {text : Bytes} (h : allAscii text = true) : Clean text := clean_of_ascii (allAscii_mem h)

/-! ## Trimming -/

theorem isSpace_ascii {c : UInt8} (h : isSpace c = true) : c < 0x80 := by
  simp only [isSpace, Bool.or_eq_true, Bool.and_eq_true, decide_eq_true_eq, UInt8.le_iff_toNat_le, UInt8.reduceToNat,
    UInt8.lt_iff_toNat_lt, ← UInt8.toNat_inj] at h ⊢
  omega

/-- What is trimmed are spaces. -/
theorem trim_parts (text : Bytes) : ∃ w w', text = w ++ (trim text ++ w') ∧ (∀ c ∈ w, isSpace c = true) ∧
    ∀ c ∈ w', isSpace c = true := by
  refine ⟨text.takeWhile isSpace, ((text.dropWhile isSpace).reverse.takeWhile isSpace).reverse, ?_,
    fun c hc => List.mem_takeWhile_imp hc, fun c hc => List.mem_takeWhile_imp (List.mem_reverse.mp hc)⟩
  have hback : trim text ++ ((text.dropWhile isSpace).reverse.takeWhile isSpace).reverse = text.dropWhile isSpace := by
    rw [trim, ← List.reverse_append, List.takeWhile_append_dropWhile, List.reverse_reverse]
  rw [hback, List.takeWhile_append_dropWhile]

theorem trim_mem {text : Bytes} {c : UInt8} (h : c ∈ trim text) : c ∈ text := by
  obtain ⟨w, w', ht, -, -⟩ := trim_parts text
  rw [ht]
  exact List.mem_append_right _ (List.mem_append_left _ h)

theorem trim_isUtf8 {text : Bytes} (h : IsUtf8 text) : IsUtf8 (trim text) := by
  obtain ⟨w, w', ht, hw, hw'⟩ := trim_parts text
  rw [ht] at h
  exact (h.drop_ascii fun c hc => isSpace_ascii (hw c hc)).take_ascii fun c hc => isSpace_ascii (hw' c hc)

theorem trim_clean {text : Bytes} (h : Clean text) : Clean (trim text) :=
  ⟨trim_isUtf8 h.1, fun h0 => h.2 (trim_mem h0)⟩

/-- **What has been trimmed is trimmed to itself.** -/
theorem trim_trim (text : Bytes) : trim (trim text) = trim text := by
  have hfront : (trim text).dropWhile isSpace = trim text := by
    obtain ⟨tail, htail⟩ : ∃ tail, text.dropWhile isSpace = trim text ++ tail := by
      refine ⟨((text.dropWhile isSpace).reverse.takeWhile isSpace).reverse, ?_⟩
      rw [trim, ← List.reverse_append, List.takeWhile_append_dropWhile, List.reverse_reverse]
    cases ht : trim text with
    | nil => rfl
    | cons c rest =>
      rw [ht] at htail
      have hc : isSpace c = false := by
        have hhead := List.head?_dropWhile_not isSpace text
        rw [htail] at hhead
        simpa using hhead
      rw [List.dropWhile_cons_of_neg (by rw [hc]; exact Bool.false_ne_true)]
  conv_lhs => rw [trim, hfront]
  rw [trim, List.reverse_reverse, List.dropWhile_idempotent]

/-! ## Bars -/

theorem splitBars_isUtf8 : ∀ {text : Bytes} (front : Bytes), IsUtf8 (front ++ text) →
    ∃ item items, splitBars text = item :: items ∧ IsUtf8 (front ++ item) ∧ ∀ other ∈ items, IsUtf8 other
  | [], front, h => ⟨[], [], rfl, h, List.forall_mem_nil _⟩
  | c :: text, front, h => by
    rw [splitBars]
    split
    · next hc =>
      obtain ⟨hfront, htext⟩ := h.split (by rw [hc]; decide)
      obtain ⟨item, items, heq, hitem, hitems⟩ := splitBars_isUtf8 [] htext
      rw [heq]
      exact ⟨[], item :: items, rfl, by rwa [List.append_nil], List.forall_mem_cons.mpr ⟨hitem, hitems⟩⟩
    · have hsnoc : IsUtf8 ((front ++ [c]) ++ text) := by rwa [List.append_assoc]
      obtain ⟨item, items, heq, hitem, hitems⟩ := splitBars_isUtf8 (front ++ [c]) hsnoc
      rw [heq]
      exact ⟨c :: item, items, rfl, by rwa [List.append_assoc] at hitem, hitems⟩

theorem splitBars_pieces {text : Bytes} (h : IsUtf8 text) : ∀ item ∈ splitBars text, IsUtf8 item := by
  obtain ⟨item, items, heq, hitem, hitems⟩ := splitBars_isUtf8 [] h
  rw [heq]
  exact List.forall_mem_cons.mpr ⟨hitem, hitems⟩

/-! ## Paths -/

theorem Clean.split {a b : Bytes} {c : UInt8} (h : Clean (a ++ c :: b)) (hc : c < 0x80) : Clean a ∧ Clean b := by
  obtain ⟨ha, hb⟩ := h.1.split hc
  exact ⟨⟨ha, fun h0 => h.2 (List.mem_append_left _ h0)⟩,
    ⟨hb, fun h0 => h.2 (List.mem_append_right _ (List.mem_cons_of_mem _ h0))⟩⟩

theorem mem_pairs {k : Nat} {c : UInt8} (h : c ∈ pairs k) : c < 0x80 ∧ c ≠ 0 := by
  unfold pairs at h
  obtain ⟨pair, hpair, hc⟩ := List.mem_flatten.mp h
  rw [List.eq_of_mem_replicate hpair] at hc
  exact allAscii_mem (rfl : allAscii brackets = true) c hc

theorem normalizeSegment_clean {segment : Bytes} (h : Clean segment) : Clean (normalizeSegment segment) := by
  unfold normalizeSegment
  split
  · exact h
  next hwhole =>
  dsimp only
  have hne : segment ≠ [] := by
    intro hnil
    exact hwhole (by simp [hnil])
  obtain ⟨hparts, -, -⟩ := stripBrackets_bracketed segment.length segment hne (Nat.le_refl _)
  have hbase : Clean (stripBrackets segment.length segment).1 := by
    rw [hparts] at h
    exact ⟨h.1.take_ascii fun c hc => (mem_pairs hc).1, fun h0 => h.2 (List.mem_append_left _ h0)⟩
  refine clean_append hbase (clean_of_ascii fun c hc => ?_)
  obtain ⟨pair, hpair, hc⟩ := List.mem_flatten.mp hc
  rw [List.eq_of_mem_replicate hpair] at hc
  exact allAscii_mem (rfl : allAscii (ascii "/[]") = true) c hc

theorem normalizeSegments_clean : ∀ {fuel : Nat} {out rest : Bytes}, Clean out → Clean rest →
    Clean (normalizeSegments fuel out rest)
  | 0, _, _, hout, _ => hout
  | fuel + 1, out, rest, hout, hrest => by
    rw [normalizeSegments]
    split
    · exact hout
    have hslash : Clean [chSlash] := clean_ascii rfl
    have hfront : Clean (if 1 < out.length then out ++ [chSlash] else out) := by
      split
      · exact clean_append hout hslash
      · exact hout
    cases hcut : cutSlash rest with
    | mk segment tail =>
      cases tail with
      | none =>
        obtain ⟨-, rfl⟩ := cutSlash_none hcut
        exact clean_append hfront (normalizeSegment_clean hrest)
      | some tail =>
        obtain ⟨-, rfl⟩ := cutSlash_some hcut
        obtain ⟨hsegment, htail⟩ := hrest.split (by decide)
        exact normalizeSegments_clean (clean_append hfront (normalizeSegment_clean hsegment)) htail

/-- A path is kept as characters. -/
theorem normalizeFieldPath_clean {text field : Bytes} (h : Clean text) (hf : normalizeFieldPath text = some field) :
    Clean field := by
  cases text with
  | nil => cases hf
  | cons c rest =>
    rw [normalizeFieldPath] at hf
    split at hf
    · next hc =>
      cases hf
      exact normalizeSegments_clean (clean_ascii rfl) (Clean.split (a := []) h (by rw [hc]; decide)).2
    · cases hf

/-! ## Paths that are kept -/

/-- The path is one that the parsers make. -/
def Normal (field : Bytes) : Prop := ∃ text, normalizeFieldPath text = some field

/-- The path does not end in an empty segment, unless it has no other. -/
def EndsFull (field : Bytes) : Prop := field = [chSlash] ∨ field.getLast? ≠ some chSlash

theorem Normal.written {field : Bytes} (h : Normal field) : ∃ rest, field = pathOf (written rest) := by
  obtain ⟨text, h⟩ := h
  cases text with
  | nil => cases h
  | cons c rest =>
    have hc : c = chSlash := by
      by_contra hc
      rw [normalizeFieldPath, if_neg hc] at h
      cases h
    rw [hc, normalize_written] at h
    exact ⟨rest, (Option.some.inj h).symm⟩

theorem written_ne_nil (rest : Bytes) : written rest ≠ [] := by
  rw [Lql.Selector.written]
  split
  · exact List.cons_ne_nil _ _
  · next h => exact flatMap_expand_ne_nil (trimmed_ne_nil h)

theorem Normal.slash {field : Bytes} (h : Normal field) : ∃ rest, field = chSlash :: rest := by
  obtain ⟨rest, rfl⟩ := h.written
  obtain ⟨part, parts, hparts⟩ := List.exists_cons_of_ne_nil (written_ne_nil rest)
  rw [hparts, pathOf_intercalate]
  exact ⟨_, rfl⟩

theorem written_parts (rest : Bytes) : ∀ part ∈ written rest, expand part = [part] := by
  intro part hpart
  rw [Lql.Selector.written] at hpart
  split at hpart
  · rw [List.mem_singleton.mp hpart, expand_nil]
  · obtain ⟨segment, -, hpart⟩ := List.mem_flatMap.mp hpart
    exact expand_part part hpart

/-- Only a path of no segments begins with an empty one. -/
theorem written_head {rest : Bytes} {parts : List Bytes} (h : written rest = [] :: parts) : parts = [] := by
  rw [Lql.Selector.written] at h
  split at h
  · cases h
    rfl
  next hne =>
  -- the slashes at the front are gone, so that the first segment is not empty
  obtain ⟨c, tail, htail⟩ := List.exists_cons_of_ne_nil hne
  have hc : c ≠ chSlash := by
    have hhead := List.head_dropWhile_not (· = chSlash) (l := rest) hne
    simp only [htail, List.head_cons, decide_eq_false_iff_not] at hhead
    exact hhead
  obtain ⟨first, segments, hsplit⟩ := List.exists_cons_of_ne_nil (List.splitOn_ne_nil chSlash tail)
  rw [htail, List.splitOn_cons_eq_if_modifyHead, if_neg (by simpa using hc), hsplit, List.modifyHead_cons] at h
  have hfront : ∃ more, trimmed ((c :: first) :: segments) = (c :: first) :: more := by
    cases segments with
    | nil => exact ⟨[], rfl⟩
    | cons second segments => exact ⟨_, trimmed_cons _ (List.cons_ne_nil _ _)⟩
  obtain ⟨more, hmore⟩ := hfront
  obtain ⟨part, others, hothers⟩ := List.exists_cons_of_ne_nil (expand_ne_nil (c :: first))
  have hpart := expand_parts (List.cons_ne_nil c first) part (by rw [hothers]; exact List.mem_cons_self)
  rw [hmore, List.flatMap_cons, hothers] at h
  exact absurd (List.cons.inj h).1 hpart

/-- **A path that the parsers have made is kept** where it ends in a segment that is not empty. -/
theorem Normal.settled {field : Bytes} (h : Normal field) (hends : EndsFull field) :
    normalizeFieldPath field = some field := by
  obtain ⟨rest, hfield⟩ := h.written
  obtain ⟨part, parts, hparts⟩ := List.exists_cons_of_ne_nil (written_ne_nil rest)
  obtain ⟨inner, hinner⟩ : ∃ inner, inner = [chSlash].intercalate (part :: parts) := ⟨_, rfl⟩
  have hsegments := segmentsOf_written rest
  rw [hparts, pathOf_intercalate, ← hinner] at hfield
  rw [hparts, pathOf_intercalate, ← hinner] at hsegments
  change inner.splitOn chSlash = part :: parts at hsegments
  subst hfield
  by_cases hnil : inner = []
  · rw [hnil]
    rfl
  have hexpansion : expansion inner = part :: parts := by
    rw [expansion, hsegments, ← hparts, List.flatMap_congr (written_parts rest), List.flatMap_singleton']
  have hframed : inner.head? ≠ some chSlash ∧ inner.getLast? ≠ some chSlash := by
    constructor
    · intro hslash
      obtain ⟨tail, rfl⟩ := List.head?_eq_some_iff.mp hslash
      rw [List.splitOn_cons_eq_if_modifyHead, if_pos (beq_self_eq_true _)] at hsegments
      obtain ⟨rfl, htail⟩ := List.cons.inj hsegments
      exact List.splitOn_ne_nil chSlash tail (htail.trans (written_head hparts))
    · rcases hends with heq | hlast
      · exact absurd (List.cons.inj heq).2 hnil
      · rwa [List.getLast?_cons_of_ne_nil hnil] at hlast
  rw [normalize_written, (written_eq_iff inner).mpr hframed, hexpansion, pathOf_intercalate, ← hinner]

end Lql.Selector
