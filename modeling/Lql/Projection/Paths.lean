import Mathlib.Data.Set.Basic
import Mathlib.Data.List.Nodup
import Lql.Temporal.Fast
import Lql.Selector.Field

/-!
# Projection paths

`lql_projection.c` reads the paths of a projection: it passes over a path that it has, and refuses one above or below
another. It compares the paths as they are written, the emitter what they decode to; and a tilde has two writings.
-/

namespace Lql.Projection

open Selector (parseError cutSlash cutSlash_none cutSlash_some segmentsOf pathOf pathOf_append pathOf_cons
  pathOf_intercalate)
open Temporal (cstr)

/-! ## Reading the paths -/

/-- `projection_is_space` -/
def projectionIsSpace (ch : UInt8) : Bool := ch = chSpace || ch = chTab || ch = chCR || ch = chLF

/-- `projection_valid_pointer` -/
def projectionValidPointer (path : Bytes) : Bool := path.head? = some chSlash && 1 < path.length

/-- The loop of `projection_decode_path` over the bytes of a segment. -/
def decodeSegment : Bytes → Bytes
  | [] => []
  | [c] => [c]
  | c :: d :: rest =>
    if c = chTilde && (d = chZero || d = chOne) then
      (if d = chZero then chTilde else chSlash) :: decodeSegment rest
    else c :: decodeSegment (d :: rest)

/-- The loop of `projection_decode_path` over the segments. -/
def decodeParts : Nat → Bytes → List Bytes
  | 0, _ => []
  | fuel + 1, part =>
    let (segment, tail) := cutSlash part
    decodeSegment segment ::
      match tail with
      | none => []
      | some rest => decodeParts fuel rest

/-- `projection_decode_path` -/
def projectionDecodePath (path : Bytes) : List Bytes := decodeParts path.length path.tail

/-- `projection_leading_index` -/
def projectionLeadingIndex (segments : List Bytes) : Bool :=
  match segments with
  | [] => false
  | segment :: _ => segment ≠ [] && segment.all isDigit

/-- `projection_conflicts` -/
def projectionConflicts (left right : Bytes) : Bool :=
  if left = right then false
  else
    (left.length < right.length && right[left.length]? = some chSlash && right.take left.length = left) ||
      (right.length < left.length && left[right.length]? = some chSlash && left.take right.length = right)

/-- `lql_projection` -/
structure Projection where
  paths : List Bytes := []
  compiledPaths : List (List Bytes) := []
  deriving DecidableEq, Repr

/-- The loop over the paths that are there: whether the path is one of them. -/
def alreadyThere (copy : Bytes) : List Bytes → Except Err Bool
  | [] => .ok false
  | path :: paths =>
    if copy = path then .ok true
    else if projectionConflicts copy path then parseError "projection paths have a parent-child conflict"
    else alreadyThere copy paths

/-- What is done with a path that is not blank. -/
def addPath (p : Projection) (copy : Bytes) : Except Err Projection :=
  if !projectionValidPointer copy then parseError "projection path is invalid"
  else
    match alreadyThere copy p.paths with
    | .error e => .error e
    | .ok true => .ok p
    | .ok false =>
      if projectionLeadingIndex (projectionDecodePath copy) then parseError "projection path is invalid"
      else .ok ⟨p.paths ++ [copy], p.compiledPaths ++ [projectionDecodePath copy]⟩

/-- A path without the blanks around it; nothing of a null pointer. -/
def pathText : Option Bytes → Bytes
  | none => []
  | some path => (((cstr path).dropWhile projectionIsSpace).reverse.dropWhile projectionIsSpace).reverse

/-- The loop over the paths. -/
def addPaths (p : Projection) : List (Option Bytes) → Except Err Projection
  | [] => .ok p
  | path :: paths =>
    if pathText path = [] then addPaths p paths
    else
      match addPath p (pathText path) with
      | .error e => .error e
      | .ok p => addPaths p paths

/-- `lql_projection_parse_internal`, the memory granted. -/
def projectionParseInternal (paths : List (Option Bytes)) : Except Err Projection :=
  if paths = [] then parseError "projection paths required"
  else
    match addPaths {} paths with
    | .error e => .error e
    | .ok p => if p.paths = [] then parseError "projection paths required" else .ok p

/-! ## Segments as they are written -/

/-- The path decodes segment by segment. -/
theorem decodePath_eq {path : Bytes} (h : path ≠ []) :
    projectionDecodePath path = (segmentsOf path).map decodeSegment := by
  have hparts : ∀ (fuel : Nat) (part : Bytes), part.length < fuel →
      decodeParts fuel part = (part.splitOn chSlash).map decodeSegment := by
    intro fuel
    induction fuel with
    | zero => exact fun _ h => absurd h (Nat.not_lt_zero _)
    | succ fuel ih =>
      intro part hlen
      rw [decodeParts]
      cases hcut : cutSlash part with
      | mk segment tail =>
        cases tail with
        | none =>
          obtain ⟨hslash, rfl⟩ := cutSlash_none hcut
          rw [List.splitOn_eq_singleton hslash]
          rfl
        | some rest =>
          obtain ⟨hslash, rfl⟩ := cutSlash_some hcut
          rw [List.length_append, List.length_cons] at hlen
          rw [List.splitOn_append_cons_self_of_not_mem hslash, List.map_cons, ← ih rest (by omega)]
  obtain ⟨c, rest, rfl⟩ := List.exists_cons_of_ne_nil h
  exact hparts _ rest (Nat.lt_succ_self _)

theorem pointer_iff {path : Bytes} : projectionValidPointer path = true ↔
    ∃ c rest, path = chSlash :: c :: rest := by
  rw [projectionValidPointer, Bool.and_eq_true, decide_eq_true_eq, decide_eq_true_eq]
  constructor
  · rintro ⟨hhead, hlen⟩
    obtain ⟨tail, rfl⟩ := List.head?_eq_some_iff.mp hhead
    cases tail with
    | nil => exact absurd hlen (Nat.lt_irrefl 1)
    | cons c rest => exact ⟨c, rest, rfl⟩
  · rintro ⟨c, rest, rfl⟩
    exact ⟨rfl, Nat.succ_lt_succ (Nat.succ_pos _)⟩

/-- A path is that of its segments. -/
theorem pathOf_segmentsOf {path : Bytes} (h : path.head? = some chSlash) : pathOf (segmentsOf path) = path := by
  obtain ⟨rest, rfl⟩ := List.head?_eq_some_iff.mp h
  obtain ⟨segment, segments, hsplit⟩ := List.exists_cons_of_ne_nil (List.splitOn_ne_nil chSlash rest)
  rw [segmentsOf, hsplit, pathOf_intercalate, ← hsplit, List.intercalate_splitOn]

/-- A path is written above another where its segments begin the other's. -/
theorem above_iff {p q : Bytes} (hp : p.head? = some chSlash) (hq : q.head? = some chSlash) (hne : p ≠ q) :
    (p.length < q.length ∧ q[p.length]? = some chSlash) ∧ q.take p.length = p ↔ segmentsOf p <+: segmentsOf q := by
  constructor
  · rintro ⟨⟨hlen, hslash⟩, htake⟩
    obtain ⟨rest, rfl⟩ := List.head?_eq_some_iff.mp hp
    obtain ⟨hlt, hchar⟩ := List.getElem?_eq_some_iff.mp hslash
    have hsplit : q = chSlash :: (rest ++ chSlash :: q.drop ((chSlash :: rest).length + 1)) := by
      conv_lhs => rw [← List.take_append_drop (chSlash :: rest).length q, htake, List.drop_eq_getElem_cons hlt, hchar]
      rfl
    rw [hsplit, segmentsOf, segmentsOf, List.splitOn_append_cons_self]
    exact List.prefix_append _ _
  · rintro ⟨segments, hsegments⟩
    have hq' := pathOf_segmentsOf hq
    rw [← hsegments, pathOf_append, pathOf_segmentsOf hp] at hq'
    cases segments with
    | nil =>
      rw [show pathOf [] = [] from rfl, List.append_nil] at hq'
      exact absurd hq' hne
    | cons segment segments =>
      rw [pathOf_cons] at hq'
      rw [← hq']
      refine ⟨⟨?_, ?_⟩, List.take_left⟩
      · rw [List.length_append, List.length_cons]
        omega
      · rw [List.getElem?_append_right (Nat.le_refl _), Nat.sub_self]
        rfl

theorem conflicts_iff {p q : Bytes} (hp : p.head? = some chSlash) (hq : q.head? = some chSlash) :
    projectionConflicts p q = true ↔ p ≠ q ∧ (segmentsOf p <+: segmentsOf q ∨ segmentsOf q <+: segmentsOf p) := by
  rw [projectionConflicts]
  by_cases hne : p = q
  · rw [if_pos hne]
    exact ⟨nofun, fun h => absurd hne h.1⟩
  · rw [if_neg hne]
    simp only [Bool.or_eq_true, Bool.and_eq_true, decide_eq_true_eq]
    rw [above_iff hp hq hne, above_iff hq hp (Ne.symm hne)]
    exact ⟨fun h => ⟨hne, h⟩, fun h => h.2⟩

/-! ## What the loop keeps -/

/-- The paths that are not blank. -/
def texts (paths : List (Option Bytes)) : List Bytes := (paths.map pathText).filter (· ≠ [])

/-- Nothing is wrong with the paths as they are written. -/
structure Sound (ts : List Bytes) : Prop where
  pointer : ∀ t ∈ ts, projectionValidPointer t = true
  leading : ∀ t ∈ ts, projectionLeadingIndex (projectionDecodePath t) = false
  apart : ∀ s ∈ ts, ∀ t ∈ ts, projectionConflicts s t = false

/-- The projection has the paths, each once, and what they decode to. -/
structure Reads (p : Projection) (ts : List Bytes) : Prop where
  nodup : p.paths.Nodup
  mem : ∀ t, t ∈ p.paths ↔ t ∈ ts
  compiled : p.compiledPaths = p.paths.map projectionDecodePath
  sound : Sound ts

theorem conflicts_comm (s t : Bytes) : projectionConflicts s t = projectionConflicts t s := by
  rw [projectionConflicts, projectionConflicts, Bool.or_comm]
  simp only [eq_comm (a := s) (b := t)]

theorem conflicts_self (s : Bytes) : projectionConflicts s s = false := if_pos rfl

theorem Sound.mono {ts us : List Bytes} (h : Sound us) (hsub : ∀ t ∈ ts, t ∈ us) : Sound ts :=
  ⟨fun t ht => h.pointer t (hsub t ht), fun t ht => h.leading t (hsub t ht),
    fun s hs t ht => h.apart s (hsub s hs) t (hsub t ht)⟩

theorem Sound.concat {ts : List Bytes} {copy : Bytes} (h : Sound ts) (hp : projectionValidPointer copy = true)
    (hl : projectionLeadingIndex (projectionDecodePath copy) = false)
    (ha : ∀ t ∈ ts, projectionConflicts copy t = false) : Sound (ts ++ [copy]) := by
  refine ⟨fun t ht => ?_, fun t ht => ?_, fun s hs t ht => ?_⟩
  · rcases List.mem_append.mp ht with ht | ht
    · exact h.pointer t ht
    · rwa [List.mem_singleton.mp ht]
  · rcases List.mem_append.mp ht with ht | ht
    · exact h.leading t ht
    · rwa [List.mem_singleton.mp ht]
  · rcases List.mem_append.mp hs with hs | hs <;> rcases List.mem_append.mp ht with ht | ht
    · exact h.apart s hs t ht
    · rw [List.mem_singleton.mp ht, conflicts_comm, ha s hs]
    · rw [List.mem_singleton.mp hs, ha t ht]
    · rw [List.mem_singleton.mp hs, List.mem_singleton.mp ht, conflicts_self]

theorem alreadyThere_ok : ∀ {copy : Bytes} {paths : List Bytes} {found : Bool}, alreadyThere copy paths = .ok found →
    if found then copy ∈ paths else copy ∉ paths ∧ ∀ path ∈ paths, projectionConflicts copy path = false
  | copy, [], found, h => by
    cases h
    exact ⟨List.not_mem_nil, nofun⟩
  | copy, path :: paths, found, h => by
    rw [alreadyThere] at h
    split at h
    · next heq =>
      cases h
      exact heq ▸ List.mem_cons_self
    · next hne =>
      split at h
      · cases h
      · next hno =>
        have hrest := alreadyThere_ok h
        cases found with
        | true => exact List.mem_cons_of_mem _ hrest
        | false =>
          refine ⟨List.not_mem_cons_of_ne_of_not_mem hne hrest.1, fun p hp => ?_⟩
          rcases List.mem_cons.mp hp with rfl | hp
          · exact Bool.eq_false_iff.mpr hno
          · exact hrest.2 p hp

theorem alreadyThere_total : ∀ (copy : Bytes) (paths : List Bytes),
    (∀ path ∈ paths, projectionConflicts copy path = false) → ∃ found, alreadyThere copy paths = .ok found
  | _, [], _ => ⟨false, rfl⟩
  | copy, path :: paths, h => by
    rw [alreadyThere]
    split
    · exact ⟨true, rfl⟩
    · rw [if_neg (by rw [h path List.mem_cons_self]; exact Bool.false_ne_true)]
      exact alreadyThere_total copy paths fun p hp => h p (List.mem_cons_of_mem _ hp)

/-- One more path is read, or was there. -/
theorem addPath_ok {p p' : Projection} {ts : List Bytes} {copy : Bytes} (hp : Reads p ts)
    (h : addPath p copy = .ok p') : Reads p' (ts ++ [copy]) := by
  rw [addPath] at h
  split at h
  · cases h
  · next hpointer =>
    rw [Bool.not_eq_true', Bool.not_eq_false] at hpointer
    split at h
    · cases h
    · next hthere =>
      have hmem : copy ∈ p.paths := alreadyThere_ok hthere
      cases h
      have hin := (hp.mem copy).mp hmem
      have hsame : ∀ t, t ∈ ts ++ [copy] ↔ t ∈ ts := by
        intro t
        rw [List.mem_append, List.mem_singleton]
        exact ⟨fun h => h.elim id (fun h => h ▸ hin), Or.inl⟩
      exact ⟨hp.nodup, fun t => (hp.mem t).trans (hsame t).symm, hp.compiled,
        hp.sound.mono fun t ht => (hsame t).mp ht⟩
    · next hthere =>
      obtain ⟨hnew, hapart⟩ : copy ∉ p.paths ∧ ∀ path ∈ p.paths, projectionConflicts copy path = false :=
        alreadyThere_ok hthere
      split at h
      · cases h
      · next hleading =>
        cases h
        refine ⟨?_, fun t => ?_, ?_, ?_⟩
        · exact List.nodup_append.mpr ⟨hp.nodup, List.nodup_singleton _,
            fun a ha b hb hab => hnew (by rw [← List.mem_singleton.mp hb, ← hab]; exact ha)⟩
        · rw [List.mem_append, List.mem_append, hp.mem]
        · rw [List.map_append, hp.compiled]
          rfl
        · exact hp.sound.concat hpointer (Bool.eq_false_iff.mpr hleading) fun t ht => hapart t ((hp.mem t).mpr ht)

theorem addPath_total {p : Projection} {ts : List Bytes} {copy : Bytes} (hp : Reads p ts)
    (h : Sound (ts ++ [copy])) : ∃ p', addPath p copy = .ok p' := by
  have hmem : copy ∈ ts ++ [copy] := List.mem_append_right _ List.mem_cons_self
  obtain ⟨found, hfound⟩ := alreadyThere_total copy p.paths fun path hpath =>
    h.apart copy hmem path (List.mem_append_left _ ((hp.mem path).mp hpath))
  rw [addPath, if_neg (by rw [h.pointer copy hmem]; exact Bool.false_ne_true), hfound]
  cases found with
  | true => exact ⟨_, rfl⟩
  | false => exact ⟨_, if_neg (by rw [h.leading copy hmem]; exact Bool.false_ne_true)⟩

theorem texts_blank {path : Option Bytes} (h : pathText path = []) (paths : List (Option Bytes)) :
    texts (path :: paths) = texts paths := by
  rw [texts, List.map_cons, List.filter_cons_of_neg (by simpa using h)]
  rfl

theorem texts_cons {path : Option Bytes} (h : pathText path ≠ []) (paths : List (Option Bytes)) :
    texts (path :: paths) = pathText path :: texts paths := by
  rw [texts, List.map_cons, List.filter_cons_of_pos (by simpa using h)]
  rfl

/-- The loop reads all paths. -/
theorem addPaths_ok : ∀ {paths : List (Option Bytes)} {p p' : Projection} {ts : List Bytes}, Reads p ts →
    addPaths p paths = .ok p' → Reads p' (ts ++ texts paths)
  | [], p, p', ts, hp, h => by
    cases h
    rwa [show texts [] = [] from rfl, List.append_nil]
  | path :: paths, p, p', ts, hp, h => by
    rw [addPaths] at h
    split at h
    · next hblank =>
      rw [texts_blank hblank]
      exact addPaths_ok hp h
    · next hblank =>
      rw [texts_cons hblank]
      cases hadd : addPath p (pathText path) with
      | error e =>
        rw [hadd] at h
        cases h
      | ok q =>
        rw [hadd] at h
        have hq := addPaths_ok (addPath_ok hp hadd) h
        rwa [List.append_assoc] at hq

theorem addPaths_total : ∀ (paths : List (Option Bytes)) {p : Projection} {ts : List Bytes}, Reads p ts →
    Sound (ts ++ texts paths) → ∃ p', addPaths p paths = .ok p'
  | [], p, ts, _, _ => ⟨p, rfl⟩
  | path :: paths, p, ts, hp, h => by
    rw [addPaths]
    split
    · next hblank =>
      rw [texts_blank hblank] at h
      exact addPaths_total paths hp h
    · next hblank =>
      rw [texts_cons hblank, ← List.singleton_append, ← List.append_assoc] at h
      obtain ⟨q, hq⟩ := addPath_total hp (h.mono fun t ht => List.mem_append_left _ ht)
      rw [hq]
      exact addPaths_total paths (addPath_ok hp hq) h

theorem reads_empty : Reads {} [] :=
  ⟨List.nodup_nil, fun _ => Iff.rfl, rfl, nofun, nofun, nofun⟩

theorem parse_reads {paths : List (Option Bytes)} {p : Projection} (h : projectionParseInternal paths = .ok p) :
    Reads p (texts paths) ∧ texts paths ≠ [] := by
  rw [projectionParseInternal] at h
  split at h
  · cases h
  · cases hadd : addPaths {} paths with
    | error e =>
      rw [hadd] at h
      cases h
    | ok q =>
      rw [hadd] at h
      dsimp only at h
      split at h
      · cases h
      · next hne =>
        cases h
        have hreads := addPaths_ok reads_empty hadd
        rw [List.nil_append] at hreads
        refine ⟨hreads, fun hnil => hne ?_⟩
        exact List.eq_nil_iff_forall_not_mem.mpr fun t ht => absurd ((hreads.mem t).mp ht) (by rw [hnil]; exact List.not_mem_nil)

/-- **Paths are accepted as they are written.** -/
theorem parse_iff (paths : List (Option Bytes)) :
    (∃ p, projectionParseInternal paths = .ok p) ↔ texts paths ≠ [] ∧ Sound (texts paths) := by
  constructor
  · rintro ⟨p, hp⟩
    obtain ⟨hreads, hne⟩ := parse_reads hp
    exact ⟨hne, hreads.sound⟩
  · rintro ⟨hne, hsound⟩
    have hpaths : paths ≠ [] := by
      rintro rfl
      exact hne rfl
    obtain ⟨p, hp⟩ := addPaths_total paths reads_empty (by rwa [List.nil_append])
    have hreads := addPaths_ok reads_empty hp
    rw [List.nil_append] at hreads
    refine ⟨p, ?_⟩
    rw [projectionParseInternal, if_neg hpaths, hp]
    refine if_neg fun hnil => hne (List.eq_nil_iff_forall_not_mem.mpr fun t ht => ?_)
    have := (hreads.mem t).mpr ht
    rw [hnil] at this
    exact List.not_mem_nil this

/-! ## Paths as they are decoded -/

/-- What the paths decode to. -/
def decodedPaths (paths : List (Option Bytes)) : Set (List Bytes) :=
  {x | ∃ t ∈ texts paths, x = projectionDecodePath t}

/-- A projection may have these paths: there are some, none begins with an index and none is above another. -/
structure Admissible (s : Set (List Bytes)) : Prop where
  nonempty : s.Nonempty
  leading : ∀ x ∈ s, projectionLeadingIndex x = false
  apart : ∀ x ∈ s, ∀ y ∈ s, x <+: y → x = y

/-- The paths are read as what they decode to: this alone decides whether they are accepted, and each of these paths
is there once. -/
structure ReadAsDecoded (paths : List (Option Bytes)) : Prop where
  accepted : (∃ p, projectionParseInternal paths = .ok p) ↔
    (∀ t ∈ texts paths, projectionValidPointer t = true) ∧ Admissible (decodedPaths paths)
  once : ∀ p, projectionParseInternal paths = .ok p →
    p.compiledPaths.Nodup ∧ (∀ x, x ∈ p.compiledPaths ↔ x ∈ decodedPaths paths) ∧
      ∀ x ∈ p.compiledPaths, ∀ y ∈ p.compiledPaths, x <+: y → x = y

/-- Where a path begins another, decoded, it does so as it is written. -/
def WrittenAlike (ts : List Bytes) : Prop :=
  ∀ s ∈ ts, ∀ t ∈ ts, projectionDecodePath s <+: projectionDecodePath t → segmentsOf s <+: segmentsOf t

theorem head_of_pointer {t : Bytes} (h : projectionValidPointer t = true) : t.head? = some chSlash := by
  obtain ⟨c, rest, rfl⟩ := pointer_iff.mp h
  rfl

theorem decodePath_pointer {t : Bytes} (h : projectionValidPointer t = true) :
    projectionDecodePath t = (segmentsOf t).map decodeSegment := by
  obtain ⟨c, rest, rfl⟩ := pointer_iff.mp h
  exact decodePath_eq (List.cons_ne_nil _ _)

theorem segmentsOf_injective {s t : Bytes} (hs : projectionValidPointer s = true) (ht : projectionValidPointer t = true)
    (h : segmentsOf s = segmentsOf t) : s = t := by
  rw [← pathOf_segmentsOf (head_of_pointer hs), h, pathOf_segmentsOf (head_of_pointer ht)]

/-- Paths that are sound and written alike are apart when decoded. -/
theorem WrittenAlike.eq {ts : List Bytes} (ha : WrittenAlike ts) (hs : Sound ts) {s t : Bytes} (hsm : s ∈ ts)
    (htm : t ∈ ts) (h : projectionDecodePath s <+: projectionDecodePath t) : s = t := by
  by_contra hne
  have hpre := ha s hsm t htm h
  have hconf := (conflicts_iff (head_of_pointer (hs.pointer s hsm)) (head_of_pointer (hs.pointer t htm))).mpr
    ⟨hne, .inl hpre⟩
  rw [hs.apart s hsm t htm] at hconf
  cases hconf

/-- Paths that conflict as they are written do so decoded. -/
theorem not_admissible_of_conflict {paths : List (Option Bytes)} {s t : Bytes} (hs : s ∈ texts paths)
    (ht : t ∈ texts paths) (hp : ∀ t ∈ texts paths, projectionValidPointer t = true)
    (hconf : projectionConflicts s t = true) : ¬ Admissible (decodedPaths paths) := by
  have hdecoded : ∀ {a b : Bytes}, a ∈ texts paths → b ∈ texts paths → a ≠ b → segmentsOf a <+: segmentsOf b →
      ¬ Admissible (decodedPaths paths) := by
    intro a b ha hb hne hpre hadm
    have hsame := hadm.apart _ ⟨a, ha, rfl⟩ _ ⟨b, hb, rfl⟩ (by
      rw [decodePath_pointer (hp a ha), decodePath_pointer (hp b hb)]
      exact hpre.map decodeSegment)
    rw [decodePath_pointer (hp a ha), decodePath_pointer (hp b hb)] at hsame
    have hlen := congrArg List.length hsame
    rw [List.length_map, List.length_map] at hlen
    exact hne (segmentsOf_injective (hp a ha) (hp b hb) (hpre.eq_of_length hlen))
  obtain ⟨hne, hpre | hpre⟩ := (conflicts_iff (head_of_pointer (hp s hs)) (head_of_pointer (hp t ht))).mp hconf
  · exact hdecoded hs ht hne hpre
  · exact hdecoded ht hs (Ne.symm hne) hpre

/-- **The paths are read as what they decode to** exactly where one of them is refused as it is written, or a path
that begins another when decoded begins it as it is written. -/
theorem readAsDecoded_iff (paths : List (Option Bytes)) :
    ReadAsDecoded paths ↔ ¬ Sound (texts paths) ∨ WrittenAlike (texts paths) := by
  constructor
  · intro h
    by_cases hsound : Sound (texts paths)
    · refine .inr fun s hs t ht hpre => ?_
      obtain ⟨p, hp⟩ := (parse_iff paths).mpr ⟨List.ne_nil_of_mem hs, hsound⟩
      obtain ⟨hreads, -⟩ := parse_reads hp
      obtain ⟨hnodup, hmem, hapart⟩ := h.once p hp
      have hsame := hapart _ ((hmem _).mpr ⟨s, hs, rfl⟩) _ ((hmem _).mpr ⟨t, ht, rfl⟩) hpre
      rw [hreads.compiled] at hnodup
      have hst : s = t := List.inj_on_of_nodup_map hnodup ((hreads.mem s).mpr hs) ((hreads.mem t).mpr ht) hsame
      exact hst ▸ List.prefix_refl _
    · exact .inl hsound
  · rintro (hunsound | halike)
    · have hno : ¬ ∃ p, projectionParseInternal paths = .ok p := fun h => hunsound ((parse_iff paths).mp h).2
      refine ⟨⟨fun h => absurd h hno, ?_⟩, fun p hp => absurd ⟨p, hp⟩ hno⟩
      rintro ⟨hpointer, hadm⟩
      refine absurd ⟨hpointer, fun t ht => hadm.leading _ ⟨t, ht, rfl⟩, fun s hs t ht => ?_⟩ hunsound
      by_contra hconf
      exact not_admissible_of_conflict hs ht hpointer (Bool.eq_true_of_not_eq_false hconf) hadm
    · constructor
      · rw [parse_iff]
        constructor
        · rintro ⟨hne, hsound⟩
          obtain ⟨t, ht⟩ := List.exists_mem_of_ne_nil _ hne
          refine ⟨hsound.pointer, ⟨_, t, ht, rfl⟩, ?_, ?_⟩
          · rintro _ ⟨t, ht, rfl⟩
            exact hsound.leading t ht
          · rintro _ ⟨s, hs, rfl⟩ _ ⟨t, ht, rfl⟩ hpre
            rw [halike.eq hsound hs ht hpre]
        · rintro ⟨hpointer, hadm⟩
          obtain ⟨_, t, ht, rfl⟩ := hadm.nonempty
          refine ⟨List.ne_nil_of_mem ht, hpointer, fun t ht => hadm.leading _ ⟨t, ht, rfl⟩, fun s hs t ht => ?_⟩
          by_contra hconf
          exact not_admissible_of_conflict hs ht hpointer (Bool.eq_true_of_not_eq_false hconf) hadm
      · intro p hp
        obtain ⟨hreads, -⟩ := parse_reads hp
        have hmem : ∀ x, x ∈ p.compiledPaths ↔ x ∈ decodedPaths paths := by
          intro x
          rw [hreads.compiled, List.mem_map]
          constructor
          · rintro ⟨t, ht, rfl⟩
            exact ⟨t, (hreads.mem t).mp ht, rfl⟩
          · rintro ⟨t, ht, rfl⟩
            exact ⟨t, (hreads.mem t).mpr ht, rfl⟩
        refine ⟨?_, hmem, fun x hx y hy hpre => ?_⟩
        · rw [hreads.compiled]
          refine hreads.nodup.map_on fun s hs t ht hsame => ?_
          exact halike.eq hreads.sound ((hreads.mem s).mp hs) ((hreads.mem t).mp ht) (hsame ▸ List.prefix_refl _)
        · obtain ⟨s, hs, rfl⟩ := (hmem x).mp hx
          obtain ⟨t, ht, rfl⟩ := (hmem y).mp hy
          rw [halike.eq hreads.sound hs ht hpre]

/-- `/a~` and `/a~0` are both accepted, though both are the path of the key `a~`; so are `/a~` and `/a~0/b`. -/
theorem tilde_written_twice :
    projectionParseInternal [some (Selector.ascii "/a~"), some (Selector.ascii "/a~0")] =
        .ok ⟨[Selector.ascii "/a~", Selector.ascii "/a~0"], [[Selector.ascii "a~"], [Selector.ascii "a~"]]⟩ ∧
      ¬ ReadAsDecoded [some (Selector.ascii "/a~"), some (Selector.ascii "/a~0")] ∧
      ¬ ReadAsDecoded [some (Selector.ascii "/a~"), some (Selector.ascii "/a~0/b")] := by
  have htwice : projectionParseInternal [some (Selector.ascii "/a~"), some (Selector.ascii "/a~0")] =
      .ok ⟨[Selector.ascii "/a~", Selector.ascii "/a~0"], [[Selector.ascii "a~"], [Selector.ascii "a~"]]⟩ := by
    decide +kernel
  have habove : projectionParseInternal [some (Selector.ascii "/a~"), some (Selector.ascii "/a~0/b")] =
      .ok ⟨[Selector.ascii "/a~", Selector.ascii "/a~0/b"],
        [[Selector.ascii "a~"], [Selector.ascii "a~", Selector.ascii "b"]]⟩ := by
    decide +kernel
  refine ⟨htwice, fun h => absurd (h.once _ htwice).1 (by decide +kernel), fun h => ?_⟩
  have hsame := (h.once _ habove).2.2 [Selector.ascii "a~"] (by decide +kernel)
    [Selector.ascii "a~", Selector.ascii "b"] (by decide +kernel) (by decide +kernel)
  exact absurd hsame (by decide +kernel)

end Lql.Projection
