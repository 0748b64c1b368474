import Mathlib.Data.List.Forall2
import Mathlib.Data.List.Basic
import Lql.Selector.Text

/-!
# Field paths

A field is a path of segments between slashes, and a segment with brackets behind it stands for several. The parser
writes a field with these segments apart. Empty segments at either end of the field are lost on the way.
-/

namespace Lql.Selector

/-! ## Segments -/

/-- `[]`, the segment that any element of an array matches. -/
def brackets : Bytes := ascii "[]"

/-- Pairs of brackets, one behind the other. -/
def pairs (k : Nat) : Bytes := (List.replicate k brackets).flatten

/-- The segments of a path: what stands behind each of its slashes, up to the next. -/
def segmentsOf : Bytes → List Bytes
  | [] => []
  | _ :: rest => rest.splitOn chSlash

/-- The path of some segments. -/
def pathOf (segments : List Bytes) : Bytes := segments.flatMap (chSlash :: ·)

/-- The segment is empty or a wildcard, and stands for itself. -/
def Whole (segment : Bytes) : Prop :=
  segment = [] ∨ segment = brackets ∨ segment = ascii "*" ∨ segment = ascii "**" ∨ segment = ascii "..."

instance (segment : Bytes) : Decidable (Whole segment) := inferInstanceAs (Decidable (_ ∨ _))

/-- The segment is a base with as many pairs of brackets behind it as there can be. -/
structure Bracketed (segment base : Bytes) (k : Nat) : Prop where
  eq : segment = base ++ pairs k
  base_ne : base ≠ []
  most : ∀ base' k', segment = base' ++ pairs k' → base' ≠ [] → k' ≤ k

/-- The segments that a segment stands for. -/
def Expands (segment : Bytes) (parts : List Bytes) : Prop :=
  if Whole segment then parts = [segment]
  else ∃ base k, Bracketed segment base k ∧ parts = base :: List.replicate k brackets

/-- The segments that the segments of a field stand for, in order. -/
def Expanded (field : Bytes) (parts : List Bytes) : Prop :=
  ∃ lists, List.Forall₂ Expands (segmentsOf field) lists ∧ parts = lists.flatten

/-! ## Brackets -/

theorem pairs_succ (k : Nat) : pairs (k + 1) = pairs k ++ brackets := by
  rw [pairs, List.replicate_succ', List.flatten_append, List.flatten_singleton]
  rfl

theorem pairs_add (j k : Nat) : pairs (j + k) = pairs j ++ pairs k := by
  rw [pairs, ← List.replicate_append_replicate, List.flatten_append]
  rfl

theorem pairs_length (k : Nat) : (pairs k).length = 2 * k := by
  induction k with
  | zero => rfl
  | succ k ih =>
    rw [pairs_succ, List.length_append, ih]
    rfl

/-- The loop takes every pair of brackets that something stands in front of. -/
theorem stripBrackets_bracketed : ∀ (fuel : Nat) (segment : Bytes), segment ≠ [] → segment.length ≤ fuel →
    segment = (stripBrackets fuel segment).1 ++ pairs (stripBrackets fuel segment).2 ∧
      (stripBrackets fuel segment).1 ≠ [] ∧
        ∀ front, (stripBrackets fuel segment).1 = front ++ brackets → front = []
  | 0, segment, hne, hlen => absurd (List.length_eq_zero_iff.mp (Nat.le_zero.mp hlen)) hne
  | fuel + 1, segment, hne, hlen => by
    rw [stripBrackets]
    split
    · next h =>
      obtain ⟨h2, hend⟩ := Bool.and_eq_true_iff.mp h
      have h2' : 2 < segment.length := of_decide_eq_true h2
      have hlen' : (segment.take (segment.length - 2)).length = segment.length - 2 := by
        rw [List.length_take]
        omega
      obtain ⟨h1, hbase, hlast⟩ := stripBrackets_bracketed fuel (segment.take (segment.length - 2))
        (List.ne_nil_of_length_pos (by omega)) (by omega)
      refine ⟨?_, hbase, hlast⟩
      calc segment = segment.take (segment.length - 2) ++ brackets := by
            conv_lhs => rw [← List.take_append_drop (segment.length - 2) segment]
            rw [of_decide_eq_true hend]
            rfl
        _ = _ := by
            rw [pairs_succ, ← List.append_assoc]
            exact congrArg (· ++ brackets) h1
    · next h =>
      refine ⟨(List.append_nil segment).symm, hne, fun front (hfront : segment = front ++ brackets) => ?_⟩
      by_contra hfront'
      refine h (Bool.and_eq_true_iff.mpr ⟨decide_eq_true ?_, decide_eq_true ?_⟩)
      · have := List.length_pos_iff.mpr hfront'
        have hb : brackets.length = 2 := rfl
        rw [hfront, List.length_append]
        omega
      · have hb : segment.length - 2 = front.length := by
          rw [hfront, List.length_append]
          exact Nat.add_sub_cancel _ _
        rw [hb, hfront, List.drop_left]
        rfl

/-- A segment without the pairs that the loop takes has no more of them. -/
theorem Bracketed.of_strip {segment base : Bytes} {k : Nat} (heq : segment = base ++ pairs k) (hbase : base ≠ [])
    (hlast : ∀ front, base = front ++ brackets → front = []) : Bracketed segment base k := by
  refine ⟨heq, hbase, fun base' k' heq' hne' => ?_⟩
  by_contra hlt
  obtain ⟨j, rfl⟩ : ∃ j, k' = j + 1 + k := ⟨k' - 1 - k, by omega⟩
  rw [heq', pairs_add, ← List.append_assoc] at heq
  have hfront := List.append_inj_left' heq rfl
  rw [pairs_succ, ← List.append_assoc] at hfront
  exact hne' (List.append_eq_nil_iff.mp (hlast _ hfront.symm)).1

theorem Bracketed.unique {segment base base' : Bytes} {k k' : Nat} (h : Bracketed segment base k)
    (h' : Bracketed segment base' k') : base = base' ∧ k = k' := by
  have hk : k = k' := Nat.le_antisymm (h'.most _ _ h.eq h.base_ne) (h.most _ _ h'.eq h'.base_ne)
  subst hk
  exact ⟨List.append_cancel_right (h.eq.symm.trans h'.eq), rfl⟩

/-- The segments that `normalize_field_path` writes for a segment. -/
def expand (segment : Bytes) : List Bytes :=
  if Whole segment then [segment]
  else (stripBrackets segment.length segment).1 :: List.replicate (stripBrackets segment.length segment).2 brackets

theorem expands_iff {segment : Bytes} {parts : List Bytes} : Expands segment parts ↔ parts = expand segment := by
  rw [Expands, expand]
  by_cases h : Whole segment
  · rw [if_pos h, if_pos h]
  · rw [if_neg h, if_neg h]
    obtain ⟨h1, h2, h3⟩ := stripBrackets_bracketed segment.length segment (fun hnil => h (.inl hnil)) (Nat.le_refl _)
    have hstrip := Bracketed.of_strip h1 h2 h3
    constructor
    · rintro ⟨base, k, hb, rfl⟩
      obtain ⟨rfl, rfl⟩ := hb.unique hstrip
      rfl
    · rintro rfl
      exact ⟨_, _, hstrip, rfl⟩

theorem expanded_iff {field : Bytes} {parts : List Bytes} :
    Expanded field parts ↔ parts = (segmentsOf field).flatMap expand := by
  have hlists : ∀ {segments : List Bytes} {lists : List (List Bytes)}, List.Forall₂ Expands segments lists ↔
      lists = segments.map expand := by
    intro segments lists
    induction segments generalizing lists with
    | nil => rw [List.forall₂_nil_left_iff, List.map_nil]
    | cons segment segments ih =>
      rw [List.forall₂_cons_left_iff, List.map_cons]
      constructor
      · rintro ⟨parts, rest, h1, h2, rfl⟩
        rw [expands_iff.mp h1, ih.mp h2]
      · rintro rfl
        exact ⟨_, _, expands_iff.mpr rfl, ih.mpr rfl, rfl⟩
  rw [Expanded, List.flatMap_def]
  constructor
  · rintro ⟨lists, h, rfl⟩
    rw [hlists.mp h]
  · rintro rfl
    exact ⟨_, hlists.mpr rfl, rfl⟩

/-! ## What a segment stands for -/

theorem pathOf_append (a b : List Bytes) : pathOf (a ++ b) = pathOf a ++ pathOf b := List.flatMap_append

theorem pathOf_cons (segment : Bytes) (segments : List Bytes) :
    pathOf (segment :: segments) = chSlash :: (segment ++ pathOf segments) := rfl

/-- The parser writes the segments that a segment stands for. -/
theorem normalizeSegment_expand (segment : Bytes) : chSlash :: normalizeSegment segment = pathOf (expand segment) := by
  have hwhole : (decide (segment = []) || decide (segment = ascii "[]") || decide (segment = ascii "*") ||
      decide (segment = ascii "**") || decide (segment = ascii "...")) = true ↔ Whole segment := by
    simp only [Whole, brackets, Bool.or_eq_true, decide_eq_true_eq, or_assoc]
  rw [normalizeSegment, expand]
  by_cases h : Whole segment
  · rw [if_pos (hwhole.mpr h), if_pos h]
    exact congrArg _ (List.append_nil segment).symm
  · rw [if_neg (mt hwhole.mp h), if_neg h, pathOf_cons, pathOf, List.flatMap_replicate]
    rfl

theorem expand_ne_nil (segment : Bytes) : expand segment ≠ [] := by
  rw [expand]
  split <;> exact List.cons_ne_nil _ _

theorem expand_nil : expand [] = [[]] := rfl

/-- What a segment stands for is not empty unless the segment is. -/
theorem expand_parts {segment : Bytes} (h : segment ≠ []) : ∀ part ∈ expand segment, part ≠ [] := by
  intro part hpart
  rw [expand] at hpart
  split at hpart
  · rw [List.mem_singleton.mp hpart]
    exact h
  · rcases List.mem_cons.mp hpart with rfl | hmem
    · exact (stripBrackets_bracketed _ _ h (Nat.le_refl _)).2.1
    · rw [List.eq_of_mem_replicate hmem]
      decide

/-- It has no slash unless the segment has one. -/
theorem expand_no_slash {segment : Bytes} (h : chSlash ∉ segment) : ∀ part ∈ expand segment, chSlash ∉ part := by
  intro part hpart
  by_cases hw : Whole segment
  · rw [expand, if_pos hw] at hpart
    rwa [List.mem_singleton.mp hpart]
  · rw [expand, if_neg hw] at hpart
    rcases List.mem_cons.mp hpart with rfl | hmem
    · intro hslash
      refine h ?_
      rw [(stripBrackets_bracketed segment.length segment (fun hnil => hw (.inl hnil)) (Nat.le_refl _)).1]
      exact List.mem_append_left _ hslash
    · rw [List.eq_of_mem_replicate hmem]
      decide

/-- It stands for itself. -/
theorem expand_part {segment : Bytes} : ∀ part ∈ expand segment, expand part = [part] := by
  intro part hpart
  by_cases hw : Whole segment
  · rw [expand, if_pos hw] at hpart
    rw [List.mem_singleton.mp hpart, expand, if_pos hw]
  · rw [expand, if_neg hw] at hpart
    rcases List.mem_cons.mp hpart with rfl | hmem
    · obtain ⟨-, hne, hlast⟩ := stripBrackets_bracketed segment.length segment (fun hnil => hw (.inl hnil)) (Nat.le_refl _)
      by_cases hb : Whole (stripBrackets segment.length segment).1
      · rw [expand, if_pos hb]
      · refine (expands_iff.mp ?_).symm
        rw [Expands, if_neg hb]
        exact ⟨_, 0, .of_strip (List.append_nil _).symm hne hlast, rfl⟩
    · rw [List.eq_of_mem_replicate hmem]
      rfl

/-! ## The loop over the segments -/

/-- The segments without an empty one at the end. -/
def trimmed (segments : List Bytes) : List Bytes :=
  if segments.getLast? = some [] then segments.dropLast else segments

theorem trimmed_cons (segment : Bytes) {segments : List Bytes} (h : segments ≠ []) :
    trimmed (segment :: segments) = segment :: trimmed segments := by
  rw [trimmed, trimmed, List.getLast?_cons_of_ne_nil h, List.dropLast_cons_of_ne_nil h]
  split <;> rfl

theorem cutSlash_none : ∀ {p segment : Bytes}, cutSlash p = (segment, none) → chSlash ∉ p ∧ segment = p
  | [], segment, h => by
    cases h
    exact ⟨List.not_mem_nil, rfl⟩
  | c :: p, segment, h => by
    rw [cutSlash] at h
    split at h
    · cases h
    · next hc =>
      cases hcut : cutSlash p with
      | mk front tail =>
        rw [hcut] at h
        cases h
        obtain ⟨h1, rfl⟩ := cutSlash_none hcut
        exact ⟨List.not_mem_cons_of_ne_of_not_mem (Ne.symm hc) h1, rfl⟩

theorem cutSlash_some : ∀ {p segment tail : Bytes}, cutSlash p = (segment, some tail) →
    chSlash ∉ segment ∧ p = segment ++ chSlash :: tail
  | [], _, _, h => by cases h
  | c :: p, segment, tail, h => by
    rw [cutSlash] at h
    split at h
    · next hc =>
      cases h
      exact ⟨List.not_mem_nil, by rw [hc]; rfl⟩
    · next hc =>
      cases hcut : cutSlash p with
      | mk front rest =>
        rw [hcut] at h
        cases h
        obtain ⟨h1, rfl⟩ := cutSlash_some hcut
        exact ⟨List.not_mem_cons_of_ne_of_not_mem (Ne.symm hc) h1, rfl⟩

/-- Behind what has been written the loop writes all segments but an empty one at the end. -/
theorem normalizeSegments_behind : ∀ {fuel : Nat} {out rest : Bytes}, rest.length ≤ fuel → 1 < out.length →
    normalizeSegments fuel out rest = out ++ pathOf ((trimmed (rest.splitOn chSlash)).flatMap expand)
  | fuel, out, [], _, _ => by
    have hnil : normalizeSegments fuel out [] = out := by
      rw [normalizeSegments.eq_def]
      split <;> rfl
    rw [hnil, List.splitOn_nil]
    exact (List.append_nil out).symm
  | 0, out, c :: rest, hlen, _ => absurd hlen (Nat.not_succ_le_zero _)
  | fuel + 1, out, c :: rest, hlen, hout => by
    rw [normalizeSegments, if_neg (List.cons_ne_nil c rest)]
    cases hcut : cutSlash (c :: rest) with
    | mk segment tail =>
      dsimp only
      rw [if_pos hout, List.append_assoc, List.singleton_append, normalizeSegment_expand]
      cases tail with
      | none =>
        obtain ⟨hslash, rfl⟩ := cutSlash_none hcut
        rw [List.splitOn_eq_singleton hslash, trimmed, if_neg (by simp), List.flatMap_singleton]
      | some tail =>
        obtain ⟨hslash, hrest⟩ := cutSlash_some hcut
        have hlen' : tail.length ≤ fuel := by
          rw [hrest, List.length_append, List.length_cons] at hlen
          omega
        have hout' : 1 < (out ++ pathOf (expand segment)).length := by
          rw [List.length_append]
          omega
        dsimp only
        rw [normalizeSegments_behind hlen' hout', hrest, List.splitOn_append_cons_self_of_not_mem hslash,
          trimmed_cons _ (List.splitOn_ne_nil _ _), List.flatMap_cons, pathOf_append, List.append_assoc]

/-- A slash at the front is passed over. -/
theorem normalizeSegments_slash (fuel : Nat) (rest : Bytes) :
    normalizeSegments (fuel + 1) [chSlash] (chSlash :: rest) = normalizeSegments fuel [chSlash] rest := rfl

/-- From any other byte on the loop writes the segments. -/
theorem normalizeSegments_start {fuel : Nat} {rest : Bytes} (hlen : rest.length ≤ fuel) (hne : rest ≠ [])
    (hslash : rest.head? ≠ some chSlash) :
    normalizeSegments fuel [chSlash] rest = pathOf ((trimmed (rest.splitOn chSlash)).flatMap expand) := by
  cases fuel with
  | zero => exact absurd (List.length_eq_zero_iff.mp (Nat.le_zero.mp hlen)) hne
  | succ fuel =>
    rw [normalizeSegments, if_neg hne]
    cases hcut : cutSlash rest with
    | mk segment tail =>
      have hout : [chSlash] ++ normalizeSegment segment = pathOf (expand segment) := normalizeSegment_expand segment
      dsimp only
      rw [if_neg (by decide), hout]
      cases tail with
      | none =>
        obtain ⟨hno, rfl⟩ := cutSlash_none hcut
        rw [List.splitOn_eq_singleton hno, trimmed, if_neg (by simpa using hne), List.flatMap_singleton]
      | some tail =>
        obtain ⟨hno, rfl⟩ := cutSlash_some hcut
        have hseg : segment ≠ [] := by
          rintro rfl
          exact hslash rfl
        have hlong : 1 < (pathOf (expand segment)).length := by
          obtain ⟨part, parts, hparts⟩ := List.exists_cons_of_ne_nil (expand_ne_nil segment)
          have hpart := List.length_pos_iff.mpr (expand_parts hseg part (by rw [hparts]; exact List.mem_cons_self))
          rw [hparts, pathOf_cons, List.length_cons, List.length_append]
          omega
        have hlen' : tail.length ≤ fuel := by
          rw [List.length_append, List.length_cons] at hlen
          omega
        dsimp only
        rw [normalizeSegments_behind hlen' hlong, List.splitOn_append_cons_self_of_not_mem hno,
          trimmed_cons _ (List.splitOn_ne_nil _ _), List.flatMap_cons, pathOf_append]

/-! ## Segments of a path -/

theorem pathOf_intercalate : ∀ (part : Bytes) (parts : List Bytes),
    pathOf (part :: parts) = chSlash :: [chSlash].intercalate (part :: parts)
  | part, [] => by
    rw [pathOf_cons, List.intercalate_singleton]
    exact congrArg _ (List.append_nil part)
  | part, part' :: parts => by
    rw [pathOf_cons, pathOf_intercalate part' parts, List.intercalate_cons_cons, List.append_assoc, List.singleton_append]

/-- A path of segments without slashes has these segments. -/
theorem segmentsOf_pathOf {parts : List Bytes} (hne : parts ≠ []) (h : ∀ part ∈ parts, chSlash ∉ part) :
    segmentsOf (pathOf parts) = parts := by
  obtain ⟨part, rest, rfl⟩ := List.exists_cons_of_ne_nil hne
  rw [pathOf_intercalate]
  exact List.splitOn_intercalate chSlash h hne

theorem splitOn_no_slash {p : Bytes} : ∀ segment ∈ p.splitOn chSlash, chSlash ∉ segment := by
  induction p with
  | nil =>
    intro segment hmem
    rw [List.splitOn_nil, List.mem_singleton] at hmem
    rw [hmem]
    exact List.not_mem_nil
  | cons c p ih =>
    obtain ⟨first, rest, hsplit⟩ := List.exists_cons_of_ne_nil (List.splitOn_ne_nil chSlash p)
    rw [hsplit] at ih
    intro segment hmem
    rw [List.splitOn_cons_eq_if_modifyHead, hsplit] at hmem
    split at hmem
    · rcases List.mem_cons.mp hmem with rfl | hmem
      · exact List.not_mem_nil
      · exact ih segment hmem
    · next hc =>
      rcases List.mem_cons.mp hmem with rfl | hmem
      · refine List.not_mem_cons_of_ne_of_not_mem (fun heq => hc ?_) (ih first List.mem_cons_self)
        rw [heq]
        exact beq_self_eq_true c
      · exact ih segment (List.mem_cons_of_mem _ hmem)

/-- The last segment is empty where the path ends with a slash. -/
theorem getLast_splitOn {p : Bytes} (hne : p ≠ []) :
    (p.splitOn chSlash).getLast? = some [] ↔ p.getLast? = some chSlash := by
  induction p with
  | nil => exact absurd rfl hne
  | cons c p ih =>
    obtain ⟨first, rest, hsplit⟩ := List.exists_cons_of_ne_nil (List.splitOn_ne_nil chSlash p)
    rw [List.splitOn_cons_eq_if_modifyHead]
    by_cases hp : p = []
    · subst hp
      by_cases hc : c = chSlash
      · subst hc
        decide
      · rw [if_neg (by simpa using hc), List.splitOn_nil]
        simpa using hc
    · rw [List.getLast?_cons_of_ne_nil hp, ← ih hp]
      split
      · rw [List.getLast?_cons_of_ne_nil (List.splitOn_ne_nil _ _)]
      · rw [hsplit, List.modifyHead_cons]
        cases rest with
        | nil =>
          -- without a slash the one segment is the path
          have hwhole : [chSlash].intercalate (p.splitOn chSlash) = p := List.intercalate_splitOn chSlash
          rw [hsplit, List.intercalate_singleton] at hwhole
          simp [hwhole, hp]
        | cons second rest =>
          rw [List.getLast?_cons_of_ne_nil (List.cons_ne_nil _ _), List.getLast?_cons_of_ne_nil (List.cons_ne_nil _ _)]

/-! ## What the parser keeps -/

/-- The segments that the segments behind the first slash stand for. -/
def expansion (rest : Bytes) : List Bytes := (rest.splitOn chSlash).flatMap expand

/-- The segments that are written: slashes at the front are passed over, and the last segment is left out if it is
empty. -/
def written (rest : Bytes) : List Bytes :=
  if rest.dropWhile (· = chSlash) = [] then [[]]
  else (trimmed ((rest.dropWhile (· = chSlash)).splitOn chSlash)).flatMap expand

theorem written_slash (rest : Bytes) : written (chSlash :: rest) = written rest := rfl

theorem written_start {c : UInt8} (rest : Bytes) (hc : c ≠ chSlash) :
    written (c :: rest) = (trimmed ((c :: rest).splitOn chSlash)).flatMap expand := by
  rw [written, List.dropWhile_cons_of_neg (by rw [decide_eq_true_eq]; exact hc), if_neg (List.cons_ne_nil c rest)]

theorem expansion_slash (rest : Bytes) : expansion (chSlash :: rest) = [] :: expansion rest := by
  rw [expansion, List.splitOn_cons_eq_if_modifyHead, if_pos (beq_self_eq_true _), List.flatMap_cons, expand_nil]
  rfl

theorem normalizeSegments_written : ∀ {fuel : Nat} (rest : Bytes), rest.length ≤ fuel →
    normalizeSegments fuel [chSlash] rest = pathOf (written rest)
  | 0, [], _ => rfl
  | _ + 1, [], _ => rfl
  | 0, _ :: rest, h => absurd h (Nat.not_succ_le_zero _)
  | fuel + 1, c :: rest, h => by
    by_cases hc : c = chSlash
    · subst hc
      rw [normalizeSegments_slash, written_slash, normalizeSegments_written rest (Nat.le_of_succ_le_succ h)]
    · rw [normalizeSegments_start h (List.cons_ne_nil c rest) (by simpa using hc), written_start rest hc]

theorem normalize_written (rest : Bytes) : normalizeFieldPath (chSlash :: rest) = some (pathOf (written rest)) := by
  rw [normalizeFieldPath, if_pos rfl, normalizeSegments_written rest (Nat.le_refl _)]

/-- Only an empty segment at the end is left out. -/
theorem flatMap_trimmed (segments : List Bytes) : segments.flatMap expand =
    (trimmed segments).flatMap expand ++ if segments.getLast? = some [] then [[]] else [] := by
  rw [trimmed]
  split
  · next h =>
    obtain ⟨front, rfl⟩ := List.getLast?_eq_some_iff.mp h
    rw [List.dropLast_concat, List.flatMap_append, List.flatMap_singleton, expand_nil]
  · rw [List.append_nil]

theorem written_length_le : ∀ rest : Bytes, (written rest).length ≤ (expansion rest).length
  | [] => Nat.le_refl _
  | c :: rest => by
    by_cases hc : c = chSlash
    · subst hc
      rw [written_slash, expansion_slash, List.length_cons]
      exact Nat.le_succ_of_le (written_length_le rest)
    · rw [written_start rest hc, expansion, flatMap_trimmed ((c :: rest).splitOn chSlash), List.length_append]
      exact Nat.le_add_right _ _

/-- What is written is what the field stands for where neither end of the field is an empty segment. -/
theorem written_eq_iff (rest : Bytes) :
    written rest = expansion rest ↔ rest.head? ≠ some chSlash ∧ rest.getLast? ≠ some chSlash := by
  cases rest with
  | nil => exact ⟨fun _ => ⟨nofun, nofun⟩, fun _ => rfl⟩
  | cons c rest =>
    by_cases hc : c = chSlash
    · subst hc
      refine ⟨fun h => ?_, fun h => absurd rfl h.1⟩
      have hle := written_length_le rest
      have hlen := congrArg List.length h
      rw [written_slash, expansion_slash, List.length_cons] at hlen
      omega
    · rw [written_start rest hc, expansion, flatMap_trimmed ((c :: rest).splitOn chSlash), ne_eq, ne_eq,
        ← getLast_splitOn (List.cons_ne_nil c rest), List.self_eq_append_right, List.head?_cons, Option.some.injEq]
      simp [hc]

theorem trimmed_ne_nil {p : Bytes} (h : p ≠ []) : trimmed (p.splitOn chSlash) ≠ [] := by
  rw [trimmed]
  split
  · next hlast =>
    obtain ⟨front, hfront⟩ := List.getLast?_eq_some_iff.mp hlast
    rw [hfront, List.dropLast_concat]
    rintro rfl
    have hwhole : [chSlash].intercalate (p.splitOn chSlash) = p := List.intercalate_splitOn chSlash
    rw [hfront, List.nil_append, List.intercalate_singleton] at hwhole
    exact h hwhole.symm
  · exact List.splitOn_ne_nil _ _

theorem flatMap_expand_ne_nil {segments : List Bytes} (h : segments ≠ []) : segments.flatMap expand ≠ [] := by
  obtain ⟨segment, rest, rfl⟩ := List.exists_cons_of_ne_nil h
  rw [List.flatMap_cons]
  exact List.append_ne_nil_of_left_ne_nil (expand_ne_nil segment) _

theorem flatMap_expand_no_slash {segments : List Bytes} (h : ∀ segment ∈ segments, chSlash ∉ segment) :
    ∀ part ∈ segments.flatMap expand, chSlash ∉ part := by
  intro part hpart
  obtain ⟨segment, hmem, hpart⟩ := List.mem_flatMap.mp hpart
  exact expand_no_slash (h segment hmem) part hpart

theorem segmentsOf_written (rest : Bytes) : segmentsOf (pathOf (written rest)) = written rest := by
  rw [written]
  split
  · rfl
  · next h =>
    refine segmentsOf_pathOf (flatMap_expand_ne_nil (trimmed_ne_nil h)) (flatMap_expand_no_slash fun segment hmem => ?_)
    refine splitOn_no_slash (p := rest.dropWhile (· = chSlash)) segment ?_
    rw [trimmed] at hmem
    split at hmem
    · exact (List.dropLast_sublist _).subset hmem
    · exact hmem

theorem segmentsOf_expansion (rest : Bytes) : segmentsOf (pathOf (expansion rest)) = expansion rest :=
  segmentsOf_pathOf (flatMap_expand_ne_nil (List.splitOn_ne_nil _ _)) (flatMap_expand_no_slash splitOn_no_slash)

/-- What the parser writes for a field has the segments that the field's stand for. -/
def KeepsPath (field : Bytes) : Prop := ∃ out, normalizeFieldPath field = some out ∧ Expanded field (segmentsOf out)

/-- A field that neither begins nor ends with an empty segment; `/` alone is one. -/
structure FramedField where
  rest : Bytes
  head_ne : rest.head? ≠ some chSlash
  last_ne : rest.getLast? ≠ some chSlash

def FramedField.text (f : FramedField) : Bytes := chSlash :: f.rest

theorem FramedField.normalize (f : FramedField) : normalizeFieldPath f.text = some (pathOf (expansion f.rest)) := by
  rw [FramedField.text, normalize_written, (written_eq_iff f.rest).mpr ⟨f.head_ne, f.last_ne⟩]

theorem expansion_expansion (rest : Bytes) : (expansion rest).flatMap expand = expansion rest := by
  have hparts : ∀ {parts : List Bytes}, (∀ part ∈ parts, expand part = [part]) → parts.flatMap expand = parts := by
    intro parts h
    induction parts with
    | nil => rfl
    | cons part parts ih =>
      rw [List.flatMap_cons, h part List.mem_cons_self, ih fun p hp => h p (List.mem_cons_of_mem _ hp)]
      rfl
  refine hparts fun part hpart => ?_
  obtain ⟨segment, -, hpart⟩ := List.mem_flatMap.mp hpart
  exact expand_part part hpart

/-- Neither end of what such a field stands for is empty, unless the field is `/`. -/
theorem FramedField.ends (f : FramedField) (h : f.rest ≠ []) :
    (expansion f.rest).head? ≠ some [] ∧ (expansion f.rest).getLast? ≠ some [] := by
  obtain ⟨rest, hhead, hlast⟩ := f
  constructor
  · obtain ⟨c, rest, rfl⟩ := List.exists_cons_of_ne_nil h
    have hc : c ≠ chSlash := fun hc => hhead (congrArg some hc)
    obtain ⟨first, segments, hsplit⟩ := List.exists_cons_of_ne_nil (List.splitOn_ne_nil chSlash rest)
    obtain ⟨part, parts, hparts⟩ := List.exists_cons_of_ne_nil (expand_ne_nil (c :: first))
    have hpart := expand_parts (List.cons_ne_nil c first) part (by rw [hparts]; exact List.mem_cons_self)
    rw [expansion, List.splitOn_cons_eq_if_modifyHead, if_neg (by simpa using hc), hsplit, List.modifyHead_cons,
      List.flatMap_cons, hparts]
    exact fun heq => hpart (Option.some.inj heq)
  · rw [ne_eq, ← getLast_splitOn h] at hlast
    obtain ⟨front, segment, hsplit⟩ : ∃ front segment, rest.splitOn chSlash = front ++ [segment] :=
      ⟨_, _, (List.dropLast_append_getLast (List.splitOn_ne_nil _ _)).symm⟩
    rw [hsplit, List.getLast?_concat] at hlast
    have hsegment : segment ≠ [] := fun hnil => hlast (congrArg some hnil)
    intro heq
    rw [expansion, hsplit, List.flatMap_append, List.flatMap_singleton,
      List.getLast?_append_of_ne_nil _ (expand_ne_nil segment)] at heq
    exact expand_parts hsegment [] (List.mem_of_getLast? heq) rfl

/-- What is written for such a field is such a field, and stands for the same. -/
theorem FramedField.again (f : FramedField) : normalizeFieldPath (pathOf (expansion f.rest)) =
    some (pathOf (expansion f.rest)) := by
  by_cases h : f.rest = []
  · rw [h]
    rfl
  · obtain ⟨hhead, hlast⟩ := f.ends h
    have hsegments := segmentsOf_expansion f.rest
    obtain ⟨part, parts, hparts⟩ := List.exists_cons_of_ne_nil
      (flatMap_expand_ne_nil (List.splitOn_ne_nil chSlash f.rest))
    change expansion f.rest = part :: parts at hparts
    rw [hparts, pathOf_intercalate] at hsegments ⊢
    obtain ⟨inner, hinner⟩ : ∃ inner, inner = [chSlash].intercalate (part :: parts) := ⟨_, rfl⟩
    rw [← hinner] at hsegments ⊢
    change inner.splitOn chSlash = part :: parts at hsegments
    have hexpansion : expansion inner = part :: parts := by
      rw [expansion, hsegments, ← hparts, expansion_expansion]
    have hframed : inner.head? ≠ some chSlash ∧ inner.getLast? ≠ some chSlash := by
      constructor
      · intro hslash
        obtain ⟨tail, rfl⟩ := List.head?_eq_some_iff.mp hslash
        rw [expansion_slash, ← hparts] at hexpansion
        exact hhead (by rw [← hexpansion]; rfl)
      · intro hslash
        have hne : inner ≠ [] := by
          rintro rfl
          cases hslash
        have hempty := (getLast_splitOn hne).mpr hslash
        rw [hsegments, ← hparts] at hempty
        exact hlast hempty
    rw [normalize_written, (written_eq_iff inner).mpr hframed, hexpansion, pathOf_intercalate, ← hinner]

/-- **The parser keeps the path of a field** exactly where neither the first nor the last segment of the field is
empty: there the path that it writes has the segments that the field's stand for. What it writes for such fields it
writes again as it is, and it writes the same for two of them only if they stand for the same segments. -/
theorem path_kept_iff (rest : Bytes) (f g : FramedField) :
    (KeepsPath (chSlash :: rest) ↔ rest.head? ≠ some chSlash ∧ rest.getLast? ≠ some chSlash) ∧
    (normalizeFieldPath f.text).bind normalizeFieldPath = normalizeFieldPath f.text ∧
    (normalizeFieldPath f.text = normalizeFieldPath g.text ↔
      ∀ parts, Expanded f.text parts ↔ Expanded g.text parts) := by
  refine ⟨?_, ?_, ?_⟩
  · rw [← written_eq_iff]
    constructor
    · rintro ⟨out, hout, hexpanded⟩
      obtain rfl := Option.some.inj ((normalize_written rest).symm.trans hout)
      rw [expanded_iff, segmentsOf_written] at hexpanded
      exact hexpanded
    · intro h
      refine ⟨_, normalize_written rest, ?_⟩
      rw [expanded_iff, segmentsOf_written]
      exact h
  · rw [f.normalize, Option.bind_some, f.again]
  · have hparts : ∀ (h : FramedField) parts, Expanded h.text parts ↔ parts = expansion h.rest :=
      fun h parts => expanded_iff
    rw [f.normalize, g.normalize, Option.some.injEq]
    constructor
    · intro h
      have hsame : expansion f.rest = expansion g.rest := by
        rw [← segmentsOf_expansion f.rest, h, segmentsOf_expansion]
      exact fun parts => by rw [hparts, hparts, hsame]
    · intro h
      rw [(hparts g _).mp ((h _).mp ((hparts f _).mpr rfl))]

/-- `//a` is taken for `/a`, a path of one segment less. -/
theorem empty_segment_lost : normalizeFieldPath (ascii "//a") = some (ascii "/a") ∧
    normalizeFieldPath (ascii "/a") = some (ascii "/a") ∧ ¬ KeepsPath (ascii "//a") ∧
      Expanded (ascii "/a") [ascii "a"] ∧ ¬ Expanded (ascii "//a") [ascii "a"] := by
  have hslash : normalizeFieldPath (ascii "//a") = some (ascii "/a") := by decide
  have hno : ¬ Expanded (ascii "//a") [ascii "a"] := fun h => absurd (expanded_iff.mp h) (by decide +kernel)
  refine ⟨hslash, by decide, ?_, expanded_iff.mpr (by decide +kernel), hno⟩
  rintro ⟨out, hout, hexpanded⟩
  obtain rfl := Option.some.inj (hslash.symm.trans hout)
  exact hno hexpanded

end Lql.Selector
