import Lql.Mutation.Text

/-!
# Trimming, cutting and parsing in parts

Blanks around a text or a part make no difference, and a scanner that does not cut passes a text on to its first part.
-/

namespace Lql.Mutation

open Selector (ascii)

/-! ## Trimming -/

/-- A text without the blanks behind it. -/
def rtrim (text : Bytes) : Bytes := ((text.reverse).dropWhile mutationSpace).reverse

theorem trim_eq (text : Bytes) : trim text = rtrim (text.dropWhile mutationSpace) := rfl

theorem rtrim_nil : rtrim [] = [] := rfl

/-- A text that is not blank starts with blanks and a byte that is none. -/
theorem exists_start {text : Bytes} (h : text.all mutationSpace = false) : ∃ blanks c rest,
    text = blanks ++ c :: rest ∧ blanks.all mutationSpace = true ∧ mutationSpace c = false := by
  induction text with
  | nil => cases h
  | cons c text ih =>
    cases hc : mutationSpace c with
    | false => exact ⟨[], c, text, rfl, rfl, hc⟩
    | true =>
      rw [List.all_cons, hc, Bool.true_and] at h
      obtain ⟨blanks, c', rest, rfl, hblanks, hc'⟩ := ih h
      exact ⟨c :: blanks, c', rest, rfl, by rw [List.all_cons, hc, hblanks]; rfl, hc'⟩

theorem dropWhile_start {a rest : Bytes} {c : UInt8} (hblanks : a.all mutationSpace = true)
    (hc : mutationSpace c = false) : (a ++ c :: rest).dropWhile mutationSpace = c :: rest := by
  induction a with
  | nil => rw [List.nil_append, List.dropWhile_cons_of_neg (by rw [hc]; exact Bool.false_ne_true)]
  | cons b a ih =>
    rw [List.all_cons, Bool.and_eq_true] at hblanks
    rw [List.cons_append, List.dropWhile_cons_of_pos hblanks.1, ih hblanks.2]

theorem dropWhile_blank {text : Bytes} (h : text.all mutationSpace = true) : text.dropWhile mutationSpace = [] := by
  have happ : (text ++ []).dropWhile mutationSpace = _ := List.dropWhile_append_of_pos (List.all_eq_true.mp h)
  rwa [List.append_nil] at happ

theorem rtrim_blank {text : Bytes} (h : text.all mutationSpace = true) : rtrim text = [] := by
  rw [rtrim, dropWhile_blank (by rw [List.all_reverse]; exact h), List.reverse_nil]

/-- Blanks are taken away behind the last byte that is none. -/
theorem rtrim_append (text : Bytes) (c : UInt8) (rest : Bytes) (hc : mutationSpace c = false) :
    rtrim (text ++ c :: rest) = text ++ c :: rtrim rest := by
  have hrev : (text ++ c :: rest).reverse = rest.reverse ++ c :: text.reverse := by
    rw [List.reverse_append, List.reverse_cons, List.append_assoc, List.singleton_append]
  rw [rtrim, hrev, rtrim]
  cases hrest : rest.all mutationSpace with
  | true =>
    rw [dropWhile_start (by rw [List.all_reverse]; exact hrest) hc,
      dropWhile_blank (by rw [List.all_reverse]; exact hrest), List.reverse_cons, List.reverse_reverse,
      List.reverse_nil]
  | false =>
    have hreverse : rest.reverse.all mutationSpace = false := by rw [List.all_reverse, hrest]
    obtain ⟨blanks, b, more, heq, hblanks, hb⟩ := exists_start hreverse
    rw [heq, dropWhile_start hblanks hb, List.append_assoc, List.cons_append, dropWhile_start hblanks hb,
      ← List.cons_append, List.reverse_append, List.reverse_cons, List.reverse_reverse, List.append_assoc,
      List.singleton_append]

theorem trim_blank {text : Bytes} (h : text.all mutationSpace = true) : trim text = [] := by
  rw [trim_eq, dropWhile_blank h, rtrim_nil]

theorem trim_start {a rest : Bytes} {c : UInt8} (hblanks : a.all mutationSpace = true)
    (hc : mutationSpace c = false) : trim (a ++ c :: rest) = c :: rtrim rest := by
  rw [trim_eq, dropWhile_start hblanks hc]
  exact rtrim_append [] c rest hc

theorem rtrim_rtrim (text : Bytes) : rtrim (rtrim text) = rtrim text := by
  cases h : text.all mutationSpace with
  | true => rw [rtrim_blank h]; rfl
  | false =>
    have hreverse : text.reverse.all mutationSpace = false := by rw [List.all_reverse, h]
    obtain ⟨blanks, c, rest, heq, hblanks, hc⟩ := exists_start hreverse
    rw [rtrim, rtrim, List.reverse_reverse, heq, dropWhile_start hblanks hc]
    exact congrArg List.reverse (dropWhile_start (a := []) rfl hc)

/-- Blanks around a text make no difference to what is left. -/
theorem trim_rtrim (text : Bytes) : trim (rtrim text) = trim text := by
  cases h : text.all mutationSpace with
  | true => rw [rtrim_blank h, trim_blank h]; rfl
  | false =>
    obtain ⟨blanks, c, rest, rfl, hblanks, hc⟩ := exists_start h
    rw [rtrim_append blanks c rest hc, trim_start hblanks hc, trim_start hblanks hc, rtrim_rtrim]

theorem trim_append_left {blanks : Bytes} (text : Bytes) (h : blanks.all mutationSpace = true) :
    trim (blanks ++ text) = trim text := by
  rw [trim_eq, trim_eq, List.dropWhile_append_of_pos (List.all_eq_true.mp h)]

theorem trim_trim (text : Bytes) : trim (trim text) = trim text := by
  cases h : text.all mutationSpace with
  | true => rw [trim_blank h]; rfl
  | false =>
    obtain ⟨blanks, c, rest, rfl, hblanks, hc⟩ := exists_start h
    rw [trim_start hblanks hc]
    exact (trim_start (a := []) rfl hc).trans (by rw [rtrim_rtrim])

theorem exists_rtrim (text : Bytes) : ∃ blanks, text = rtrim text ++ blanks ∧ blanks.all mutationSpace = true := by
  have hsplit := congrArg List.reverse (List.takeWhile_append_dropWhile (p := mutationSpace) (l := text.reverse))
  rw [List.reverse_append, List.reverse_reverse] at hsplit
  exact ⟨_, hsplit.symm, by rw [List.all_reverse]; exact List.all_takeWhile⟩

theorem trim_subset (text : Bytes) : trim text ⊆ text := by
  intro c hc
  rw [trim, List.mem_reverse] at hc
  exact (List.dropWhile_suffix _).subset (List.mem_reverse.mp ((List.dropWhile_suffix _).subset hc))

theorem cstr_eq {text : Bytes} (h : ∀ c ∈ text, c ≠ 0) : Temporal.cstr text = text := by
  have happ : (text ++ []).takeWhile (· ≠ 0) = _ :=
    List.takeWhile_append_of_pos fun c hc => decide_eq_true (h c hc)
  rwa [List.append_nil, List.takeWhile_nil, List.append_nil] at happ

/-! ## Cutting -/

theorem foldr_pushByte (text part : Bytes) (parts : List Bytes) (s : ScanState) :
    text.foldr pushByte (part :: parts, s) = ((text ++ part) :: parts, s) := by
  induction text with
  | nil => rfl
  | cons c text ih => rw [List.foldr_cons, ih]; rfl

theorem cutParts_ne_nil (s : ScanState) (text : Bytes) : (cutParts s text).1 ≠ [] := by
  have hpush : ∀ (c : UInt8) (r : List Bytes × ScanState), (pushByte c r).1 ≠ [] := by
    rintro c ⟨_ | ⟨p, ps⟩, s⟩ <;> exact List.cons_ne_nil _ _
  fun_cases cutParts s text with
  | case1 => exact List.cons_ne_nil _ _
  | case2 => exact List.cons_ne_nil _ _
  | case3 => exact hpush _ _
  | case4 => exact hpush _ _
  | case5 => exact List.cons_ne_nil _ _

theorem pushByte_length (c : UInt8) (s : ScanState) (text : Bytes) :
    (pushByte c (cutParts s text)).1.length = (cutParts s text).1.length := by
  rcases hcut : cutParts s text with ⟨_ | ⟨part, parts⟩, last⟩
  · exact absurd (congrArg Prod.fst hcut) (cutParts_ne_nil _ _)
  · rfl

theorem cutParts_subset (text : Bytes) : ∀ (s : ScanState), ∀ part ∈ (cutParts s text).1, part ⊆ text := by
  have hpush : ∀ (c : UInt8) (rest : Bytes) (r : List Bytes × ScanState), (∀ part ∈ r.1, part ⊆ rest) →
      ∀ part ∈ (pushByte c r).1, part ⊆ c :: rest := by
    intro c rest r h part hpart
    rcases r with ⟨_ | ⟨p, ps⟩, s⟩
    · rw [List.mem_singleton.mp hpart]
      exact List.cons_subset_cons c (List.nil_subset _)
    · rcases List.mem_cons.mp hpart with rfl | hmem
      · exact List.cons_subset_cons c (h p (List.mem_cons_self ..))
      · exact List.subset_cons_of_subset c (h part (List.mem_cons_of_mem _ hmem))
  intro s
  fun_induction cutParts s text with
  | case1 s =>
    intro part hpart
    rw [List.mem_singleton.mp hpart]
    exact List.nil_subset _
  | case2 s c _ =>
    intro part hpart
    rw [List.mem_singleton.mp hpart]
    exact List.Subset.refl _
  | case3 s c _ c' rest ih => exact hpush c _ _ (hpush c' _ _ ih)
  | case4 s c rest _ s' _ ih => exact hpush c _ _ ih
  | case5 s c rest _ _ parts last heq ih =>
    intro part hpart
    rcases List.mem_cons.mp hpart with rfl | hmem
    · exact List.nil_subset _
    · rw [heq] at ih
      exact List.subset_cons_of_subset c (ih part hmem)

theorem splitEqual_eq {text path value : Bytes} (h : splitEqual text = some (path, value)) :
    text = path ++ 0x3d :: value := by
  induction text generalizing path with
  | nil => cases h
  | cons c text ih =>
    rw [splitEqual] at h
    split at h
    · next hc =>
      cases h
      rw [hc]
      rfl
    · obtain ⟨⟨path', value'⟩, h', heq⟩ := Option.map_eq_some_iff.mp h
      cases heq
      rw [ih h', List.cons_append]

theorem findBrace_none {text : Bytes} (h : chRBrace ∉ text) : findBrace text = none := by
  rw [findBrace, if_pos]
  exact fun hlast => h (List.mem_of_getLast? hlast)

/-! ## Parsing -/

section

variable {δ : Type} [Doubles δ]

theorem fail_ok {α : Type} {message : String} {clock : Clock} {r : α × Clock} : (fail message : Parse α) clock ≠ .ok r :=
  fun h => nomatch (Lib.run_lift_ok.mp h).1

omit [Doubles δ] in
theorem parseTrimmed_trim (parse : Bytes → Parse (List (Action δ))) (text : Bytes) :
    parseTrimmed parse (trim text) = parseTrimmed parse text := by
  rw [parseTrimmed, parseTrimmed, trim_trim]

omit [Doubles δ] in
/-- Blanks around the parts make no difference. -/
theorem parseParts_trim (parse : Bytes → Parse (List (Action δ))) (check : Parse Unit) {parts parts' : List Bytes}
    (h : parts.map trim = parts'.map trim) :
    parseParts (parseTrimmed parse) check parts = parseParts (parseTrimmed parse) check parts' := by
  have htrim : ∀ ps : List Bytes, parseParts (parseTrimmed parse) check ps =
      parseParts (parseTrimmed parse) check (ps.map trim) := by
    intro ps
    rw [← parseParts_attach]
    exact congrArg (fun f => parseParts f check ps) (funext fun p => (parseTrimmed_trim parse p).symm)
  rw [htrim, h, ← htrim]

omit [Doubles δ] in
theorem parseParts_cons (parse : Bytes → Parse (List (Action δ))) (part : Bytes) (rest : List Bytes) :
    parseParts parse (pure ()) (part :: rest) = (do
      let actions ← parse part
      let others ← parseParts parse (pure ()) rest
      pure (actions ++ others)) := by
  cases rest with
  | nil =>
    rw [parseParts, parseParts]
    simp only [pure_bind, List.append_nil, bind_pure]
  | cons next rest => rw [parseParts]

theorem parseInternal_texts (env : Env) {texts : List Bytes} (h : texts ≠ []) :
    parseInternal (δ := δ) env (texts.map some) = (do
      let actions ← parseLists env texts
      if actions.isEmpty then fail "mutation expressions are required" else pure actions) := by
  have hmap : (texts.map some).filterMap id = texts := by rw [List.filterMap_map]; exact List.filterMap_some
  rw [parseInternal, if_neg (by rw [List.map_eq_nil_iff]; exact h), if_neg (by simp), hmap]

theorem parseLists_single (env : Env) (text : Bytes) :
    parseLists (δ := δ) env [text] = parseExpressionList env text := by
  rw [parseLists, parseLists]
  simp only [pure_bind, List.append_nil, bind_pure]

end

end Lql.Mutation
