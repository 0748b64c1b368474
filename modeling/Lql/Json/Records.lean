import Lql.Json.Reading

/-!
# Newline-delimited documents

An input is a run of documents, none of them an array at the root, each followed by a line end
or the end of the input, with spaces before, between and after. A text has at most one reading as
such a run, and a parser finds it.
-/

namespace Lql.Json

open Lql.Scan (isSpace)

/-- What `lql_json_record_separator` passes by before the line end. -/
def isBlank (c : UInt8) : Bool := c = chSpace || c = chTab

/-- What may stand behind a document when `rest` comes next: blanks, then a line end, or the end
of the input. -/
def Separator (sep rest : Bytes) : Prop :=
  ∃ blanks, (∀ c ∈ blanks, isBlank c = true) ∧
    (sep = blanks ++ [chLF] ∨ sep = blanks ++ [chCR, chLF] ∨ (sep = blanks ∧ rest = []))

def Value.isArray : Value → Bool
  | .arr _ => true
  | _ => false

def Value.isObject : Value → Bool
  | .obj _ => true
  | _ => false

/-- A document of the input: what it is, where it starts and how it is written. -/
structure Entry where
  value : Value
  offset : Nat
  text : Bytes

/-- Read from offset `pos` on, the bytes are a run of these documents. -/
inductive Ndjson : Nat → Bytes → List Entry → Prop where
  | nil {pos : Nat} {w : Bytes} (hw : Spaces w) : Ndjson pos w []
  | cons {pos : Nat} {w text sep rest : Bytes} {v : Value} {entries : List Entry} (hw : Spaces w)
    (hv : v.Writes text) (hroot : v.isArray = false) (hsep : Separator sep rest)
    (hrest : Ndjson (pos + (w.length + text.length + sep.length)) rest entries) :
    Ndjson pos (w ++ (text ++ (sep ++ rest))) (⟨v, pos + w.length, text⟩ :: entries)

/-! ## The parser of a run -/

def separatorP : P Unit := fun f =>
  match f.rest.dropWhile isBlank with
  | [] => some ((), { f with rest := [] })
  | c :: rest =>
    if c = chLF then some ((), { f with rest })
    else if c = chCR then expectP chLF { f with rest }
    else none

/-- The document at the front of the input, what is left behind it, and what is left behind its
line end. -/
def recordP (bytes : Bytes) : Option (Value × Flat × Flat) :=
  match valueP (bytes.length + 1) { rest := bytes } with
  | none => none
  | some (v, mid) => (separatorP mid).map fun r => (v, mid, r.2)

def entriesP : Nat → Nat → Bytes → Option (List Entry)
  | 0, _, _ => none
  | fuel + 1, pos, bytes =>
    let rest := bytes.dropWhile isSpace
    if rest = [] then some []
    else if rest.head? = some chLBracket then none
    else
      match recordP rest with
      | none => none
      | some (v, mid, last) =>
        (entriesP fuel (pos + (bytes.length - last.rest.length)) last.rest).map fun entries =>
          ⟨v, pos + (bytes.length - rest.length), rest.take (rest.length - mid.rest.length)⟩ ::
            entries

theorem isBlank_space {c : UInt8} (h : isBlank c = true) : isSpace c = true := by
  simp only [isBlank, Bool.or_eq_true, decide_eq_true_eq] at h
  rcases h with rfl | rfl <;> decide

theorem separator_spaces {sep rest : Bytes} (h : Separator sep rest) : Spaces sep := by
  obtain ⟨blanks, hb, h⟩ := h
  have hblanks : Spaces blanks := fun c hc => isBlank_space (hb c hc)
  have hend : ∀ tail : Bytes, Spaces tail → Spaces (blanks ++ tail) := by
    intro tail ht c hc
    rcases List.mem_append.mp hc with hc | hc
    · exact hblanks c hc
    · exact ht c hc
  rcases h with rfl | rfl | ⟨rfl, -⟩
  · exact hend _ (List.all_eq_true.mp rfl)
  · exact hend _ (List.all_eq_true.mp rfl)
  · exact hblanks

theorem separatorP_sound {f f' : Flat} {u : Unit} (h : separatorP f = some (u, f')) :
    ∃ sep, Separator sep f'.rest ∧ f.rest = sep ++ f'.rest := by
  have hsplit := (List.takeWhile_append_dropWhile (p := isBlank) (l := f.rest)).symm
  have hb : ∀ c ∈ f.rest.takeWhile isBlank, isBlank c = true := fun c hc => List.mem_takeWhile_imp hc
  rw [separatorP] at h
  split at h
  · next hd =>
    cases h
    rw [hd, List.append_nil] at hsplit
    exact ⟨_, ⟨_, hb, .inr (.inr ⟨rfl, rfl⟩)⟩, by rw [List.append_nil]; exact hsplit⟩
  next c rest hd =>
  rw [hd] at hsplit
  split at h
  · next hc =>
    cases h
    refine ⟨_, ⟨_, hb, .inl rfl⟩, ?_⟩
    rw [List.append_assoc, List.singleton_append, ← hc]
    exact hsplit
  split at h
  · next hc =>
    have e := congrArg Flat.rest (expectP_eq_some h)
    refine ⟨_, ⟨_, hb, .inr (.inl rfl)⟩, ?_⟩
    rw [hc, show rest = chLF :: f'.rest from e] at hsplit
    rw [List.append_assoc]
    exact hsplit
  · cases h

theorem separatorP_complete {sep rest : Bytes} (h : Separator sep rest) (compact : Bool) :
    separatorP { rest := sep ++ rest, compact } = some ((), { rest, compact }) := by
  obtain ⟨blanks, hb, h⟩ := h
  have hdrop : ∀ c tail, isBlank c = false →
      (blanks ++ c :: tail).dropWhile isBlank = c :: tail := by
    intro c tail hc
    rw [List.dropWhile_append_of_pos hb]
    simp [List.dropWhile, hc]
  rcases h with rfl | rfl | ⟨rfl, rfl⟩
  · rw [separatorP]
    simp only [List.append_assoc, List.singleton_append, hdrop chLF rest (by decide)]
    rfl
  · rw [separatorP]
    have : blanks ++ [chCR, chLF] ++ rest = blanks ++ chCR :: (chLF :: rest) := by simp
    simp only [this, hdrop chCR (chLF :: rest) (by decide)]
    rfl
  · rw [separatorP]
    have : (sep ++ []).dropWhile isBlank = [] := by
      rw [List.dropWhile_append_of_pos hb]
      rfl
    simp only [this]

theorem separator_stops {sep rest : Bytes} (h : Separator sep rest) : Stops (sep ++ rest) := by
  have hspaces := separator_spaces h
  cases sep with
  | nil =>
    obtain ⟨blanks, -, h⟩ := h
    rcases h with h | h | ⟨-, rfl⟩
    · exact absurd h (by simp)
    · exact absurd h (by simp)
    · exact fun c hc => nomatch hc
  | cons c sep => exact stops_space (hspaces c List.mem_cons_self) _

/-! ## The reading of a text -/

/-- The document at the front is written as what was taken, and the watch tells whether that is
the document without spaces. -/
theorem recordP_sound {bytes : Bytes} {v : Value} {mid last : Flat}
    (h : recordP bytes = some (v, mid, last)) :
    ∃ text sep, v.Writes text ∧ Separator sep last.rest ∧ bytes = text ++ (sep ++ last.rest) ∧
      mid.rest = sep ++ last.rest ∧ mid.compact = decide (text.length = v.compact.length) := by
  rw [recordP] at h
  cases hv : valueP (bytes.length + 1) { rest := bytes } with
  | none => rw [hv] at h; cases h
  | some r =>
    obtain ⟨v', mid'⟩ := r
    rw [hv] at h
    dsimp only at h
    cases hs : separatorP mid' with
    | none => rw [hs] at h; cases h
    | some r' =>
      rw [hs] at h
      cases h
      obtain ⟨text, hw, hwrote⟩ := valueP_sound _ _ _ _ hv
      obtain ⟨sep, hsep, hrest⟩ := separatorP_sound (u := r'.1) hs
      refine ⟨text, sep, hw, hsep, ?_, hrest, ?_⟩
      · rw [← hrest]
        exact hwrote.rest
      · simpa using hwrote.compact

theorem recordP_complete {text sep rest : Bytes} {v : Value} (hv : v.Writes text)
    (hs : Separator sep rest) :
    ∃ mid last, recordP (text ++ (sep ++ rest)) = some (v, mid, last) ∧ mid.rest = sep ++ rest ∧
      last.rest = rest := by
  obtain ⟨compact, h⟩ := v.reads_back text (sep ++ rest) ((text ++ (sep ++ rest)).length + 1) hv
    (separator_stops hs) (by rw [List.length_append]; omega) true
  refine ⟨{ rest := sep ++ rest, compact }, { rest, compact }, ?_, rfl, rfl⟩
  rw [recordP, h]
  simp only [separatorP_complete hs, Option.map_some]

/-- The first byte tells the containers apart. -/
theorem Value.head_kind {v : Value} {text : Bytes} (h : v.Writes text) :
    (v.isArray = true ↔ text.head? = some chLBracket) ∧
      (v.isObject = true ↔ text.head? = some chLBrace) := by
  have hneither : ∀ c, text.head? = some c → c ≠ chLBracket → c ≠ chLBrace → v.isArray = false →
      v.isObject = false → (v.isArray = true ↔ text.head? = some chLBracket) ∧
        (v.isObject = true ↔ text.head? = some chLBrace) := by
    intro c hc h1 h2 h3 h4
    rw [hc, h3, h4, Option.some.injEq, Option.some.injEq]
    exact ⟨⟨fun h => (nomatch h), fun h => absurd h h1⟩, ⟨fun h => (nomatch h), fun h => absurd h h2⟩⟩
  cases v with
  | obj members =>
    obtain ⟨w, t, rfl, -⟩ := h
    exact ⟨⟨fun h => (nomatch h), fun h => absurd (Option.some.inj h) (by decide)⟩,
      ⟨fun _ => rfl, fun _ => rfl⟩⟩
  | arr elements =>
    obtain ⟨w, t, rfl, -⟩ := h
    exact ⟨⟨fun _ => rfl, fun _ => rfl⟩,
      ⟨fun h => (nomatch h), fun h => absurd (Option.some.inj h) (by decide)⟩⟩
  | str s =>
    obtain ⟨rfl, -⟩ := h
    exact hneither chQuote rfl (by decide) (by decide) rfl rfl
  | num token =>
    obtain ⟨rfl, h⟩ := h
    obtain ⟨c, t, rfl, hc⟩ := number_head h
    refine hneither c rfl ?_ ?_ rfl rfl
    · rintro rfl
      exact absurd hc (by decide)
    · rintro rfl
      exact absurd hc (by decide)
  | lit l =>
    rw [show text = l.text from h] at hneither ⊢
    cases l with
    | tt => exact hneither chT rfl (by decide) (by decide) rfl rfl
    | ff => exact hneither chF rfl (by decide) (by decide) rfl rfl
    | nul => exact hneither chN rfl (by decide) (by decide) rfl rfl

theorem Value.isArray_head {v : Value} {text : Bytes} (h : v.Writes text) :
    v.isArray = true ↔ text.head? = some chLBracket := (Value.head_kind h).1

theorem Value.isObject_head {v : Value} {text : Bytes} (h : v.Writes text) :
    v.isObject = true ↔ text.head? = some chLBrace := (Value.head_kind h).2

theorem entriesP_sound : ∀ (fuel pos : Nat) (bytes : Bytes) (entries : List Entry),
    entriesP fuel pos bytes = some entries → Ndjson pos bytes entries
  | 0, _, _, _, h => by cases h
  | fuel + 1, pos, bytes, entries, h => by
    have hsplit := (List.takeWhile_append_dropWhile (p := isSpace) (l := bytes)).symm
    have hw : Spaces (bytes.takeWhile isSpace) := fun c hc => List.mem_takeWhile_imp hc
    rw [entriesP] at h
    split at h
    · next hd =>
      cases h
      rw [hd, List.append_nil] at hsplit
      rw [hsplit]
      exact .nil hw
    split at h
    · cases h
    next hroot =>
    cases hr : recordP (bytes.dropWhile isSpace) with
    | none => rw [hr] at h; cases h
    | some r =>
      obtain ⟨v, mid, last⟩ := r
      rw [hr] at h
      cases he : entriesP fuel (pos + (bytes.length - last.rest.length)) last.rest with
      | none => simp only [he] at h; cases h
      | some es =>
        simp only [he, Option.map_some, Option.some.injEq] at h
        obtain ⟨text, sep, hv, hsep, hrest, hmid, -⟩ := recordP_sound hr
        have ih := entriesP_sound fuel _ _ _ he
        have hlen : bytes.length = (bytes.takeWhile isSpace).length +
            (text.length + (sep.length + last.rest.length)) := by
          conv_lhs => rw [hsplit, hrest]
          simp only [List.length_append]
        have hdrop : (bytes.dropWhile isSpace).length =
            text.length + (sep.length + last.rest.length) := by
          rw [hrest]
          simp only [List.length_append]
        have hroot' : v.isArray = false := by
          cases hv' : v.isArray with
          | false => rfl
          | true =>
            obtain ⟨c, t, rfl, -⟩ := hv.head
            rw [hrest] at hroot
            exact absurd ((Value.isArray_head hv).mp hv') hroot
        have htext : (bytes.dropWhile isSpace).take
            ((bytes.dropWhile isSpace).length - mid.rest.length) = text := by
          rw [hdrop, hmid, hrest, List.length_append, Nat.add_sub_cancel, List.take_left]
        rw [htext, hdrop] at h
        rw [← h, hsplit, hrest]
        have hpos : pos + (bytes.length - (text.length + (sep.length + last.rest.length))) =
            pos + (bytes.takeWhile isSpace).length := by omega
        have hpos' : pos + (bytes.length - last.rest.length) =
            pos + ((bytes.takeWhile isSpace).length + text.length + sep.length) := by omega
        rw [← hrest, ← hsplit, hpos]
        rw [hpos'] at ih
        have := Ndjson.cons hw hv hroot' hsep ih
        rwa [← hrest, ← hsplit] at this

theorem dropWhile_spaces {w rest : Bytes} (hw : Spaces w) (hr : Goes rest) :
    (w ++ rest).dropWhile isSpace = rest := by
  obtain ⟨c, t, rfl, hc⟩ := hr
  rw [List.dropWhile_append_of_pos hw]
  simp [List.dropWhile, hc]

theorem entriesP_complete {pos : Nat} {bytes : Bytes} {entries : List Entry}
    (h : Ndjson pos bytes entries) : ∀ fuel, bytes.length < fuel →
      entriesP fuel pos bytes = some entries := by
  induction h with
  | @nil pos w hw =>
    intro fuel hf
    cases fuel with
    | zero => exact absurd hf (Nat.not_lt_zero _)
    | succ fuel =>
      have hdrop : w.dropWhile isSpace = [] := by
        rw [← List.append_nil w, List.dropWhile_append_of_pos hw]
        rfl
      rw [entriesP]
      rw [if_pos hdrop]
  | @cons pos w text sep rest v entries hw hv hroot hsep _ ih =>
    intro fuel hf
    cases fuel with
    | zero => exact absurd hf (Nat.not_lt_zero _)
    | succ fuel =>
      obtain ⟨c, t, htext, hc, -⟩ := hv.head
      have hpos : 0 < text.length := by rw [htext]; exact Nat.succ_pos _
      have hdrop := dropWhile_spaces hw (hv.goes (sep ++ rest))
      obtain ⟨mid, last, hrec, hmid, hlast⟩ := recordP_complete hv hsep
      have hne : text ++ (sep ++ rest) ≠ [] := by rw [htext]; simp
      have hhead : (text ++ (sep ++ rest)).head? ≠ some chLBracket := by
        intro he
        have : v.isArray = true := (Value.isArray_head hv).mpr (by rw [htext] at he ⊢; exact he)
        rw [hroot] at this
        cases this
      simp only [List.length_append] at hf
      have ih := ih fuel (by omega)
      rw [entriesP]
      rw [hdrop, if_neg hne, if_neg hhead, hrec]
      dsimp only
      have hp : pos + ((w ++ (text ++ (sep ++ rest))).length - rest.length) =
          pos + (w.length + text.length + sep.length) := by
        simp only [List.length_append]
        omega
      have hp' : pos + ((w ++ (text ++ (sep ++ rest))).length - (text ++ (sep ++ rest)).length) =
          pos + w.length := by
        simp only [List.length_append]
        omega
      have ht : (text ++ (sep ++ rest)).take ((text ++ (sep ++ rest)).length - mid.rest.length) =
          text := by
        rw [hmid, List.length_append, Nat.add_sub_cancel, List.take_left]
      rw [hlast, hp, ih, hp', ht]
      rfl

/-- **A text has one reading as a run of documents, and the parser finds it.** -/
theorem entriesP_iff {fuel pos : Nat} {bytes : Bytes} {entries : List Entry}
    (hf : bytes.length < fuel) : entriesP fuel pos bytes = some entries ↔ Ndjson pos bytes entries :=
  ⟨entriesP_sound _ _ _ _, fun h => entriesP_complete h fuel hf⟩

theorem Ndjson.unique {pos : Nat} {bytes : Bytes} {as bs : List Entry} (ha : Ndjson pos bytes as)
    (hb : Ndjson pos bytes bs) : as = bs := by
  have h1 := entriesP_complete ha _ (Nat.lt_succ_self _)
  have h2 := entriesP_complete hb _ (Nat.lt_succ_self _)
  rw [h1] at h2
  exact Option.some.inj h2

/-- An input that never has more than `limit` containers open holds documents of that nesting. -/
theorem Ndjson.fits {limit pos : Nat} {bytes : Bytes} {entries : List Entry}
    (h : Ndjson pos bytes entries) : nests limit .outside 0 bytes = true →
    ∀ e ∈ entries, e.value.fits limit 0 = true := by
  induction h with
  | nil hw =>
    intro _ e he
    cases he
  | cons hw hv hroot hsep _ ih =>
    intro hn
    rw [nests_spaces _ _ hw] at hn
    obtain ⟨hfits, hn⟩ := Value.fits_text limit _ 0 _ _ hv hn
    rw [nests_spaces _ _ (separator_spaces hsep)] at hn
    exact List.forall_mem_cons.mpr ⟨hfits, ih hn⟩

end Lql.Json
