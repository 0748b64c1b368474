import Mathlib.Data.List.Perm.Basic
import Lql.Selector.Group

/-!
# How clauses are read

A list of clauses has a reading of its own: the plain clauses hold, each numbered group holds, and one of the
disjuncts does where there are any. The groups that the parser builds are the clauses, put together by their
numbers, and the selector they end as decides as the reading says, up to one point: `and.` in front of a
disjunct is taken for a disjunct.
-/

namespace Lql.Selector

/-- A clause with its wrappers. -/
inductive Clause where
  | indexed (join : Join) (index : Bytes) (c : Clause)
  | wrapped (w : Wrapper) (c : Clause)
  | plain (s : Selector)

namespace Clause

def size : Clause → Nat
  | indexed _ _ c => c.size + 1
  | wrapped _ c => c.size + 1
  | plain _ => 1

theorem size_pos (c : Clause) : 0 < c.size := by
  cases c <;> exact Nat.succ_pos _

/-- The group that a clause goes into. -/
def key? : Clause → Option (Join × Bytes)
  | indexed join index _ => some (join, index)
  | _ => none

/-- A clause is a disjunct of its list. -/
def isOr : Clause → Bool
  | indexed .or _ _ => true
  | wrapped .or _ => true
  | _ => false

/-- A clause that the parser takes for a disjunct: `and.` does not change what is behind it. -/
def orish : Clause → Bool
  | indexed join _ _ => join = .or
  | wrapped .or _ => true
  | wrapped .and c => c.orish
  | wrapped .not _ => false
  | plain _ => false

end Clause

/-- The clauses of one group, without its wrapper. -/
def members (key : Join × Bytes) (cs : List Clause) : List Clause :=
  cs.filterMap fun c =>
    match c with
    | .indexed join index c => if (join, index) = key then some c else none
    | _ => none

/-- What is to be read in a list of clauses. -/
def totalSize (cs : List Clause) : Nat := (cs.map Clause.size).sum

theorem totalSize_wrapped {cs : List Clause} {w : Wrapper} {c : Clause} (h : .wrapped w c ∈ cs) :
    totalSize [c] < totalSize cs := by
  obtain ⟨front, back, rfl⟩ := List.append_of_mem h
  simp only [totalSize, List.map_append, List.map_cons, List.map_nil, List.sum_append, List.sum_cons, List.sum_nil,
    Clause.size]
  omega

theorem totalSize_members_le (key : Join × Bytes) : ∀ cs : List Clause, totalSize (members key cs) ≤ totalSize cs
  | [] => Nat.le_refl 0
  | c :: cs => by
    have ih := totalSize_members_le key cs
    simp only [totalSize, members, List.filterMap_cons, List.map_cons, List.sum_cons] at ih ⊢
    split
    · omega
    · next c' he =>
      rw [List.map_cons, List.sum_cons]
      cases c with
      | plain _ => cases he
      | wrapped _ _ => cases he
      | indexed join index c0 =>
        dsimp only at he
        split at he
        · cases he
          rw [Clause.size]
          omega
        · cases he

theorem totalSize_members {cs : List Clause} {join : Join} {index : Bytes} {c : Clause}
    (h : .indexed join index c ∈ cs) : totalSize (members (join, index) cs) < totalSize cs := by
  obtain ⟨front, back, rfl⟩ := List.append_of_mem h
  have h1 := totalSize_members_le (join, index) front
  have h2 := totalSize_members_le (join, index) back
  simp only [totalSize, members, List.filterMap_append, List.filterMap_cons, if_true, List.map_append, List.map_cons,
    List.sum_append, List.sum_cons, Clause.size] at *
  omega

theorem mem_members {key : Join × Bytes} {cs : List Clause} {c : Clause} :
    c ∈ members key cs ↔ .indexed key.1 key.2 c ∈ cs := by
  rw [members, List.mem_filterMap]
  constructor
  · rintro ⟨c', hmem, he⟩
    cases c' with
    | plain _ => cases he
    | wrapped _ _ => cases he
    | indexed join index c0 =>
      dsimp only at he
      split at he
      · next hk =>
        cases he
        rwa [← hk]
      · cases he
  · intro h
    exact ⟨_, h, if_pos rfl⟩

theorem members_perm {cs cs' : List Clause} (h : cs.Perm cs') (key : Join × Bytes) :
    (members key cs).Perm (members key cs') := h.filterMap _

/-! ## The reading -/

section Reading

variable (route : Clause → Bool) (hit : SelectorKind → Payload → Bool)

/-- What a list of clauses says of a record. Without `orMode` all clauses hold that are no disjuncts, and one of
the disjuncts does where there are any; with `orMode` one of the clauses holds. A wrapped clause is a list of its
own, and so are the clauses of one group. -/
def reads (orMode : Bool) (cs : List Clause) : Bool :=
  let part (x : { c // c ∈ cs }) : Bool :=
    match x with
    | ⟨.plain s, _⟩ => s.decides hit
    | ⟨.wrapped .not c, _⟩ => !reads false [c]
    | ⟨.wrapped .and c, _⟩ => reads false [c]
    | ⟨.wrapped .or c, _⟩ => reads false [c]
    | ⟨.indexed join index _, _⟩ => reads false (members (join, index) cs)
  if orMode then cs.attach.any part
  else (cs.attach.all fun x => route x.1 || part x) && (!cs.any route || cs.attach.any fun x => route x.1 && part x)
termination_by totalSize cs
decreasing_by
  all_goals first
    | exact totalSize_wrapped ‹_›
    | exact totalSize_members ‹_›

/-- What one clause says, in the company of others. -/
def part (cs : List Clause) : Clause → Bool
  | .plain s => s.decides hit
  | .wrapped .not c => !reads route hit false [c]
  | .wrapped _ c => reads route hit false [c]
  | .indexed join index _ => reads route hit false (members (join, index) cs)

variable {route hit}

theorem reads_eq (orMode : Bool) (cs : List Clause) :
    reads route hit orMode cs =
      if orMode then cs.any (part route hit cs)
      else (cs.all fun c => route c || part route hit cs c) &&
        (!cs.any route || cs.any fun c => route c && part route hit cs c) := by
  have hany : ∀ p : Clause → Bool, cs.attach.any (fun x => p x.1) = cs.any p := fun p => by
    conv => rhs; rw [← List.attach_map_subtype_val cs, List.any_map]
    rfl
  have hall : ∀ p : Clause → Bool, cs.attach.all (fun x => p x.1) = cs.all p := fun p => by
    conv => rhs; rw [← List.attach_map_subtype_val cs, List.all_map]
    rfl
  have hpart : ∀ x : { c // c ∈ cs }, (match x with
      | ⟨.plain s, _⟩ => s.decides hit
      | ⟨.wrapped .not c, _⟩ => !reads route hit false [c]
      | ⟨.wrapped .and c, _⟩ => reads route hit false [c]
      | ⟨.wrapped .or c, _⟩ => reads route hit false [c]
      | ⟨.indexed join index _, _⟩ => reads route hit false (members (join, index) cs)) = part route hit cs x.1 := by
    rintro ⟨c, hc⟩
    cases c with
    | plain s => rfl
    | wrapped w c => cases w <;> rfl
    | indexed join index c => rfl
  rw [reads]
  simp only [hpart, hany]
  rw [hall fun c => route c || part route hit cs c, hany fun c => route c && part route hit cs c]

/-- A list of alternatives holds when one of its clauses does. -/
theorem reads_true (cs : List Clause) : reads route hit true cs = true ↔ ∃ c ∈ cs, part route hit cs c = true := by
  rw [reads_eq, if_pos rfl, List.any_eq_true]

theorem reads_false (cs : List Clause) : reads route hit false cs = true ↔
    (∀ c ∈ cs, route c = false → part route hit cs c = true) ∧
      ((∃ c ∈ cs, route c = true) → ∃ c ∈ cs, route c = true ∧ part route hit cs c = true) := by
  rw [reads_eq, if_neg Bool.false_ne_true, Bool.and_eq_true, List.all_eq_true, Bool.or_eq_true, Bool.not_eq_true',
    ← Bool.not_eq_true, List.any_eq_true, List.any_eq_true]
  simp only [Bool.or_eq_true, Bool.and_eq_true]
  refine and_congr (forall₂_congr fun c _ => ?_) ?_
  · cases route c <;> simp
  · rw [imp_iff_not_or]

/-- One clause alone is what its list says. -/
theorem reads_single (orMode : Bool) (c : Clause) : reads route hit orMode [c] = part route hit [c] c := by
  rw [reads_eq]
  cases orMode
  · cases hr : route c <;> simp [hr]
  · simp

/-- The order of the clauses does not matter to what they say. -/
theorem reads_perm {cs cs' : List Clause} (hp : cs.Perm cs') (orMode : Bool) :
    reads route hit orMode cs = reads route hit orMode cs' := by
  have hparts : ∀ c ∈ cs, part route hit cs c = part route hit cs' c := by
    intro c hc
    cases c with
    | plain s => rfl
    | wrapped w c => cases w <;> rfl
    | indexed join index c =>
      have := totalSize_members hc
      exact reads_perm (members_perm hp (join, index)) false
  rw [Bool.eq_iff_iff]
  cases orMode
  · simp only [reads_false, hp.mem_iff.symm]
    refine and_congr (forall₂_congr fun c hc => ?_) (imp_congr Iff.rfl (exists_congr fun c => and_congr_right fun hc => ?_))
    · rw [hparts c hc]
    · rw [hparts c hc]
  · simp only [reads_true, hp.mem_iff.symm]
    exact exists_congr fun c => and_congr_right fun hc => by rw [hparts c hc]
termination_by totalSize cs

end Reading

/-! ## Clauses from tokens -/

/-- The clause that a token is. -/
def parseClause (token : Bytes) : Except Err Clause :=
  match _h : parseIndexedWrapper token with
  | some (join, index, rest) => do
    let c ← parseClause rest
    .ok (.indexed join index c)
  | none =>
    match _h : parseSimpleWrapper token with
    | some (w, rest) => do
      let c ← parseClause rest
      .ok (.wrapped w c)
    | none => do
      let s ← parseOne token
      .ok (.plain s)
termination_by token.length
decreasing_by
  · exact parseIndexedWrapper_length ‹_›
  · exact parseSimpleWrapper_length ‹_›

/-- Put a clause into a group. -/
def appendClause (group : IndexedGroup) : Clause → Except Err IndexedGroup
  | .indexed join index c => do
    let groups ← ensureIndexedGroup join index (appendClause · c) group.groups
    .ok { group with groups }
  | .wrapped w c => do
    let wrapped ← appendClause (.plainNew w.kind) c
    appendPlainGroupNode group (finalizeIndexedGroup (w = .or) wrapped)
  | .plain s => appendPlainGroupNode group s

theorem bind_ok_iff {α β : Type} {x : Except Err α} {f : α → Except Err β} {b : β} :
    x >>= f = .ok b ↔ ∃ a, x = .ok a ∧ f a = .ok b := by
  cases x with
  | error e => exact ⟨nofun, fun ⟨_, h, _⟩ => nomatch h⟩
  | ok a => exact ⟨fun h => ⟨a, rfl, h⟩, fun ⟨_, h, hf⟩ => by cases h; exact hf⟩

/-- A step that each group would begin with can come first. -/
theorem ensure_bind {α : Type} {join : Join} {index : Bytes} {x : Except Err α}
    {f : α → IndexedGroup → Except Err IndexedGroup} : ∀ groups : List IndexedGroup,
      ensureIndexedGroup join index (fun g => x >>= fun a => f a g) groups =
        x >>= fun a => ensureIndexedGroup join index (f a) groups
  | [] => by
    cases x <;> rfl
  | g :: rest => by
    simp only [ensureIndexedGroup]
    split
    · cases x <;> rfl
    · rw [ensure_bind rest]
      cases x <;> rfl

section Tokens

variable {token rest index : Bytes} {join : Join} {w : Wrapper}

theorem parseClause_indexed (h : parseIndexedWrapper token = some (join, index, rest)) :
    parseClause token = (parseClause rest).map (.indexed join index) := by
  rw [parseClause]
  split
  · next h' =>
    rw [h] at h'
    cases h'
    cases parseClause rest <;> rfl
  · next h' =>
    rw [h] at h'
    cases h'

theorem parseClause_wrapped (hi : parseIndexedWrapper token = none) (h : parseSimpleWrapper token = some (w, rest)) :
    parseClause token = (parseClause rest).map (.wrapped w) := by
  rw [parseClause]
  split
  · next h' =>
    rw [hi] at h'
    cases h'
  split
  · next h' =>
    rw [h] at h'
    cases h'
    cases parseClause rest <;> rfl
  · next h' =>
    rw [h] at h'
    cases h'

theorem parseClause_plain (hi : parseIndexedWrapper token = none) (h : parseSimpleWrapper token = none) :
    parseClause token = (parseOne token).map .plain := by
  rw [parseClause]
  split
  · next h' =>
    rw [hi] at h'
    cases h'
  split
  · next h' =>
    rw [h] at h'
    cases h'
  · cases parseOne token <;> rfl

/-- The parser puts the clause that a token is into the group. -/
theorem appendTokenToGroup_eq (group : IndexedGroup) (token : Bytes) :
    appendTokenToGroup group token = parseClause token >>= appendClause group := by
  rw [appendTokenToGroup]
  split
  · next join index rest hi =>
    have := parseIndexedWrapper_length hi
    have hrest : (fun g => appendTokenToGroup g rest) = fun g => parseClause rest >>= fun c => appendClause g c :=
      funext fun g => appendTokenToGroup_eq g rest
    rw [parseClause_indexed hi, hrest, ensure_bind (f := fun c g => appendClause g c)]
    cases parseClause rest <;> rfl
  next hi =>
  split
  · next w rest hw =>
    have := parseSimpleWrapper_length hw
    rw [parseClause_wrapped hi hw, appendTokenToGroup_eq _ rest]
    cases parseClause rest <;> rfl
  · next hw =>
    rw [parseClause_plain hi hw]
    cases parseOne token <;> rfl
termination_by token.length

end Tokens

/-- The tokens are accepted as clauses, and these as a group. -/
theorem foldlM_tokens : ∀ (tokens : List Bytes) (group g : IndexedGroup),
    tokens.foldlM appendTokenToGroup group = .ok g ↔
      ∃ cs, tokens.mapM parseClause = .ok cs ∧ cs.foldlM appendClause group = .ok g
  | [], group, g => by
    constructor
    · intro h
      exact ⟨[], rfl, h⟩
    · rintro ⟨cs, hcs, h⟩
      cases hcs
      exact h
  | token :: rest, group, g => by
    have ih := foldlM_tokens rest
    rw [List.foldlM_cons, List.mapM_cons, appendTokenToGroup_eq]
    simp only [bind_ok_iff, ih]
    constructor
    · rintro ⟨g1, ⟨c, hc, h1⟩, cs, hcs, h2⟩
      refine ⟨c :: cs, ⟨c, hc, cs, hcs, rfl⟩, ?_⟩
      rw [List.foldlM_cons, bind_ok_iff]
      exact ⟨g1, h1, h2⟩
    · rintro ⟨_, ⟨c, hc, cs, hcs, he⟩, h⟩
      cases he
      rw [List.foldlM_cons, bind_ok_iff] at h
      obtain ⟨g1, h1, h2⟩ := h
      exact ⟨g1, ⟨c, hc, h1⟩, cs, hcs, h2⟩

end Lql.Selector
