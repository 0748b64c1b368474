import Mathlib.Data.List.Forall2
import Lql.Selector.Grouping

/-!
# The order of the clauses

Only clauses that clash in one group are refused, so neither what is accepted nor what is decided depends on the
order of the clauses.
-/

namespace Lql.Selector

/-! ## Which clauses clash -/

/-- Where a clause without a number goes, and the kind of predicate that no other clause there may have. -/
def Clause.slot? (c : Clause) : Option (Bool × SelectorKind) :=
  c.node?.bind fun s =>
    let child := s.disjunct?.getD s
    if child.isPredicate || child.kind = .not then some (s.disjunct?.isSome, child.kind) else none

/-- Two clauses clash in a group: they have the same number and clash there, or the group has a number and they
are predicates of one kind at the same place. -/
def clashes (indexed : Bool) : Clause → Clause → Bool
  | .indexed join index c, .indexed join' index' c' => join = join' && index = index' && clashes true c c'
  | c, c' => indexed && c.slot?.isSome && c.slot? = c'.slot?

theorem clashes_symm : ∀ (c c' : Clause) (indexed : Bool), clashes indexed c c' = clashes indexed c' c := by
  have hslot : ∀ (c c' : Clause) (indexed : Bool), (indexed && c.slot?.isSome && decide (c.slot? = c'.slot?)) =
      (indexed && c'.slot?.isSome && decide (c'.slot? = c.slot?)) := by
    intro c c' indexed
    by_cases h : c.slot? = c'.slot?
    · simp [h]
    · simp [h, Ne.symm h]
  intro c
  induction c with
  | plain s =>
    intro c' indexed
    cases c' <;> exact hslot _ _ _
  | wrapped w c _ =>
    intro c' indexed
    cases c' <;> exact hslot _ _ _
  | indexed join index c ih =>
    intro c' indexed
    cases c' with
    | plain _ => exact hslot _ _ _
    | wrapped _ _ => exact hslot _ _ _
    | indexed join' index' c' =>
      simp only [clashes, ih c', eq_comm (a := join), eq_comm (a := index)]

theorem clashes_plain {c : Clause} (hk : c.key? = none) (c0 : Clause) (indexed : Bool) :
    clashes indexed c0 c = (indexed && c0.slot?.isSome && decide (c0.slot? = c.slot?)) := by
  cases c with
  | indexed _ _ _ => cases hk
  | plain _ => cases c0 <;> rfl
  | wrapped _ _ => cases c0 <;> rfl

/-- What a clause adds to the disjunction or to the selector of its group. -/
def Clause.adds (disjunct : Bool) (c : Clause) : Option Selector := if disjunct then c.disj? else c.conj?

theorem slot_eq {c : Clause} {disjunct : Bool} {child : Selector} (h : c.adds disjunct = some child) :
    c.slot? = if child.isPredicate || child.kind = .not then some (disjunct, child.kind) else none := by
  cases hn : c.node? with
  | none =>
    cases disjunct <;> simp [Clause.adds, Clause.conj?, Clause.disj?, hn] at h
  | some s =>
    rw [Clause.slot?, hn, Option.bind_some]
    cases hd : s.disjunct? with
    | none =>
      cases disjunct <;> simp [Clause.adds, Clause.conj?, Clause.disj?, hn, hd] at h
      rw [← h]
      rfl
    | some inner =>
      cases disjunct <;> simp [Clause.adds, Clause.conj?, Clause.disj?, hn, hd] at h
      rw [← h]
      rfl

theorem adds_of_slot {c : Clause} {disjunct : Bool} {k : SelectorKind} (h : c.slot? = some (disjunct, k)) :
    ∃ child, c.adds disjunct = some child ∧ child.kind = k := by
  rw [Clause.slot?, Option.bind_eq_some_iff] at h
  obtain ⟨s, hn, h⟩ := h
  dsimp only at h
  split at h
  · cases hd : s.disjunct? with
    | none =>
      rw [hd] at h
      cases h
      exact ⟨s, by simp [Clause.adds, Clause.conj?, hn, hd], rfl⟩
    | some inner =>
      rw [hd] at h
      cases h
      exact ⟨inner, by simp [Clause.adds, Clause.disj?, hn, hd], rfl⟩
  · cases h

/-- A selector holds what its clauses have added, and refuses another predicate of a kind that it holds. -/
theorem conflicts_iff {cs : List Clause} {c : Clause} {disjunct : Bool} {child target : Selector}
    (hc : c.adds disjunct = some child) (ht : target.children = cs.filterMap (Clause.adds disjunct)) :
    selectorConflictsWithChild target child = true ↔ ∃ c0 ∈ cs, c0.slot?.isSome = true ∧ c0.slot? = c.slot? := by
  rw [selectorConflictsWithChild, Bool.and_eq_true, List.any_eq_true, ht, slot_eq hc]
  simp only [decide_eq_true_eq, List.mem_filterMap]
  constructor
  · rintro ⟨hclash, y, ⟨c0, hmem, hy⟩, hk⟩
    have hy' : (y.isPredicate || decide (y.kind = .not)) = true := by
      rw [Selector.isPredicate, hk]
      exact hclash
    refine ⟨c0, hmem, ?_, ?_⟩ <;> rw [slot_eq hy, if_pos hy']
    · rfl
    · rw [if_pos hclash, hk]
  · rintro ⟨c0, hmem, hsome, he⟩
    split at he
    · next hclash =>
      obtain ⟨y, hy, hk⟩ := adds_of_slot he
      exact ⟨hclash, y, ⟨c0, hmem, hy⟩, hk⟩
    · rw [he] at hsome
      cases hsome

/-- A clause without a number is refused where one of the clauses clashes with it. -/
theorem appendPlain_accepts {g : IndexedGroup} {cs : List Clause} {c : Clause} {s : Selector} (h : Built g cs)
    (hn : c.node? = some s) (hk : c.key? = none) :
    (∃ g', appendPlainGroupNode g s = .ok g') ↔ ∀ c0 ∈ cs, clashes g.indexed c0 c = false := by
  obtain ⟨conj, disj, orKind, -, -, -, -⟩ := h
  have hmain : ∀ (disjunct : Bool) {child target : Selector} {g1 : IndexedGroup}, c.adds disjunct = some child →
      target.children = cs.filterMap (Clause.adds disjunct) →
      ((∃ g', (if g.indexed && selectorConflictsWithChild target child then
          parseError "selector expression has conflicting indexed clauses" else .ok g1) = .ok g') ↔
        ∀ c0 ∈ cs, clashes g.indexed c0 c = false) := by
    intro disjunct child target g1 hc ht
    have hconf := conflicts_iff hc ht
    simp only [clashes_plain hk]
    cases g.indexed with
    | false => simp
    | true =>
      cases hs : selectorConflictsWithChild target child with
      | false =>
        rw [hs] at hconf
        simp only [Bool.false_eq_true, false_iff, not_exists, not_and] at hconf
        refine ⟨fun _ c0 hmem => ?_, fun _ => ⟨_, rfl⟩⟩
        cases hsome : c0.slot?.isSome with
        | false => rfl
        | true => simpa using hconf c0 hmem hsome
      | true =>
        obtain ⟨c0, hmem, h1, h2⟩ := hconf.mp hs
        refine ⟨(fun ⟨_, h⟩ => nomatch h), fun hno => ?_⟩
        have := hno c0 hmem
        rw [h1, decide_eq_true h2] at this
        cases this
  cases hd : s.disjunct? with
  | none =>
    rw [appendPlainGroupNode_other hd]
    exact hmain false (by simp [Clause.adds, Clause.conj?, hn, hd]) conj
  | some inner =>
    rw [appendPlainGroupNode_disjunct hd]
    exact hmain true (by simp [Clause.adds, Clause.disj?, hn, hd])
      ((orGroupKind_or orKind).2.trans disj)

/-- A step is taken in the group that is found or made. -/
theorem ensure_accepts {join : Join} {index : Bytes} {f : IndexedGroup → Except Err IndexedGroup} {A : Prop} :
    ∀ groups : List IndexedGroup,
      ((∀ sub ∈ groups, sub.key ≠ (join, index)) → ((∃ g', f (.indexedNew join index) = .ok g') ↔ A)) →
      (∀ sub ∈ groups, sub.key = (join, index) → ((∃ g', f sub = .ok g') ↔ A)) →
      ((∃ gs, ensureIndexedGroup join index f groups = .ok gs) ↔ A)
  | [], hnew, _ => by
    rw [← hnew fun _ h => absurd h List.not_mem_nil]
    simp only [ensureIndexedGroup, bind_ok_iff]
    constructor
    · rintro ⟨_, g', h, _⟩
      exact ⟨g', h⟩
    · rintro ⟨g', h⟩
      exact ⟨_, g', h, rfl⟩
  | g :: rest, hnew, hold => by
    rw [ensureIndexedGroup]
    split
    · next hk =>
      rw [Bool.and_eq_true, decide_eq_true_eq, decide_eq_true_eq] at hk
      rw [← hold g List.mem_cons_self (Prod.ext hk.1 hk.2)]
      simp only [bind_ok_iff]
      constructor
      · rintro ⟨_, g', h, _⟩
        exact ⟨g', h⟩
      · rintro ⟨g', h⟩
        exact ⟨_, g', h, rfl⟩
    · next hk =>
      have hne : g.key ≠ (join, index) := by
        intro he
        refine hk ?_
        rw [Bool.and_eq_true, decide_eq_true_eq, decide_eq_true_eq]
        exact ⟨congrArg Prod.fst he, congrArg Prod.snd he⟩
      rw [← ensure_accepts rest (fun hno => hnew fun sub hs => ?_) fun sub hs => hold sub (List.mem_cons_of_mem _ hs)]
      · simp only [bind_ok_iff]
        constructor
        · rintro ⟨_, g', h, _⟩
          exact ⟨g', h⟩
        · rintro ⟨g', h⟩
          exact ⟨_, g', h, rfl⟩
      · rcases List.mem_cons.mp hs with rfl | hs
        · exact hne
        · exact hno sub hs

theorem node_some {c : Clause} (hk : c.key? = none) : ∃ s, c.node? = some s := by
  cases c with
  | indexed _ _ _ => cases hk
  | plain s => exact ⟨s, rfl⟩
  | wrapped w c =>
    obtain ⟨g, hg⟩ := append_new (c := c) (g := .plainNew w.kind) rfl rfl rfl
    exact ⟨_, by rw [Clause.node?, hg]⟩

theorem appendClause_node {c : Clause} {s : Selector} (hn : c.node? = some s) (g : IndexedGroup) :
    appendClause g c = appendPlainGroupNode g s := by
  cases c with
  | indexed _ _ _ => cases hn
  | plain _ => cases hn; rfl
  | wrapped w c =>
    rw [Clause.node?] at hn
    rw [appendClause]
    split at hn
    · next h =>
      cases hn
      rw [h]
      rfl
    · cases hn

/-- **A group takes a clause unless one of its clauses clashes with it.** -/
theorem appendClause_accepts : ∀ {c : Clause} {g : IndexedGroup} {cs : List Clause}, Built g cs →
    ((∃ g', appendClause g c = .ok g') ↔ ∀ c0 ∈ cs, clashes g.indexed c0 c = false) := by
  have hplain : ∀ {c : Clause} {g : IndexedGroup} {cs : List Clause}, Built g cs → c.key? = none →
      ((∃ g', appendClause g c = .ok g') ↔ ∀ c0 ∈ cs, clashes g.indexed c0 c = false) := by
    intro c g cs h hk
    obtain ⟨s, hs⟩ := node_some hk
    rw [appendClause_node hs]
    exact appendPlain_accepts h hs hk
  intro c
  induction c with
  | plain s => exact fun h => hplain h rfl
  | wrapped w c _ => exact fun h => hplain h rfl
  | indexed join index c ih =>
    intro g cs h
    obtain ⟨-, -, -, -, keys, fresh, below⟩ := h
    have hmem : (∀ c0 ∈ cs, clashes g.indexed c0 (.indexed join index c) = false) ↔
        ∀ c0 ∈ members (join, index) cs, clashes true c0 c = false := by
      constructor
      · intro hno c0 hc0
        have := hno _ (mem_members.mp hc0)
        simpa [clashes] using this
      · intro hno c0 hc0
        cases c0 with
        | plain _ | wrapped _ _ =>
          rw [clashes_symm, clashes_plain rfl]
          cases g.indexed <;> rfl
        | indexed join' index' c0 =>
          rw [clashes]
          by_cases hk : join' = join ∧ index' = index
          · obtain ⟨rfl, rfl⟩ := hk
            simpa using hno c0 (mem_members.mpr hc0)
          · by_cases h1 : join' = join
            · have h2 : index' ≠ index := fun h2 => hk ⟨h1, h2⟩
              simp [h2]
            · simp [h1]
    rw [hmem, appendClause]
    simp only [bind_ok_iff]
    have hok : (∃ gs, ensureIndexedGroup join index (appendClause · c) g.groups = .ok gs) ↔
        ∀ c0 ∈ members (join, index) cs, clashes true c0 c = false := by
      refine ensure_accepts _ (fun hno => ?_) fun sub hsub hkey => ?_
      · have hnone : members (join, index) cs = [] := by
          by_contra hne
          obtain ⟨sub, hsub, hkey⟩ := List.mem_map.mp ((keys _).mpr hne)
          exact hno sub hsub hkey
        rw [hnone]
        exact ih (built_new rfl rfl rfl)
      · have := ih (below sub hsub)
        rwa [(fresh sub hsub).1, hkey] at this
    rw [← hok]
    constructor
    · rintro ⟨_, gs, h, _⟩
      exact ⟨gs, h⟩
    · rintro ⟨gs, h⟩
      exact ⟨_, gs, h, rfl⟩

/-- A list of clauses is accepted when no two of them clash. -/
theorem foldlM_accepts : ∀ (rest front : List Clause) (g : IndexedGroup), Built g front →
    ((∃ g', rest.foldlM appendClause g = .ok g') ↔
      (∀ c0 ∈ front, ∀ c ∈ rest, clashes g.indexed c0 c = false) ∧
        rest.Pairwise fun c c' => clashes g.indexed c c' = false)
  | [], front, g, _ => by
    exact ⟨fun _ => ⟨fun _ _ _ h => absurd h List.not_mem_nil, .nil⟩, fun _ => ⟨g, rfl⟩⟩
  | c :: rest, front, g, h => by
    have hstep := appendClause_accepts (c := c) h
    simp only [List.foldlM_cons, bind_ok_iff, List.pairwise_cons]
    constructor
    · rintro ⟨g', g1, h1, h2⟩
      obtain ⟨h3, h4⟩ := (foldlM_accepts rest (front ++ [c]) g1 (appendClause_built h h1)).mp ⟨g', h2⟩
      rw [(appendClause_same h1).indexed] at h3 h4
      refine ⟨fun c0 hc0 c' hc' => ?_, fun c' hc' => ?_, h4⟩
      · rcases List.mem_cons.mp hc' with rfl | hc'
        · exact hstep.mp ⟨g1, h1⟩ c0 hc0
        · exact h3 c0 (List.mem_append_left _ hc0) c' hc'
      · exact h3 c (List.mem_append_right _ List.mem_cons_self) c' hc'
    · rintro ⟨h3, h4, h5⟩
      obtain ⟨g1, h1⟩ := hstep.mpr fun c0 hc0 => h3 c0 hc0 c List.mem_cons_self
      have hrest := (foldlM_accepts rest (front ++ [c]) g1 (appendClause_built h h1)).mpr
      rw [(appendClause_same h1).indexed] at hrest
      obtain ⟨g', h2⟩ := hrest ⟨fun c0 hc0 c' hc' => by
        rcases List.mem_append.mp hc0 with hc0 | hc0
        · exact h3 c0 hc0 c' (List.mem_cons_of_mem _ hc')
        · cases List.mem_singleton.mp hc0
          exact h4 c' hc', h5⟩
      exact ⟨g', g1, h1, h2⟩

/-- **The order of the clauses does not matter to whether they are accepted.** -/
theorem accepts_perm {cs cs' : List Clause} (hp : cs.Perm cs') (kind : SelectorKind) :
    (∃ g, cs.foldlM appendClause (.plainNew kind) = .ok g) ↔ ∃ g, cs'.foldlM appendClause (.plainNew kind) = .ok g := by
  have hb : Built (.plainNew kind) [] := built_new rfl rfl rfl
  rw [foldlM_accepts cs [] _ hb, foldlM_accepts cs' [] _ hb]
  refine and_congr ⟨fun _ _ h => absurd h List.not_mem_nil, fun _ _ h => absurd h List.not_mem_nil⟩ ?_
  exact hp.pairwise_iff fun {c c'} h => (clashes_symm c c' _).symm.trans h

/-! ## Clauses with their leaves -/

section Leaves

variable {body : Bytes} {kind : SelectorKind} {s : Selector}

theorem parseShorthand_leaf {front op : Bytes} (h : parseShorthand front op = .ok s) : s.children = [] := by
  rw [parseShorthand] at h
  split at h
  · cases h
    rfl
  split at h
  · obtain ⟨p, -, h⟩ := bind_ok_iff.mp h
    cases h
    rfl
  split at h
  · obtain ⟨p, -, h⟩ := bind_ok_iff.mp h
    cases h
    rfl
  · cases h
    rfl

theorem parseBraces_leaf {name : Bytes} (h : parseBraces name body = .ok s) : s.children = [] := by
  rw [parseBraces] at h
  split at h
  · cases h
  split at h
  · obtain ⟨p, -, h⟩ := bind_ok_iff.mp h
    cases h
    rfl
  · obtain ⟨p, -, h⟩ := bind_ok_iff.mp h
    split at h
    · cases h
      rfl
    · cases h
      rfl

/-- A predicate has no children. -/
theorem parsePredicate_leaf {expr : Bytes} (h : parsePredicate expr = .ok s) : s.children = [] := by
  rw [parsePredicate] at h
  split at h
  · cases h
    rfl
  split at h
  · exact parseShorthand_leaf h
  split at h
  · split at h
    · exact parseBraces_leaf h
    · cases h
  · cases h

end Leaves

theorem parseOne_wrapped {token rest : Bytes} {w : Wrapper} (h : parseSimpleWrapper token = some (w, rest)) :
    parseOne token = (parseOne rest).map fun child => .node w.kind {} [child] := by
  have hne : ¬(token = ascii "/" || token = ascii "." || token = ascii "\x7b\x7d") = true := by
    intro he
    rw [Bool.or_eq_true, Bool.or_eq_true, decide_eq_true_eq, decide_eq_true_eq, decide_eq_true_eq] at he
    have hnone : ∀ t : Bytes, parseSimpleWrapper t = none → t ≠ token := by
      rintro t ht rfl
      rw [ht] at h
      cases h
    rcases he with (he | he) | he
    · exact hnone _ (by decide) he.symm
    · exact hnone _ (by decide) he.symm
    · exact hnone _ (by decide) he.symm
  rw [parseOne, if_neg hne]
  split
  · next h' =>
    rw [h] at h'
    cases h'
    cases parseOne rest <;> rfl
  · next h' =>
    rw [h] at h'
    cases h'

theorem parseOne_leaf {token : Bytes} {s : Selector} (hw : parseSimpleWrapper token = none)
    (h : parseOne token = .ok s) : s.children = [] := by
  rw [parseOne] at h
  split at h
  · cases h
    rfl
  split at h
  · next h' =>
    rw [hw] at h'
    cases h'
  · exact parsePredicate_leaf h

theorem map_ok_iff {α β : Type} {x : Except Err α} {f : α → β} {b : β} :
    x.map f = .ok b ↔ ∃ a, x = .ok a ∧ f a = b := by
  cases x with
  | error e => exact ⟨nofun, fun ⟨_, h, _⟩ => nomatch h⟩
  | ok a => exact ⟨fun h => ⟨a, rfl, Except.ok.inj h⟩, fun ⟨_, h, hf⟩ => by cases h; exact congrArg Except.ok hf⟩

/-- The predicates of a clause that a token is have no children. -/
theorem parseClause_ok {token : Bytes} {c : Clause} (h : parseClause token = .ok c) : c.Ok := by
  cases hi : parseIndexedWrapper token with
  | some r =>
    obtain ⟨join, index, rest⟩ := r
    have := parseIndexedWrapper_length hi
    rw [parseClause_indexed hi, map_ok_iff] at h
    obtain ⟨c', hc', rfl⟩ := h
    have hc : c'.Ok := parseClause_ok hc'
    exact hc
  | none =>
    cases hw : parseSimpleWrapper token with
    | some r =>
      obtain ⟨w, rest⟩ := r
      have := parseSimpleWrapper_length hw
      rw [parseClause_wrapped hi hw, map_ok_iff] at h
      obtain ⟨c', hc', rfl⟩ := h
      have hc : c'.Ok := parseClause_ok hc'
      exact hc
    | none =>
      rw [parseClause_plain hi hw, map_ok_iff] at h
      obtain ⟨s, hs, rfl⟩ := h
      exact parseOne_leaf hw hs
termination_by token.length

/-- One token without a number is the clause it is without groups. -/
theorem parseOne_reads {token : Bytes} {s : Selector} (hn : tokenContainsIndexedWrapper token = false)
    (h : parseOne token = .ok s) : ∃ c, parseClause token = .ok c ∧
      ∀ (route : Clause → Bool) (hit : SelectorKind → Payload → Bool), s.decides hit = part route hit [c] c := by
  rw [tokenContainsIndexedWrapper] at hn
  split at hn
  · cases hn
  next hi =>
  split at hn
  · next w rest hw =>
    have := parseSimpleWrapper_length hw
    rw [parseOne_wrapped hw, map_ok_iff] at h
    obtain ⟨child, hchild, rfl⟩ := h
    obtain ⟨c, hc, hreads⟩ := parseOne_reads hn hchild
    refine ⟨.wrapped _ c, by rw [parseClause_wrapped hi hw, hc]; rfl, fun route hit => ?_⟩
    have hsingle : reads route hit false [c] = part route hit [c] c := reads_single false c
    rw [← hreads route hit] at hsingle
    cases w with
    | and =>
      refine Eq.trans ?_ hsingle.symm
      rw [Wrapper.kind, Selector.decides_and, List.all_cons, List.all_nil, Bool.and_true]
    | or =>
      refine Eq.trans ?_ hsingle.symm
      rw [Wrapper.kind, Selector.decides_or, List.any_cons, List.any_nil, Bool.or_false]
    | not => exact congrArg not hsingle.symm
  · next hw => exact ⟨.plain s, by rw [parseClause_plain hi hw, h]; rfl, fun _ _ => rfl⟩
termination_by token.length

/-! ## Lists of tokens -/

/-- The clauses are those of the tokens, one by one. -/
theorem mapM_iff : ∀ {tokens : List Bytes} {cs : List Clause}, tokens.mapM parseClause = .ok cs ↔
    List.Forall₂ (fun token c => parseClause token = .ok c) tokens cs
  | [], cs => by
    rw [List.forall₂_nil_left_iff]
    exact ⟨fun h => by cases h; rfl, fun h => by rw [h]; rfl⟩
  | token :: rest, cs => by
    simp only [List.mapM_cons, bind_ok_iff, List.forall₂_cons_left_iff, @mapM_iff rest]
    constructor
    · rintro ⟨c, hc, cs', hcs, he⟩
      cases he
      exact ⟨c, cs', hc, hcs, rfl⟩
    · rintro ⟨c, cs', hc, hcs, rfl⟩
      exact ⟨c, hc, cs', hcs, rfl⟩

theorem mapM_ok {tokens : List Bytes} {cs : List Clause} (h : tokens.mapM parseClause = .ok cs) : ∀ c ∈ cs, c.Ok := by
  have h := mapM_iff.mp h
  induction h with
  | nil => exact fun c hc => absurd hc List.not_mem_nil
  | cons hc _ ih =>
    intro c hmem
    rcases List.mem_cons.mp hmem with rfl | hmem
    · exact parseClause_ok hc
    · exact ih (mapM_iff.mpr ‹_›) c hmem

/-- Clauses that are put into groups decide what they say, as the parser sees their disjuncts. -/
theorem parseGroupTokens_reads {tokens : List Bytes} {orMode : Bool} {s : Selector}
    (h : parseGroupTokens tokens orMode = .ok s) : ∃ cs, tokens.mapM parseClause = .ok cs ∧
      ∀ hit : SelectorKind → Payload → Bool, s.decides hit = reads Clause.orish hit orMode cs := by
  rw [parseGroupTokens, bind_ok_iff] at h
  obtain ⟨g, hg, he⟩ := h
  cases he
  obtain ⟨cs, hcs, hg⟩ := (foldlM_tokens tokens _ g).mp hg
  exact ⟨cs, hcs, fun hit => finalize_reads (mapM_ok hcs) orMode hg⟩

/-- **The clauses of a text decide what they say, as the parser sees their disjuncts.** Without clauses every
record is let through. -/
theorem parseTokens_reads {orMode : Bool} {s : Selector} : ∀ {tokens : List Bytes}, parseTokens tokens orMode = .ok s →
    ∃ cs, tokens.mapM parseClause = .ok cs ∧ (cs = [] → ∀ hit, s.decides hit = true) ∧
      (cs ≠ [] → ∀ hit, s.decides hit = reads Clause.orish hit orMode cs)
  | [], h => by
    cases h
    exact ⟨[], rfl, fun _ _ => rfl, fun hne => absurd rfl hne⟩
  | [token], h => by
    rw [parseTokens] at h
    split at h
    · obtain ⟨cs, hcs, hreads⟩ := parseGroupTokens_reads h
      refine ⟨cs, hcs, ?_, fun _ => hreads⟩
      rintro rfl
      cases mapM_iff.mp hcs
    · next hn =>
      rw [Bool.or_eq_true, not_or, Bool.not_eq_true, Bool.not_eq_true] at hn
      obtain ⟨c, hc, hreads⟩ := parseOne_reads hn.2 h
      refine ⟨[c], mapM_iff.mpr (.cons hc .nil), nofun, fun _ hit => ?_⟩
      rw [reads_single, hreads]
  | token :: token' :: rest, h => by
    obtain ⟨cs, hcs, hreads⟩ := parseGroupTokens_reads h
    refine ⟨cs, hcs, ?_, fun _ => hreads⟩
    rintro rfl
    cases mapM_iff.mp hcs

/-- Tokens in another order are clauses in another order. -/
theorem mapM_perm {tokens tokens' : List Bytes} (hp : tokens'.Perm tokens) {cs : List Clause}
    (h : tokens.mapM parseClause = .ok cs) : ∃ cs', tokens'.mapM parseClause = .ok cs' ∧ cs'.Perm cs := by
  obtain ⟨cs', h1, h2⟩ := List.perm_comp_forall₂ hp (mapM_iff.mp h)
  exact ⟨cs', mapM_iff.mpr h1, h2⟩

theorem parseGroup_perm {tokens tokens' : List Bytes} (hp : tokens'.Perm tokens) {orMode : Bool} {s : Selector}
    (h : parseGroupTokens tokens orMode = .ok s) : ∃ s', parseGroupTokens tokens' orMode = .ok s' := by
  rw [parseGroupTokens, bind_ok_iff] at h
  obtain ⟨g, hg, -⟩ := h
  obtain ⟨cs, hcs, hg⟩ := (foldlM_tokens tokens _ g).mp hg
  obtain ⟨cs', hcs', hperm⟩ := mapM_perm hp hcs
  obtain ⟨g', hg'⟩ := (accepts_perm hperm _).mpr ⟨g, hg⟩
  exact ⟨_, by rw [parseGroupTokens, (foldlM_tokens tokens' _ g').mpr ⟨cs', hcs', hg'⟩]; rfl⟩

/-- **Tokens in another order are accepted as well.** -/
theorem parseTokens_perm {tokens tokens' : List Bytes} (hp : tokens'.Perm tokens) {orMode : Bool} {s : Selector}
    (h : parseTokens tokens orMode = .ok s) : ∃ s', parseTokens tokens' orMode = .ok s' := by
  match tokens, tokens' with
  | [], tokens' =>
    cases hp.eq_nil
    exact ⟨s, h⟩
  | [token], tokens' =>
    cases List.perm_singleton.mp hp
    exact ⟨s, h⟩
  | _ :: _ :: _, [] => cases hp.length_eq
  | _ :: _ :: _, [_] =>
    have := hp.length_eq
    simp only [List.length_cons, List.length_nil] at this
    omega
  | _ :: _ :: _, _ :: _ :: _ => exact parseGroup_perm hp h

/-! ## Stray disjuncts -/

/-- An `and.` in front of a disjunct: it is no disjunct, but the parser takes it for one. -/
def Clause.stray (c : Clause) : Bool := c.orish && !c.isOr

/-- In each group of conjuncts a stray disjunct has no other disjunct beside it. -/
inductive Tidy : Bool → List Clause → Prop where
  | mk {orMode : Bool} {cs : List Clause}
    (lone : orMode = false → ∀ c ∈ cs, c.stray = true → ∀ c' ∈ cs, c'.orish = true → c' = c)
    (below : ∀ join index c, .indexed join index c ∈ cs → Tidy false (members (join, index) cs)) : Tidy orMode cs

theorem tidy_single (orMode : Bool) : ∀ c : Clause, Tidy orMode [c] := by
  intro c
  induction c generalizing orMode with
  | indexed join index c ih =>
    refine .mk (fun _ c' hc' _ c'' hc'' _ => ?_) fun join' index' c' hmem => ?_
    · rw [List.mem_singleton.mp hc', List.mem_singleton.mp hc'']
    · cases List.mem_singleton.mp hmem
      rw [members_self]
      exact ih false
  | wrapped w c _ | plain s =>
    refine .mk (fun _ c' hc' _ c'' hc'' _ => ?_) fun join' index' c' hmem => ?_
    · rw [List.mem_singleton.mp hc', List.mem_singleton.mp hc'']
    · cases List.mem_singleton.mp hmem

theorem isOr_orish {c : Clause} (h : c.isOr = true) : c.orish = true := by
  cases c with
  | plain _ => cases h
  | wrapped w c => cases w <;> first | rfl | cases h
  | indexed join index c => cases join <;> first | rfl | cases h

/-- **Without stray disjuncts the two readings agree.** -/
theorem reads_tidy {hit : SelectorKind → Payload → Bool} {orMode : Bool} {cs : List Clause} (h : Tidy orMode cs) :
    reads Clause.orish hit orMode cs = reads Clause.isOr hit orMode cs := by
  obtain ⟨lone, below⟩ := h
  have hpart : ∀ c ∈ cs, part Clause.orish hit cs c = part Clause.isOr hit cs c := by
    intro c hc
    cases c with
    | plain s => rfl
    | wrapped w c =>
      have := totalSize_wrapped hc
      have he : reads Clause.orish hit false [c] = reads Clause.isOr hit false [c] := reads_tidy (tidy_single false c)
      cases w
      · exact he
      · exact he
      · exact congrArg not he
    | indexed join index c =>
      have := totalSize_members hc
      exact reads_tidy (below join index c hc)
  rw [Bool.eq_iff_iff]
  cases orMode with
  | true =>
    rw [reads_true, reads_true]
    exact exists_congr fun c => and_congr_right fun hc => by rw [hpart c hc]
  | false =>
    rw [reads_false, reads_false]
    by_cases hstray : ∃ c ∈ cs, c.stray = true
    · obtain ⟨c0, hc0, hs⟩ := hstray
      have hlone := lone rfl c0 hc0 hs
      rw [Clause.stray, Bool.and_eq_true, Bool.not_eq_true'] at hs
      -- the stray disjunct is the only one the parser sees, and no other is there
      have hno : ∀ c ∈ cs, c.isOr = false := by
        intro c hc
        cases ho : c.isOr with
        | false => rfl
        | true =>
          rw [hlone c hc (isOr_orish ho), hs.2] at ho
          cases ho
      constructor
      · rintro ⟨hall, hany⟩
        refine ⟨fun c hc _ => ?_, fun ⟨c, hc, ho⟩ => absurd ho (by rw [hno c hc]; exact Bool.false_ne_true)⟩
        rw [← hpart c hc]
        cases ho : c.orish with
        | false => exact hall c hc ho
        | true =>
          obtain ⟨c', hc', ho', hp⟩ := hany ⟨c, hc, ho⟩
          rwa [hlone c hc ho, ← hlone c' hc' ho']
      · rintro ⟨hall, -⟩
        have hp : ∀ c ∈ cs, part Clause.orish hit cs c = true := fun c hc => by
          rw [hpart c hc]
          exact hall c hc (hno c hc)
        exact ⟨fun c hc _ => hp c hc, fun _ => ⟨c0, hc0, hs.1, hp c0 hc0⟩⟩
    · have hsame : ∀ c ∈ cs, c.orish = c.isOr := by
        intro c hc
        cases ho : c.isOr with
        | true => exact isOr_orish ho
        | false =>
          cases ho' : c.orish with
          | false => rfl
          | true => exact absurd ⟨c, hc, by rw [Clause.stray, ho, ho']; rfl⟩ hstray
      refine and_congr (forall₂_congr fun c hc => by rw [hsame c hc, hpart c hc]) (imp_congr ?_ ?_)
      · exact exists_congr fun c => and_congr_right fun hc => by rw [hsame c hc]
      · exact exists_congr fun c => and_congr_right fun hc => by rw [hsame c hc, hpart c hc]
termination_by totalSize cs

/-- **Clauses are grouped as they are read**, and their order does not matter. On a record, the selector of a text
decides what its clauses say just where it makes no difference that the parser takes an `and.` in front of a
disjunct for one more disjunct. It makes none on any record where the clauses are tidy. A text without clauses
decides for every record. The clauses in another order are accepted as well, and decide the same. -/
theorem clauses_grouped (orMode : Bool) (expr : Bytes) (tokens : List Bytes)
    (hsplit : splitTop (Temporal.cstr expr) = .ok tokens) (s : Selector)
    (h : parseSelectorInternal (some expr) orMode = .ok s) :
    (∃ cs, tokens.mapM parseClause = .ok cs ∧
      (∀ hit : SelectorKind → Payload → Bool, if cs = [] then s.decides hit = true else
        (s.decides hit = reads Clause.isOr hit orMode cs ↔
          reads Clause.orish hit orMode cs = reads Clause.isOr hit orMode cs)) ∧
      (Tidy orMode cs → ∀ hit : SelectorKind → Payload → Bool,
        reads Clause.orish hit orMode cs = reads Clause.isOr hit orMode cs)) ∧
    ∀ (expr' : Bytes) (tokens' : List Bytes), splitTop (Temporal.cstr expr') = .ok tokens' → tokens'.Perm tokens →
      ∃ s', parseSelectorInternal (some expr') orMode = .ok s' ∧
        ∀ hit : SelectorKind → Payload → Bool, s'.decides hit = s.decides hit := by
  have hparse : ∀ {expr : Bytes} {tokens : List Bytes}, splitTop (Temporal.cstr expr) = .ok tokens →
      parseSelectorInternal (some expr) orMode = parseTokens tokens orMode := by
    intro expr tokens hs
    rw [parseSelectorInternal, Option.map_some]
    split
    · next he => cases he
    · next he =>
      rw [Option.some.inj he] at hs
      cases hs
      rfl
    · next he =>
      cases he
      rw [hs]
      rfl
  rw [hparse hsplit] at h
  obtain ⟨cs, hcs, hnone, hreads⟩ := parseTokens_reads h
  constructor
  · refine ⟨cs, hcs, fun hit => ?_, fun ht hit => reads_tidy ht⟩
    split
    · next he => rw [hnone he]
    · next he => rw [hreads he]
  · intro expr' tokens' hsplit' hp
    obtain ⟨s', h'⟩ := parseTokens_perm hp h
    refine ⟨s', by rw [hparse hsplit', h'], fun hit => ?_⟩
    obtain ⟨cs', hcs', hnone', hreads'⟩ := parseTokens_reads h'
    obtain ⟨cs'', hcs'', hperm⟩ := mapM_perm hp hcs
    rw [hcs'] at hcs''
    cases hcs''
    by_cases he : cs = []
    · subst he
      rw [hnone rfl, hnone' hperm.eq_nil]
    · have he' : cs' ≠ [] := fun h => he (by rw [h] at hperm; exact hperm.symm.eq_nil)
      rw [hreads he, hreads' he', reads_perm hperm]

/-- Only the predicates on `/b` hold. -/
def onlyB (_ : SelectorKind) (p : Payload) : Bool := p.field = ascii "/b"

def tidyText : Bytes := ascii "/a=1,or./b=1"

def tidyTokens : List Bytes := [ascii "/a=1", ascii "or./b=1"]

/-- Two clauses with a disjunct are read in one order as in the other. -/
theorem clauses_grouped_swapped : ∃ s s', parseSelectorInternal (some tidyText) false = .ok s ∧
    parseSelectorInternal (some (ascii "or./b=1,/a=1")) false = .ok s' ∧ s.decides onlyB = false ∧
    s'.decides onlyB = false := by
  have hsplit : splitTop (Temporal.cstr tidyText) = .ok tidyTokens := by decide +kernel
  have hdecides : (parseSelectorInternal (some tidyText) false).map (Selector.decides onlyB) = .ok false := by
    decide +kernel
  obtain ⟨s, h⟩ : ∃ s, parseSelectorInternal (some tidyText) false = .ok s := by
    cases h : parseSelectorInternal (some tidyText) false with
    | ok s => exact ⟨s, rfl⟩
    | error e => rw [h] at hdecides; cases hdecides
  rw [h] at hdecides
  obtain ⟨s', h', hsame⟩ := (clauses_grouped false tidyText tidyTokens hsplit s h).2 (ascii "or./b=1,/a=1")
    tidyTokens.reverse (by decide +kernel) (List.reverse_perm _)
  have hs : s.decides onlyB = false := Except.ok.inj hdecides
  exact ⟨s, s', h, h', hs, by rw [hsame, hs]⟩

/-- With an `and.` in front of the first disjunct both clauses have to hold, but one of them is enough. -/
theorem and_lost : ([ascii "and.or./a=1", ascii "or./b=1"].mapM parseClause).map
      (fun cs => (cs.map Clause.isOr, reads Clause.isOr onlyB false cs)) = .ok ([false, true], false) ∧
    splitTop (Temporal.cstr (ascii "and.or./a=1,or./b=1")) = .ok [ascii "and.or./a=1", ascii "or./b=1"] ∧
    (parseSelectorInternal (some (ascii "and.or./a=1,or./b=1")) false).map (Selector.decides onlyB) = .ok true := by
  refine ⟨by decide +kernel, by decide +kernel, by decide +kernel⟩

end Lql.Selector
