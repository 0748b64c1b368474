import Mathlib.Data.List.Nodup
import Lql.Selector.Clauses

/-!
# Groups decide as their clauses are read

The groups that the parser builds hold its clauses by their numbers, and the selector they end as decides what
the clauses say.
-/

namespace Lql.Selector

/-! ## Disjuncts -/

namespace Selector

/-- The child of an `or` with one child. -/
def disjunct? : Selector → Option Selector
  | .node .or _ [inner] => some inner
  | _ => none

end Selector

theorem disjunct_leaf {s : Selector} (h : s.children = []) : s.disjunct? = none := by
  obtain ⟨kind, payload, children⟩ := s
  cases kind <;> cases h <;> rfl

theorem appendPlainGroupNode_disjunct {group : IndexedGroup} {child inner : Selector}
    (h : child.disjunct? = some inner) : appendPlainGroupNode group child =
      if group.indexed && selectorConflictsWithChild (orGroupKind group.orGroup) inner then
        parseError "selector expression has conflicting indexed clauses"
      else .ok { group with orGroup := (orGroupKind group.orGroup).append inner } := by
  unfold Selector.disjunct? at h
  split at h
  · cases h
    rfl
  · cases h

theorem appendPlainGroupNode_other {group : IndexedGroup} {child : Selector} (h : child.disjunct? = none) :
    appendPlainGroupNode group child =
      if group.indexed && selectorConflictsWithChild group.selector child then
        parseError "selector expression has conflicting indexed clauses"
      else .ok { group with selector := group.selector.append child } := by
  unfold Selector.disjunct? at h
  unfold appendPlainGroupNode
  split
  · cases h
  · rfl

/-- The selector that a clause without a number ends as. -/
def Clause.node? : Clause → Option Selector
  | .indexed _ _ _ => none
  | .wrapped w c =>
    match appendClause (.plainNew w.kind) c with
    | .ok g => some (finalizeIndexedGroup (w = .or) g)
    | .error _ => none
  | .plain s => some s

/-- What a clause adds to the selector of its group. -/
def Clause.conj? (c : Clause) : Option Selector := c.node?.bind fun s => if s.disjunct?.isSome then none else some s

/-- What a clause adds to the disjunction of its group. -/
def Clause.disj? (c : Clause) : Option Selector := c.node?.bind Selector.disjunct?

/-- The predicates of a clause have no children. -/
def Clause.Ok : Clause → Prop
  | .indexed _ _ c => c.Ok
  | .wrapped _ c => c.Ok
  | .plain s => s.children = []

/-! ## Groups and their clauses -/

def IndexedGroup.key (g : IndexedGroup) : Join × Bytes := (g.wrapper, g.index)

/-- The group holds the clauses: the plain ones and the disjuncts in their order, and below it one group for
each number, with the clauses of that number. -/
inductive Built : IndexedGroup → List Clause → Prop where
  | mk {g : IndexedGroup} {cs : List Clause} (conj : g.selector.children = cs.filterMap Clause.conj?)
    (disj : g.orGroup.children = cs.filterMap Clause.disj?) (orKind : g.orGroup.kind = .all ∨ g.orGroup.kind = .or)
    (nodup : (g.groups.map IndexedGroup.key).Nodup)
    (keys : ∀ key, key ∈ g.groups.map IndexedGroup.key ↔ members key cs ≠ [])
    (fresh : ∀ sub ∈ g.groups, sub.indexed = true ∧ sub.selector.kind = .and)
    (below : ∀ sub ∈ g.groups, Built sub (members sub.key cs)) : Built g cs

theorem built_new {g : IndexedGroup} (hs : g.selector.children = []) (ho : g.orGroup = .leaf .all {})
    (hg : g.groups = []) : Built g [] := by
  refine .mk hs (by rw [ho]; rfl) (by rw [ho]; exact .inl rfl) (by rw [hg]; exact List.nodup_nil) (fun key => ?_)
    (fun sub h => absurd (hg ▸ h) List.not_mem_nil) (fun sub h => absurd (hg ▸ h) List.not_mem_nil)
  rw [hg]
  exact ⟨fun h => absurd h List.not_mem_nil, fun h => absurd rfl h⟩

theorem orGroupKind_or {s : Selector} (h : s.kind = .all ∨ s.kind = .or) :
    (orGroupKind s).kind = .or ∧ (orGroupKind s).children = s.children := by
  obtain ⟨kind, payload, children⟩ := s
  rcases h with h | h <;> cases h <;> exact ⟨rfl, rfl⟩

/-- A group has been found, or a new one has been made. -/
theorem ensure_ok {join : Join} {index : Bytes} {f : IndexedGroup → Except Err IndexedGroup} :
    ∀ {groups groups' : List IndexedGroup}, ensureIndexedGroup join index f groups = .ok groups' →
      (∃ front g back g', groups = front ++ g :: back ∧ g.key = (join, index) ∧ f g = .ok g' ∧
        groups' = front ++ g' :: back) ∨
      ((join, index) ∉ groups.map IndexedGroup.key ∧
        ∃ g', f (.indexedNew join index) = .ok g' ∧ groups' = groups ++ [g'])
  | [], groups', h => by
    rw [ensureIndexedGroup, bind_ok_iff] at h
    obtain ⟨g', h1, h2⟩ := h
    cases h2
    exact .inr ⟨List.not_mem_nil, g', h1, rfl⟩
  | g :: rest, groups', h => by
    rw [ensureIndexedGroup] at h
    split at h
    · next hk =>
      rw [bind_ok_iff] at h
      obtain ⟨g', h1, h2⟩ := h
      cases h2
      rw [Bool.and_eq_true, decide_eq_true_eq, decide_eq_true_eq] at hk
      exact .inl ⟨[], g, rest, g', rfl, Prod.ext hk.1 hk.2, h1, rfl⟩
    · next hk =>
      rw [bind_ok_iff] at h
      obtain ⟨rest', h1, h2⟩ := h
      cases h2
      rcases ensure_ok h1 with ⟨front, g0, back, g', rfl, hkey, hf, rfl⟩ | ⟨hnone, g', hf, rfl⟩
      · exact .inl ⟨g :: front, g0, back, g', rfl, hkey, hf, rfl⟩
      · refine .inr ⟨?_, g', hf, rfl⟩
        rw [List.map_cons, List.mem_cons, not_or]
        refine ⟨fun he => hk ?_, hnone⟩
        rw [Bool.and_eq_true, decide_eq_true_eq, decide_eq_true_eq]
        exact ⟨(congrArg Prod.fst he).symm, (congrArg Prod.snd he).symm⟩

theorem members_snoc (key : Join × Bytes) (cs : List Clause) (c : Clause) :
    members key (cs ++ [c]) = members key cs ++ members key [c] := List.filterMap_append ..

theorem members_other {key : Join × Bytes} {c : Clause} (h : c.key? ≠ some key) : members key [c] = [] := by
  cases c with
  | plain _ => rfl
  | wrapped _ _ => rfl
  | indexed join index c =>
    have : (join, index) ≠ key := fun he => h (congrArg some he)
    simp [members, this]

theorem members_self (join : Join) (index : Bytes) (c : Clause) :
    members (join, index) [.indexed join index c] = [c] := by
  simp [members]

/-- A group keeps its number and its kind. -/
structure Same (g g' : IndexedGroup) : Prop where
  indexed : g'.indexed = g.indexed
  key : g'.key = g.key
  kind : g'.selector.kind = g.selector.kind

theorem appendPlain_same {g g' : IndexedGroup} {child : Selector} (h : appendPlainGroupNode g child = .ok g') :
    Same g g' ∧ g'.groups = g.groups := by
  cases hd : child.disjunct? with
  | none =>
    rw [appendPlainGroupNode_other hd] at h
    split at h
    · cases h
    · cases h
      exact ⟨⟨rfl, rfl, Selector.kind_append _ _⟩, rfl⟩
  | some inner =>
    rw [appendPlainGroupNode_disjunct hd] at h
    split at h
    · cases h
    · cases h
      exact ⟨⟨rfl, rfl, rfl⟩, rfl⟩

theorem appendClause_same {g g' : IndexedGroup} {c : Clause} (h : appendClause g c = .ok g') : Same g g' := by
  cases c with
  | plain s => exact (appendPlain_same h).1
  | wrapped w c =>
    rw [appendClause, bind_ok_iff] at h
    obtain ⟨_, -, h⟩ := h
    exact (appendPlain_same h).1
  | indexed join index c =>
    rw [appendClause, bind_ok_iff] at h
    obtain ⟨groups, -, h⟩ := h
    cases h
    exact ⟨rfl, rfl, rfl⟩

/-- A clause without a number is added to the group itself. -/
theorem Built.plain {g g' : IndexedGroup} {cs : List Clause} {c : Clause} {s : Selector} (h : Built g cs)
    (hn : c.node? = some s) (ha : appendPlainGroupNode g s = .ok g') : Built g' (cs ++ [c]) := by
  obtain ⟨conj, disj, orKind, nodup, keys, fresh, below⟩ := h
  obtain ⟨-, hgroups⟩ := appendPlain_same ha
  have hkey : ∀ key, members key (cs ++ [c]) = members key cs := by
    intro key
    rw [members_snoc, members_other, List.append_nil]
    cases c with
    | plain _ => exact nofun
    | wrapped _ _ => exact nofun
    | indexed _ _ _ => cases hn
  cases hd : s.disjunct? with
  | none =>
    rw [appendPlainGroupNode_other hd] at ha
    split at ha
    · cases ha
    cases ha
    refine .mk ?_ ?_ orKind nodup (fun key => by rw [hkey]; exact keys key) fresh
      (fun sub hs => by rw [hkey]; exact below sub hs)
    · rw [Selector.children_append, conj, List.filterMap_append, List.filterMap_cons_some (b := s)]
      · rfl
      · simp [Clause.conj?, hn, hd]
    · rw [disj, List.filterMap_append, List.filterMap_cons_none]
      · simp
      · simp [Clause.disj?, hn, hd]
  | some inner =>
    rw [appendPlainGroupNode_disjunct hd] at ha
    split at ha
    · cases ha
    cases ha
    obtain ⟨hk, hc⟩ := orGroupKind_or orKind
    refine .mk ?_ ?_ (.inr ((Selector.kind_append _ _).trans hk)) nodup (fun key => by rw [hkey]; exact keys key)
      fresh (fun sub hs => by rw [hkey]; exact below sub hs)
    · rw [conj, List.filterMap_append, List.filterMap_cons_none]
      · simp
      · simp [Clause.conj?, hn, hd]
    · rw [Selector.children_append, hc, disj, List.filterMap_append, List.filterMap_cons_some (b := inner)]
      · rfl
      · simp [Clause.disj?, hn, hd]

/-- **Every clause that is put into a group is held by it.** -/
theorem appendClause_built : ∀ {c : Clause} {g g' : IndexedGroup} {cs : List Clause}, Built g cs →
    appendClause g c = .ok g' → Built g' (cs ++ [c])
  | .plain s, g, g', cs, h, ha => h.plain rfl ha
  | .wrapped w c, g, g', cs, h, ha => by
    rw [appendClause, bind_ok_iff] at ha
    obtain ⟨wrapped, hw, ha⟩ := ha
    refine h.plain ?_ ha
    rw [Clause.node?, hw]
  | .indexed join index c, g, g', cs, h, ha => by
    rw [appendClause, bind_ok_iff] at ha
    obtain ⟨groups, he, ha⟩ := ha
    cases ha
    obtain ⟨conj, disj, orKind, nodup, keys, fresh, below⟩ := h
    have hother : ∀ key, key ≠ (join, index) → members key (cs ++ [.indexed join index c]) = members key cs := by
      intro key hne
      rw [members_snoc, members_other, List.append_nil]
      exact fun he => hne (Option.some.inj he).symm
    have hself : members (join, index) (cs ++ [.indexed join index c]) = members (join, index) cs ++ [c] := by
      rw [members_snoc, members_self]
    have hc : (cs ++ [Clause.indexed join index c]).filterMap Clause.conj? = cs.filterMap Clause.conj? := by
      rw [List.filterMap_append, List.filterMap_cons_none rfl, List.filterMap_nil, List.append_nil]
    have hd : (cs ++ [Clause.indexed join index c]).filterMap Clause.disj? = cs.filterMap Clause.disj? := by
      rw [List.filterMap_append, List.filterMap_cons_none rfl, List.filterMap_nil, List.append_nil]
    -- the keys below: those from before and this one
    have hkeys : ∀ key, members key (cs ++ [.indexed join index c]) ≠ [] ↔
        key = (join, index) ∨ key ∈ g.groups.map IndexedGroup.key := by
      intro key
      by_cases hk : key = (join, index)
      · subst hk
        rw [hself]
        simp
      · rw [hother key hk, keys key]
        simp [hk]
    rcases ensure_ok he with ⟨front, sub, back, sub', hg, hkey, hf, rfl⟩ | ⟨hnew, sub', hf, rfl⟩
    · have hsub : sub ∈ g.groups := by rw [hg]; exact List.mem_append_right _ List.mem_cons_self
      have hsame := appendClause_same hf
      have hmap : (front ++ sub' :: back).map IndexedGroup.key = g.groups.map IndexedGroup.key := by
        rw [hg, List.map_append, List.map_append, List.map_cons, List.map_cons, hsame.key]
      have hne : ∀ x ∈ front ++ back, x.key ≠ (join, index) := by
        intro x hx hxk
        rw [hg, List.map_append, List.map_cons, hkey, List.nodup_middle, List.nodup_cons] at nodup
        refine nodup.1 ?_
        rw [← List.map_append, ← hxk]
        exact List.mem_map_of_mem hx
      have hold : ∀ x ∈ front ++ back, x ∈ g.groups := by
        intro x hx
        rw [hg]
        rcases List.mem_append.mp hx with hx | hx
        · exact List.mem_append_left _ hx
        · exact List.mem_append_right _ (List.mem_cons_of_mem _ hx)
      have hcases : ∀ x ∈ front ++ sub' :: back, x = sub' ∨ x ∈ front ++ back := by
        intro x hx
        rcases List.mem_append.mp hx with hx | hx
        · exact .inr (List.mem_append_left _ hx)
        · rcases List.mem_cons.mp hx with hx | hx
          · exact .inl hx
          · exact .inr (List.mem_append_right _ hx)
      refine .mk (by rw [hc]; exact conj) (by rw [hd]; exact disj) orKind (by rw [hmap]; exact nodup) (fun key => ?_)
        (fun x hx => ?_) (fun x hx => ?_)
      · rw [hkeys key, hmap]
        refine ⟨.inr, ?_⟩
        rintro (rfl | h)
        · rw [← hkey]
          exact List.mem_map_of_mem hsub
        · exact h
      · rcases hcases x hx with rfl | hx
        · obtain ⟨h1, h2⟩ := fresh sub hsub
          exact ⟨hsame.indexed.trans h1, hsame.kind.trans h2⟩
        · exact fresh x (hold x hx)
      · rcases hcases x hx with rfl | hx
        · have hb := below sub hsub
          rw [hkey] at hb
          rw [hsame.key, hkey, hself]
          exact appendClause_built hb hf
        · rw [hother _ (hne x hx)]
          exact below x (hold x hx)
    · have hsame := appendClause_same hf
      have hkey : sub'.key = (join, index) := hsame.key
      have hnone : members (join, index) cs = [] := by
        by_contra hne
        exact hnew ((keys _).mpr hne)
      have hcases : ∀ x ∈ g.groups ++ [sub'], x = sub' ∨ x ∈ g.groups := by
        intro x hx
        rcases List.mem_append.mp hx with hx | hx
        · exact .inr hx
        · exact .inl (List.mem_singleton.mp hx)
      have hne : ∀ x ∈ g.groups, x.key ≠ (join, index) := by
        intro x hx hxk
        rw [← hxk] at hnew
        exact hnew (List.mem_map_of_mem hx)
      refine .mk (by rw [hc]; exact conj) (by rw [hd]; exact disj) orKind ?_ (fun key => ?_) (fun x hx => ?_)
        (fun x hx => ?_)
      · rw [List.map_append, List.map_singleton, hkey, List.nodup_append]
        refine ⟨nodup, List.nodup_singleton _, fun a ha b hb => ?_⟩
        rintro rfl
        rw [List.mem_singleton] at hb
        rw [hb] at ha
        exact hnew ha
      · rw [hkeys key, List.map_append, List.map_singleton, hkey, List.mem_append, List.mem_singleton, or_comm]
      · rcases hcases x hx with rfl | hx
        · exact ⟨hsame.indexed, hsame.kind⟩
        · exact fresh x hx
      · rcases hcases x hx with rfl | hx
        · have hb : Built (.indexedNew join index) [] := built_new rfl rfl rfl
          rw [hkey, hself, hnone]
          exact appendClause_built hb hf
        · rw [hother _ (hne x hx)]
          exact below x hx

/-! ## What a group ends as -/

section Decides

variable {hit : SelectorKind → Payload → Bool}

/-- An `and` with one child decides as the child. -/
theorem appendFinalized_spec (hit : SelectorKind → Payload → Bool) (child : Selector) :
    ∃ e, e.decides hit = child.decides hit ∧ ∀ parent, appendFinalizedIndexedSelector parent child = parent.append e := by
  obtain ⟨kind, payload, children⟩ := child
  by_cases h : kind = .and ∧ ∃ inner, children = [inner]
  · obtain ⟨rfl, inner, rfl⟩ := h
    refine ⟨inner, ?_, fun _ => rfl⟩
    rw [Selector.decides_and, List.all_cons, List.all_nil, Bool.and_true]
  · refine ⟨_, rfl, fun parent => ?_⟩
    unfold appendFinalizedIndexedSelector
    split
    · next he =>
      cases he
      exact absurd ⟨rfl, _, rfl⟩ h
    · rfl

/-- A group below becomes a disjunct. -/
def toDisjunction (rootOrMode : Bool) (g : IndexedGroup) : Bool := !rootOrMode && g.wrapper = .or

/-- The groups below are added to the selector or to the disjunction, each as what it decides. -/
theorem finalizeGroups_spec (hit : SelectorKind → Payload → Bool) (rootOrMode indexed : Bool) :
    ∀ (groups : List IndexedGroup) (s o : Selector),
      (finalizeGroups rootOrMode indexed groups s o).1.kind = s.kind ∧
      (finalizeGroups rootOrMode indexed groups s o).2.kind = o.kind ∧
      ∃ es eo,
        (finalizeGroups rootOrMode indexed groups s o).1.children = s.children ++ es ∧
        (finalizeGroups rootOrMode indexed groups s o).2.children = o.children ++ eo ∧
        es.map (Selector.decides hit) = (groups.filter fun g => !toDisjunction rootOrMode g).map
          (fun g => (finalizeIndexedGroup false g).decides hit) ∧
        eo.map (Selector.decides hit) = (groups.filter (toDisjunction rootOrMode)).map
          fun g => (finalizeIndexedGroup false g).decides hit
  | [], s, o => ⟨rfl, rfl, [], [], by simp [finalizeGroups], by simp [finalizeGroups], rfl, rfl⟩
  | g :: rest, s, o => by
    rw [finalizeGroups]
    by_cases hor : toDisjunction rootOrMode g = true
    · have hor' : (!rootOrMode && decide (g.wrapper = .or)) = true := hor
      obtain ⟨e, he, happ⟩ := appendFinalized_spec hit (finalizeIndexedGroup false g)
      obtain ⟨h1, h2, es, eo, h3, h4, h5, h6⟩ := finalizeGroups_spec hit rootOrMode indexed rest s (o.append e)
      rw [if_pos hor', happ o]
      refine ⟨h1, h2.trans (Selector.kind_append _ _), es, e :: eo, h3,
        by rw [h4, Selector.children_append, List.append_assoc]; rfl, ?_, ?_⟩
      · rw [h5, List.filter_cons_of_neg (by simp [hor])]
      · rw [List.map_cons, he, h6, List.filter_cons_of_pos hor, List.map_cons]
    · have hor' : ¬(!rootOrMode && decide (g.wrapper = .or)) = true := hor
      have hpos : (!toDisjunction rootOrMode g) = true := by simpa using hor
      rw [if_neg hor']
      have hstep : ∀ e, e.decides hit = (finalizeIndexedGroup false g).decides hit →
          (finalizeGroups rootOrMode indexed rest (s.append e) o).1.kind = s.kind ∧
          (finalizeGroups rootOrMode indexed rest (s.append e) o).2.kind = o.kind ∧
          ∃ es eo,
            (finalizeGroups rootOrMode indexed rest (s.append e) o).1.children = s.children ++ es ∧
            (finalizeGroups rootOrMode indexed rest (s.append e) o).2.children = o.children ++ eo ∧
            es.map (Selector.decides hit) = ((g :: rest).filter fun g => !toDisjunction rootOrMode g).map
              (fun g => (finalizeIndexedGroup false g).decides hit) ∧
            eo.map (Selector.decides hit) = ((g :: rest).filter (toDisjunction rootOrMode)).map
              fun g => (finalizeIndexedGroup false g).decides hit := by
        intro e he
        obtain ⟨h1, h2, es, eo, h3, h4, h5, h6⟩ := finalizeGroups_spec hit rootOrMode indexed rest (s.append e) o
        refine ⟨h1.trans (Selector.kind_append _ _), h2, e :: es, eo,
          by rw [h3, Selector.children_append, List.append_assoc]; rfl, h4, ?_, ?_⟩
        · rw [List.map_cons, he, h5, List.filter_cons_of_pos (p := fun g => !toDisjunction rootOrMode g) hpos, List.map_cons]
        · rw [h6, List.filter_cons_of_neg hor]
      split
      · obtain ⟨e, he, happ⟩ := appendFinalized_spec hit (finalizeIndexedGroup false g)
        rw [happ s]
        exact hstep e he
      · exact hstep _ rfl

/-- The end of `finalize_indexed_group`: the disjunction is added to the selector, or takes its place. -/
def settle (indexed : Bool) (s o : Selector) : Selector :=
  if o.children.length ≠ 0 then
    if !indexed && s.kind = .and && s.children.length = 0 then o else s.append o
  else s

theorem finalize_eq (rootOrMode : Bool) (g : IndexedGroup) : finalizeIndexedGroup rootOrMode g =
    settle g.indexed (finalizeGroups rootOrMode g.indexed g.groups g.selector (orGroupKind g.orGroup)).1
      (finalizeGroups rootOrMode g.indexed g.groups g.selector (orGroupKind g.orGroup)).2 := by
  obtain ⟨indexed, wrapper, index, selector, orGroup, groups⟩ := g
  rw [finalizeIndexedGroup]
  rfl

theorem settle_and {indexed : Bool} {s o : Selector} (hs : s.kind = .and) (ho : o.kind = .or) :
    (settle indexed s o).decides hit = true ↔ (∀ b ∈ s.children.map (Selector.decides hit), b = true) ∧
      (o.children.map (Selector.decides hit) ≠ [] → true ∈ o.children.map (Selector.decides hit)) := by
  obtain ⟨ks, ps, S⟩ := s
  obtain ⟨ko, po, O⟩ := o
  cases hs
  cases ho
  cases O with
  | nil =>
    show Selector.decides hit (.node .and ps S) = true ↔ _
    simp [Selector.decides_and, Selector.children]
  | cons c O =>
    by_cases htake : indexed = false ∧ S = []
    · obtain ⟨rfl, rfl⟩ := htake
      show Selector.decides hit (.node .or po (c :: O)) = true ↔ _
      simp [Selector.decides_or, Selector.children]
    · have : settle indexed (.node .and ps S) (.node .or po (c :: O)) =
          (Selector.node .and ps S).append (.node .or po (c :: O)) := by
        cases indexed with
        | true => rfl
        | false =>
          cases S with
          | nil => exact absurd ⟨rfl, rfl⟩ htake
          | cons _ _ => rfl
      rw [this]
      simp [Selector.append, Selector.decides_and, Selector.decides_or, Selector.children]

theorem settle_or {indexed : Bool} {s o : Selector} (hs : s.kind = .or) (ho : o.kind = .or) :
    (settle indexed s o).decides hit = true ↔
      true ∈ s.children.map (Selector.decides hit) ∨ true ∈ o.children.map (Selector.decides hit) := by
  obtain ⟨ks, ps, S⟩ := s
  obtain ⟨ko, po, O⟩ := o
  cases hs
  cases ho
  cases O with
  | nil =>
    show Selector.decides hit (.node .or ps S) = true ↔ _
    simp [Selector.decides_or, Selector.children]
  | cons c O =>
    have : settle indexed (.node .or ps S) (.node .or po (c :: O)) =
        (Selector.node .or ps S).append (.node .or po (c :: O)) := by
      cases indexed <;> rfl
    rw [this]
    simp [Selector.append, Selector.decides_or, Selector.children]

/-! ## The clauses of a group -/

/-- What a clause without a number ends as decides what the clause says; it is a disjunct as the parser sees it. -/
def NodeOk (hit : SelectorKind → Payload → Bool) (c : Clause) (s : Selector) : Prop :=
  if c.orish then ∃ inner, s.disjunct? = some inner ∧ inner.decides hit = part Clause.orish hit [c] c
  else s.disjunct? = none ∧ s.decides hit = part Clause.orish hit [c] c

/-- A clause without a number says the same in any company. -/
theorem part_alone {c : Clause} (h : c.key? = none) (cs : List Clause) (route : Clause → Bool) :
    part route hit cs c = part route hit [c] c := by
  cases c with
  | plain _ => rfl
  | wrapped w _ => cases w <;> rfl
  | indexed _ _ _ => cases h

theorem conj_says {c : Clause} (hn : ∀ s, c.node? = some s → NodeOk hit c s) {s : Selector}
    (h : c.conj? = some s) : c.orish = false ∧ s.decides hit = part Clause.orish hit [c] c := by
  rw [Clause.conj?, Option.bind_eq_some_iff] at h
  obtain ⟨s', hs', h⟩ := h
  have := hn s' hs'
  rw [NodeOk] at this
  split at this
  · obtain ⟨inner, hd, -⟩ := this
    rw [hd] at h
    cases h
  · next ho =>
    rw [this.1] at h
    cases h
    exact ⟨Bool.not_eq_true _ ▸ ho, this.2⟩

theorem disj_says {c : Clause} (hn : ∀ s, c.node? = some s → NodeOk hit c s) {s : Selector}
    (h : c.disj? = some s) : c.orish = true ∧ s.decides hit = part Clause.orish hit [c] c := by
  rw [Clause.disj?, Option.bind_eq_some_iff] at h
  obtain ⟨s', hs', h⟩ := h
  have := hn s' hs'
  rw [NodeOk] at this
  split at this
  · next ho =>
    obtain ⟨inner, hd, hi⟩ := this
    rw [hd] at h
    cases h
    exact ⟨ho, hi⟩
  · rw [this.1] at h
    cases h

/-- The decisions of the children that clauses without a number have added, where `pick` takes those of the
clauses that go there. -/
theorem added_iff {cs : List Clause} {pick : Clause → Option Selector} {o : Bool}
    (hkey : ∀ c s, pick c = some s → c.key? = none)
    (hsay : ∀ c ∈ cs, ∀ s, pick c = some s → c.orish = o ∧ s.decides hit = part Clause.orish hit [c] c)
    (hpick : ∀ c ∈ cs, c.key? = none → c.orish = o → ∃ s, pick c = some s) (b : Bool) :
    b ∈ (cs.filterMap pick).map (Selector.decides hit) ↔
      ∃ c ∈ cs, c.key? = none ∧ c.orish = o ∧ part Clause.orish hit cs c = b := by
  simp only [List.mem_map, List.mem_filterMap]
  constructor
  · rintro ⟨s, ⟨c, hc, hs⟩, rfl⟩
    obtain ⟨h1, h2⟩ := hsay c hc s hs
    exact ⟨c, hc, hkey c s hs, h1, by rw [part_alone (hkey c s hs), h2]⟩
  · rintro ⟨c, hc, hk, ho, rfl⟩
    obtain ⟨s, hs⟩ := hpick c hc hk ho
    exact ⟨s, ⟨c, hc, hs⟩, by rw [part_alone hk, (hsay c hc s hs).2]⟩

/-- The decisions of the groups below are what the clauses with a number say. -/
theorem below_iff {g : IndexedGroup} {cs : List Clause}
    (keys : ∀ key, key ∈ g.groups.map IndexedGroup.key ↔ members key cs ≠ [])
    (hsub : ∀ sub ∈ g.groups, (finalizeIndexedGroup false sub).decides hit =
      reads Clause.orish hit false (members sub.key cs)) (q : Join → Bool) (b : Bool) :
    b ∈ (g.groups.filter fun sub => q sub.wrapper).map (fun sub => (finalizeIndexedGroup false sub).decides hit) ↔
      ∃ c ∈ cs, (∃ key, c.key? = some key ∧ q key.1 = true) ∧ part Clause.orish hit cs c = b := by
  simp only [List.mem_map, List.mem_filter]
  constructor
  · rintro ⟨sub, ⟨hmem, hq⟩, rfl⟩
    have hne := (keys sub.key).mp (List.mem_map_of_mem hmem)
    obtain ⟨c, hc⟩ := List.exists_mem_of_ne_nil _ hne
    exact ⟨_, mem_members.mp hc, ⟨sub.key, rfl, hq⟩, (hsub sub hmem).symm⟩
  · rintro ⟨c, hc, ⟨key, hk, hq⟩, rfl⟩
    cases c with
    | plain _ => cases hk
    | wrapped _ _ => cases hk
    | indexed join index c0 =>
      cases hk
      have hne : members (join, index) cs ≠ [] := List.ne_nil_of_mem (mem_members.mpr hc)
      obtain ⟨sub, hmem, hkey⟩ := List.mem_map.mp ((keys _).mpr hne)
      refine ⟨sub, ⟨hmem, ?_⟩, ?_⟩
      · rw [show sub.wrapper = join from congrArg Prod.fst hkey]
        exact hq
      · rw [hsub sub hmem, hkey]
        rfl

/-- The decisions of a group's own children and of its disjunction are what its clauses say. With `rootOrMode`
the groups of disjuncts are kept apart from the disjunction. -/
theorem Built.level {g : IndexedGroup} {cs : List Clause} (h : Built g cs) (rootOrMode : Bool)
    (hnode : ∀ c ∈ cs, c.key? = none → ∃ s, c.node? = some s ∧ NodeOk hit c s)
    (hsub : ∀ sub ∈ g.groups, (finalizeIndexedGroup false sub).decides hit =
      reads Clause.orish hit false (members sub.key cs)) :
    let r := finalizeGroups rootOrMode g.indexed g.groups g.selector (orGroupKind g.orGroup)
    r.1.kind = g.selector.kind ∧ r.2.kind = .or ∧
      (∀ b, b ∈ r.1.children.map (Selector.decides hit) ↔
        ∃ c ∈ cs, (c.orish = false ∨ (rootOrMode = true ∧ c.key? ≠ none)) ∧ part Clause.orish hit cs c = b) ∧
      (∀ b, b ∈ r.2.children.map (Selector.decides hit) ↔
        ∃ c ∈ cs, (c.orish = true ∧ (rootOrMode = true → c.key? = none)) ∧ part Clause.orish hit cs c = b) := by
  obtain ⟨conj, disj, orKind, nodup, keys, fresh, below⟩ := h
  obtain ⟨h1, h2, es, eo, h3, h4, h5, h6⟩ := finalizeGroups_spec hit rootOrMode g.indexed g.groups g.selector
    (orGroupKind g.orGroup)
  have hnone : ∀ c : Clause, c.node? ≠ none → c.key? = none := by
    intro c hn
    cases c with
    | plain _ => rfl
    | wrapped _ _ => rfl
    | indexed _ _ _ => exact absurd rfl hn
  have hok : ∀ c ∈ cs, ∀ s, c.node? = some s → NodeOk hit c s := by
    intro c hc s hs
    obtain ⟨s', hs', ho⟩ := hnode c hc (hnone c (by rw [hs]; exact nofun))
    rw [hs] at hs'
    cases hs'
    exact ho
  have hconj : ∀ b, b ∈ (cs.filterMap Clause.conj?).map (Selector.decides hit) ↔ _ :=
    added_iff (fun c s hs => hnone c fun he => by rw [Clause.conj?, he] at hs; cases hs)
      (fun c hc s => conj_says (hok c hc)) fun c hc hk ho => by
        obtain ⟨s, hs, hn⟩ := hnode c hc hk
        rw [NodeOk, ho, if_neg Bool.false_ne_true] at hn
        exact ⟨s, by rw [Clause.conj?, hs, Option.bind_some, hn.1]; rfl⟩
  have hdisj : ∀ b, b ∈ (cs.filterMap Clause.disj?).map (Selector.decides hit) ↔ _ :=
    added_iff (fun c s hs => hnone c fun he => by rw [Clause.disj?, he] at hs; cases hs)
      (fun c hc s => disj_says (hok c hc)) fun c hc hk ho => by
        obtain ⟨s, hs, hn⟩ := hnode c hc hk
        rw [NodeOk, ho, if_pos rfl] at hn
        obtain ⟨inner, hi, -⟩ := hn
        exact ⟨inner, by rw [Clause.disj?, hs, Option.bind_some, hi]⟩
  -- a number says on its own whether its group is a disjunct
  have horish : ∀ (c : Clause) (key : Join × Bytes), c.key? = some key → c.orish = decide (key.1 = .or) := by
    intro c key hk
    cases c with
    | plain _ => cases hk
    | wrapped _ _ => cases hk
    | indexed _ _ _ => cases hk; rfl
  refine ⟨h1, h2.trans (orGroupKind_or orKind).1, fun b => ?_, fun b => ?_⟩
  · have hbelow : b ∈ (g.groups.filter fun sub => !toDisjunction rootOrMode sub).map
        (fun sub => (finalizeIndexedGroup false sub).decides hit) ↔ _ :=
      below_iff keys hsub (fun join => !(!rootOrMode && decide (join = .or))) b
    rw [h3, List.map_append, List.mem_append, conj, h5, hconj, hbelow]
    constructor
    · rintro (⟨c, hc, hk, ho, hb⟩ | ⟨c, hc, ⟨key, hk, hq⟩, hb⟩)
      · exact ⟨c, hc, .inl ho, hb⟩
      · refine ⟨c, hc, ?_, hb⟩
        rw [horish c key hk]
        cases rootOrMode
        · exact .inl (by simpa using hq)
        · exact .inr ⟨rfl, by rw [hk]; exact nofun⟩
    · rintro ⟨c, hc, hor, hb⟩
      cases hk : c.key? with
      | none =>
        refine .inl ⟨c, hc, hk, ?_, hb⟩
        rcases hor with ho | ⟨-, hne⟩
        · exact ho
        · exact absurd hk hne
      | some key =>
        refine .inr ⟨c, hc, ⟨key, hk, ?_⟩, hb⟩
        rw [horish c key hk] at hor
        rcases hor with ho | ⟨rfl, -⟩
        · simp [of_decide_eq_false ho]
        · rfl
  · have hbelow : b ∈ (g.groups.filter (toDisjunction rootOrMode)).map
        (fun sub => (finalizeIndexedGroup false sub).decides hit) ↔ _ :=
      below_iff keys hsub (fun join => !rootOrMode && decide (join = .or)) b
    rw [h4, List.map_append, List.mem_append, (orGroupKind_or orKind).2, disj, h6, hdisj, hbelow]
    constructor
    · rintro (⟨c, hc, hk, ho, hb⟩ | ⟨c, hc, ⟨key, hk, hq⟩, hb⟩)
      · exact ⟨c, hc, ⟨ho, fun _ => hk⟩, hb⟩
      · refine ⟨c, hc, ?_, hb⟩
        rw [horish c key hk]
        simp only [Bool.and_eq_true, Bool.not_eq_true'] at hq
        exact ⟨hq.2, fun ht => by rw [ht] at hq; cases hq.1⟩
    · rintro ⟨c, hc, ⟨ho, hroot⟩, hb⟩
      cases hk : c.key? with
      | none => exact .inl ⟨c, hc, hk, ho, hb⟩
      | some key =>
        refine .inr ⟨c, hc, ⟨key, hk, ?_⟩, hb⟩
        rw [horish c key hk] at ho
        cases rootOrMode
        · simpa using ho
        · rw [hroot rfl] at hk
          cases hk

/-- A group of conjuncts decides as its clauses are read, and a group of alternatives too. -/
theorem Built.decides {g : IndexedGroup} {cs : List Clause} (h : Built g cs)
    (hnode : ∀ c ∈ cs, c.key? = none → ∃ s, c.node? = some s ∧ NodeOk hit c s)
    (hsub : ∀ sub ∈ g.groups, (finalizeIndexedGroup false sub).decides hit =
      reads Clause.orish hit false (members sub.key cs)) :
    (g.selector.kind = .and → (finalizeIndexedGroup false g).decides hit = reads Clause.orish hit false cs) ∧
      (g.selector.kind = .or → (finalizeIndexedGroup true g).decides hit = reads Clause.orish hit true cs) := by
  constructor
  · intro hk
    obtain ⟨h1, h2, h3, h4⟩ := h.level false hnode hsub
    rw [Bool.eq_iff_iff, finalize_eq, settle_and (h1.trans hk) h2, reads_false]
    refine and_congr ?_ ?_
    · constructor
      · intro hall c hc ho
        exact hall _ ((h3 _).mpr ⟨c, hc, .inl ho, rfl⟩)
      · intro hall b hb
        obtain ⟨c, hc, ho, rfl⟩ := (h3 b).mp hb
        rcases ho with ho | ⟨ho, -⟩
        · exact hall c hc ho
        · cases ho
    · have hany : ∀ b, b ∈ _ ↔ ∃ c ∈ cs, c.orish = true ∧ part Clause.orish hit cs c = b := fun b => by
        rw [h4 b]
        simp
      rw [hany]
      refine imp_congr ?_ Iff.rfl
      constructor
      · intro hne
        obtain ⟨b, hb⟩ := List.exists_mem_of_ne_nil _ hne
        obtain ⟨c, hc, ho, -⟩ := (hany b).mp hb
        exact ⟨c, hc, ho⟩
      · rintro ⟨c, hc, ho⟩
        exact List.ne_nil_of_mem ((hany _).mpr ⟨c, hc, ho, rfl⟩)
  · intro hk
    obtain ⟨h1, h2, h3, h4⟩ := h.level true hnode hsub
    rw [Bool.eq_iff_iff, finalize_eq, settle_or (h1.trans hk) h2, reads_true, h3, h4]
    constructor
    · rintro (⟨c, hc, -, hp⟩ | ⟨c, hc, -, hp⟩)
      · exact ⟨c, hc, hp⟩
      · exact ⟨c, hc, hp⟩
    · rintro ⟨c, hc, hp⟩
      by_cases hn : c.orish = true ∧ c.key? = none
      · exact .inr ⟨c, hc, ⟨hn.1, fun _ => hn.2⟩, hp⟩
      · refine .inl ⟨c, hc, ?_, hp⟩
        cases ho : c.orish with
        | false => exact .inl rfl
        | true => exact .inr ⟨rfl, fun hk => hn ⟨ho, hk⟩⟩

/-! ## One wrapped clause -/

theorem append_plain_new {g : IndexedGroup} (s : Selector) (hs : g.selector.children = [])
    (ho : g.orGroup.children = []) : ∃ g', appendPlainGroupNode g s = .ok g' := by
  cases hd : s.disjunct? with
  | none =>
    rw [appendPlainGroupNode_other hd, if_neg (by simp [selectorConflictsWithChild, hs])]
    exact ⟨_, rfl⟩
  | some inner =>
    have : (orGroupKind g.orGroup).children = [] := by
      obtain ⟨_, _, _, _, ⟨k, p, cs⟩, _⟩ := g
      exact ho
    rw [appendPlainGroupNode_disjunct hd, if_neg (by simp [selectorConflictsWithChild, this])]
    exact ⟨_, rfl⟩

/-- A new group takes any clause. -/
theorem append_new : ∀ {c : Clause} {g : IndexedGroup}, g.selector.children = [] → g.orGroup.children = [] →
    g.groups = [] → ∃ g', appendClause g c = .ok g'
  | .plain s, g, hs, ho, _ => append_plain_new s hs ho
  | .wrapped w c, g, hs, ho, _ => by
    obtain ⟨wrapped, hw⟩ := append_new (c := c) (g := .plainNew w.kind) rfl rfl rfl
    rw [appendClause, hw]
    exact append_plain_new _ hs ho
  | .indexed join index c, g, _, _, hg => by
    obtain ⟨sub, hsub⟩ := append_new (c := c) (g := .indexedNew join index) rfl rfl rfl
    rw [appendClause, hg, ensureIndexedGroup, hsub]
    exact ⟨_, rfl⟩

/-- What a wrapper and its one clause end as, when the clause has become the selector `s`. -/
theorem finalize_wrapped_plain {w : Wrapper} {s : Selector} {g : IndexedGroup}
    (h : appendPlainGroupNode (.plainNew w.kind) s = .ok g) :
    finalizeIndexedGroup (w = .or) g =
      match s.disjunct? with
      | none => .node w.kind {} [s]
      | some inner => if w = .and then .node .or {} [inner] else .node w.kind {} [.node .or {} [inner]] := by
  cases hd : s.disjunct? with
  | none =>
    rw [appendPlainGroupNode_other hd] at h
    cases h
    cases w <;> rfl
  | some inner =>
    rw [appendPlainGroupNode_disjunct hd] at h
    cases h
    cases w <;> rfl

/-- The same when the clause has a number: its group adds one child. -/
theorem finalize_wrapped_indexed (hit : SelectorKind → Payload → Bool) (w : Wrapper) (sub : IndexedGroup) :
    ∃ e : Selector, e.decides hit = (finalizeIndexedGroup false sub).decides hit ∧
      finalizeIndexedGroup (w = .or) { IndexedGroup.plainNew w.kind with groups := [sub] } =
        if w ≠ .or ∧ sub.wrapper = .or then
          if w = .and then .node .or {} [e] else .node w.kind {} [.node .or {} [e]]
        else .node w.kind {} [e] := by
  obtain ⟨e, he, happ⟩ := appendFinalized_spec hit (finalizeIndexedGroup false sub)
  cases hs : sub.wrapper with
  | and =>
    refine ⟨e, he, ?_⟩
    rw [finalize_eq]
    cases w <;> simp [finalizeGroups, IndexedGroup.plainNew, hs, happ] <;> rfl
  | or =>
    cases w with
    | or =>
      -- among alternatives the group keeps its own node
      refine ⟨finalizeIndexedGroup false sub, rfl, ?_⟩
      rw [finalize_eq]
      simp [finalizeGroups, IndexedGroup.plainNew, hs]
      rfl
    | and | not =>
      refine ⟨e, he, ?_⟩
      rw [finalize_eq]
      simp [finalizeGroups, IndexedGroup.plainNew, hs, happ]
      rfl

/-- A wrapped clause decides what it says, given that its clause does. -/
theorem wrapped_ok {w : Wrapper} {c : Clause} (hnode : ∀ s, c.node? = some s → NodeOk hit c s)
    (hsub : ∀ join index c', c = .indexed join index c' → ∀ sub, appendClause (.indexedNew join index) c' = .ok sub →
      (finalizeIndexedGroup false sub).decides hit = reads Clause.orish hit false [c']) :
    ∃ s, (Clause.wrapped w c).node? = some s ∧ NodeOk hit (.wrapped w c) s := by
  obtain ⟨g, hg⟩ := append_new (c := c) (g := .plainNew w.kind) rfl rfl rfl
  refine ⟨_, by rw [Clause.node?, hg], ?_⟩
  have hpart : part Clause.orish hit [.wrapped w c] (.wrapped w c) =
      if w = .not then !part Clause.orish hit [c] c else part Clause.orish hit [c] c := by
    cases w
    · exact reads_single false c
    · exact reads_single false c
    · exact congrArg not (reads_single false c)
  have hplain : ∀ s, c.node? = some s → NodeOk hit c s → appendPlainGroupNode (.plainNew w.kind) s = .ok g →
      ∃ e : Selector, e.decides hit = part Clause.orish hit [c] c ∧
        (finalizeIndexedGroup (w = .or) g = .node w.kind {} [e] ∧ (c.orish = true → w = .or) ∨
        finalizeIndexedGroup (w = .or) g =
          (if w = .and then .node .or {} [e] else .node w.kind {} [.node .or {} [e]]) ∧ c.orish = true) := by
    intro s _ hok ha
    rw [finalize_wrapped_plain ha]
    rw [NodeOk] at hok
    split at hok
    · next ho =>
      obtain ⟨inner, hd, hi⟩ := hok
      exact ⟨inner, hi, .inr ⟨by rw [hd], ho⟩⟩
    · next ho => exact ⟨s, hok.2, .inl ⟨by rw [hok.1], fun h => absurd h ho⟩⟩
  -- the wrapped group has one child, which is below a disjunction where the clause is a disjunct
  obtain ⟨e, he, hfin⟩ : ∃ e : Selector, e.decides hit = part Clause.orish hit [c] c ∧
      (finalizeIndexedGroup (w = .or) g = .node w.kind {} [e] ∧ (c.orish = true → w = .or) ∨
      finalizeIndexedGroup (w = .or) g =
        (if w = .and then .node .or {} [e] else .node w.kind {} [.node .or {} [e]]) ∧ c.orish = true) := by
    cases c with
    | indexed join index c' =>
      obtain ⟨sub, hs⟩ := append_new (c := c') (g := .indexedNew join index) rfl rfl rfl
      have hgroup : g = { IndexedGroup.plainNew w.kind with groups := [sub] } := by
        rw [appendClause] at hg
        simp only [IndexedGroup.plainNew, ensureIndexedGroup, hs] at hg
        exact (Except.ok.inj hg).symm
      have hjoin : sub.wrapper = join := congrArg Prod.fst (appendClause_same hs).key
      obtain ⟨e, he, hfin⟩ := finalize_wrapped_indexed hit w sub
      refine ⟨e, ?_, ?_⟩
      · rw [he, hsub join index c' rfl sub hs, part, members_self]
      · rw [hgroup, hfin, hjoin]
        by_cases hor : w ≠ .or ∧ join = .or
        · rw [if_pos hor]
          exact .inr ⟨rfl, by rw [Clause.orish, decide_eq_true hor.2]⟩
        · rw [if_neg hor]
          refine .inl ⟨rfl, fun ho => ?_⟩
          by_contra hne
          exact hor ⟨hne, of_decide_eq_true ho⟩
    | plain s => exact hplain s rfl (hnode s rfl) hg
    | wrapped w' c' =>
      obtain ⟨wrapped, hw⟩ := append_new (c := c') (g := .plainNew w'.kind) rfl rfl rfl
      have hs : (Clause.wrapped w' c').node? = some (finalizeIndexedGroup (w' = .or) wrapped) := by
        rw [Clause.node?, hw]
      refine hplain _ hs (hnode _ hs) ?_
      rwa [appendClause, hw] at hg
  have hor : ∀ e : Selector, (Selector.node .or {} [e]).decides hit = e.decides hit := fun e => by
    rw [Selector.decides_or, List.any_cons, List.any_nil, Bool.or_false]
  have hand : ∀ e : Selector, (Selector.node .and {} [e]).decides hit = e.decides hit := fun e => by
    rw [Selector.decides_and, List.all_cons, List.all_nil, Bool.and_true]
  rw [NodeOk, hpart, ← he]
  rcases hfin with ⟨hfin, ho⟩ | ⟨hfin, ho⟩
  · rw [hfin]
    cases w with
    | and =>
      have hno : c.orish = false := by
        cases hc : c.orish with
        | false => rfl
        | true => cases ho hc
      rw [if_neg (by rw [Clause.orish, hno]; exact Bool.false_ne_true)]
      exact ⟨rfl, hand e⟩
    | or => exact (if_pos (c := Clause.orish (.wrapped .or c) = true) rfl).mpr ⟨e, rfl, rfl⟩
    | not => exact (if_neg (c := Clause.orish (.wrapped .not c) = true) Bool.false_ne_true).mpr ⟨rfl, rfl⟩
  · rw [hfin]
    cases w with
    | and =>
      rw [if_pos (by rw [Clause.orish, ho])]
      exact ⟨e, rfl, rfl⟩
    | or => exact (if_pos (c := Clause.orish (.wrapped .or c) = true) rfl).mpr ⟨_, rfl, hor e⟩
    | not =>
      refine (if_neg (c := Clause.orish (.wrapped .not c) = true) Bool.false_ne_true).mpr ⟨rfl, ?_⟩
      exact congrArg not (hor e)

/-! ## Every group -/

theorem size_le_totalSize {cs : List Clause} {c : Clause} (h : c ∈ cs) : c.size ≤ totalSize cs := by
  obtain ⟨front, back, rfl⟩ := List.append_of_mem h
  simp only [totalSize, List.map_append, List.map_cons, List.sum_append, List.sum_cons]
  omega

/-- **What clauses and groups end as decides what they say**, by the size of what is to be read. -/
theorem decides_of_size (hit : SelectorKind → Payload → Bool) (n : Nat) :
    (∀ c : Clause, c.size ≤ n → c.Ok → c.key? = none → ∃ s, c.node? = some s ∧ NodeOk hit c s) ∧
    (∀ (cs : List Clause) (g : IndexedGroup), totalSize cs ≤ n → (∀ c ∈ cs, c.Ok) → Built g cs →
      (g.selector.kind = .and → (finalizeIndexedGroup false g).decides hit = reads Clause.orish hit false cs) ∧
      (g.selector.kind = .or → (finalizeIndexedGroup true g).decides hit = reads Clause.orish hit true cs)) := by
  induction n using Nat.strongRecOn with
  | ind n ih =>
    have hclause : ∀ c : Clause, c.size ≤ n → c.Ok → c.key? = none → ∃ s, c.node? = some s ∧ NodeOk hit c s := by
      intro c hle hok hk
      cases c with
      | indexed _ _ _ => cases hk
      | plain s =>
        refine ⟨s, rfl, ?_⟩
        rw [NodeOk, if_neg (by rw [Clause.orish]; exact Bool.false_ne_true)]
        exact ⟨disjunct_leaf hok, rfl⟩
      | wrapped w c =>
        have hlt : c.size < n := hle
        refine wrapped_ok (fun s hs => ?_) (fun join index c' he sub hsub => ?_)
        · have hk : c.key? = none := by
            cases c with
            | indexed _ _ _ => cases hs
            | plain _ => rfl
            | wrapped _ _ => rfl
          obtain ⟨s', hs', hn⟩ := (ih _ hlt).1 c (Nat.le_refl _) hok hk
          rw [hs] at hs'
          cases hs'
          exact hn
        · subst he
          have hb : Built sub [c'] := appendClause_built (built_new rfl rfl rfl) hsub
          have hle : totalSize [c'] ≤ (Clause.indexed join index c').size := by
            simp [totalSize, Clause.size]
          refine ((ih _ hlt).2 [c'] sub hle (fun c hc => ?_) hb).1 (appendClause_same hsub).kind
          cases List.mem_singleton.mp hc
          exact hok
    refine ⟨hclause, fun cs g hle hok hb => ?_⟩
    refine hb.decides (fun c hc hk => hclause c (Nat.le_trans (size_le_totalSize hc) hle) (hok c hc) hk) fun sub hsub => ?_
    obtain ⟨-, -, -, -, keys, fresh, below⟩ := hb
    have hne := (keys sub.key).mp (List.mem_map_of_mem hsub)
    obtain ⟨c, hc⟩ := List.exists_mem_of_ne_nil _ hne
    have hlt : totalSize (members sub.key cs) < n := Nat.lt_of_lt_of_le (totalSize_members (mem_members.mp hc)) hle
    refine ((ih _ hlt).2 _ sub (Nat.le_refl _) (fun c hc => ?_) (below sub hsub)).1 (fresh sub hsub).2
    have := hok _ (mem_members.mp hc)
    exact this

/-- The clauses of a text end as a selector that decides what they say. -/
theorem finalize_reads {cs : List Clause} (hok : ∀ c ∈ cs, c.Ok) (orMode : Bool) {g : IndexedGroup}
    (h : cs.foldlM appendClause (.plainNew (if orMode then .or else .and)) = .ok g) :
    (finalizeIndexedGroup orMode g).decides hit = reads Clause.orish hit orMode cs := by
  have hfold : ∀ (rest front : List Clause) (g0 : IndexedGroup), Built g0 front →
      rest.foldlM appendClause g0 = .ok g → Built g (front ++ rest) ∧ g.selector.kind = g0.selector.kind := by
    intro rest
    induction rest with
    | nil =>
      intro front g0 hb h
      cases h
      rw [List.append_nil]
      exact ⟨hb, rfl⟩
    | cons c rest ih =>
      intro front g0 hb h
      rw [List.foldlM_cons, bind_ok_iff] at h
      obtain ⟨g1, h1, h2⟩ := h
      obtain ⟨hb', hk⟩ := ih _ _ (appendClause_built hb h1) h2
      rw [List.append_assoc] at hb'
      exact ⟨hb', hk.trans (appendClause_same h1).kind⟩
  obtain ⟨hb, hk⟩ := hfold cs [] _ (built_new rfl rfl rfl) h
  obtain ⟨h1, h2⟩ := (decides_of_size hit _).2 cs g (Nat.le_refl _) hok hb
  cases orMode with
  | true => exact h2 hk
  | false => exact h1 hk

end Decides

end Lql.Selector
