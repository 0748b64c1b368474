import Lql.Selector.Clone

/-!
# Refusals

What a clone of a whole selector asks for, in order, and what it leaves where a request is refused. A struct starts as a
copy of its source and gets its own children last: up to then it has the array of the source for its own, and where no
array is granted it keeps the count without one.
-/

namespace Lql.Build

open Lib Lib.Heap
open Selector (SelectorKind LiteralKind AnyValue)

variable {σ : Type} {B : Blocks σ} {base : Nat} {h : Heap (Block σ)} {grants : Nat → Bool}

/-! ## Requests -/

mutual

/-- The requests of a clone, in order: true for one whose refusal leaves something of the source in the clone. -/
def requests : Tree σ → List Bool
  | .node c [] => List.replicate (contentRequests c) false
  | .node c (t :: ts) => List.replicate (contentRequests c) true ++ (!ts.isEmpty) :: childRequests (t :: ts)

def childRequests : List (Tree σ) → List Bool
  | [] => []
  | t :: ts => requests t ++ childRequests ts

end

/-! ## Structs that hurt their source -/

/-- The arrays of children of a selector. -/
def Reaches (B : Blocks σ) : Nat → Node σ → Nat → Prop
  | 0, _, _ => False
  | depth + 1, n, a => ∃ b ns, n.children = some b ∧ B b = some (.nodes ns) ∧
      (a = b ∨ ∃ m ∈ ns, Reaches B depth m a)

/-- A struct that cannot be cleaned up without a fault or without freeing `F`; what is looked at on the way to there is
in `H`. -/
def Hurts (B : Blocks σ) (F : Nat) : Nat → Node σ → List Nat → Prop
  | 0, _, _ => False
  | depth + 1, n, H => n.children = some F ∨ (n.children = none ∧ 2 ≤ n.childCount) ∨
      ∃ L1 a front m back Ls H', OwnsContent B n L1 ∧ n.children = some a ∧
        B a = some (.nodes (front ++ m :: back)) ∧ n.childCount = (front ++ m :: back).length ∧
        List.Forall₂ (Owns B depth) front Ls ∧ Hurts B F depth m H' ∧
        H = L1 ++ (Ls.flatten ++ (H' ++ [a]))

theorem Hurts.congr {F : Nat} {B B' : Blocks σ} : ∀ {depth : Nat} {n : Node σ} {H : List Nat},
    (∀ a ∈ H, B' a = B a) → Hurts B F depth n H → Hurts B' F depth n H
  | depth + 1, n, H, h, hn => by
    rcases hn with hF | hcount | ⟨L1, a, front, m, back, Ls, H', hc, ha, hns, hcount, hfront, hm, rfl⟩
    · exact .inl hF
    · exact .inr (.inl hcount)
    · refine .inr (.inr ⟨L1, a, front, m, back, Ls, H', hc.congr fun b hb => h b (List.mem_append_left _ hb), ha,
        (h a ?_).trans hns, hcount, ?_, hm.congr fun b hb => h b ?_, rfl⟩)
      · exact List.mem_append_right _ (List.mem_append_right _ (List.mem_append_right _ (List.mem_singleton.mpr rfl)))
      · exact forall₂_congr_flatten (fun n _ L hb hn => hn.congr hb)
          (fun b hb => h b (List.mem_append_right _ (List.mem_append_left _ hb))) hfront
      · exact List.mem_append_right _ (List.mem_append_right _ (List.mem_append_left _ hb))

/-! ## Cleaning up never brings a block back -/

theorem readAs_heap {α : Type} {f : Block σ → Option α} {p : Option Nat} {r : α × Heap (Block σ)}
    (hr : readAs f p h = .ok r) : r.2 = h := by
  cases p with
  | none => cases hr
  | some a =>
    obtain ⟨b, h1, hread, hf⟩ := run_bind_ok.mp hr
    rw [Heap.read] at hread
    split at hread
    · cases hread
      cases hx : f b with
      | none =>
        rw [hx] at hf
        cases hf
      | some x =>
        rw [hx] at hf
        cases hf
        rfl
    · cases hread

theorem readAt_heap {α : Type} {f : Block σ → Option (List α)} {p : Option Nat} {i : Nat} {r : α × Heap (Block σ)}
    (hr : readAt f p i h = .ok r) : r.2 = h := by
  obtain ⟨xs, h1, hread, hf⟩ := run_bind_ok.mp hr
  have h1eq := readAs_heap hread
  dsimp only at h1eq
  subst h1eq
  cases hx : xs[i]? with
  | none =>
    rw [hx] at hf
    cases hf
  | some x =>
    rw [hx] at hf
    cases hf
    rfl

theorem writeNode_heap {a i : Nat} {n : Node σ} {r : Unit × Heap (Block σ)} (hr : writeNode a i n h = .ok r) :
    (h.block a).isSome ∧ ∀ x, x ≠ a → r.2.block x = h.block x := by
  obtain ⟨ns, h1, hread, hwrite⟩ := run_bind_ok.mp hr
  have h1eq := readAs_heap hread
  dsimp only at h1eq
  subst h1eq
  rw [Heap.write] at hwrite
  split at hwrite
  · next hb =>
    cases hwrite
    rw [hb]
    exact ⟨rfl, fun x hx => put_of_ne _ _ hx⟩
  · cases hwrite

theorem cleanupItems_shrinks {any : Option Nat} {i count : Nat} {r : Unit × Heap (Block σ)}
    (hr : cleanupItems any i count h = .ok r) : Shrinks h.block r.2.block := by
  induction count generalizing i h with
  | zero =>
    cases hr
    exact .refl _
  | succ count ih =>
    obtain ⟨p, h1, hread, hrest⟩ := run_bind_ok.mp hr
    have h1eq := readAt_heap hread
    dsimp only at h1eq
    subst h1eq
    obtain ⟨_, h2, hfree, hrest⟩ := run_bind_ok.mp hrest
    exact (free_shrinks hfree).1.trans (ih hrest)

theorem cleanupContent_shrinks {n : Node σ} {r : Unit × Heap (Block σ)} (hr : cleanupContent n h = .ok r) :
    Shrinks h.block r.2.block := by
  obtain ⟨_, h1, hfield, hr⟩ := run_bind_ok.mp hr
  obtain ⟨_, h2, hvalue, hr⟩ := run_bind_ok.mp hr
  obtain ⟨_, h3, hitems, hr⟩ := run_bind_ok.mp hr
  obtain ⟨_, h4, harrays, hbounds⟩ := run_bind_ok.mp hr
  exact (free_shrinks hfield).1.trans ((free_shrinks hvalue).1.trans ((cleanupItems_shrinks hitems).trans
    ((freeAll_shrinks harrays).trans (freeAll_shrinks hbounds))))

/-- All blocks but that of the array are as they were, or gone. -/
theorem cleanupChildren_shrinks [Inhabited σ] {clean : Node σ → M σ Unit}
    (hclean : ∀ {n : Node σ} {h : Heap (Block σ)} {r : Unit × Heap (Block σ)}, clean n h = .ok r →
      Shrinks h.block r.2.block) {children : Option Nat} {i count : Nat} {r : Unit × Heap (Block σ)}
    (hr : cleanupChildren clean children i count h = .ok r) :
    ∀ x, (x ∉ children → r.2.block x = h.block x ∨ r.2.block x = none) ∧ (h.block x = none → r.2.block x = none) := by
  induction count generalizing i h with
  | zero =>
    cases hr
    exact fun x => ⟨fun _ => .inl rfl, id⟩
  | succ count ih =>
    cases children with
    | none =>
      by_cases hi : i = 0
      · subst hi
        exact ih hr
      · have hfault : cleanupChildren clean none i (count + 1) h = .error .null := by
          rw [cleanupChildren]
          dsimp only
          rw [if_neg hi]
          rfl
        rw [hfault] at hr
        cases hr
    | some a =>
      have hr' : (readAt Block.nodes? (some a) i >>= fun n => clean n >>= fun _ => writeNode a i .zero >>= fun _ =>
          cleanupChildren clean (some a) (i + 1) count) h = .ok r := hr
      obtain ⟨n, h1, hread, hrun⟩ := run_bind_ok.mp hr'
      have h1eq := readAt_heap hread
      dsimp only at h1eq
      subst h1eq
      obtain ⟨_, h2, hn, hrun⟩ := run_bind_ok.mp hrun
      obtain ⟨_, h3, hwrite, hrest⟩ := run_bind_ok.mp hrun
      obtain ⟨hlive, hother⟩ := writeNode_heap hwrite
      intro x
      obtain ⟨hkept, hdead⟩ := ih hrest x
      have hn' := hclean hn x
      dsimp only at hn' hother
      refine ⟨fun hx => ?_, fun hx => ?_⟩
      · have hxa : x ≠ a := fun heq => hx (Option.mem_some_iff.mpr heq.symm)
        rcases hkept hx with hkept | hkept
        · rw [hkept, hother x hxa]
          exact hn'
        · exact .inr hkept
      · by_cases hxa : x = a
        · rw [hxa] at hx hn'
          rw [hx, or_self] at hn'
          rw [hn'] at hlive
          cases hlive
        · rw [hx, or_self] at hn'
          exact hdead ((hother x hxa).trans hn')

/-- Every block is as it was, or gone, and the array of the children is gone. -/
theorem cleanup_shrinks [Inhabited σ] : ∀ {depth : Nat} {n : Node σ} {h : Heap (Block σ)} {r : Unit × Heap (Block σ)},
    cleanup depth n h = .ok r → Shrinks h.block r.2.block ∧ ∀ a ∈ n.children, r.2.block a = none
  | 0, _, _, _, hr => nomatch hr
  | depth + 1, n, h, r, hr => by
    obtain ⟨_, h1, hcontent, hr⟩ := run_bind_ok.mp hr
    obtain ⟨_, h2, hchildren, hfree⟩ := run_bind_ok.mp hr
    have hloop := cleanupChildren_shrinks (fun hn => (cleanup_shrinks hn).1) hchildren
    obtain ⟨hshrinks, hgone⟩ := free_shrinks hfree
    refine ⟨fun x => ?_, hgone⟩
    by_cases hx : x ∈ n.children
    · exact .inr (hgone x hx)
    · rcases hshrinks x with heq | hnone
      · rw [heq]
        rcases (hloop x).1 hx with heq | hnone
        · dsimp only at heq
          rw [heq]
          exact cleanupContent_shrinks hcontent x
        · exact .inr hnone
      · exact .inr hnone

theorem cleanupChildren_add [Inhabited σ] (clean : Node σ → M σ Unit) (a i m n : Nat) :
    cleanupChildren clean (some a) i (m + n) =
      (cleanupChildren clean (some a) i m >>= fun _ => cleanupChildren clean (some a) (i + m) n) := by
  induction m generalizing i with
  | zero => rw [Nat.zero_add]; rfl
  | succ m ih =>
    rw [Nat.add_right_comm, cleanupChildren, cleanupChildren]
    dsimp only
    simp only [bind_assoc, ih, Nat.add_assoc, Nat.add_comm 1 m]

theorem cleanupChildren_null [Inhabited σ] (clean : Node σ → M σ Unit) {count : Nat} (hcount : 2 ≤ count) (h : Heap (Block σ)) :
    cleanupChildren clean none 0 count h = .error .null := by
  obtain ⟨rest, rfl⟩ := Nat.exists_eq_add_of_le' hcount
  rfl

/-- **Cleaning up a struct that hurts ends in a fault or frees `F`.** -/
theorem cleanup_hurts [Inhabited σ] {F : Nat} : ∀ {depth : Nat} {n : Node σ} {H : List Nat} {h : Heap (Block σ)}
    {r : Unit × Heap (Block σ)}, Hurts h.block F depth n H → H.Nodup → cleanup depth n h = .ok r → r.2.block F = none
  | depth + 1, n, H, h, r, hn, hH, hr => by
    rcases hn with hF | ⟨hnone, hcount⟩ | ⟨L1, a, front, m, back, Ls, H', hc, ha, hns, hcount, hfront, hm, rfl⟩
    · exact (cleanup_shrinks hr).2 F (by rw [hF]; rfl)
    · obtain ⟨_, h1, -, hr⟩ := run_bind_ok.mp hr
      obtain ⟨_, h2, hchildren, -⟩ := run_bind_ok.mp hr
      rw [hnone, cleanupChildren_null _ hcount] at hchildren
      cases hchildren
    · obtain ⟨hL1, hrest, hapart⟩ := List.nodup_append.mp hH
      obtain ⟨hLs, hrest, hapart'⟩ := List.nodup_append.mp hrest
      obtain ⟨hH', -, hapart''⟩ := List.nodup_append.mp hrest
      have hmem := List.mem_singleton.mpr (rfl : a = a)
      have haL1 : a ∉ L1 := fun hin =>
        hapart a hin a (List.mem_append_right _ (List.mem_append_right _ hmem)) rfl
      have haLs : a ∉ Ls.flatten := fun hin => hapart' a hin a (List.mem_append_right _ hmem) rfl
      -- the children in front are cleaned up as they should be
      have hfront' : List.Forall₂ (Owns (erase h.block L1) depth) front Ls :=
        forall₂_congr_flatten (fun n _ L hb hn => hn.congr hb) (fun b hb => erase_of_not_mem fun hin =>
          hapart b hin b (List.mem_append_left _ hb) rfl) hfront
      have hloop : cleanupChildren (cleanup depth) (some a) 0 front.length { h with block := erase h.block L1 } = _ :=
        cleanupChildren_eq (R := fun B n L => Owns B depth n L) (fun h n L hn hL => cleanup_eq hn hL)
          (fun hB hn => hn.congr hB) [] ((erase_of_not_mem haL1).trans hns) hfront' hLs haLs
      obtain ⟨_, h1, hcontent, hr⟩ := run_bind_ok.mp hr
      rw [cleanupContent_eq hc hL1] at hcontent
      cases hcontent
      obtain ⟨_, h2, hchildren, hfree⟩ := run_bind_ok.mp hr
      rw [ha, hcount, List.length_append, cleanupChildren_add, run_bind hloop, List.length_cons, cleanupChildren]
        at hchildren
      have hchildren' : (readAt Block.nodes? (some a) (0 + front.length) >>= fun n => cleanup depth n >>= fun _ =>
          writeNode a (0 + front.length) .zero >>= fun _ =>
          cleanupChildren (cleanup depth) (some a) (0 + front.length + 1) back.length) _ = .ok ((), h2) := hchildren
      have hget : ([] ++ (List.replicate front.length Node.zero ++ m :: back))[0 + front.length]? = some m := by
        rw [List.nil_append, List.getElem?_append_right (by rw [List.length_replicate]; omega), List.length_replicate,
          Nat.zero_add, Nat.sub_self, List.getElem?_cons_zero]
      rw [run_bind (readAt_eq (f := Block.nodes?) (put_self _ _ _) rfl hget)] at hchildren'
      obtain ⟨_, h3, hclean, hrun⟩ := run_bind_ok.mp hchildren'
      obtain ⟨_, h4, hwrite, hback⟩ := run_bind_ok.mp hrun
      have hdead : h3.block F = none := by
        refine cleanup_hurts (hm.congr fun b hb => ?_) hH' hclean
        dsimp only
        rw [put_of_ne _ _ fun heq => hapart'' b hb a hmem heq,
          erase_of_not_mem fun hin => hapart' b hin b (List.mem_append_left _ hb) rfl,
          erase_of_not_mem fun hin => hapart b hin b (List.mem_append_right _ (List.mem_append_left _ hb)) rfl]
      have hdead4 : h4.block F = none := by
        obtain ⟨hlive, hother⟩ := writeNode_heap hwrite
        by_cases hFa : F = a
        · rw [← hFa, hdead] at hlive
          cases hlive
        · exact (hother F hFa).trans hdead
      have hdead2 := (cleanupChildren_shrinks (fun hn => (cleanup_shrinks hn).1) hback F).2 hdead4
      rcases (free_shrinks hfree).1 F with heq | hnone
      · rw [heq]
        exact hdead2
      · exact hnone

/-! ## Reading what is owned -/

theorem Reads.congr_all {R : Node σ → List Nat → Prop} {S S' : Node σ → Tree σ → Prop} {B B' : Blocks σ}
    (hstep : ∀ n L t, (∀ x ∈ L, B' x = B x) → R n L → S n t → S' n t) {ns : List (Node σ)} {Ls : List (List Nat)}
    {ts : List (Tree σ)} (h : ∀ x ∈ Ls.flatten, B' x = B x) (hR : List.Forall₂ R ns Ls) (hS : List.Forall₂ S ns ts) :
    List.Forall₂ S' ns ts := by
  induction hR generalizing ts with
  | nil =>
    cases hS
    exact .nil
  | cons hn _ ih =>
    cases hS with
    | cons ht hS =>
      rw [List.flatten_cons] at h
      exact .cons (hstep _ _ _ (fun x hx => h x (List.mem_append_left _ hx)) hn ht)
        (ih (fun x hx => h x (List.mem_append_right _ hx)) hS)

theorem mem_pointers {n : Node σ} {ps : List (Option Nat)} {p : Option Nat} (hp : p ∈ contentPointers n ps) {a : Nat}
    (ha : p = some a) : a ∈ (contentPointers n ps).filterMap id :=
  List.mem_filterMap.mpr ⟨p, hp, ha⟩

/-- A content is read in blocks that its struct owns. -/
theorem ReadsContent.congr {B B' : Blocks σ} {n : Node σ} {c : Content σ} {L : List Nat} (h : ∀ x ∈ L, B' x = B x)
    (ho : OwnsContent B n L) (hc : ReadsContent B n c) : ReadsContent B' n c := by
  obtain ⟨ps, ⟨-, hany⟩, rfl, -⟩ := ho
  refine
    { hc with
      texts := fun slot => (hc.texts slot).congr fun a ha => h a (mem_pointers ?_ ha)
      value := hc.value.congr fun a ha => h a (mem_pointers (by simp only [contentPointers, List.mem_append,
        List.mem_cons, true_or, or_true]) ha)
      items := ?_ }
  · exact List.mem_append_left _ (List.mem_map_of_mem slot.mem_all)
  · have harrays : ∀ p ∈ [n.any, n.anyLens, n.anyKinds, n.anyFromJson], ∀ a, p = some a → B' a = B a :=
      fun p hp a ha => h a (mem_pointers (List.mem_append_right _ (List.mem_cons_of_mem _
        (List.mem_append_right _ hp))) ha)
    have hitems := hc.items
    generalize c.items = items at hitems
    cases hitems with
    | nil => exact .nil
    | arrays any pointers texts anyLens lens anyKinds kinds flags =>
      rename_i a l k ps'
      have hps : ps' = ps := by
        rw [any] at hany
        cases pointers.symm.trans hany
        rfl
      subst hps
      refine .arrays any ((harrays n.any (by simp) a any).trans pointers) ?_ anyLens
        ((harrays n.anyLens (by simp) l anyLens).trans lens) anyKinds
        ((harrays n.anyKinds (by simp) k anyKinds).trans kinds) ?_
      · refine forall₂_imp_mem (fun p hp x _ hx => hx.congr fun b hb => h b (mem_pointers ?_ hb)) texts
        exact List.mem_append_right _ (List.mem_cons_of_mem _ (List.mem_append_left _ hp))
      · cases hflags : n.anyFromJson with
        | none =>
          rw [hflags] at flags
          exact flags
        | some f =>
          rw [hflags] at flags
          exact (harrays n.anyFromJson (by simp) f hflags).trans flags

/-- A tree is read in blocks that its struct owns. -/
theorem Reads.congr {B B' : Blocks σ} : ∀ {depth : Nat} {n : Node σ} {L : List Nat} {t : Tree σ},
    (∀ x ∈ L, B' x = B x) → Owns B depth n L → Reads B depth n t → Reads B' depth n t
  | depth + 1, n, L, .node c ts, h, ⟨L1, ho, hchildren⟩, ⟨hc, hcount, hts⟩ => by
    refine ⟨hc.congr (fun x hx => h x ?_) ho, hcount, ?_⟩
    · rcases hchildren with ⟨-, -, rfl⟩ | ⟨a, ns, Ls, -, -, -, -, rfl⟩
      · exact hx
      · exact List.mem_append_left _ hx
    · split at hts
      · next hnil =>
        rw [if_pos hnil]
        exact hts
      · next hnil =>
        rw [if_neg hnil]
        obtain ⟨a, ns, ha, hns, hall⟩ := hts
        rcases hchildren with ⟨hnone, -, -⟩ | ⟨a', ns', Ls, ha', hns', -, hown, rfl⟩
        · rw [hnone] at ha
          cases ha
        · cases ha.symm.trans ha'
          cases hns.symm.trans hns'
          refine ⟨a, ns, ha, (h a ?_).trans hns, ?_⟩
          · exact List.mem_append_right _ (List.mem_append_right _ (List.mem_singleton.mpr rfl))
          · exact Reads.congr_all (fun n L t hx hn ht => ht.congr hx hn)
              (fun x hx => h x (List.mem_append_right _ (List.mem_append_left _ hx))) hown hall

/-! ## What a clone of a selector is -/

/-- A clone of `src`, which denotes `t`: complete and its own, cut short and its own, or cut short and harmful. -/
def Cloned (grants : Nat → Bool) (depth : Nat) (h : Heap (Block σ)) (src : Node σ) (t : Tree σ) (ok : Bool) (n : Node σ)
    (h' : Heap (Block σ)) : Prop :=
  ∃ L, Grown h.block h.next h' L ∧
    match firstRefused grants h.tries (requests t) with
    | none => ok = true ∧ h'.tries = h.tries + (requests t).length ∧ Owns h'.block depth n L ∧ Reads h'.block depth n t
    | some false => ok = false ∧ Owns h'.block depth n L
    | some true => ok = false ∧ ∃ F, Hurts h'.block F depth n L ∧ Reaches h.block depth src F

/-- The children are no part of the content. -/
theorem ReadsContent.withChildren {n : Node σ} {c : Content σ} (hc : ReadsContent B n c) (p : Option Nat) (count : Nat) :
    ReadsContent B { n with children := p, childCount := count } c := by
  have hitems : ∀ {items : List AnyValue}, ReadsItems B n items →
      ReadsItems B { n with children := p, childCount := count } items := by
    intro items hi
    cases hi with
    | nil => exact .nil
    | arrays any pointers texts anyLens lens anyKinds kinds flags =>
      exact .arrays any pointers texts anyLens lens anyKinds kinds flags
  exact ⟨hc.kind, hc.texts, hc.value, hc.valueLen, hc.sized, hc.anyCount, hitems hc.items, hc.scalars⟩

/-- What is reached in a heap that grew was reached before. -/
theorem Reaches.of_extends {B B' : Blocks σ} (he : Extends B B') {F : Nat} : ∀ {depth : Nat} {n : Node σ} {t : Tree σ},
    Reads B depth n t → Reaches B' depth n F → Reaches B depth n F
  | depth + 1, n, .node c ts, ⟨_, _, hts⟩, ⟨b, ns, hb, hns, hF⟩ => by
    split at hts
    · rw [hts] at hb
      cases hb
    · obtain ⟨a, ns', ha, hns', hall⟩ := hts
      cases ha.symm.trans hb
      cases (he _ _ hns').symm.trans hns
      refine ⟨b, ns, hb, hns', hF.imp id ?_⟩
      rintro ⟨m, hm, hreach⟩
      obtain ⟨t, -, ht⟩ := forall₂_left hall hm
      exact ⟨m, hm, Reaches.of_extends he ht hreach⟩

/-- What is reached is live where the same tree is still read. -/
theorem Reaches.live {B B' : Blocks σ} (hs : ∀ x b, B x = some b → B' x = some b ∨ B' x = none) {F : Nat} :
    ∀ {depth : Nat} {n : Node σ} {t : Tree σ}, Reads B' depth n t → Reaches B depth n F → (B' F).isSome
  | depth + 1, n, .node c ts, ⟨_, _, hts⟩, ⟨b, ns, hb, hns, hF⟩ => by
    split at hts
    · rw [hts] at hb
      cases hb
    · obtain ⟨a, ns', ha, hns', hall⟩ := hts
      cases ha.symm.trans hb
      rcases hF with rfl | ⟨m, hm, hreach⟩
      · rw [hns']
        rfl
      · rcases hs _ _ hns with heq | hnone
        · cases hns'.symm.trans heq
          obtain ⟨t, -, ht⟩ := forall₂_left hall hm
          exact Reaches.live hs ht hreach
        · rw [hns'] at hnone
          cases hnone

/-- An array whose nodes all own their blocks. -/
def Kept (B : Blocks σ) (base : Nat) (h : Heap (Block σ)) (depth a count : Nat) : Prop :=
  ∃ ns Ls, h.block a = some (.nodes ns) ∧ ns.length = count ∧ List.Forall₂ (Owns h.block depth) ns Ls ∧
    Grown B base h (Ls.flatten ++ [a])

/-- An array with a node that hurts behind nodes that own their blocks. -/
def Spoiled (B : Blocks σ) (base : Nat) (h : Heap (Block σ)) (depth a count F : Nat) : Prop :=
  ∃ ns m zs Ls H, h.block a = some (.nodes (ns ++ m :: zs)) ∧ (ns ++ m :: zs).length = count ∧
    List.Forall₂ (Owns h.block depth) ns Ls ∧ Hurts h.block F depth m H ∧ Grown B base h (Ls.flatten ++ (H ++ [a]))

variable {depth a k : Nat} {front : List (Node σ)} {Ls : List (List Nat)} {ts : List (Tree σ)} {h1 : Heap (Block σ)}
  {L : List Nat} {n : Node σ}

/-- A struct over an array of nodes that own their blocks. -/
theorem Kept.owns {b : Nat} (hg : Grown B b h L) (hc : OwnsContent h.block n L)
    (hk : Kept h.block h.next h1 depth a k) (ha : n.children = some a) (hcount : n.childCount = k) :
    ∃ L', Grown B b h1 L' ∧ Owns h1.block (depth + 1) n L' := by
  obtain ⟨ns, Ls, hns, hlen, hall, hgrown⟩ := hk
  refine ⟨L ++ (Ls.flatten ++ [a]), (hg.trans hgrown).perm List.perm_append_comm, L, ?_, ?_⟩
  · exact hc.congr fun x hx => hgrown.old x (hg.lt_next hx)
  · exact .inr ⟨a, ns, Ls, ha, hns, hcount.trans hlen.symm, hall, rfl⟩

/-- A struct over an array with a node that hurts. -/
theorem Spoiled.hurts {b F : Nat} (hg : Grown B b h L) (hc : OwnsContent h.block n L)
    (hs : Spoiled h.block h.next h1 depth a k F) (ha : n.children = some a) (hcount : n.childCount = k) :
    ∃ L', Grown B b h1 L' ∧ Hurts h1.block F (depth + 1) n L' := by
  obtain ⟨ns, m, zs, Ls, H, hns, hlen, hall, hm, hgrown⟩ := hs
  refine ⟨L ++ (Ls.flatten ++ (H ++ [a])), (hg.trans hgrown).perm List.perm_append_comm, .inr (.inr ?_)⟩
  exact ⟨L, a, ns, m, zs, Ls, H, hc.congr fun x hx => hgrown.old x (hg.lt_next hx), ha, hns, hcount.trans hlen.symm, hall,
    hm, rfl⟩

/-- The nodes in front of an array are clones of their own, and zeros stand behind them. -/
structure Family [Inhabited σ] (B : Blocks σ) (base : Nat) (h : Heap (Block σ)) (depth a : Nat) (front : List (Node σ))
    (k : Nat) (Ls : List (List Nat)) (ts : List (Tree σ)) : Prop where
  nodes : h.block a = some (.nodes (front ++ List.replicate k .zero))
  owns : List.Forall₂ (Owns h.block depth) front Ls
  reads : List.Forall₂ (Reads h.block depth) front ts
  grown : Grown B base h (Ls.flatten ++ [a])

variable [Inhabited σ]

/-- A node that is written behind the others. -/
theorem Family.write {depth a k : Nat} {front : List (Node σ)} {Ls : List (List Nat)} {ts : List (Tree σ)}
    (hf : Family B base h depth a front (k + 1) Ls ts) {h1 : Heap (Block σ)} {L : List Nat}
    (hg : Grown h.block h.next h1 L) (n : Node σ) :
    ∃ h2, writeNode a front.length n h1 = .ok ((), h2) ∧ h2.tries = h1.tries ∧
      h2.block a = some (.nodes (front ++ n :: List.replicate k .zero)) ∧ List.Forall₂ (Owns h2.block depth) front Ls ∧
      List.Forall₂ (Reads h2.block depth) front ts ∧ Grown B base h2 (L ++ (Ls.flatten ++ [a])) ∧
      ∀ x ∈ L, h2.block x = h1.block x := by
  have ha : a ∈ Ls.flatten ++ [a] := List.mem_append_right _ (List.mem_singleton.mpr rfl)
  have hgrown := hf.grown.trans hg
  have hns := hg.extends hf.nodes
  have hset : (front ++ List.replicate (k + 1) (Node.zero : Node σ)).set front.length n =
      front ++ n :: List.replicate k .zero := by
    rw [List.set_append_right _ _ (Nat.le_refl _), Nat.sub_self, List.replicate_succ, List.set_cons_zero]
  have hLs : ∀ x ∈ Ls.flatten, put h1.block a (.nodes (front ++ n :: List.replicate k .zero)) x = h.block x := by
    intro x hx
    rw [put_of_ne _ _ ((List.nodup_append.mp hf.grown.nodup).2.2 x hx a (List.mem_singleton.mpr rfl))]
    exact hg.old x (hf.grown.lt_next (List.mem_append_left _ hx))
  refine ⟨_, writeNode_eq hns n, rfl, ?_, ?_, ?_, ?_, fun x hx => ?_⟩
  · rw [hset]
    exact put_self _ _ _
  · rw [hset]
    exact forall₂_congr_flatten (fun n _ L hb hn => hn.congr hb) hLs hf.owns
  · rw [hset]
    exact Reads.congr_all (fun n L t hx hn ht => ht.congr hx hn) hLs hf.owns hf.reads
  · exact hgrown.write (List.mem_append_right _ ha) _
  · refine put_of_ne _ _ ((List.nodup_append.mp hgrown.nodup).2.2 x hx a ha)

/-- A zero owns nothing. -/
theorem owns_zero (B : Blocks σ) (depth : Nat) : Owns B (depth + 1) Node.zero [] :=
  ⟨[], ⟨[], ⟨rfl, rfl⟩, rfl, nofun⟩, .inl ⟨rfl, Nat.zero_le 1, rfl⟩⟩

theorem owns_zeros (B : Blocks σ) (depth k : Nat) :
    List.Forall₂ (Owns B (depth + 1)) (List.replicate k Node.zero) (List.replicate k []) := by
  induction k with
  | zero => exact .nil
  | succ k ih => exact .cons (owns_zero B depth) ih

theorem Family.nil {depth k : Nat} {h1 : Heap (Block σ)} {a : Nat} (hg : Grown h.block h.next h1 [a])
    (ha : h1.block a = some (.nodes (List.replicate k .zero))) : Family h.block h.next h1 depth a [] k [] [] :=
  ⟨ha, .nil, .nil, hg⟩

theorem Family.snoc (hf : Family B base h depth a front (k + 1) Ls ts) (hg : Grown h.block h.next h1 L)
    (ho : Owns h1.block depth n L) {t : Tree σ} (hr : Reads h1.block depth n t) :
    ∃ h2, writeNode a front.length n h1 = .ok ((), h2) ∧ h2.tries = h1.tries ∧
      Family B base h2 depth a (front ++ [n]) k (Ls ++ [L]) (ts ++ [t]) := by
  obtain ⟨h2, hwrite, htries, hns, howns, hreads, hgrown, hsame⟩ := hf.write hg n
  refine ⟨h2, hwrite, htries, ?_, ?_, ?_, ?_⟩
  · rw [hns, List.append_assoc]
    rfl
  · exact List.rel_append howns (.cons (ho.congr hsame) .nil)
  · exact List.rel_append hreads (.cons (hr.congr hsame ho) .nil)
  · refine hgrown.perm ?_
    rw [List.flatten_append, List.flatten_singleton, ← List.append_assoc]
    exact List.perm_append_comm.append_right _

theorem Family.kept (hf : Family B base h (depth + 1) a front (k + 1) Ls ts) (hg : Grown h.block h.next h1 L)
    (ho : Owns h1.block (depth + 1) n L) :
    ∃ h2, writeNode a front.length n h1 = .ok ((), h2) ∧ Kept B base h2 (depth + 1) a (front.length + (k + 1)) := by
  obtain ⟨h2, hwrite, -, hns, howns, -, hgrown, hsame⟩ := hf.write hg n
  refine ⟨h2, hwrite, _, Ls ++ L :: List.replicate k [], hns, ?_, ?_, hgrown.perm ?_⟩
  · rw [List.length_append, List.length_cons, List.length_replicate]
  · exact List.rel_append howns (.cons (ho.congr hsame) (owns_zeros _ _ _))
  · have hzeros : (List.replicate k ([] : List Nat)).flatten = [] := by
      rw [List.flatten_eq_nil_iff]
      exact fun l hl => List.eq_of_mem_replicate hl
    rw [List.flatten_append, List.flatten_cons, hzeros, List.append_nil, ← List.append_assoc]
    exact List.perm_append_comm.append_right _

theorem Family.spoiled (hf : Family B base h depth a front (k + 1) Ls ts) (hg : Grown h.block h.next h1 L) {F : Nat}
    (hm : Hurts h1.block F depth n L) :
    ∃ h2, writeNode a front.length n h1 = .ok ((), h2) ∧ Spoiled B base h2 depth a (front.length + (k + 1)) F := by
  obtain ⟨h2, hwrite, -, hns, howns, -, hgrown, hsame⟩ := hf.write hg n
  refine ⟨h2, hwrite, front, n, List.replicate k .zero, Ls, L, hns, ?_, howns, hm.congr hsame, hgrown.perm ?_⟩
  · rw [List.length_append, List.length_cons, List.length_replicate]
  · exact List.perm_append_comm_assoc _ _ _

/-- Clones of nodes that denote trees go into an array one by one. -/
theorem cloneChildren_spec {clone : Node σ → M σ (Bool × Node σ)}
    (hclone : ∀ {h : Heap (Block σ)} {src : Node σ} {t : Tree σ}, h.Fresh → Reads h.block depth src t →
      ∃ ok n h', clone src h = .ok ((ok, n), h') ∧ Cloned grants depth h src t ok n h')
    {s : Nat} {sfront sback : List (Node σ)} {back : List (Tree σ)} (hs : B s = some (.nodes (sfront ++ sback)))
    (hreads : List.Forall₂ (Reads B depth) sback back) (hf : Family B base h depth a front sback.length Ls ts)
    (hlen : front.length = sfront.length) :
    ∃ ok h', cloneChildren clone (some s) a front.length sback.length h = .ok (ok, h') ∧
      match firstRefused grants h.tries (childRequests back) with
      | none => ok = true ∧ h'.tries = h.tries + (childRequests back).length ∧
          ∃ ns Ls', Family B base h' depth a ns 0 Ls' (ts ++ back)
      | some false => ok = false ∧ Kept B base h' depth a (front.length + sback.length)
      | some true => ok = false ∧ ∃ F, Spoiled B base h' depth a (front.length + sback.length) F ∧
          ∃ src ∈ sback, Reaches B depth src F := by
  induction sback generalizing sfront back h front Ls ts with
  | nil =>
    cases hreads
    exact ⟨true, h, rfl, rfl, rfl, front, Ls, by rw [List.append_nil]; exact hf⟩
  | cons src sback ih =>
    cases hreads with
    | cons hsrc hreads =>
      rename_i t back
      have hget : (sfront ++ src :: sback)[front.length]? = some src := by
        rw [hlen, List.getElem?_append_right (Nat.le_refl _), Nat.sub_self, List.getElem?_cons_zero]
      obtain ⟨ok, n, h1, hrun, L, hg, hcloned⟩ := hclone hf.grown.fresh (hsrc.mono fun _ _ => hf.grown.extends)
      rw [List.length_cons, cloneChildren,
        run_bind (readAt_eq (f := Block.nodes?) (hf.grown.extends hs) rfl hget), run_bind hrun, childRequests,
        firstRefused_append]
      cases hfirst : firstRefused grants h.tries (requests t) with
      | none =>
        rw [hfirst] at hcloned
        obtain ⟨rfl, htries, ho, hr⟩ := hcloned
        obtain ⟨h2, hwrite, htries2, hf2⟩ := hf.snoc hg ho hr
        have hs2 : B s = some (.nodes ((sfront ++ [src]) ++ sback)) := by
          rw [hs, List.append_assoc]
          rfl
        obtain ⟨ok, h', hloop, hout⟩ := ih hs2 hreads hf2 (by rw [List.length_append, List.length_append, hlen]; rfl)
        rw [List.length_append, List.length_singleton] at hloop hout
        rw [htries2, htries] at hout
        refine ⟨ok, h', ?_, ?_⟩
        · dsimp only
          rw [run_bind hwrite, if_pos rfl]
          exact hloop
        · have hcount : front.length + 1 + sback.length = front.length + (sback.length + 1) := by omega
          rw [hcount] at hout
          rw [Option.none_or]
          cases hnext : firstRefused grants (h.tries + (requests t).length) (childRequests back) with
          | none =>
            rw [hnext] at hout
            obtain ⟨rfl, htries', ns, Ls', hf'⟩ := hout
            refine ⟨rfl, ?_, ns, Ls', ?_⟩
            · rw [htries', List.length_append, Nat.add_assoc]
            · rw [List.append_assoc] at hf'
              exact hf'
          | some flag =>
            rw [hnext] at hout
            cases flag with
            | false => exact hout
            | true =>
              obtain ⟨rfl, F, hspoiled, src', hmem, hreach⟩ := hout
              exact ⟨rfl, F, hspoiled, src', List.mem_cons_of_mem _ hmem, hreach⟩
      | some flag =>
        rw [hfirst] at hcloned
        rw [Option.some_or]
        cases flag with
        | false =>
          obtain ⟨rfl, ho⟩ := hcloned
          cases depth with
          | zero => exact hsrc.elim
          | succ depth =>
            obtain ⟨h2, hwrite, hkept⟩ := hf.kept hg ho
            refine ⟨false, h2, ?_, rfl, hkept⟩
            dsimp only
            rw [run_bind hwrite]
            rfl
        | true =>
          obtain ⟨rfl, F, hm, hreach⟩ := hcloned
          obtain ⟨h2, hwrite, hspoiled⟩ := hf.spoiled hg hm
          refine ⟨false, h2, ?_, rfl, F, hspoiled, src, List.mem_cons_self .., ?_⟩
          · dsimp only
            rw [run_bind hwrite]
            rfl
          · exact hreach.of_extends (fun _ _ => hf.grown.extends) hsrc

theorem cloneSelector_spec (grants : Nat → Bool) : ∀ {depth : Nat} {h : Heap (Block σ)} {src : Node σ} {t : Tree σ},
    h.Fresh → Reads h.block depth src t →
    ∃ ok n h', cloneSelector grants depth src h = .ok ((ok, n), h') ∧ Cloned grants depth h src t ok n h'
  | depth + 1, h, src, .node c ts, hf, ⟨hc, hcount, hts⟩ => by
    obtain ⟨ok, dst, h1, L1, hrun, hasks, hg1, howns, halike, hreads⟩ := clonePayload_spec grants hf hc
    rw [cloneSelector, run_bind hrun]
    cases ts with
    | nil =>
      have hnone : dst.children = none := halike.children.trans hts
      have hzero : dst.childCount = 0 := halike.childCount.trans hcount
      have ho : Owns h1.block (depth + 1) dst L1 := ⟨L1, howns, .inl ⟨hnone, by rw [hzero]; omega, rfl⟩⟩
      refine ⟨ok, dst, h1, ?_, L1, hg1, ?_⟩
      · cases ok with
        | false => rfl
        | true =>
          dsimp only
          rw [if_neg (by decide), if_pos (show src.childCount = 0 from hcount)]
          rfl
      · rw [requests, hasks.firstRefused]
        cases ok with
        | false => exact ⟨rfl, ho⟩
        | true =>
          refine ⟨rfl, ?_, ho, hreads rfl, hzero, hnone⟩
          rw [List.length_replicate]
          exact hasks.tries rfl
    | cons t ts =>
      rw [if_neg (List.cons_ne_nil _ _)] at hts
      obtain ⟨s, ns, hs, hns, hall⟩ := hts
      have hreach : Reaches h.block (depth + 1) src s := ⟨s, ns, hs, hns, .inl rfl⟩
      cases ok with
      | false =>
        refine ⟨false, dst, h1, rfl, L1, hg1, ?_⟩
        rw [requests, firstRefused_append, hasks.firstRefused]
        exact ⟨rfl, s, .inl (halike.children.trans hs), hreach⟩
      | true =>
        have hsome : src.childCount ≠ 0 := by rw [hcount, List.length_cons]; omega
        obtain ⟨p, h2, halloc, hasks2, hg2, hp⟩ := alloc_spec grants hg1.fresh
          (Block.nodes (List.replicate src.childCount (Node.zero : Node σ)))
        have hfirst : firstRefused grants h.tries (requests (.node c (t :: ts))) =
            firstRefused grants h1.tries ((!ts.isEmpty) :: childRequests (t :: ts)) := by
          rw [requests, firstRefused_append, hasks.firstRefused, if_pos rfl, Option.none_or, List.length_replicate,
            ← hasks.tries rfl]
        dsimp only
        rw [if_neg (by decide), if_neg hsome, run_bind halloc]
        cases p with
        | none =>
          have hgrant : ¬grants h1.tries = true := fun hgrant => nomatch hasks2.granted.mpr (granted_one.mpr hgrant)
          have hold : OwnsContent h2.block { dst with children := none } L1 :=
            OwnsContent.congr (n := dst) (fun x hx => hg2.old x (hg1.lt_next hx)) howns
          refine ⟨false, { dst with children := none }, h2, rfl, L1, hg1.trans hg2, ?_⟩
          rw [hfirst, firstRefused, if_neg hgrant]
          cases ts with
          | nil =>
            refine ⟨rfl, L1, hold, .inl ⟨rfl, ?_, rfl⟩⟩
            exact Nat.le_of_eq (halike.childCount.trans hcount)
          | cons t' ts =>
            refine ⟨rfl, s, .inr (.inl ⟨rfl, ?_⟩), hreach⟩
            have htwo : dst.childCount = ts.length + 1 + 1 := halike.childCount.trans hcount
            show 2 ≤ dst.childCount
            omega
        | some a =>
          have hgrant := granted_one.mp (hasks2.granted.mp rfl)
          have hlen : src.childCount = ns.length := hcount.trans hall.length_eq.symm
          have hzeros : h2.block a = some (.nodes (List.replicate ns.length .zero)) := by
            rw [hp a rfl, hlen]
          have hns1 : h1.block s = some (.nodes ([] ++ ns)) := hg1.extends hns
          have hreads1 := hall.imp fun n t (hr : Reads h.block depth n t) => hr.mono fun _ _ => hg1.extends
          obtain ⟨ok, h3, hloop, hout⟩ := cloneChildren_spec (fun hf hr => cloneSelector_spec grants hf hr) hns1 hreads1
            (Family.nil hg2 hzeros) rfl
          have hn : OwnsContent h1.block { dst with children := some a, childCount := src.childCount } L1 := howns
          refine ⟨ok, { dst with children := some a, childCount := src.childCount }, h3, ?_, ?_⟩
          · rw [hlen, hs]
            exact run_bind hloop
          · have hfirst' : firstRefused grants h.tries (requests (.node c (t :: ts))) =
                firstRefused grants h2.tries (childRequests (t :: ts)) := by
              rw [hfirst, firstRefused, if_pos hgrant, hasks2.tries rfl]
            rw [← hlen, List.length_nil, Nat.zero_add] at hout
            rw [Cloned, hfirst']
            cases hnext : firstRefused grants h2.tries (childRequests (t :: ts)) with
            | none =>
              rw [hnext] at hout
              obtain ⟨rfl, htries, ns', Ls', hns', howns', hreads', hgrown'⟩ := hout
              rw [List.replicate_zero, List.append_nil] at hns'
              have hcount' : ns'.length = src.childCount := hreads'.length_eq.trans hcount.symm
              obtain ⟨L, hg, ho⟩ := Kept.owns hg1 hn ⟨ns', Ls', hns', hcount', howns', hgrown'⟩ rfl rfl
              refine ⟨L, hg, rfl, ?_, ho, ?_, hcount, ?_⟩
              · rw [htries, hasks2.tries rfl, hasks.tries rfl, requests, List.length_append, List.length_replicate,
                  List.length_cons]
                omega
              · exact ((hreads rfl).mono fun _ _ => hgrown'.extends).withChildren _ _
              · rw [if_neg (List.cons_ne_nil _ _)]
                exact ⟨a, ns', rfl, hns', hreads'⟩
            | some flag =>
              rw [hnext] at hout
              cases flag with
              | false =>
                obtain ⟨rfl, hkept⟩ := hout
                obtain ⟨L, hg, ho⟩ := hkept.owns hg1 hn rfl rfl
                exact ⟨L, hg, rfl, ho⟩
              | true =>
                obtain ⟨rfl, F, hspoiled, src', hmem, hreach'⟩ := hout
                obtain ⟨L, hg, hhurts⟩ := hspoiled.hurts hg1 hn rfl rfl
                obtain ⟨t', -, ht'⟩ := forall₂_left hall hmem
                refine ⟨L, hg, rfl, F, hhurts, s, ns, hs, hns, .inr ⟨src', hmem, ?_⟩⟩
                exact hreach'.of_extends (fun _ _ => hg1.extends) ht'

end Lql.Build
