import Mathlib.Data.List.Forall2
import Mathlib.Data.List.Nodup
import Lql.Selector.Build

/-!
# What the builders leave in memory

A selector in memory denotes a tree, and it owns the blocks that cleaning it up gives back. A clone reads the tree of
its source and allocates blocks of its own; where an allocation is refused, what is cloned so far owns its blocks as
well, but for two ways in which the pointers or the count of the source are left in it.
-/

namespace Lql.Build

open Lib Lib.Heap
open Selector (SelectorKind LiteralKind AnyValue)

variable {σ : Type}

/-! ## Trees -/

/-- What a node holds besides its children. -/
structure Content (σ : Type) where
  kind : SelectorKind
  texts : Slot → Option Bytes
  value : Option Bytes
  valueLen : Nat
  items : List AnyValue
  scalars : σ

/-- What a selector is. -/
inductive Tree (σ : Type) where
  | node (content : Content σ) (children : List (Tree σ))

abbrev Blocks (σ : Type) := Nat → Option (Block σ)

/-- A pointer to a string, or a null pointer for none. -/
def ReadsText (B : Blocks σ) : Option Nat → Option Bytes → Prop
  | none, none => True
  | some a, some bytes => B a = some (.text bytes)
  | _, _ => False

/-- The four arrays of `any`; none is looked at where there are no items. -/
inductive ReadsItems (B : Blocks σ) (n : Node σ) : List AnyValue → Prop where
  | nil : ReadsItems B n []
  | arrays {items : List AnyValue} {a l k : Nat} {ps : List (Option Nat)}
    (any : n.any = some a) (pointers : B a = some (.pointers ps))
    (texts : List.Forall₂ (fun p (x : AnyValue) => ReadsText B p (some x.text)) ps items)
    (anyLens : n.anyLens = some l) (lens : B l = some (.lens (items.map fun x => x.text.length)))
    (anyKinds : n.anyKinds = some k) (kinds : B k = some (.kinds (items.map AnyValue.kind)))
    (flags : match n.anyFromJson with
      | none => ∀ x ∈ items, x.fromJson = false
      | some f => B f = some (.flags (items.map AnyValue.fromJson))) : ReadsItems B n items

/-- A struct holds a content. -/
structure ReadsContent (B : Blocks σ) (n : Node σ) (c : Content σ) : Prop where
  kind : n.kind = c.kind
  texts : ∀ slot, ReadsText B (n.texts slot) (c.texts slot)
  value : ReadsText B n.value c.value
  valueLen : n.valueLen = c.valueLen
  sized : ∀ bytes ∈ c.value, bytes.length = c.valueLen
  anyCount : n.anyCount = c.items.length
  items : ReadsItems B n c.items
  scalars : n.scalars = c.scalars

/-- A struct denotes a tree that is at most so deep. -/
def Reads (B : Blocks σ) : Nat → Node σ → Tree σ → Prop
  | 0, _, _ => False
  | depth + 1, n, .node c children => ReadsContent B n c ∧ n.childCount = children.length ∧
      if children = [] then n.children = none
      else ∃ a ns, n.children = some a ∧ B a = some (.nodes ns) ∧ List.Forall₂ (Reads B depth) ns children

/-- A selector, which is a struct in a block of its own. -/
def Denotes (B : Blocks σ) (depth : Nat) (a : Nat) (t : Tree σ) : Prop :=
  ∃ n, B a = some (.nodes [n]) ∧ Reads B depth n t

/-- Every block of `B` is in `B'` as it is. -/
def Extends (B B' : Blocks σ) : Prop := ∀ a b, B a = some b → B' a = some b

theorem ReadsText.mono {B B' : Blocks σ} (h : Extends B B') : ∀ {p : Option Nat} {text : Option Bytes},
    ReadsText B p text → ReadsText B' p text
  | none, none, _ => trivial
  | some _, some _, ht => h _ _ ht

theorem ReadsItems.mono {B B' : Blocks σ} (h : Extends B B') {n : Node σ} {items : List AnyValue}
    (hi : ReadsItems B n items) : ReadsItems B' n items := by
  cases hi with
  | nil => exact .nil
  | arrays any pointers texts anyLens lens anyKinds kinds flags =>
    refine .arrays any (h _ _ pointers) (texts.imp fun _ _ ht => ht.mono h) anyLens (h _ _ lens) anyKinds
      (h _ _ kinds) ?_
    split at flags
    · exact flags
    · exact h _ _ flags

theorem ReadsContent.mono {B B' : Blocks σ} (h : Extends B B') {n : Node σ} {c : Content σ}
    (hc : ReadsContent B n c) : ReadsContent B' n c :=
  { hc with texts := fun slot => (hc.texts slot).mono h, value := hc.value.mono h, items := hc.items.mono h }

theorem Reads.mono {B B' : Blocks σ} (h : Extends B B') : ∀ {depth : Nat} {n : Node σ} {t : Tree σ},
    Reads B depth n t → Reads B' depth n t
  | depth + 1, n, .node c children, ⟨hc, hcount, hchildren⟩ => by
    refine ⟨hc.mono h, hcount, ?_⟩
    split at hchildren
    · next hnil =>
      rw [if_pos hnil]
      exact hchildren
    · next hnil =>
      rw [if_neg hnil]
      obtain ⟨a, ns, ha, hns, hall⟩ := hchildren
      exact ⟨a, ns, ha, h _ _ hns, hall.imp fun _ _ hr => hr.mono h⟩

theorem Denotes.mono {B B' : Blocks σ} (h : Extends B B') {depth a : Nat} {t : Tree σ} (hd : Denotes B depth a t) :
    Denotes B' depth a t := by
  obtain ⟨n, hn, hr⟩ := hd
  exact ⟨n, h _ _ hn, hr.mono h⟩

/-! ## What a struct owns -/

theorem forall₂_imp_mem {α β : Type} {R S : α → β → Prop} {as : List α} {bs : List β}
    (h : ∀ a ∈ as, ∀ b ∈ bs, R a b → S a b) (hall : List.Forall₂ R as bs) : List.Forall₂ S as bs := by
  induction hall with
  | nil => exact .nil
  | cons hab _ ih =>
    exact .cons (h _ (List.mem_cons_self ..) _ (List.mem_cons_self ..) hab)
      (ih fun a ha b hb => h a (List.mem_cons_of_mem _ ha) b (List.mem_cons_of_mem _ hb))

theorem forall₂_left {α β : Type} {R : α → β → Prop} {as : List α} {bs : List β} (hall : List.Forall₂ R as bs) {a : α}
    (ha : a ∈ as) : ∃ b ∈ bs, R a b := by
  induction hall with
  | nil => cases ha
  | cons hab _ ih =>
    rcases List.mem_cons.mp ha with rfl | ha
    · exact ⟨_, List.mem_cons_self .., hab⟩
    · obtain ⟨b, hb, h⟩ := ih ha
      exact ⟨b, List.mem_cons_of_mem _ hb, h⟩

/-- What holds of the nodes and their blocks in one heap holds in another that has the same blocks. -/
theorem forall₂_congr_flatten {R S : Node σ → List Nat → Prop} {B B' : Blocks σ} {ns : List (Node σ)}
    {Ls : List (List Nat)} (hR : ∀ n ∈ ns, ∀ L, (∀ b ∈ L, B' b = B b) → R n L → S n L)
    (h : ∀ b ∈ Ls.flatten, B' b = B b) (hall : List.Forall₂ R ns Ls) : List.Forall₂ S ns Ls :=
  forall₂_imp_mem (fun n hn L hL => hR n hn L fun b hb => h b (List.mem_flatten_of_mem hL hb)) hall

/-- The items of `any`, as many as are counted. -/
def HoldsItems (B : Blocks σ) (n : Node σ) (ps : List (Option Nat)) : Prop :=
  n.anyCount = ps.length ∧
    match n.any with
    | none => ps = []
    | some a => B a = some (.pointers ps)

/-- The pointers of a struct, those of its items included. -/
def contentPointers (n : Node σ) (ps : List (Option Nat)) : List (Option Nat) :=
  Slot.all.map n.texts ++ n.value :: (ps ++ [n.any, n.anyLens, n.anyKinds, n.anyFromJson])

/-- The same pointers in the order in which they are freed. -/
def freedPointers (n : Node σ) (ps : List (Option Nat)) : List (Option Nat) :=
  n.texts .field :: n.value :: (ps ++ ([n.any, n.anyLens, n.anyKinds, n.anyFromJson] ++ Slot.bounds.map n.texts))

theorem freedPointers_perm (n : Node σ) (ps : List (Option Nat)) :
    ((freedPointers n ps).filterMap id).Perm ((contentPointers n ps).filterMap id) := by
  refine List.Perm.filterMap _ (.cons _ ?_)
  rw [← List.append_assoc, ← List.cons_append]
  exact List.perm_append_comm

/-- The blocks of a struct besides those of its children. -/
def OwnsContent (B : Blocks σ) (n : Node σ) (L : List Nat) : Prop :=
  ∃ ps, HoldsItems B n ps ∧ L = (contentPointers n ps).filterMap id ∧ ∀ a ∈ L, (B a).isSome

/-- A struct owns blocks: cleaning it up frees them. One child may be counted where there is no array. -/
def Owns (B : Blocks σ) : Nat → Node σ → List Nat → Prop
  | 0, _, _ => False
  | depth + 1, n, L => ∃ L1, OwnsContent B n L1 ∧
      ((n.children = none ∧ n.childCount ≤ 1 ∧ L = L1) ∨
        ∃ a ns Ls, n.children = some a ∧ B a = some (.nodes ns) ∧ n.childCount = ns.length ∧
          List.Forall₂ (Owns B depth) ns Ls ∧ L = L1 ++ (Ls.flatten ++ [a]))

theorem any_mem_pointers (n : Node σ) (ps : List (Option Nat)) {a : Nat} (h : n.any = some a) :
    a ∈ (contentPointers n ps).filterMap id := by
  rw [List.mem_filterMap]
  refine ⟨n.any, ?_, h⟩
  exact List.mem_append_right _ (List.mem_cons_of_mem _ (List.mem_append_right _ (List.mem_cons_self ..)))

theorem OwnsContent.congr {B B' : Blocks σ} {n : Node σ} {L : List Nat} (h : ∀ a ∈ L, B' a = B a)
    (hc : OwnsContent B n L) : OwnsContent B' n L := by
  obtain ⟨ps, ⟨hcount, hany⟩, rfl, hlive⟩ := hc
  refine ⟨ps, ⟨hcount, ?_⟩, rfl, fun a ha => by rw [h a ha]; exact hlive a ha⟩
  cases ha : n.any with
  | none =>
    rw [ha] at hany
    exact hany
  | some a =>
    rw [ha] at hany
    exact (h a (any_mem_pointers n ps ha)).trans hany

theorem Owns.live {B : Blocks σ} : ∀ {depth : Nat} {n : Node σ} {L : List Nat}, Owns B depth n L →
    ∀ a ∈ L, (B a).isSome
  | depth + 1, n, L, ⟨L1, ⟨_, _, _, hlive⟩, h⟩ => by
    rcases h with ⟨-, -, rfl⟩ | ⟨a, ns, Ls, -, hns, -, hall, rfl⟩
    · exact hlive
    · have hsub : ∀ {ns : List (Node σ)} {Ls : List (List Nat)}, List.Forall₂ (Owns B depth) ns Ls →
          ∀ b ∈ Ls.flatten, (B b).isSome := by
        intro ns Ls hall
        induction hall with
        | nil => exact nofun
        | cons hn _ ih =>
          intro b hb
          rw [List.flatten_cons] at hb
          rcases List.mem_append.mp hb with hb | hb
          · exact hn.live b hb
          · exact ih b hb
      intro b hb
      rcases List.mem_append.mp hb with hb | hb
      · exact hlive b hb
      · rcases List.mem_append.mp hb with hb | hb
        · exact hsub hall b hb
        · rw [List.mem_singleton.mp hb, hns]
          rfl

theorem Owns.congr {B B' : Blocks σ} : ∀ {depth : Nat} {n : Node σ} {L : List Nat}, (∀ a ∈ L, B' a = B a) →
    Owns B depth n L → Owns B' depth n L
  | depth + 1, n, L, h, ⟨L1, hc, hchildren⟩ => by
    rcases hchildren with ⟨hnone, hcount, rfl⟩ | ⟨a, ns, Ls, ha, hns, hcount, hall, rfl⟩
    · exact ⟨L, hc.congr h, .inl ⟨hnone, hcount, rfl⟩⟩
    · refine ⟨L1, hc.congr fun b hb => h b (List.mem_append_left _ hb), .inr ⟨a, ns, Ls, ha, ?_, hcount, ?_, rfl⟩⟩
      · rw [h a (List.mem_append_right _ (List.mem_append_right _ (List.mem_singleton.mpr rfl)))]
        exact hns
      · exact forall₂_congr_flatten (fun n _ L hb hn => hn.congr hb)
          (fun b hb => h b (List.mem_append_right _ (List.mem_append_left _ hb))) hall

/-! ## Cleaning up frees what is owned -/

theorem readAs_eq {α : Type} {f : Block σ → Option α} {h : Heap (Block σ)} {a : Nat} {b : Block σ} {x : α}
    (hb : h.block a = some b) (hx : f b = some x) : readAs f (some a) h = .ok (x, h) := by
  have hread : read a h = .ok (b, h) := by
    rw [Heap.read, hb]
  rw [readAs, run_bind hread, hx]
  rfl

theorem readAt_eq {α : Type} {f : Block σ → Option (List α)} {h : Heap (Block σ)} {a i : Nat} {b : Block σ} {xs : List α}
    {x : α} (hb : h.block a = some b) (hxs : f b = some xs) (hx : xs[i]? = some x) :
    readAt f (some a) i h = .ok (x, h) := by
  rw [readAt, run_bind (readAs_eq hb hxs), hx]
  rfl

theorem cleanupItems_eq {a : Nat} (front back : List (Option Nat)) {h : Heap (Block σ)}
    (hps : h.block a = some (.pointers (front ++ back))) (ha : a ∉ back.filterMap id) :
    cleanupItems (some a) front.length back.length h = freeAll back h := by
  induction back generalizing front h with
  | nil => rfl
  | cons p back ih =>
    have hget : (front ++ p :: back)[front.length]? = some p := by
      rw [List.getElem?_append_right (Nat.le_refl _), Nat.sub_self, List.getElem?_cons_zero]
    have hsplit : a ∉ back.filterMap id ∧ p ≠ some a := by
      cases p with
      | none => exact ⟨ha, nofun⟩
      | some b =>
        have hsplit : a ∉ b :: back.filterMap id := ha
        rw [List.mem_cons, not_or] at hsplit
        exact ⟨hsplit.2, fun h => hsplit.1 (Option.some.inj h).symm⟩
    rw [List.length_cons, cleanupItems, run_bind (readAt_eq hps rfl hget), freeAll]
    cases hfree : free p h with
    | error e => rw [run_bind_error hfree, run_bind_error hfree]
    | ok r =>
      rw [run_bind hfree, run_bind hfree]
      have hkept : r.2.block a = some (.pointers ((front ++ [p]) ++ back)) := by
        cases p with
        | none =>
          cases hfree
          rw [List.append_assoc]
          exact hps
        | some b =>
          have hne : a ≠ b := fun h => hsplit.2 (by rw [h])
          rw [free] at hfree
          dsimp only at hfree
          split at hfree
          · cases hfree
            dsimp only
            rw [if_neg hne, hps, List.append_assoc]
            rfl
          · cases hfree
      have hlen : (front ++ [p]).length = front.length + 1 := by rw [List.length_append, List.length_singleton]
      rw [← hlen]
      exact ih (front ++ [p]) hkept hsplit.1

theorem cleanupContent_eq {h : Heap (Block σ)} {n : Node σ} {L : List Nat} (hc : OwnsContent h.block n L)
    (hL : L.Nodup) : cleanupContent n h = .ok ((), { h with block := erase h.block L }) := by
  obtain ⟨ps, ⟨hcount, hany⟩, rfl, hlive⟩ := hc
  have hperm := freedPointers_perm n ps
  rw [← erase_perm h.block hperm]
  replace hlive : ∀ a ∈ (freedPointers n ps).filterMap id, (h.block a).isSome := fun a ha =>
    hlive a (hperm.mem_iff.mp ha)
  replace hL := hperm.nodup_iff.mpr hL
  have hfree := freeAll_eq hlive hL
  rw [freedPointers, filterMap_cons_toList, filterMap_cons_toList] at hlive hL
  obtain ⟨-, hL1, hfield⟩ := List.nodup_append.mp hL
  obtain ⟨-, hL2, hvalue⟩ := List.nodup_append.mp hL1
  have h1 := free_eq (h := h) fun a ha => hlive a (List.mem_append_left _ (Option.mem_toList.mpr ha))
  have h2 := free_eq (h := { h with block := erase h.block (n.texts .field).toList }) (p := n.value) fun a ha => by
    have hmem := List.mem_append_left ((ps ++ ([n.any, n.anyLens, n.anyKinds, n.anyFromJson] ++
      Slot.bounds.map n.texts)).filterMap id) (Option.mem_toList.mpr ha)
    dsimp only
    rw [erase_of_not_mem fun hin => hfield a hin a hmem rfl]
    exact hlive a (List.mem_append_right _ hmem)
  have hitems : ∀ h' : Heap (Block σ), (∀ a, n.any = some a → h'.block a = h.block a) →
      cleanupItems n.any 0 n.anyCount h' = freeAll ps h' := by
    intro h' hsame
    rw [hcount]
    cases ha : n.any with
    | none =>
      rw [ha] at hany
      rw [hany]
      rfl
    | some a =>
      rw [ha] at hany
      refine cleanupItems_eq [] ps ((hsame a ha).trans hany) fun hmem => ?_
      -- the array would be freed twice
      rw [List.filterMap_append, ha] at hL2
      exact (List.nodup_append.mp hL2).2.2 a hmem a (List.mem_cons_self ..) rfl
  rw [freedPointers, freeAll, run_bind h1, freeAll, run_bind h2, freeAll_append, freeAll_append] at hfree
  rw [cleanupContent, run_bind h1, run_bind h2, freedPointers, ← hfree]
  refine run_congr (hitems _ fun a ha => ?_) _
  have hmem : a ∈ (ps ++ ([n.any, n.anyLens, n.anyKinds, n.anyFromJson] ++ Slot.bounds.map n.texts)).filterMap id := by
    rw [List.mem_filterMap]
    exact ⟨n.any, List.mem_append_right _ (List.mem_append_left _ (List.mem_cons_self ..)), ha⟩
  dsimp only
  rw [erase_of_not_mem fun hin => hvalue a hin a hmem rfl,
    erase_of_not_mem fun hin => hfield a hin a (List.mem_append_right _ hmem) rfl]

theorem writeNode_eq {h : Heap (Block σ)} {a i : Nat} {ns : List (Node σ)} (hns : h.block a = some (.nodes ns))
    (n : Node σ) : writeNode a i n h = .ok ((), { h with block := put h.block a (.nodes (ns.set i n)) }) := by
  rw [writeNode, run_bind (readAs_eq (f := Block.nodes?) hns rfl), write, hns]

/-- Cleaning up children frees what they own, and leaves zeros in their place. -/
theorem cleanupChildren_eq [Inhabited σ] {clean : Node σ → M σ Unit} {R : Blocks σ → Node σ → List Nat → Prop}
    (hclean : ∀ (h : Heap (Block σ)) (n : Node σ) (L : List Nat), R h.block n L → L.Nodup →
      clean n h = .ok ((), { h with block := erase h.block L }))
    (hR : ∀ {B B' : Blocks σ} {n : Node σ} {L : List Nat}, (∀ b ∈ L, B' b = B b) → R B n L → R B' n L)
    {a : Nat} (front : List (Node σ)) {back tail : List (Node σ)} {Ls : List (List Nat)} {h : Heap (Block σ)}
    (hns : h.block a = some (.nodes (front ++ (back ++ tail)))) (hall : List.Forall₂ (R h.block) back Ls) (hLs : Ls.flatten.Nodup)
    (ha : a ∉ Ls.flatten) :
    cleanupChildren clean (some a) front.length back.length h =
      .ok ((), { h with block := (put (erase h.block Ls.flatten) a
        (.nodes (front ++ (List.replicate back.length .zero ++ tail)))) }) := by
  induction back generalizing front Ls h with
  | nil =>
    cases hall
    have hblock : h.block = put (erase h.block []) a (.nodes (front ++ (List.replicate 0 .zero ++ tail))) := by
      funext b
      rw [erase_nil]
      by_cases hb : b = a
      · rw [hb, put_self, hns]
        rfl
      · rw [put_of_ne _ _ hb]
    exact congrArg (fun B => Except.ok ((), { h with block := B })) hblock
  | cons n back ih =>
    cases hall with
    | cons hn hall =>
      rename_i L Ls
      rw [List.flatten_cons] at hLs ha
      obtain ⟨hL, hLs', hapart⟩ := List.nodup_append.mp hLs
      have haL : a ∉ L := fun h => ha (List.mem_append_left _ h)
      have haLs : a ∉ Ls.flatten := fun h => ha (List.mem_append_right _ h)
      have hget : (front ++ n :: (back ++ tail))[front.length]? = some n := by
        rw [List.getElem?_append_right (Nat.le_refl _), Nat.sub_self, List.getElem?_cons_zero]
      have herase : erase h.block L a = some (.nodes (front ++ n :: (back ++ tail))) := by
        rw [erase_of_not_mem haL, hns]
        rfl
      have hset : (front ++ n :: (back ++ tail)).set front.length .zero = (front ++ [Node.zero]) ++ (back ++ tail) := by
        rw [List.set_append_right _ _ (Nat.le_refl _), Nat.sub_self, List.set_cons_zero, List.append_assoc]
        rfl
      have hlen : front.length + 1 = (front ++ [(Node.zero : Node σ)]).length := by
        rw [List.length_append, List.length_singleton]
      have hwrite := writeNode_eq (h := { h with block := erase h.block L }) (i := front.length) herase .zero
      rw [hset] at hwrite
      -- the rest is cleaned up in a heap that lacks `L` and has one more zero in the array
      have hsame : ∀ b ∈ Ls.flatten,
          put (erase h.block L) a (.nodes ((front ++ [Node.zero]) ++ (back ++ tail))) b = h.block b := by
        intro b hb
        rw [put_of_ne _ _ fun heq => haLs (by rw [← heq]; exact hb),
          erase_of_not_mem fun hin => hapart b hin b hb rfl]
      have hall' : List.Forall₂ (R (put (erase h.block L) a (.nodes ((front ++ [Node.zero]) ++ (back ++ tail)))))
          back Ls :=
        forall₂_congr_flatten (fun n _ L hb hn => hR hb hn) hsame hall
      have hrest := ih (front ++ [Node.zero])
        (h := { h with block := put (erase h.block L) a (.nodes ((front ++ [Node.zero]) ++ (back ++ tail))) })
        (put_self _ _ _) hall' hLs' haLs
      have hzeros : (front ++ [Node.zero]) ++ (List.replicate back.length (Node.zero : Node σ) ++ tail) =
          front ++ (List.replicate (back.length + 1) .zero ++ tail) := by
        rw [List.append_assoc]
        rfl
      rw [← hlen, put_erase _ _ haLs, put_put, erase_erase, hzeros] at hrest
      rw [List.length_cons, cleanupChildren, List.flatten_cons]
      change (readAt Block.nodes? (some a) front.length >>= _) h = _
      rw [run_bind (readAt_eq (f := Block.nodes?) hns rfl hget)]
      rw [run_bind (hclean h n L hn hL)]
      rw [run_bind hwrite]
      exact hrest

/-- **Cleaning up frees what is owned**, and nothing else. -/
theorem cleanup_eq [Inhabited σ] : ∀ {depth : Nat} {n : Node σ} {L : List Nat} {h : Heap (Block σ)},
    Owns h.block depth n L → L.Nodup → cleanup depth n h = .ok ((), { h with block := erase h.block L })
  | depth + 1, n, L, h, ⟨L1, hc, hchildren⟩, hL => by
    rw [cleanup]
    rcases hchildren with ⟨hnone, hcount, rfl⟩ | ⟨a, ns, Ls, ha, hns, hcount, hall, rfl⟩
    · rw [run_bind (cleanupContent_eq hc hL), hnone]
      rcases Nat.le_one_iff_eq_zero_or_eq_one.mp hcount with h0 | h1
      · rw [h0]
        rfl
      · rw [h1]
        rfl
    · obtain ⟨hL1, hL2, hapart⟩ := List.nodup_append.mp hL
      obtain ⟨hLs, -, haLs⟩ := List.nodup_append.mp hL2
      have hmem := List.mem_singleton.mpr (rfl : a = a)
      have haL1 : a ∉ L1 := fun h => hapart a h a (List.mem_append_right _ hmem) rfl
      have hnot : a ∉ Ls.flatten := fun h => haLs a h a hmem rfl
      have hsame : ∀ b ∈ Ls.flatten, erase h.block L1 b = h.block b := fun b hb =>
        erase_of_not_mem fun hin => hapart b hin b (List.mem_append_left _ hb) rfl
      have hall' : List.Forall₂ (Owns (erase h.block L1) depth) ns Ls :=
        forall₂_congr_flatten (fun n _ L hb hn => hn.congr hb) hsame hall
      have hloop := cleanupChildren_eq (h := { h with block := erase h.block L1 }) (R := fun B n L => Owns B depth n L)
        (fun h n L hn hL => cleanup_eq hn hL) (fun hB hn => hn.congr hB) [] (a := a)
        ((erase_of_not_mem haL1).trans (hns.trans (by rw [List.nil_append, List.append_nil]))) hall' hLs hnot
      have hfree := free_eq (p := some a) (h := { h with block := (put (erase (erase h.block L1) Ls.flatten) a
        (.nodes ([] ++ (List.replicate ns.length .zero ++ [])))) }) fun b hb => by
          rw [← Option.mem_some_iff.mp hb]
          exact congrArg Option.isSome (put_self _ _ _)
      rw [run_bind (cleanupContent_eq hc hL1), ha, hcount]
      change (cleanupChildren (cleanup depth) (some a) ([] : List (Node σ)).length ns.length >>= _) _ = _
      rw [run_bind hloop, hfree]
      dsimp only [Option.toList_some]
      rw [erase_put _ _ (List.mem_singleton.mpr rfl), erase_erase, erase_erase]

end Lql.Build
