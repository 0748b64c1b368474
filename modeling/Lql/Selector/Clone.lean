import Lql.Selector.Owned

/-!
# Clones

A clone asks for one block per string, and for five per value of `any`. It reads what its source reads, in blocks of
its own. Where it does not get a block, what is there so far owns its blocks.
-/

namespace Lql.Build

open Lib Lib.Heap
open Selector (SelectorKind LiteralKind AnyValue)

variable {σ : Type} {B : Blocks σ} {base : Nat} {h : Heap (Block σ)} {grants : Nat → Bool}

/-! ## Strings -/

theorem ReadsText.congr {B B' : Blocks σ} {p : Option Nat} {text : Option Bytes} (h : ∀ a ∈ p, B' a = B a)
    (ht : ReadsText B p text) : ReadsText B' p text := by
  cases p with
  | none => cases text <;> exact ht
  | some a =>
    cases text with
    | none => exact ht
    | some bytes => exact (h a rfl).trans ht

theorem ReadsText.exists_block {p : Option Nat} {bytes : Bytes} (ht : ReadsText B p (some bytes)) :
    ∃ a, p = some a ∧ B a = some (.text bytes) := by
  cases p with
  | none => exact ht.elim
  | some a => exact ⟨a, rfl, ht⟩

theorem cloneString_spec (grants : Nat → Bool) (hf : h.Fresh) {src : Option Nat} {text : Option Bytes}
    (ht : ReadsText h.block src text) :
    ∃ ok out h', cloneString grants src h = .ok ((ok, out), h') ∧ Asks grants text.isSome.toNat h h' ok ∧
      Grown h.block h.next h' out.toList ∧ (ok = true → ReadsText h'.block out text) ∧ (ok = false → out = none) := by
  cases src with
  | none =>
    cases text with
    | none => exact ⟨true, none, h, rfl, .nothing _ _, .refl hf, fun _ => trivial, nofun⟩
    | some bytes => exact ht.elim
  | some a =>
    cases text with
    | none => exact ht.elim
    | some bytes =>
      obtain ⟨out, h', halloc, hasks, hgrown, hout⟩ := alloc_spec grants hf (Block.text bytes)
      refine ⟨out.isSome, out, h', ?_, hasks, hgrown, fun hok => ?_, fun hok => ?_⟩
      · rw [cloneString, run_bind (readAs_eq (f := Block.text?) ht rfl), run_bind halloc]
        rfl
      · cases out with
        | none => cases hok
        | some b => exact hout b rfl
      · cases out with
        | none => rfl
        | some b => cases hok

theorem strndup_spec (grants : Nat → Bool) (hf : h.Fresh) {a : Nat} {bytes : Bytes}
    (ha : h.block a = some (.text bytes)) :
    ∃ out h', strndup grants (some a) bytes.length h = .ok (out, h') ∧ Asks grants 1 h h' out.isSome ∧
      Grown h.block h.next h' out.toList ∧ ∀ b ∈ out, h'.block b = some (.text bytes) := by
  obtain ⟨out, h', halloc, hasks, hgrown, hout⟩ := alloc_spec grants hf (Block.text [])
  rw [strndup, run_bind halloc]
  cases out with
  | none => exact ⟨none, h', rfl, hasks, hgrown, nofun⟩
  | some b =>
    have hwrite : write b (.text (bytes.take bytes.length)) h' =
        .ok ((), { h' with block := put h'.block b (.text bytes) }) := by
      rw [write, hout b rfl, List.take_length]
    refine ⟨some b, { h' with block := put h'.block b (.text bytes) }, ?_, ⟨hasks.granted, hasks.tries⟩,
      hgrown.write (List.mem_singleton.mpr rfl) _, fun b' hb' => ?_⟩
    · dsimp only
      rw [run_bind (readAs_eq (f := Block.text?) (hgrown.extends ha) rfl), if_neg (Nat.lt_irrefl _), run_bind hwrite]
      rfl
    · rw [← Option.mem_some_iff.mp hb']
      exact put_self _ _ _

/-! ## Arrays -/

/-- An array that grows with its items; there is none before the first one. -/
def ArrayAt (B : Blocks σ) {α : Type} (block : List α → Block σ) : Option Nat → List α → Prop
  | none, xs => xs = []
  | some a, xs => B a = some (block xs)

theorem ArrayAt.congr {B B' : Blocks σ} {α : Type} {block : List α → Block σ} {p : Option Nat} {xs : List α}
    (h : ∀ a ∈ p, B' a = B a) (hx : ArrayAt B block p xs) : ArrayAt B' block p xs := by
  cases p with
  | none => exact hx
  | some a => exact (h a rfl).trans hx

theorem ArrayAt.mono {B B' : Blocks σ} {α : Type} {block : List α → Block σ} {p : Option Nat} {xs : List α}
    (h : Extends B B') (hx : ArrayAt B block p xs) : ArrayAt B' block p xs := by
  cases p with
  | none => exact hx
  | some a => exact h _ _ hx

theorem ArrayAt.exists_block {α : Type} {block : List α → Block σ} {p : Option Nat} {xs : List α}
    (hx : ArrayAt B block p xs) (hne : xs ≠ []) : ∃ a, p = some a ∧ B a = some (block xs) := by
  cases p with
  | none => exact absurd hx hne
  | some a => exact ⟨a, rfl, hx⟩

theorem realloc_array (grants : Nat → Bool) {α : Type} (block : List α → Block σ) {p : Option Nat} {xs : List α}
    {L R : List Nat} (hg : Grown B base h L) (hL : L.Perm (p.toList ++ R)) (hx : ArrayAt h.block block p xs) :
    ∃ q h', realloc grants (block []) p h = .ok (q, h') ∧ Asks grants 1 h h' q.isSome ∧
      Grown B base h' ((q.or p).toList ++ R) ∧ (∀ a ∈ R, h'.block a = h.block a) ∧
      ArrayAt h'.block block (q.or p) xs := by
  have hblock : ∀ a ∈ p, h.block a = some (block xs) := fun a ha => by
    rw [Option.mem_def.mp ha] at hx
    exact hx
  have hfirst : p = none → block xs = block [] := fun hp => by
    rw [hp] at hx
    exact congrArg block hx
  obtain ⟨q, h', hr, hasks, hgrown, hR, hq⟩ := realloc_spec grants hg hL hblock hfirst
  refine ⟨q, h', hr, hasks, hgrown, hR, ?_⟩
  cases hor : q.or p with
  | some a => exact hq a hor
  | none =>
    rw [Option.or_eq_none_iff] at hor
    rw [hor.2] at hx
    exact hx

theorem store_spec {α : Type} {f : Block σ → Option (List α)} {block : List α → Block σ}
    (hf : ∀ xs, f (block xs) = some xs) {a n : Nat} {xs : List α} (hn : n = xs.length)
    (ha : h.block a = some (block xs)) (x : α) :
    store f block (some a) n x h = .ok ((), { h with block := put h.block a (block (xs ++ [x])) }) := by
  rw [store, run_bind (readAs_eq (f := f) ha (hf xs)), hn, List.take_length, write, ha]

/-- The four arrays of `any` besides the blocks `R`. -/
structure Arrays (B : Blocks σ) (base : Nat) (h : Heap (Block σ)) (p1 p2 p3 p4 : Option Nat) (R : List Nat)
    (ps : List (Option Nat)) (ls : List Nat) (ks : List LiteralKind) (fs : List Bool) : Prop where
  grown : Grown B base h (p1.toList ++ (p2.toList ++ (p3.toList ++ (p4.toList ++ R))))
  any : ArrayAt h.block .pointers p1 ps
  anyLens : ArrayAt h.block .lens p2 ls
  anyKinds : ArrayAt h.block .kinds p3 ks
  anyFromJson : ArrayAt h.block .flags p4 fs

variable {p1 p2 p3 p4 : Option Nat} {R : List Nat} {ps : List (Option Nat)} {ls : List Nat} {ks : List LiteralKind}
  {fs : List Bool}

theorem Arrays.perm (ha : Arrays B base h p1 p2 p3 p4 R ps ls ks fs) {R' : List Nat} (hp : R.Perm R') :
    Arrays B base h p1 p2 p3 p4 R' ps ls ks fs :=
  { ha with grown := ha.grown.perm (.append_left _ (.append_left _ (.append_left _ (.append_left _ hp)))) }

theorem Arrays.grow (ha : Arrays B base h p1 p2 p3 p4 R ps ls ks fs) {h' : Heap (Block σ)} {L : List Nat}
    (hg : Grown h.block h.next h' L) : Arrays B base h' p1 p2 p3 p4 (L ++ R) ps ls ks fs where
  grown := by
    refine (ha.grown.trans hg).perm ?_
    refine (List.perm_append_comm_assoc _ _ _).trans (.append_left _ ?_)
    refine (List.perm_append_comm_assoc _ _ _).trans (.append_left _ ?_)
    exact (List.perm_append_comm_assoc _ _ _).trans (.append_left _ (List.perm_append_comm_assoc _ _ _))
  any := ha.any.mono fun _ _ => hg.extends
  anyLens := ha.anyLens.mono fun _ _ => hg.extends
  anyKinds := ha.anyKinds.mono fun _ _ => hg.extends
  anyFromJson := ha.anyFromJson.mono fun _ _ => hg.extends

theorem mem_first {p : Option Nat} {L : List Nat} {a : Nat} (ha : a ∈ p) : a ∈ p.toList ++ L :=
  List.mem_append_left _ (Option.mem_toList.mpr ha)

theorem mem_second {p q : Option Nat} {L : List Nat} {a : Nat} (ha : a ∈ q) : a ∈ p.toList ++ (q.toList ++ L) :=
  List.mem_append_right _ (mem_first ha)

theorem mem_third {p q r : Option Nat} {L : List Nat} {a : Nat} (ha : a ∈ r) :
    a ∈ p.toList ++ (q.toList ++ (r.toList ++ L)) :=
  List.mem_append_right _ (mem_second ha)

theorem mem_rest {p q r : Option Nat} {L : List Nat} {a : Nat} (ha : a ∈ L) :
    a ∈ p.toList ++ (q.toList ++ (r.toList ++ L)) :=
  List.mem_append_right _ (List.mem_append_right _ (List.mem_append_right _ ha))

/-- The arrays move one by one; those that moved before a refusal stay where they are. -/
theorem growAny_spec (grants : Nat → Bool) {dst : Node σ}
    (ha : Arrays B base h dst.any dst.anyLens dst.anyKinds dst.anyFromJson R ps ls ks fs) :
    ∃ ok p1 p2 p3 p4 h', growAny grants dst h =
        .ok ((ok, { dst with any := p1, anyLens := p2, anyKinds := p3, anyFromJson := p4 }), h') ∧
      Asks grants 4 h h' ok ∧ (∀ a ∈ R, h'.block a = h.block a) ∧ Arrays B base h' p1 p2 p3 p4 R ps ls ks fs ∧
      (ok = true → p1.isSome ∧ p2.isSome ∧ p3.isSome ∧ p4.isSome) := by
  obtain ⟨q1, h1, hr1, hasks1, hg1, hR1, hx1⟩ := realloc_array grants .pointers ha.grown (.refl _) ha.any
  have ha1 : Arrays B base h1 (q1.or dst.any) dst.anyLens dst.anyKinds dst.anyFromJson R ps ls ks fs :=
    ⟨hg1, hx1, ha.anyLens.congr fun a hp => hR1 a (mem_first hp), ha.anyKinds.congr fun a hp => hR1 a (mem_second hp),
      ha.anyFromJson.congr fun a hp => hR1 a (mem_third hp)⟩
  replace hR1 : ∀ a ∈ R, h1.block a = h.block a := fun a hR => hR1 a (mem_rest hR)
  rw [growAny, run_bind hr1]
  cases q1 with
  | none => exact ⟨false, _, _, _, _, h1, rfl, hasks1.stop 3, hR1, ha1, nofun⟩
  | some a1 =>
    rw [Option.some_or] at ha1
    obtain ⟨q2, h2, hr2, hasks2, hg2, hR2, hx2⟩ := realloc_array grants .lens ha1.grown
      (List.perm_append_comm_assoc _ _ _) ha1.anyLens
    have ha2 : Arrays B base h2 (some a1) (q2.or dst.anyLens) dst.anyKinds dst.anyFromJson R ps ls ks fs :=
      ⟨hg2.perm (List.perm_append_comm_assoc _ _ _), ha1.any.congr fun a hp => hR2 a (mem_first hp), hx2,
        ha1.anyKinds.congr fun a hp => hR2 a (mem_second hp), ha1.anyFromJson.congr fun a hp => hR2 a (mem_third hp)⟩
    replace hR2 : ∀ a ∈ R, h2.block a = h.block a := fun a hR => (hR2 a (mem_rest hR)).trans (hR1 a hR)
    dsimp only
    rw [run_bind hr2]
    cases q2 with
    | none => exact ⟨false, _, _, _, _, h2, rfl, hasks1.then (hasks2.stop 2), hR2, ha2, nofun⟩
    | some a2 =>
      rw [Option.some_or] at ha2
      have hperm3 : ∀ p L, ((some a1).toList ++ ((some a2).toList ++ (Option.toList p ++ L))).Perm
          (p.toList ++ ((some a1).toList ++ ((some a2).toList ++ L))) := fun p L =>
        (List.Perm.append_left _ (List.perm_append_comm_assoc _ _ _)).trans (List.perm_append_comm_assoc _ _ _)
      obtain ⟨q3, h3, hr3, hasks3, hg3, hR3, hx3⟩ := realloc_array grants .kinds ha2.grown (hperm3 _ _) ha2.anyKinds
      have ha3 : Arrays B base h3 (some a1) (some a2) (q3.or dst.anyKinds) dst.anyFromJson R ps ls ks fs :=
        ⟨hg3.perm (hperm3 _ _).symm, ha2.any.congr fun a hp => hR3 a (mem_first hp),
          ha2.anyLens.congr fun a hp => hR3 a (mem_second hp), hx3,
          ha2.anyFromJson.congr fun a hp => hR3 a (mem_third hp)⟩
      replace hR3 : ∀ a ∈ R, h3.block a = h.block a := fun a hR => (hR3 a (mem_rest hR)).trans (hR2 a hR)
      dsimp only
      rw [run_bind hr3]
      cases q3 with
      | none =>
        exact ⟨false, _, _, _, _, h3, rfl, hasks1.then (hasks2.then (hasks3.stop 1)), hR3, ha3, nofun⟩
      | some a3 =>
        rw [Option.some_or] at ha3
        have hperm4 : ∀ p L, ((some a1).toList ++ ((some a2).toList ++ ((some a3).toList ++ (Option.toList p ++ L)))).Perm
            (p.toList ++ ((some a1).toList ++ ((some a2).toList ++ ((some a3).toList ++ L)))) := fun p L =>
          (List.Perm.append_left _ (List.Perm.append_left _ (List.perm_append_comm_assoc _ _ _))).trans
            ((List.Perm.append_left _ (List.perm_append_comm_assoc _ _ _)).trans (List.perm_append_comm_assoc _ _ _))
        obtain ⟨q4, h4, hr4, hasks4, hg4, hR4, hx4⟩ := realloc_array grants .flags ha3.grown (hperm4 _ _)
          ha3.anyFromJson
        have ha4 : Arrays B base h4 (some a1) (some a2) (some a3) (q4.or dst.anyFromJson) R ps ls ks fs :=
          ⟨hg4.perm (hperm4 _ _).symm, ha3.any.congr fun a hp => hR4 a (mem_first hp),
            ha3.anyLens.congr fun a hp => hR4 a (mem_second hp),
            ha3.anyKinds.congr fun a hp => hR4 a (mem_third hp), hx4⟩
        replace hR4 : ∀ a ∈ R, h4.block a = h.block a := fun a hR => (hR4 a (mem_rest hR)).trans (hR3 a hR)
        have hasks := hasks1.then (hasks2.then (hasks3.then hasks4))
        dsimp only
        rw [run_bind hr4]
        cases q4 with
        | none => exact ⟨false, _, _, _, _, h4, rfl, hasks, hR4, ha4, nofun⟩
        | some a4 => exact ⟨true, _, _, _, _, h4, rfl, hasks, hR4, ha4, fun _ => ⟨rfl, rfl, rfl, rfl⟩⟩

/-- What is pushed stands behind what was there, or everything that was there is still there. -/
theorem anyPush_spec (grants : Nat → Bool) {dst : Node σ} (item : Option Nat) (len : Nat) (kind : LiteralKind)
    (fromJson : Bool) (ha : Arrays B base h dst.any dst.anyLens dst.anyKinds dst.anyFromJson R ps ls ks fs)
    (hps : dst.anyCount = ps.length) (hls : dst.anyCount = ls.length) (hks : dst.anyCount = ks.length)
    (hfs : dst.anyCount = fs.length) :
    ∃ ok p1 p2 p3 p4 h', anyPush grants dst item len kind fromJson h =
        .ok ((ok, { dst with any := p1, anyLens := p2, anyKinds := p3, anyFromJson := p4
                             anyCount := if ok then dst.anyCount + 1 else dst.anyCount }), h') ∧
      Asks grants 4 h h' ok ∧ (∀ a ∈ R, h'.block a = h.block a) ∧
      if ok then
        Arrays B base h' p1 p2 p3 p4 R (ps ++ [item]) (ls ++ [len]) (ks ++ [kind]) (fs ++ [fromJson])
      else Arrays B base h' p1 p2 p3 p4 R ps ls ks fs := by
  obtain ⟨ok, p1, p2, p3, p4, h1, hgrow, hasks, hR, ha1, hsome⟩ := growAny_spec grants ha
  rw [anyPush, run_bind hgrow]
  cases ok with
  | false => exact ⟨false, p1, p2, p3, p4, h1, rfl, hasks, hR, ha1⟩
  | true =>
    obtain ⟨h1s, h2s, h3s, h4s⟩ := hsome rfl
    obtain ⟨a1, rfl⟩ := Option.isSome_iff_exists.mp h1s
    obtain ⟨a2, rfl⟩ := Option.isSome_iff_exists.mp h2s
    obtain ⟨a3, rfl⟩ := Option.isSome_iff_exists.mp h3s
    obtain ⟨a4, rfl⟩ := Option.isSome_iff_exists.mp h4s
    obtain ⟨hg, hx1, hx2, hx3, hx4⟩ := ha1
    have hnodup := hg.nodup
    simp only [Option.toList_some, List.cons_append, List.nil_append, List.nodup_cons, List.mem_cons, not_or]
      at hnodup
    obtain ⟨⟨h12, h13, h14, h1R⟩, ⟨h23, h24, h2R⟩, ⟨h34, h3R⟩, h4R, -⟩ := hnodup
    have hs1 := store_spec (f := Block.pointers?) (fun _ => rfl) hps hx1 item
    have hg1 := hg.write (mem_first rfl) (.pointers (ps ++ [item]))
    have hs2 := store_spec (f := Block.lens?) (fun _ => rfl) hls ((put_of_ne _ _ (Ne.symm h12)).trans hx2) len
      (h := { h1 with block := put h1.block a1 (.pointers (ps ++ [item])) })
    have hg2 := hg1.write (mem_second rfl) (.lens (ls ++ [len]))
    have hs3 := store_spec (f := Block.kinds?) (fun _ => rfl) hks
      ((put_of_ne _ _ (Ne.symm h23)).trans ((put_of_ne _ _ (Ne.symm h13)).trans hx3)) kind
      (h := { h1 with block := put (put h1.block a1 (.pointers (ps ++ [item]))) a2 (.lens (ls ++ [len])) })
    have hg3 := hg2.write (mem_third rfl) (.kinds (ks ++ [kind]))
    have hs4 := store_spec (f := Block.flags?) (fun _ => rfl) hfs ((put_of_ne _ _ (Ne.symm h34)).trans
      ((put_of_ne _ _ (Ne.symm h24)).trans ((put_of_ne _ _ (Ne.symm h14)).trans hx4))) fromJson
      (h := { h1 with block := (put (put (put h1.block a1 (.pointers (ps ++ [item]))) a2 (.lens (ls ++ [len]))) a3
        (.kinds (ks ++ [kind]))) })
    have hg4 := hg3.write (mem_rest (mem_first rfl)) (.flags (fs ++ [fromJson]))
    refine ⟨true, some a1, some a2, some a3, some a4, { h1 with block := (put (put (put (put h1.block a1
      (.pointers (ps ++ [item]))) a2 (.lens (ls ++ [len]))) a3 (.kinds (ks ++ [kind]))) a4
      (.flags (fs ++ [fromJson]))) }, ?_, ⟨hasks.granted, hasks.tries⟩, fun a ha => ?_, ?_⟩
    · dsimp only
      rw [if_pos rfl, run_bind hs1, run_bind hs2, run_bind hs3, run_bind hs4]
      rfl
    · dsimp only
      rw [put_of_ne _ _ (ne_of_mem_of_not_mem ha h4R), put_of_ne _ _ (ne_of_mem_of_not_mem ha h3R),
        put_of_ne _ _ (ne_of_mem_of_not_mem ha h2R), put_of_ne _ _ (ne_of_mem_of_not_mem ha h1R)]
      exact hR a ha
    · rw [if_pos rfl]
      exact
        { grown := hg4
          any := (put_of_ne _ _ h14).trans
            ((put_of_ne _ _ h13).trans ((put_of_ne _ _ h12).trans (put_self _ _ _)))
          anyLens := (put_of_ne _ _ h24).trans ((put_of_ne _ _ h23).trans (put_self _ _ _))
          anyKinds := (put_of_ne _ _ h34).trans (put_self _ _ _)
          anyFromJson := put_self _ _ _ }

/-! ## Payloads -/

/-- The strings of a struct besides its value. -/
def Node.strings (n : Node σ) : List Nat := (Slot.all.map n.texts).filterMap id

theorem contentPointers_eq (n : Node σ) (ps : List (Option Nat)) :
    (contentPointers n ps).filterMap id = n.strings ++ (n.value.toList ++ (ps.filterMap id ++
      (n.any.toList ++ (n.anyLens.toList ++ (n.anyKinds.toList ++ n.anyFromJson.toList))))) := by
  rw [contentPointers, List.filterMap_append, filterMap_cons_toList, List.filterMap_append]
  simp only [filterMap_cons_toList, List.filterMap_nil, List.append_nil]
  rfl

theorem strings_setText {n : Node σ} {slot : Slot} (hnone : n.texts slot = none) (p : Option Nat) :
    (n.setText slot p).strings.Perm (p.toList ++ n.strings) := by
  obtain ⟨front, back, hall⟩ := List.append_of_mem slot.mem_all
  have hnodup : (front ++ slot :: back).Nodup := by
    rw [← hall]
    decide
  obtain ⟨-, hback, hfront⟩ := List.nodup_append.mp hnodup
  have hkept : ∀ slots : List Slot, slot ∉ slots → slots.map (n.setText slot p).texts = slots.map n.texts :=
    fun slots hslot => List.map_congr_left fun s hs => if_neg (ne_of_mem_of_not_mem hs hslot)
  have hself : (n.setText slot p).texts slot = p := if_pos rfl
  rw [Node.strings, Node.strings, hall, List.map_append, List.map_append, List.map_cons, List.map_cons,
    hkept front fun h => hfront slot h slot (List.mem_cons_self ..) rfl, hkept back (List.nodup_cons.mp hback).1, hself,
    hnone, List.filterMap_append, List.filterMap_append, filterMap_cons_toList, filterMap_cons_toList]
  exact List.perm_append_comm_assoc _ _ _

/-- Two structs with the same kind, length of the value, children and scalars. -/
structure Alike (n m : Node σ) : Prop where
  kind : n.kind = m.kind
  valueLen : n.valueLen = m.valueLen
  children : n.children = m.children
  childCount : n.childCount = m.childCount
  scalars : n.scalars = m.scalars

/-- A struct holds what has been cloned so far of the content of `src`, in blocks that are new. -/
structure Made (B : Blocks σ) (base : Nat) (src : Node σ) (h : Heap (Block σ)) (dst : Node σ)
    (texts : Slot → Option Bytes) (value : Option Bytes) (xs : List AnyValue) (ps : List (Option Nat)) : Prop where
  alike : Alike dst src
  texts : ∀ slot, ReadsText h.block (dst.texts slot) (texts slot)
  value : ReadsText h.block dst.value value
  items : List.Forall₂ (fun p (x : AnyValue) => ReadsText h.block p (some x.text)) ps xs
  count : dst.anyCount = xs.length
  arrays : Arrays B base h dst.any dst.anyLens dst.anyKinds dst.anyFromJson
    (dst.strings ++ (dst.value.toList ++ ps.filterMap id)) ps (xs.map fun x => x.text.length)
    (xs.map AnyValue.kind) (xs.map AnyValue.fromJson)

section

variable {src dst : Node σ} {texts : Slot → Option Bytes} {value : Option Bytes} {items : List AnyValue}

theorem Made.grown (hm : Made B base src h dst texts value items ps) :
    Grown B base h ((contentPointers dst ps).filterMap id) := by
  refine hm.arrays.grown.perm ?_
  rw [contentPointers_eq, List.perm_iff_count]
  intro a
  simp only [List.count_append]
  omega

theorem Made.owns (hm : Made B base src h dst texts value items ps) :
    OwnsContent h.block dst ((contentPointers dst ps).filterMap id) := by
  refine ⟨ps, ⟨hm.count.trans hm.items.length_eq.symm, ?_⟩, rfl, fun a ha => ((hm.grown.live a).mp ha).2⟩
  have hany := hm.arrays.any
  cases ha : dst.any with
  | none =>
    rw [ha] at hany
    exact hany
  | some a =>
    rw [ha] at hany
    exact hany

theorem Made.setText (hm : Made B base src h dst texts value items ps) {slot : Slot} (hnone : dst.texts slot = none)
    {h' : Heap (Block σ)} {out : Option Nat} {text : Option Bytes} (hg : Grown h.block h.next h' out.toList)
    (ht : ReadsText h'.block out text) :
    Made B base src h' (dst.setText slot out) (fun s => if s = slot then text else texts s) value items ps where
  alike := ⟨hm.alike.kind, hm.alike.valueLen, hm.alike.children, hm.alike.childCount, hm.alike.scalars⟩
  texts := fun s => by
    by_cases hs : s = slot
    · rw [Node.setText, if_pos hs]
      dsimp only
      rw [if_pos hs]
      exact ht
    · rw [Node.setText, if_neg hs]
      dsimp only
      rw [if_neg hs]
      exact (hm.texts s).mono fun _ _ => hg.extends
  value := hm.value.mono fun _ _ => hg.extends
  items := hm.items.imp fun _ _ hx => hx.mono fun _ _ => hg.extends
  count := hm.count
  arrays := by
    refine (hm.arrays.grow hg).perm ?_
    rw [← List.append_assoc]
    exact (strings_setText hnone out).symm.append_right _

theorem Made.setValue (hm : Made B base src h dst texts none items ps) {h' : Heap (Block σ)} {out : Option Nat}
    {value : Option Bytes} (hg : Grown h.block h.next h' out.toList) (ht : ReadsText h'.block out value) :
    Made B base src h' { dst with value := out } texts value items ps where
  alike := ⟨hm.alike.kind, hm.alike.valueLen, hm.alike.children, hm.alike.childCount, hm.alike.scalars⟩
  texts := fun s => (hm.texts s).mono fun _ _ => hg.extends
  value := ht
  items := hm.items.imp fun _ _ hx => hx.mono fun _ _ => hg.extends
  count := hm.count
  arrays := by
    have hnone : dst.value = none := by
      have hvalue := hm.value
      cases hdst : dst.value with
      | none => rfl
      | some a =>
        rw [hdst] at hvalue
        exact hvalue.elim
    refine (hm.arrays.grow hg).perm ?_
    rw [hnone]
    exact List.perm_append_comm_assoc _ _ _

theorem cloneTexts_spec (grants : Nat → Bool) {c : Slot → Option Bytes}
    (hsrc : ∀ slot, ReadsText B (src.texts slot) (c slot)) {slots : List Slot} (hslots : slots.Nodup)
    (hm : Made B base src h dst texts none [] []) (hnone : ∀ slot ∈ slots, dst.texts slot = none) :
    ∃ ok dst' h' texts', cloneTexts grants src slots dst h = .ok ((ok, dst'), h') ∧
      Asks grants (slots.map fun slot => (c slot).isSome.toNat).sum h h' ok ∧
      Made B base src h' dst' texts' none [] [] ∧
      (ok = true → ∀ slot, texts' slot = if slot ∈ slots then c slot else texts slot) := by
  induction slots generalizing dst h texts with
  | nil => exact ⟨true, dst, h, texts, rfl, .nothing _ _, hm, fun _ _ => rfl⟩
  | cons slot rest ih =>
    obtain ⟨hslot, hrest⟩ := List.nodup_cons.mp hslots
    obtain ⟨ok, out, h1, hclone, hasks, hg, htrue, hfalse⟩ := cloneString_spec grants hm.grown.fresh
      ((hsrc slot).mono fun _ _ => hm.grown.extends)
    rw [cloneTexts, run_bind hclone, List.map_cons, List.sum_cons]
    cases ok with
    | false =>
      rw [hfalse rfl] at hg ⊢
      exact ⟨false, _, h1, _, rfl, hasks.stop _, hm.setText (hnone slot (List.mem_cons_self ..)) hg
        (show ReadsText h1.block none none from trivial), nofun⟩
    | true =>
      have hm1 := hm.setText (hnone slot (List.mem_cons_self ..)) hg (htrue rfl)
      obtain ⟨ok, dst', h', texts', hrun, hasks', hm', htexts⟩ := ih hrest hm1 fun s hs =>
        (if_neg (ne_of_mem_of_not_mem hs hslot)).trans (hnone s (List.mem_cons_of_mem _ hs))
      refine ⟨ok, dst', h', texts', hrun, hasks.then hasks', hm', fun hok s => ?_⟩
      rw [htexts hok s]
      by_cases hs : s ∈ rest
      · rw [if_pos hs, if_pos (List.mem_cons_of_mem _ hs)]
      · rw [if_neg hs]
        by_cases heq : s = slot
        · rw [heq, if_pos rfl, if_pos (List.mem_cons_self ..)]
        · rw [if_neg heq, if_neg fun hmem => (List.mem_cons.mp hmem).elim heq hs]

theorem cloneValue_spec (grants : Nat → Bool) (hm : Made B base src h dst texts none items ps)
    (hsrc : ReadsText B src.value value) (hlen : ∀ bytes ∈ value, bytes.length = src.valueLen) :
    ∃ ok dst' h' value', cloneValue grants src dst h = .ok ((ok, dst'), h') ∧
      Asks grants value.isSome.toNat h h' ok ∧ Made B base src h' dst' texts value' items ps ∧
      (ok = true → value' = value) := by
  rw [cloneValue]
  cases hvalue : src.value with
  | none =>
    rw [hvalue] at hsrc
    cases value with
    | none => exact ⟨true, dst, h, none, rfl, .nothing _ _, hm, fun _ => rfl⟩
    | some bytes => exact hsrc.elim
  | some a =>
    rw [hvalue] at hsrc
    cases value with
    | none => exact hsrc.elim
    | some bytes =>
      obtain ⟨out, h', hrun, hasks, hg, hout⟩ := strndup_spec grants hm.grown.fresh (hm.grown.extends hsrc)
      dsimp only
      rw [← hlen bytes rfl, run_bind hrun]
      cases out with
      | none => exact ⟨false, _, h', none, rfl, hasks, hm.setValue hg (show ReadsText h'.block none none from trivial),
          nofun⟩
      | some b =>
        have hlen' : bytes.length = dst.valueLen := (hlen bytes rfl).trans hm.alike.valueLen.symm
        refine ⟨true, { dst with value := some b }, h', some bytes, ?_, hasks,
          hm.setValue hg (hout b rfl : ReadsText h'.block (some b) (some bytes)), fun _ => rfl⟩
        rw [hlen']
        rfl

/-- What is read of an item that is cloned. -/
theorem ReadsItems.read_at {front back : List AnyValue} {x : AnyValue}
    (hi : ReadsItems h.block src (front ++ x :: back)) :
    (∃ t, readAt Block.pointers? src.any front.length h = .ok (some t, h) ∧ h.block t = some (.text x.text)) ∧
      readAt Block.lens? src.anyLens front.length h = .ok (x.text.length, h) ∧
      readAt Block.kinds? src.anyKinds front.length h = .ok (x.kind, h) ∧
      readFromJson src front.length h = .ok (x.fromJson, h) := by
  have hget : ∀ {α : Type} (f : AnyValue → α), ((front ++ x :: back).map f)[front.length]? = some (f x) := by
    intro α f
    rw [List.getElem?_map, List.getElem?_append_right (Nat.le_refl _), Nat.sub_self, List.getElem?_cons_zero]
    rfl
  generalize hitems : front ++ x :: back = items at hi hget
  cases hi with
  | nil => cases front <;> cases hitems
  | arrays any pointers texts anyLens lens anyKinds kinds flags =>
    rename_i a l k ps
    subst hitems
    refine ⟨?_, ?_, ?_, ?_⟩
    · have hdrop := List.forall₂_drop_append ps front (x :: back) texts
      obtain ⟨p, rest, hp, -, hps⟩ := List.forall₂_cons_right_iff.mp hdrop
      obtain ⟨t, rfl, ht⟩ := hp.exists_block
      have hat : ps[front.length]? = some (some t) := by
        have h0 := congrArg (·[0]?) hps
        rw [List.getElem?_drop] at h0
        exact h0
      rw [any]
      exact ⟨t, readAt_eq pointers rfl hat, ht⟩
    · rw [anyLens]
      exact readAt_eq lens rfl (hget _)
    · rw [anyKinds]
      exact readAt_eq kinds rfl (hget _)
    · rw [readFromJson]
      cases hflags : src.anyFromJson with
      | none =>
        rw [hflags] at flags
        have hx := flags x (List.mem_append_right _ (List.mem_cons_self ..))
        rw [hx]
        rfl
      | some f =>
        rw [hflags] at flags
        exact readAt_eq flags rfl (hget _)

/-- An item that is pushed behind the others. -/
theorem Made.push (hm : Made B base src h dst texts value items ps) {h' : Heap (Block σ)} {t : Nat} {x : AnyValue}
    {p1 p2 p3 p4 : Option Nat} (hR : ∀ a ∈ dst.strings ++ (dst.value.toList ++ ps.filterMap id), h'.block a = h.block a)
    (ht : h'.block t = some (.text x.text))
    (ha : Arrays B base h' p1 p2 p3 p4 (t :: (dst.strings ++ (dst.value.toList ++ ps.filterMap id))) (ps ++ [some t])
      (items.map (fun x => x.text.length) ++ [x.text.length]) (items.map AnyValue.kind ++ [x.kind])
      (items.map AnyValue.fromJson ++ [x.fromJson])) :
    Made B base src h' { dst with any := p1, anyLens := p2, anyKinds := p3, anyFromJson := p4
                                  anyCount := dst.anyCount + 1 } texts value (items ++ [x]) (ps ++ [some t]) where
  alike := ⟨hm.alike.kind, hm.alike.valueLen, hm.alike.children, hm.alike.childCount, hm.alike.scalars⟩
  texts := fun s => (hm.texts s).congr fun a ha => hR a (List.mem_append_left _
    (List.mem_filterMap.mpr ⟨_, List.mem_map_of_mem s.mem_all, ha⟩))
  value := hm.value.congr fun a ha => hR a (List.mem_append_right _ (mem_first ha))
  items := by
    refine List.rel_append (forall₂_imp_mem (fun p hp x _ hx => hx.congr fun a ha => hR a ?_) hm.items) (.cons ht .nil)
    exact List.mem_append_right _ (List.mem_append_right _ (List.mem_filterMap.mpr ⟨p, hp, ha⟩))
  count := by
    rw [List.length_append, ← hm.count]
    rfl
  arrays := by
    rw [List.map_append, List.map_append, List.map_append]
    refine ha.perm ?_
    have hperm : (t :: (dst.strings ++ (dst.value.toList ++ ps.filterMap id))).Perm
        ((dst.strings ++ (dst.value.toList ++ ps.filterMap id)) ++ [t]) := (List.perm_append_singleton t _).symm
    rw [List.append_assoc, List.append_assoc] at hperm
    rw [List.filterMap_append]
    exact hperm

/-- What was left of a push that was refused, without the copy. -/
theorem Made.unpushed (hm : Made B base src h dst texts value items ps) {h' : Heap (Block σ)} {t : Nat}
    {p1 p2 p3 p4 : Option Nat} (hR : ∀ a ∈ dst.strings ++ (dst.value.toList ++ ps.filterMap id), h'.block a = h.block a)
    (ha : Arrays B base h' p1 p2 p3 p4 (t :: (dst.strings ++ (dst.value.toList ++ ps.filterMap id))) ps
      (items.map fun x => x.text.length) (items.map AnyValue.kind) (items.map AnyValue.fromJson)) :
    Made B base src { h' with block := erase h'.block [t] }
      { dst with any := p1, anyLens := p2, anyKinds := p3, anyFromJson := p4, anyCount := dst.anyCount } texts value
      items ps := by
  have hperm : (p1.toList ++ (p2.toList ++ (p3.toList ++ (p4.toList ++
      (t :: (dst.strings ++ (dst.value.toList ++ ps.filterMap id))))))).Perm ([t] ++ (p1.toList ++ (p2.toList ++
      (p3.toList ++ (p4.toList ++ (dst.strings ++ (dst.value.toList ++ ps.filterMap id))))))) := by
    rw [List.perm_iff_count]
    intro a
    simp only [List.count_append, List.count_cons, List.count_nil]
    omega
  obtain ⟨-, -, hapart⟩ := List.nodup_append.mp (hperm.nodup_iff.mp ha.grown.nodup)
  -- nothing else is at the address of the copy
  have hkept : ∀ a ∈ p1.toList ++ (p2.toList ++ (p3.toList ++ (p4.toList ++
      (dst.strings ++ (dst.value.toList ++ ps.filterMap id))))), erase h'.block [t] a = h'.block a := fun a hmem =>
    erase_of_not_mem fun hin => hapart a hin a hmem rfl
  have hold : ∀ a ∈ dst.strings ++ (dst.value.toList ++ ps.filterMap id), erase h'.block [t] a = h.block a := fun a hmem =>
    (hkept a (mem_rest (List.mem_append_right _ hmem))).trans (hR a hmem)
  exact
    { alike := ⟨hm.alike.kind, hm.alike.valueLen, hm.alike.children, hm.alike.childCount, hm.alike.scalars⟩
      texts := fun s => (hm.texts s).congr fun a ha => hold a (List.mem_append_left _
        (List.mem_filterMap.mpr ⟨_, List.mem_map_of_mem s.mem_all, ha⟩))
      value := hm.value.congr fun a ha => hold a (List.mem_append_right _ (mem_first ha))
      items := forall₂_imp_mem (fun p hp x _ hx => hx.congr fun a ha => hold a (List.mem_append_right _
        (List.mem_append_right _ (List.mem_filterMap.mpr ⟨p, hp, ha⟩)))) hm.items
      count := hm.count
      arrays :=
        { grown := ha.grown.free hperm
          any := ha.any.congr fun a hp => hkept a (mem_first hp)
          anyLens := ha.anyLens.congr fun a hp => hkept a (mem_second hp)
          anyKinds := ha.anyKinds.congr fun a hp => hkept a (mem_third hp)
          anyFromJson := ha.anyFromJson.congr fun a hp => hkept a (mem_rest (mem_first hp)) } }

theorem Made.refused (hm : Made B base src h dst texts value items ps) {h' : Heap (Block σ)}
    (hg : Grown h.block h.next h' []) : Made B base src h' dst texts value items ps :=
  { hm with
    texts := fun s => (hm.texts s).mono fun _ _ => hg.extends
    value := hm.value.mono fun _ _ => hg.extends
    items := hm.items.imp fun _ _ hx => hx.mono fun _ _ => hg.extends
    arrays := hm.arrays.grow hg }

theorem cloneAny_spec (grants : Nat → Bool) {front back : List AnyValue} (hsrc : ReadsItems B src (front ++ back))
    (hm : Made B base src h dst texts value front ps) :
    ∃ ok dst' h' items' ps', cloneAny grants src front.length back.length dst h = .ok ((ok, dst'), h') ∧
      Asks grants (5 * back.length) h h' ok ∧ Made B base src h' dst' texts value items' ps' ∧
      (ok = true → items' = front ++ back) := by
  induction back generalizing front dst h ps with
  | nil => exact ⟨true, dst, h, front, ps, rfl, .nothing _ _, hm, fun _ => (List.append_nil _).symm⟩
  | cons x back ih =>
    have hcount : 5 * (back.length + 1) = 1 + (4 + 5 * back.length) := by omega
    obtain ⟨⟨t, hany, ht⟩, hlens, -, -⟩ := (hsrc.mono fun _ _ => hm.grown.extends).read_at
    obtain ⟨out, h1, hdup, hasks1, hg1, hout⟩ := strndup_spec grants hm.grown.fresh ht
    rw [List.length_cons, hcount, cloneAny, run_bind hlens, run_bind hany, run_bind hdup]
    cases out with
    | none => exact ⟨false, dst, h1, front, ps, rfl, hasks1.stop _, hm.refused hg1, nofun⟩
    | some c =>
      obtain ⟨-, -, hkinds, hflags⟩ := (hsrc.mono fun _ _ => (hm.grown.trans hg1).extends).read_at
      have hlen : ∀ {α : Type} (f : AnyValue → α), dst.anyCount = (front.map f).length := fun f =>
        hm.count.trans (List.length_map f).symm
      obtain ⟨ok, p1, p2, p3, p4, h2, hpush, hasks2, hR, ha⟩ := anyPush_spec grants (some c) x.text.length x.kind
        x.fromJson (hm.arrays.grow hg1) (hm.count.trans hm.items.length_eq.symm) (hlen _) (hlen _) (hlen _)
      have hc : h2.block c = some (.text x.text) := (hR c (List.mem_cons_self ..)).trans (hout c rfl)
      have hR' : ∀ a ∈ dst.strings ++ (dst.value.toList ++ ps.filterMap id), h2.block a = h.block a := fun a hmem =>
        (hR a (List.mem_append_right _ hmem)).trans
          (hg1.old a (hm.arrays.grown.lt_next (mem_rest (List.mem_append_right _ hmem))))
      dsimp only [Option.isNone_some]
      rw [if_neg Bool.false_ne_true, run_bind hkinds, run_bind hflags, run_bind hpush]
      cases ok with
      | false =>
        have hfree := free_eq (h := h2) (p := some c) fun a ha => by
          rw [← Option.mem_some_iff.mp ha, hc]
          rfl
        refine ⟨false, _, _, front, ps, ?_, ?_, hm.unpushed hR' ha, nofun⟩
        · dsimp only
          rw [if_neg Bool.false_ne_true, run_bind hfree]
          rfl
        · exact hasks1.then (hasks2.stop _)
      | true =>
        have hm' := hm.push hR' hc ha
        obtain ⟨ok, dst', h', items', ps', hrun, hasks', hmade, hitems⟩ := ih
          (by rw [List.append_assoc]; exact hsrc) hm'
        have hfront : (front ++ [x]).length = front.length + 1 := by rw [List.length_append, List.length_singleton]
        refine ⟨ok, dst', h', items', ps', ?_, hasks1.then (hasks2.then hasks'), hmade, fun hok => ?_⟩
        · rw [hfront] at hrun
          exact hrun
        · rw [hitems hok, List.append_assoc]
          rfl

end

/-- How many blocks a content is cloned into. -/
def contentRequests (c : Content σ) : Nat :=
  (Slot.all.map fun slot => (c.texts slot).isSome.toNat).sum + (c.value.isSome.toNat + 5 * c.items.length)

theorem ReadsContent.of_made {src dst : Node σ} {c : Content σ} (hsrc : ReadsContent B src c) {ps : List (Option Nat)}
    (hm : Made B base src h dst c.texts c.value c.items ps) : ReadsContent h.block dst c where
  kind := hm.alike.kind.trans hsrc.kind
  texts := hm.texts
  value := hm.value
  valueLen := hm.alike.valueLen.trans hsrc.valueLen
  sized := hsrc.sized
  anyCount := hm.count
  scalars := hm.alike.scalars.trans hsrc.scalars
  items := by
    obtain ⟨-, hany, hlens, hkinds, hflags⟩ := hm.arrays
    have hitems := hm.items
    by_cases hxs : c.items = []
    · rw [hxs]
      exact .nil
    · have hps : ps ≠ [] := fun hnil => hxs (List.length_eq_zero_iff.mp (by rw [← hitems.length_eq, hnil]; rfl))
      obtain ⟨a, ha, hps⟩ := hany.exists_block hps
      obtain ⟨l, hl, hls⟩ := hlens.exists_block fun hnil => hxs (List.map_eq_nil_iff.mp hnil)
      obtain ⟨k, hk, hks⟩ := hkinds.exists_block fun hnil => hxs (List.map_eq_nil_iff.mp hnil)
      obtain ⟨f, hf, hfs⟩ := hflags.exists_block fun hnil => hxs (List.map_eq_nil_iff.mp hnil)
      refine .arrays ha hps hitems hl hls hk hks ?_
      rw [hf]
      exact hfs

theorem clonePayload_spec (grants : Nat → Bool) (hf : h.Fresh) {src : Node σ} {c : Content σ}
    (hsrc : ReadsContent h.block src c) :
    ∃ ok dst h' L, clonePayload grants src h = .ok ((ok, dst), h') ∧ Asks grants (contentRequests c) h h' ok ∧
      Grown h.block h.next h' L ∧ OwnsContent h'.block dst L ∧ Alike dst src ∧
      (ok = true → ReadsContent h'.block dst c) := by
  have hm : Made h.block h.next src h src.bare (fun _ => none) none [] [] :=
    { alike := ⟨rfl, rfl, rfl, rfl, rfl⟩
      texts := fun _ => trivial
      value := trivial
      items := .nil
      count := rfl
      arrays := { grown := Grown.refl hf, any := rfl, anyLens := rfl, anyKinds := rfl, anyFromJson := rfl } }
  obtain ⟨ok1, dst1, h1, texts1, hrun1, hasks1, hm1, htexts⟩ := cloneTexts_spec grants hsrc.texts
    (by decide : Slot.all.Nodup) hm fun _ _ => rfl
  rw [clonePayload, run_bind hrun1]
  cases ok1 with
  | false => exact ⟨false, dst1, h1, _, rfl, hasks1.stop _, hm1.grown, hm1.owns, hm1.alike, nofun⟩
  | true =>
    have htexts' : texts1 = c.texts := by
      funext slot
      rw [htexts rfl slot, if_pos slot.mem_all]
    subst htexts'
    obtain ⟨ok2, dst2, h2, value2, hrun2, hasks2, hm2, hvalue⟩ := cloneValue_spec grants hm1 hsrc.value
      (by rw [hsrc.valueLen]; exact hsrc.sized)
    dsimp only
    rw [if_pos rfl, run_bind hrun2]
    cases ok2 with
    | false => exact ⟨false, dst2, h2, _, rfl, hasks1.then (hasks2.stop _), hm2.grown, hm2.owns, hm2.alike, nofun⟩
    | true =>
      rw [hvalue rfl] at hm2
      have hall : ReadsItems h.block src ([] ++ c.items) := hsrc.items
      obtain ⟨ok3, dst3, h3, items3, ps3, hrun3, hasks3, hm3, hitems⟩ := cloneAny_spec grants hall hm2
      refine ⟨ok3, dst3, h3, _, ?_, hasks1.then (hasks2.then hasks3), hm3.grown, hm3.owns, hm3.alike, fun hok => ?_⟩
      · dsimp only
        rw [if_pos rfl, hsrc.anyCount]
        exact hrun3
      · rw [hitems hok] at hm3
        exact hsrc.of_made hm3

end Lql.Build
