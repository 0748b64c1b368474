import Lql.Selector.Refusal

/-!
# Composition leaves its inputs intact

The builders of compound selectors and of negations work on clones. Whatever is refused to them, they leave the heap as
it was, up to the refusals after which a clone has something of its source; and what they return has blocks of its own.
-/

namespace Lql.Build

open Lib Lib.Heap
open Selector (SelectorKind LiteralKind AnyValue)

variable {σ : Type}

/-! ## Inputs and results -/

/-- A pointer to a selector, or a null pointer for none. -/
def DenotesChild (B : Blocks σ) (depth : Nat) : Option Nat → Option (Tree σ) → Prop
  | none, none => True
  | some a, some t => Denotes B depth a t
  | _, _ => False

def ChildArray.pointers : ChildArray → List (Option Nat)
  | .null _ => []
  | .array ps => ps

/-- The blocks of a selector, its struct included. -/
def OwnsStruct (B : Blocks σ) (depth a : Nat) (L : List Nat) : Prop :=
  ∃ n L', B a = some (.nodes [n]) ∧ Owns B depth n L' ∧ L = a :: L'

/-- What a call on inputs is to leave behind. Where it fails, the inputs denote what they denoted, and nothing is live
that was not live before. Where it returns a selector, its blocks are new, and destroying either leaves the other. -/
def LeavesInputs [Inhabited σ] (depth : Nat) (h : Heap (Block σ)) (ps : List (Option Nat))
    (inputs : List (Option (Tree σ))) (result : Tree σ) : Except Fault (Except Err Nat × Heap (Block σ)) → Prop
  | .error _ => False
  | .ok (.error _, h') => List.Forall₂ (DenotesChild h'.block depth) ps inputs ∧ ∀ a, h.next ≤ a → h'.block a = none
  | .ok (.ok out, h') => List.Forall₂ (DenotesChild h'.block depth) ps inputs ∧ Denotes h'.block (depth + 1) out result ∧
      (∃ L, OwnsStruct h'.block (depth + 1) out L ∧ L.Nodup ∧ ∀ a ∈ L, h.block a = none) ∧
      (∃ h'', destroy (depth + 1) out h' = .ok ((), h'') ∧ List.Forall₂ (DenotesChild h''.block depth) ps inputs) ∧
      ∀ a L, some a ∈ ps → OwnsStruct h.block depth a L → L.Nodup →
        ∃ h'', destroy depth a h' = .ok ((), h'') ∧ Denotes h''.block (depth + 1) out result

/-- What a struct of a builder holds besides its children. -/
def bareContent [Inhabited σ] (kind : SelectorKind) : Content σ where
  kind := kind
  texts := fun _ => none
  value := none
  valueLen := 0
  items := []
  scalars := default

def compoundTree [Inhabited σ] (kind : SelectorKind) (inputs : List (Option (Tree σ))) : Tree σ :=
  .node (bareContent (if inputs.isEmpty then .all else kind)) (inputs.filterMap id)

def notTree [Inhabited σ] (input : Option (Tree σ)) : Tree σ := .node (bareContent .not) input.toList

/-- The requests behind the array of the children, up to a null pointer; the last is for the struct of the result. -/
def inputRequests : List (Option (Tree σ)) → List Bool
  | [] => [false]
  | none :: _ => []
  | some t :: rest => requests t ++ inputRequests rest

def compoundRequests (call : Call) (kind : SelectorKind) (inputs : List (Option (Tree σ))) : List Bool :=
  if call.out && call.allocator && (kind == .and || kind == .or) then
    if inputs.isEmpty then [false] else false :: inputRequests inputs
  else []

def notRequests (call : Call) (input : Option (Tree σ)) : List Bool :=
  if call.out && call.allocator then
    match input with
    | none => []
    | some t => false :: inputRequests [some t]
  else []

theorem DenotesChild.mono {B B' : Blocks σ} (h : Extends B B') {depth : Nat} {p : Option Nat} {t : Option (Tree σ)}
    (hd : DenotesChild B depth p t) : DenotesChild B' depth p t := by
  cases p with
  | none => cases t <;> exact hd
  | some a =>
    cases t with
    | none => exact hd
    | some t => exact Denotes.mono h hd

theorem OwnsStruct.congr {B B' : Blocks σ} {depth a : Nat} {L : List Nat} (h : ∀ x ∈ L, B' x = B x) (ho : OwnsStruct B depth a L) :
    OwnsStruct B' depth a L := by
  obtain ⟨n, L', ha, hown, rfl⟩ := ho
  exact ⟨n, L', (h a (List.mem_cons_self ..)).trans ha, hown.congr fun x hx => h x (List.mem_cons_of_mem _ hx), rfl⟩

theorem Denotes.congr {B B' : Blocks σ} {depth a : Nat} {L : List Nat} {t : Tree σ} (h : ∀ x ∈ L, B' x = B x) (ho : OwnsStruct B depth a L)
    (hd : Denotes B depth a t) : Denotes B' depth a t := by
  obtain ⟨n, L', ha, hown, rfl⟩ := ho
  obtain ⟨n', ha', hr⟩ := hd
  cases ha.symm.trans ha'
  exact ⟨n, (h a (List.mem_cons_self ..)).trans ha, hr.congr (fun x hx => h x (List.mem_cons_of_mem _ hx)) hown⟩

theorem OwnsStruct.live {B : Blocks σ} {depth a : Nat} {L : List Nat} (ho : OwnsStruct B depth a L) : ∀ x ∈ L, (B x).isSome := by
  obtain ⟨n, L', ha, hown, rfl⟩ := ho
  intro x hx
  rcases List.mem_cons.mp hx with rfl | hx
  · rw [ha]
    rfl
  · exact hown.live x hx

/-- Some input has lost an array of children. -/
def Damages (B : Blocks σ) (depth : Nat) (ps : List (Option Nat)) (h' : Heap (Block σ)) : Prop :=
  (∀ x b, B x = some b → h'.block x = some b ∨ h'.block x = none) ∧
    ∃ p src F, some p ∈ ps ∧ B p = some (.nodes [src]) ∧ Reaches B depth src F ∧ h'.block F = none

theorem Damages.not_denotes {B : Blocks σ} {depth : Nat} {ps : List (Option Nat)} {h' : Heap (Block σ)}
    (hd : Damages B depth ps h') {inputs : List (Option (Tree σ))} :
    ¬List.Forall₂ (DenotesChild h'.block depth) ps inputs := by
  intro hall
  obtain ⟨hshrinks, p, src, F, hmem, hp, hreach, hF⟩ := hd
  obtain ⟨t, -, ht⟩ := forall₂_left hall hmem
  cases t with
  | none => exact ht.elim
  | some t =>
    obtain ⟨n, hn, hr⟩ := ht
    rcases hshrinks p _ hp with heq | hnone
    · cases hn.symm.trans heq
      have hlive := hreach.live hshrinks hr
      rw [hF] at hlive
      cases hlive
    · rw [hn] at hnone
      cases hnone

variable [Inhabited σ] {grants : Nat → Bool} {depth : Nat} {h h1 : Heap (Block σ)} {ps : List (Option Nat)}
  {inputs : List (Option (Tree σ))} {L : List Nat}

/-! ## Destroying -/

theorem destroy_eq {a : Nat} (ho : OwnsStruct h.block depth a L) (hL : L.Nodup) :
    destroy depth a h = .ok ((), { h with block := erase h.block L }) := by
  obtain ⟨n, L', ha, hown, rfl⟩ := ho
  obtain ⟨hnot, hL'⟩ := List.nodup_cons.mp hL
  have hfree := free_eq (h := { h with block := erase h.block L' }) (p := some a) fun b hb => by
    rw [← Option.mem_some_iff.mp hb]
    exact (congrArg Option.isSome (erase_of_not_mem hnot)).trans (by rw [ha]; rfl)
  rw [destroy, run_bind (readAt_eq (f := Block.nodes?) ha rfl rfl), run_bind (cleanup_eq hown hL'), hfree]
  dsimp only
  rw [erase_erase, erase_perm h.block List.perm_append_comm]
  rfl

/-- A call that fails and leaves no block of its own. -/
theorem leavesInputs_error (hf : h.Fresh) (hin : List.Forall₂ (DenotesChild h.block depth) ps inputs) (t : Tree σ)
    (e : Err) {h' : Heap (Block σ)} (hb : h'.block = h.block) :
    LeavesInputs depth h ps inputs t (.ok (.error e, h')) := by
  refine ⟨?_, fun a ha => ?_⟩
  · rw [hb]
    exact hin
  · rw [hb]
    exact hf a ha

/-- **A root with blocks of its own becomes the result**, or is cleaned up. -/
theorem buildResult_spec (grants : Nat → Bool) (hin : List.Forall₂ (DenotesChild h.block depth) ps inputs)
    (hf : h.Fresh) {root : Node σ} {t : Tree σ} (hg : Grown h.block h.next h1 L) (ho : Owns h1.block (depth + 1) root L)
    (hr : Reads h1.block (depth + 1) root t) :
    LeavesInputs depth h ps inputs t (buildResult grants (depth + 1) root h1) := by
  obtain ⟨p, h2, halloc, -, hg2, hp⟩ := alloc_spec grants hg.fresh (Block.nodes [root])
  have hgrown := hg.trans hg2
  have hsame : ∀ x ∈ L, h2.block x = h1.block x := fun x hx => hg2.old x (hg.lt_next hx)
  rw [buildResult, run_bind halloc]
  cases p with
  | none =>
    have hclean := cleanup_eq (ho.congr hsame) hg.nodup
    dsimp only
    rw [run_bind hclean]
    exact leavesInputs_error hf hin t _ hgrown.erase_eq
  | some out =>
    have hout : OwnsStruct h2.block (depth + 1) out (out :: L) := ⟨root, L, hp out rfl, ho.congr hsame, rfl⟩
    have hden : Denotes h2.block (depth + 1) out t := ⟨root, hp out rfl, hr.congr hsame ho⟩
    have hnew : ∀ x ∈ out :: L, h.next ≤ x := fun x hx => ((hgrown.live x).mp hx).1
    refine ⟨?_, hden, ⟨out :: L, hout, hgrown.nodup, fun x hx => hf x (hnew x hx)⟩, ?_, fun a L' ha ho' hL' => ?_⟩
    · exact hin.imp fun _ _ hd => hd.mono fun _ _ => hgrown.extends
    · refine ⟨_, destroy_eq hout hgrown.nodup, ?_⟩
      have herase := hgrown.erase_eq
      rw [Option.toList_some] at herase
      dsimp only
      rw [show out :: L = [out] ++ L from rfl, herase]
      exact hin
    · have hold : ∀ x ∈ L', x < h.next := fun x hx => by
        obtain ⟨b, hb⟩ := Option.isSome_iff_exists.mp (ho'.live x hx)
        exact hf.lt hb
      refine ⟨_, destroy_eq (ho'.congr fun x hx => hgrown.old x (hold x hx)) hL', hden.congr (fun x hx => ?_) hout⟩
      refine erase_of_not_mem fun hmem => ?_
      have hlt := hold x hmem
      have hle := hnew x hx
      omega

/-! ## The array of a root -/

/-- The struct of a builder over an array of children. -/
def rootOf (kind : SelectorKind) (a count : Nat) : Node σ :=
  { (Node.zero : Node σ) with kind := kind, children := some a, childCount := count }

theorem rootOf_content (B : Blocks σ) (kind : SelectorKind) (a count : Nat) : OwnsContent B (rootOf kind a count) [] :=
  ⟨[], ⟨rfl, rfl⟩, rfl, nofun⟩

theorem bare_reads (B : Blocks σ) (kind : SelectorKind) (p : Option Nat) (count : Nat) :
    ReadsContent B { (Node.zero : Node σ) with kind := kind, children := p, childCount := count } (bareContent kind) where
  kind := rfl
  texts := fun _ => trivial
  value := trivial
  valueLen := rfl
  sized := nofun
  anyCount := rfl
  items := .nil
  scalars := rfl

variable {a k : Nat} {front : List (Node σ)} {Ls : List (List Nat)} {ts : List (Tree σ)}

/-- What is cloned so far owns its blocks. -/
theorem Family.toKept (hf : Family h.block h.next h1 (depth + 1) a front k Ls ts) :
    Kept h.block h.next h1 (depth + 1) a (front.length + k) := by
  refine ⟨_, Ls ++ List.replicate k [], hf.nodes, ?_, List.rel_append hf.owns (owns_zeros _ _ _), ?_⟩
  · rw [List.length_append, List.length_replicate]
  · have hzeros : (List.replicate k ([] : List Nat)).flatten = [] := by
      rw [List.flatten_eq_nil_iff]
      exact fun l hl => List.eq_of_mem_replicate hl
    rw [List.flatten_append, hzeros, List.append_nil]
    exact hf.grown

/-- Cleaning up a root whose nodes own their blocks gives the heap back. -/
theorem cleanup_root (hf : h.Fresh) (hk : Kept h.block h.next h1 depth a k) (kind : SelectorKind) :
    ∃ h2, cleanup (depth + 1) (rootOf kind a k) h1 = .ok ((), h2) ∧ h2.block = h.block := by
  obtain ⟨L, hg, ho⟩ := hk.owns (Grown.refl hf) (rootOf_content h.block kind a k) rfl rfl
  exact ⟨_, cleanup_eq ho hg.nodup, hg.erase_eq⟩

/-- Cleaning up a root with a node that hurts ends in a fault, or some input has lost an array of children. -/
theorem cleanup_spoiled (hf : h.Fresh) {F : Nat} (hs : Spoiled h.block h.next h1 depth a k F) (kind : SelectorKind)
    {p : Nat} {src : Node σ} (hmem : some p ∈ ps) (hp : h.block p = some (.nodes [src]))
    (hreach : Reaches h.block depth src F) :
    (∃ f, cleanup (depth + 1) (rootOf kind a k) h1 = .error f) ∨
      ∃ h2, cleanup (depth + 1) (rootOf kind a k) h1 = .ok ((), h2) ∧ Damages h.block depth ps h2 := by
  obtain ⟨L, hg, hhurts⟩ := hs.hurts (Grown.refl hf) (rootOf_content h.block kind a k) rfl rfl
  cases hrun : cleanup (depth + 1) (rootOf kind a k) h1 with
  | error f => exact .inl ⟨f, rfl⟩
  | ok r =>
    refine .inr ⟨r.2, rfl, fun x b hb => ?_, p, src, F, hmem, hp, hreach, cleanup_hurts hhurts hg.nodup hrun⟩
    rcases (cleanup_shrinks hrun).1 x with heq | hnone
    · exact .inl (heq.trans (hg.extends hb))
    · exact .inr hnone

/-! ## The children of a compound selector -/

/-- How the loop over the children ends: with all clones, with an error and the heap as it was, or in harm. -/
def ChildrenBuilt (grants : Nat → Bool) (depth : Nat) (h : Heap (Block σ)) (tries : Nat) (ps : List (Option Nat))
    (a count : Nat) (ts : List (Tree σ)) (inputs : List (Option (Tree σ))) :
    Except Fault (Except Err Unit × Heap (Block σ)) → Prop
  | .error _ => firstRefused grants tries (inputRequests inputs) = some true
  | .ok (.error _, h') =>
      (firstRefused grants tries (inputRequests inputs) ≠ some true ∧ h'.block = h.block) ∨
        (firstRefused grants tries (inputRequests inputs) = some true ∧ Damages h.block depth ps h')
  | .ok (.ok (), h') => firstRefused grants tries (inputRequests inputs) ≠ some true ∧
      ∃ ns Ls more, inputs = more.map some ∧ ns.length = count ∧ Family h.block h.next h' depth a ns 0 Ls (ts ++ more)

theorem ChildrenBuilt.cons {tries count : Nat} {t : Tree σ} {r : Except Fault (Except Err Unit × Heap (Block σ))}
    (hfirst : firstRefused grants tries (requests t) = none)
    (hr : ChildrenBuilt grants depth h (tries + (requests t).length) ps a count (ts ++ [t]) inputs r) :
    ChildrenBuilt grants depth h tries ps a count ts (some t :: inputs) r := by
  have hall : firstRefused grants tries (inputRequests (some t :: inputs)) =
      firstRefused grants (tries + (requests t).length) (inputRequests inputs) := by
    rw [inputRequests, firstRefused_append, hfirst, Option.none_or]
  match r, hr with
  | .error _, hr => exact hall.trans hr
  | .ok (.error _, h'), hr =>
    refine hr.imp (fun hr => ⟨?_, hr.2⟩) fun hr => ⟨hall.trans hr.1, hr.2⟩
    rw [hall]
    exact hr.1
  | .ok (.ok (), h'), ⟨hne, ns, Ls, more, hmore, hcount, hfamily⟩ =>
    refine ⟨?_, ns, Ls, t :: more, ?_, hcount, ?_⟩
    · rw [hall]
      exact hne
    · rw [hmore, List.map_cons]
    · rw [List.append_assoc] at hfamily
      exact hfamily

theorem buildChildren_spec (hfresh : h.Fresh) (kind : SelectorKind) {all : List (Option Nat)} {rest : List (Option Nat)}
    (hrest : rest ⊆ all) (hin : List.Forall₂ (DenotesChild h.block (depth + 1)) rest inputs)
    (hf : Family h.block h.next h1 (depth + 1) a front rest.length Ls ts) :
    ChildrenBuilt grants (depth + 1) h h1.tries all a (front.length + rest.length) ts inputs
      (buildChildren grants (depth + 1) (rootOf kind a (front.length + rest.length)) a front.length rest h1) := by
  induction rest generalizing front Ls ts h1 inputs with
  | nil =>
    cases hin
    refine ⟨?_, front, Ls, [], rfl, rfl, by rw [List.append_nil]; exact hf⟩
    rw [inputRequests, firstRefused]
    split <;> (intro h; cases h)
  | cons p rest ih =>
    cases hin with
    | cons hp hin =>
      rename_i input inputs
      cases p with
      | none =>
        cases input with
        | some t => exact hp.elim
        | none =>
          obtain ⟨h2, hclean, hblock⟩ := cleanup_root hfresh hf.toKept kind
          rw [buildChildren, run_bind hclean]
          exact .inl ⟨(fun h => by cases h), hblock⟩
      | some p =>
        cases input with
        | none => exact hp.elim
        | some t =>
          obtain ⟨src, hsrc, hreads⟩ := hp
          have hnode := hf.grown.extends hsrc
          obtain ⟨ok, n, h2, hrun, L, hg, hcloned⟩ := cloneSelector_spec grants hf.grown.fresh
            (hreads.mono fun _ _ => hf.grown.extends)
          have hlen : front.length + (some p :: rest).length = (front ++ [n]).length + rest.length := by
            rw [List.length_append, List.length_singleton, List.length_cons]
            omega
          rw [buildChildren, run_bind (readAt_eq (f := Block.nodes?) hnode rfl rfl), run_bind hrun]
          cases hfirst : firstRefused grants h1.tries (requests t) with
          | none =>
            rw [hfirst] at hcloned
            obtain ⟨rfl, htries, ho, hr⟩ := hcloned
            obtain ⟨h3, hwrite, htries3, hf3⟩ := hf.snoc hg ho hr
            have hloop := ih (fun q hq => hrest (List.mem_cons_of_mem _ hq)) hin hf3
            rw [htries3, htries, ← hlen, List.length_append, List.length_singleton] at hloop
            dsimp only
            rw [run_bind hwrite, if_pos rfl]
            exact hloop.cons hfirst
          | some flag =>
            rw [hfirst] at hcloned
            have hall : firstRefused grants h1.tries (inputRequests (some t :: inputs)) = some flag := by
              rw [inputRequests, firstRefused_append, hfirst, Option.some_or]
            cases flag with
            | false =>
              obtain ⟨rfl, ho⟩ := hcloned
              obtain ⟨h3, hwrite, hkept⟩ := hf.kept hg ho
              obtain ⟨h4, hclean, hblock⟩ := cleanup_root hfresh hkept kind
              dsimp only
              rw [run_bind hwrite, if_neg Bool.false_ne_true, List.length_cons, run_bind hclean]
              exact .inl ⟨(by rw [hall]; intro h; cases h), hblock⟩
            | true =>
              obtain ⟨rfl, F, hhurts, hreach⟩ := hcloned
              obtain ⟨h3, hwrite, hspoiled⟩ := hf.spoiled hg hhurts
              dsimp only
              rw [run_bind hwrite, if_neg Bool.false_ne_true, List.length_cons]
              rcases cleanup_spoiled hfresh hspoiled kind (hrest (List.mem_cons_self ..)) hsrc
                (hreach.of_extends (fun _ _ => hf.grown.extends) hreads) with ⟨f, herror⟩ | ⟨h4, hclean, hdamages⟩
              · rw [run_bind_error herror]
                exact hall
              · rw [run_bind hclean]
                exact .inr ⟨hall, hdamages⟩

/-! ## Builders -/

/-- What a builder does behind the array for the children: it clones them into it, and builds the result. -/
def buildOver (grants : Nat → Bool) (depth : Nat) (root : Node σ) (a : Nat) (ps : List (Option Nat)) :
    M σ (Except Err Nat) := do
  match ← buildChildren grants depth root a 0 ps with
  | .error e => pure (.error e)
  | .ok () => buildResult grants (depth + 1) root

theorem buildOver_spec (hfresh : h.Fresh) (kind : SelectorKind) (hne : ps ≠ [])
    (hin : List.Forall₂ (DenotesChild h.block (depth + 1)) ps inputs) (hg : Grown h.block h.next h1 [a])
    (ha : h1.block a = some (.nodes (List.replicate ps.length .zero))) :
    LeavesInputs (depth + 1) h ps inputs (.node (bareContent kind) (inputs.filterMap id))
        (buildOver grants (depth + 1) (rootOf kind a ps.length) a ps h1) ↔
      firstRefused grants h1.tries (inputRequests inputs) ≠ some true := by
  have hloop : ChildrenBuilt grants (depth + 1) h h1.tries ps a (0 + ps.length) [] inputs
      (buildChildren grants (depth + 1) (rootOf kind a (0 + ps.length)) a 0 ps h1) :=
    buildChildren_spec hfresh kind (List.Subset.refl ps) hin (Family.nil hg ha)
  rw [Nat.zero_add] at hloop
  rw [buildOver]
  cases hrun : buildChildren grants (depth + 1) (rootOf kind a ps.length) a 0 ps h1 with
  | error f =>
    rw [hrun] at hloop
    rw [run_bind_error hrun]
    exact ⟨False.elim, fun hne => hne hloop⟩
  | ok r =>
    obtain ⟨r, h2⟩ := r
    rw [hrun] at hloop
    rw [run_bind hrun]
    cases r with
    | error e =>
      rcases hloop with ⟨hfirst, hblock⟩ | ⟨hfirst, hdamages⟩
      · exact ⟨fun _ => hfirst, fun _ => leavesInputs_error hfresh hin _ e hblock⟩
      · exact ⟨fun hleaves => absurd hleaves.1 hdamages.not_denotes, fun hne => absurd hfirst hne⟩
    | ok u =>
      obtain ⟨hfirst, ns, Ls, more, rfl, hcount, hfamily⟩ := hloop
      refine ⟨fun _ => hfirst, fun _ => ?_⟩
      have hmore : (more.map some).filterMap id = more := by
        rw [List.filterMap_map]
        exact List.filterMap_some
      have hlen : ps.length = more.length := by rw [hin.length_eq, List.length_map]
      have hnil : more ≠ [] := fun hnil => hne (List.length_eq_zero_iff.mp (by rw [hlen, hnil]; rfl))
      obtain ⟨L, hgrown, ho⟩ := (hfamily.toKept).owns (Grown.refl hfresh)
        (rootOf_content h.block kind a (ns.length + 0)) rfl rfl
      rw [Nat.add_zero, hcount] at ho
      have hns := hfamily.nodes
      rw [List.replicate_zero, List.append_nil] at hns
      rw [hmore]
      refine buildResult_spec grants hin hfresh hgrown ho ⟨bare_reads _ _ _ _, hlen, ?_⟩
      rw [if_neg hnil]
      exact ⟨a, ns, rfl, hns, hfamily.reads⟩

theorem buildNot_eq (grants : Nat → Bool) (depth : Nat) (call : Call) (p : Nat) :
    buildNot (σ := σ) grants depth call (some p) = (match builderInit call with
      | .error e => pure (.error e)
      | .ok () => do
        match ← alloc grants (.nodes [(Node.zero : Node σ)]) with
        | none => refuse .noMemory "out of memory"
        | some a => buildOver grants depth (rootOf .not a 1) a [some p]) := by
  rw [buildNot]
  cases builderInit call with
  | error e => rfl
  | ok u =>
    dsimp only
    refine bind_congr fun q => ?_
    cases q with
    | none => rfl
    | some a =>
      simp only [buildOver, buildChildren, bind_assoc]
      refine bind_congr fun n => bind_congr fun r => ?_
      obtain ⟨ok, n⟩ := r
      dsimp only
      refine bind_congr fun _ => ?_
      cases ok with
      | true => rfl
      | false =>
        simp only [Bool.false_eq_true, if_false, bind_assoc]
        rfl

theorem builderInit_ok {call : Call} : (call.out && call.allocator) = true ↔ builderInit call = .ok () := by
  obtain ⟨out, allocator⟩ := call
  cases out <;> cases allocator <;> decide

theorem buildCompound_spec (hf : h.Fresh) (call : Call) (kind : SelectorKind) {children : ChildArray}
    (hin : List.Forall₂ (DenotesChild h.block (depth + 1)) children.pointers inputs) :
    LeavesInputs (depth + 1) h children.pointers inputs (compoundTree kind inputs)
        (buildCompound grants (depth + 1) call kind children h) ↔
      firstRefused grants h.tries (compoundRequests call kind inputs) ≠ some true := by
  have hfails : ∀ e, LeavesInputs (depth + 1) h children.pointers inputs (compoundTree kind inputs)
      (.ok (.error e, h)) := fun e => leavesInputs_error hf hin _ e rfl
  unfold buildCompound
  rw [compoundRequests]
  cases hcall : builderInit call with
  | error e =>
    have hno : ¬(call.out && call.allocator && (kind == .and || kind == .or)) = true := fun htrue => by
      rw [builderInit_ok.mp (Bool.and_eq_true_iff.mp htrue).1] at hcall
      cases hcall
    rw [if_neg hno]
    exact ⟨(fun _ h => by cases h), fun _ => hfails e⟩
  | ok u =>
    rw [builderInit_ok.mpr hcall, Bool.true_and]
    dsimp only
    by_cases hkind : kind ≠ .and ∧ kind ≠ .or
    · have hno : ¬(kind == .and || kind == .or) = true := by
        rw [Bool.or_eq_true, beq_iff_eq, beq_iff_eq, not_or]
        exact hkind
      rw [if_pos hkind, if_neg hno]
      exact ⟨(fun _ h => by cases h), fun _ => hfails _⟩
    · have hyes : (kind == .and || kind == .or) = true := by
        rw [Bool.or_eq_true, beq_iff_eq, beq_iff_eq, or_iff_not_and_not]
        exact hkind
      rw [if_neg hkind, if_pos hyes]
      have hempty : children.pointers = [] → inputs = [] := fun hnil => by
        rw [hnil] at hin
        exact List.forall₂_nil_left_iff.mp hin
      have hall : inputs = [] → LeavesInputs (depth + 1) h children.pointers inputs (compoundTree kind inputs)
          (buildResult grants (depth + 1 + 1) { (Node.zero : Node σ) with kind := .all } h) := fun hnil => by
        subst hnil
        refine buildResult_spec grants hin hf (Grown.refl hf) (owns_zero _ _) ⟨bare_reads _ .all none 0, rfl, ?_⟩
        rw [if_pos (by rfl)]
        rfl
      have hlast : firstRefused grants h.tries [false] ≠ some true := by
        rw [firstRefused]
        split <;> (intro h; cases h)
      cases children with
      | null count =>
        have hnil := hempty rfl
        rw [hnil, List.isEmpty_nil, if_pos rfl, ← hnil]
        cases count with
        | zero => exact ⟨fun _ => hlast, fun _ => hall hnil⟩
        | succ count => exact ⟨fun _ => hlast, fun _ => hfails _⟩
      | array ps =>
        cases ps with
        | nil =>
          have hnil := hempty rfl
          rw [hnil, List.isEmpty_nil, if_pos rfl, ← hnil]
          exact ⟨fun _ => hlast, fun _ => hall hnil⟩
        | cons p rest =>
          have hin' : List.Forall₂ (DenotesChild h.block (depth + 1)) (p :: rest) inputs := hin
          have hsome : inputs.isEmpty = false := by
            cases hin'
            rfl
          obtain ⟨q, h1, halloc, hasks, hg, hq⟩ := alloc_spec grants hf
            (Block.nodes (List.replicate (p :: rest).length (Node.zero : Node σ)))
          dsimp only
          rw [hsome, if_neg Bool.false_ne_true, run_bind halloc, firstRefused]
          cases q with
          | none =>
            have hgrant : ¬grants h.tries = true := fun hgrant => by cases hasks.granted.mpr (granted_one.mpr hgrant)
            rw [if_neg hgrant]
            refine ⟨(fun _ h => by cases h), fun _ => leavesInputs_error hf hin _ _ ?_⟩
            have herase := hg.erase_eq
            rw [Option.toList_none, erase_nil] at herase
            exact herase
          | some a =>
            rw [if_pos (granted_one.mp (hasks.granted.mp rfl)), ← hasks.tries rfl, compoundTree, hsome,
              if_neg Bool.false_ne_true]
            exact buildOver_spec hf kind (List.cons_ne_nil _ _) hin' hg (hq a rfl)

theorem buildNot_spec (hf : h.Fresh) (call : Call) {child : Option Nat} {input : Option (Tree σ)}
    (hin : DenotesChild h.block (depth + 1) child input) :
    LeavesInputs (depth + 1) h [child] [input] (notTree input) (buildNot grants (depth + 1) call child h) ↔
      firstRefused grants h.tries (notRequests call input) ≠ some true := by
  have hin' : List.Forall₂ (DenotesChild h.block (depth + 1)) [child] [input] := .cons hin .nil
  have hfails : ∀ e, LeavesInputs (depth + 1) h [child] [input] (notTree input) (.ok (.error e, h)) := fun e =>
    leavesInputs_error hf hin' _ e rfl
  cases child with
  | none =>
    cases input with
    | some t => exact hin.elim
    | none =>
      have hnone : firstRefused grants h.tries (notRequests (σ := σ) call none) = none := by
        rw [notRequests]
        split <;> rfl
      rw [hnone]
      exact ⟨(fun _ h => by cases h), fun _ => hfails _⟩
  | some p =>
    cases input with
    | none => exact hin.elim
    | some t =>
      rw [buildNot_eq, notRequests]
      cases hcall : builderInit call with
      | error e =>
        rw [if_neg fun htrue => by rw [builderInit_ok.mp htrue] at hcall; cases hcall]
        exact ⟨(fun _ h => by cases h), fun _ => hfails e⟩
      | ok u =>
        obtain ⟨q, h1, halloc, hasks, hg, hq⟩ := alloc_spec grants hf (Block.nodes [(Node.zero : Node σ)])
        rw [if_pos (builderInit_ok.mpr hcall)]
        dsimp only
        rw [run_bind halloc, firstRefused]
        cases q with
        | none =>
          have hgrant : ¬grants h.tries = true := fun hgrant => by cases hasks.granted.mpr (granted_one.mpr hgrant)
          rw [if_neg hgrant]
          refine ⟨(fun _ h => by cases h), fun _ => leavesInputs_error hf hin' _ _ ?_⟩
          have herase := hg.erase_eq
          rw [Option.toList_none, erase_nil] at herase
          exact herase
        | some a =>
          rw [if_pos (granted_one.mp (hasks.granted.mp rfl)), ← hasks.tries rfl]
          exact buildOver_spec hf .not (List.cons_ne_nil _ _) hin' hg (hq a rfl)

/-- **Composition leaves its inputs intact if and only if no refusal falls on a request that leaves something of the
source in a clone**: a request for the content of a node that has children, or for the array of at least two. This holds
for whatever depth the inputs fit in, so a fault for want of depth is none of the code's. -/
theorem inputs_left_intact (grants : Nat → Bool) (depth : Nat) (h : Heap (Block σ)) (hf : h.Fresh) (call : Call) :
    (∀ kind (children : ChildArray) (inputs : List (Option (Tree σ))),
      List.Forall₂ (DenotesChild h.block (depth + 1)) children.pointers inputs →
      (LeavesInputs (depth + 1) h children.pointers inputs (compoundTree kind inputs)
          (buildCompound grants (depth + 1) call kind children h) ↔
        firstRefused grants h.tries (compoundRequests call kind inputs) ≠ some true)) ∧
      ∀ child (input : Option (Tree σ)), DenotesChild h.block (depth + 1) child input →
        (LeavesInputs (depth + 1) h [child] [input] (notTree input) (buildNot grants (depth + 1) call child h) ↔
          firstRefused grants h.tries (notRequests call input) ≠ some true) :=
  ⟨fun kind _ _ hin => buildCompound_spec hf call kind hin, fun _ _ hin => buildNot_spec hf call hin⟩

/-- An `and` of two selectors that match everything, at 0, with its children at 1. -/
def pairHeap : Heap (Block Unit) where
  block
    | 0 => some (.nodes [rootOf .and 1 2])
    | 1 => some (.nodes [.zero, .zero])
    | _ => none
  next := 2
  tries := 0

def pairTree : Tree Unit := .node (bareContent .and) [.node (bareContent .all) [], .node (bareContent .all) []]

theorem pairHeap_fresh : pairHeap.Fresh := by
  intro a ha
  obtain ⟨b, rfl⟩ := Nat.exists_eq_add_of_le ha
  rw [show pairHeap.next = 2 from rfl, Nat.add_comm]
  rfl

theorem pairHeap_denotes : DenotesChild pairHeap.block 2 (some 0) (some pairTree) := by
  have hleaf : Reads pairHeap.block 1 Node.zero (.node (bareContent .all) []) :=
    ⟨bare_reads _ .all none 0, rfl, by rw [if_pos rfl]; rfl⟩
  refine ⟨rootOf .and 1 2, rfl, bare_reads _ _ _ _, rfl, ?_⟩
  rw [if_neg (List.cons_ne_nil _ _)]
  exact ⟨1, [.zero, .zero], rfl, rfl, .cons hleaf (.cons hleaf .nil)⟩

/-- The array of the two children is refused, and the clone is cleaned up as if it had one. -/
theorem children_null_cleaned :
    pairHeap.Fresh ∧ List.Forall₂ (DenotesChild pairHeap.block 2) (ChildArray.array [some 0]).pointers [some pairTree] ∧
      buildCompound (fun k => k != 1) 2 ⟨true, true⟩ .or (.array [some 0]) pairHeap = .error .null ∧
      ¬LeavesInputs 2 pairHeap (ChildArray.array [some 0]).pointers [some pairTree] (compoundTree .or [some pairTree])
        (buildCompound (fun k => k != 1) 2 ⟨true, true⟩ .or (.array [some 0]) pairHeap) := by
  have hrun : buildCompound (fun k => k != 1) 2 ⟨true, true⟩ .or (.array [some 0]) pairHeap = .error .null := rfl
  refine ⟨pairHeap_fresh, .cons pairHeap_denotes .nil, hrun, ?_⟩
  rw [hrun]
  exact id

theorem inputs_left_intact_pair :
    pairHeap.Fresh ∧ DenotesChild pairHeap.block 2 (some 0) (some pairTree) ∧
      firstRefused (fun k => k != 2) 0 (notRequests ⟨true, true⟩ (some pairTree)) = some false ∧
      LeavesInputs 2 pairHeap [some 0] [some pairTree] (notTree (some pairTree))
        (buildNot (fun k => k != 2) 2 ⟨true, true⟩ (some 0) pairHeap) := by
  have hfirst : firstRefused (fun k => k != 2) 0 (notRequests ⟨true, true⟩ (some pairTree)) = some false := by decide
  refine ⟨pairHeap_fresh, pairHeap_denotes, hfirst, ?_⟩
  refine ((inputs_left_intact (fun k => k != 2) 1 pairHeap pairHeap_fresh ⟨true, true⟩).2 (some 0) (some pairTree)
    pairHeap_denotes).mpr ?_
  rw [show pairHeap.tries = 0 from rfl, hfirst]
  decide

end Lql.Build
