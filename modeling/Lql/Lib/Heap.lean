/-!
# A heap whose allocator can refuse

Programs with a state that may fail, and among them programs on a heap: blocks at addresses that are given out once,
an allocator that grants or refuses each request as a schedule says, and a fault for every access to a block that is
not live.
-/

namespace Lib

/-! ## Programs with a state that may fail -/

section

variable {σ ε α β : Type}

theorem run_bind {x : StateT σ (Except ε) α} {f : α → StateT σ (Except ε) β} {s s' : σ} {a : α}
    (h : x s = .ok (a, s')) : (x >>= f) s = f a s' := by
  change (x s >>= fun p => f p.1 p.2) = _
  rw [h]
  rfl

theorem run_bind_error {x : StateT σ (Except ε) α} {f : α → StateT σ (Except ε) β} {s : σ} {e : ε} (h : x s = .error e) :
    (x >>= f) s = .error e := by
  change (x s >>= fun p => f p.1 p.2) = _
  rw [h]
  rfl

/-- What follows depends on how a program runs from the state at hand, and on nothing else. -/
theorem run_congr {x y : StateT σ (Except ε) α} {s : σ} (h : x s = y s) (f : α → StateT σ (Except ε) β) :
    (x >>= f) s = (y >>= f) s := by
  change (x s >>= fun p => f p.1 p.2) = (y s >>= fun p => f p.1 p.2)
  rw [h]

theorem run_bind_ok {x : StateT σ (Except ε) α} {f : α → StateT σ (Except ε) β} {s : σ} {r : β × σ} :
    (x >>= f) s = .ok r ↔ ∃ a s', x s = .ok (a, s') ∧ f a s' = .ok r := by
  constructor
  · intro h
    cases hx : x s with
    | error e =>
      have herr : (x >>= f) s = .error e := by
        change (x s >>= fun p => f p.1 p.2) = _
        rw [hx]
        rfl
      rw [herr] at h
      cases h
    | ok p => exact ⟨p.1, p.2, rfl, by rw [← h, run_bind hx]⟩
  · rintro ⟨a, s', hx, hf⟩
    rw [run_bind hx, hf]

theorem run_lift_ok {x : Except ε α} {s : σ} {r : α × σ} :
    (StateT.lift x : StateT σ (Except ε) α) s = .ok r ↔ x = .ok r.1 ∧ r.2 = s := by
  change (x >>= fun a => pure (a, s)) = .ok r ↔ _
  obtain ⟨a, s'⟩ := r
  cases x with
  | error e => exact ⟨nofun, fun h => nomatch h.1⟩
  | ok b =>
    constructor
    · intro h
      cases h
      exact ⟨rfl, rfl⟩
    · rintro ⟨h, rfl⟩
      cases h
      rfl

end

/-! ## Heaps -/

/-- Blocks at addresses, the first address that was never given out, and how many blocks were asked for. -/
structure Heap (β : Type) where
  block : Nat → Option β
  next : Nat
  tries : Nat

/-- What goes wrong where memory is not used as it should be. -/
inductive Fault where
  | dead
  | null
  | depth
  deriving DecidableEq, Repr

abbrev HeapM (β : Type) := StateT (Heap β) (Except Fault)

namespace Heap

variable {β : Type}

/-- Nothing is live that was never given out. -/
def Fresh (h : Heap β) : Prop := ∀ a, h.next ≤ a → h.block a = none

theorem Fresh.lt {h : Heap β} (hf : h.Fresh) {a : Nat} {b : β} (ha : h.block a = some b) : a < h.next := by
  refine Nat.lt_of_not_le fun hle => ?_
  rw [hf a hle] at ha
  cases ha

/-- A heap with a block at an address. -/
def put (B : Nat → Option β) (a : Nat) (b : β) : Nat → Option β := fun a' => if a' = a then some b else B a'

theorem put_self (B : Nat → Option β) (a : Nat) (b : β) : put B a b a = some b := if_pos rfl

theorem put_of_ne (B : Nat → Option β) {a a' : Nat} (b : β) (h : a' ≠ a) : put B a b a' = B a' := if_neg h

theorem put_put (B : Nat → Option β) (a : Nat) (b b' : β) : put (put B a b) a b' = put B a b' := by
  funext a'
  by_cases h : a' = a
  · rw [h, put_self, put_self]
  · rw [put_of_ne _ _ h, put_of_ne _ _ h, put_of_ne _ _ h]

/-- `malloc`, as the schedule of refusals says. -/
def alloc (grants : Nat → Bool) (b : β) : HeapM β (Option Nat) := fun h =>
  if grants h.tries then
    .ok (some h.next, { block := put h.block h.next b, next := h.next + 1, tries := h.tries + 1 })
  else .ok (none, { h with tries := h.tries + 1 })

def read (a : Nat) : HeapM β β := fun h =>
  match h.block a with
  | some b => .ok (b, h)
  | none => .error .dead

def write (a : Nat) (b : β) : HeapM β Unit := fun h =>
  match h.block a with
  | some _ => .ok ((), { h with block := put h.block a b })
  | none => .error .dead

/-- `free`; nothing happens at a null pointer. -/
def free : Option Nat → HeapM β Unit
  | none => pure ()
  | some a => fun h =>
    match h.block a with
    | some _ => .ok ((), { h with block := fun a' => if a' = a then none else h.block a' })
    | none => .error .dead

def readOr (first : β) : Option Nat → HeapM β β
  | none => pure first
  | some a => read a

/-- `realloc`: the block moves with what is in it, or stays where it was; a null pointer gets a first block. -/
def realloc (grants : Nat → Bool) (first : β) (p : Option Nat) : HeapM β (Option Nat) := do
  let b ← readOr first p
  match ← alloc grants b with
  | none => pure none
  | some a => do
    free p
    pure (some a)

def fault {α : Type} (f : Fault) : HeapM β α := fun _ => .error f

/-- A heap without the blocks of a list. -/
def erase (B : Nat → Option β) (L : List Nat) : Nat → Option β := fun a => if a ∈ L then none else B a

theorem erase_nil (B : Nat → Option β) : erase B [] = B := by
  funext a
  rw [erase, if_neg List.not_mem_nil]

theorem erase_of_mem {B : Nat → Option β} {L : List Nat} {a : Nat} (h : a ∈ L) : erase B L a = none := if_pos h

theorem erase_of_not_mem {B : Nat → Option β} {L : List Nat} {a : Nat} (h : a ∉ L) : erase B L a = B a := if_neg h

theorem erase_perm (B : Nat → Option β) {L L' : List Nat} (h : L.Perm L') : erase B L = erase B L' := by
  funext a
  by_cases ha : a ∈ L
  · rw [erase_of_mem ha, erase_of_mem (h.mem_iff.mp ha)]
  · rw [erase_of_not_mem ha, erase_of_not_mem fun h' => ha (h.mem_iff.mpr h')]

theorem erase_erase (B : Nat → Option β) (L L' : List Nat) : erase (erase B L) L' = erase B (L ++ L') := by
  funext a
  by_cases h' : a ∈ L'
  · rw [erase_of_mem h', erase_of_mem (List.mem_append_right L h')]
  · by_cases h : a ∈ L
    · rw [erase_of_not_mem h', erase_of_mem h, erase_of_mem (List.mem_append_left L' h)]
    · rw [erase_of_not_mem h', erase_of_not_mem h, erase_of_not_mem (by
        rw [List.mem_append]
        exact fun hmem => hmem.elim h h')]

/-- What is freed may be written before. -/
theorem erase_put (B : Nat → Option β) {L : List Nat} {a : Nat} (b : β) (h : a ∈ L) :
    erase (put B a b) L = erase B L := by
  funext a'
  by_cases h' : a' ∈ L
  · rw [erase_of_mem h', erase_of_mem h']
  · rw [erase_of_not_mem h', erase_of_not_mem h', put_of_ne _ _ fun heq => h' (by rw [heq]; exact h)]

theorem put_erase (B : Nat → Option β) {L : List Nat} {a : Nat} (b : β) (h : a ∉ L) :
    erase (put B a b) L = put (erase B L) a b := by
  funext a'
  by_cases ha : a' = a
  · rw [ha, erase_of_not_mem h, put_self, put_self]
  · by_cases h' : a' ∈ L
    · rw [erase_of_mem h', put_of_ne _ _ ha, erase_of_mem h']
    · rw [erase_of_not_mem h', put_of_ne _ _ ha, put_of_ne _ _ ha, erase_of_not_mem h']

theorem free_eq {h : Heap β} {p : Option Nat} (hp : ∀ a ∈ p, (h.block a).isSome) :
    free p h = .ok ((), { h with block := erase h.block p.toList }) := by
  cases p with
  | none => rw [Option.toList_none, erase_nil]; rfl
  | some a =>
    obtain ⟨b, hb⟩ := Option.isSome_iff_exists.mp (hp a rfl)
    have hblock : (fun a' => if a' = a then none else h.block a') = erase h.block (some a).toList := by
      funext a'
      by_cases ha : a' = a
      · rw [if_pos ha, erase_of_mem (by rw [ha]; exact List.mem_singleton.mpr rfl)]
      · rw [if_neg ha, erase_of_not_mem (by rw [Option.toList_some, List.mem_singleton]; exact ha)]
    rw [free]
    dsimp only
    rw [hb, hblock]

theorem filterMap_cons_toList (p : Option Nat) (rest : List (Option Nat)) :
    (p :: rest).filterMap id = p.toList ++ rest.filterMap id := by
  cases p <;> rfl

/-- `free` of several pointers, in order. -/
def freeAll : List (Option Nat) → HeapM β Unit
  | [] => pure ()
  | p :: rest => do
    free p
    freeAll rest

theorem freeAll_append (ps qs : List (Option Nat)) :
    freeAll (β := β) (ps ++ qs) = (freeAll ps >>= fun _ => freeAll qs) := by
  induction ps with
  | nil => rfl
  | cons p rest ih => rw [List.cons_append, freeAll, freeAll, bind_assoc, ih]

/-- Pointers to different live blocks can be freed in any order. -/
theorem freeAll_eq {h : Heap β} {ps : List (Option Nat)} (hlive : ∀ a ∈ ps.filterMap id, (h.block a).isSome)
    (hnodup : (ps.filterMap id).Nodup) :
    freeAll ps h = .ok ((), { h with block := erase h.block (ps.filterMap id) }) := by
  induction ps generalizing h with
  | nil => rw [List.filterMap_nil, erase_nil]; rfl
  | cons p rest ih =>
    rw [filterMap_cons_toList] at hlive hnodup ⊢
    obtain ⟨-, hrest, hapart⟩ := List.nodup_append.mp hnodup
    rw [freeAll, run_bind (free_eq fun a ha => hlive a (List.mem_append_left _ (Option.mem_toList.mpr ha))),
      ih (fun a ha => ?_) hrest, erase_erase]
    have hne : a ∉ p.toList := fun hp => hapart a hp a ha rfl
    dsimp only
    rw [erase_of_not_mem hne]
    exact hlive a (List.mem_append_right _ ha)

/-! ## What programs that only free leave behind -/

/-- Every block is as it was, or gone. -/
def Shrinks (B B' : Nat → Option β) : Prop := ∀ a, B' a = B a ∨ B' a = none

theorem Shrinks.refl (B : Nat → Option β) : Shrinks B B := fun _ => .inl rfl

theorem Shrinks.trans {B B' B'' : Nat → Option β} (h : Shrinks B B') (h' : Shrinks B' B'') : Shrinks B B'' := by
  intro a
  rcases h' a with h' | h'
  · rw [h']
    exact h a
  · exact .inr h'

theorem free_shrinks {p : Option Nat} {h : Heap β} {r : Unit × Heap β} (hr : free p h = .ok r) :
    Shrinks h.block r.2.block ∧ ∀ a ∈ p, r.2.block a = none := by
  cases p with
  | none =>
    cases hr
    exact ⟨.refl _, nofun⟩
  | some a =>
    rw [free] at hr
    dsimp only at hr
    split at hr
    · cases hr
      refine ⟨fun a' => ?_, fun a' ha' => ?_⟩
      · by_cases h : a' = a
        · exact .inr (if_pos h)
        · exact .inl (if_neg h)
      · rw [Option.mem_some_iff.mp ha']
        exact if_pos rfl
    · cases hr

theorem freeAll_shrinks {ps : List (Option Nat)} {h : Heap β} {r : Unit × Heap β} (hr : freeAll ps h = .ok r) :
    Shrinks h.block r.2.block := by
  induction ps generalizing h with
  | nil =>
    cases hr
    exact .refl _
  | cons p rest ih =>
    obtain ⟨_, h', h1, h2⟩ := run_bind_ok.mp hr
    exact (free_shrinks h1).1.trans (ih h2)

/-! ## What programs that allocate leave behind -/

/-- Old blocks, those of `B` below `base`, are as they were, and `L` lists the blocks that are new. -/
structure Grown (B : Nat → Option β) (base : Nat) (h : Heap β) (L : List Nat) : Prop where
  bound : ∀ a, base ≤ a → B a = none
  fresh : h.Fresh
  next : base ≤ h.next
  old : ∀ a, a < base → h.block a = B a
  nodup : L.Nodup
  live : ∀ a, a ∈ L ↔ base ≤ a ∧ (h.block a).isSome

theorem Grown.refl {h : Heap β} (hf : h.Fresh) : Grown h.block h.next h [] where
  bound := hf
  fresh := hf
  next := Nat.le_refl _
  old := fun _ _ => rfl
  nodup := .nil
  live := fun a => by
    refine ⟨nofun, fun ⟨hle, hlive⟩ => ?_⟩
    rw [hf a hle] at hlive
    cases hlive

variable {B : Nat → Option β} {base : Nat} {h : Heap β} {L R : List Nat}

theorem Grown.perm (hg : Grown B base h L) (hp : L.Perm R) : Grown B base h R :=
  { hg with nodup := hp.nodup_iff.mp hg.nodup, live := fun a => hp.mem_iff.symm.trans (hg.live a) }

theorem Grown.lt_next (hg : Grown B base h L) {a : Nat} (ha : a ∈ L) : a < h.next := by
  obtain ⟨b, hb⟩ := Option.isSome_iff_exists.mp ((hg.live a).mp ha).2
  exact hg.fresh.lt hb

/-- How many blocks were asked for does not matter. -/
theorem Grown.of_eq (hg : Grown B base h L) {h' : Heap β} (hb : h'.block = h.block) (hn : h'.next = h.next) :
    Grown B base h' L where
  bound := hg.bound
  fresh := fun a ha => by rw [hb]; exact hg.fresh a (by rw [← hn]; exact ha)
  next := by rw [hn]; exact hg.next
  old := fun a ha => by rw [hb]; exact hg.old a ha
  nodup := hg.nodup
  live := fun a => by rw [hb]; exact hg.live a

/-- What grew from a heap that grew. -/
theorem Grown.trans (hg : Grown B base h L) {h' : Heap β} (hg' : Grown h.block h.next h' R) :
    Grown B base h' (R ++ L) where
  bound := hg.bound
  fresh := hg'.fresh
  next := Nat.le_trans hg.next hg'.next
  old := fun a ha => (hg'.old a (Nat.lt_of_lt_of_le ha hg.next)).trans (hg.old a ha)
  nodup := by
    refine List.nodup_append.mpr ⟨hg'.nodup, hg.nodup, fun a ha b hb heq => ?_⟩
    have hle := ((hg'.live a).mp ha).1
    have hlt := hg.lt_next hb
    omega
  live := fun a => by
    rw [List.mem_append, hg.live, hg'.live]
    rcases Nat.lt_or_ge a h.next with hlt | hge
    · rw [hg'.old a hlt]
      refine ⟨fun hmem => hmem.elim (fun hr => absurd hr.1 (by omega)) id, .inr⟩
    · refine ⟨fun hmem => hmem.elim (fun hr => ⟨Nat.le_trans hg.next hge, hr.2⟩) fun hl => ?_, fun hl => .inl ⟨hge, hl.2⟩⟩
      rw [hg.fresh a hge] at hl
      cases hl.2

theorem Grown.extends (hg : Grown B base h L) {a : Nat} {b : β} (hb : B a = some b) : h.block a = some b := by
  rcases Nat.lt_or_ge a base with hlt | hge
  · rw [hg.old a hlt, hb]
  · rw [hg.bound a hge] at hb
    cases hb

/-- Without the blocks that are new, the heap is what it was. -/
theorem Grown.erase_eq (hg : Grown B base h L) : erase h.block L = B := by
  funext a
  by_cases ha : a ∈ L
  · rw [erase_of_mem ha, hg.bound a ((hg.live a).mp ha).1]
  · rw [erase_of_not_mem ha]
    rcases Nat.lt_or_ge a base with hlt | hge
    · exact hg.old a hlt
    · rw [hg.bound a hge]
      rw [hg.live, not_and, Bool.not_eq_true, Option.isSome_eq_false_iff, Option.isNone_iff_eq_none] at ha
      exact ha hge

theorem Grown.alloc (hg : Grown B base h L) (b : β) (tries : Nat) :
    Grown B base { block := put h.block h.next b, next := h.next + 1, tries := tries } (h.next :: L) where
  bound := hg.bound
  fresh := fun a ha => by
    have hlt : h.next < a := ha
    exact (put_of_ne _ _ (by omega)).trans (hg.fresh a (Nat.le_of_lt hlt))
  next := Nat.le_succ_of_le hg.next
  old := fun a ha => by
    have hle := hg.next
    exact (put_of_ne _ _ (by omega)).trans (hg.old a ha)
  nodup := List.nodup_cons.mpr ⟨fun hmem => Nat.lt_irrefl _ (hg.lt_next hmem), hg.nodup⟩
  live := fun a => by
    rw [List.mem_cons]
    by_cases ha : a = h.next
    · subst ha
      exact ⟨fun _ => ⟨hg.next, congrArg Option.isSome (put_self _ _ _)⟩, fun _ => .inl rfl⟩
    · dsimp only
      rw [put_of_ne _ _ ha, hg.live]
      exact ⟨fun hmem => hmem.elim (absurd · ha) id, .inr⟩

theorem Grown.write (hg : Grown B base h L) {a : Nat} (ha : a ∈ L) (b : β) :
    Grown B base { h with block := put h.block a b } L where
  bound := hg.bound
  fresh := fun a' ha' => by
    have hlt := hg.lt_next ha
    have hle : h.next ≤ a' := ha'
    exact (put_of_ne _ _ (by omega)).trans (hg.fresh a' ha')
  next := hg.next
  old := fun a' ha' => by
    have hle := ((hg.live a).mp ha).1
    exact (put_of_ne _ _ (by omega)).trans (hg.old a' ha')
  nodup := hg.nodup
  live := fun a' => by
    by_cases heq : a' = a
    · subst heq
      exact ⟨fun _ => ⟨((hg.live _).mp ha).1, congrArg Option.isSome (put_self _ _ _)⟩, fun _ => ha⟩
    · dsimp only
      rw [put_of_ne _ _ heq]
      exact hg.live a'

theorem Grown.free (hg : Grown B base h L) {F : List Nat} (hp : L.Perm (F ++ R)) :
    Grown B base { h with block := erase h.block F } R where
  bound := hg.bound
  fresh := fun a ha => by
    by_cases hF : a ∈ F
    · exact erase_of_mem hF
    · exact (erase_of_not_mem hF).trans (hg.fresh a ha)
  next := hg.next
  old := fun a ha => by
    refine (erase_of_not_mem fun hF => ?_).trans (hg.old a ha)
    have hle := ((hg.live a).mp (hp.mem_iff.mpr (List.mem_append_left _ hF))).1
    omega
  nodup := (List.nodup_append.mp (hp.nodup_iff.mp hg.nodup)).2.1
  live := fun a => by
    obtain ⟨-, -, hapart⟩ := List.nodup_append.mp (hp.nodup_iff.mp hg.nodup)
    dsimp only
    by_cases hF : a ∈ F
    · rw [erase_of_mem hF]
      exact ⟨fun hR => absurd rfl (hapart a hF a hR), fun hl => nomatch hl.2⟩
    · rw [erase_of_not_mem hF, ← hg.live, hp.mem_iff, List.mem_append]
      exact ⟨.inr, fun hmem => hmem.elim (absurd · hF) id⟩

/-! ## Requests -/

/-- `n` requests in a row are granted. -/
def Granted (grants : Nat → Bool) (k n : Nat) : Prop := ∀ i, i < n → grants (k + i) = true

theorem granted_zero (grants : Nat → Bool) (k : Nat) : Granted grants k 0 := fun i hi => absurd hi (Nat.not_lt_zero i)

theorem granted_one {grants : Nat → Bool} {k : Nat} : Granted grants k 1 ↔ grants k = true := by
  constructor
  · intro h
    exact h 0 Nat.one_pos
  · intro h i hi
    rw [Nat.lt_one_iff.mp hi]
    exact h

theorem granted_add {grants : Nat → Bool} {k m n : Nat} :
    Granted grants k (m + n) ↔ Granted grants k m ∧ Granted grants (k + m) n := by
  constructor
  · intro h
    refine ⟨fun i hi => h i (by omega), fun i hi => ?_⟩
    rw [Nat.add_assoc]
    exact h (m + i) (by omega)
  · rintro ⟨hm, hn⟩ i hi
    rcases Nat.lt_or_ge i m with hlt | hge
    · exact hm i hlt
    · have hi' := hn (i - m) (by omega)
      rwa [Nat.add_assoc, Nat.add_sub_cancel' hge] at hi'

/-- A program asks for `n` blocks and goes on to its end if and only if it gets them. -/
structure Asks (grants : Nat → Bool) (n : Nat) (h h' : Heap β) (ok : Bool) : Prop where
  granted : ok = true ↔ Granted grants h.tries n
  tries : ok = true → h'.tries = h.tries + n

theorem Asks.nothing (grants : Nat → Bool) (h : Heap β) : Asks grants 0 h h true where
  granted := ⟨fun _ => granted_zero _ _, fun _ => rfl⟩
  tries := fun _ => rfl

theorem Asks.then {grants : Nat → Bool} {m n : Nat} {h h' h'' : Heap β} {ok : Bool} (hm : Asks grants m h h' true)
    (hn : Asks grants n h' h'' ok) : Asks grants (m + n) h h'' ok where
  granted := by
    rw [granted_add, hn.granted, hm.tries rfl]
    exact ⟨fun hok => ⟨hm.granted.mp rfl, hok⟩, And.right⟩
  tries := fun hok => by rw [hn.tries hok, hm.tries rfl, Nat.add_assoc]

theorem Asks.stop {grants : Nat → Bool} {m : Nat} (n : Nat) {h h' h'' : Heap β} (hm : Asks grants m h h' false) :
    Asks grants (m + n) h h'' false where
  granted := ⟨nofun, fun hall => hm.granted.mpr (granted_add.mp hall).1⟩
  tries := nofun

/-- The mark of the first request that is refused, if one is. -/
def firstRefused (grants : Nat → Bool) : Nat → List Bool → Option Bool
  | _, [] => none
  | k, flag :: rest => if grants k then firstRefused grants (k + 1) rest else some flag

theorem firstRefused_append (grants : Nat → Bool) (k : Nat) (l l' : List Bool) :
    firstRefused grants k (l ++ l') = (firstRefused grants k l).or (firstRefused grants (k + l.length) l') := by
  induction l generalizing k with
  | nil => rfl
  | cons flag l ih =>
    rw [List.cons_append, firstRefused, firstRefused]
    by_cases hgrant : grants k = true
    · rw [if_pos hgrant, if_pos hgrant, ih, List.length_cons, Nat.add_assoc, Nat.add_comm 1]
    · rw [if_neg hgrant, if_neg hgrant]
      rfl

theorem firstRefused_replicate {grants : Nat → Bool} {k n : Nat} (flag : Bool) :
    firstRefused grants k (List.replicate n flag) = none ∧ Granted grants k n ∨
      firstRefused grants k (List.replicate n flag) = some flag ∧ ¬Granted grants k n := by
  induction n generalizing k with
  | zero => exact .inl ⟨rfl, granted_zero _ _⟩
  | succ n ih =>
    have hsplit : Granted grants k (n + 1) ↔ grants k = true ∧ Granted grants (k + 1) n := by
      rw [Nat.add_comm, granted_add, granted_one]
    rw [List.replicate_succ, firstRefused, hsplit]
    by_cases hgrant : grants k = true
    · rw [if_pos hgrant]
      rcases ih (k := k + 1) with ⟨hnone, hall⟩ | ⟨hsome, hnot⟩
      · exact .inl ⟨hnone, hgrant, hall⟩
      · exact .inr ⟨hsome, fun hall => hnot hall.2⟩
    · rw [if_neg hgrant]
      exact .inr ⟨rfl, fun hall => hgrant hall.1⟩

/-- A program that asks for what a list of requests says, all of them alike. -/
theorem Asks.firstRefused {grants : Nat → Bool} {n : Nat} {h h' : Heap β} {ok : Bool} (hasks : Asks grants n h h' ok) (flag : Bool) :
    firstRefused grants h.tries (List.replicate n flag) = if ok then none else some flag := by
  rcases firstRefused_replicate (k := h.tries) flag with ⟨hnone, hall⟩ | ⟨hsome, hnot⟩
  · rw [hnone, if_pos (hasks.granted.mpr hall)]
  · rw [hsome, if_neg fun hok => hnot (hasks.granted.mp hok)]

/-- `malloc` gives a block, or leaves everything as it is. -/
theorem alloc_spec (grants : Nat → Bool) (hf : h.Fresh) (b : β) :
    ∃ p h', alloc grants b h = .ok (p, h') ∧ Asks grants 1 h h' p.isSome ∧ Grown h.block h.next h' p.toList ∧
      ∀ a ∈ p, h'.block a = some b := by
  rw [Heap.alloc]
  by_cases hgrant : grants h.tries = true
  · rw [if_pos hgrant]
    exact ⟨_, _, rfl, ⟨⟨fun _ => granted_one.mpr hgrant, fun _ => rfl⟩, fun _ => rfl⟩, (Grown.refl hf).alloc b _,
      fun a ha => by rw [← Option.mem_some_iff.mp ha]; exact put_self _ _ _⟩
  · rw [if_neg hgrant]
    exact ⟨_, _, rfl, ⟨⟨nofun, fun hall => absurd (granted_one.mp hall) hgrant⟩, nofun⟩, (Grown.refl hf).of_eq rfl rfl,
      nofun⟩

/-- `realloc` moves a block that is new, or leaves everything as it is. -/
theorem realloc_spec (grants : Nat → Bool) {first x : β} {p : Option Nat} (hg : Grown B base h L)
    (hL : L.Perm (p.toList ++ R)) (hx : ∀ a ∈ p, h.block a = some x) (hfirst : p = none → x = first) :
    ∃ q h', realloc grants first p h = .ok (q, h') ∧ Asks grants 1 h h' q.isSome ∧
      Grown B base h' ((q.or p).toList ++ R) ∧ (∀ a ∈ R, h'.block a = h.block a) ∧
      ∀ a ∈ q.or p, h'.block a = some x := by
  have hread : readOr first p h = .ok (x, h) := by
    cases p with
    | none => rw [hfirst rfl]; rfl
    | some a => rw [readOr, Heap.read, hx a rfl]
  rw [realloc, run_bind hread]
  obtain ⟨q, h', halloc, hasks, hgrown, hq⟩ := alloc_spec grants hg.fresh x
  rw [run_bind halloc]
  have hg' := hg.trans hgrown
  cases q with
  | none =>
    refine ⟨none, h', rfl, hasks, hg'.perm hL, fun a ha => ?_, fun a ha => ?_⟩
    · exact hgrown.old a (hg.lt_next (hL.mem_iff.mpr (List.mem_append_right _ ha)))
    · rw [hgrown.old a (hg.lt_next (hL.mem_iff.mpr (List.mem_append_left _ (Option.mem_toList.mpr ha))))]
      exact hx a ha
  | some b =>
    have hb := (hgrown.live b).mp (List.mem_singleton.mpr rfl)
    have hold : ∀ a ∈ L, a ≠ b := fun a ha heq => by
      have hlt := hg.lt_next ha
      omega
    have hfree := free_eq (h := h') (p := p) fun a ha => by
      rw [hgrown.old a (hg.lt_next (hL.mem_iff.mpr (List.mem_append_left _ (Option.mem_toList.mpr ha)))), hx a ha]
      rfl
    obtain ⟨-, -, hapart⟩ := List.nodup_append.mp (hL.nodup_iff.mp hg.nodup)
    have hperm : ((some b).toList ++ L).Perm (p.toList ++ ((some b).toList ++ R)) :=
      (hL.append_left _).trans (List.perm_append_comm_assoc _ _ _)
    refine ⟨some b, { h' with block := erase h'.block p.toList }, ?_, ⟨hasks.granted, hasks.tries⟩, hg'.free hperm, fun a ha => ?_, fun a ha => ?_⟩
    · dsimp only
      rw [run_bind hfree]
      rfl
    · refine (erase_of_not_mem fun hp => hapart a hp a ha rfl).trans ?_
      exact hgrown.old a (hg.lt_next (hL.mem_iff.mpr (List.mem_append_right _ ha)))
    · rw [Option.some_or, Option.mem_some_iff] at ha
      subst ha
      refine (erase_of_not_mem fun hp => ?_).trans (hq _ rfl)
      exact hold _ (hL.mem_iff.mpr (List.mem_append_left _ hp)) rfl

end Heap

end Lib
