import Mathlib.Algebra.GroupWithZero.Nat
import Mathlib.Data.Nat.Basic

/-!
# The per-instance allocator

`lql_new` gives every receiver a bookkeeping object (`lql_impl`) taken from the upstream allocator,
and hands out blocks that carry a header with their size and their owner. The heap is explicit:
which bookkeeping objects exist, which blocks are live, and which block holds a receiver. The upstream
allocator is not modelled: what it answers is an argument of the operation that calls it.

A `size_t` computation that would wrap and a look at memory that has been given back are faults of
the model. The source would carry on in both cases; that no run gets there is a result about it.
-/

namespace Lql.Alloc

/-- `LQL_INSTANCE_MEMORY_LIMIT_BYTES`. -/
def memoryLimit : Nat := 8 * 1024 * 1024

/-- The sizes a C implementation settles: the largest `size_t`, and the `sizeof` of
`lql_quota_header`, `lql_impl` and `lql`. -/
structure Layout where
  sizeMax : Nat
  header : Nat
  impl : Nat
  ctx : Nat
  limit_le : memoryLimit ≤ sizeMax
  header_pos : 0 < header
  header_le : header ≤ sizeMax
  impl_le : impl ≤ memoryLimit
  ctx_le : ctx ≤ sizeMax

/-- An address the upstream allocator hands out. -/
abbrev Addr := Nat

/-- `lql_impl`, without the function pointers. -/
structure Impl where
  liveBytes : Nat
  quotaAllocationCount : Nat
  receiverDestroyed : Bool
deriving DecidableEq, Repr

/-- A live block: where its `lql_quota_header` is, and what the header says. -/
structure Block where
  addr : Addr
  size : Nat
  owner : Addr
deriving DecidableEq, Repr

/-- What can go wrong that the source does not look for. -/
inductive Fault where
  | wrap
  | dangling
deriving DecidableEq, Repr

/-- The heap, as far as the allocator sees it. `receiver p` is the `impl` field of the receiver that
lives in the block at `p`. The two counters record how often a bookkeeping object was taken from the
upstream allocator at an address, and how often it was given back. -/
structure World where
  impls : Addr → Option Impl
  blocks : List Block
  receiver : Addr → Option Addr
  created : Addr → Nat
  released : Addr → Nat

/-- Nothing allocated yet. -/
def World.init : World := ⟨fun _ => none, [], fun _ => none, fun _ => 0, fun _ => 0⟩

/-! ## `size_t` -/

section Size

variable (L : Layout)

def Layout.add (a b : Nat) : Except Fault Nat :=
  if a + b ≤ L.sizeMax then .ok (a + b) else .error .wrap

def Layout.mul (a b : Nat) : Except Fault Nat :=
  if a * b ≤ L.sizeMax then .ok (a * b) else .error .wrap

/-- Subtraction wraps below zero, whatever the width. -/
def sub (a b : Nat) : Except Fault Nat :=
  if b ≤ a then .ok (a - b) else .error .wrap

end Size

/-! ## Memory -/

def World.impl (w : World) (i : Addr) : Except Fault Impl :=
  match w.impls i with
  | some m => .ok m
  | none => .error .dangling

def World.header (w : World) (p : Addr) : Except Fault Block :=
  match w.blocks.find? (·.addr == p) with
  | some b => .ok b
  | none => .error .dangling

def World.setImpl (w : World) (i : Addr) (m : Impl) : World :=
  { w with impls := fun j => if j = i then some m else w.impls j }

/-- The upstream allocator takes a bookkeeping object back. -/
def World.release (w : World) (i : Addr) : World :=
  { w with impls := fun j => if j = i then none else w.impls j,
           released := fun j => if j = i then w.released j + 1 else w.released j }

/-- A bookkeeping object as `lql_new` leaves it. -/
def World.create (w : World) (i : Addr) (m : Impl) : World :=
  { w.setImpl i m with created := fun j => if j = i then w.created j + 1 else w.created j }

def World.setReceiver (w : World) (p : Addr) (i : Option Addr) : World :=
  { w with receiver := fun q => if q = p then i else w.receiver q }

/-! ## The allocator -/

section Operations

variable (L : Layout)

/-- `lql_allocator_instance_release_if_idle`. -/
def releaseIfIdle (i : Addr) (w : World) : Except Fault World := do
  let m ← w.impl i
  if m.receiverDestroyed && m.quotaAllocationCount == 0 then
    return w.release i
  return w

/-- `quota_alloc`; `self` is the `impl` of the allocator it is called through. -/
def quotaAlloc (self : Option Addr) (size : Nat) (upstream : Option Addr) (w : World) :
    Except Fault (Option Addr × World) := do
  let some i := self | return (none, w)
  let room ← sub L.sizeMax L.header
  if room < size then
    return (none, w)
  let m ← w.impl i
  let charge ← L.add L.header size
  let left ← sub memoryLimit m.liveBytes
  if left < charge then
    return (none, w)
  let some p := upstream | return (none, w)
  let live ← L.add m.liveBytes charge
  let count ← L.add m.quotaAllocationCount 1
  let w := w.setImpl i { m with liveBytes := live, quotaAllocationCount := count }
  return (some p, { w with blocks := ⟨p, size, i⟩ :: w.blocks })

/-- `quota_calloc`. -/
def quotaCalloc (self : Option Addr) (count size : Nat) (upstream : Option Addr) (w : World) :
    Except Fault (Option Addr × World) := do
  if count ≠ 0 ∧ L.sizeMax / count < size then
    return (none, w)
  let total ← L.mul count size
  quotaAlloc L self total upstream w

/-- `quota_strdup`; of the text only its `strlen` matters. -/
def quotaStrdup (self : Option Addr) (text : Option Nat) (upstream : Option Addr) (w : World) :
    Except Fault (Option Addr × World) := do
  let some len := text | return (none, w)
  if len = L.sizeMax then
    return (none, w)
  let size ← L.add len 1
  quotaAlloc L self size upstream w

/-- The part `quota_destroy` and a `quota_realloc` to size zero share: the owner is discharged, the
block goes back, and the owner goes with it when this was the last thing that kept it. -/
def discharge (i : Addr) (b : Block) (w : World) : Except Fault World := do
  let m ← w.impl i
  let charge ← L.add L.header b.size
  let live ← sub m.liveBytes charge
  let count ← sub m.quotaAllocationCount 1
  let w := w.setImpl i { m with liveBytes := live, quotaAllocationCount := count }
  releaseIfIdle i { w with blocks := w.blocks.erase b }

/-- `quota_destroy`. -/
def quotaDestroy (self ptr : Option Addr) (w : World) : Except Fault World := do
  let some _ := self | return w
  let some p := ptr | return w
  let b ← w.header p
  discharge L b.owner b w

/-- The end of `quota_realloc`, once the new size is known to fit: the upstream allocator is asked and
the owner charged with the difference. -/
def resize (i : Addr) (b : Block) (m : Impl) (size oldCharge newCharge : Nat)
    (upstream : Option Addr) (w : World) : Except Fault (Option Addr × World) := do
  let some q := upstream | return (none, w)
  let rest ← sub m.liveBytes oldCharge
  let live ← L.add rest newCharge
  let w := w.setImpl i { m with liveBytes := live }
  return (some q, { w with blocks := ⟨q, size, i⟩ :: w.blocks.erase b })

/-- `quota_realloc`. -/
def quotaRealloc (self ptr : Option Addr) (size : Nat) (upstream : Option Addr) (w : World) :
    Except Fault (Option Addr × World) := do
  let some p := ptr | quotaAlloc L self size upstream w
  let some i := self | return (none, w)
  let room ← sub L.sizeMax L.header
  if room < size then
    return (none, w)
  let b ← w.header p
  if b.owner ≠ i then
    return (none, w)
  let m ← w.impl i
  let oldCharge ← L.add L.header b.size
  let newCharge ← L.add L.header size
  if size = 0 then
    return (none, ← discharge L i b w)
  if oldCharge < newCharge then
    let more ← sub newCharge oldCharge
    let left ← sub memoryLimit m.liveBytes
    if left < more then
      return (none, w)
  resize L i b m size oldCharge newCharge upstream w

/-- `lql_new`: the two allocations it makes, and the bookkeeping object given back when the second
one fails. -/
def lqlNew (upstream upstreamCtx : Option Addr) (w : World) :
    Except Fault (Option Addr × World) := do
  let some i := upstream | return (none, w)
  let w := w.create i ⟨L.impl, 0, false⟩
  let (ctx, w) ← quotaCalloc L (some i) 1 L.ctx upstreamCtx w
  match ctx with
  | none => return (none, w.release i)
  | some p => return (some p, w.setReceiver p (some i))

/-- `receiver_destroy`. -/
def receiverDestroy (self : Option Addr) (w : World) : Except Fault World := do
  let some p := self | return w
  let some i := w.receiver p | throw .dangling
  let w ← quotaDestroy L (some i) (some p) w
  let m ← w.impl i
  let w := w.setReceiver p none
  releaseIfIdle i (w.setImpl i { m with receiverDestroyed := true })

end Operations

/-! ## Runs -/

/-- What a client can ask for, with what the upstream allocator would answer. -/
inductive Action where
  | new (upstream upstreamCtx : Option Addr)
  | alloc (self : Option Addr) (size : Nat) (upstream : Option Addr)
  | calloc (self : Option Addr) (count size : Nat) (upstream : Option Addr)
  | realloc (self ptr : Option Addr) (size : Nat) (upstream : Option Addr)
  | strdup (self : Option Addr) (text : Option Nat) (upstream : Option Addr)
  | destroy (self ptr : Option Addr)
  | receiverDestroy (self : Option Addr)
deriving DecidableEq, Repr

def step (L : Layout) : Action → World → Except Fault (Option Addr × World)
  | .new u v, w => lqlNew L u v w
  | .alloc self size u, w => quotaAlloc L self size u w
  | .calloc self count size u, w => quotaCalloc L self count size u w
  | .realloc self ptr size u, w => quotaRealloc L self ptr size u w
  | .strdup self text u, w => quotaStrdup L self text u w
  | .destroy self ptr, w => (none, ·) <$> quotaDestroy L self ptr w
  | .receiverDestroy self, w => (none, ·) <$> Alloc.receiverDestroy L self w

/-- The upstream allocator hands out memory that is not in use. -/
def World.Fresh (w : World) (p : Addr) : Prop :=
  w.impls p = none ∧ ∀ b ∈ w.blocks, b.addr ≠ p

/-- A live block that is not a receiver: what a client may give back or resize. -/
def World.Client (w : World) (p : Addr) : Prop :=
  (∃ b ∈ w.blocks, b.addr = p) ∧ w.receiver p = none

/-- The calls a client can make: sizes are `size_t` values, an allocator is one whose bookkeeping
object is still there, a pointer is one that has not been given back, and the upstream allocator
answers `NULL` or fresh memory (a `realloc` may also answer the same place). -/
def Admissible (L : Layout) (w : World) : Action → Prop
  | .new u v => (∀ i ∈ u, w.Fresh i) ∧ ∀ p ∈ v, w.Fresh p ∧ p ∉ u
  | .alloc self size u =>
      (∀ i ∈ self, w.impls i ≠ none) ∧ size ≤ L.sizeMax ∧ ∀ p ∈ u, w.Fresh p
  | .calloc self count size u =>
      (∀ i ∈ self, w.impls i ≠ none) ∧ count ≤ L.sizeMax ∧ size ≤ L.sizeMax ∧
        ∀ p ∈ u, w.Fresh p
  | .realloc self ptr size u =>
      (∀ i ∈ self, w.impls i ≠ none) ∧ (∀ p ∈ ptr, w.Client p) ∧ size ≤ L.sizeMax ∧
        ∀ q ∈ u, w.Fresh q ∨ q ∈ ptr
  | .strdup self text u =>
      (∀ i ∈ self, w.impls i ≠ none) ∧ (∀ len ∈ text, len ≤ L.sizeMax) ∧ ∀ p ∈ u, w.Fresh p
  | .destroy self ptr => (∀ i ∈ self, w.impls i ≠ none) ∧ ∀ p ∈ ptr, w.Client p
  | .receiverDestroy self => ∀ p ∈ self, w.receiver p ≠ none

/-- The worlds the empty one leads to. -/
inductive Reachable (L : Layout) : World → Prop
  | init : Reachable L World.init
  | step {w w' : World} {a : Action} {r : Option Addr} : Reachable L w → Admissible L w a →
      step L a w = .ok (r, w') → Reachable L w'

/-- An allocation, or a reallocation to a size that is not zero. -/
def Action.allocates : Action → Bool
  | .alloc _ _ _ => true
  | .calloc _ _ _ _ => true
  | .realloc _ ptr size _ => ptr.isNone || size != 0
  | .strdup _ _ _ => true
  | _ => false

end Lql.Alloc
