import Mathlib.Algebra.BigOperators.Group.List.Basic
import Mathlib.Data.List.Nodup
import Mathlib.Data.List.Perm.Basic
import Lql.Alloc.Quota

/-!
# The ledger of every receiver balances

What the allocator keeps per receiver is two counters and a flag. The books say what the counters
count, over the blocks that are live; the homes say which receivers are still there. Both are kept by
every call, and from the two together it follows when a bookkeeping object goes: it is there exactly
as long as its receiver or one of its blocks is.
-/

namespace Lql.Alloc

variable {L : Layout} {w w' : World}

/-! ## What is counted -/

/-- The blocks that belong to `i`. -/
def owned (bs : List Block) (i : Addr) : List Block := bs.filter (·.owner == i)

/-- What the live blocks of `i` are charged with. -/
def Layout.charged (L : Layout) (bs : List Block) (i : Addr) : Nat :=
  ((owned bs i).map (L.header + ·.size)).sum

theorem owned_cons_self (b : Block) (bs : List Block) :
    owned (b :: bs) b.owner = b :: owned bs b.owner := by
  simp [owned]

theorem owned_cons_other {b : Block} {i : Addr} (h : b.owner ≠ i) (bs : List Block) :
    owned (b :: bs) i = owned bs i := by
  simp [owned, h]

theorem owned_perm {bs cs : List Block} (h : bs.Perm cs) (i : Addr) :
    (owned bs i).Perm (owned cs i) := h.filter _

theorem charged_perm {bs cs : List Block} (h : bs.Perm cs) (i : Addr) :
    L.charged bs i = L.charged cs i :=
  ((owned_perm h i).map _).sum_eq

theorem charged_cons_self (b : Block) (bs : List Block) :
    L.charged (b :: bs) b.owner = L.header + b.size + L.charged bs b.owner := by
  simp [Layout.charged, owned_cons_self]

theorem charged_cons_other {b : Block} {i : Addr} (h : b.owner ≠ i) (bs : List Block) :
    L.charged (b :: bs) i = L.charged bs i := by
  simp [Layout.charged, owned_cons_other h]

theorem owned_nil_of_none {bs : List Block} {i : Addr} (h : ∀ b ∈ bs, b.owner ≠ i) :
    owned bs i = [] := by
  simpa [owned, List.filter_eq_nil_iff] using h

/-! ## The books -/

/-- **The books.** Every block has an owner that is still there, the counters of every owner are
those of its blocks, and every bookkeeping object was given back once for every time it was taken,
but for the one that is there. -/
structure Books (L : Layout) (w : World) : Prop where
  nodup : (w.blocks.map (·.addr)).Nodup
  owner : ∀ b ∈ w.blocks, w.impls b.owner ≠ none
  bytes : ∀ i m, w.impls i = some m → m.liveBytes = L.impl + L.charged w.blocks i
  limit : ∀ i m, w.impls i = some m → m.liveBytes ≤ memoryLimit
  count : ∀ i m, w.impls i = some m → m.quotaAllocationCount = (owned w.blocks i).length
  once : ∀ i, w.created i = w.released i + if w.impls i = none then 0 else 1

/-- A block is entered. -/
def World.push (L : Layout) (w : World) (i : Addr) (m : Impl) (b : Block) : World :=
  { w.setImpl i { m with liveBytes := m.liveBytes + (L.header + b.size),
                         quotaAllocationCount := m.quotaAllocationCount + 1 } with
    blocks := b :: w.blocks }

/-- A block is struck out. -/
def World.pop (L : Layout) (w : World) (i : Addr) (m : Impl) (b : Block) : World :=
  { w.setImpl i { m with liveBytes := m.liveBytes - (L.header + b.size),
                         quotaAllocationCount := m.quotaAllocationCount - 1 } with
    blocks := w.blocks.erase b }

@[simp] theorem setImpl_self (w : World) (i : Addr) (m : Impl) :
    (w.setImpl i m).impls i = some m := by
  simp [World.setImpl]

theorem setImpl_other {i j : Addr} (h : j ≠ i) (w : World) (m : Impl) :
    (w.setImpl i m).impls j = w.impls j := by
  simp [World.setImpl, h]

theorem setImpl_none {i j : Addr} {m m' : Impl} (h : w.impls i = some m) :
    (w.setImpl i m').impls j = none ↔ w.impls j = none := by
  by_cases hj : j = i
  · subst hj; simp [h]
  · rw [setImpl_other hj]

theorem Books.push {i : Addr} {m : Impl} {b : Block} (hB : Books L w)
    (hm : w.impls i = some m) (hb : b.owner = i) (hf : ∀ c ∈ w.blocks, c.addr ≠ b.addr)
    (hroom : m.liveBytes + (L.header + b.size) ≤ memoryLimit) : Books L (w.push L i m b) := by
  subst hb
  refine ⟨?_, ?_, ?_, ?_, ?_, ?_⟩
  · refine List.nodup_cons.mpr ⟨?_, hB.nodup⟩
    intro hin
    obtain ⟨c, hc, he⟩ := List.mem_map.mp hin
    exact hf c hc he
  · intro c hc
    rw [Ne, World.push, setImpl_none hm]
    rcases List.mem_cons.mp hc with rfl | hc
    · simp [hm]
    · exact hB.owner c hc
  all_goals intro j
  · intro n hn
    by_cases hj : j = b.owner
    · subst hj
      obtain rfl : _ = n := Option.some.inj ((setImpl_self w _ _).symm.trans hn)
      show m.liveBytes + _ = L.impl + L.charged (b :: w.blocks) b.owner
      rw [charged_cons_self, hB.bytes _ _ hm]
      omega
    · rw [World.push, setImpl_other hj] at hn
      show n.liveBytes = L.impl + L.charged (b :: w.blocks) j
      rw [charged_cons_other (Ne.symm hj), hB.bytes j n hn]
  · intro n hn
    by_cases hj : j = b.owner
    · subst hj
      obtain rfl : _ = n := Option.some.inj ((setImpl_self w _ _).symm.trans hn)
      exact hroom
    · rw [World.push, setImpl_other hj] at hn
      exact hB.limit j n hn
  · intro n hn
    by_cases hj : j = b.owner
    · subst hj
      obtain rfl : _ = n := Option.some.inj ((setImpl_self w _ _).symm.trans hn)
      show m.quotaAllocationCount + 1 = (owned (b :: w.blocks) b.owner).length
      rw [owned_cons_self, List.length_cons, hB.count _ _ hm]
    · rw [World.push, setImpl_other hj] at hn
      show n.quotaAllocationCount = (owned (b :: w.blocks) j).length
      rw [owned_cons_other (Ne.symm hj), hB.count j n hn]
  · simp only [World.push, setImpl_none hm]
    exact hB.once j

/-- The owner of a live block has been charged for it. -/
theorem Books.holds {m : Impl} {b : Block} (hB : Books L w) (hb : b ∈ w.blocks)
    (hm : w.impls b.owner = some m) :
    L.header + b.size + L.charged (w.blocks.erase b) b.owner = L.charged w.blocks b.owner ∧
      m.quotaAllocationCount = (owned (w.blocks.erase b) b.owner).length + 1 := by
  have hp := List.perm_cons_erase hb
  refine ⟨?_, ?_⟩
  · rw [charged_perm hp, charged_cons_self]
  · rw [hB.count _ _ hm, (owned_perm hp _).length_eq, owned_cons_self, List.length_cons]

theorem Books.pop {i : Addr} {m : Impl} {b : Block} (hB : Books L w) (hb : b ∈ w.blocks)
    (hi : b.owner = i) (hm : w.impls i = some m) : Books L (w.pop L i m b) := by
  subst hi
  obtain ⟨hbytes, hcount⟩ := hB.holds hb hm
  have hp := List.perm_cons_erase hb
  refine ⟨?_, ?_, ?_, ?_, ?_, ?_⟩
  · exact hB.nodup.sublist (List.erase_sublist.map _)
  · intro c hc
    rw [Ne, World.pop, setImpl_none hm]
    exact hB.owner c (List.mem_of_mem_erase hc)
  all_goals intro j
  · intro n hn
    by_cases hj : j = b.owner
    · subst hj
      obtain rfl : _ = n := Option.some.inj ((setImpl_self w _ _).symm.trans hn)
      show m.liveBytes - _ = L.impl + L.charged (w.blocks.erase b) b.owner
      have := hB.bytes _ _ hm
      omega
    · rw [World.pop, setImpl_other hj] at hn
      show n.liveBytes = L.impl + L.charged (w.blocks.erase b) j
      rw [hB.bytes j n hn, charged_perm hp, charged_cons_other (Ne.symm hj)]
  · intro n hn
    by_cases hj : j = b.owner
    · subst hj
      obtain rfl : _ = n := Option.some.inj ((setImpl_self w _ _).symm.trans hn)
      show m.liveBytes - _ ≤ memoryLimit
      have := hB.limit _ _ hm
      omega
    · rw [World.pop, setImpl_other hj] at hn
      exact hB.limit j n hn
  · intro n hn
    by_cases hj : j = b.owner
    · subst hj
      obtain rfl : _ = n := Option.some.inj ((setImpl_self w _ _).symm.trans hn)
      show m.quotaAllocationCount - 1 = (owned (w.blocks.erase b) b.owner).length
      omega
    · rw [World.pop, setImpl_other hj] at hn
      show n.quotaAllocationCount = (owned (w.blocks.erase b) j).length
      rw [hB.count j n hn, (owned_perm hp _).length_eq, owned_cons_other (Ne.symm hj)]
  · simp only [World.pop, setImpl_none hm]
    exact hB.once j

/-- A bookkeeping object without blocks can go. -/
theorem Books.release {i : Addr} {m : Impl} (hB : Books L w) (hm : w.impls i = some m)
    (hz : m.quotaAllocationCount = 0) : Books L (w.release i) := by
  have hnone : ∀ b ∈ w.blocks, b.owner ≠ i := by
    intro b hb hi
    have hlen := hB.count i m hm
    have hmem : b ∈ owned w.blocks i := List.mem_filter.mpr ⟨hb, by simp [hi]⟩
    rw [hz] at hlen
    exact absurd (List.eq_nil_of_length_eq_zero hlen.symm) (List.ne_nil_of_mem hmem)
  have himpl : ∀ {j n}, (w.release i).impls j = some n → w.impls j = some n := by
    intro j n hn
    simp only [World.release] at hn
    split at hn
    · cases hn
    · exact hn
  refine ⟨hB.nodup, ?_, fun j n hn => hB.bytes j n (himpl hn),
    fun j n hn => hB.limit j n (himpl hn), fun j n hn => hB.count j n (himpl hn), ?_⟩
  · intro b hb
    simp only [World.release, if_neg (hnone b hb)]
    exact hB.owner b hb
  · intro j
    have honce := hB.once j
    by_cases hj : j = i
    · subst hj
      simp only [hm] at honce
      simpa [World.release] using honce
    · simpa [World.release, hj] using honce

/-- The flag does not enter the books, nor does where receivers live. -/
theorem Books.retire {i p : Addr} {m : Impl} (hB : Books L w) (hm : w.impls i = some m) :
    Books L ((w.setReceiver p none).setImpl i { m with receiverDestroyed := true }) := by
  have himpl : ∀ {j n}, ((w.setReceiver p none).setImpl i
      { m with receiverDestroyed := true }).impls j = some n →
      ∃ n', w.impls j = some n' ∧ n'.liveBytes = n.liveBytes ∧
        n'.quotaAllocationCount = n.quotaAllocationCount := by
    intro j n hn
    by_cases hj : j = i
    · subst hj
      obtain rfl : _ = n := Option.some.inj ((setImpl_self _ _ _).symm.trans hn)
      exact ⟨m, hm, rfl, rfl⟩
    · exact ⟨n, (setImpl_other hj _ _).symm.trans hn, rfl, rfl⟩
  have hnone : ∀ j, ((w.setReceiver p none).setImpl i
      { m with receiverDestroyed := true }).impls j = none ↔ w.impls j = none :=
    fun j => setImpl_none (w := w.setReceiver p none) hm
  refine ⟨hB.nodup, fun b hb => (hnone _).not.mpr (hB.owner b hb), ?_, ?_, ?_, ?_⟩
  · intro j n hn
    obtain ⟨n', hn', hb, -⟩ := himpl hn
    exact hb ▸ hB.bytes j n' hn'
  · intro j n hn
    obtain ⟨n', hn', hb, -⟩ := himpl hn
    exact hb ▸ hB.limit j n' hn'
  · intro j n hn
    obtain ⟨n', hn', -, hc⟩ := himpl hn
    exact hc ▸ hB.count j n' hn'
  · intro j
    simp only [hnone]
    exact hB.once j

/-- A new bookkeeping object comes with an empty ledger. -/
theorem Books.create {i : Addr} (hB : Books L w) (hi : w.impls i = none) :
    Books L (w.create i ⟨L.impl, 0, false⟩) := by
  have hnone : ∀ b ∈ w.blocks, b.owner ≠ i := fun b hb he => hB.owner b hb (he ▸ hi)
  have hnil : owned w.blocks i = [] := owned_nil_of_none hnone
  refine ⟨hB.nodup, ?_, ?_, ?_, ?_, ?_⟩
  · intro b hb
    simp only [World.create, setImpl_other (hnone b hb)]
    exact hB.owner b hb
  all_goals intro j
  · intro n hn
    by_cases hj : j = i
    · subst hj
      obtain rfl : _ = n := Option.some.inj ((setImpl_self w _ _).symm.trans hn)
      simp [World.create, World.setImpl, Layout.charged, hnil]
    · simp only [World.create, setImpl_other hj] at hn
      exact hB.bytes j n hn
  · intro n hn
    by_cases hj : j = i
    · subst hj
      obtain rfl : _ = n := Option.some.inj ((setImpl_self w _ _).symm.trans hn)
      exact L.impl_le
    · simp only [World.create, setImpl_other hj] at hn
      exact hB.limit j n hn
  · intro n hn
    by_cases hj : j = i
    · subst hj
      obtain rfl : _ = n := Option.some.inj ((setImpl_self w _ _).symm.trans hn)
      simp [World.create, World.setImpl, hnil]
    · simp only [World.create, setImpl_other hj] at hn
      exact hB.count j n hn
  · have honce := hB.once j
    by_cases hj : j = i
    · subst hj
      simp only [hi] at honce
      simpa [World.create, World.setImpl] using honce
    · simpa [World.create, World.setImpl, hj] using honce

/-! ## The receivers -/

/-- **The homes.** A receiver lives in a block of its own bookkeeping object, which knows that it
does, and in no other; an object that is there without its receiver still has blocks. -/
structure Homes (w : World) : Prop where
  block : ∀ p i, w.receiver p = some i → ∃ b ∈ w.blocks, b.addr = p ∧ b.owner = i
  alive : ∀ p i m, w.receiver p = some i → w.impls i = some m → m.receiverDestroyed = false
  flag : ∀ i m, w.impls i = some m → m.receiverDestroyed = false → ∃ p, w.receiver p = some i
  unique : ∀ p q i, w.receiver p = some i → w.receiver q = some i → p = q
  busy : ∀ i m, w.impls i = some m → m.receiverDestroyed = true → m.quotaAllocationCount ≠ 0

/-- Nothing that decides about receivers changes when the counters of one object do. -/
theorem Homes.setImpl {i : Addr} {m m' : Impl} {bs : List Block} (hH : Homes w)
    (hm : w.impls i = some m) (hsame : m'.receiverDestroyed = m.receiverDestroyed)
    (hblocks : ∀ p j, w.receiver p = some j → ∃ b ∈ bs, b.addr = p ∧ b.owner = j)
    (hbusy : m'.receiverDestroyed = true → m'.quotaAllocationCount ≠ 0) :
    Homes { w.setImpl i m' with blocks := bs } := by
  have himpl : ∀ {j n}, (w.setImpl i m').impls j = some n →
      ∃ n', w.impls j = some n' ∧ n'.receiverDestroyed = n.receiverDestroyed := by
    intro j n hn
    by_cases hj : j = i
    · subst hj
      obtain rfl : m' = n := Option.some.inj ((setImpl_self w _ _).symm.trans hn)
      exact ⟨m, hm, hsame.symm⟩
    · exact ⟨n, (setImpl_other hj w m').symm.trans hn, rfl⟩
  refine ⟨hblocks, ?_, ?_, hH.unique, ?_⟩
  · intro p j n hp hn
    obtain ⟨n', hn', he⟩ := himpl hn
    exact he ▸ hH.alive p j n' hp hn'
  · intro j n hn hd
    obtain ⟨n', hn', he⟩ := himpl hn
    exact hH.flag j n' hn' (he.trans hd)
  · intro j n hn hd
    by_cases hj : j = i
    · subst hj
      obtain rfl : m' = n := Option.some.inj ((setImpl_self w _ _).symm.trans hn)
      exact hbusy hd
    · exact hH.busy j n ((setImpl_other hj w m').symm.trans hn) hd

theorem Homes.push {i : Addr} {m : Impl} {b : Block} (hH : Homes w) (hm : w.impls i = some m) :
    Homes (w.push L i m b) := by
  refine hH.setImpl hm rfl (fun p j hp => ?_) (fun _ => Nat.succ_ne_zero _)
  obtain ⟨c, hc, h⟩ := hH.block p j hp
  exact ⟨c, List.mem_cons_of_mem _ hc, h⟩

/-- One object loses its receiver, or has lost it before: the others do not notice. -/
theorem Homes.without {i : Addr} (hH : Homes w)
    (hreceiver : ∀ p j, w'.receiver p = some j ↔ w.receiver p = some j ∧ j ≠ i)
    (hother : ∀ j, j ≠ i → w'.impls j = w.impls j)
    (hself : ∀ m, w'.impls i = some m → m.receiverDestroyed = true ∧ m.quotaAllocationCount ≠ 0)
    (hblocks : ∀ b ∈ w.blocks, b.owner ≠ i → b ∈ w'.blocks) : Homes w' := by
  refine ⟨?_, ?_, ?_, ?_, ?_⟩
  · intro p j hp
    obtain ⟨hp, hj⟩ := (hreceiver p j).mp hp
    obtain ⟨b, hb, hbp, hbj⟩ := hH.block p j hp
    exact ⟨b, hblocks b hb (hbj ▸ hj), hbp, hbj⟩
  · intro p j m hp hm
    obtain ⟨hp, hj⟩ := (hreceiver p j).mp hp
    exact hH.alive p j m hp (hother j hj ▸ hm)
  · intro j m hm hd
    have hj : j ≠ i := by
      rintro rfl
      rw [(hself m hm).1] at hd
      cases hd
    obtain ⟨p, hp⟩ := hH.flag j m (hother j hj ▸ hm) hd
    exact ⟨p, (hreceiver p j).mpr ⟨hp, hj⟩⟩
  · intro p q j hp hq
    exact hH.unique p q j ((hreceiver p j).mp hp).1 ((hreceiver q j).mp hq).1
  · intro j m hm hd
    by_cases hj : j = i
    · subst hj
      exact (hself m hm).2
    · exact hH.busy j m (hother j hj ▸ hm) hd

/-- A new object gets its receiver. -/
theorem Homes.settle {i p : Addr} {m : Impl} (hH : Homes w) (hno : ∀ q, w.receiver q ≠ some i)
    (hfree : w.receiver p = none)
    (hreceiver : ∀ q j, w'.receiver q = some j ↔ (q = p ∧ j = i) ∨ (q ≠ p ∧ w.receiver q = some j))
    (hother : ∀ j, j ≠ i → w'.impls j = w.impls j) (hblocks : ∀ b ∈ w.blocks, b ∈ w'.blocks)
    (hm : w'.impls i = some m) (halive : m.receiverDestroyed = false)
    (hhome : ∃ b ∈ w'.blocks, b.addr = p ∧ b.owner = i) : Homes w' := by
  have hcases : ∀ {q j}, w'.receiver q = some j → (q = p ∧ j = i) ∨
      (q ≠ p ∧ w.receiver q = some j ∧ j ≠ i) := by
    intro q j hq
    refine ((hreceiver q j).mp hq).imp id fun hq => ⟨hq.1, hq.2, ?_⟩
    rintro rfl
    exact hno q hq.2
  have hself : ∀ n, w'.impls i = some n → n = m := fun n hn => Option.some.inj (hn.symm.trans hm)
  refine ⟨?_, ?_, ?_, ?_, ?_⟩
  · intro q j hq
    rcases hcases hq with ⟨rfl, rfl⟩ | ⟨-, hq, -⟩
    · exact hhome
    · obtain ⟨b, hb, hbq⟩ := hH.block q j hq
      exact ⟨b, hblocks b hb, hbq⟩
  · intro q j n hq hn
    rcases hcases hq with ⟨rfl, rfl⟩ | ⟨-, hq, hj⟩
    · rw [hself n hn]
      exact halive
    · exact hH.alive q j n hq (hother j hj ▸ hn)
  · intro j n hn hd
    by_cases hj : j = i
    · exact ⟨p, (hreceiver p j).mpr (.inl ⟨rfl, hj⟩)⟩
    · obtain ⟨q, hq⟩ := hH.flag j n (hother j hj ▸ hn) hd
      refine ⟨q, (hreceiver q j).mpr (.inr ⟨?_, hq⟩)⟩
      rintro rfl
      rw [hfree] at hq
      cases hq
  · intro q r j hq hr
    rcases hcases hq with ⟨rfl, rfl⟩ | ⟨-, hq, hj⟩
    · rcases hcases hr with ⟨rfl, -⟩ | ⟨-, -, hj⟩
      · rfl
      · exact absurd rfl hj
    · rcases hcases hr with ⟨-, hi⟩ | ⟨-, hr, -⟩
      · exact absurd hi hj
      · exact hH.unique q r j hq hr
  · intro j n hn hd
    by_cases hj : j = i
    · subst hj
      rw [hself n hn, halive] at hd
      cases hd
    · exact hH.busy j n (hother j hj ▸ hn) hd

/-! ## One call at a time -/

/-- **What holds between two calls.** -/
structure Ledger (L : Layout) (w : World) : Prop where
  books : Books L w
  homes : Homes w

theorem ok_bind {α β : Type} (a : α) (f : α → Except Fault β) : (Except.ok a >>= f) = f a := rfl

theorem sub_ok {a b : Nat} (h : b ≤ a) : sub a b = .ok (a - b) := if_pos h

theorem Layout.add_ok {a b : Nat} (h : a + b ≤ L.sizeMax) : L.add a b = .ok (a + b) := if_pos h

theorem Layout.mul_ok {a b : Nat} (h : a * b ≤ L.sizeMax) : L.mul a b = .ok (a * b) := if_pos h

theorem impl_ok {i : Addr} {m : Impl} (h : w.impls i = some m) : w.impl i = .ok m := by
  rw [World.impl, h]

theorem header_ok {p : Addr} {b : Block} (hB : Books L w) (hb : b ∈ w.blocks) (hp : b.addr = p) :
    w.header p = .ok b := by
  cases hf : w.blocks.find? (·.addr == p) with
  | none =>
    have := List.find?_eq_none.mp hf b hb
    simp [hp] at this
  | some c =>
    have hc := List.mem_of_find?_eq_some hf
    have hcp : c.addr = p := by simpa using List.find?_some hf
    have : c = b := List.inj_on_of_nodup_map hB.nodup hc hb (hcp.trans hp.symm)
    rw [World.header, hf, this]

/-- A block costs at least its header, so a ledger has fewer of them than bytes. -/
theorem owned_length_le (bs : List Block) (i : Addr) :
    (owned bs i).length ≤ L.charged bs i := by
  rw [Layout.charged]
  induction owned bs i with
  | nil => simp
  | cons b bs ih =>
    have := L.header_pos
    simp only [List.length_cons, List.map_cons, List.sum_cons]
    omega

/-- What `quota_alloc` does: nothing, or one block more for an owner with room for it. -/
theorem quotaAlloc_cases {self : Option Addr} (hB : Books L w) (size : Nat) (u : Option Addr)
    (hself : ∀ i ∈ self, w.impls i ≠ none) :
    quotaAlloc L self size u w = .ok (none, w) ∨
      ∃ i m p, self = some i ∧ u = some p ∧ w.impls i = some m ∧
        m.liveBytes + (L.header + size) ≤ memoryLimit ∧
        quotaAlloc L self size u w = .ok (some p, w.push L i m ⟨p, size, i⟩) := by
  cases self with
  | none => exact .inl rfl
  | some i =>
    obtain ⟨m, hm⟩ := Option.ne_none_iff_exists'.mp (hself i rfl)
    have hlimit := hB.limit i m hm
    have hmax := L.limit_le
    have hhead := L.header_le
    have hcount : m.quotaAllocationCount ≤ m.liveBytes := by
      have := owned_length_le (L := L) w.blocks i
      rw [hB.count i m hm, hB.bytes i m hm]
      omega
    simp only [quotaAlloc, sub_ok hhead, impl_ok hm, ok_bind, sub_ok hlimit]
    by_cases hsize : L.sizeMax - L.header < size
    · exact .inl (by rw [if_pos hsize]; rfl)
    rw [if_neg hsize, Layout.add_ok (by omega), ok_bind]
    by_cases hroom : memoryLimit - m.liveBytes < L.header + size
    · exact .inl (by rw [if_pos hroom]; rfl)
    rw [if_neg hroom]
    cases u with
    | none => exact .inl rfl
    | some p =>
      have hlive : m.liveBytes + (L.header + size) ≤ memoryLimit := by omega
      have hnext : m.quotaAllocationCount + 1 ≤ memoryLimit := by
        have := L.header_pos
        omega
      refine .inr ⟨i, m, p, rfl, rfl, hm, hlive, ?_⟩
      simp only [Layout.add_ok (hlive.trans hmax), Layout.add_ok (hnext.trans hmax), ok_bind]
      rfl

/-- Striking a block out, as `quota_destroy` does it. -/
theorem discharge_eq {b : Block} {i : Addr} {m : Impl} (hB : Books L w) (hb : b ∈ w.blocks)
    (hi : b.owner = i) (hm : w.impls i = some m) :
    discharge L i b w = .ok (if m.receiverDestroyed && m.quotaAllocationCount - 1 == 0
      then (w.pop L i m b).release i else w.pop L i m b) := by
  subst hi
  obtain ⟨hbytes, hcount⟩ := hB.holds hb hm
  have hlive := hB.bytes _ _ hm
  have hlimit := hB.limit _ _ hm
  have hmax := L.limit_le
  simp only [discharge, impl_ok hm, ok_bind]
  rw [Layout.add_ok (by omega), ok_bind, sub_ok (by omega), ok_bind, sub_ok (by omega), ok_bind]
  have hpop : (w.pop L b.owner m b).impl b.owner = .ok _ := impl_ok (setImpl_self w b.owner _)
  show releaseIfIdle b.owner (w.pop L b.owner m b) = _
  rw [releaseIfIdle, hpop, ok_bind]
  by_cases hidle : (m.receiverDestroyed && m.quotaAllocationCount - 1 == 0) = true
  · rw [if_pos hidle, if_pos hidle]
    rfl
  · rw [if_neg hidle, if_neg hidle]
    rfl

theorem Ledger.discharge {b : Block} {i : Addr} (h : Ledger L w) (hb : b ∈ w.blocks)
    (hi : b.owner = i) (hr : w.receiver b.addr = none) :
    ∃ w', Alloc.discharge L i b w = .ok w' ∧ Ledger L w' ∧ w'.created = w.created := by
  obtain ⟨m, hm⟩ := Option.ne_none_iff_exists'.mp (hi ▸ h.books.owner b hb)
  have hpop := h.books.pop hb hi hm
  have hpm : (w.pop L i m b).impls i = some _ := setImpl_self w i _
  refine ⟨_, discharge_eq h.books hb hi hm, ?_, ?_⟩
  swap
  · split <;> rfl
  cases hd : m.receiverDestroyed with
  | false =>
    refine ⟨hpop, h.homes.setImpl hm rfl ?_ (fun hf => ?_)⟩
    · intro p j hp
      obtain ⟨c, hc, hcp, hcj⟩ := h.homes.block p j hp
      refine ⟨c, (List.mem_erase_of_ne ?_).mpr hc, hcp, hcj⟩
      rintro rfl
      rw [hcp, hp] at hr
      cases hr
    · exact absurd (hf.symm.trans hd) (by decide)
  | true =>
    -- the receiver went before: only the blocks of `i` are concerned
    have hgone : ∀ p j, w.receiver p = some j ↔ w.receiver p = some j ∧ j ≠ i := by
      intro p j
      refine ⟨fun hp => ⟨hp, ?_⟩, And.left⟩
      rintro rfl
      rw [h.homes.alive p j m hp hm] at hd
      cases hd
    have herase : ∀ c ∈ w.blocks, c.owner ≠ i → c ∈ w.blocks.erase b := by
      intro c hc hci
      refine (List.mem_erase_of_ne ?_).mpr hc
      rintro rfl
      exact hci hi
    rw [Bool.true_and]
    by_cases hz : (m.quotaAllocationCount - 1 == 0) = true
    · rw [if_pos hz]
      refine ⟨hpop.release hpm (by simpa using hz), h.homes.without hgone ?_ ?_ herase⟩
      · intro j hj
        simp [World.release, World.pop, World.setImpl, hj]
      · intro n hn
        simp [World.release] at hn
    · rw [if_neg hz]
      refine ⟨hpop, h.homes.without hgone ?_ ?_ herase⟩
      · intro j hj
        exact setImpl_other hj w _
      · intro n hn
        obtain rfl : _ = n := Option.some.inj (hpm.symm.trans hn)
        exact ⟨hd, by simpa using hz⟩

/-- **`quota_alloc` keeps the ledger**, and changes nothing when it returns `NULL`. -/
theorem Ledger.quotaAlloc {self : Option Addr} {u : Option Addr} (h : Ledger L w) (size : Nat)
    (hself : ∀ i ∈ self, w.impls i ≠ none) (hu : ∀ p ∈ u, w.Fresh p) :
    ∃ r w', Alloc.quotaAlloc L self size u w = .ok (r, w') ∧ Ledger L w' ∧
      w'.created = w.created ∧ (r = none → w' = w) := by
  rcases quotaAlloc_cases h.books size u hself with he |
    ⟨i, m, p, -, rfl, hm, hroom, he⟩
  · exact ⟨none, w, he, h, rfl, fun _ => rfl⟩
  · exact ⟨_, _, he, ⟨h.books.push hm rfl (hu p rfl).2 hroom, h.homes.push hm⟩, rfl,
      fun hn => nomatch hn⟩

theorem Ledger.quotaCalloc {self : Option Addr} {u : Option Addr} (h : Ledger L w)
    (count size : Nat) (hself : ∀ i ∈ self, w.impls i ≠ none) (hu : ∀ p ∈ u, w.Fresh p) :
    ∃ r w', Alloc.quotaCalloc L self count size u w = .ok (r, w') ∧ Ledger L w' ∧
      w'.created = w.created ∧ (r = none → w' = w) := by
  by_cases hwrap : count ≠ 0 ∧ L.sizeMax / count < size
  · exact ⟨none, w, by rw [Alloc.quotaCalloc, if_pos hwrap]; rfl, h, rfl, fun _ => rfl⟩
  · have hmul : count * size ≤ L.sizeMax := by
      rcases Nat.eq_zero_or_pos count with rfl | hpos
      · simp
      · have hle : size ≤ L.sizeMax / count := by
          by_contra hlt
          exact hwrap ⟨by omega, by omega⟩
        exact (Nat.mul_le_mul_left count hle).trans (Nat.mul_div_le _ _)
    simp only [Alloc.quotaCalloc, if_neg hwrap, Layout.mul_ok hmul, ok_bind]
    exact h.quotaAlloc _ hself hu

theorem Ledger.quotaStrdup {self : Option Addr} {text : Option Nat} {u : Option Addr}
    (h : Ledger L w) (hself : ∀ i ∈ self, w.impls i ≠ none) (ht : ∀ len ∈ text, len ≤ L.sizeMax)
    (hu : ∀ p ∈ u, w.Fresh p) :
    ∃ r w', Alloc.quotaStrdup L self text u w = .ok (r, w') ∧ Ledger L w' ∧
      w'.created = w.created ∧ (r = none → w' = w) := by
  cases text with
  | none => exact ⟨none, w, rfl, h, rfl, fun _ => rfl⟩
  | some len =>
    by_cases hlen : len = L.sizeMax
    · exact ⟨none, w, by simp only [Alloc.quotaStrdup, if_pos hlen]; rfl, h, rfl, fun _ => rfl⟩
    · have hadd : len + 1 ≤ L.sizeMax := by
        have := ht len rfl
        omega
      simp only [Alloc.quotaStrdup, if_neg hlen, Layout.add_ok hadd, ok_bind]
      exact h.quotaAlloc _ hself hu

theorem Ledger.quotaDestroy {ptr : Option Addr} (h : Ledger L w) (self : Option Addr)
    (hptr : ∀ p ∈ ptr, w.Client p) :
    ∃ w', Alloc.quotaDestroy L self ptr w = .ok w' ∧ Ledger L w' ∧ w'.created = w.created := by
  cases self with
  | none => exact ⟨w, rfl, h, rfl⟩
  | some i =>
    cases ptr with
    | none => exact ⟨w, rfl, h, rfl⟩
    | some p =>
      obtain ⟨⟨b, hb, rfl⟩, hr⟩ := hptr p rfl
      simp only [Alloc.quotaDestroy, header_ok h.books hb rfl, ok_bind]
      exact h.discharge hb rfl hr

/-- Resizing a block is striking it out and entering it again. -/
theorem pop_push {i : Addr} {m : Impl} {b c : Block} {n : Nat}
    (hn : m.quotaAllocationCount = n + 1) :
    (w.pop L i m b).push L i { m with liveBytes := m.liveBytes - (L.header + b.size),
                                      quotaAllocationCount := n } c =
      { w.setImpl i { m with liveBytes := m.liveBytes - (L.header + b.size) + (L.header + c.size) }
        with blocks := c :: w.blocks.erase b } := by
  have himpls : ∀ j, ((w.pop L i m b).push L i
      { m with liveBytes := m.liveBytes - (L.header + b.size), quotaAllocationCount := n } c).impls j =
      (w.setImpl i { m with liveBytes :=
        m.liveBytes - (L.header + b.size) + (L.header + c.size) }).impls j := by
    intro j
    by_cases hj : j = i
    · subst hj
      simp [World.push, World.setImpl, ← hn]
    · simp [World.push, World.pop, World.setImpl, hj]
  simp only [World.mk.injEq, World.push, World.pop, World.setImpl, and_true]
  exact funext himpls

/-- The end of `quota_realloc`: a block struck out and entered again, possibly elsewhere. -/
theorem Ledger.resize {b : Block} {i : Addr} {m : Impl} {u : Option Addr} (h : Ledger L w)
    (size : Nat) (hb : b ∈ w.blocks) (hi : b.owner = i) (hm : w.impls i = some m)
    (hr : w.receiver b.addr = none)
    (hfits : m.liveBytes - (L.header + b.size) + (L.header + size) ≤ memoryLimit)
    (hu : ∀ q ∈ u, w.Fresh q ∨ b.addr = q) :
    ∃ r w', Alloc.resize L i b m size (L.header + b.size) (L.header + size) u w = .ok (r, w') ∧
      Ledger L w' ∧ w'.created = w.created ∧ (r = none → w' = w) := by
  subst hi
  cases u with
  | none => exact ⟨none, w, rfl, h, rfl, fun _ => rfl⟩
  | some q =>
    obtain ⟨hbytes, hcount⟩ := h.books.holds hb hm
    have hlive := h.books.bytes _ _ hm
    have hrest : L.header + b.size ≤ m.liveBytes := by omega
    have hpop := h.books.pop hb rfl hm
    have hpm : (w.pop L b.owner m b).impls b.owner = some _ := setImpl_self w b.owner _
    have hfresh : ∀ c ∈ (w.pop L b.owner m b).blocks, c.addr ≠ q := by
      intro c hc hcq
      have hcw : c ∈ w.blocks := List.mem_of_mem_erase hc
      rcases hu q rfl with hq | rfl
      · exact hq.2 c hcw hcq
      · obtain rfl : c = b := List.inj_on_of_nodup_map h.books.nodup hcw hb hcq
        exact (List.Nodup.not_mem_erase h.books.nodup.of_map) hc
    have hbooks := hpop.push (b := ⟨q, size, b.owner⟩) hpm rfl hfresh hfits
    rw [show m.quotaAllocationCount - 1 = (owned (w.blocks.erase b) b.owner).length by omega,
      pop_push hcount] at hbooks
    simp only [Alloc.resize, sub_ok hrest, ok_bind, Layout.add_ok (hfits.trans L.limit_le)]
    have hbusy := h.homes.busy _ _ hm
    refine ⟨_, _, rfl, ⟨hbooks, h.homes.setImpl hm rfl ?_ hbusy⟩, rfl, fun hn => nomatch hn⟩
    intro p j hp
    obtain ⟨c, hc, hcp, hcj⟩ := h.homes.block p j hp
    refine ⟨c, List.mem_cons_of_mem _ ((List.mem_erase_of_ne ?_).mpr hc), hcp, hcj⟩
    rintro rfl
    rw [hcp, hp] at hr
    cases hr

theorem Ledger.quotaRealloc {self ptr : Option Addr} {u : Option Addr} (h : Ledger L w)
    (size : Nat) (hself : ∀ i ∈ self, w.impls i ≠ none) (hptr : ∀ p ∈ ptr, w.Client p)
    (hu : ∀ q ∈ u, w.Fresh q ∨ q ∈ ptr) :
    ∃ r w', Alloc.quotaRealloc L self ptr size u w = .ok (r, w') ∧ Ledger L w' ∧
      w'.created = w.created ∧ ((ptr.isNone || size != 0) = true → r = none → w' = w) := by
  cases ptr with
  | none =>
    obtain ⟨r, w', he, hL, hc, hn⟩ := h.quotaAlloc size hself
      fun q hq => (hu q hq).resolve_right (fun hf => nomatch hf)
    exact ⟨r, w', he, hL, hc, fun _ => hn⟩
  | some p =>
  have hsame : ∃ r w'', (Except.ok (none, w) : Except Fault (Option Addr × World)) = .ok (r, w'') ∧
      Ledger L w'' ∧ w''.created = w.created ∧
      (((some p).isNone || size != 0) = true → r = none → w'' = w) :=
    ⟨none, w, rfl, h, rfl, fun _ _ => rfl⟩
  cases self with
  | none => exact hsame
  | some i =>
  obtain ⟨⟨b, hb, rfl⟩, hr⟩ := hptr p rfl
  simp only [Alloc.quotaRealloc, sub_ok L.header_le, ok_bind, header_ok h.books hb rfl]
  by_cases hsize : L.sizeMax - L.header < size
  · rw [if_pos hsize]
    exact hsame
  rw [if_neg hsize]
  by_cases hi : b.owner ≠ i
  · rw [if_pos hi]
    exact hsame
  rw [if_neg hi]
  obtain rfl : b.owner = i := not_not.mp hi
  obtain ⟨m, hm⟩ := Option.ne_none_iff_exists'.mp (hself b.owner rfl)
  obtain ⟨hbytes, hcount⟩ := h.books.holds hb hm
  have hlive := h.books.bytes _ _ hm
  have hlimit := h.books.limit _ _ hm
  have hmax := L.limit_le
  have hhead := L.header_le
  have hold : L.header + b.size ≤ L.sizeMax := by omega
  have hnew : L.header + size ≤ L.sizeMax := by omega
  simp only [impl_ok hm, Layout.add_ok hold, Layout.add_ok hnew, sub_ok hlimit, ok_bind]
  by_cases hz : size = 0
  · subst hz
    obtain ⟨w', he, hL, hc⟩ := h.discharge hb rfl hr
    refine ⟨none, w', ?_, hL, hc, fun hf => nomatch hf⟩
    rw [if_pos rfl, he]
    rfl
  rw [if_neg hz]
  by_cases hroom : L.header + b.size < L.header + size ∧
      memoryLimit - m.liveBytes < L.header + size - (L.header + b.size)
  · rw [if_pos hroom.1, sub_ok hroom.1.le, ok_bind, if_pos hroom.2]
    exact hsame
  obtain ⟨r, w', he, hL, hc, hn⟩ := h.resize size hb rfl hm hr (by omega)
    fun q hq => (hu q hq).imp_right Option.some.inj
  refine ⟨r, w', ?_, hL, hc, fun _ => hn⟩
  by_cases hgrow : L.header + b.size < L.header + size
  · rw [if_pos hgrow, sub_ok hgrow.le, ok_bind, if_neg (fun hf => hroom ⟨hgrow, hf⟩)]
    exact he
  · rw [if_neg hgrow]
    exact he

/-- **`lql_new` keeps the ledger.** The bookkeeping object it fails to furnish is given back at
once. -/
theorem Ledger.lqlNew {u v : Option Addr} (h : Ledger L w) (hu : ∀ i ∈ u, w.Fresh i)
    (hv : ∀ p ∈ v, w.Fresh p ∧ p ∉ u) :
    ∃ r w', Alloc.lqlNew L u v w = .ok (r, w') ∧ Ledger L w' ∧
      ∀ i, w.impls i ≠ none → w'.created i = w.created i := by
  cases u with
  | none => exact ⟨none, w, rfl, h, fun _ _ => rfl⟩
  | some i =>
    have hi : w.impls i = none := (hu i rfl).1
    have hbooks := h.books.create hi
    have hmake : (w.create i ⟨L.impl, 0, false⟩).impls i = some ⟨L.impl, 0, false⟩ :=
      setImpl_self w i _
    have hcreated : ∀ j, w.impls j ≠ none →
        (w.create i ⟨L.impl, 0, false⟩).created j = w.created j := by
      intro j hj
      have : j ≠ i := by
        rintro rfl
        exact hj hi
      simp [World.create, this]
    have hnoReceiver : ∀ p, w.receiver p ≠ some i := by
      intro p hp
      obtain ⟨b, hb, -, hbi⟩ := h.homes.block p i hp
      exact h.books.owner b hb (hbi ▸ hi)
    have hmul : 1 * L.ctx ≤ L.sizeMax := by
      rw [Nat.one_mul]
      exact L.ctx_le
    have hguard : ¬((1 : Nat) ≠ 0 ∧ L.sizeMax / 1 < L.ctx) := by
      rw [Nat.div_one]
      exact fun hf => absurd hf.2 (Nat.not_lt.mpr L.ctx_le)
    have hcalloc : ∀ w, Alloc.quotaCalloc L (some i) 1 L.ctx v w =
        Alloc.quotaAlloc L (some i) (1 * L.ctx) v w := by
      intro w
      rw [Alloc.quotaCalloc, if_neg hguard, Layout.mul_ok hmul, ok_bind]
    simp only [Alloc.lqlNew, hcalloc]
    rcases quotaAlloc_cases hbooks (1 * L.ctx) v
        (fun j (hj : some i = some j) => by rw [← Option.some.inj hj, hmake]; simp) with he |
        ⟨j, m, p, hj, rfl, hm, hroom, he⟩
    · rw [he, ok_bind]
      refine ⟨none, _, rfl, ⟨hbooks.release hmake rfl, h.homes.without (i := i) ?_ ?_ ?_ ?_⟩,
        hcreated⟩
      · intro p j
        refine ⟨fun hp => ⟨hp, ?_⟩, And.left⟩
        rintro rfl
        exact hnoReceiver p hp
      · intro j hj
        simp [World.release, World.create, World.setImpl, hj]
      · intro m hm
        simp [World.release] at hm
      · exact fun b hb _ => hb
    · obtain rfl : i = j := Option.some.inj hj
      obtain rfl : _ = m := Option.some.inj (hmake.symm.trans hm)
      obtain ⟨hp, hpi⟩ := hv p rfl
      rw [he, ok_bind]
      have hfree : w.receiver p = none := by
        cases hw : w.receiver p with
        | none => rfl
        | some j =>
          obtain ⟨b, hb, hbp, -⟩ := h.homes.block p j hw
          exact absurd hbp (hp.2 b hb)
      have hpush := hbooks.push (b := ⟨p, 1 * L.ctx, i⟩) hmake rfl hp.2 hroom
      refine ⟨some p, _, rfl, ⟨⟨hpush.nodup, hpush.owner, hpush.bytes, hpush.limit, hpush.count,
        hpush.once⟩, ?_⟩, hcreated⟩
      refine h.homes.settle (i := i) (p := p) (m := ⟨_, 1, false⟩) hnoReceiver hfree
        ?_ ?_ ?_ (setImpl_self _ i _) rfl ⟨_, List.mem_cons_self .., rfl, rfl⟩
      · intro q j
        show (if q = p then some i else w.receiver q) = some j ↔ _
        by_cases hq : q = p
        · simp [hq, eq_comm]
        · simp [hq]
      · intro j hj
        simp [World.setReceiver, World.push, World.create, World.setImpl, hj]
      · exact fun b hb => List.mem_cons_of_mem _ hb

/-- **`receiver_destroy` keeps the ledger.** -/
theorem Ledger.receiverDestroy {self : Option Addr} (h : Ledger L w)
    (hself : ∀ p ∈ self, w.receiver p ≠ none) :
    ∃ w', Alloc.receiverDestroy L self w = .ok w' ∧ Ledger L w' ∧ w'.created = w.created := by
  cases self with
  | none => exact ⟨w, rfl, h, rfl⟩
  | some p =>
    obtain ⟨i, hp⟩ := Option.ne_none_iff_exists'.mp (hself p rfl)
    obtain ⟨b, hb, rfl, hbi⟩ := h.homes.block p i hp
    obtain ⟨m, hm⟩ := Option.ne_none_iff_exists'.mp (hbi ▸ h.books.owner b hb)
    have halive : m.receiverDestroyed = false := h.homes.alive _ i m hp hm
    have hpop := h.books.pop hb hbi hm
    have hpm : (w.pop L i m b).impls i = some _ := setImpl_self w i _
    have hdestroy : Alloc.quotaDestroy L (some i) (some b.addr) w = .ok (w.pop L i m b) := by
      simp only [Alloc.quotaDestroy, header_ok h.books hb rfl, ok_bind, hbi]
      rw [discharge_eq h.books hb hbi hm, halive]
      rfl
    have hretired := hpop.retire (p := b.addr) hpm
    have hrm : (((w.pop L i m b).setReceiver b.addr none).setImpl i _).impl i = .ok _ :=
      impl_ok (setImpl_self _ i { m with
        liveBytes := m.liveBytes - (L.header + b.size),
        quotaAllocationCount := m.quotaAllocationCount - 1,
        receiverDestroyed := true })
    simp only [Alloc.receiverDestroy, hp, hdestroy, ok_bind, impl_ok hpm, releaseIfIdle]
    rw [hrm, ok_bind]
    have hreceiver : ∀ q j, (if q = b.addr then none else w.receiver q) = some j ↔
        w.receiver q = some j ∧ j ≠ i := by
      intro q j
      by_cases hq : q = b.addr
      · subst hq
        simp only [if_true, hp]
        simp [eq_comm]
      · rw [if_neg hq]
        refine ⟨fun hqj => ⟨hqj, ?_⟩, And.left⟩
        rintro rfl
        exact hq (h.homes.unique _ _ _ hqj hp)
    have herase : ∀ c ∈ w.blocks, c.owner ≠ i → c ∈ w.blocks.erase b := by
      intro c hc hci
      refine (List.mem_erase_of_ne ?_).mpr hc
      rintro rfl
      exact hci hbi
    by_cases hz : (m.quotaAllocationCount - 1 == 0) = true
    · rw [if_pos (by simpa using hz)]
      refine ⟨_, rfl, ⟨hretired.release (setImpl_self _ i _) (by simpa using hz),
        h.homes.without hreceiver ?_ ?_ herase⟩, rfl⟩
      · intro j hj
        simp [World.release, World.setReceiver, World.pop, World.setImpl, hj]
      · intro n hn
        simp [World.release] at hn
    · rw [if_neg (by simpa using hz)]
      refine ⟨_, rfl, ⟨hretired, h.homes.without hreceiver ?_ ?_ herase⟩, rfl⟩
      · intro j hj
        simp [World.setReceiver, World.pop, World.setImpl, hj]
      · intro n hn
        obtain rfl : _ = n := Option.some.inj ((setImpl_self _ i _).symm.trans hn)
        exact ⟨rfl, by simpa using hz⟩

/-! ## Every run -/

theorem ledger_init (L : Layout) : Ledger L World.init :=
  ⟨⟨List.nodup_nil, fun _ hb => (nomatch hb), fun _ _ hm => (nomatch hm), fun _ _ hm => (nomatch hm),
    fun _ _ hm => (nomatch hm), fun _ => rfl⟩,
    ⟨fun _ _ hp => (nomatch hp), fun _ _ _ hp => (nomatch hp), fun _ _ hm => (nomatch hm),
      fun _ _ _ hp => (nomatch hp), fun _ _ hm => (nomatch hm)⟩⟩

/-- **One call.** It ends, it keeps the ledger, it leaves everything as it was when it is an
allocation that returns `NULL`, and it takes no object whose address is in use. -/
theorem Ledger.step {a : Action} (h : Ledger L w) (ha : Admissible L w a) :
    ∃ r w', Alloc.step L a w = .ok (r, w') ∧ Ledger L w' ∧
      (∀ i, w.impls i ≠ none → w'.created i = w.created i) ∧
      (a.allocates = true → r = none → w' = w) := by
  cases a with
  | new u v =>
    obtain ⟨r, w', he, hL, hc⟩ := h.lqlNew ha.1 ha.2
    exact ⟨r, w', he, hL, hc, fun hf => nomatch hf⟩
  | alloc self size u =>
    obtain ⟨r, w', he, hL, hc, hn⟩ := h.quotaAlloc size ha.1 ha.2.2
    exact ⟨r, w', he, hL, fun i _ => congrFun hc i, fun _ => hn⟩
  | calloc self count size u =>
    obtain ⟨r, w', he, hL, hc, hn⟩ := h.quotaCalloc count size ha.1 ha.2.2.2
    exact ⟨r, w', he, hL, fun i _ => congrFun hc i, fun _ => hn⟩
  | realloc self ptr size u =>
    obtain ⟨r, w', he, hL, hc, hn⟩ := h.quotaRealloc size ha.1 ha.2.1 ha.2.2.2
    exact ⟨r, w', he, hL, fun i _ => congrFun hc i, hn⟩
  | strdup self text u =>
    obtain ⟨r, w', he, hL, hc, hn⟩ := h.quotaStrdup ha.1 ha.2.1 ha.2.2
    exact ⟨r, w', he, hL, fun i _ => congrFun hc i, fun _ => hn⟩
  | destroy self ptr =>
    obtain ⟨w', he, hL, hc⟩ := h.quotaDestroy self ha.2
    exact ⟨none, w', by rw [Alloc.step, he]; rfl, hL, fun i _ => congrFun hc i,
      fun hf => nomatch hf⟩
  | receiverDestroy self =>
    obtain ⟨w', he, hL, hc⟩ := h.receiverDestroy ha
    exact ⟨none, w', by rw [Alloc.step, he]; rfl, hL, fun i _ => congrFun hc i,
      fun hf => nomatch hf⟩

/-- The ledger holds in every run. -/
theorem Reachable.ledger (hr : Reachable L w) : Ledger L w := by
  induction hr with
  | init => exact ledger_init L
  | step _ ha he ih =>
    obtain ⟨r, w', he', hL, -⟩ := ih.step ha
    rw [he'] at he
    cases he
    exact hL

/-- The receiver of `i` is gone and so is every block of it. -/
def World.Idle (w : World) (i : Addr) : Prop :=
  (∀ p, w.receiver p ≠ some i) ∧ owned w.blocks i = []

/-- A bookkeeping object is missing exactly when nothing needs it. -/
theorem Ledger.missing_iff (h : Ledger L w) (i : Addr) : w.impls i = none ↔ w.Idle i := by
  constructor
  · intro hi
    have hnone : ∀ b ∈ w.blocks, b.owner ≠ i := fun b hb hbi => h.books.owner b hb (hbi ▸ hi)
    refine ⟨fun p hp => ?_, owned_nil_of_none hnone⟩
    obtain ⟨b, hb, -, hbi⟩ := h.homes.block p i hp
    exact hnone b hb hbi
  · rintro ⟨hno, hnil⟩
    by_contra hi
    obtain ⟨m, hm⟩ := Option.ne_none_iff_exists'.mp hi
    cases hd : m.receiverDestroyed with
    | false =>
      obtain ⟨p, hp⟩ := h.homes.flag i m hm hd
      exact hno p hp
    | true =>
      refine h.homes.busy i m hm hd ?_
      rw [h.books.count i m hm, hnil]
      rfl

/-- **The ledger of every receiver, over every run of the allocator.** In every world a client can
reach, the counters of each bookkeeping object are its own size plus what its live blocks cost, within
the limit, and their number. From there every call a client can make comes to an end without a wrapped
size, an underflow or a look at memory given back; if it is an allocation or a reallocation to a
non-zero size and returns `NULL`, nothing has changed; and a bookkeeping object is given back by the
call, once, exactly when after it the receiver and all blocks are gone. -/
theorem ledger_balances (hr : Reachable L w) :
    (∀ i m, w.impls i = some m →
      m.liveBytes = L.impl + L.charged w.blocks i ∧ m.liveBytes ≤ memoryLimit ∧
        m.quotaAllocationCount = (owned w.blocks i).length) ∧
    (∀ i, w.created i = w.released i + if w.impls i = none then 0 else 1) ∧
    ∀ a, Admissible L w a → ∃ r w', step L a w = .ok (r, w') ∧
      (a.allocates = true → r = none → w' = w) ∧
      ∀ i, w.impls i ≠ none →
        (w'.impls i = none ↔ w'.Idle i) ∧
        (w'.Idle i → w'.released i = w.released i + 1) ∧
        (¬w'.Idle i → w'.released i = w.released i) := by
  have h := hr.ledger
  refine ⟨fun i m hm => ⟨h.books.bytes i m hm, h.books.limit i m hm, h.books.count i m hm⟩,
    h.books.once, fun a ha => ?_⟩
  obtain ⟨r, w', he, hL, hc, hn⟩ := h.step ha
  refine ⟨r, w', he, hn, fun i hi => ⟨hL.missing_iff i, fun hidle => ?_, fun hidle => ?_⟩⟩
  · have hbefore := h.books.once i
    have hafter := hL.books.once i
    rw [if_neg hi] at hbefore
    rw [if_pos ((hL.missing_iff i).mpr hidle), hc i hi] at hafter
    omega
  · have hbefore := h.books.once i
    have hafter := hL.books.once i
    rw [if_neg hi] at hbefore
    rw [if_neg (fun hf => hidle ((hL.missing_iff i).mp hf)), hc i hi] at hafter
    omega

/-- The layout of a 64-bit target. -/
def lp64 : Layout where
  sizeMax := 2 ^ 64 - 1
  header := 16
  impl := 80
  ctx := 336
  limit_le := by decide
  header_pos := by decide
  header_le := by decide
  impl_le := by decide
  ctx_le := by decide

/-- A block that outlives its receiver: giving it back gives the bookkeeping object back. -/
theorem lastBlock_releases : ∃ w, Reachable lp64 w ∧ w.impls 100 = some ⟨101, 1, true⟩ ∧
    ∃ r w', step lp64 (.destroy (some 100) (some 300)) w = .ok (r, w') ∧
      w'.released 100 = w.released 100 + 1 := by
  have h1 : Reachable lp64 _ := .step (a := .new (some 100) (some 200)) .init
    (by simp [Admissible, World.Fresh, World.init]) rfl
  have h2 : Reachable lp64 _ := .step (a := .alloc (some 100) 5 (some 300)) h1
    ⟨by simp [World.setReceiver], by decide, by
      simp [World.Fresh, World.setReceiver, World.create, World.setImpl, World.init]⟩ rfl
  have h3 : Reachable lp64 _ := .step (a := .receiverDestroy (some 200)) h2
    (by simp [Admissible, World.setReceiver, World.setImpl]) rfl
  refine ⟨_, h3, rfl, ?_⟩
  obtain ⟨r, w', he, -, hrel⟩ := (ledger_balances h3).2.2 (.destroy (some 100) (some 300))
    ⟨by simp, fun p hp => by
      obtain rfl : 300 = p := Option.some.inj hp
      exact ⟨⟨⟨300, 5, 100⟩, by decide, rfl⟩, rfl⟩⟩
  refine ⟨r, w', he, (hrel 100 (fun hf => nomatch hf)).2.1 ?_⟩
  cases he
  refine ⟨fun p hp => ?_, rfl⟩
  change (if p = 200 then none else if p = 200 then some 100 else none) = some 100 at hp
  split at hp <;> simp_all

end Lql.Alloc
