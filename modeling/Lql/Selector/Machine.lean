import Lql.Selector.Stored

/-!
# The machine that reads selectors

What is to be known of the nodes of a selector has to be known of a predicate while its members are read, and of the frames
below it. The walk over the stack is the same whatever it is: it is made here once, for any property of nodes that the
machine's steps respect.
-/

namespace Lql.Selector

open Json (Value Members Elements Str)

namespace Selector

mutual

/-- What holds at every node. -/
def Each (P : SelectorKind → Payload → List Selector → Prop) : Selector → Prop
  | .node kind payload children => P kind payload children ∧ EachOf P children

/-- What holds at every node of these selectors. -/
def EachOf (P : SelectorKind → Payload → List Selector → Prop) : List Selector → Prop
  | [] => True
  | child :: rest => Each P child ∧ EachOf P rest

end

theorem eachOf_iff {P : SelectorKind → Payload → List Selector → Prop} : ∀ {children : List Selector},
    EachOf P children ↔ ∀ child ∈ children, Each P child
  | [] => by simp [EachOf]
  | child :: rest => by rw [EachOf, eachOf_iff, List.forall_mem_cons]

theorem eachOf_append {P : SelectorKind → Payload → List Selector → Prop} {a b : List Selector} (ha : EachOf P a)
    (hb : EachOf P b) : EachOf P (a ++ b) := by
  rw [eachOf_iff] at ha hb ⊢
  intro child hmem
  rcases List.mem_append.mp hmem with h | h
  · exact ha child h
  · exact hb child h

mutual

/-- What follows at a node from two facts about it follows at every node. -/
theorem Each.both {P Q R : SelectorKind → Payload → List Selector → Prop} : ∀ {s : Selector}, s.Each P →
    (∀ kind p children, P kind p children → Q kind p children → R kind p children) → s.Each Q → s.Each R
  | .node _ _ _, hp, hPQR, hq => ⟨hPQR _ _ _ hp.1 hq.1, EachOf.both hp.2 hPQR hq.2⟩

theorem EachOf.both {P Q R : SelectorKind → Payload → List Selector → Prop} : ∀ {children : List Selector},
    EachOf P children → (∀ kind p children, P kind p children → Q kind p children → R kind p children) →
      EachOf Q children → EachOf R children
  | [], _, _, _ => trivial
  | _ :: _, hp, hPQR, hq => ⟨Each.both hp.1 hPQR hq.1, EachOf.both hp.2 hPQR hq.2⟩

end

theorem Each.imp {P Q : SelectorKind → Payload → List Selector → Prop} {s : Selector} (hPQ : ∀ kind p children,
    P kind p children → Q kind p children) (h : s.Each P) : s.Each Q := h.both (fun _ _ _ hp _ => hPQ _ _ _ hp) h

end Selector

/-- The kinds of the nodes that are no predicates. -/
def SelectorKind.isInner (kind : SelectorKind) : Bool := kind = .all || kind = .and || kind = .or || kind = .not

/-- What the steps of the machine respect: `N` holds of nodes, `G` of a predicate while its members are read, and `O` of
one whose `any` is open. -/
structure MachineRules (N : SelectorKind → Payload → List Selector → Prop) (G O : JsonFrame → Prop) : Prop where
  all : N .all {} []
  joined : ∀ {kind : SelectorKind} (children : List Selector), kind = .and ∨ kind = .or → N kind {} children
  negated : ∀ child : Selector, N .not {} [child]
  exist : ∀ {text field : Bytes}, IsUtf8 text → 0 ∉ text → normalizeFieldPath text = some field →
    N .exist { field := some field } []
  fresh : ∀ {kind : SelectorKind}, kind.isInner = false → kind ≠ .exist → kind ≠ .ne →
    G { kind := .predicate, selector := .leaf kind {} }
  key : ∀ {f : JsonFrame} {text : Bytes} {slot : SeenKey}, G f → jsonSeenSlot f.selector.kind text = some slot →
    f.seen slot = false → G { f with seen := fun k => k = slot || f.seen k, pendingKey := some text }
  store : ∀ {f f' : JsonFrame}, G f → Stores f f' → G f'
  opens : ∀ {f : JsonFrame} {key : Bytes}, G f → f.pendingKey = some key →
    keyAllowedForKind f.selector.kind key = true → keyIsAny key = true → O { f with pendingKey := none }
  push : ∀ {f : JsonFrame} {value : Bytes} (literal : LiteralKind), O f → literal.Spells value →
    O (f.store (jsonPushAny f.selector.kind f.selector.payload value literal))
  closes : ∀ {f : JsonFrame}, O f → G f
  finish : ∀ {f : JsonFrame} {s : Selector}, G f → jsonEndPredicate f = .ok s → s.Each N

section Walk

variable {N : SelectorKind → Payload → List Selector → Prop} {G O : JsonFrame → Prop}

/-! ## Frames -/

/-- A node that only its children are missing from. -/
structure InnerNode (N : SelectorKind → Payload → List Selector → Prop) (kind : SelectorKind) (s : Selector) : Prop where
  kind : s.kind = kind
  payload : s.payload = {}
  children : Selector.EachOf N s.children

/-- A selector object before its operator. -/
def JsonFrame.Bare (f : JsonFrame) : Prop :=
  f.kind = .selector ∧ f.keyCount = 0 ∧ f.pendingKey = none ∧ f.selector = .leaf .all {}

/-- A selector object whose operator has been read, and its value not yet. -/
def JsonFrame.Named (f : JsonFrame) : Prop :=
  f.kind = .selector ∧ f.keyCount = 1 ∧ jsonKindIsValidOperator f.selector.kind = true ∧
    f.selector.payload = {} ∧ f.selector.children = []

/-- A frame on top of the stack. -/
inductive JsonFrame.Ok (N : SelectorKind → Payload → List Selector → Prop) (G : JsonFrame → Prop) : JsonFrame → Prop where
  | bare {f : JsonFrame} : f.Bare → Ok N G f
  | named {f : JsonFrame} : f.Named → f.pendingKey.isSome → Ok N G f
  | done {f : JsonFrame} : f.kind = .selector → f.keyCount = 1 → f.pendingKey = none → f.selector.Each N → Ok N G f
  | children {f : JsonFrame} : f.kind = .childArray → f.pendingKey = none →
    InnerNode N .and f.selector ∨ InnerNode N .or f.selector → Ok N G f
  | predicate {f : JsonFrame} : f.kind = .predicate → f.Allowed → G f → Ok N G f
  | any {f : JsonFrame} : f.kind = .anyArray → f.pendingKey = none → Ok N G f

/-- What the frame on top is for the one below it. The values of an `any` belong to the predicate below. -/
inductive JsonFrame.On (N : SelectorKind → Payload → List Selector → Prop) (G O : JsonFrame → Prop) :
    JsonFrame → JsonFrame → Prop where
  | element {f b : JsonFrame} : f.kind = .selector → b.kind = .childArray → b.Ok N G → On N G O f b
  | negated {f b : JsonFrame} : f.kind = .selector → b.Named → b.pendingKey = none → b.selector.kind = .not → On N G O f b
  | children {f b : JsonFrame} : f.kind = .childArray → b.Named → b.pendingKey = none → On N G O f b
  | predicate {f b : JsonFrame} : f.kind = .predicate → b.Named → b.pendingKey = none → On N G O f b
  | any {f b : JsonFrame} : f.kind = .anyArray → b.kind = .predicate → b.pendingKey = none →
    O { b with selector := f.selector } → On N G O f b

/-- The node of an array of selectors. -/
theorem JsonFrame.Ok.inner {f : JsonFrame} (h : f.Ok N G) (hk : f.kind = .childArray) :
    f.pendingKey = none ∧ (InnerNode N .and f.selector ∨ InnerNode N .or f.selector) := by
  cases h with
  | children _ hp hinner => exact ⟨hp, hinner⟩
  | bare hbare => simp [hbare.1] at hk
  | named hn _ => simp [hn.1] at hk
  | done hs => simp [hs] at hk
  | predicate hs => simp [hs] at hk
  | any hs => simp [hs] at hk

/-- What is known of a predicate. -/
theorem JsonFrame.Ok.grows {f : JsonFrame} (h : f.Ok N G) (hk : f.kind = .predicate) : f.Allowed ∧ G f := by
  cases h with
  | predicate _ ha hgrow => exact ⟨ha, hgrow⟩
  | bare hbare => simp [hbare.1] at hk
  | named hn _ => simp [hn.1] at hk
  | done hs => simp [hs] at hk
  | children hs => simp [hs] at hk
  | any hs => simp [hs] at hk

/-- A selector object with a key that waits for its value. -/
theorem JsonFrame.Ok.waits {f : JsonFrame} (h : f.Ok N G) (hk : f.kind = .selector) (hp : f.pendingKey ≠ none) :
    f.Named := by
  cases h with
  | named hn _ => exact hn
  | bare hbare => exact absurd hbare.2.2.1 hp
  | done _ _ hnone => exact absurd hnone hp
  | children hs => simp [hk] at hs
  | predicate hs => simp [hk] at hs
  | any hs => simp [hk] at hs

/-- A selector object that waits for nothing. -/
theorem JsonFrame.Ok.rests {f : JsonFrame} (h : f.Ok N G) (hk : f.kind = .selector) (hp : f.pendingKey = none) :
    f.Bare ∨ f.keyCount = 1 ∧ f.selector.Each N := by
  cases h with
  | bare hbare => exact .inl hbare
  | done _ hcount _ hwf => exact .inr ⟨hcount, hwf⟩
  | named _ hsome => simp [hp] at hsome
  | children hs => simp [hk] at hs
  | predicate hs => simp [hk] at hs
  | any hs => simp [hk] at hs

/-- A frame, and those that it stands on. -/
def Rests (N : SelectorKind → Payload → List Selector → Prop) (G O : JsonFrame → Prop) : JsonFrame → List JsonFrame → Prop
  | f, [] => f.kind = .selector
  | f, b :: rest => f.On N G O b ∧ Rests N G O b rest

/-- The stack of frames, from the top on. -/
def StackOk (N : SelectorKind → Payload → List Selector → Prop) (G O : JsonFrame → Prop) : List JsonFrame → Prop
  | [] => True
  | f :: rest => f.Ok N G ∧ Rests N G O f rest

/-- A frame may take the place of one of its kind, with more of the values if it holds those of an `any`. -/
def Replaces (O : JsonFrame → Prop) (f g : JsonFrame) : Prop :=
  g.kind = f.kind ∧ (f.kind = .anyArray → ∀ b : JsonFrame, O { b with selector := f.selector } →
    O { b with selector := g.selector })

theorem replaces_same {f g : JsonFrame} (hk : g.kind = f.kind) (hne : f.kind ≠ .anyArray) : Replaces O f g :=
  ⟨hk, fun h => absurd h hne⟩

theorem JsonFrame.On.replace {f g b : JsonFrame} (h : f.On N G O b) (hg : Replaces O f g) : g.On N G O b := by
  obtain ⟨hk, hany⟩ := hg
  cases h with
  | element hf hb hok => exact .element (hk.trans hf) hb hok
  | negated hf hb hp hnot => exact .negated (hk.trans hf) hb hp hnot
  | children hf hb hp => exact .children (hk.trans hf) hb hp
  | predicate hf hb hp => exact .predicate (hk.trans hf) hb hp
  | any hf hb hp ho => exact .any (hk.trans hf) hb hp (hany hf b ho)

theorem Rests.replace {f g : JsonFrame} {rest : List JsonFrame} (h : Rests N G O f rest) (hg : Replaces O f g) :
    Rests N G O g rest := by
  cases rest with
  | nil => exact hg.1.trans h
  | cons b rest => exact ⟨h.1.replace hg, h.2⟩

/-- An event that changes the frame on top leaves a frame that may stand there. -/
theorem jsonOnTop_ok {s s' : JsonState} {empty : String} {act : JsonFrame → Except Err JsonFrame}
    (h : StackOk N G O s.frames) (hact : ∀ f f', f.Ok N G → act f = .ok f' → f'.Ok N G ∧ Replaces O f f')
    (hs : jsonOnTop s empty act = .ok s') :
    StackOk N G O s'.frames ∧ s'.frames.length = s.frames.length ∧ s'.frames ≠ [] := by
  unfold jsonOnTop at hs
  cases hframes : s.frames with
  | nil =>
    rw [hframes] at hs
    cases hs
  | cons f rest =>
    rw [hframes] at h hs
    dsimp only at hs
    cases hf : act f with
    | error e =>
      rw [hf] at hs
      cases hs
    | ok f' =>
      rw [hf] at hs
      cases hs
      obtain ⟨hok, hreplaces⟩ := hact f f' h.1 hf
      exact ⟨⟨hok, h.2.replace hreplaces⟩, rfl, List.cons_ne_nil _ _⟩

/-! ## Keys, strings and scalars -/

/-- A scalar is the value of a predicate or one of the values of an `any`. -/
theorem jsonStoreScalar_any {f f' : JsonFrame} {value : Bytes} {literal : LiteralKind} (hk : f.kind = .anyArray)
    (hs : jsonStoreScalar f value literal = .ok f') :
    f' = f.store (jsonPushAny f.selector.kind f.selector.payload value literal) ∧
      (literal = .number → Number.isJson value = true) := by
  unfold jsonStoreScalar at hs
  dsimp only at hs
  split at hs
  · cases hs
  next hnumber =>
  split at hs
  · next hvalue => simp [hk] at hvalue
  cases hs
  refine ⟨rfl, fun hl => ?_⟩
  by_contra hj
  exact hnumber (by simp [hl, hj])

/-- A scalar has no place elsewhere. -/
theorem jsonStoreScalar_place {f f' : JsonFrame} {value : Bytes} {literal : LiteralKind}
    (hs : jsonStoreScalar f value literal = .ok f') : f.kind = .predicate ∨ f.kind = .anyArray := by
  unfold jsonStoreScalar at hs
  dsimp only at hs
  split at hs
  · cases hs
  split at hs
  · next hvalue =>
    simp only [Bool.and_eq_true, decide_eq_true_eq] at hvalue
    exact .inl hvalue.1.1
  split at hs
  · next hk => exact .inr hk
  · cases hs

variable (rules : MachineRules N G O)
include rules

/-- A value in a predicate. -/
theorem stores_ok {f f' : JsonFrame} (hk : f.kind = .predicate) (hgrow : G f) (hs : Stores f f') :
    f'.Ok N G ∧ Replaces O f f' := by
  have hgrow' := rules.store hgrow hs
  obtain ⟨key, slot, q, -, -, -, rfl⟩ := hs
  exact ⟨.predicate hk (fun key h => by cases h) hgrow', replaces_same rfl (by rw [hk]; decide)⟩

theorem jsonEndKey_ok {f f' : JsonFrame} {text : Bytes} (h : f.Ok N G) (hs : jsonEndKey f text = .ok f') :
    f'.Ok N G ∧ Replaces O f f' := by
  have hcopy := hs
  unfold jsonEndKey at hs
  split at hs
  · cases hs
  cases h with
  | bare hbare =>
    obtain ⟨hk, hcount, -, hsel⟩ := hbare
    rw [hk] at hs
    dsimp only at hs
    split at hs
    · cases hs
    next hvalid =>
    split at hs
    · cases hs
    cases hs
    rw [Bool.not_eq_true', Bool.not_eq_false] at hvalid
    refine ⟨.named ⟨rfl, rfl, hvalid, ?_, ?_⟩ rfl, replaces_same hk.symm (by rw [hk]; decide)⟩
    · rw [hsel]
      rfl
    · rw [hsel]
      rfl
  | named hnamed _ =>
    rw [hnamed.1] at hs
    dsimp only at hs
    rw [hnamed.2.1] at hs
    split at hs
    · cases hs
    · rw [if_pos (by decide)] at hs
      cases hs
  | done hk hcount _ _ =>
    rw [hk] at hs
    dsimp only at hs
    rw [hcount] at hs
    split at hs
    · cases hs
    · rw [if_pos (by decide)] at hs
      cases hs
  | children hk _ _ =>
    rw [hk] at hs
    cases hs
  | predicate hk ha hgrow =>
    obtain ⟨hallowed, slot, hslot, hseen, rfl⟩ := jsonEndKey_predicate hk hcopy
    have hallowed' : ∀ key, some text = some key → keyAllowedForKind f.selector.kind key = true := by
      intro key hkey
      cases hkey
      exact hallowed
    exact ⟨.predicate hk hallowed' (rules.key hgrow hslot hseen), replaces_same rfl (by rw [hk]; decide)⟩
  | any hk _ =>
    rw [hk] at hs
    cases hs

theorem jsonStringEnd_ok {f f' : JsonFrame} {text : Bytes} (ht : IsUtf8 text) (h : f.Ok N G)
    (hs : jsonStringEnd f text = .ok f') : f'.Ok N G ∧ Replaces O f f' := by
  have hcopy := hs
  unfold jsonStringEnd at hs
  dsimp only at hs
  cases h with
  | bare hbare =>
    obtain ⟨hk, -, hp, -⟩ := hbare
    rw [hk, hp] at hs
    cases hs
  | named hnamed hp =>
    obtain ⟨hk, hcount, -, hpayload, hchildren⟩ := hnamed
    obtain ⟨key, hkey⟩ := Option.isSome_iff_exists.mp hp
    rw [hk, hkey] at hs
    dsimp only at hs
    split at hs
    · cases hs
    next hexist =>
    split at hs
    · cases hs
    split at hs
    · cases hs
    next hnul =>
    obtain ⟨p, hfield, rfl⟩ := mapped_ok_iff.mp hs
    rw [hpayload] at hfield
    obtain ⟨field, hf, rfl⟩ := jsonStoreField_ok hfield
    refine ⟨.done hk hcount rfl ?_, replaces_same rfl (by rw [hk]; decide)⟩
    show (withPayload f.selector { field := some field }).Each N
    rw [withPayload, not_not.mp hexist, hchildren]
    exact ⟨rules.exist ht hnul hf, trivial⟩
  | done hk _ hp _ =>
    rw [hk, hp] at hs
    cases hs
  | children hk _ _ =>
    rw [hk] at hs
    cases hs
  | predicate hk ha hgrow => exact stores_ok rules hk hgrow (jsonStringEnd_stores hk ha ht hcopy)
  | any hk hp =>
    rw [hk] at hs
    cases hs
    exact ⟨.any hk hp, rfl, fun _ b ho => rules.push .string ho ht⟩

/-- A scalar is kept by a predicate, or pushed on the values of an `any`. -/
theorem scalar_ok {f f' : JsonFrame} {value : Bytes} (literal : LiteralKind) (h : f.Ok N G)
    (hv : (literal = .number → Number.isJson value = true) → literal.Spells value)
    (hs : (jsonStoreScalar f value literal).map (fun f => { f with pendingKey := none }) = .ok f') :
    f'.Ok N G ∧ Replaces O f f' := by
  have hcopy := hs
  obtain ⟨g, hg, rfl⟩ := mapped_ok_iff.mp hs
  rcases jsonStoreScalar_place hg with hk | hk
  · obtain ⟨ha, hgrow⟩ := h.grows hk
    exact stores_ok rules hk hgrow (jsonStoreScalar_stores hk ha hv hcopy)
  · obtain ⟨rfl, hnumber⟩ := jsonStoreScalar_any hk hg
    exact ⟨.any hk rfl, rfl, fun _ b ho => rules.push literal ho (hv hnumber)⟩

theorem jsonNumberEnd_ok {f f' : JsonFrame} {token : Bytes} (ht : Json.NumberToken token) (h : f.Ok N G)
    (hs : jsonNumberEnd f token = .ok f') : f'.Ok N G ∧ Replaces O f f' := by
  by_cases hk : f.kind = .predicate
  · obtain ⟨ha, hgrow⟩ := h.grows hk
    exact stores_ok rules hk hgrow (jsonNumberEnd_stores hk ha ht hs)
  · unfold jsonNumberEnd at hs
    rw [if_neg (by simp [hk])] at hs
    exact scalar_ok rules .number h (fun hn => hn rfl) hs

theorem jsonBoolean_ok {f f' : JsonFrame} {value : Bool} (h : f.Ok N G) (hs : jsonBoolean f value = .ok f') :
    f'.Ok N G ∧ Replaces O f f' := by
  by_cases hk : f.kind = .predicate
  · obtain ⟨ha, hgrow⟩ := h.grows hk
    exact stores_ok rules hk hgrow (jsonBoolean_stores hk ha hs)
  · unfold jsonBoolean at hs
    rw [if_neg (by simp [hk])] at hs
    refine scalar_ok rules .bool h (fun _ => ?_) hs
    cases value
    · exact .inr rfl
    · exact .inl rfl

theorem jsonNull_ok {f f' : JsonFrame} (h : f.Ok N G) (hs : jsonNull f = .ok f') : f'.Ok N G ∧ Replaces O f f' := by
  unfold jsonNull at hs
  exact scalar_ok rules .null h (fun _ => rfl) hs

/-! ## Brackets -/

omit rules in
theorem innerNode_of_named {f : JsonFrame} (h : f.Named) {kind : SelectorKind} (hk : f.selector.kind = kind) :
    InnerNode N kind f.selector :=
  ⟨hk, h.2.2.2.1, by rw [h.2.2.2.2]; trivial⟩

theorem jsonObjectBegin_ok {s s' : JsonState} (h : StackOk N G O s.frames) (hne : s.frames ≠ [])
    (hs : jsonObjectBegin s = .ok s') : StackOk N G O s'.frames ∧ s'.frames.length = s.frames.length + 1 := by
  unfold jsonObjectBegin at hs
  cases hframes : s.frames with
  | nil => exact absurd hframes hne
  | cons f rest =>
    rw [hframes] at h hs
    dsimp only at hs
    obtain ⟨hok, hrest⟩ := h
    have hfresh : ({ kind := .selector, selector := .leaf .all {} } : JsonFrame).Ok N G := .bare ⟨rfl, rfl, rfl, rfl⟩
    split at hs
    · next hk =>
      cases hs
      exact ⟨⟨hfresh, .element rfl hk hok, hrest⟩, rfl⟩
    split at hs
    · cases hs
    next hnamed =>
    simp only [Bool.or_eq_true, decide_eq_true_eq, not_or, not_not] at hnamed
    obtain ⟨hk, hp⟩ := hnamed
    -- the frame is a selector object whose operator is there
    have hname := hok.waits hk hp
    have hbelow : Rests N G O { f with pendingKey := none } rest :=
      hrest.replace (replaces_same rfl (by rw [hk]; decide))
    split at hs
    · next hnot =>
      cases hs
      exact ⟨⟨hfresh, .negated rfl hname rfl hnot, hbelow⟩, rfl⟩
    split at hs
    · next hpred =>
      cases hs
      simp only [Bool.and_eq_true, decide_eq_true_eq] at hpred
      refine ⟨⟨.predicate rfl (fun key h => by cases h) ?_, .predicate rfl hname rfl, hbelow⟩, rfl⟩
      obtain ⟨-, -, hvalid, hpayload, hchildren⟩ := hname
      cases hsel : f.selector with
      | node kind p children =>
        rw [hsel] at hvalid hpayload hchildren hpred
        obtain rfl : p = {} := hpayload
        obtain rfl : children = [] := hchildren
        refine rules.fresh ?_ hpred.2 fun hne => ?_
        · have hkind := hpred.1
          unfold Selector.isPredicate at hkind
          cases kind <;> simp_all [SelectorKind.isInner, Selector.kind]
        · have hkind : kind = .ne := hne
          rw [hkind] at hvalid
          cases hvalid
    · cases hs

theorem jsonArrayBegin_ok {s s' : JsonState} (h : StackOk N G O s.frames) (hs : jsonArrayBegin s = .ok s') :
    StackOk N G O s'.frames ∧ s'.frames.length = s.frames.length + 1 := by
  unfold jsonArrayBegin at hs
  cases hframes : s.frames with
  | nil =>
    rw [hframes] at hs
    cases hs
  | cons f rest =>
    rw [hframes] at h hs
    dsimp only at hs
    obtain ⟨hok, hrest⟩ := h
    split at hs
    · next hand =>
      simp only [Bool.and_eq_true, Bool.or_eq_true, decide_eq_true_eq] at hand
      obtain ⟨⟨hk, hp⟩, hkind⟩ := hand
      cases hs
      have hname := hok.waits hk fun hnone => by simp [hnone] at hp
      have hbelow : Rests N G O { f with pendingKey := none } rest :=
        hrest.replace (replaces_same rfl (by rw [hk]; decide))
      refine ⟨⟨.children rfl rfl ?_, .children rfl hname rfl, hbelow⟩, rfl⟩
      exact hkind.imp (innerNode_of_named hname) (innerNode_of_named hname)
    split at hs
    · next hany =>
      simp only [Bool.and_eq_true, decide_eq_true_eq] at hany
      cases hs
      have hbelow : Rests N G O { f with pendingKey := none } rest :=
        hrest.replace (replaces_same rfl (by rw [hany.1]; decide))
      obtain ⟨ha, hgrow⟩ := hok.grows hany.1
      cases hp : f.pendingKey with
      | none => simp [hp] at hany
      | some key =>
        have hkey : keyIsAny key = true := by simpa [hp] using hany.2
        have hopen := rules.opens hgrow hp (ha key hp) hkey
        exact ⟨⟨.any rfl rfl, .any rfl hany.1 rfl hopen, hbelow⟩, rfl⟩
    · cases hs

/-- A finished node goes to the frame below, or it is the selector. -/
def Settled (N : SelectorKind → Payload → List Selector → Prop) (G O : JsonFrame → Prop) (s : JsonState) : Prop :=
  StackOk N G O s.frames ∧ (s.frames = [] → s.selector.Each N)

theorem each_of_inner {kind : SelectorKind} {s : Selector} (h : InnerNode N kind s) (hk : kind = .and ∨ kind = .or) :
    s.Each N := by
  obtain ⟨k, p, children⟩ := s
  obtain ⟨rfl, rfl, hc⟩ := h
  exact ⟨rules.joined _ hk, hc⟩

omit rules in
theorem InnerNode.append {kind : SelectorKind} {s child : Selector} (h : InnerNode N kind s) (hc : child.Each N) :
    InnerNode N kind (s.append child) :=
  ⟨by rw [Selector.kind_append]; exact h.kind, by rw [Selector.payload_append]; exact h.payload,
    by rw [Selector.children_append]; exact Selector.eachOf_append h.children ⟨hc, trivial⟩⟩

/-- A frame without its node's last piece is popped: a finished node, or the values of a predicate. -/
theorem jsonPop_ok {s : JsonState} {f : JsonFrame} {below : List JsonFrame} (hrest : Rests N G O f below)
    (hdone : f.kind ≠ .anyArray → f.selector.Each N) :
    Settled N G O (jsonPop s f below) ∧ (jsonPop s f below).frames.length = below.length := by
  cases below with
  | nil =>
    have hk : f.kind = .selector := hrest
    exact ⟨⟨trivial, fun _ => hdone (by rw [hk]; decide)⟩, rfl⟩
  | cons b rest =>
    obtain ⟨hon, hbelow⟩ := hrest
    have hsettled : ∀ selector : Selector, b.kind ≠ .anyArray → { b with selector }.Ok N G →
        Settled N G O { s with frames := { b with selector } :: rest } :=
      fun selector hne hok => ⟨⟨hok, hbelow.replace (replaces_same rfl hne)⟩, fun h => by cases h⟩
    refine ⟨?_, rfl⟩
    unfold jsonPop
    dsimp only
    cases hon with
    | element hf hb hok =>
      rw [if_pos hf]
      have hwf := hdone (by rw [hf]; decide)
      obtain ⟨hp, hinner⟩ := hok.inner hb
      exact hsettled _ (by rw [hb]; decide) (.children hb hp (hinner.imp (·.append hwf) (·.append hwf)))
    | negated hf hb hp hnot =>
      rw [if_pos hf]
      have hwf := hdone (by rw [hf]; decide)
      refine hsettled _ (by rw [hb.1]; decide) (.done hb.1 hb.2.1 hp ?_)
      have hinner := (innerNode_of_named (N := N) hb hnot).append hwf
      have hone : (b.selector.append f.selector).children = [f.selector] := by
        rw [Selector.children_append, hb.2.2.2.2]
        rfl
      generalize b.selector.append f.selector = node at hinner hone
      obtain ⟨k, p, children⟩ := node
      obtain ⟨rfl, rfl, hc⟩ := hinner
      obtain rfl : children = [f.selector] := hone
      exact ⟨rules.negated _, hc⟩
    | children hf hb hp =>
      rw [if_neg (by rw [hf]; decide)]
      exact hsettled _ (by rw [hb.1]; decide) (.done hb.1 hb.2.1 hp (hdone (by rw [hf]; decide)))
    | predicate hf hb hp =>
      rw [if_neg (by rw [hf]; decide)]
      exact hsettled _ (by rw [hb.1]; decide) (.done hb.1 hb.2.1 hp (hdone (by rw [hf]; decide)))
    | any hf hb hp ho =>
      rw [if_neg (by rw [hf]; decide)]
      exact hsettled _ (by rw [hb]; decide) (.predicate hb (fun key h => by rw [show b.pendingKey = none from hp] at h; cases h) (rules.closes ho))

theorem jsonArrayEnd_ok {s s' : JsonState} (h : StackOk N G O s.frames) (hs : jsonArrayEnd s = .ok s') :
    Settled N G O s' ∧ s'.frames.length + 1 = s.frames.length := by
  unfold jsonArrayEnd at hs
  cases hframes : s.frames with
  | nil =>
    rw [hframes] at hs
    cases hs
  | cons f rest =>
    rw [hframes] at h hs
    dsimp only at hs
    obtain ⟨hok, hrest⟩ := h
    split at hs
    · cases hs
    next hk =>
    cases hs
    have hkind : f.kind = .childArray ∨ f.kind = .anyArray := by
      by_cases hc : f.kind = .childArray
      · exact .inl hc
      · exact .inr (by simpa [hc] using hk)
    have hdone : f.kind ≠ .anyArray → f.selector.Each N := by
      intro hne
      rcases (hok.inner (hkind.resolve_right hne)).2 with hinner | hinner
      · exact each_of_inner rules hinner (.inl rfl)
      · exact each_of_inner rules hinner (.inr rfl)
    obtain ⟨hsettled, hlen⟩ := jsonPop_ok rules (s := s) hrest hdone
    exact ⟨hsettled, congrArg (· + 1) hlen⟩

theorem jsonEndSelector_ok {f : JsonFrame} {s : Selector} (h : f.Bare ∨ f.keyCount = 1 ∧ f.selector.Each N)
    (hs : jsonEndSelector f = .ok s) : s.Each N := by
  unfold jsonEndSelector at hs
  dsimp only at hs
  rcases h with ⟨-, hcount, -, hsel⟩ | ⟨hcount, hwf⟩
  · rw [if_pos hcount, hsel] at hs
    split at hs
    · cases hs
    · cases hs
      exact ⟨rules.all, trivial⟩
  · have hne : ¬ f.keyCount = 0 := by
      rw [hcount]
      decide
    rw [if_neg hne] at hs
    split at hs
    · cases hs
    · cases hs
      exact hwf

theorem jsonObjectEnd_ok {s s' : JsonState} (h : StackOk N G O s.frames) (hs : jsonObjectEnd s = .ok s') :
    Settled N G O s' ∧ s'.frames.length + 1 = s.frames.length := by
  unfold jsonObjectEnd at hs
  cases hframes : s.frames with
  | nil =>
    rw [hframes] at hs
    cases hs
  | cons f rest =>
    rw [hframes] at h hs
    dsimp only at hs
    obtain ⟨hok, hrest⟩ := h
    split at hs
    · cases hs
    next hkind =>
    split at hs
    · cases hs
    next hpending =>
    have hp : f.pendingKey = none := not_not.mp hpending
    have hnode : ∀ node : Selector, node.Each N → f.kind ≠ .anyArray →
        Settled N G O (jsonPop s { f with selector := node } rest) ∧
          (jsonPop s { f with selector := node } rest).frames.length + 1 = (f :: rest).length := by
      intro node hwf hne
      obtain ⟨hsettled, hlen⟩ := jsonPop_ok rules (s := s) (f := { f with selector := node })
        (hrest.replace (replaces_same rfl hne)) fun _ => hwf
      exact ⟨hsettled, congrArg (· + 1) hlen⟩
    by_cases hk : f.kind = .selector
    · rw [if_pos hk] at hs
      cases hend : jsonEndSelector f with
      | error e =>
        rw [hend] at hs
        cases hs
      | ok node =>
        rw [hend] at hs
        cases hs
        exact hnode node (jsonEndSelector_ok rules (hok.rests hk hp) hend) (by rw [hk]; decide)
    · have hk' : f.kind = .predicate := by simpa [hk] using hkind
      rw [if_neg hk] at hs
      cases hend : jsonEndPredicate f with
      | error e =>
        rw [hend] at hs
        cases hs
      | ok node =>
        rw [hend] at hs
        cases hs
        exact hnode node (rules.finish (hok.grows hk').2 hend) (by rw [hk']; decide)

/-! ## Values -/

/-- The machine before a value: it is in the midst of a selector, or at its beginning. -/
def Fit (N : SelectorKind → Payload → List Selector → Prop) (G O : JsonFrame → Prop) (s : JsonState) : Prop :=
  StackOk N G O s.frames ∧ (s.frames = [] → s = {})

omit rules in
theorem fit_of_frames {s : JsonState} (h : StackOk N G O s.frames) (hne : s.frames ≠ []) : Fit N G O s :=
  ⟨h, fun hnil => absurd hnil hne⟩

theorem jsonObjectBegin_fit {s s' : JsonState} (h : Fit N G O s) (hs : jsonObjectBegin s = .ok s') :
    StackOk N G O s'.frames ∧ s'.frames.length = s.frames.length + 1 := by
  by_cases hne : s.frames = []
  · cases h.2 hne
    cases hs
    exact ⟨⟨.bare ⟨rfl, rfl, rfl, rfl⟩, rfl⟩, rfl⟩
  · exact jsonObjectBegin_ok rules h.1 hne hs

/-- What is left behind a value: as many frames as before it. -/
def Kept (N : SelectorKind → Payload → List Selector → Prop) (G O : JsonFrame → Prop) (s s' : JsonState) : Prop :=
  Settled N G O s' ∧ s'.frames.length = s.frames.length

omit rules in
theorem kept_flat {s s' : JsonState} {empty : String} {act : JsonFrame → Except Err JsonFrame}
    (h : StackOk N G O s.frames) (hact : ∀ f f', f.Ok N G → act f = .ok f' → f'.Ok N G ∧ Replaces O f f')
    (hs : jsonOnTop s empty act = .ok s') : Kept N G O s s' := by
  obtain ⟨hstack, hlen, hne⟩ := jsonOnTop_ok h hact hs
  exact ⟨⟨hstack, fun hnil => absurd hnil hne⟩, hlen⟩

omit rules in
theorem frames_ne_nil {s : JsonState} {n : Nat} (h : s.frames.length = n + 1) : s.frames ≠ [] :=
  List.ne_nil_of_length_pos (by omega)

mutual

/-- **A value leaves the stack as it found it.** -/
theorem replay_kept : ∀ (v : Value) {text : Bytes} {s s' : JsonState}, v.Writes text → Fit N G O s →
    replay v s = .ok s' → Kept N G O s s'
  | .obj members, text, s, s', hv, h, hs => by
    obtain ⟨w, t, -, -, ht⟩ := hv
    rw [replay] at hs
    obtain ⟨s1, hbegin, hs⟩ := bind_ok_iff.mp hs
    obtain ⟨s2, hmembers, hend⟩ := bind_ok_iff.mp hs
    obtain ⟨hstack, hlen⟩ := jsonObjectBegin_fit rules h hbegin
    obtain ⟨hsettled, hlen2⟩ := replayMembers_kept members ht hstack (frames_ne_nil hlen) hmembers
    obtain ⟨hdone, hlen3⟩ := jsonObjectEnd_ok rules hsettled hend
    exact ⟨hdone, by omega⟩
  | .arr elements, text, s, s', hv, h, hs => by
    obtain ⟨w, t, -, -, ht⟩ := hv
    rw [replay] at hs
    obtain ⟨s1, hbegin, hs⟩ := bind_ok_iff.mp hs
    obtain ⟨s2, helements, hend⟩ := bind_ok_iff.mp hs
    obtain ⟨hstack, hlen⟩ := jsonArrayBegin_ok rules h.1 hbegin
    obtain ⟨hsettled, hlen2⟩ := replayElements_kept elements ht hstack (frames_ne_nil hlen) helements
    obtain ⟨hdone, hlen3⟩ := jsonArrayEnd_ok rules hsettled hend
    exact ⟨hdone, by omega⟩
  | .str t, text, s, s', hv, h, hs => by
    rw [replay] at hs
    exact kept_flat h.1 (fun _ _ => jsonStringEnd_ok rules (text_isUtf8 hv.2)) hs
  | .num token, text, s, s', hv, h, hs => by
    rw [replay] at hs
    exact kept_flat h.1 (fun _ _ => jsonNumberEnd_ok rules hv.2) hs
  | .lit .tt, text, s, s', _, h, hs => by
    rw [replay] at hs
    exact kept_flat h.1 (fun _ _ => jsonBoolean_ok rules) hs
  | .lit .ff, text, s, s', _, h, hs => by
    rw [replay] at hs
    exact kept_flat h.1 (fun _ _ => jsonBoolean_ok rules) hs
  | .lit .nul, text, s, s', _, h, hs => by
    rw [replay] at hs
    exact kept_flat h.1 (fun _ _ => jsonNull_ok rules) hs

theorem replayMembers_kept : ∀ (ms : Members) {first : Bool} {text : Bytes} {s s' : JsonState}, ms.Writes first text →
    StackOk N G O s.frames → s.frames ≠ [] → replayMembers ms s = .ok s' →
      StackOk N G O s'.frames ∧ s'.frames.length = s.frames.length
  | .nil, first, text, s, s', _, h, _, hs => by
    cases hs
    exact ⟨h, rfl⟩
  | .cons key v rest, first, text, s, s', hms, h, hne, hs => by
    obtain ⟨lead, w1, w2, tv, w3, t, -, -, hkey, -, -, hv, -, ht⟩ := hms
    rw [replayMembers] at hs
    obtain ⟨s1, hstep, hs⟩ := bind_ok_iff.mp hs
    obtain ⟨s2, hvalue, hs⟩ := bind_ok_iff.mp hs
    obtain ⟨hstack1, hlen1, hne1⟩ := jsonOnTop_ok h (fun _ _ => jsonEndKey_ok rules) hstep
    obtain ⟨hsettled, hlen2⟩ := replay_kept v hv (fit_of_frames hstack1 hne1) hvalue
    have hne2 : s2.frames ≠ [] := by
      rw [← List.length_pos_iff_ne_nil, hlen2]
      exact List.length_pos_of_ne_nil hne1
    obtain ⟨hstack3, hlen3⟩ := replayMembers_kept rest ht hsettled.1 hne2 hs
    exact ⟨hstack3, by omega⟩

theorem replayElements_kept : ∀ (es : Elements) {first : Bool} {text : Bytes} {s s' : JsonState}, es.Writes first text →
    StackOk N G O s.frames → s.frames ≠ [] → replayElements es s = .ok s' →
      StackOk N G O s'.frames ∧ s'.frames.length = s.frames.length
  | .nil, first, text, s, s', _, h, _, hs => by
    cases hs
    exact ⟨h, rfl⟩
  | .cons v rest, first, text, s, s', hes, h, hne, hs => by
    obtain ⟨lead, tv, w, t, -, -, hv, -, ht⟩ := hes
    rw [replayElements] at hs
    obtain ⟨s2, hvalue, hs⟩ := bind_ok_iff.mp hs
    obtain ⟨hsettled, hlen2⟩ := replay_kept v hv (fit_of_frames h hne) hvalue
    have hne2 : s2.frames ≠ [] := by
      rw [← List.length_pos_iff_ne_nil, hlen2]
      exact List.length_pos_of_ne_nil hne
    obtain ⟨hstack3, hlen3⟩ := replayElements_kept rest ht hsettled.1 hne2 hs
    exact ⟨hstack3, by omega⟩

end

/-- **What the machine's steps respect holds of every selector that is accepted as JSON.** -/
theorem parseSelectorJson_each {json : Bytes} {s : Selector} (h : parseSelectorJson json = .ok s) : s.Each N := by
  obtain ⟨v, w, text, w', -, -, -, hv, hreplay⟩ := parseSelectorJson_document h
  obtain ⟨hsettled, -⟩ := replay_kept rules v (s := {}) hv ⟨trivial, fun _ => rfl⟩ hreplay
  exact hsettled.2 rfl

end Walk

end Lql.Selector
