import Lql.Json.Closing
import Lql.Mutation.Keys

/-!
# A value is passed over to its end

In a record without spaces, `lql_flat_eq_skip_value` comes out behind the value that begins where it
starts: behind the closing quote of a string, in front of what follows a number or a literal, behind the
last bracket of an object or an array.
-/

namespace Lql.Mutation

open Json (Separates Stands Value closing closing_scan isClose isOpen scan_raw)
open Lib (Ends)
open Spool (Fate Holds Reliable SpoolM Stopped StringEndAt byteAt byteAt_here findStringEnd findStringEnd_ends
  refuse_bind stringEnd stringScan stringScan_append)

variable {fate : Fate} {bytes : Bytes}

/-! ## The bytes in front of the end -/

/-- The bytes from `offset` up to `stop`. -/
def window (bytes : Bytes) (offset stop : Nat) : Bytes := (bytes.drop offset).take (stop - offset)

theorem window_drop (bytes : Bytes) (offset stop k : Nat) :
    (window bytes offset stop).drop k = window bytes (offset + k) stop := by
  rw [window, List.drop_take, List.drop_drop, window, Nat.sub_sub]

/-- What the first byte in front of the end tells. -/
theorem window_cons {offset stop : Nat} {c : UInt8} {text : Bytes} (h : window bytes offset stop = c :: text) :
    offset < stop ∧ (∃ rest, bytes.drop offset = c :: rest) ∧ window bytes (offset + 1) stop = text := by
  have htail := window_drop bytes offset stop 1
  rw [h] at htail
  refine ⟨?_, ?_, htail.symm⟩
  · rcases Nat.lt_or_ge offset stop with hlt | hge
    · exact hlt
    · rw [window, Nat.sub_eq_zero_of_le hge, List.take_zero] at h
      cases h
  · rw [window] at h
    cases hdrop : bytes.drop offset with
    | nil =>
      rw [hdrop, List.take_nil] at h
      cases h
    | cons d rest =>
      rw [hdrop] at h
      refine ⟨rest, ?_⟩
      cases hn : stop - offset with
      | zero =>
        rw [hn] at h
        cases h
      | succ n =>
        rw [hn, List.take_succ_cons] at h
        rw [(List.cons.inj h).1]

/-- Bytes that lie in front of the end are there. -/
theorem window_eq {offset stop : Nat} {text behind : Bytes} (h : bytes.drop offset = text ++ behind)
    (hstop : offset + text.length ≤ stop) :
    window bytes offset stop = text ++ behind.take (stop - (offset + text.length)) := by
  rw [window, h, List.take_append, List.take_of_length_le (by omega), Nat.sub_sub]

/-! ## Strings -/

theorem skipString_ends {offset stop k : Nat} {text : Bytes} (hstop : stop ≤ bytes.length)
    (h : window bytes offset stop = chQuote :: text) (hk : (stringScan text false).1 = some k) :
    Ends (Holds bytes) (skipString fate offset stop) (fun i s => Holds bytes s ∧ i = offset + 1 + k)
      (Stopped fate bytes) := by
  obtain ⟨hlt, ⟨rest, hdrop⟩, htext⟩ := window_cons h
  have hend : StringEndAt bytes offset stop (offset + 1 + k) := by
    refine ⟨by rw [← List.head?_drop, hdrop, List.head?_cons], ?_⟩
    rw [stringEnd, ← window, htext, hk]
    rfl
  unfold skipString
  refine refuse_bind _ (fun hbad => absurd hlt (Nat.not_lt.mpr hbad)) fun _ => ?_
  refine Ends.stops ((findStringEnd_ends offset stop).weaken (fun _ hs => hs) fun i s hs => ⟨hs.1, ?_⟩)
    fun _ _ hstopped => ⟨hstopped.1, hstopped.2 hstop ⟨_, hend⟩⟩
  exact Option.some.inj (hs.2.2.symm.trans hend.2)

/-! ## Numbers and literals -/

/-- Where the first separator is, or the end. -/
theorem skipScalar_ends {stop : Nat} : ∀ {text behind : Bytes} {offset : Nat},
    window bytes offset stop = text ++ behind → offset + text.length ≤ stop → (∀ c ∈ text, ¬ Separates c) →
    (behind = [] → offset + text.length = stop) → (∀ c rest, behind = c :: rest → Separates c) →
    Ends (Holds bytes) (skipScalar fate stop offset) (fun i s => Holds bytes s ∧ i = offset + text.length)
      (Stopped fate bytes)
  | [], [], offset, _, _, _, hend, _ => by
    rw [skipScalar, dif_neg (by have := hend rfl; simp at this; omega)]
    exact Ends.pure fun s hs => ⟨hs, rfl⟩
  | [], c :: behind, offset, h, _, _, _, hsep => by
    obtain ⟨hlt, ⟨rest, hdrop⟩, -⟩ := window_cons h
    rw [skipScalar, dif_pos hlt]
    refine (byteAt_here hdrop).bind fun b => Ends.of_fact fun hb => ?_
    rw [hb]
    exact Ends.ite (fun _ => Ends.pure fun s hs => ⟨hs, rfl⟩) fun hother => absurd (hsep c behind rfl) hother
  | c :: text, behind, offset, h, hle, hno, hend, hsep => by
    obtain ⟨hlt, ⟨rest, hdrop⟩, htext⟩ := window_cons h
    obtain ⟨hc, htext'⟩ := List.forall_mem_cons.mp hno
    rw [List.length_cons] at hle hend ⊢
    rw [skipScalar, dif_pos hlt]
    refine (byteAt_here hdrop).bind fun b => Ends.of_fact fun hb => ?_
    rw [hb]
    refine Ends.ite (fun hsep => absurd hsep hc) fun _ => ?_
    refine (skipScalar_ends htext (by omega) htext' (fun hnil => by have := hend hnil; omega) hsep).weaken
      (fun _ hs => hs) fun i s hs => ⟨hs.1, ?_⟩
    rw [hs.2]
    omega

/-! ## Objects and arrays -/

/-- **The loop counts**: it ends where the count does. -/
theorem skipNested_ends {stop : Nat} (hstop : stop ≤ bytes.length) : ∀ (fuel : Nat) {depth offset n : Nat},
    closing .outside depth (window bytes offset stop) = some n → stop ≤ offset + fuel →
    Ends (Holds bytes) (skipNested fate stop fuel depth offset) (fun i s => Holds bytes s ∧ i = offset + n)
      (Stopped fate bytes) := by
  intro fuel
  induction fuel with
  | zero =>
    intro depth offset n h hfuel
    rw [window, Nat.sub_eq_zero_of_le (by omega), List.take_zero] at h
    cases h
  | succ fuel ih =>
    intro depth offset n h hfuel
    cases hw : window bytes offset stop with
    | nil =>
      rw [hw] at h
      cases h
    | cons c text =>
      rw [hw] at h
      obtain ⟨hlt, ⟨rest, hdrop⟩, htext⟩ := window_cons hw
      -- a round that goes on behind `k` bytes
      have next : ∀ {depth' k m : Nat}, closing .outside depth' (window bytes (offset + k) stop) = some m → 0 < k →
          n = m + k → Ends (Holds bytes) (skipNested fate stop fuel depth' (offset + k))
            (fun i s => Holds bytes s ∧ i = offset + n) (Stopped fate bytes) := fun hrest hpos hn =>
        (ih hrest (by omega)).weaken (fun _ hs => hs) fun i s hs => ⟨hs.1, by rw [hs.2]; omega⟩
      rw [skipNested, if_pos hlt]
      refine (byteAt_here hdrop).bind fun b => Ends.of_fact fun hb => ?_
      rw [closing] at h
      rw [hb]
      by_cases hq : c = chQuote
      · rw [if_pos hq] at h ⊢
        rw [hq] at hw
        obtain ⟨m, hm, rfl⟩ := Option.map_eq_some_iff.mp h
        have hscan := closing_scan text depth false
        rw [if_neg Bool.false_ne_true, hm] at hscan
        obtain ⟨k, hk, hrest⟩ := Option.bind_eq_some_iff.mp hscan.symm
        obtain ⟨m', hm', rfl⟩ := Option.map_eq_some_iff.mp hrest
        refine (skipString_ends hstop hw hk).bind fun i => Ends.of_fact fun hi => ?_
        rw [hi, Nat.add_assoc]
        rw [← htext, window_drop, Nat.add_assoc] at hm'
        exact next hm' (by omega) (by omega)
      rw [if_neg hq] at h ⊢
      rw [← htext] at h
      by_cases ho : isOpen c = true
      · rw [if_pos ho] at h
        rw [if_pos (by simpa [isOpen] using ho)]
        obtain ⟨m, hm, rfl⟩ := Option.map_eq_some_iff.mp h
        exact next hm Nat.one_pos rfl
      rw [if_neg ho] at h
      rw [if_neg (by simpa [isOpen] using ho)]
      by_cases hc : isClose c = true
      · rw [if_pos hc] at h
        rw [if_pos (by simpa [isClose] using hc)]
        by_cases hzero : depth = 0
        · rw [if_pos hzero] at h
          cases h
        rw [if_neg hzero] at h ⊢
        by_cases hone : depth - 1 = 0
        · rw [if_pos hone] at h ⊢
          cases h
          exact Ends.pure fun s hs => ⟨hs, rfl⟩
        · rw [if_neg hone] at h ⊢
          obtain ⟨m, hm, rfl⟩ := Option.map_eq_some_iff.mp h
          exact next hm Nat.one_pos rfl
      · rw [if_neg hc] at h
        rw [if_neg (by simpa [isClose] using hc)]
        obtain ⟨m, hm, rfl⟩ := Option.map_eq_some_iff.mp h
        exact next hm Nat.one_pos rfl

/-! ## Values -/

/-- What holds of the bytes up to the end holds up to an earlier end. -/
theorem separates_take {behind : Bytes} (h : behind = [] ∨ ∃ c rest, behind = c :: rest ∧ Separates c) (n : Nat) :
    ∀ c rest, behind.take n = c :: rest → Separates c := by
  intro c rest htake
  rcases h with rfl | ⟨d, r, rfl, hd⟩
  · rw [List.take_nil] at htake
    cases htake
  · cases n with
    | zero => cases htake
    | succ n =>
      rw [List.take_succ_cons] at htake
      exact (List.cons.inj htake).1 ▸ hd

/-- A number or a literal. -/
theorem skipValue_scalar {text behind : Bytes} {offset stop : Nat} (hdrop : bytes.drop offset = text ++ behind)
    (hin : offset + text.length ≤ stop) (hstop : stop ≤ offset + text.length + behind.length) (hne : text ≠ [])
    (hdull : ∀ c ∈ text, Json.isDull c = true) (hno : ∀ c ∈ text, ¬ Separates c)
    (hbehind : behind = [] ∨ ∃ c rest, behind = c :: rest ∧ Separates c) :
    Ends (Holds bytes) (skipValue fate offset stop) (fun i s => Holds bytes s ∧ i = offset + text.length)
      (Stopped fate bytes) := by
  obtain ⟨c, t, rfl⟩ := List.exists_cons_of_ne_nil hne
  have hc := hdull c List.mem_cons_self
  simp only [Json.isDull, Bool.and_eq_true, decide_eq_true_eq, Bool.not_eq_true', isOpen, Bool.or_eq_false_iff,
    decide_eq_false_iff_not] at hc
  have hlt : offset < stop := by
    rw [List.length_cons] at hin
    omega
  unfold skipValue
  refine refuse_bind _ (fun hbad => absurd hlt (Nat.not_lt.mpr hbad)) fun _ => ?_
  refine (byteAt_here hdrop).bind fun b => Ends.of_fact fun hb => ?_
  rw [hb, if_neg hc.1.1.1, if_pos hc.1.2]
  refine skipScalar_ends (window_eq hdrop hin) hin hno (fun hnil => ?_) (separates_take hbehind _)
  have hlen := congrArg List.length hnil
  rw [List.length_take, List.length_nil] at hlen
  omega

/-- An object or an array. -/
theorem skipValue_container {u : Value} {behind : Bytes} {offset stop : Nat} (hw : u.Writes u.compact)
    (hdrop : bytes.drop offset = u.compact ++ behind) (hin : offset + u.compact.length ≤ stop)
    (hstop : stop ≤ bytes.length) {c : UInt8} {text : Bytes} (htext : u.compact = c :: text) (hopen : isOpen c = true) :
    Ends (Holds bytes) (skipValue fate offset stop) (fun i s => Holds bytes s ∧ i = offset + u.compact.length)
      (Stopped fate bytes) := by
  have hlt : offset < stop := by
    rw [htext, List.length_cons] at hin
    omega
  have hcloses := Value.closes hw (behind.take (stop - (offset + u.compact.length))) htext hopen
  rw [← window_eq hdrop hin] at hcloses
  rw [htext] at hdrop
  unfold skipValue
  refine refuse_bind _ (fun hbad => absurd hlt (Nat.not_lt.mpr hbad)) fun _ => ?_
  refine (byteAt_here hdrop).bind fun b => Ends.of_fact fun hb => ?_
  rw [hb]
  simp only [isOpen, Bool.or_eq_true, decide_eq_true_eq] at hopen
  refine Ends.ite (fun hq => ?_) fun _ => Ends.ite (fun hother => ?_) fun _ => ?_
  · rcases hopen with rfl | rfl <;> exact absurd hq (by decide)
  · rcases hopen with rfl | rfl
    · exact absurd rfl hother.1
    · exact absurd rfl hother.2
  · exact skipNested_ends hstop (stop - offset) hcloses (by omega)

theorem token_ne_nil {token : Bytes} (h : Json.NumberToken token) : token ≠ [] := by
  obtain ⟨sign, int, fraction, exponent, rfl, hp⟩ := h
  rcases hp.int with rfl | ⟨c, rest, rfl, -, -⟩ <;> simp

/-- A value that stands in front of the end is passed over, unless the outside stops it. -/
theorem skipValue_ends {u : Value} {behind : Bytes} {offset stop : Nat} (h : Stands bytes offset u behind)
    (hin : offset + u.compact.length ≤ stop) (hstop : stop ≤ bytes.length) :
    Ends (Holds bytes) (skipValue fate offset stop) (fun i s => Holds bytes s ∧ i = offset + u.compact.length)
      (Stopped fate bytes) := by
  obtain ⟨hdrop, hlen, hw, hbehind⟩ := h
  cases u with
  | obj members => exact skipValue_container hw hdrop hin hstop rfl rfl
  | arr elements => exact skipValue_container hw hdrop hin hstop rfl rfl
  | str s =>
    obtain ⟨-, hs⟩ := hw
    have hquoted : (Value.str s).compact.length = s.raw.length + 2 := by
      simp [Value.compact, Json.Str.quoted]
    have hwindow : window bytes offset stop = chQuote :: (s.raw ++ chQuote ::
        behind.take (stop - (offset + (Value.str s).compact.length))) := by
      rw [window_eq hdrop hin]
      simp [Value.compact, Json.Str.quoted]
    obtain ⟨hlt, ⟨rest, hquote⟩, -⟩ := window_cons hwindow
    unfold skipValue
    refine refuse_bind _ (fun hbad => absurd hlt (Nat.not_lt.mpr hbad)) fun _ => ?_
    refine (byteAt_here hquote).bind fun b => Ends.of_fact fun hb => ?_
    rw [hb, if_pos rfl]
    refine (skipString_ends hstop hwindow (Json.scan_quoted hs _)).weaken (fun _ ht => ht) fun i t ht => ⟨ht.1, ?_⟩
    rw [ht.2, hquoted]
    omega
  | num token =>
    obtain ⟨-, ht⟩ := hw
    exact skipValue_scalar hdrop hin (by omega) (token_ne_nil ht) (Json.number_dull ht) (Json.number_together ht) hbehind
  | lit l =>
    exact skipValue_scalar hdrop hin (by omega) (by cases l <;> exact List.cons_ne_nil _ _) (Json.literal_dull l)
      (Json.literal_together l) hbehind

/-- **A value is passed over to its end.** In a spool that holds a document without spaces, from every offset at
which one of its values begins, the offset behind that value is reached, and the operation succeeds. -/
theorem skipValue_spot {s : Spool.Spool} {doc u : Value} {text : Bytes} {o stop : Nat} (hdoc : doc.Writes text)
    (hs : Holds doc.compact s) (hfate : Reliable fate doc.compact.length) (hspot : Value.Spot doc o u)
    (hin : o + u.compact.length ≤ stop) (hstop : stop ≤ doc.compact.length) :
    ∃ t, skipValue fate o stop s = .ok (o + u.compact.length) t ∧ Holds doc.compact t := by
  obtain ⟨behind, hstands⟩ := doc.spot_stands hdoc hspot
  obtain ⟨i, t, hrun, ht, rfl⟩ := (skipValue_ends hstands hin hstop).total hs fun _ _ hstopped => hstopped.2 hfate
  exact ⟨t, hrun, ht⟩

/-- An array with a string that holds a closing bracket. -/
theorem skipValue_spot_bracket :
    ∃ t, skipValue (fun _ => none) 0 5
        { memory := [chLBracket, chQuote, chRBracket, chQuote, chRBracket], size := 5 } = .ok 5 t ∧
      Holds [chLBracket, chQuote, chRBracket, chQuote, chRBracket] t := by
  have hok : Json.Str.Ok [.plain chRBracket] := List.forall_mem_singleton.mpr (.plain (by decide))
  have hdoc : (Value.arr (.cons (.str [.plain chRBracket]) .nil)).Writes
      [chLBracket, chQuote, chRBracket, chQuote, chRBracket] :=
    ⟨[], _, rfl, Json.spaces_nil, [], _, [], _, rfl, rfl, ⟨rfl, hok⟩, Json.spaces_nil, rfl⟩
  exact skipValue_spot hdoc (Spool.holds_memory (by decide)) ⟨fun _ => rfl, by decide⟩ (.here _) (by decide) (by decide)

end Lql.Mutation
