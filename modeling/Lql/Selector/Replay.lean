import Lql.Json.Lexer
import Lql.Json.Records
import Lql.Selector.Clauses
import Lql.Selector.Tokens

/-!
# What the selector scanner reads

The scanner walks over the text and reports as it goes, so that what it accepts depends on the text and on the machine
that it reports to. The two are taken apart here: a text is accepted exactly when it is a document of the grammar, and the
machine accepts what that document has to report.
-/

namespace Lql.Selector

open Json (Value Members Elements Str Spaces Stops Goes Lead dropWhile_spaces)

mutual

/-- What is reported of a value. -/
def replay : Value → JsonState → Except Err JsonState
  | .obj members, s => do
    let s ← jsonStep s .objectBegin
    let s ← replayMembers members s
    jsonStep s .objectEnd
  | .arr elements, s => do
    let s ← jsonStep s .arrayBegin
    let s ← replayElements elements s
    jsonStep s .arrayEnd
  | .str t, s => jsonStep s (.string t.text)
  | .num token, s => jsonStep s (.number token)
  | .lit .tt, s => jsonStep s (.boolean true)
  | .lit .ff, s => jsonStep s (.boolean false)
  | .lit .nul, s => jsonStep s .null

/-- What is reported of the members, between the braces. -/
def replayMembers : Members → JsonState → Except Err JsonState
  | .nil, s => .ok s
  | .cons key value rest, s => do
    let s ← jsonStep s (.key key.text)
    let s ← replay value s
    replayMembers rest s

/-- What is reported of the elements, between the brackets. -/
def replayElements : Elements → JsonState → Except Err JsonState
  | .nil, s => .ok s
  | .cons value rest, s => do
    let s ← replay value s
    replayElements rest s

end

theorem mapped_ok_iff {α β : Type} {x : Except Err α} {f : α → β} {b : β} : x.map f = .ok b ↔ ∃ a, x = .ok a ∧ f a = b := by
  cases x with
  | error e => simp [Except.map]
  | ok a => simp [Except.map]

theorem ok_then {α β : Type} (a : α) (f : α → Except Err β) : (.ok a >>= f) = f a := rfl

/-- What the white space in front is. -/
theorem ws_split (input : Bytes) : ∃ w, Spaces w ∧ input = w ++ jsonScanWs input :=
  ⟨input.takeWhile Scan.isSpace, fun _ hc => List.mem_takeWhile_imp hc, (List.takeWhile_append_dropWhile).symm⟩

theorem spaces_append {v w : Bytes} (hv : Spaces v) (hw : Spaces w) : Spaces (v ++ w) := by
  intro c hc
  rcases List.mem_append.mp hc with h | h
  · exact hv c h
  · exact hw c h

/-! ## What is accepted is a document -/

theorem members_later {ms : Members} {w t : Bytes} (hw : Spaces w) (h : ms.Writes true t) (hne : ms.isNil = false) :
    ms.Writes false (chComma :: (w ++ t)) := by
  cases ms with
  | nil => cases hne
  | cons key v rest =>
    obtain ⟨lead, w1, w2, tv, w3, t, rfl, hlead, hrest⟩ := h
    rw [show lead = [] from hlead]
    exact ⟨chComma :: w, w1, w2, tv, w3, t, rfl, ⟨w, hw, rfl⟩, hrest⟩

theorem elements_later {es : Elements} {w t : Bytes} (hw : Spaces w) (h : es.Writes true t) (hne : es.isNil = false) :
    es.Writes false (chComma :: (w ++ t)) := by
  cases es with
  | nil => cases hne
  | cons v rest =>
    obtain ⟨lead, tv, w3, t, rfl, hlead, hrest⟩ := h
    rw [show lead = [] from hlead]
    exact ⟨chComma :: w, tv, w3, t, rfl, ⟨w, hw, rfl⟩, hrest⟩

theorem matchLiteral_some {literal input rest : Bytes} (h : jsonMatchLiteral literal input = some rest) :
    input = literal ++ rest := by
  unfold jsonMatchLiteral at h
  split at h
  · next htake =>
    cases h
    calc input = input.take literal.length ++ input.drop literal.length := (List.take_append_drop _ _).symm
      _ = literal ++ input.drop literal.length := by rw [htake]
  · cases h

theorem matchLiteral_append (literal rest : Bytes) : jsonMatchLiteral literal (literal ++ rest) = some rest := by
  rw [jsonMatchLiteral, List.take_left, if_pos rfl, List.drop_left]

/-- The byte that `headD` finds is there. -/
theorem cons_of_headD {input : Bytes} {c : UInt8} (hc : c ≠ 0) (h : input.headD 0 = c) : input = c :: input.drop 1 := by
  cases input with
  | nil => exact absurd h.symm hc
  | cons d rest =>
    cases h
    rfl

mutual

/-- **What the scanner reads is a document, and what it reports is what the document has to report.** -/
theorem jsonScanValue_sound : ∀ {fuel : Nat} {s s' : JsonState} {input rest : Bytes},
    jsonScanValue fuel s input = .ok (s', rest) →
      ∃ v w text, Spaces w ∧ input = w ++ (text ++ rest) ∧ v.Writes text ∧ replay v s = .ok s'
  | 0, s, s', input, rest, h => by
    rw [jsonScanValue] at h
    cases h
  | fuel + 1, s, s', input, rest, h => by
    obtain ⟨w, hw, hinput⟩ := ws_split input
    rw [jsonScanValue] at h
    dsimp only at h
    split at h
    · cases h
    next c tail htail =>
    rw [htail] at hinput h
    split at h
    · next hc =>
      subst hc
      obtain ⟨s1, hbegin, h⟩ := bind_ok_iff.mp h
      obtain ⟨w1, hw1, hrest⟩ := ws_split tail
      split at h
      · next hclose =>
        obtain ⟨s2, hend, hs⟩ := mapped_ok_iff.mp h
        cases hs
        generalize jsonScanWs tail = closing at hclose hrest
        rw [cons_of_headD (by decide) hclose] at hrest
        refine ⟨.obj .nil, w, chLBrace :: (w1 ++ [chRBrace]), hw, ?_, ⟨w1, _, rfl, hw1, rfl⟩, ?_⟩
        · rw [hinput, hrest]
          simp
        · rw [replay, hbegin]
          exact hend
      · obtain ⟨ms, t, hne, ht, hms, s2, hreplay, hend⟩ := jsonScanMembers_sound h
        refine ⟨.obj ms, w, chLBrace :: (w1 ++ t), hw, ?_, ⟨w1, t, rfl, hw1, hms⟩, ?_⟩
        · rw [hinput, hrest, ht]
          simp
        · rw [replay, hbegin]
          show (replayMembers ms s1 >>= fun s => jsonStep s .objectEnd) = _
          rw [hreplay]
          exact hend
    split at h
    · next hc =>
      subst hc
      obtain ⟨s1, hbegin, h⟩ := bind_ok_iff.mp h
      obtain ⟨w1, hw1, hrest⟩ := ws_split tail
      split at h
      · next hclose =>
        obtain ⟨s2, hend, hs⟩ := mapped_ok_iff.mp h
        cases hs
        generalize jsonScanWs tail = closing at hclose hrest
        rw [cons_of_headD (by decide) hclose] at hrest
        refine ⟨.arr .nil, w, chLBracket :: (w1 ++ [chRBracket]), hw, ?_, ⟨w1, _, rfl, hw1, rfl⟩, ?_⟩
        · rw [hinput, hrest]
          simp
        · rw [replay, hbegin]
          exact hend
      · obtain ⟨es, w2, t, hne, hw2, ht, hes, s2, hreplay, hend⟩ := jsonScanElements_sound h
        refine ⟨.arr es, w, chLBracket :: (w1 ++ w2 ++ t), hw, ?_, ⟨w1 ++ w2, t, rfl, spaces_append hw1 hw2, hes⟩, ?_⟩
        · rw [hinput, hrest, ht]
          simp
        · rw [replay, hbegin]
          show (replayElements es s1 >>= fun s => jsonStep s .arrayEnd) = _
          rw [hreplay]
          exact hend
    split at h
    · obtain ⟨⟨text, rest1⟩, hstring, h⟩ := bind_ok_iff.mp h
      obtain ⟨s2, hstep, hs⟩ := mapped_ok_iff.mp h
      cases hs
      obtain ⟨t, ht, hquoted, rfl⟩ := jsonScanString_ok.mp hstring
      exact ⟨.str t, w, t.quoted, hw, by rw [hinput, hquoted], ⟨rfl, ht⟩, hstep⟩
    split at h
    · split at h
      · cases h
      · next rest1 hmatch =>
        obtain ⟨s2, hstep, hs⟩ := mapped_ok_iff.mp h
        cases hs
        exact ⟨.lit .tt, w, txtTrue, hw, by rw [hinput, matchLiteral_some hmatch], rfl, hstep⟩
    split at h
    · split at h
      · cases h
      · next rest1 hmatch =>
        obtain ⟨s2, hstep, hs⟩ := mapped_ok_iff.mp h
        cases hs
        exact ⟨.lit .ff, w, txtFalse, hw, by rw [hinput, matchLiteral_some hmatch], rfl, hstep⟩
    split at h
    · split at h
      · cases h
      · next rest1 hmatch =>
        obtain ⟨s2, hstep, hs⟩ := mapped_ok_iff.mp h
        cases hs
        exact ⟨.lit .nul, w, txtNull, hw, by rw [hinput, matchLiteral_some hmatch], rfl, hstep⟩
    split at h
    · obtain ⟨⟨token, rest1⟩, hnumber, h⟩ := bind_ok_iff.mp h
      obtain ⟨s2, hstep, hs⟩ := mapped_ok_iff.mp h
      cases hs
      obtain ⟨htoken, happend⟩ := jsonScanNumber_sound hnumber
      exact ⟨.num token, w, token, hw, by rw [hinput, happend], ⟨rfl, htoken⟩, hstep⟩
    · cases h

theorem jsonScanMembers_sound : ∀ {fuel : Nat} {s s' : JsonState} {input rest : Bytes},
    jsonScanMembers fuel s input = .ok (s', rest) →
      ∃ ms text, ms.isNil = false ∧ input = text ++ rest ∧ ms.Writes true text ∧
        ∃ s2, replayMembers ms s = .ok s2 ∧ jsonStep s2 .objectEnd = .ok s'
  | 0, s, s', input, rest, h => by
    rw [jsonScanMembers] at h
    cases h
  | fuel + 1, s, s', input, rest, h => by
    rw [jsonScanMembers] at h
    obtain ⟨⟨text, rest1⟩, hstring, h⟩ := bind_ok_iff.mp h
    obtain ⟨key, hkey, hinput, rfl⟩ := jsonScanString_ok.mp hstring
    obtain ⟨s1, hstep, h⟩ := bind_ok_iff.mp h
    obtain ⟨w1, hw1, hcolon⟩ := ws_split rest1
    split at h
    · cases h
    next c rest2 hc =>
    split at h
    · cases h
    next hne =>
    rw [hc, not_not.mp hne] at hcolon
    obtain ⟨⟨s2, rest3⟩, hvalue, h⟩ := bind_ok_iff.mp h
    obtain ⟨w2, hw2, hrest2⟩ := ws_split rest2
    obtain ⟨v, w2', tv, hw2', htv, hv, hreplay⟩ := jsonScanValue_sound hvalue
    obtain ⟨w3, hw3, hrest3⟩ := ws_split rest3
    dsimp only at h
    split at h
    · cases h
    next d rest4 hd =>
    rw [hd] at hrest3
    -- the members behind this one, and the closing brace
    have htail : ∃ ms t, d :: rest4 = t ++ rest ∧ ms.Writes false t ∧
        ∃ s3, replayMembers ms s2 = .ok s3 ∧ jsonStep s3 .objectEnd = .ok s' := by
      split at h
      · next hclose =>
        obtain ⟨s3, hend, hs⟩ := mapped_ok_iff.mp h
        cases hs
        exact ⟨.nil, [chRBrace], by rw [hclose]; rfl, rfl, s2, rfl, hend⟩
      split at h
      · cases h
      next hcomma =>
      obtain ⟨w4, hw4, hrest4⟩ := ws_split rest4
      obtain ⟨ms, t, hms, ht, hwrites, hrun⟩ := jsonScanMembers_sound h
      refine ⟨ms, chComma :: (w4 ++ t), ?_, members_later hw4 hwrites hms, hrun⟩
      rw [hrest4, ht, not_not.mp hcomma]
      simp
    obtain ⟨ms, t, ht, hms, s3, hrun, hend⟩ := htail
    refine ⟨.cons key v ms, _, rfl, ?_, ⟨[], w1, w2 ++ w2', tv, w3, t, rfl, rfl, hkey, hw1, spaces_append hw2 hw2', hv, hw3, hms⟩,
      s3, ?_, hend⟩
    · rw [hinput, hcolon, hrest2, htv, hrest3, ht]
      simp
    · rw [replayMembers, hstep]
      show (replay v s1 >>= fun s => replayMembers ms s) = _
      rw [hreplay]
      exact hrun

theorem jsonScanElements_sound : ∀ {fuel : Nat} {s s' : JsonState} {input rest : Bytes},
    jsonScanElements fuel s input = .ok (s', rest) →
      ∃ es w text, es.isNil = false ∧ Spaces w ∧ input = w ++ (text ++ rest) ∧ es.Writes true text ∧
        ∃ s2, replayElements es s = .ok s2 ∧ jsonStep s2 .arrayEnd = .ok s'
  | 0, s, s', input, rest, h => by
    rw [jsonScanElements] at h
    cases h
  | fuel + 1, s, s', input, rest, h => by
    rw [jsonScanElements] at h
    obtain ⟨⟨s2, rest3⟩, hvalue, h⟩ := bind_ok_iff.mp h
    obtain ⟨v, w, tv, hw, htv, hv, hreplay⟩ := jsonScanValue_sound hvalue
    obtain ⟨w3, hw3, hrest3⟩ := ws_split rest3
    dsimp only at h
    split at h
    · cases h
    next d rest4 hd =>
    rw [hd] at hrest3
    -- the elements behind this one, and the closing bracket
    have htail : ∃ es t, d :: rest4 = t ++ rest ∧ es.Writes false t ∧
        ∃ s3, replayElements es s2 = .ok s3 ∧ jsonStep s3 .arrayEnd = .ok s' := by
      split at h
      · next hclose =>
        obtain ⟨s3, hend, hs⟩ := mapped_ok_iff.mp h
        cases hs
        exact ⟨.nil, [chRBracket], by rw [hclose]; rfl, rfl, s2, rfl, hend⟩
      split at h
      · cases h
      next hcomma =>
      obtain ⟨w4, hw4, hrest4⟩ := ws_split rest4
      obtain ⟨es, w5, t, hes, hw5, ht, hwrites, hrun⟩ := jsonScanElements_sound h
      refine ⟨es, chComma :: (w4 ++ w5 ++ t), ?_, elements_later (spaces_append hw4 hw5) hwrites hes, hrun⟩
      rw [hrest4, ht, not_not.mp hcomma]
      simp
    obtain ⟨es, t, ht, hes, s3, hrun, hend⟩ := htail
    refine ⟨.cons v es, w, _, rfl, hw, ?_, ⟨[], tv, w3, t, rfl, rfl, hv, hw3, hes⟩, s3, ?_, hend⟩
    · rw [htv, hrest3, ht]
      simp
    · rw [replayElements, hreplay]
      exact hrun

end

/-! ## Every document is read -/

theorem ws_append {w rest : Bytes} (hw : Spaces w) (hr : Goes rest) : jsonScanWs (w ++ rest) = rest :=
  dropWhile_spaces hw hr

/-- The first byte of a number is that of nothing else. -/
theorem number_first {c : UInt8} (h : c = chMinus ∨ isDigit c = true) :
    c ≠ chLBrace ∧ c ≠ chLBracket ∧ c ≠ chQuote ∧ c ≠ chT ∧ c ≠ chF ∧ c ≠ chN := by
  refine ⟨?_, ?_, ?_, ?_, ?_, ?_⟩ <;>
    · intro hc
      subst hc
      exact absurd h (by decide)

mutual

/-- **Every text that a value may be written as is read**, and what is reported is what the value has to report. -/
theorem jsonScanValue_complete : ∀ (v : Value) (fuel : Nat) (s : JsonState) (text w rest : Bytes), v.Writes text →
    Spaces w → Stops rest → text.length < fuel →
      jsonScanValue fuel s (w ++ (text ++ rest)) = (replay v s).map fun s' => (s', rest)
  | _, 0, _, _, _, _, _, _, _, hfuel => absurd hfuel (Nat.not_lt_zero _)
  | .obj members, fuel + 1, s, text, w, rest, h, hw, _, hfuel => by
    have hgoes := h.goes rest
    obtain ⟨w1, t, rfl, hw1, ht⟩ := h
    rw [jsonScanValue, ws_append hw hgoes]
    dsimp only [List.cons_append]
    rw [if_pos rfl, replay]
    cases hbegin : jsonStep s .objectBegin with
    | error e => rfl
    | ok s1 =>
      cases members with
      | nil =>
        have hws : jsonScanWs (w1 ++ t ++ rest) = chRBrace :: rest := by
          rw [show t = [chRBrace] from ht, List.append_assoc]
          exact ws_append hw1 ⟨_, _, rfl, by decide⟩
        rw [hws]
        rfl
      | cons key v ms =>
        obtain ⟨t', rfl⟩ := Members.writes_first ht rfl
        have hws : jsonScanWs (w1 ++ chQuote :: t' ++ rest) = chQuote :: t' ++ rest := by
          rw [List.append_assoc]
          exact ws_append hw1 ⟨_, _, rfl, by decide⟩
        have hlen : (chQuote :: t').length < fuel := by
          simp only [List.length_cons, List.length_append] at hfuel ⊢
          omega
        rw [hws]
        exact jsonScanMembers_complete (.cons key v ms) fuel s1 (chQuote :: t') rest ht rfl hlen
  | .arr elements, fuel + 1, s, text, w, rest, h, hw, _, hfuel => by
    have hgoes := h.goes rest
    obtain ⟨w1, t, rfl, hw1, ht⟩ := h
    rw [jsonScanValue, ws_append hw hgoes]
    dsimp only [List.cons_append]
    rw [if_neg (by decide), if_pos rfl, replay]
    cases hbegin : jsonStep s .arrayBegin with
    | error e => rfl
    | ok s1 =>
      cases elements with
      | nil =>
        have hws : jsonScanWs (w1 ++ t ++ rest) = chRBracket :: rest := by
          rw [show t = [chRBracket] from ht, List.append_assoc]
          exact ws_append hw1 ⟨_, _, rfl, by decide⟩
        rw [hws]
        rfl
      | cons v es =>
        obtain ⟨c, t', rfl, hspace, hclose⟩ := Elements.writes_first ht rfl
        have hws : jsonScanWs (w1 ++ c :: t' ++ rest) = c :: t' ++ rest := by
          rw [List.append_assoc]
          exact ws_append hw1 ⟨_, _, rfl, hspace⟩
        have hc : ¬ (c :: t' ++ rest).headD 0 = chRBracket := by
          intro hc
          rw [show (c :: t' ++ rest).headD 0 = c from rfl] at hc
          subst hc
          cases hclose
        have hlen : (c :: t').length < fuel := by
          simp only [List.length_cons, List.length_append] at hfuel ⊢
          omega
        rw [hws]
        show (if (c :: t' ++ rest).headD 0 = chRBracket then _ else jsonScanElements fuel s1 (c :: t' ++ rest)) = _
        rw [if_neg hc]
        exact jsonScanElements_complete (.cons v es) fuel s1 (c :: t') rest ht rfl hlen
  | .str t, fuel + 1, s, text, w, rest, h, hw, _, _ => by
    have hgoes := h.goes rest
    obtain ⟨rfl, ht⟩ := h
    have hstring : jsonScanString (t.quoted ++ rest) = .ok (t.text, rest) := jsonScanString_ok.mpr ⟨t, ht, rfl, rfl⟩
    rw [jsonScanValue, ws_append hw hgoes]
    dsimp only [Str.quoted, List.cons_append, List.nil_append] at hstring ⊢
    rw [if_neg (by decide), if_neg (by decide), if_pos rfl, hstring]
    rfl
  | .num token, fuel + 1, s, text, w, rest, h, hw, hstop, _ => by
    have hgoes := h.goes rest
    obtain ⟨rfl, ht⟩ := h
    have hnumber := jsonScanNumber_complete ht hstop
    rw [jsonScanValue, ws_append hw hgoes, hnumber]
    obtain ⟨c, t, rfl, hc⟩ := Json.number_head ht
    obtain ⟨h1, h2, h3, h4, h5, h6⟩ := number_first hc
    dsimp only [List.cons_append]
    rw [if_neg h1, if_neg h2, if_neg h3, if_neg h4, if_neg h5, if_neg h6, if_pos (by simpa using hc)]
    rfl
  | .lit l, fuel + 1, s, text, w, rest, h, hw, _, _ => by
    have hgoes := h.goes rest
    obtain rfl := h
    have hmatch := matchLiteral_append l.text rest
    rw [jsonScanValue, ws_append hw hgoes]
    cases l with
    | tt =>
      dsimp only [Json.Literal.text] at hmatch ⊢
      rw [hmatch]
      rfl
    | ff =>
      dsimp only [Json.Literal.text] at hmatch ⊢
      rw [hmatch]
      rfl
    | nul =>
      dsimp only [Json.Literal.text] at hmatch ⊢
      rw [hmatch]
      rfl

theorem jsonScanMembers_complete : ∀ (ms : Members) (fuel : Nat) (s : JsonState) (text rest : Bytes),
    ms.Writes true text → ms.isNil = false → text.length < fuel →
      jsonScanMembers fuel s (text ++ rest) = (do
        let s ← replayMembers ms s
        jsonStep s .objectEnd).map fun s' => (s', rest)
  | _, 0, _, _, _, _, _, hfuel => absurd hfuel (Nat.not_lt_zero _)
  | .nil, _, _, _, _, _, hne, _ => by cases hne
  | .cons key v ms, fuel + 1, s, text, rest, h, _, hfuel => by
    obtain ⟨lead, w1, w2, tv, w3, t, rfl, hlead, hkey, hw1, hw2, hv, hw3, ht⟩ := h
    rw [show lead = [] from hlead] at hfuel ⊢
    simp only [List.nil_append, List.length_append, List.length_cons, List.append_assoc, List.cons_append] at hfuel ⊢
    have hstop : Stops (w3 ++ (t ++ rest)) := Json.stops_spaces hw3 (Members.stops_later ht rest).1
    rw [jsonScanMembers, jsonScanString_ok.mpr ⟨key, hkey, rfl, rfl⟩, ok_then, replayMembers]
    dsimp only
    cases jsonStep s (.key key.text) with
    | error e => rfl
    | ok s1 =>
      have hcolon : jsonScanWs (w1 ++ chColon :: (w2 ++ (tv ++ (w3 ++ (t ++ rest))))) =
          chColon :: (w2 ++ (tv ++ (w3 ++ (t ++ rest)))) := ws_append hw1 ⟨_, _, rfl, by decide⟩
      have hvalue := jsonScanValue_complete v fuel s1 tv [] (w3 ++ (t ++ rest)) hv Json.spaces_nil hstop (by omega)
      rw [List.nil_append] at hvalue
      rw [ok_then, ok_then, hcolon]
      dsimp only
      rw [if_neg (fun h => h rfl), ws_append hw2 (hv.goes _), hvalue]
      cases replay v s1 with
      | error e => rfl
      | ok s2 =>
        show (match jsonScanWs (w3 ++ (t ++ rest)) with
          | [] => jsonScanFail "unterminated JSON object"
          | c :: rest =>
            if c = chRBrace then (jsonStep s2 .objectEnd).map fun s => (s, rest)
            else if c ≠ chComma then jsonScanFail "JSON object comma expected"
            else jsonScanMembers fuel s2 (jsonScanWs rest)) =
          (do
            let s ← replayMembers ms s2
            jsonStep s .objectEnd).map fun s' => (s', rest)
        rw [ws_append hw3 (Members.stops_later ht rest).2]
        rcases Members.writes_later ht with ⟨rfl, rfl⟩ | ⟨w4, t', hms, rfl, hw4, ht'⟩
        · rfl
        · simp only [List.length_append, List.length_cons] at hfuel
          have hgoes : Goes (t' ++ rest) := by
            obtain ⟨t'', rfl⟩ := Members.writes_first ht' hms
            exact ⟨_, _, rfl, by decide⟩
          dsimp only [List.cons_append]
          rw [if_neg (by decide), if_neg (fun h => h rfl), List.append_assoc, ws_append hw4 hgoes]
          exact jsonScanMembers_complete ms fuel s2 t' rest ht' hms (by omega)

theorem jsonScanElements_complete : ∀ (es : Elements) (fuel : Nat) (s : JsonState) (text rest : Bytes),
    es.Writes true text → es.isNil = false → text.length < fuel →
      jsonScanElements fuel s (text ++ rest) = (do
        let s ← replayElements es s
        jsonStep s .arrayEnd).map fun s' => (s', rest)
  | _, 0, _, _, _, _, _, hfuel => absurd hfuel (Nat.not_lt_zero _)
  | .nil, _, _, _, _, _, hne, _ => by cases hne
  | .cons v es, fuel + 1, s, text, rest, h, _, hfuel => by
    obtain ⟨lead, tv, w3, t, rfl, hlead, hv, hw3, ht⟩ := h
    rw [show lead = [] from hlead] at hfuel ⊢
    simp only [List.nil_append, List.length_append, List.append_assoc] at hfuel ⊢
    have hstop : Stops (w3 ++ (t ++ rest)) := Json.stops_spaces hw3 (Elements.stops_later ht rest).1
    have hpos : 0 < t.length := by
      rcases Elements.writes_later ht with ⟨-, rfl⟩ | ⟨w4, t', -, rfl, -, -⟩ <;> exact Nat.zero_lt_succ _
    have hvalue := jsonScanValue_complete v fuel s tv [] (w3 ++ (t ++ rest)) hv Json.spaces_nil hstop (by omega)
    rw [List.nil_append] at hvalue
    rw [jsonScanElements, hvalue, replayElements]
    cases replay v s with
    | error e => rfl
    | ok s2 =>
      show (match jsonScanWs (w3 ++ (t ++ rest)) with
        | [] => jsonScanFail "unterminated JSON array"
        | c :: rest =>
          if c = chRBracket then (jsonStep s2 .arrayEnd).map fun s => (s, rest)
          else if c ≠ chComma then jsonScanFail "JSON array comma expected"
          else jsonScanElements fuel s2 (jsonScanWs rest)) =
        (do
          let s ← replayElements es s2
          jsonStep s .arrayEnd).map fun s' => (s', rest)
      rw [ws_append hw3 (Elements.stops_later ht rest).2]
      rcases Elements.writes_later ht with ⟨rfl, rfl⟩ | ⟨w4, t', hes, rfl, hw4, ht'⟩
      · rfl
      · simp only [List.length_append, List.length_cons] at hfuel
        have hgoes : Goes (t' ++ rest) := by
          obtain ⟨c, t'', rfl, hc, -⟩ := Elements.writes_first ht' hes
          exact ⟨_, _, rfl, hc⟩
        dsimp only [List.cons_append]
        rw [if_neg (by decide), if_neg (fun h => h rfl), List.append_assoc, ws_append hw4 hgoes]
        exact jsonScanElements_complete es fuel s2 t' rest ht' hes (by omega)

end

/-! ## Selectors -/

theorem ws_nil {w : Bytes} : jsonScanWs w = [] ↔ Spaces w := by
  rw [jsonScanWs, List.dropWhile_eq_nil_iff]
  rfl

theorem stops_end {w : Bytes} (h : Spaces w) : Stops w := by
  have hnil : Stops [] := fun c hc => by cases hc
  have hstops := Json.stops_spaces h hnil
  rwa [List.append_nil] at hstops

/-- A selector comes from a document, by what the document has to report. -/
theorem parseSelectorJson_document {json : Bytes} {s : Selector} (h : parseSelectorJson json = .ok s) :
    ∃ v w text w', Spaces w ∧ Spaces w' ∧ json = w ++ (text ++ w') ∧ v.Writes text ∧
      replay v {} = .ok { selector := s, frames := [] } := by
  unfold parseSelectorJson jsonScanDocument at h
  obtain ⟨state, hdoc, h⟩ := bind_ok_iff.mp h
  obtain ⟨⟨s1, rest⟩, hvalue, hdoc⟩ := bind_ok_iff.mp hdoc
  obtain ⟨v, w, text, hw, hjson, hv, hreplay⟩ := jsonScanValue_sound hvalue
  dsimp only at hdoc
  split at hdoc
  · cases hdoc
  next hrest =>
  cases hdoc
  split at h
  · cases h
  next hframes =>
  cases h
  refine ⟨v, w, text, rest, hw, ws_nil.mp (not_not.mp hrest), hjson, hv, ?_⟩
  rw [hreplay, ← not_not.mp hframes]

theorem parseSelectorJson_of_replay {v : Value} {w text w' : Bytes} {s : Selector} (hw : Spaces w) (hw' : Spaces w')
    (hv : v.Writes text) (hreplay : replay v {} = .ok { selector := s, frames := [] }) :
    parseSelectorJson (w ++ (text ++ w')) = .ok s := by
  have hlen : text.length < (w ++ (text ++ w')).length + 1 := by
    simp only [List.length_append]
    omega
  unfold parseSelectorJson jsonScanDocument
  rw [jsonScanValue_complete v _ {} text w w' hv hw (stops_end hw') hlen, hreplay]
  dsimp only [Except.map]
  rw [ok_then]
  dsimp only
  rw [if_neg (not_not.mpr (ws_nil.mpr hw')), ok_then, if_neg (fun h => h rfl)]

/-- **A selector is accepted as JSON exactly when it is a document of the grammar, and the machine takes what the document
has to report.** -/
theorem parseSelectorJson_iff {json : Bytes} {s : Selector} : parseSelectorJson json = .ok s ↔
    ∃ v w text w', Spaces w ∧ Spaces w' ∧ json = w ++ (text ++ w') ∧ v.Writes text ∧
      replay v {} = .ok { selector := s, frames := [] } := by
  constructor
  · exact parseSelectorJson_document
  · intro h
    obtain ⟨v, w, text, w', hw, hw', rfl, hv, hreplay⟩ := h
    exact parseSelectorJson_of_replay hw hw' hv hreplay

end Lql.Selector
