import AiiOs.Lib.Json.Tokens

/-! Tokens against the grammar: the text of a scalar, a key or a bracket is read
as its token, and a token that was read is spelled by the text it took. -/

namespace Lib.Json
open List

def scalarToken : Value → Option Token
  | .null => some .null
  | .bool b => some (.bool b)
  | .num lit => some (.num lit)
  | .str s => some (.str s)
  | _ => none

theorem number_head {lit : List Char} (h : Number lit) : ∃ c cs, lit = c :: cs ∧ (c = '-' ∨ c.isDigit) := by
  obtain ⟨sgn, i, f, e, hs, hi, -, -, rfl⟩ := h
  rcases hs with rfl | rfl
  · cases hi with
    | zero => exact ⟨_, _, rfl, .inr (by decide)⟩
    | pos hd _ _ => exact ⟨_, _, rfl, .inr hd⟩
  · exact ⟨_, _, rfl, .inl rfl⟩

variable {c : Char} {v : Value} {tok : Token} {cs l r rest t w : List Char} {s : TokenState}
  {st : List TokenState} {first : Bool}

theorem number_head_ne {d : Char} (h : c = '-' ∨ c.isDigit) (hd : d.isDigit = false)
    (hm : d ≠ '-') : c ≠ d := by
  rcases h with rfl | h
  · exact hm.symm
  · exact digit_ne h hd

theorem number_head_not_space (h : c = '-' ∨ c.isDigit) : isSpace c = false := by
  have h1 := number_head_ne h (d := ' ') (by decide) (by decide)
  have h2 := number_head_ne h (d := '\t') (by decide) (by decide)
  have h3 := number_head_ne h (d := '\r') (by decide) (by decide)
  have h4 := number_head_ne h (d := '\n') (by decide) (by decide)
  simp [isSpace, h1, h2, h3, h4]

/-- The first character of a scalar's text leads `dispatch` to `readScalar`. -/
def ScalarHead (c : Char) : Prop := Starts c ∧ c ≠ '[' ∧ c ≠ ']' ∧ c ≠ '{' ∧ c ≠ '}'

theorem scalar_head (hv : scalarToken v = some tok) (h : Text v t) : ∃ c cs, t = c :: cs ∧ ScalarHead c := by
  cases v with
  | null => exact ⟨_, _, h, by decide, by decide⟩
  | bool b =>
    cases b
    · exact ⟨_, _, h, by decide, by decide⟩
    · exact ⟨_, _, h, by decide, by decide⟩
  | num lit =>
    obtain ⟨rfl, hn⟩ := h
    obtain ⟨c, cs, rfl, hc⟩ := number_head hn
    refine ⟨c, cs, rfl, ⟨number_head_not_space hc, ?_, ?_⟩, ?_, ?_, ?_, ?_⟩ <;>
      exact number_head_ne hc (by decide) (by decide)
  | str s =>
    obtain ⟨body, is, -, -, rfl⟩ := h
    exact ⟨_, _, rfl, by decide, by decide⟩
  | arr vs => simp [scalarToken] at hv
  | obj ms => simp [scalarToken] at hv

theorem text_head (h : Text v t) : ∃ c cs, t = c :: cs ∧ Starts c ∧ c ≠ ']' ∧ c ≠ '}' := by
  cases hv : scalarToken v with
  | some tok =>
    obtain ⟨c, cs, ht, hc⟩ := scalar_head hv h
    exact ⟨c, cs, ht, hc.1, hc.2.2.1, hc.2.2.2.2⟩
  | none =>
    cases v with
    | arr vs =>
      obtain ⟨r, -, rfl⟩ := h
      exact ⟨_, _, rfl, by decide⟩
    | obj ms =>
      obtain ⟨r, -, rfl⟩ := h
      exact ⟨_, _, rfl, by decide⟩
    | null => simp [scalarToken] at hv
    | bool b => simp [scalarToken] at hv
    | num lit => simp [scalarToken] at hv
    | str s => simp [scalarToken] at hv

theorem obj_of_text_head (h : Text v ('{' :: cs)) : ∃ ms, v = .obj ms := by
  cases hv : scalarToken v with
  | some tok =>
    obtain ⟨c, cs', he, hc⟩ := scalar_head hv h
    cases he
    exact absurd rfl hc.2.2.2.1
  | none =>
    cases v with
    | obj ms => exact ⟨ms, rfl⟩
    | arr vs =>
      obtain ⟨r, -, he⟩ := h
      cases he
    | null => simp [scalarToken] at hv
    | bool b => simp [scalarToken] at hv
    | num lit => simp [scalarToken] at hv
    | str s => simp [scalarToken] at hv

theorem scanScalar_complete (hv : scalarToken v = some tok) (h : Text v t) (hr : NumEnd rest) :
    scanScalar (t ++ rest) = some (tok, rest) := by
  cases v with
  | null =>
    cases hv
    rw [show t = ['n', 'u', 'l', 'l'] from h]
    exact congrArg (Option.map _) (scanWord_complete ['u', 'l', 'l'] rest)
  | bool b =>
    cases hv
    cases b
    · rw [show t = ['f', 'a', 'l', 's', 'e'] from h]
      exact congrArg (Option.map _) (scanWord_complete ['a', 'l', 's', 'e'] rest)
    · rw [show t = ['t', 'r', 'u', 'e'] from h]
      exact congrArg (Option.map _) (scanWord_complete ['r', 'u', 'e'] rest)
  | num lit =>
    cases hv
    obtain ⟨rfl, hn⟩ := h
    have hs := scanNumber_complete hn hr
    obtain ⟨c, cs, rfl, hc⟩ := number_head hn
    rw [cons_append] at hs ⊢
    rw [scanScalar, if_neg (number_head_ne hc (by decide) (by decide)),
      if_neg (number_head_ne hc (by decide) (by decide)),
      if_neg (number_head_ne hc (by decide) (by decide)),
      if_neg (number_head_ne hc (by decide) (by decide)), hs]
    rfl
  | str s =>
    cases hv
    obtain ⟨body, is, hb, rfl, rfl⟩ := h
    simp only [scanScalar, cons_append, if_true, append_assoc, nil_append,
      lexString_complete hb rest, Option.map_some]
  | arr vs => simp [scalarToken] at hv
  | obj ms => simp [scalarToken] at hv

theorem not_keyAllowed (h : s.valueAllowed) : s.keyAllowed = false := by
  cases s <;> simp_all [TokenState.valueAllowed, TokenState.keyAllowed]

theorem token_scalar (hv : scalarToken v = some tok) (h : Text v t) (hr : NumEnd rest)
    (hs : s.valueAllowed) (st : List TokenState) :
    (Decoder.mk (t ++ rest) s st).token = .ok (tok, ⟨rest, s.valueEnd, st⟩) := by
  have hscan := scanScalar_complete hv h hr
  obtain ⟨c, cs, rfl, hc⟩ := scalar_head hv h
  rw [cons_append] at hscan ⊢
  rw [token_starts hc.1, dispatch, if_neg hc.2.1, if_neg hc.2.2.1, if_neg hc.2.2.2.1,
    if_neg hc.2.2.2.2, readScalar, not_keyAllowed hs, hs, hscan]
  rfl

theorem token_open (hs : s.valueAllowed) (hst : st.length ≠ maxNestingDepth) (r : List Char) :
    (Decoder.mk ('[' :: r) s st).token = .ok (.delim '[', ⟨r, .arrayStart, s :: st⟩) ∧
    (Decoder.mk ('{' :: r) s st).token = .ok (.delim '{', ⟨r, .objectStart, s :: st⟩) := by
  constructor
  · rw [token_starts (by decide), dispatch, if_pos rfl, openDelim, hs, if_pos rfl, if_neg hst]
  · rw [token_starts (by decide), dispatch, if_neg (by decide), if_neg (by decide), if_pos rfl,
      openDelim, hs, if_pos rfl, if_neg hst]

theorem token_open_deep (hs : s.valueAllowed) (hst : st.length = maxNestingDepth) (r : List Char) :
    (Decoder.mk ('[' :: r) s st).token = .error .maxDepth ∧
    (Decoder.mk ('{' :: r) s st).token = .error .maxDepth := by
  constructor
  · rw [token_starts (by decide), dispatch, if_pos rfl, openDelim, hs, if_pos rfl, if_pos hst]
  · rw [token_starts (by decide), dispatch, if_neg (by decide), if_neg (by decide), if_pos rfl,
      openDelim, hs, if_pos rfl, if_pos hst]

variable {d : Decoder} {outer : TokenState} {vs : List Value}

theorem token_key {k kt : List Char} (hk : Str k kt) (hs : s.keyAllowed)
    (rest : List Char) (st : List TokenState) :
    (Decoder.mk (kt ++ rest) s st).token = .ok (.str k, ⟨rest, .objectColon, st⟩) := by
  obtain ⟨body, is, hb, rfl, rfl⟩ := hk
  rw [cons_append, token_starts (by decide), dispatch, if_neg (by decide), if_neg (by decide),
    if_neg (by decide), if_neg (by decide), readScalar, if_pos hs]
  simp only [if_true, append_assoc, cons_append, nil_append, lexString_complete hb rest]

def arrayAt (first : Bool) : TokenState := if first then .arrayStart else .arrayComma

def objectAt (first : Bool) : TokenState := if first then .objectStart else .objectComma

theorem lead_array (h : Lead first l) :
    ∃ s, LeadTo (arrayAt first) l s ∧ s.valueAllowed ∧ s.valueEnd = .arrayComma := by
  cases first with
  | true => exact ⟨.arrayStart, .ws h, rfl, rfl⟩
  | false =>
    obtain ⟨w, w', hw, hw', rfl⟩ := h
    exact ⟨.arrayValue, (LeadTo.ws hw).trans (.arrayComma (.ws hw')), rfl, rfl⟩

theorem lead_object (h : Lead first l) : ∃ s, LeadTo (objectAt first) l s ∧ s.keyAllowed := by
  cases first with
  | true => exact ⟨.objectStart, .ws h, rfl⟩
  | false =>
    obtain ⟨w, w', hw, hw', rfl⟩ := h
    exact ⟨.objectKey, (LeadTo.ws hw).trans (.objectComma (.ws hw')), rfl⟩

theorem more_lead (h : Lead first l) (hc : Starts c)
    (h1 : c ≠ ']') (h2 : c ≠ '}') (cs : List Char) (s : TokenState) (st : List TokenState) :
    (Decoder.mk (l ++ c :: cs) s st).more := by
  cases first with
  | true => rw [more_ws h hc.1]; simp [h1, h2]
  | false =>
    obtain ⟨w, w', hw, -, rfl⟩ := h
    rw [append_assoc, cons_append, more_ws hw (by decide)]
    decide

theorem numEnd_cons (h1 : c.isDigit = false) (h2 : c ≠ '.') (h3 : c ≠ 'e') (h4 : c ≠ 'E')
    (r : List Char) : NumEnd (c :: r) := by
  intro d r' h
  cases h
  exact ⟨h1, h2, h3, h4⟩

theorem isSpace_ne {d : Char} (hc : isSpace c) (hd : isSpace d = false) : c ≠ d := by
  rintro rfl
  simp [hc] at hd

theorem isSpace_not_digit (hc : isSpace c) : c.isDigit = false := by
  simp only [isSpace, Bool.or_eq_true, beq_iff_eq] at hc
  rcases hc with ((rfl | rfl) | rfl) | rfl <;> decide

theorem numEnd_ws (hw : Ws w) (hr : NumEnd r) : NumEnd (w ++ r) := by
  cases w with
  | nil => exact hr
  | cons c w =>
    have hc := hw c (mem_cons_self ..)
    exact numEnd_cons (isSpace_not_digit hc) (isSpace_ne hc (by decide)) (isSpace_ne hc (by decide))
      (isSpace_ne hc (by decide)) _

theorem numEnd_elems (h : Elems false vs r) (rest : List Char) : NumEnd (r ++ rest) := by
  cases vs with
  | nil =>
    obtain ⟨w, hw, rfl⟩ := h
    rw [append_assoc]
    exact numEnd_ws hw (numEnd_cons (by decide) (by decide) (by decide) (by decide) _)
  | cons v vs =>
    obtain ⟨l, t, r', ⟨w, w', hw, -, rfl⟩, -, -, rfl⟩ := h
    rw [append_assoc, append_assoc]
    exact numEnd_ws hw (numEnd_cons (by decide) (by decide) (by decide) (by decide) _)

theorem numEnd_members {ms : List (List Char × Value)} (h : Members false ms r)
    (rest : List Char) : NumEnd (r ++ rest) := by
  cases ms with
  | nil =>
    obtain ⟨w, hw, rfl⟩ := h
    rw [append_assoc]
    exact numEnd_ws hw (numEnd_cons (by decide) (by decide) (by decide) (by decide) _)
  | cons m ms =>
    obtain ⟨l, kt, w, w', t, r', ⟨w, w', hw, -, rfl⟩, -, -, -, -, -, rfl⟩ := h
    rw [append_assoc, append_assoc]
    exact numEnd_ws hw (numEnd_cons (by decide) (by decide) (by decide) (by decide) _)

theorem elems_length_pos (h : Elems first vs r) : 0 < r.length := by
  cases vs with
  | nil =>
    obtain ⟨w, -, rfl⟩ := h
    simp
  | cons v vs =>
    obtain ⟨l, t, r', -, ht, -, rfl⟩ := h
    obtain ⟨c, cs, rfl, -⟩ := text_head ht
    simp only [length_append, length_cons]
    omega

/-! ### What was read -/

def AwaitsValue (s : TokenState) : Prop :=
  s = .topValue ∨ s = .arrayStart ∨ s = .arrayComma ∨ s = .objectColon ∨ s = .objectValue

theorem awaitsValue_arrayAt (first : Bool) : AwaitsValue (arrayAt first) := by
  cases first
  · exact .inr (.inr (.inl rfl))
  · exact .inr (.inl rfl)

theorem not_keyAllowed_of_lead {s' : TokenState} (h : LeadTo s l s') (hs : AwaitsValue s) :
    s'.keyAllowed = false := by
  rcases hs with rfl | rfl | rfl | rfl | rfl
  · rw [(h.of_still (by decide) (by decide) (by decide)).2]; rfl
  · rw [(h.of_still (by decide) (by decide) (by decide)).2]; rfl
  · rcases h.of_waiting (.inr (.inl ⟨rfl, rfl, rfl⟩)) with ⟨-, rfl⟩ | ⟨rfl, -⟩ <;> rfl
  · rcases h.of_waiting (.inl ⟨rfl, rfl, rfl⟩) with ⟨-, rfl⟩ | ⟨rfl, -⟩ <;> rfl
  · rw [(h.of_still (by decide) (by decide) (by decide)).2]; rfl

theorem lead_of_leadTo_array (h : LeadTo (arrayAt first) l s) (hs : s.valueAllowed) :
    Lead first l ∧ s.valueEnd = .arrayComma := by
  cases first with
  | true =>
    obtain ⟨hw, rfl⟩ := h.of_still (by decide) (by decide) (by decide)
    exact ⟨hw, rfl⟩
  | false =>
    rcases h.of_waiting (.inr (.inl ⟨rfl, rfl, rfl⟩)) with ⟨-, rfl⟩ | ⟨rfl, w, w', hw, hw', rfl⟩
    · cases hs
    · exact ⟨⟨w, w', hw, hw', rfl⟩, rfl⟩

theorem lead_of_leadTo_object (h : LeadTo (objectAt first) l s) (hs : s.keyAllowed) : Lead first l := by
  cases first with
  | true => exact (h.of_still (by decide) (by decide) (by decide)).1
  | false =>
    rcases h.of_waiting (.inr (.inr ⟨rfl, rfl, rfl⟩)) with ⟨-, rfl⟩ | ⟨rfl, w, w', hw, hw', rfl⟩
    · cases hs
    · exact ⟨w, w', hw, hw', rfl⟩

theorem lead_of_leadTo_colon (h : LeadTo .objectColon l s) (hs : s.valueAllowed) :
    s = .objectValue ∧ ∃ w w', Ws w ∧ Ws w' ∧ l = w ++ ':' :: w' := by
  rcases h.of_waiting (.inl ⟨rfl, rfl, rfl⟩) with ⟨-, rfl⟩ | h
  · cases hs
  · exact h

theorem not_valueAllowed_of_lead_object (h : LeadTo (objectAt first) l s) : ¬ s.valueAllowed := by
  cases first with
  | true => rw [(h.of_still (by decide) (by decide) (by decide)).2]; decide
  | false => rcases h.of_waiting (.inr (.inr ⟨rfl, rfl, rfl⟩)) with ⟨-, rfl⟩ | ⟨rfl, -⟩ <;> decide

theorem ws_of_closeArray (h : LeadTo (arrayAt first) l s) (hs : s = .arrayStart ∨ s = .arrayComma) :
    Ws l := by
  cases first with
  | true => exact (h.of_still (by decide) (by decide) (by decide)).1
  | false =>
    rcases h.of_waiting (.inr (.inl ⟨rfl, rfl, rfl⟩)) with ⟨hw, -⟩ | ⟨rfl, -⟩
    · exact hw
    · simp at hs

theorem ws_of_closeObject (h : LeadTo (objectAt first) l s)
    (hs : s = .objectStart ∨ s = .objectComma) : Ws l := by
  cases first with
  | true => exact (h.of_still (by decide) (by decide) (by decide)).1
  | false =>
    rcases h.of_waiting (.inr (.inr ⟨rfl, rfl, rfl⟩)) with ⟨hw, -⟩ | ⟨rfl, -⟩
    · exact hw
    · simp at hs

theorem scalarToken_ne_delim (v : Value) (c : Char) : scalarToken v ≠ some (.delim c) := by
  cases v <;> simp [scalarToken]

theorem scanScalar_sound (h : scanScalar cs = some (tok, rest)) :
    ∃ v t, scalarToken v = some tok ∧ Text v t ∧ cs = t ++ rest := by
  cases cs with
  | nil => simp [scanScalar] at h
  | cons c cs =>
    rw [scanScalar] at h
    split_ifs at h with h1 h2 h3 h4 <;> simp only [Option.map_eq_some_iff] at h
    · obtain ⟨⟨is, r⟩, hp, rfl, rfl⟩ := h
      obtain ⟨body, hb, rfl⟩ := lexString_sound (le_refl _) hp
      exact ⟨.str (itemsRunes is), _, rfl, ⟨body, is, hb, rfl, rfl⟩, by simp [h1]⟩
    · obtain ⟨r, hw, rfl, rfl⟩ := h
      exact ⟨.null, _, rfl, rfl, by simp [h2, scanWord_sound hw]⟩
    · obtain ⟨r, hw, rfl, rfl⟩ := h
      exact ⟨.bool true, _, rfl, rfl, by simp [h3, scanWord_sound hw]⟩
    · obtain ⟨r, hw, rfl, rfl⟩ := h
      exact ⟨.bool false, _, rfl, rfl, by simp [h4, scanWord_sound hw]⟩
    · obtain ⟨⟨lit, r⟩, hn, rfl, rfl⟩ := h
      obtain ⟨hl, hcs⟩ := scanNumber_sound hn
      exact ⟨.num lit, lit, rfl, ⟨rfl, hl⟩, hcs⟩

inductive Reads (st : List TokenState) (s : TokenState) : List Char → Token → Decoder → Prop
  | openArray {cs : List Char} : s.valueAllowed →
      Reads st s ('[' :: cs) (.delim '[') ⟨cs, .arrayStart, s :: st⟩
  | openObject {cs : List Char} : s.valueAllowed →
      Reads st s ('{' :: cs) (.delim '{') ⟨cs, .objectStart, s :: st⟩
  | closeArray {outer : TokenState} {st' : List TokenState} {cs : List Char} :
      s = .arrayStart ∨ s = .arrayComma → st = outer :: st' →
      Reads st s (']' :: cs) (.delim ']') ⟨cs, outer.valueEnd, st'⟩
  | closeObject {outer : TokenState} {st' : List TokenState} {cs : List Char} :
      s = .objectStart ∨ s = .objectComma → st = outer :: st' →
      Reads st s ('}' :: cs) (.delim '}') ⟨cs, outer.valueEnd, st'⟩
  | key {k kt rest : List Char} : s.keyAllowed → Str k kt →
      Reads st s (kt ++ rest) (.str k) ⟨rest, .objectColon, st⟩
  | scalar {v : Value} {t rest : List Char} {tok : Token} : s.keyAllowed = false →
      s.valueAllowed → scalarToken v = some tok → Text v t →
      Reads st s (t ++ rest) tok ⟨rest, s.valueEnd, st⟩

theorem readScalar_sound (h : readScalar st s cs = .ok (tok, d)) : Reads st s cs tok d := by
  unfold readScalar at h
  split_ifs at h with hk hv
  · split at h
    · cases h
    · split_ifs at h with hc
      split at h
      · rename_i p hp
        cases h
        obtain ⟨body, hb, rfl⟩ := lexString_sound (le_refl _) hp
        have hread : Reads st s (('"' :: (body ++ ['"'])) ++ p.2) _ _ := .key hk ⟨body, p.1, hb, rfl, rfl⟩
        simpa [hc] using hread
      · cases h
  · split at h
    · rename_i p hp
      cases h
      obtain ⟨v, t, hv', ht, rfl⟩ := scanScalar_sound hp
      exact .scalar (by simpa using hk) hv hv' ht
    · cases h

theorem dispatch_sound (h : dispatch st s c cs = .ok (tok, d)) : Reads st s (c :: cs) tok d := by
  rw [dispatch] at h
  split_ifs at h with h1 h2 h3 h4
  · rw [openDelim] at h
    split_ifs at h with hv hd
    cases h
    exact h1 ▸ .openArray hv
  · unfold closeDelim at h
    split_ifs at h with hs
    split at h
    · cases h
    · cases h
      exact h2 ▸ .closeArray (of_decide_eq_true hs) rfl
  · rw [openDelim] at h
    split_ifs at h with hv hd
    cases h
    exact h3 ▸ .openObject hv
  · unfold closeDelim at h
    split_ifs at h with hs
    split at h
    · cases h
    · cases h
      exact h4 ▸ .closeObject (of_decide_eq_true hs) rfl
  · exact readScalar_sound h

theorem token_reads {d' : Decoder} (h : d.token = .ok (tok, d')) :
    ∃ l s cs, LeadTo d.state l s ∧ d.input = l ++ cs ∧ Reads d.stack s cs tok d' := by
  unfold Decoder.token at h
  split at h
  · simp at h
  · rename_i s c rest hs
    obtain ⟨l, hl, -, hi⟩ := skipLead_sound hs
    exact ⟨l, s, c :: rest, hl, hi, dispatch_sound h⟩

end Lib.Json
 