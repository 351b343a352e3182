import AiiOs.Lib.Json.Reads

/-! Reading a whole value token by token. The reader takes a policy, which may
refuse scalars and keys; on a text that spells a value it returns that value
exactly when the policy takes it and it does not nest too deep, and what it
returns is spelled by the text it took. -/

namespace Lib.Json
open List

structure Policy where
  scalar : Value → Bool
  key : List (List Char) → List Char → Bool

def Policy.any : Policy := ⟨fun _ => true, fun _ _ => true⟩

variable (pol : Policy)

mutual

/-- Each call and each turn of a loop reads a token, so fuel beyond the input is never used up. -/
def readTree : Nat → Decoder → Option (Value × Decoder)
  | 0, _ => none
  | n + 1, d =>
    match d.token with
    | .error _ => none
    | .ok (.delim c, d) =>
      if c = '{' then readMembers n d []
      else if c = '[' then readElems n d []
      else none
    | .ok (.str s, d) => if pol.scalar (.str s) then some (.str s, d) else none
    | .ok (.bool b, d) => if pol.scalar (.bool b) then some (.bool b, d) else none
    | .ok (.null, d) => if pol.scalar .null then some (.null, d) else none
    | .ok (.num lit, d) => if pol.scalar (.num lit) then some (.num lit, d) else none

def readMembers : Nat → Decoder → List (List Char × Value) → Option (Value × Decoder)
  | 0, _, _ => none
  | n + 1, d, acc =>
    if d.more then
      match d.token with
      | .ok (.str key, d) =>
        if pol.key (acc.map Prod.fst) key then
          match readTree n d with
          | none => none
          | some (v, d) => readMembers n d (acc ++ [(key, v)])
        else none
      | _ => none
    else
      match d.token with
      | .ok (tok, d) => if tok = .delim '}' then some (.obj acc, d) else none
      | .error _ => none

def readElems : Nat → Decoder → List Value → Option (Value × Decoder)
  | 0, _, _ => none
  | n + 1, d, acc =>
    if d.more then
      match readTree n d with
      | none => none
      | some (v, d) => readElems n d (acc ++ [v])
    else
      match d.token with
      | .ok (tok, d) => if tok = .delim ']' then some (.arr acc, d) else none
      | .error _ => none

end

mutual

def Policy.ok : Value → Bool
  | .arr vs => elemsOk vs
  | .obj ms => membersOk [] ms
  | .str s => pol.scalar (.str s)
  | .num lit => pol.scalar (.num lit)
  | .bool b => pol.scalar (.bool b)
  | .null => pol.scalar .null

def Policy.elemsOk : List Value → Bool
  | [] => true
  | v :: vs => Policy.ok v && elemsOk vs

def Policy.membersOk (keys : List (List Char)) : List (List Char × Value) → Bool
  | [] => true
  | (k, v) :: ms => pol.key keys k && (Policy.ok v && membersOk (keys ++ [k]) ms)

end

variable {pol}

theorem readTree_congr {d d' : Decoder} (h : d.token = d'.token) (n : Nat) :
    readTree pol n d = readTree pol n d' := by
  cases n with
  | zero => rfl
  | succ n => rw [readTree, readTree, h]

variable {v : Value} {i k kt l rest w x : List Char} {first : Bool} {outer : TokenState}
  {st : List TokenState}
  {d : Decoder} {n : Nat}

theorem token_member (hl : Lead first l) (hk : Str k kt) (x : List Char) (st : List TokenState) :
    (Decoder.mk (l ++ (kt ++ x)) (objectAt first) st).more ∧
      (Decoder.mk (l ++ (kt ++ x)) (objectAt first) st).token = .ok (.str k, ⟨x, .objectColon, st⟩) := by
  obtain ⟨s, hls, hsk⟩ := lead_object hl
  refine ⟨?_, by rw [token_lead hls, token_key hk hsk]⟩
  obtain ⟨body, is, -, -, rfl⟩ := hk
  exact more_lead hl (by decide) (by decide) (by decide) _ _ _

theorem token_objectEnd (first : Bool) (hw : Ws w) (rest : List Char) (outer : TokenState)
    (st : List TokenState) :
    (Decoder.mk (w ++ '}' :: rest) (objectAt first) (outer :: st)).more = false ∧
      (Decoder.mk (w ++ '}' :: rest) (objectAt first) (outer :: st)).token =
        .ok (.delim '}', ⟨rest, outer.valueEnd, st⟩) := by
  have hs : objectAt first = .objectStart ∨ objectAt first = .objectComma := by
    cases first
    · exact .inr rfl
    · exact .inl rfl
  refine ⟨by rw [more_ws hw (by decide)]; decide, ?_⟩
  rw [token_lead (.ws hw), token_starts (by decide), dispatch, if_neg (by decide),
    if_neg (by decide), if_neg (by decide), if_pos rfl, closeDelim, if_pos (decide_eq_true hs)]

theorem member_of_token (h : (Decoder.mk i (objectAt first) st).token = .ok (.str k, d)) :
    ∃ l kt rest, Lead first l ∧ Str k kt ∧ i = l ++ (kt ++ rest) ∧ d = ⟨rest, .objectColon, st⟩ := by
  obtain ⟨l, s, cs, hl, hi, hr⟩ := token_reads h
  cases hr with
  | key hk hkt => exact ⟨l, _, _, lead_of_leadTo_object hl hk, hkt, hi, rfl⟩
  | scalar _ hv _ _ => exact absurd hv (not_valueAllowed_of_lead_object hl)

theorem objectEnd_of_token (h : (Decoder.mk i (objectAt first) (outer :: st)).token = .ok (.delim '}', d)) :
    ∃ w, Ws w ∧ i = w ++ '}' :: d.input ∧ d = ⟨d.input, outer.valueEnd, st⟩ := by
  obtain ⟨l, s, cs, hl, hi, hr⟩ := token_reads h
  cases hr with
  | closeObject hs hst =>
    cases hst
    exact ⟨l, ws_of_closeObject hl hs, hi, rfl⟩
  | scalar _ _ hsc _ => exact absurd hsc (scalarToken_ne_delim _ _)

theorem readTree_scalar {tok : Token} (hv : scalarToken v = some tok) {t rest : List Char} (h : Text v t)
    (hr : NumEnd rest) {s : TokenState} (hs : s.valueAllowed) {st : List TokenState}
    (hst : st.length ≤ maxNestingDepth) (hn : t.length ≤ n) :
    readTree pol n ⟨t ++ rest, s, st⟩ = if pol.ok v ∧ st.length + v.depth ≤ maxNestingDepth then
        some (v, ⟨rest, s.valueEnd, st⟩) else none := by
  have htok := token_scalar hv h hr hs st
  obtain ⟨c, cs, rfl, -⟩ := scalar_head hv h
  obtain ⟨n, rfl⟩ : ∃ m, n = m + 1 := ⟨n - 1, by simp only [length_cons] at hn; omega⟩
  rw [readTree, htok]
  cases v with
  | null => cases hv; simp [Policy.ok, Value.depth, hst]
  | bool b => cases hv; simp [Policy.ok, Value.depth, hst]
  | num lit => cases hv; simp [Policy.ok, Value.depth, hst]
  | str s => cases hv; simp [Policy.ok, Value.depth, hst]
  | arr vs => simp [scalarToken] at hv
  | obj ms => simp [scalarToken] at hv

mutual

theorem readTree_text : (v : Value) → ∀ (t rest : List Char) (s : TokenState)
    (st : List TokenState) (n : Nat), Text v t → NumEnd rest → s.valueAllowed = true →
    st.length ≤ maxNestingDepth → t.length ≤ n →
    readTree pol n ⟨t ++ rest, s, st⟩ =
      if pol.ok v = true ∧ st.length + v.depth ≤ maxNestingDepth then
        some (v, ⟨rest, s.valueEnd, st⟩) else none
  | .null => fun _ _ _ _ _ h hr hs hst hn => readTree_scalar rfl h hr hs hst hn
  | .bool b => fun _ _ _ _ _ h hr hs hst hn => readTree_scalar rfl h hr hs hst hn
  | .num lit => fun _ _ _ _ _ h hr hs hst hn => readTree_scalar rfl h hr hs hst hn
  | .str s => fun _ _ _ _ _ h hr hs hst hn => readTree_scalar rfl h hr hs hst hn
  | .arr vs => by
    rintro t rest s st n ⟨r, hr, rfl⟩ - hs hst hn
    obtain ⟨n, rfl⟩ : ∃ m, n = m + 1 := ⟨n - 1, by simp only [length_cons] at hn; omega⟩
    rw [cons_append, readTree]
    by_cases hd : st.length = maxNestingDepth
    · rw [(token_open_deep hs hd _).1, if_neg]
      rintro ⟨-, h⟩
      simp only [Value.depth] at h
      omega
    · rw [(token_open hs hd _).1]
      change readElems pol n ⟨r ++ rest, arrayAt true, s :: st⟩ [] = _
      refine (readElems_text vs true r rest s st n [] hr (by omega) (by simpa using hn)).trans
        (if_congr ?_ rfl rfl)
      simp only [Policy.ok, Value.depth, Nat.add_assoc, Nat.add_comm 1]
  | .obj ms => by
    rintro t rest s st n ⟨r, hr, rfl⟩ - hs hst hn
    obtain ⟨n, rfl⟩ : ∃ m, n = m + 1 := ⟨n - 1, by simp only [length_cons] at hn; omega⟩
    rw [cons_append, readTree]
    by_cases hd : st.length = maxNestingDepth
    · rw [(token_open_deep hs hd _).2, if_neg]
      rintro ⟨-, h⟩
      simp only [Value.depth] at h
      omega
    · rw [(token_open hs hd _).2]
      change readMembers pol n ⟨r ++ rest, objectAt true, s :: st⟩ [] = _
      refine (readMembers_text ms true r rest s st n [] hr (by omega) (by simpa using hn)).trans
        (if_congr ?_ rfl rfl)
      simp only [Policy.ok, Value.depth, map_nil, Nat.add_assoc, Nat.add_comm 1]

theorem readElems_text : (vs : List Value) → ∀ (first : Bool) (r rest : List Char)
    (outer : TokenState) (st : List TokenState) (n : Nat) (acc : List Value), Elems first vs r →
    st.length + 1 ≤ maxNestingDepth → r.length ≤ n →
    readElems pol n ⟨r ++ rest, arrayAt first, outer :: st⟩ acc =
      if pol.elemsOk vs = true ∧ st.length + 1 + elemsDepth vs ≤ maxNestingDepth then
        some (.arr (acc ++ vs), ⟨rest, outer.valueEnd, st⟩) else none
  | [] => by
    rintro first r rest outer st n acc ⟨w, hw, rfl⟩ hst hn
    simp only [length_append, length_cons] at hn
    obtain ⟨n, rfl⟩ : ∃ m, n = m + 1 := ⟨n - 1, by omega⟩
    have hs : arrayAt first = .arrayStart ∨ arrayAt first = .arrayComma := by
      cases first
      · exact .inr rfl
      · exact .inl rfl
    have hP : pol.elemsOk [] = true ∧ st.length + 1 + elemsDepth [] ≤ maxNestingDepth := ⟨rfl, hst⟩
    rw [append_assoc, cons_append, nil_append, readElems,
      more_ws hw (by decide), token_lead (.ws hw), token_starts (by decide), dispatch,
      if_neg (by decide), if_pos rfl, closeDelim, if_pos (decide_eq_true hs), append_nil, if_pos hP]
    rfl
  | v :: vs => by
    rintro first r rest outer st n acc ⟨l, t, r', hl, ht, hr', rfl⟩ hst hn
    obtain ⟨c, cs, htc, hc, hc1, hc2⟩ := text_head ht
    have hlen : 0 < t.length := by rw [htc]; exact Nat.succ_pos _
    have hlen' := elems_length_pos hr'
    simp only [length_append] at hn
    obtain ⟨n, rfl⟩ : ∃ m, n = m + 1 := ⟨n - 1, by omega⟩
    have hmore : (Decoder.mk (l ++ (t ++ (r' ++ rest))) (arrayAt first) (outer :: st)).more = true := by
      rw [htc]
      exact more_lead hl hc hc1 hc2 _ _ _
    obtain ⟨s, hls, hsv, hse⟩ := lead_array hl
    have hv := readTree_text v t (r' ++ rest) s (outer :: st) n ht (numEnd_elems hr' rest) hsv hst (by omega)
    have hvs := readElems_text vs false r' rest outer st n (acc ++ [v]) hr' hst (by omega)
    rw [append_assoc, append_assoc, readElems, if_pos hmore, readTree_congr (token_lead hls _ _), hv, hse]
    simp only [length_cons, Policy.elemsOk, elemsDepth, Bool.and_eq_true]
    by_cases hvP : pol.ok v = true ∧ st.length + 1 + v.depth ≤ maxNestingDepth
    · rw [if_pos hvP]
      rw [append_assoc, singleton_append] at hvs
      refine hvs.trans (if_congr ?_ rfl rfl)
      exact ⟨fun h => ⟨⟨hvP.1, h.1⟩, by omega⟩, fun h => ⟨h.1.2, by omega⟩⟩
    · rw [if_neg hvP, if_neg fun h => hvP ⟨h.1.1, by omega⟩]

theorem readMembers_text : (ms : List (List Char × Value)) → ∀ (first : Bool) (r rest : List Char)
    (outer : TokenState) (st : List TokenState) (n : Nat) (acc : List (List Char × Value)),
    Members first ms r → st.length + 1 ≤ maxNestingDepth → r.length ≤ n →
    readMembers pol n ⟨r ++ rest, objectAt first, outer :: st⟩ acc =
      if pol.membersOk (acc.map Prod.fst) ms = true ∧
          st.length + 1 + membersDepth ms ≤ maxNestingDepth then
        some (.obj (acc ++ ms), ⟨rest, outer.valueEnd, st⟩) else none
  | [] => by
    rintro first r rest outer st n acc ⟨w, hw, rfl⟩ hst hn
    simp only [length_append, length_cons] at hn
    obtain ⟨n, rfl⟩ : ∃ m, n = m + 1 := ⟨n - 1, by omega⟩
    have hP : pol.membersOk (acc.map Prod.fst) [] = true ∧
        st.length + 1 + membersDepth [] ≤ maxNestingDepth := ⟨rfl, hst⟩
    obtain ⟨hmore, htok⟩ := token_objectEnd first hw rest outer st
    rw [append_assoc, cons_append, nil_append, readMembers, hmore, htok, append_nil, if_pos hP]
    rfl
  | (k, v) :: ms => by
    rintro first r rest outer st n acc ⟨l, kt, w, w', t, r', hl, hk, hw, hw', ht, hr', rfl⟩ hst hn
    obtain ⟨c, cs, htc, -, -, -⟩ := text_head ht
    have hlen : 0 < t.length := by rw [htc]; exact Nat.succ_pos _
    simp only [length_append, length_cons] at hn
    obtain ⟨n, rfl⟩ : ∃ m, n = m + 1 := ⟨n - 1, by omega⟩
    obtain ⟨hmore, hkey⟩ := token_member hl hk (w ++ ':' :: (w' ++ (t ++ (r' ++ rest)))) (outer :: st)
    have hcolon : LeadTo .objectColon (w ++ ':' :: w') .objectValue := (LeadTo.ws hw).trans (.colon (.ws hw'))
    have hv := readTree_text v t (r' ++ rest) .objectValue (outer :: st) n ht
      (numEnd_members hr' rest) rfl hst (by omega)
    have hms := readMembers_text ms false r' rest outer st n (acc ++ [(k, v)]) hr' hst (by omega)
    have hassoc : l ++ (kt ++ (w ++ ':' :: (w' ++ (t ++ r')))) ++ rest =
        l ++ (kt ++ (w ++ ':' :: (w' ++ (t ++ (r' ++ rest))))) := by simp
    have htok := token_lead hcolon (t ++ (r' ++ rest)) (outer :: st)
    rw [append_assoc, cons_append] at htok
    rw [hassoc, readMembers, if_pos hmore, hkey]
    simp only [Policy.membersOk, membersDepth, Bool.and_eq_true, readTree_congr htok, hv, length_cons]
    by_cases hkP : pol.key (acc.map Prod.fst) k = true
    · by_cases hvP : pol.ok v = true ∧ st.length + 1 + v.depth ≤ maxNestingDepth
      · rw [if_pos hkP, if_pos hvP]
        rw [append_assoc, singleton_append, map_append, map_singleton] at hms
        refine hms.trans (if_congr ?_ rfl rfl)
        exact ⟨fun h => ⟨⟨hkP, hvP.1, h.1⟩, by omega⟩, fun h => ⟨h.1.2.2, by omega⟩⟩
      · rw [if_pos hkP, if_neg hvP, if_neg fun h => hvP ⟨h.1.2.1, by omega⟩]
    · rw [if_neg hkP, if_neg fun h => hkP h.1.1]

end

/-! ### Soundness -/

def SoundTree (pol : Policy) (n : Nat) : Prop :=
  ∀ d v d', AwaitsValue d.state → readTree pol n d = some (v, d') →
    ∃ l s t, LeadTo d.state l s ∧ s.valueAllowed ∧ Text v t ∧
      d.input = l ++ (t ++ d'.input) ∧ d' = ⟨d'.input, s.valueEnd, d.stack⟩

def SoundElems (pol : Policy) (n : Nat) : Prop :=
  ∀ i first outer st acc v d', readElems pol n ⟨i, arrayAt first, outer :: st⟩ acc = some (v, d') →
    ∃ vs r, v = .arr (acc ++ vs) ∧ Elems first vs r ∧ i = r ++ d'.input ∧
      d' = ⟨d'.input, outer.valueEnd, st⟩

def SoundMembers (pol : Policy) (n : Nat) : Prop :=
  ∀ i first outer st acc v d', readMembers pol n ⟨i, objectAt first, outer :: st⟩ acc = some (v, d') →
    ∃ ms r, v = .obj (acc ++ ms) ∧ Members first ms r ∧ i = r ++ d'.input ∧
      d' = ⟨d'.input, outer.valueEnd, st⟩

theorem soundTree_succ (ihe : SoundElems pol n) (ihm : SoundMembers pol n) : SoundTree pol (n + 1) := by
  intro d v d' hs h
  rw [readTree] at h
  cases htok : d.token with
  | error e => simp [htok] at h
  | ok p =>
    obtain ⟨tok, e⟩ := p
    simp only [htok] at h
    obtain ⟨l, s, cs, hl, hi, hr⟩ := token_reads htok
    cases hr with
    | openArray hv =>
      obtain ⟨vs, r, rfl, hr, rfl, hd⟩ := ihe _ true _ _ _ _ _ h
      exact ⟨l, s, '[' :: r, hl, hv, ⟨r, hr, rfl⟩, hi, hd⟩
    | openObject hv =>
      obtain ⟨ms, r, rfl, hr, rfl, hd⟩ := ihm _ true _ _ _ _ _ h
      exact ⟨l, s, '{' :: r, hl, hv, ⟨r, hr, rfl⟩, hi, hd⟩
    | closeArray _ _ => simp at h
    | closeObject _ _ => simp at h
    | key hk _ => simp [not_keyAllowed_of_lead hl hs] at hk
    | @scalar v' t rest _ _ hv hsc ht =>
      have hret : v' = v ∧ ⟨rest, s.valueEnd, d.stack⟩ = d' := by
        cases v' <;> simp only [scalarToken, Option.some.injEq, reduceCtorEq] at hsc <;>
          subst hsc <;> simp only at h <;> split_ifs at h <;> cases h <;> exact ⟨rfl, rfl⟩
      obtain ⟨rfl, rfl⟩ := hret
      exact ⟨l, s, t, hl, hv, ht, hi, rfl⟩

theorem soundElems_succ (ihv : SoundTree pol n) (ihe : SoundElems pol n) : SoundElems pol (n + 1) := by
  intro i first outer st acc v d' h
  rw [readElems] at h
  split_ifs at h
  · cases hv : readTree pol n ⟨i, arrayAt first, outer :: st⟩ with
    | none => simp [hv] at h
    | some p =>
      obtain ⟨w, e⟩ := p
      simp only [hv] at h
      obtain ⟨l, s, t, hl, hs, ht, hi, he⟩ := ihv _ _ _ (awaitsValue_arrayAt first) hv
      obtain ⟨hlead, hse⟩ := lead_of_leadTo_array hl hs
      rw [he, hse] at h
      obtain ⟨vs, r, rfl, hr, hi', hd⟩ := ihe _ false _ _ _ _ _ h
      refine ⟨w :: vs, l ++ (t ++ r), by simp, ⟨l, t, r, hlead, ht, hr, rfl⟩, ?_, hd⟩
      simpa [hi'] using hi
  · cases htok : (Decoder.mk i (arrayAt first) (outer :: st)).token with
    | error e => simp [htok] at h
    | ok p =>
      obtain ⟨tok, e⟩ := p
      simp only [htok] at h
      split_ifs at h with hd
      subst hd
      cases h
      obtain ⟨l, s, cs, hl, hi, hr⟩ := token_reads htok
      cases hr with
      | closeArray hs hst =>
        cases hst
        exact ⟨[], l ++ [']'], by simp, ⟨l, ws_of_closeArray hl hs, rfl⟩, by simpa using hi, rfl⟩
      | scalar _ _ hsc _ => exact absurd hsc (scalarToken_ne_delim _ _)

theorem soundMembers_succ (ihv : SoundTree pol n) (ihm : SoundMembers pol n) : SoundMembers pol (n + 1) := by
  intro i first outer st acc v d' h
  rw [readMembers] at h
  split_ifs at h
  · split at h
    · rename_i k e htok
      obtain ⟨l, kt, rest, hl, hkt, rfl, rfl⟩ := member_of_token htok
      split_ifs at h
      cases hv : readTree pol n ⟨rest, .objectColon, outer :: st⟩ with
      | none => simp [hv] at h
      | some p =>
        obtain ⟨w, e⟩ := p
        simp only [hv] at h
        obtain ⟨l', s', t, hl', hs', ht, hrest, he⟩ := ihv _ _ _ (.inr (.inr (.inr (.inl rfl)))) hv
        obtain ⟨rfl, w1, w2, hw1, hw2, rfl⟩ := lead_of_leadTo_colon hl' hs'
        rw [he] at h
        obtain ⟨ms, r, rfl, hr, hi', hd⟩ := ihm _ false _ _ _ _ _ h
        refine ⟨(k, w) :: ms, l ++ (kt ++ (w1 ++ ':' :: (w2 ++ (t ++ r)))), by simp,
          ⟨l, kt, w1, w2, t, r, hl, hkt, hw1, hw2, ht, hr, rfl⟩, ?_, hd⟩
        simp only at hrest
        simp [hrest, hi']
    · cases h
  · split at h
    · rename_i tok e htok
      split_ifs at h with hd
      subst hd
      cases h
      obtain ⟨w, hw, hi, he⟩ := objectEnd_of_token htok
      exact ⟨[], w ++ ['}'], by simp, ⟨w, hw, rfl⟩, by simpa using hi, he⟩
    · cases h

theorem read_sound (pol : Policy) (n : Nat) : SoundTree pol n ∧ SoundElems pol n ∧ SoundMembers pol n := by
  induction n with
  | zero =>
    refine ⟨fun d v d' _ h => ?_, fun i first outer st acc v d' h => ?_,
      fun i first outer st acc v d' h => ?_⟩
    · simp [readTree] at h
    · simp [readElems] at h
    · simp [readMembers] at h
  | succ n ih => exact ⟨soundTree_succ ih.2.1 ih.2.2, soundElems_succ ih.1 ih.2.1,
      soundMembers_succ ih.1 ih.2.2⟩

/-! ### Documents -/

def readDocument (pol : Policy) (x : List Char) : Option Value :=
  match readTree pol (x.length + 1) (newDecoder x) with
  | none => none
  | some (v, d) => if d.token = .error .eof then some v else none

theorem readDocument_document (h : Document v x) :
    readDocument pol x = if pol.ok v ∧ v.depth ≤ maxNestingDepth then some v else none := by
  obtain ⟨w, t, w', hw, ht, hw', rfl⟩ := h
  have hr : NumEnd w' := by
    have := numEnd_ws hw' (r := []) fun _ _ h => nomatch h
    rwa [append_nil] at this
  have hp := @readTree_text pol v t w' .topValue [] ((w ++ (t ++ w')).length + 1) ht hr rfl
    (Nat.zero_le _) (by simp only [length_append]; omega)
  rw [length_nil, zero_add] at hp
  unfold readDocument newDecoder
  rw [readTree_congr (token_lead (.ws hw) _ _), hp]
  by_cases hP : pol.ok v ∧ v.depth ≤ maxNestingDepth
  · simp only [if_pos hP, token_ws_eof hw', if_true]
  · simp only [if_neg hP]

theorem document_of_readDocument (h : readDocument pol x = some v) : Document v x := by
  unfold readDocument newDecoder at h
  split at h
  · cases h
  · rename_i w d hp
    obtain ⟨l, s, t, hl, -, ht, hx, hd⟩ := (read_sound pol _).1 _ _ _ (.inl rfl) hp
    obtain ⟨hw, rfl⟩ := hl.of_still nofun nofun nofun
    rw [hd] at h
    split_ifs at h with he
    cases h
    exact ⟨l, t, d.input, hw, ht, ws_of_token_eof he, hx⟩

/-- A text is accepted exactly as the spelling of one value that the policy takes. -/
theorem readDocument_eq_some :
    readDocument pol x = some v ↔ Document v x ∧ pol.ok v ∧ v.depth ≤ maxNestingDepth := by
  constructor
  · intro h
    have hd := document_of_readDocument h
    rw [readDocument_document hd] at h
    split_ifs at h with hP
    exact ⟨hd, hP⟩
  · rintro ⟨hd, hP⟩
    rw [readDocument_document hd, if_pos hP]

end Lib.Json
