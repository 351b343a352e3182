import AiiOs.Lib.Json.Tree
import AiiOs.Lib.Text

/-! Decoding an object into a Go struct: the members of the object with the text
of each value, the field a key names, and the fold that stores one member after
the other. -/

namespace Lib.Json
open List Option Utf8

structure Member where
  key : List Char
  value : Value
  raw : List Char

def Member.pair (m : Member) : List Char × Value := (m.key, m.value)

/-- The members of an object up to its closing brace, and the input behind it. -/
def readFields : Nat → Decoder → List Member → Option (List Member × List Char)
  | 0, _, _ => none
  | n + 1, d, acc =>
    if d.more then
      match d.token with
      | .ok (.str key, d) =>
        match skipLead d.state d.input with
        | .ok (s, c, cs) =>
          match readTree .any n ⟨c :: cs, s, d.stack⟩ with
          | some (v, d') =>
            readFields n d' (acc ++ [⟨key, v, (c :: cs).take ((c :: cs).length - d'.input.length)⟩])
          | none => none
        | .error _ => none
      | _ => none
    else
      match d.token with
      | .ok (tok, d) => if tok = .delim '}' then some (acc, d.input) else none
      | .error _ => none

def readFirst (x : List Char) : Option ((Value ⊕ List Member) × List Char) :=
  match (newDecoder x).token with
  | .ok (.delim c, d) =>
    if c = '{' then (readFields x.length d []).map fun p => (.inr p.1, p.2)
    else (readTree .any (x.length + 1) (newDecoder x)).map fun p => (.inl p.1, p.2.input)
  | _ => (readTree .any (x.length + 1) (newDecoder x)).map fun p => (.inl p.1, p.2.input)

/-- The rune that stands for all runes with the same case folding, where that is
a lower case ASCII letter. -/
def foldRune (c : Char) : Char :=
  if 'A'.toNat ≤ c.toNat ∧ c.toNat ≤ 'Z'.toNat then Char.ofNat (c.toNat + 32)
  else if c = Char.ofNat 0x17F then 's'
  else if c = Char.ofNat 0x212A then 'k'
  else c

/-- The field a key names: the one spelled so, or else the one it folds to. -/
def fieldOf (names : List (List Char)) (key : List Char) : Option (List Char) :=
  if key ∈ names then some key
  else if key.map foldRune ∈ names then some (key.map foldRune)
  else none

/-- A struct type: its field names in lower case, whether unknown keys are refused,
and how a member is stored in a field. -/
structure StructType (σ : Type) where
  names : List (List Char)
  strict : Bool
  store : σ → List Char → Member → Option σ

def StructType.step {σ : Type} (T : StructType σ) (s : σ) (m : Member) : Option σ :=
  match fieldOf T.names m.key with
  | some name => T.store s name m
  | none => if T.strict then none else some s

/-- `Decode` into the struct `s`; `null` leaves it as it is. -/
def StructType.decode {σ : Type} (T : StructType σ) (s : σ) (x : List Char) : Option σ :=
  match readFirst x with
  | some (.inr ms, _) => ms.foldlM T.step s
  | some (.inl .null, _) => some s
  | _ => none

/-- `Unmarshal` into the struct `s`: nothing but spaces may follow the value. -/
def StructType.unmarshal {σ : Type} (T : StructType σ) (s : σ) (x : List Char) : Option σ :=
  match readFirst x with
  | some (.inr ms, rest) => if rest.all isSpace then ms.foldlM T.step s else none
  | some (.inl .null, rest) => if rest.all isSpace then some s else none
  | _ => none

/-! ### Field values -/

/-- A string into a string field; `null` keeps what is there. -/
def storeString (old : List Char) : Value → Option (List Char)
  | .str s => some s
  | .null => some old
  | _ => none

def intOfLiteral (lit : List Char) : Option Int := match lit with
  | [] => none
  | c :: cs =>
    if c = '-' then if cs.all Char.isDigit then some (-(natOfDigits cs : Int)) else none
    else if lit.all Char.isDigit then some (natOfDigits lit)
    else none

def storeInt64 (old : Int) : Value → Option Int
  | .num lit =>
    match intOfLiteral lit with
    | some i => if -2 ^ 63 ≤ i ∧ i < 2 ^ 63 then some i else none
    | none => none
  | .null => some old
  | _ => none

def storeUint64 (old : Nat) : Value → Option Nat
  | .num lit => if lit.all Char.isDigit ∧ natOfDigits lit < 2 ^ 64 then some (natOfDigits lit) else none
  | .null => some old
  | _ => none

/-! ### Members and their texts -/

def Fields (first : Bool) : List Member → List Char → Prop
  | [], r => ∃ w, Ws w ∧ r = w ++ ['}']
  | m :: ms, r => ∃ l kt w w' r', Lead first l ∧ Str m.key kt ∧ Ws w ∧ Ws w' ∧
      Text m.value m.raw ∧ Fields false ms r' ∧
      r = l ++ (kt ++ (w ++ ':' :: (w' ++ (m.raw ++ r'))))

variable {k r rest x : List Char} {ms : List Member} {first : Bool} {n : Nat} {kt : List Char}

theorem Fields.members (h : Fields first ms r) : Members first (ms.map Member.pair) r := by
  induction ms generalizing first r with
  | nil => exact h
  | cons m ms ih =>
    obtain ⟨l, kt, w, w', r', hl, hk, hw, hw', ht, hr, rfl⟩ := h
    exact ⟨l, kt, w, w', m.raw, r', hl, hk, hw, hw', ht, ih hr, rfl⟩

theorem Fields.mem_text (h : Fields first ms r) {m : Member} (hm : m ∈ ms) : Text m.value m.raw := by
  induction ms generalizing first r with
  | nil => simp at hm
  | cons a ms ih =>
    obtain ⟨l, kt, w, w', r', -, -, -, -, ht, hr, -⟩ := h
    rcases mem_cons.mp hm with rfl | hm
    · exact ht
    · exact ih hr hm

theorem any_ok (v : Value) : Policy.any.ok v := by
  have helems : ∀ vs, (∀ v ∈ vs, Policy.any.ok v) → Policy.any.elemsOk vs := fun vs ih => by
    induction vs with
    | nil => rfl
    | cons v vs ihv =>
      rw [forall_mem_cons] at ih
      rw [Policy.elemsOk, ih.1, ihv ih.2, Bool.and_self]
  have hmembers : ∀ (ms : List (List Char × Value)) keys, (∀ m ∈ ms, Policy.any.ok m.2) →
      Policy.any.membersOk keys ms := fun ms => by
    induction ms with
    | nil => intro _ _; rfl
    | cons m ms ihm =>
      intro keys ih
      rw [forall_mem_cons] at ih
      rw [Policy.membersOk, ih.1, ihm _ ih.2]
      rfl
  induction v using Value.induct with
  | null => rfl
  | bool b => rfl
  | num lit => rfl
  | str s => rfl
  | arr vs ih => exact helems vs ih
  | obj ms ih => exact hmembers ms [] ih

theorem fields_key_length (h : Str k kt) : 2 ≤ kt.length := by
  obtain ⟨body, is, -, -, rfl⟩ := h
  simp

theorem readFields_complete (h : Fields first ms r) (rest : List Char) (outer : TokenState)
    (st : List TokenState) (hd : st.length + 1 + membersDepth (ms.map Member.pair) ≤ maxNestingDepth)
    (hn : r.length ≤ n) (acc : List Member) :
    readFields n ⟨r ++ rest, objectAt first, outer :: st⟩ acc = some (acc ++ ms, rest) := by
  induction ms generalizing first r n acc with
  | nil =>
    obtain ⟨w, hw, rfl⟩ := h
    simp only [length_append, length_cons] at hn
    obtain ⟨n, rfl⟩ : ∃ m, n = m + 1 := ⟨n - 1, by omega⟩
    obtain ⟨hmore, htok⟩ := token_objectEnd first hw rest outer st
    rw [append_assoc, cons_append, nil_append, readFields, hmore, htok, append_nil]
    rfl
  | cons m ms ih =>
    obtain ⟨l, kt, w, w', r', hl, hk, hw, hw', ht, hr', rfl⟩ := h
    simp only [map_cons, Member.pair, membersDepth] at hd
    simp only [length_append, length_cons] at hn
    obtain ⟨n, rfl⟩ : ∃ m, n = m + 1 := ⟨n - 1, by omega⟩
    obtain ⟨hmore, hkey⟩ := token_member hl hk (w ++ ':' :: (w' ++ (m.raw ++ (r' ++ rest)))) (outer :: st)
    have hcolon : LeadTo .objectColon (w ++ ':' :: w') .objectValue := (LeadTo.ws hw).trans (.colon (.ws hw'))
    have hv := @readTree_text .any m.value m.raw (r' ++ rest) .objectValue (outer :: st) n ht
      (numEnd_members hr'.members rest) rfl (by simp only [length_cons]; omega)
      (by have := fields_key_length hk; omega)
    rw [if_pos ⟨any_ok _, by simp only [length_cons]; omega⟩] at hv
    have hassoc : l ++ (kt ++ (w ++ ':' :: (w' ++ (m.raw ++ r')))) ++ rest =
        l ++ (kt ++ (w ++ ':' :: (w' ++ (m.raw ++ (r' ++ rest))))) := by simp
    have hskip := skipLead_lead hcolon (m.raw ++ (r' ++ rest))
    rw [append_assoc, cons_append] at hskip
    obtain ⟨c, cs, htc, hc, -, -⟩ := text_head ht
    have hraw : m.raw ++ (r' ++ rest) = c :: (cs ++ (r' ++ rest)) := by rw [htc]; rfl
    rw [hraw, skipLead_starts hc, ← hraw] at hskip
    rw [hassoc, readFields, if_pos hmore, hkey]
    simp only [hskip]
    rw [← hraw, hv]
    simp only [length_append, Nat.add_sub_cancel, take_left]
    rw [show TokenState.objectValue.valueEnd = objectAt false from rfl,
      ih hr' (by omega) (by omega), append_assoc, singleton_append]

variable {l cs : List Char} {c : Char} {i : Int} {v : Value} {a : Member} {σ : Type}

theorem leadTo_starts {s s' : TokenState} (h : LeadTo s l s') (hc : Starts c)
    (he : c :: cs = l ++ rest) : l = [] ∧ s' = s := by
  cases h with
  | nil => exact ⟨rfl, rfl⟩
  | space hsp _ => cases he; simp [hc.1] at hsp
  | colon _ => cases he; exact absurd rfl hc.2.1
  | arrayComma _ => cases he; exact absurd rfl hc.2.2
  | objectComma _ => cases he; exact absurd rfl hc.2.2

theorem readFields_sound {i : List Char} {outer : TokenState} {st : List TokenState}
    {acc res : List Member} (h : readFields n ⟨i, objectAt first, outer :: st⟩ acc = some (res, rest)) :
    ∃ ms r, res = acc ++ ms ∧ Fields first ms r ∧ i = r ++ rest := by
  induction n generalizing i first acc with
  | zero => simp [readFields] at h
  | succ n ih =>
    rw [readFields] at h
    split_ifs at h
    · split at h
      · rename_i k e htok
        obtain ⟨l, kt, rest', hl, hkt, rfl, rfl⟩ := member_of_token htok
        cases hskip : skipLead .objectColon rest' with
        | error e => simp [hskip] at h
        | ok q =>
          obtain ⟨s', c, cs⟩ := q
          simp only [hskip] at h
          obtain ⟨l', hl', hc, rfl⟩ := skipLead_sound hskip
          cases hv : readTree .any n ⟨c :: cs, s', outer :: st⟩ with
          | none => simp [hv] at h
          | some q =>
            obtain ⟨v, d'⟩ := q
            simp only [hv] at h
            have haw : AwaitsValue s' := by
              rcases hl'.of_waiting (.inl ⟨rfl, rfl, rfl⟩) with ⟨-, rfl⟩ | ⟨rfl, -⟩
              · exact .inr (.inr (.inr (.inl rfl)))
              · exact .inr (.inr (.inr (.inr rfl)))
            obtain ⟨l'', s'', t, hl'', hs'', ht, hcs, hd'⟩ := (read_sound .any n).1 _ _ _ haw hv
            obtain ⟨rfl, rfl⟩ := leadTo_starts hl'' hc hcs
            obtain ⟨hse, w, w', hw, hw', rfl⟩ := lead_of_leadTo_colon hl' hs''
            simp only [nil_append] at hcs
            rw [hcs, hd', hse] at h
            have hloop : readFields n ⟨d'.input, objectAt false, outer :: st⟩ _ = _ := h
            obtain ⟨ms, r, rfl, hr, hi'⟩ := ih hloop
            refine ⟨⟨k, v, t⟩ :: ms, l ++ (kt ++ (w ++ ':' :: (w' ++ (t ++ r)))), by simp,
              ⟨l, kt, w, w', r, hl, hkt, hw, hw', ht, hr, rfl⟩, ?_⟩
            simp [hcs, hi']
      · cases h
    · split at h
      · rename_i tok e htok
        split_ifs at h with hd
        subst hd
        cases h
        obtain ⟨w, hw, hi, -⟩ := objectEnd_of_token htok
        exact ⟨[], w ++ ['}'], by simp, ⟨w, hw, rfl⟩, by simpa using hi⟩
      · cases h

theorem readFirst_object {w : List Char} (hw : Ws w) (h : Fields true ms r)
    (hd : 1 + membersDepth (ms.map Member.pair) ≤ maxNestingDepth) (rest : List Char) :
    readFirst (w ++ '{' :: (r ++ rest)) = some (.inr ms, rest) := by
  have htok : (newDecoder (w ++ '{' :: (r ++ rest))).token =
      .ok (.delim '{', ⟨r ++ rest, .objectStart, [.topValue]⟩) := by
    rw [newDecoder, token_lead (.ws hw)]
    exact (token_open rfl (by decide) _).2
  unfold readFirst
  simp only [htok]
  rw [show .objectStart = objectAt true from rfl,
    readFields_complete h rest .topValue [] (by simpa using hd)
    (by simp only [length_append, length_cons]; omega)]
  rfl

theorem fields_of_readFirst (h : readFirst x = some (.inr ms, rest)) :
    ∃ w r, Ws w ∧ Fields true ms r ∧ x = w ++ '{' :: (r ++ rest) := by
  unfold readFirst at h
  split at h
  · rename_i c d htok
    split_ifs at h with hc
    · simp only [map_eq_some_iff] at h
      obtain ⟨⟨res, rest'⟩, h, rfl, rfl⟩ := h
      obtain ⟨l, s, cs, hl, hi, hr⟩ := token_reads htok
      obtain ⟨hw, rfl⟩ := hl.of_still nofun nofun nofun
      subst hc
      cases hr with
      | openObject _ =>
        have hloop : readFields x.length ⟨_, objectAt true, [.topValue]⟩ [] = _ := h
        obtain ⟨ms, r, rfl, hr, rfl⟩ := readFields_sound hloop
        exact ⟨l, r, hw, hr, hi⟩
      | scalar _ _ hsc _ => exact absurd hsc (scalarToken_ne_delim _ _)
    · simp at h
  · simp at h

theorem document_fields (hd : Document v x) (hv : v.depth ≤ maxNestingDepth)
    (h : readFirst x = some (.inr ms, rest)) : v = .obj (ms.map Member.pair) ∧ Ws rest := by
  obtain ⟨w, r, hw, hr, hx⟩ := fields_of_readFirst h
  obtain ⟨w1, t, w2, hw1, ht, hw2, hx'⟩ := hd
  have hend : NumEnd w2 := by
    have := numEnd_ws hw2 (r := []) fun _ _ h => nomatch h
    rwa [append_nil] at this
  have hlen := congrArg List.length hx
  have hlen' := congrArg List.length hx'
  simp only [length_append] at hlen hlen'
  have hread := @readTree_text .any v t w2 .topValue [] (x.length + 1) ht hend rfl (Nat.zero_le _) (by omega)
  rw [if_pos ⟨any_ok v, by simpa using hv⟩, ← readTree_congr (token_lead (.ws hw1) _ _), ← hx', hx,
    readTree_congr (token_lead (.ws hw) _ _)] at hread
  change readMembers .any _ ⟨r ++ rest, objectAt true, [.topValue]⟩ [] = _ at hread
  rw [readMembers_text _ true r rest .topValue [] _ [] hr.members (by decide) (by
    simp only [length_append, length_cons]; omega)] at hread
  split_ifs at hread
  simp only [Option.some.injEq, Prod.mk.injEq, Decoder.mk.injEq] at hread
  exact ⟨hread.1.symm, hread.2.1 ▸ hw2⟩

/-! ### Lengths -/

theorem itemsRunes_length (is : List Item) : (itemsRunes is).length ≤ is.length := by
  fun_induction itemsRunes is <;> (simp_all; try omega)

theorem Body.length_le {t : List Char} {is : List Item} (h : Body t is) : is.length ≤ t.length := by
  induction h with
  | nil => exact le_refl _
  | raw _ _ _ _ ih => exact Nat.succ_le_succ ih
  | esc _ _ ih => simp only [length_cons]; omega
  | uni _ _ ih => simp only [length_cons]; omega

theorem Str.length_le (h : Str k kt) : k.length + 2 ≤ (Utf8.encode kt).length := by
  obtain ⟨body, is, hb, rfl, rfl⟩ := h
  have h1 := itemsRunes_length is
  have h2 := hb.length_le
  have h3 := length_le_length_encode ('"' :: (body ++ ['"']))
  simp only [length_cons, length_append] at h3
  omega

def Member.weight (m : Member) : Nat := m.key.length + (Utf8.encode m.raw).length + 4

theorem Lead.length_pos (h : Lead false l) : 1 ≤ (Utf8.encode l).length := by
  obtain ⟨w, w', -, -, rfl⟩ := h
  have := length_le_length_encode (w ++ ',' :: w')
  simp only [length_append, length_cons] at this
  omega

theorem Fields.length_le (h : Fields first ms r) :
    (ms.map Member.weight).sum + 1 ≤ (Utf8.encode r).length + (if first then 1 else 0) := by
  induction ms generalizing first r with
  | nil =>
    obtain ⟨w, -, rfl⟩ := h
    have := length_le_length_encode (w ++ ['}'])
    simp only [length_append, length_cons] at this
    simp only [map_nil, sum_nil]
    omega
  | cons m ms ih =>
    obtain ⟨l, kt, w, w', r', hl, hk, -, -, -, hr, rfl⟩ := h
    have hlen := hk.length_le
    have hrest := ih hr
    have hcolon : 1 ≤ (String.utf8EncodeChar ':').length := by decide
    have hlead : 1 ≤ (Utf8.encode l).length + (if first then 1 else 0) := by
      cases first
      · exact hl.length_pos
      · exact Nat.le_add_left _ _
    simp only [map_cons, sum_cons, Member.weight, encode_append, encode_cons,
      length_append, Bool.false_eq_true, if_false] at hrest ⊢
    omega

theorem weight_le_sum (ha : a ∈ ms) : a.weight ≤ (ms.map Member.weight).sum := by
  induction ms with
  | nil => simp at ha
  | cons m ms ih =>
    rw [map_cons, sum_cons]
    rcases mem_cons.mp ha with rfl | ha
    · exact Nat.le_add_right _ _
    · have := ih ha
      omega

theorem weight_add_le {b : Member} (ha : a ∈ ms) (hb : b ∈ ms) (hab : a ≠ b) :
    a.weight + b.weight ≤ (ms.map Member.weight).sum := by
  induction ms with
  | nil => simp at ha
  | cons m ms ih =>
    rw [map_cons, sum_cons]
    rcases mem_cons.mp ha with rfl | ha
    · have := weight_le_sum ((mem_cons.mp hb).resolve_left (Ne.symm hab))
      omega
    · rcases mem_cons.mp hb with hbm | hb
      · have := weight_le_sum ha
        rw [hbm]
        omega
      · have := ih ha hb
        omega

theorem Fields.closed {first : Bool} {ms : List Member} {r : List Char} (h : Fields first ms r) :
    ∃ r', r = r' ++ ['}'] := by
  induction ms generalizing first r with
  | nil =>
    obtain ⟨w, -, rfl⟩ := h
    exact ⟨w, rfl⟩
  | cons m ms ih =>
    obtain ⟨l, kt, w, w', r', -, -, -, -, -, hr, rfl⟩ := h
    obtain ⟨r'', rfl⟩ := ih hr
    exact ⟨l ++ (kt ++ (w ++ ':' :: (w' ++ (m.raw ++ r'')))), by simp⟩

/-! ### What a struct holds after decoding -/

theorem foldlM_invariant {α : Type} {f : σ → α → Option σ} {P : σ → Prop} {l : List α} {s s' : σ}
    (h : l.foldlM f s = some s') (hs : P s)
    (step : ∀ s a s', a ∈ l → P s → f s a = some s' → P s') : P s' := by
  induction l generalizing s with
  | nil =>
    cases h
    exact hs
  | cons a l ih =>
    rw [foldlM_cons, bind_eq_bind, bind_eq_some_iff] at h
    obtain ⟨t, ht, h⟩ := h
    exact ih h (step s a t (mem_cons_self ..) hs ht) fun s b s' hb => step s b s' (mem_cons_of_mem _ hb)

theorem StructType.decode_eq_some {T : StructType σ} {s s' : σ} (h : T.decode s x = some s') :
    s' = s ∨ ∃ ms rest, readFirst x = some (.inr ms, rest) ∧ ms.foldlM T.step s = some s' := by
  unfold StructType.decode at h
  split at h
  · rename_i ms rest hx
    exact .inr ⟨ms, rest, hx, h⟩
  · cases h
    exact .inl rfl
  · cases h

theorem fieldOf_length {names : List (List Char)} {key name : List Char}
    (h : fieldOf names key = some name) : name.length = key.length := by
  unfold fieldOf at h
  split_ifs at h <;> cases h
  · rfl
  · exact length_map _

theorem storeString_eq_some {old s : List Char} (h : storeString old v = some s) : s = old ∨ v = .str s := by
  unfold storeString at h
  split at h <;> cases h
  · exact .inr rfl
  · exact .inl rfl

theorem storeInt64_range {old : Int} (h : storeInt64 old v = some i)
    (hold : -2 ^ 63 ≤ old ∧ old < 2 ^ 63) : -2 ^ 63 ≤ i ∧ i < 2 ^ 63 := by
  unfold storeInt64 at h
  split at h
  · split at h
    · split_ifs at h with hi
      cases h
      exact hi
    · cases h
  · cases h
    exact hold
  · cases h

theorem storeUint64_lt {old : Nat} (h : storeUint64 old v = some n) (hold : old < 2 ^ 64) : n < 2 ^ 64 := by
  unfold storeUint64 at h
  split at h
  · split_ifs at h with hn
    cases h
    exact hn.2
  · cases h
    exact hold
  · cases h

/-! ### Writing members -/

def PlainKey (k : List Char) : Prop := ∀ c ∈ k, c ≠ '"' ∧ c ≠ '\\' ∧ 0x20 ≤ c.toNat

instance (k : List Char) : Decidable (PlainKey k) := List.decidableBAll _ k

theorem body_plain (h : PlainKey k) : Body k (k.map .chr) := by
  induction k with
  | nil => exact .nil
  | cons c k ih =>
    obtain ⟨hc, hk⟩ := forall_mem_cons.mp h
    exact .raw hc.1 hc.2.1 hc.2.2 (ih hk)

theorem itemsRunes_chr (k : List Char) : itemsRunes (k.map .chr) = k := by
  induction k with
  | nil => rfl
  | cons c k ih => rw [map_cons, itemsRunes, ih]

theorem str_plain (h : PlainKey k) :
    Str k ('"' :: (k ++ ['"'])) := ⟨k, _, body_plain h, (itemsRunes_chr k).symm, rfl⟩

def writeFields (first : Bool) : List Member → List Char
  | [] => ['}']
  | m :: ms => (if first then [] else [',']) ++
      (('"' :: (m.key ++ ['"'])) ++ ':' :: (m.raw ++ writeFields false ms))

section
variable (hk : ∀ m ∈ ms, PlainKey m.key)
include hk

section
variable (ht : ∀ m ∈ ms, Text m.value m.raw)
include ht

theorem fields_write (first : Bool) : Fields first ms (writeFields first ms) := by
  induction ms generalizing first with
  | nil => exact ⟨[], ws_nil, rfl⟩
  | cons m ms ih =>
    rw [forall_mem_cons] at hk ht
    refine ⟨_, _, [], [], _, ?_, str_plain hk.1, ws_nil, ws_nil, ht.1, ih hk.2 ht.2 false, rfl⟩
    cases first
    · exact ⟨[], [], ws_nil, ws_nil, rfl⟩
    · exact ws_nil

theorem readFirst_write (hd : 1 + membersDepth (ms.map Member.pair) ≤ maxNestingDepth) :
    readFirst ('{' :: writeFields true ms) = some (.inr ms, []) := by
  have := readFirst_object ws_nil (fields_write hk ht true) hd []
  rwa [append_nil] at this

theorem text_write : Text (.obj (ms.map Member.pair)) ('{' :: writeFields true ms) :=
  ⟨_, (fields_write hk ht true).members, rfl⟩

end

end

theorem StructType.decode_write (T : StructType σ) (s : σ) (hk : ∀ m ∈ ms, PlainKey m.key)
    (ht : ∀ m ∈ ms, Text m.value m.raw) (hd : 1 + membersDepth (ms.map Member.pair) ≤ maxNestingDepth) :
    T.decode s ('{' :: writeFields true ms) = ms.foldlM T.step s := by
  rw [StructType.decode, readFirst_write hk ht hd]

/-! ### Integers -/

theorem intPart_decimal (n : Nat) : IntPart (decimal n) := by
  by_cases hn : n = 0
  · subst hn
    exact .zero
  · obtain ⟨c, cs, he, hc, h0⟩ := decimalFuel_head n n (le_refl n) hn
    have hd := decimal_digits n
    rw [decimal, he] at hd ⊢
    exact .pos hc h0 (forall_mem_cons.mp hd).2

theorem number_decimal (n : Nat) : Number (decimal n) :=
  ⟨[], decimal n, [], [], .inl rfl, intPart_decimal n, .none, .none, by simp⟩

theorem number_decimalInt (i : Int) : Number (decimalInt i) := by
  unfold decimalInt
  split_ifs
  · exact ⟨['-'], decimal i.natAbs, [], [], .inr rfl, intPart_decimal _, .none, .none, by simp⟩
  · exact number_decimal _

theorem all_digits_decimal (n : Nat) : (decimal n).all Char.isDigit := List.all_eq_true.mpr (decimal_digits n)

theorem decimal_head_ne_minus (h : decimal n = c :: cs) : c ≠ '-' :=
  digit_ne (decimal_digits n c (h ▸ mem_cons_self ..)) (by decide)

theorem intOfLiteral_decimalInt (i : Int) : intOfLiteral (decimalInt i) = some i := by
  unfold decimalInt
  split_ifs with hi
  · simp only [intOfLiteral, if_true, all_digits_decimal, natOfDigits_decimal]
    congr 1
    omega
  · obtain ⟨c, cs, hc⟩ := exists_cons_of_ne_nil (decimal_ne_nil i.natAbs)
    have hall := all_digits_decimal i.natAbs
    have hval := natOfDigits_decimal i.natAbs
    rw [hc] at hall hval ⊢
    simp only [intOfLiteral, if_neg (decimal_head_ne_minus hc), hall, if_true]
    congr 1
    omega

end Lib.Json
