import AiiOs.Lib.Json.Literals

/-! What one call of `Decoder.token` reads: the spaces and separators before the
token, which move the state, and then the token itself. -/

namespace Lib.Json
open List

/-- Spaces and separators that take the state `s` to `s'`. -/
inductive LeadTo : TokenState → List Char → TokenState → Prop
  | nil {s : TokenState} : LeadTo s [] s
  | space {s s' : TokenState} {c : Char} {l : List Char} : isSpace c → LeadTo s l s' →
      LeadTo s (c :: l) s'
  | colon {s' : TokenState} {l : List Char} : LeadTo .objectValue l s' →
      LeadTo .objectColon (':' :: l) s'
  | arrayComma {s' : TokenState} {l : List Char} : LeadTo .arrayValue l s' →
      LeadTo .arrayComma (',' :: l) s'
  | objectComma {s' : TokenState} {l : List Char} : LeadTo .objectKey l s' →
      LeadTo .objectComma (',' :: l) s'

def Starts (c : Char) : Prop := isSpace c = false ∧ c ≠ ':' ∧ c ≠ ','

instance (c : Char) : Decidable (Starts c) := inferInstanceAs (Decidable (_ ∧ _))

variable {cs l w : List Char} {s s' : TokenState} {c : Char} {st : List TokenState}

theorem skipLead_lead (h : LeadTo s l s') (cs : List Char) : skipLead s (l ++ cs) = skipLead s' cs := by
  induction h with
  | nil => rfl
  | space hc _ ih => rw [cons_append, skipLead, if_pos hc, ih]
  | colon _ ih => rw [cons_append, skipLead, if_neg (by decide), if_pos rfl, if_pos rfl, ih]
  | arrayComma _ ih => rw [cons_append, skipLead, if_neg (by decide), if_neg (by decide),
      if_pos rfl, if_pos rfl, ih]
  | objectComma _ ih =>
    rw [cons_append, skipLead, if_neg (by decide), if_neg (by decide), if_pos rfl,
      if_neg (by decide), if_pos rfl, ih]

theorem skipLead_starts (h : Starts c) (cs : List Char) : skipLead s (c :: cs) = .ok (s, c, cs) := by
  rw [skipLead, if_neg (by simp [h.1]), if_neg h.2.1, if_neg h.2.2]

theorem skipLead_sound {rest : List Char} (h : skipLead s cs = .ok (s', c, rest)) :
    ∃ l, LeadTo s l s' ∧ Starts c ∧ cs = l ++ c :: rest := by
  induction cs generalizing s with
  | nil => simp [skipLead] at h
  | cons d cs ih =>
    rw [skipLead] at h
    split_ifs at h with hsp hcol hs hcom hs hs'
    · obtain ⟨l, hl, hc, rfl⟩ := ih h
      exact ⟨d :: l, .space hsp hl, hc, rfl⟩
    · obtain ⟨l, hl, hc, rfl⟩ := ih h
      subst hs hcol
      exact ⟨':' :: l, .colon hl, hc, rfl⟩
    · obtain ⟨l, hl, hc, rfl⟩ := ih h
      subst hs hcom
      exact ⟨',' :: l, .arrayComma hl, hc, rfl⟩
    · obtain ⟨l, hl, hc, rfl⟩ := ih h
      subst hs' hcom
      exact ⟨',' :: l, .objectComma hl, hc, rfl⟩
    · obtain ⟨rfl, rfl, rfl⟩ := h
      exact ⟨[], .nil, ⟨by simpa using hsp, hcol, hcom⟩, rfl⟩

theorem LeadTo.ws (h : Ws w) : LeadTo s w s := by
  induction w with
  | nil => exact .nil
  | cons c w ih => exact .space (h c (mem_cons_self ..)) (ih fun d hd => h d (mem_cons_of_mem _ hd))

theorem LeadTo.trans {s'' : TokenState} {l' : List Char} (h : LeadTo s l s') (h' : LeadTo s' l' s'') :
    LeadTo s (l ++ l') s'' := by
  induction h with
  | nil => exact h'
  | space hc _ ih => exact .space hc (ih h')
  | colon _ ih => exact .colon (ih h')
  | arrayComma _ ih => exact .arrayComma (ih h')
  | objectComma _ ih => exact .objectComma (ih h')

theorem Ws.cons {c : Char} {w : List Char} (hc : isSpace c) (hw : Ws w) : Ws (c :: w) := by
  intro d hd
  rcases mem_cons.mp hd with rfl | hd
  · exact hc
  · exact hw d hd

theorem ws_nil : Ws [] := fun _ h => absurd h (by simp)

theorem LeadTo.of_still (h : LeadTo s l s') (hc : s ≠ .objectColon) (ha : s ≠ .arrayComma)
    (ho : s ≠ .objectComma) : Ws l ∧ s' = s := by
  induction h with
  | nil => exact ⟨ws_nil, rfl⟩
  | space hsp _ ih => exact ⟨(ih hc ha ho).1.cons hsp, (ih hc ha ho).2⟩
  | colon _ _ => exact absurd rfl hc
  | arrayComma _ _ => exact absurd rfl ha
  | objectComma _ _ => exact absurd rfl ho

theorem LeadTo.of_waiting (h : LeadTo s l s') {sep : Char} {next : TokenState}
    (hs : (s = .objectColon ∧ sep = ':' ∧ next = .objectValue) ∨ (s = .arrayComma ∧ sep = ',' ∧
      next = .arrayValue) ∨ (s = .objectComma ∧ sep = ',' ∧ next = .objectKey)) :
    (Ws l ∧ s' = s) ∨ (s' = next ∧ ∃ w w', Ws w ∧ Ws w' ∧ l = w ++ sep :: w') := by
  induction h with
  | nil => exact .inl ⟨ws_nil, rfl⟩
  | space hsp _ ih =>
    rcases ih hs with ⟨hw, he⟩ | ⟨he, w, w', hw, hw', rfl⟩
    · exact .inl ⟨hw.cons hsp, he⟩
    · exact .inr ⟨he, _, w', hw.cons hsp, hw', rfl⟩
  | colon h _ =>
    obtain ⟨-, rfl, rfl⟩ | ⟨h0, -⟩ | ⟨h0, -⟩ := hs
    · have := h.of_still (by decide) (by decide) (by decide)
      exact .inr ⟨this.2, [], _, ws_nil, this.1, rfl⟩
    · cases h0
    · cases h0
  | arrayComma h _ =>
    obtain ⟨h0, -⟩ | ⟨-, rfl, rfl⟩ | ⟨h0, -⟩ := hs
    · cases h0
    · have := h.of_still (by decide) (by decide) (by decide)
      exact .inr ⟨this.2, [], _, ws_nil, this.1, rfl⟩
    · cases h0
  | objectComma h _ =>
    obtain ⟨h0, -⟩ | ⟨h0, -⟩ | ⟨-, rfl, rfl⟩ := hs
    · cases h0
    · cases h0
    · have := h.of_still (by decide) (by decide) (by decide)
      exact .inr ⟨this.2, [], _, ws_nil, this.1, rfl⟩

theorem token_lead (h : LeadTo s l s') (cs : List Char) (st : List TokenState) :
    (Decoder.mk (l ++ cs) s st).token = (Decoder.mk cs s' st).token := by
  unfold Decoder.token
  rw [skipLead_lead h]

theorem token_starts (h : Starts c) (cs : List Char) (st : List TokenState) :
    (Decoder.mk (c :: cs) s st).token = dispatch st s c cs := by
  unfold Decoder.token
  simp only [skipLead_starts h]

theorem token_ws_eof (h : Ws w) (st : List TokenState) : (Decoder.mk w s st).token = .error .eof := by
  have := token_lead (.ws (s := s) h) [] st
  rw [append_nil] at this
  rw [this]
  rfl

theorem skipLead_eof (h : skipLead s cs = .error .eof) : ∃ s', LeadTo s cs s' := by
  induction cs generalizing s with
  | nil => exact ⟨s, .nil⟩
  | cons c cs ih =>
    rw [skipLead] at h
    split_ifs at h with hsp hcol hs hcom hs hs'
    · exact (ih h).imp fun _ hl => .space hsp hl
    · subst hs hcol
      exact (ih h).imp fun _ hl => .colon hl
    · cases h
    · subst hs hcom
      exact (ih h).imp fun _ hl => .arrayComma hl
    · subst hs' hcom
      exact (ih h).imp fun _ hl => .objectComma hl
    · cases h

theorem dispatch_ne_eof : dispatch st s c cs ≠ .error .eof := by
  unfold dispatch openDelim closeDelim readScalar
  split_ifs <;> (try split) <;> (try split_ifs) <;> (try split) <;> simp_all

theorem ws_of_token_eof (h : (Decoder.mk w .topValue st).token = .error .eof) : Ws w := by
  unfold Decoder.token at h
  simp only at h
  split at h
  · rename_i e he
    cases h
    obtain ⟨s', hl⟩ := skipLead_eof he
    exact (hl.of_still (by decide) (by decide) (by decide)).1
  · exact absurd h dispatch_ne_eof

theorem dropWhile_ws (h : Ws w) (cs : List Char) : (w ++ cs).dropWhile isSpace = cs.dropWhile isSpace := by
  induction w with
  | nil => rfl
  | cons c w ih =>
    rw [cons_append, dropWhile_cons_of_pos (h c (mem_cons_self ..)), ih fun d hd =>
      h d (mem_cons_of_mem _ hd)]

theorem more_ws (hw : Ws w) (hc : isSpace c = false) (cs : List Char) (s : TokenState)
    (st : List TokenState) : (Decoder.mk (w ++ c :: cs) s st).more = (c ≠ ']' && c ≠ '}') := by
  unfold Decoder.more
  simp only [dropWhile_ws hw, dropWhile_cons_of_neg (p := isSpace) (a := c) (by simp [hc])]

end Lib.Json
