import AiiOs.CanonicalJson.Parse
import AiiOs.Lib.Json.Encoder

/-! The emitted text is the spelling of one value among all with the same data:
the one whose objects list their members in key order. -/

namespace AiiOs.CanonicalJson
open Lib Lib.Json List

/-! ### Key order -/

section KeyOrder
variable {α β : Type}

instance : Std.Total (keyLe (α := α)) := ⟨fun _ _ => bytesLe_total _ _⟩

instance : IsTrans (List Char × α) keyLe := ⟨fun _ _ _ => bytesLe_trans⟩

section
variable (ms : List (List Char × α))

def sortMembers : List (List Char × α) := ms.insertionSort keyLe

theorem sortMembers_perm : (sortMembers ms).Perm ms := perm_insertionSort keyLe ms

theorem sortMembers_sorted : (sortMembers ms).Pairwise keyLe := pairwise_insertionSort keyLe ms

end

theorem map_sortMembers (f : α → β) (ms : List (List Char × α)) :
    (sortMembers ms).map (Prod.map id f) = sortMembers (ms.map (Prod.map id f)) :=
  map_insertionSort _ _ _ _ fun _ _ _ _ => .rfl

theorem sortMembers_of_sorted {ms : List (List Char × α)} (h : ms.Pairwise keyLe) : sortMembers ms = ms :=
  List.Pairwise.insertionSort_eq h

theorem eq_of_sorted {ms ms' : List (List Char × α)} (h : ms.Pairwise keyLe)
    (h' : ms'.Pairwise keyLe) (hn : (ms.map Prod.fst).Nodup) (hn' : (ms'.map Prod.fst).Nodup)
    (hm : ∀ m, m ∈ ms ↔ m ∈ ms') : ms = ms' := by
  have hp : ms.Perm ms' := (perm_ext_iff_of_nodup hn.of_map hn'.of_map).mpr hm
  refine hp.eq_of_pairwise (fun a b ha hb hab hba => ?_) h h'
  exact inj_on_of_nodup_map hn' ((hm a).mp ha) hb (Utf8.encode_injective (bytesLe_antisymm hab hba))

end KeyOrder

/-! ### Normal values -/

theorem map_eq_map_of {α β γ : Type} {f : α → β} {g : α → γ} {l l' : List α}
    (hfg : ∀ a ∈ l, ∀ b ∈ l', f a = f b → g a = g b) (h : l.map f = l'.map f) : l.map g = l'.map g := by
  induction l generalizing l' with
  | nil => cases l' <;> simp_all
  | cons a l ih =>
    cases l' with
    | nil => simp at h
    | cons b l' =>
      simp only [map_cons, List.cons.injEq] at h ⊢
      refine ⟨hfg a (by simp) b (by simp) h.1, ih (fun a ha b hb => ?_) h.2⟩
      exact hfg a (mem_cons_of_mem _ ha) b (mem_cons_of_mem _ hb)

mutual

def normalize : Value → Value
  | .obj ms => .obj (sortMembers (normalizeMembers ms))
  | .arr vs => .arr (normalizeElems vs)
  | v => v

def normalizeElems : List Value → List Value
  | [] => []
  | v :: vs => normalize v :: normalizeElems vs

def normalizeMembers : List (List Char × Value) → List (List Char × Value)
  | [] => []
  | (k, v) :: ms => (k, normalize v) :: normalizeMembers ms

end

theorem normalizeElems_eq_map (vs : List Value) : normalizeElems vs = vs.map normalize := by
  induction vs with
  | nil => rfl
  | cons v vs ih => rw [normalizeElems, ih, map_cons]

theorem normalizeMembers_eq_map (ms : List (List Char × Value)) :
    normalizeMembers ms = ms.map (Prod.map id normalize) := by
  induction ms with
  | nil => rfl
  | cons m ms ih => rw [normalizeMembers, ih]; rfl

theorem emitElems_eq_map (vs : List Value) : emitElems vs = vs.map emitCanonicalJSONValue := by
  induction vs with
  | nil => rfl
  | cons v vs ih => rw [emitElems, ih, map_cons]

section
variable (ms : List (List Char × Value))

theorem emitMembers_eq_map : emitMembers ms = ms.map (Prod.map id emitCanonicalJSONValue) := by
  induction ms with
  | nil => rfl
  | cons m ms ih => rw [emitMembers, ih]; rfl

theorem emit_obj : emitCanonicalJSONValue (.obj ms) =
    '{' :: (writeMembers true (sortMembers (ms.map (Prod.map id emitCanonicalJSONValue))) ++ ['}']) := by
  rw [emitCanonicalJSONValue, emitMembers_eq_map, sortMembers]

theorem normalize_obj : normalize (.obj ms) = .obj (sortMembers (ms.map (Prod.map id normalize))) := by
  rw [normalize, normalizeMembers_eq_map]

end

variable {ms : List (List Char × Value)} {v : Value}

theorem mem_normalizeMembers {m : List Char × Value} :
    m ∈ sortMembers (ms.map (Prod.map id normalize)) ↔ ∃ v, (m.1, v) ∈ ms ∧ normalize v = m.2 := by
  rw [(sortMembers_perm _).mem_iff, List.mem_map]
  constructor
  · rintro ⟨⟨k, v⟩, hv, rfl⟩
    exact ⟨v, hv, rfl⟩
  · rintro ⟨v, hv, he⟩
    exact ⟨(m.1, v), hv, Prod.ext rfl he⟩

theorem normalizeMembers_nodup (h : (ms.map Prod.fst).Nodup) :
    ((sortMembers (ms.map (Prod.map id normalize))).map Prod.fst).Nodup := by
  rw [((sortMembers_perm _).map Prod.fst).nodup_iff, List.map_map]
  exact h

theorem emit_normalize (v : Value) : emitCanonicalJSONValue (normalize v) = emitCanonicalJSONValue v := by
  induction v using Value.induct with
  | null => rfl
  | bool b => rfl
  | num lit => rfl
  | str s => rfl
  | arr vs ih =>
    have hmap : (vs.map normalize).map emitCanonicalJSONValue = vs.map emitCanonicalJSONValue := by
      rw [List.map_map]
      exact map_congr_left ih
    rw [normalize, emitCanonicalJSONValue, emitCanonicalJSONValue, normalizeElems_eq_map,
      emitElems_eq_map, emitElems_eq_map, hmap]
  | obj ms ih =>
    have hmap : (ms.map (.map id normalize)).map (Prod.map id emitCanonicalJSONValue) =
        ms.map (.map id emitCanonicalJSONValue) := by
      rw [List.map_map]
      exact map_congr_left fun m hm => Prod.ext rfl (ih m hm)
    rw [normalize_obj, emit_obj, emit_obj, map_sortMembers, hmap, sortMembers_of_sorted
      (sortMembers_sorted _)]

theorem InProfile.normalize (h : InProfile v) : InProfile (normalize v) := by
  induction v using Value.induct with
  | null => exact h
  | bool b => exact h
  | num lit => exact h
  | str s => exact h
  | arr vs ih =>
    rw [CanonicalJson.normalize, normalizeElems_eq_map]
    refine elemsInProfile_iff.mpr (List.forall_mem_map.mpr fun v hv => ih v hv ?_)
    exact elemsInProfile_iff.mp h v hv
  | obj ms ih =>
    rw [normalize_obj]
    refine ⟨normalizeMembers_nodup h.1, membersInProfile_iff.mpr fun m hm => ?_⟩
    obtain ⟨v, hv, he⟩ := mem_normalizeMembers.mp hm
    rw [← he]
    exact ih _ hv (membersInProfile_iff.mp h.2 _ hv)

variable {n : Nat} {w : Value} {lit t : List Char} {α : Type} {x : Bytes}

theorem elemsDepth_le {vs : List Value} : elemsDepth vs ≤ n ↔ ∀ v ∈ vs, v.depth ≤ n := by
  induction vs with
  | nil => simp [elemsDepth]
  | cons v vs ih => simp [elemsDepth, ih]

theorem membersDepth_le : membersDepth ms ≤ n ↔ ∀ m ∈ ms, m.2.depth ≤ n := by
  induction ms with
  | nil => simp [membersDepth]
  | cons m ms ih => simp [membersDepth, ih]

theorem depth_normalize_le (v : Value) : (normalize v).depth ≤ v.depth := by
  induction v using Value.induct with
  | null => exact le_refl _
  | bool b => exact le_refl _
  | num lit => exact le_refl _
  | str s => exact le_refl _
  | arr vs ih =>
    rw [normalize, normalizeElems_eq_map]
    refine Nat.succ_le_succ (elemsDepth_le.mpr (List.forall_mem_map.mpr fun v hv => ?_))
    exact (ih v hv).trans (elemsDepth_le.mp (le_refl _) v hv)
  | obj ms ih =>
    rw [normalize_obj]
    refine Nat.succ_le_succ (membersDepth_le.mpr fun m hm => ?_)
    obtain ⟨v, hv, he⟩ := mem_normalizeMembers.mp hm
    rw [← he]
    exact (ih _ hv).trans (membersDepth_le.mp (le_refl _) _ hv)

theorem data_normalize (h : InProfile v) : (normalize v).data = v.data := by
  induction v using Value.induct with
  | null => rfl
  | bool b => rfl
  | num lit => rfl
  | str s => rfl
  | arr vs ih =>
    rw [normalize, normalizeElems_eq_map, Value.data, Value.data, elemsData_eq_map,
      elemsData_eq_map, List.map_map]
    exact congrArg _ (map_congr_left fun v hv => ih v hv (elemsInProfile_iff.mp h v hv))
  | obj ms ih =>
    rw [normalize_obj, Value.data]
    refine congrArg _ (membersData_congr h.1 (fun k w hw => ?_) fun k hk => ?_)
    · obtain ⟨v, hv, he⟩ := mem_normalizeMembers.mp hw
      exact ⟨v, hv, (ih _ hv (membersInProfile_iff.mp h.2 _ hv)).symm.trans (congrArg _ he)⟩
    · obtain ⟨⟨k', v⟩, hv, rfl⟩ := List.mem_map.mp hk
      exact List.mem_map.mpr ⟨(k', normalize v), mem_normalizeMembers.mpr ⟨v, hv, rfl⟩, rfl⟩

theorem normalize_eq_of_data (hv : InProfile v) (hw : InProfile w) (h : v.data = w.data) :
    normalize v = normalize w := by
  induction v using Value.induct generalizing w with
  | null => cases w <;> simp [Value.data] at h; rfl
  | bool b => cases w <;> simp [Value.data] at h; rw [h]
  | num lit => cases w <;> simp [Value.data] at h; rw [h]
  | str s => cases w <;> simp [Value.data] at h; rw [h]
  | arr vs ih =>
    cases w with
    | arr ws =>
      simp only [Value.data, elemsData_eq_map, Data.arr.injEq] at h
      rw [normalize, normalize, normalizeElems_eq_map, normalizeElems_eq_map]
      refine congrArg _ (map_eq_map_of (fun v hmv w hmw he => ?_) h)
      exact ih v hmv (elemsInProfile_iff.mp hv v hmv) (elemsInProfile_iff.mp hw w hmw) he
    | _ => simp [Value.data] at h
  | obj ms ih =>
    cases w with
    | obj ms' =>
      simp only [Value.data, Data.obj.injEq] at h
      rw [normalize_obj, normalize_obj]
      refine congrArg _ (eq_of_sorted (sortMembers_sorted _) (sortMembers_sorted _)
        (normalizeMembers_nodup hv.1) (normalizeMembers_nodup hw.1) fun m => ?_)
      have hpair : ∀ v w, (m.1, v) ∈ ms → (m.1, w) ∈ ms' → v.data = w.data →
          normalize v = normalize w := fun v w hmv hmw he =>
        ih _ hmv (membersInProfile_iff.mp hv.2 _ hmv) (membersInProfile_iff.mp hw.2 _ hmw) he
      rw [mem_normalizeMembers, mem_normalizeMembers]
      constructor
      · rintro ⟨v, hmv, he⟩
        have hd := membersData_of_mem hv.1 hmv
        rw [h] at hd
        obtain ⟨w, hmw, hwd⟩ := mem_of_membersData hd
        exact ⟨w, hmw, (hpair v w hmv hmw hwd.symm).symm.trans he⟩
      · rintro ⟨w, hmw, he⟩
        have hd := membersData_of_mem hw.1 hmw
        rw [← h] at hd
        obtain ⟨v, hmv, hvd⟩ := mem_of_membersData hd
        exact ⟨v, hmv, (hpair v w hmv hmw hvd).trans he⟩
    | _ => simp [Value.data] at h

/-! ### The emitted text -/

theorem str_emit (s : List Char) : Str s (emitCanonicalJSONString s) := by
  exact str_escape s

/-- A number of the profile: sign, digits, and a fraction that ends in no zero; a zero
without a fraction has no sign. -/
structure Shape (sgn i f : List Char) : Prop where
  sign : sgn = [] ∨ sgn = ['-']
  int : IntPart i
  frac : FracPart f
  last : f.getLast? ≠ some '0'
  zero : sgn = ['-'] → i = ['0'] → f ≠ []

theorem shape_of_canonicalFraction {sgn i f : List Char} (hs : sgn = [] ∨ sgn = ['-']) (hi : IntPart i)
    (h : canonicalFraction (sgn == ['-']) i f) : Shape sgn i f := by
  cases f with
  | nil =>
    refine ⟨hs, hi, .none, nofun, ?_⟩
    rintro rfl rfl
    cases h
  | cons c cs =>
    rw [canonicalFraction] at h
    split_ifs at h with hc
    simp only [Bool.and_eq_true, bne_iff_ne, beq_iff_eq] at h
    obtain ⟨hd, hcs⟩ := spanDigits_sound cs
    rw [h.2, append_nil] at hcs
    refine ⟨hs, hi, ?_, ?_, fun _ _ => cons_ne_nil c cs⟩
    · rw [hc, hcs]
      exact .some h.1.1 hd
    · have hne : cs ≠ [] := by
        rw [hcs]
        exact h.1.1
      rw [getLast?_cons_of_ne_nil hne, hcs]
      exact h.1.2

theorem shape_of_canonicalJSONNumber (h : canonicalJSONNumber lit) :
    ∃ sgn i f, Shape sgn i f ∧ lit = sgn ++ (i ++ f) := by
  unfold canonicalJSONNumber at h
  split_ifs at h
  obtain ⟨hs, hlit⟩ := scanSign_sound lit
  simp only at h
  split at h
  · cases h
  · rename_i c cs hcs
    rw [hcs] at hlit
    split_ifs at h with h0 hz hd
    · refine ⟨_, ['0'], cs, shape_of_canonicalFraction hs .zero h, ?_⟩
      rw [← h0]
      exact hlit
    · obtain ⟨hds, hspan⟩ := spanDigits_sound cs
      refine ⟨_, c :: (spanDigits cs).1, (spanDigits cs).2, shape_of_canonicalFraction hs
        (.pos hd h0 hds) h, ?_⟩
      rw [cons_append, ← hspan]
      exact hlit

theorem number_of_canonicalJSONNumber (h : canonicalJSONNumber lit) : Number lit := by
  obtain ⟨sgn, i, f, hshape, rfl⟩ := shape_of_canonicalJSONNumber h
  exact ⟨sgn, i, f, [], hshape.sign, hshape.int, hshape.frac, .none, by rw [append_nil]⟩

theorem ws_lead (first : Bool) : Lead first (if first then [] else [',']) := by
  cases first
  · exact ⟨[], [], ws_nil, ws_nil, rfl⟩
  · exact ws_nil

theorem elems_write (f : α → Value) (g : α → List Char) {l : List α} (h : ∀ a ∈ l, Text (f a) (g a))
    (first : Bool) : Elems first (l.map f) (writeElems first (l.map g) ++ [']']) := by
  induction l generalizing first with
  | nil => exact ⟨[], ws_nil, rfl⟩
  | cons a l ih =>
    rw [forall_mem_cons] at h
    exact ⟨_, g a, _, ws_lead first, h.1, ih h.2 false, by simp [writeElems]⟩

theorem members_write (f : α → Value) (g : α → List Char) {l : List (List Char × α)}
    (h : ∀ a ∈ l, Text (f a.2) (g a.2)) (first : Bool) :
    Members first (l.map (Prod.map id f)) (writeMembers first (l.map (Prod.map id g)) ++ ['}']) := by
  induction l generalizing first with
  | nil => exact ⟨[], ws_nil, rfl⟩
  | cons a l ih =>
    rw [forall_mem_cons] at h
    exact ⟨_, _, [], [], g a.2, _, ws_lead first, str_emit a.1, ws_nil, ws_nil, h.1, ih h.2 false,
      by simp [writeMembers]⟩

theorem text_emit (h : InProfile v) : Text (normalize v) (emitCanonicalJSONValue v) := by
  induction v using Value.induct with
  | null => rfl
  | bool b => rfl
  | num lit => exact ⟨rfl, number_of_canonicalJSONNumber h⟩
  | str s => exact str_emit s
  | arr vs ih =>
    rw [normalize, emitCanonicalJSONValue, normalizeElems_eq_map, emitElems_eq_map]
    exact ⟨_, elems_write _ _ (fun v hv => ih v hv (elemsInProfile_iff.mp h v hv)) true, rfl⟩
  | obj ms ih =>
    rw [normalize_obj, emit_obj, ← map_sortMembers, ← map_sortMembers]
    refine ⟨_, members_write _ _ (fun m hm => ?_) true, rfl⟩
    have hm' := (sortMembers_perm ms).mem_iff.mp hm
    exact ih m hm' (membersInProfile_iff.mp h.2 m hm')

theorem parseDocument_emit (h : InProfile v) (hd : v.depth ≤ maxNestingDepth) :
    parseDocument (emitCanonicalJSONValue v) = .ok (normalize v) := by
  refine parseDocument_eq_ok.mpr ⟨⟨[], _, [], ws_nil, text_emit h, ws_nil, ?_⟩, h.normalize,
    (depth_normalize_le v).trans hd⟩
  rw [nil_append, append_nil]

theorem emit_eq_iff (hv : InProfile v) (hw : InProfile w) (hvd : v.depth ≤ maxNestingDepth)
    (hwd : w.depth ≤ maxNestingDepth) :
    emitCanonicalJSONValue v = emitCanonicalJSONValue w ↔ v.data = w.data := by
  constructor
  · intro h
    have hn := (parseDocument_emit hv hvd).symm.trans (h ▸ parseDocument_emit hw hwd)
    rw [← data_normalize hv, ← data_normalize hw, Except.ok.inj hn]
  · intro h
    rw [← emit_normalize v, ← emit_normalize w, normalize_eq_of_data hv hw h]

/-! ### Escapes of the emitted text -/

theorem escapes_body {is : List Item} (h : Body t is) (hw : ∀ i ∈ is, i.whole)
    (rest : List Char) : validateJSONUnicodeEscapes true false (t ++ '"' :: rest) =
      validateJSONUnicodeEscapes false false rest := by
  induction h with
  | nil => rw [validateJSONUnicodeEscapes.eq_def]; simp
  | raw hq hb _ _ ih =>
    rw [forall_mem_cons] at hw
    rw [validateJSONUnicodeEscapes.eq_def]
    simpa [hb, bne_iff_ne.mpr hq] using ih hw.2
  | @esc e c t is he _ ih =>
    rw [forall_mem_cons] at hw
    have hu : e ≠ 'u' := by
      rintro rfl
      simp [simpleEscape] at he
    rw [cons_append, validateJSONUnicodeEscapes.eq_def]
    simp only [Bool.not_true, Bool.false_eq_true, if_false]
    rw [validateJSONUnicodeEscapes.eq_def]
    simpa [hu] using ih hw.2
  | uni hx _ ih =>
    rw [forall_mem_cons] at hw
    simp only [cons_append]
    rw [validateJSONUnicodeEscapes.eq_def]
    simp only [Bool.not_true, Bool.false_eq_true, if_false]
    rw [validateJSONUnicodeEscapes.eq_def]
    simpa [hx, hw.1.1, hw.1.2] using ih hw.2

theorem escapes_compact (h : Compact t) : validateJSONUnicodeEscapes false false t = .ok () := by
  induction h with
  | nil => rfl
  | plain hc _ _ ih =>
    rw [validateJSONUnicodeEscapes.eq_def]
    simpa [beq_eq_false_iff_ne.mpr hc] using ih
  | literal hb hw _ ih =>
    rw [validateJSONUnicodeEscapes.eq_def]
    simpa [escapes_body hb hw] using ih

theorem compact_string (s : List Char) : Compact (emitCanonicalJSONString s) := by
  exact compact_escape s

theorem compact_elems {ts : List (List Char)} (h : ∀ t ∈ ts, Compact t) (first : Bool) :
    Compact (writeElems first ts) := by
  induction ts generalizing first with
  | nil => exact .nil
  | cons t ts ih =>
    rw [forall_mem_cons] at h
    exact (compact_separator first).append (h.1.append (ih h.2 false))

theorem compact_members {ms : List (List Char × List Char)} (h : ∀ m ∈ ms, Compact m.2)
    (first : Bool) : Compact (writeMembers first ms) := by
  induction ms generalizing first with
  | nil => exact .nil
  | cons m ms ih =>
    rw [forall_mem_cons] at h
    exact (compact_separator first).append ((compact_string m.1).append
      (.plain (by decide) (by decide) (h.1.append (ih h.2 false))))

theorem compact_emit (h : InProfile v) : Compact (emitCanonicalJSONValue v) := by
  induction v using Value.induct with
  | null => exact compact_of_ne (by simp [emitCanonicalJSONValue])
  | bool b => cases b <;> exact compact_of_ne (by simp [emitCanonicalJSONValue])
  | num lit => exact compact_of_ne (number_plain (number_of_canonicalJSONNumber h))
  | str s => exact compact_string s
  | arr vs ih =>
    rw [emitCanonicalJSONValue, emitElems_eq_map]
    refine .plain (by decide) (by decide)
      ((compact_elems ?_ true).append (.plain (by decide) (by decide) .nil))
    exact List.forall_mem_map.mpr fun v hv => ih v hv (elemsInProfile_iff.mp h v hv)
  | obj ms ih =>
    rw [emit_obj]
    refine .plain (by decide) (by decide)
      ((compact_members (fun m hm => ?_) true).append (.plain (by decide) (by decide) .nil))
    obtain ⟨⟨k, v⟩, hv, rfl⟩ := List.mem_map.mp ((sortMembers_perm _).mem_iff.mp hm)
    exact ih _ hv (membersInProfile_iff.mp h.2 _ hv)

/-! ### CanonicalizeV1 -/

/-- The bytes are UTF-8 of a JSON text that spells a value with this data. -/
def Denotes (x : Bytes) (j : Data) : Prop :=
  ∃ text v, Utf8.decode? x = some text ∧ Document v text ∧ v.data = j

theorem canonicalizeV1_eq_ok {cx : Bytes} (h : canonicalizeV1 x = .ok cx) :
    ∃ text v, Utf8.decode? x = some text ∧ parseDocument text = .ok v ∧
      cx = Utf8.encode (emitCanonicalJSONValue v) := by
  unfold canonicalizeV1 at h
  split at h
  · cases h
  · rename_i text htext
    split at h
    · cases h
    · split at h
      · cases h
      · rename_i v hv
        cases h
        exact ⟨text, v, htext, hv, rfl⟩

theorem denotes_iff {text : List Char} (htext : Utf8.decode? x = some text)
    (hv : parseDocument text = .ok v) (j : Data) : Denotes x j ↔ j = v.data := by
  constructor
  · rintro ⟨text', w, hd, hw, rfl⟩
    rw [htext] at hd
    cases hd
    rw [eq_of_parseDocument hv hw]
  · rintro rfl
    exact ⟨text, v, htext, (parseDocument_eq_ok.mp hv).1, rfl⟩

theorem canonicalizeV1_emit (h : InProfile v) (hd : v.depth ≤ maxNestingDepth) :
    canonicalizeV1 (Utf8.encode (emitCanonicalJSONValue v)) =
      .ok (Utf8.encode (emitCanonicalJSONValue v)) := by
  simp only [canonicalizeV1, Utf8.decode?_encode, escapes_compact (compact_emit h),
    parseDocument_emit h hd, emit_normalize]

/-- Every accepted input denotes one JSON value; two accepted inputs have the same canonical
form exactly when their values are the same; a canonical form is its own canonical form. -/
theorem canonicalizeV1_normal_form {x y cx cy : Bytes} (hx : canonicalizeV1 x = .ok cx)
    (hy : canonicalizeV1 y = .ok cy) :
    ∃ jx jy, (∀ j, Denotes x j ↔ j = jx) ∧ (∀ j, Denotes y j ↔ j = jy) ∧
      (cx = cy ↔ jx = jy) ∧ canonicalizeV1 cx = .ok cx := by
  obtain ⟨tx, vx, htx, hvx, rfl⟩ := canonicalizeV1_eq_ok hx
  obtain ⟨ty, vy, hty, hvy, rfl⟩ := canonicalizeV1_eq_ok hy
  obtain ⟨-, hpx, hdx⟩ := parseDocument_eq_ok.mp hvx
  obtain ⟨-, hpy, hdy⟩ := parseDocument_eq_ok.mp hvy
  refine ⟨vx.data, vy.data, denotes_iff htx hvx, denotes_iff hty hvy, ?_, canonicalizeV1_emit hpx hdx⟩
  rw [Utf8.encode_injective.eq_iff]
  exact emit_eq_iff hpx hpy hdx hdy

theorem canonicalizeV1_reordered : ∃ jx jy,
      (∀ j, Denotes (Utf8.encode " \x7b\"b\" : 1.5,\"a\":\"\\u0041\"\x7d ".toList) j ↔ j = jx) ∧
      (∀ j, Denotes (Utf8.encode "\x7b\"a\":\"A\",\"b\":1.5\x7d".toList) j ↔ j = jy) ∧
      (Utf8.encode "\x7b\"a\":\"A\",\"b\":1.5\x7d".toList =
        Utf8.encode "\x7b\"a\":\"A\",\"b\":1.5\x7d".toList ↔ jx = jy) ∧
      canonicalizeV1 (Utf8.encode "\x7b\"a\":\"A\",\"b\":1.5\x7d".toList) =
        .ok (Utf8.encode "\x7b\"a\":\"A\",\"b\":1.5\x7d".toList) :=
  canonicalizeV1_normal_form (by decide +kernel) (by decide +kernel)

end AiiOs.CanonicalJson
