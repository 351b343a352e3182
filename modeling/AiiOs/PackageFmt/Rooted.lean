import AiiOs.PackageFmt.Canonical

/-! The members that are admitted form one rooted tree, also on a file system that does
not tell upper case from lower. -/

namespace AiiOs.PackageFmt
open Lib List

variable {limits : TarLimits} {w w' : TarWalker}

/-! ### Paths and their components -/

def folded (path : Bytes) : Bytes := path.map asciiLower

def Under (path ancestor : Bytes) : Prop := ∃ rest, path = ancestor ++ slash :: rest

theorem asciiLower_eq_slash {b : UInt8} : asciiLower b = slash ↔ b = slash := by
  rw [asciiLower, slash]
  split_ifs with h
  · simp only [UInt8.le_iff_toNat_le, ← UInt8.toNat_inj, UInt8.toNat_add, UInt8.reduceToNat] at h ⊢
    omega
  · rfl

theorem splitOn_folded (path : Bytes) : (folded path).splitOn slash = (path.splitOn slash).map folded := by
  induction path with
  | nil => rfl
  | cons b path ih =>
    rw [folded, map_cons, splitOn_cons_eq_if_modifyHead, splitOn_cons_eq_if_modifyHead]
    change (if _ then [] :: (folded path).splitOn slash else ((folded path).splitOn slash).modifyHead _) = _
    rw [ih]
    by_cases hb : b = slash
    · simp [hb, asciiLower_eq_slash, folded]
    · have hlower : ¬asciiLower b = slash := fun h => hb (asciiLower_eq_slash.mp h)
      simp only [beq_iff_eq, hb, hlower]
      cases path.splitOn slash <;> rfl

theorem splitOn_slash_injective : Function.Injective (List.splitOn slash) := by
  intro p q h
  calc p = [slash].intercalate (p.splitOn slash) := (intercalate_splitOn slash).symm
    _ = [slash].intercalate (q.splitOn slash) := by rw [h]
    _ = q := intercalate_splitOn slash

variable {c path top : Bytes} {m : TarMember} {ms : List TarMember}

theorem slash_not_mem_of_mem_splitOn (hc : c ∈ path.splitOn slash) : slash ∉ c := by
  induction path generalizing c with
  | nil => simp_all
  | cons b path ih =>
    rw [splitOn_cons_eq_if_modifyHead] at hc
    split_ifs at hc with hb
    · rcases mem_cons.mp hc with rfl | hc
      · exact not_mem_nil
      · exact ih hc
    · cases hs : path.splitOn slash with
      | nil =>
        rw [hs] at hc
        cases hc
      | cons first rest =>
        rw [hs] at hc ih
        rcases mem_cons.mp hc with rfl | hc
        · rw [mem_cons, not_or]
          exact ⟨fun h => hb (by simp [h]), ih mem_cons_self⟩
        · exact ih (mem_cons_of_mem _ hc)

variable {b ancestor left right a parent : Bytes} {t : List Bytes} {names : Bool}

theorem under_of_components (ht : t ≠ [])
    (h : path.splitOn slash = ancestor.splitOn slash ++ t) : Under path ancestor := by
  refine ⟨[slash].intercalate t, splitOn_slash_injective ?_⟩
  have hclean : ∀ c ∈ t, slash ∉ c := by
    intro c hc
    have hmem : c ∈ path.splitOn slash := h ▸ mem_append_right _ hc
    exact slash_not_mem_of_mem_splitOn hmem
  rw [h, splitOn_append_cons_self, splitOn_intercalate slash hclean ht]

theorem pathIsExactAncestor_of_under (h : Under path ancestor) : pathIsExactAncestor ancestor path := by
  obtain ⟨rest, rfl⟩ := h
  simp [pathIsExactAncestor]

/-! ### Siblings that only differ in case -/

theorem siblingCollision_comm (ls rs : List Bytes) : siblingCollision ls rs = siblingCollision rs ls := by
  induction ls generalizing rs with
  | nil => cases rs <;> rfl
  | cons l ls ih =>
    cases rs with
    | nil => rfl
    | cons r rs =>
      rw [siblingCollision, siblingCollision, ih rs]
      simp only [ne_eq, eq_comm (a := r.length), eq_comm (a := r.map asciiLower), eq_comm (a := r)]

theorem components_of_folded {ls rs : List Bytes} (h : siblingCollision ls rs = false)
    (hfold : rs.map folded = ls.map folded ++ t) : ∃ t', rs = ls ++ t' ∧ t'.length = t.length := by
  induction ls generalizing rs with
  | nil =>
    refine ⟨rs, rfl, ?_⟩
    rw [← length_map, hfold]
    rfl
  | cons l ls ih =>
    cases rs with
    | nil => cases hfold
    | cons r rs =>
      rw [map_cons, map_cons, cons_append, List.cons.injEq] at hfold
      obtain ⟨hlr, hrest⟩ := hfold
      have hlen : l.length = r.length := by
        have hboth : (folded r).length = (folded l).length := by rw [hlr]
        simpa [folded] using hboth.symm
      have hlower : l.map asciiLower = r.map asciiLower := hlr.symm
      rw [siblingCollision, if_neg (not_not.mpr hlen), if_neg (not_not.mpr hlower)] at h
      split_ifs at h with hne
      rw [not_not] at hne
      subst hne
      obtain ⟨t', rfl, ht'⟩ := ih h hrest
      exact ⟨t', rfl, ht'⟩

theorem eq_of_folded (h : pathsCasefoldSiblingCollision left right = false)
    (hfold : folded left = folded right) : left = right := by
  have hcomponents : (right.splitOn slash).map folded = (left.splitOn slash).map folded ++ [] := by
    rw [← splitOn_folded, ← splitOn_folded, hfold, append_nil]
  obtain ⟨t', ht', hlen⟩ := components_of_folded h hcomponents
  rw [length_eq_zero_iff.mp hlen, append_nil] at ht'
  exact splitOn_slash_injective ht'.symm

theorem under_of_folded (h : pathsCasefoldSiblingCollision left right = false)
    (hunder : Under (folded right) (folded left)) : Under right left := by
  obtain ⟨rest, hrest⟩ := hunder
  have hcomponents : (right.splitOn slash).map folded = (left.splitOn slash).map folded ++
      rest.splitOn slash := by
    rw [← splitOn_folded, ← splitOn_folded, hrest, splitOn_append_cons_self]
  obtain ⟨t', ht', hlen⟩ := components_of_folded h hcomponents
  refine under_of_components ?_ ht'
  rintro rfl
  exact splitOn_ne_nil slash rest (length_eq_zero_iff.mp hlen.symm)

/-! ### The tree -/

structure SafeComponent (c : Bytes) : Prop where
  ne_nil : c ≠ []
  ne_dot : c ≠ bytesOf "."
  ne_dotDot : c ≠ bytesOf ".."
  no_slash : slash ∉ c
  no_backslash : 92 ∉ c
  no_nul : 0 ∉ c

/-- Two members that stay two when case is folded, with neither in a file. -/
structure Apart (a b : TarMember) : Prop where
  ne : folded a.path ≠ folded b.path
  below : a.isDir = false → ¬Under (folded b.path) (folded a.path)
  above : b.isDir = false → ¬Under (folded a.path) (folded b.path)

def orderedPaths (limits : TarLimits) : List TarMember → List Bytes
  | root :: f :: ms =>
    if limits.firstFile ≠ [] ∧ f.isDir = false ∧ f.path = root.path ++ [slash] ++ limits.firstFile then
      root.path :: ms.map TarMember.path
    else root.path :: f.path :: ms.map TarMember.path
  | ms => ms.map TarMember.path

def fileBytes (ms : List TarMember) : Nat := (ms.map fun m => if m.isDir then 0 else m.size).sum

/-- The members form one tree below the first. A negative ceiling admits no file. -/
structure Rooted (limits : TarLimits) (ms : List TarMember) : Prop where
  root : ∀ m rest, ms = m :: rest → m.isDir ∧ slash ∉ m.path
  parent : ∀ before m after, ms = before ++ m :: after → before ≠ [] →
    ∃ d ∈ before, d.isDir ∧ ∃ name, slash ∉ name ∧ m.path = d.path ++ slash :: name
  apart : ms.Pairwise Apart
  components : ∀ m ∈ ms, ∀ c ∈ m.path.splitOn slash, SafeComponent c
  order : (orderedPaths limits ms).Pairwise bytesLt
  ceiling : (fileBytes ms : Int) ≤ limits.payloadBytes ∨ (limits.payloadBytes < 0 ∧ ∀ m ∈ ms, m.isDir)

structure Follows (limits : TarLimits) (ms : List TarMember) (w : TarWalker) : Prop where
  seen : w.seen = ms.map fun m => ⟨m.path, m.isDir⟩
  payload : w.payloadBytes = fileBytes ms
  previous : w.previousMember = (orderedPaths limits ms).getLastD []

structure Tracks (limits : TarLimits) (ms : List TarMember) (w : TarWalker) : Prop extends Rooted limits ms,
    Follows limits ms w

theorem orderedPaths_concat (limits : TarLimits) (ms : List TarMember) (m : TarMember)
    (h : w.seen = ms.map fun m => ⟨m.path, m.isDir⟩) :
    orderedPaths limits (ms ++ [m]) =
      if w.leading limits m then orderedPaths limits ms else orderedPaths limits ms ++ [m.path] := by
  rw [TarWalker.leading, h]
  match ms with
  | [] => rfl
  | [root] => simp [orderedPaths, and_assoc]
  | root :: f :: ms =>
    simp only [orderedPaths, cons_append, map_cons, map_append, Bool.false_eq_true, if_false]
    split_ifs <;> rfl

/-! ### What is checked for a member -/

structure Compatible (a b : TarMember) : Prop where
  ne : a.path ≠ b.path
  collision : pathsCasefoldSiblingCollision a.path b.path = false
  below : a.isDir = false → pathIsExactAncestor a.path b.path = false
  above : b.isDir = false → pathIsExactAncestor b.path a.path = false

theorem checkSeen_iff :
    TarWalker.checkSeen m (ms.map fun a => ⟨a.path, a.isDir⟩) = .ok () ↔ ∀ a ∈ ms, Compatible a m := by
  induction ms with
  | nil => simp [TarWalker.checkSeen]
  | cons a ms ih =>
    rw [map_cons, TarWalker.checkSeen, ite_error_eq_ok, ite_error_eq_ok, ih, forall_mem_cons, ← and_assoc]
    simp only [not_or, not_and, Bool.not_eq_true]
    refine and_congr_left' ⟨fun ⟨⟨hne, hcollision⟩, hbelow, habove⟩ =>
      ⟨hne, hcollision, hbelow, habove⟩, fun h => ?_⟩
    exact ⟨⟨h.ne, h.collision⟩, h.below, h.above⟩

theorem Compatible.apart {a : TarMember} (h : Compatible a m) : Apart a m := by
  have hcollision : pathsCasefoldSiblingCollision m.path a.path = false := by
    rw [pathsCasefoldSiblingCollision, siblingCollision_comm]
    exact h.collision
  refine ⟨fun hfold => h.ne (eq_of_folded h.collision hfold), fun hfile hunder => ?_, fun hfile hunder => ?_⟩
  · exact Bool.eq_false_iff.mp (h.below hfile)
      (pathIsExactAncestor_of_under (under_of_folded h.collision hunder))
  · exact Bool.eq_false_iff.mp (h.above hfile)
      (pathIsExactAncestor_of_under (under_of_folded hcollision hunder))

theorem safeComponent_of_allowed (h : componentForbiddenUnder c names = false) : SafeComponent c := by
  simp only [componentForbiddenUnder, Bool.or_eq_false_iff, List.any_eq_false, decide_eq_false_iff_not] at h
  obtain ⟨⟨⟨⟨⟨⟨⟨hnil, -⟩, hdot⟩, hdotDot⟩, -⟩, -⟩, -⟩, hbytes⟩ := h
  have hbyte (b : UInt8) (hb : componentByte names b = false) : b ∉ c := by
    intro hmem
    simpa [hb] using hbytes b hmem
  refine ⟨fun h => hnil (by simp [h]), hdot, hdotDot, hbyte _ ?_, hbyte _ ?_, hbyte _ ?_⟩ <;>
    cases names <;> decide

theorem normalizeComponents_eq_some {first : Bool} {t : Bytes} {cs : List Bytes}
    (h : normalizeComponents names first top cs = some t) :
    ∀ c ∈ cs, componentForbiddenUnder c names = false := by
  induction cs generalizing first top with
  | nil => simp
  | cons c cs ih =>
    rw [normalizeComponents] at h
    split_ifs at h with hc <;>
    · rw [Bool.not_eq_true] at hc
      exact forall_mem_cons.mpr ⟨hc, ih h⟩

theorem components_of_normalize {raw : Bytes} {n : Bytes × Bytes}
    (h : normalizeMemberPathUnder raw top names = some n) : ∀ c ∈ n.1.splitOn slash, SafeComponent c := by
  rw [normalizeMemberPathUnder] at h
  simp only at h
  split_ifs at h
  obtain ⟨t, ht, rfl⟩ := Option.map_eq_some_iff.mp h
  exact fun c hc => safeComponent_of_allowed (normalizeComponents_eq_some ht c hc)

theorem parentPath_eq_some (h : TarWalker.parentPath path = some parent) :
    ∃ name, slash ∉ name ∧ path = parent ++ slash :: name := by
  rw [TarWalker.parentPath] at h
  split_ifs at h with hmem
  cases h
  have hsplit : path.rdropWhile (· ≠ slash) ++ path.rtakeWhile (· ≠ slash) = path :=
    rdropWhile_append_rtakeWhile
  have hne : path.rdropWhile (· ≠ slash) ≠ [] := by
    rw [ne_eq, rdropWhile_eq_nil_iff]
    exact fun h => by simpa using h slash hmem
  have hlast : (path.rdropWhile (· ≠ slash)).getLast hne = slash := by
    simpa using rdropWhile_last_not (· ≠ slash) path hne
  refine ⟨path.rtakeWhile (· ≠ slash), fun h => by simpa using mem_rtakeWhile_imp h, ?_⟩
  conv_lhs => rw [← hsplit, ← dropLast_append_getLast hne, hlast]
  rw [append_assoc]
  rfl

theorem under_of_parent {d rest : Bytes} (h : TarWalker.parentPath (d ++ slash :: rest) = some parent) :
    parent = d ∨ ∃ rest', rest'.length < rest.length ∧ parent = d ++ slash :: rest' := by
  obtain ⟨name, hname, hsplit⟩ := parentPath_eq_some h
  rcases append_eq_append_iff.mp hsplit with ⟨a, rfl, ha⟩ | ⟨c, rfl, hc⟩
  · cases a with
    | nil => exact .inl (append_nil d)
    | cons b a =>
      cases ha
      exact .inr ⟨a, by simp, rfl⟩
  · cases c with
    | nil => exact .inl (append_nil parent).symm
    | cons b c =>
      cases hc
      exact absurd (by simp) hname

theorem parent_of_admitted (hseen : w.seen = ms.map fun m => ⟨m.path, m.isDir⟩)
    (h : w.parentExists m.path) :
    (ms = [] ∧ slash ∉ m.path) ∨ ∃ d ∈ ms, d.isDir ∧ ∃ name, slash ∉ name ∧
      m.path = d.path ++ slash :: name := by
  rw [TarWalker.parentExists, hseen] at h
  cases hp : TarWalker.parentPath m.path with
  | none =>
    rw [hp] at h
    refine .inl ⟨by simpa using h, fun hmem => ?_⟩
    rw [TarWalker.parentPath, if_pos hmem] at hp
    cases hp
  | some parent =>
    rw [hp] at h
    obtain ⟨name, hname, hpath⟩ := parentPath_eq_some hp
    obtain ⟨e, he, hmatch⟩ := List.any_eq_true.mp h
    obtain ⟨d, hd, rfl⟩ := List.mem_map.mp he
    simp only [Bool.and_eq_true, decide_eq_true_eq] at hmatch
    exact .inr ⟨d, hd, hmatch.1, name, hname, hmatch.2 ▸ hpath⟩

theorem path_ne_nil (h : ∀ c ∈ m.path.splitOn slash, SafeComponent c) : m.path ≠ [] := by
  intro hnil
  rw [hnil] at h
  exact (h [] (by simp)).ne_nil rfl

theorem mem_of_mem_orderedPaths {x : Bytes} (h : x ∈ orderedPaths limits ms) : ∃ m ∈ ms, m.path = x := by
  rw [← List.mem_map]
  match ms with
  | [] => exact h
  | [root] => exact h
  | root :: f :: ms =>
    rw [orderedPaths] at h
    split_ifs at h
    · rcases mem_cons.mp h with rfl | h
      · exact mem_cons_self
      · exact mem_cons_of_mem _ (mem_cons_of_mem _ h)
    · exact h

theorem Tracks.order_concat (h : Tracks limits ms w)
    (horder : w.previousMember = [] ∨ bytesLe m.path w.previousMember = false) :
    (orderedPaths limits ms ++ [m.path]).Pairwise bytesLt := by
  refine List.IsChain.pairwise (isChain_append.mpr ⟨h.order.isChain, isChain_singleton _, ?_⟩)
  intro x hx y hy
  cases hy
  have hlast : w.previousMember = x := by
    rw [h.previous, getLastD_eq_getLast?, hx]
    rfl
  obtain ⟨m', hm', rfl⟩ := mem_of_mem_orderedPaths (mem_of_getLast? hx)
  have hne := path_ne_nil (h.components m' hm')
  rw [hlast] at horder
  exact horder.resolve_left hne

theorem Rooted.parent_concat (h : Rooted limits ms)
    (hparent : ms ≠ [] → ∃ d ∈ ms, d.isDir ∧ ∃ name, slash ∉ name ∧ m.path = d.path ++ slash :: name) :
    ∀ before m' after, ms ++ [m] = before ++ m' :: after → before ≠ [] →
      ∃ d ∈ before, d.isDir ∧ ∃ name, slash ∉ name ∧ m'.path = d.path ++ slash :: name := by
  intro before m' after hms hne
  rcases eq_nil_or_concat' after with rfl | ⟨after, last, rfl⟩
  · obtain ⟨rfl, hlast⟩ := append_inj' hms rfl
    cases hlast
    exact hparent hne
  · rw [← cons_append, ← append_assoc] at hms
    exact h.parent before m' after (append_inj' hms rfl).1 hne

theorem fileBytes_concat (ms : List TarMember) (m : TarMember) :
    fileBytes (ms ++ [m]) = fileBytes ms + if m.isDir then 0 else m.size := by
  simp [fileBytes]

theorem Rooted.ceiling_concat (h : Rooted limits ms)
    (hpayload : m.isDir ∨ (fileBytes ms : Int) + m.size ≤ limits.payloadBytes) :
    (fileBytes (ms ++ [m]) : Int) ≤ limits.payloadBytes ∨
      (limits.payloadBytes < 0 ∧ ∀ a ∈ ms ++ [m], a.isDir) := by
  rw [fileBytes_concat]
  cases hdir : m.isDir with
  | true =>
    refine h.ceiling.imp (fun hle => by simpa using hle) fun ⟨hneg, hdirs⟩ => ⟨hneg, fun a ha => ?_⟩
    rcases mem_append.mp ha with ha | ha
    · exact hdirs a ha
    · rw [mem_singleton.mp ha, hdir]
  | false =>
    rw [hdir] at hpayload
    left
    simpa using hpayload

theorem Follows.withMember (h : Follows limits ms w) :
    Follows limits (ms ++ [m]) (w.withMember limits m) := by
  refine ⟨?_, ?_, ?_⟩
  · rw [map_append, ← h.seen]
    rfl
  · rw [fileBytes_concat, ← h.payload]
    simp only [TarWalker.withMember]
    split_ifs <;> rfl
  · rw [orderedPaths_concat limits ms m h.seen]
    simp only [TarWalker.withMember, h.previous]
    split_ifs
    · rfl
    · simp

theorem Tracks.concat (h : Tracks limits ms w) (hpath : ∀ c ∈ m.path.splitOn slash, SafeComponent c)
    (hadmitted : w.admitMember limits m = .ok w') : Tracks limits (ms ++ [m]) w' := by
  obtain ⟨hadmits, rfl⟩ := TarWalker.admitMember_iff.mp hadmitted
  have hparent := parent_of_admitted h.seen hadmits.parent
  have hseen := hadmits.seen
  rw [h.seen, checkSeen_iff] at hseen
  refine ⟨⟨?_, h.parent_concat ?_, ?_, ?_, ?_, h.ceiling_concat ?_⟩, h.toFollows.withMember⟩
  · intro m' rest hms
    cases ms with
    | nil =>
      cases hms
      rcases hparent with ⟨-, hroot⟩ | ⟨d, hd, -⟩
      · exact ⟨hadmits.top.resolve_right hroot, hroot⟩
      · cases hd
    | cons a ms =>
      cases hms
      exact h.root m' ms rfl
  · exact fun hne => hparent.resolve_left fun hnil => hne hnil.1
  · refine pairwise_append.mpr ⟨h.apart, pairwise_singleton _ _, fun a ha b hb => ?_⟩
    cases mem_singleton.mp hb
    exact (hseen a ha).apart
  · exact forall_mem_append.mpr ⟨h.components, forall_mem_singleton.mpr hpath⟩
  · rw [orderedPaths_concat limits ms m h.seen]
    split_ifs with hlead
    · exact h.order
    · exact h.order_concat (hadmits.order.resolve_left hlead)
  · rw [← h.payload]
    exact hadmits.payload

theorem TarWalker.header_admits (h : w.header limits = .ok (.member m, w')) :
    (∀ c ∈ m.path.splitOn slash, SafeComponent c) ∧ ∃ v : TarWalker, v.admitMember limits m = .ok w' ∧
      v.seen = w.seen ∧ v.payloadBytes = w.payloadBytes ∧ v.previousMember = w.previousMember := by
  obtain ⟨block, v, -, -, hv, ⟨-, hend⟩ | ⟨hpax, -⟩ | ⟨rawName, size, mode, typ, hmember⟩⟩ := header_cases h
  · cases (endBlocks_eq_ok hend).1
  · cases hpax
  · obtain ⟨raw, path, top, stored, hm, hnorm, -, -, hadmitted⟩ := memberHeader_eq_ok hmember
    cases hm
    exact ⟨components_of_normalize hnorm, _, hadmitted, by rw [hv], by rw [hv], by rw [hv]⟩

theorem TarWalker.next_admits (h : w.next limits = .ok (some m, w')) :
    (∀ c ∈ m.path.splitOn slash, SafeComponent c) ∧ ∃ v : TarWalker, v.admitMember limits m = .ok w' ∧
      v.seen = w.seen ∧ v.payloadBytes = w.payloadBytes ∧ v.previousMember = w.previousMember := by
  obtain ⟨⟨o, v⟩, hfirst, h⟩ := bind_eq_ok.mp h
  cases o with
  | done => cases h
  | member m' =>
    cases h
    exact header_admits hfirst
  | pax =>
    obtain ⟨⟨o, v'⟩, hsecond, h⟩ := bind_eq_ok.mp h
    cases o with
    | done => cases h
    | pax => cases h
    | member m' =>
      cases h
      obtain ⟨-, path, blocks, -, -, -, hv⟩ := header_pax hfirst
      obtain ⟨hpath, u, hadmitted, hseen, hpayload, hprevious⟩ := header_admits hsecond
      rw [hv] at hseen hpayload hprevious
      exact ⟨hpath, u, hadmitted, hseen, hpayload, hprevious⟩

/-! ### Every stream -/

/-- The first `n` members the walker admits before it ends or refuses, each payload read
before the next header. -/
def TarWalker.admitted (limits : TarLimits) : Nat → TarWalker → List TarMember
  | 0, _ => []
  | n + 1, w =>
    match w.next limits with
    | .ok (some m, w) =>
      m :: if m.isDir then admitted limits n w
      else
        match w.readPayload limits m with
        | .ok (_, w) => admitted limits n w
        | .error _ => []
    | _ => []

theorem Tracks.same (h : Tracks limits ms w) (hseen : w'.seen = w.seen)
    (hpayload : w'.payloadBytes = w.payloadBytes) (hprevious : w'.previousMember = w.previousMember) :
    Tracks limits ms w' :=
  ⟨h.toRooted, hseen.trans h.seen, hpayload.trans h.payload, hprevious.trans h.previous⟩

theorem Tracks.next (h : Tracks limits ms w) (hnext : w.next limits = .ok (some m, w')) :
    Tracks limits (ms ++ [m]) w' := by
  obtain ⟨hpath, v, hadmitted, hseen, hpayload, hprevious⟩ := TarWalker.next_admits hnext
  exact (h.same hseen hpayload hprevious).concat hpath hadmitted

theorem Tracks.readPayload {payload : Bytes} (h : Tracks limits ms w)
    (hread : w.readPayload limits m = .ok (payload, w')) : Tracks limits ms w' := by
  obtain ⟨-, hw'⟩ := TarWalker.readPayload_eq_ok hread
  exact h.same (by rw [hw']) (by rw [hw']) (by rw [hw'])

theorem tracks_newTarWalker (stream : Bytes) : Tracks limits [] (newTarWalker stream) := by
  refine ⟨⟨nofun, fun before m after h => ?_, .nil, nofun, .nil, ?_⟩, rfl, rfl, rfl⟩
  · simp at h
  · by_cases hneg : limits.payloadBytes < 0
    · exact .inr ⟨hneg, nofun⟩
    · exact .inl (Int.not_lt.mp hneg)

theorem Tracks.admitted {n : Nat} (h : Tracks limits ms w) : Rooted limits (ms ++ w.admitted limits n) := by
  have hstop : Rooted limits (ms ++ []) := by
    rw [append_nil]
    exact h.toRooted
  induction n generalizing ms w with
  | zero => exact hstop
  | succ n ih =>
    rw [TarWalker.admitted]
    cases hnext : w.next limits with
    | error e => exact hstop
    | ok r =>
      obtain ⟨o, v⟩ := r
      cases o with
      | none => exact hstop
      | some m =>
        have hv := h.next hnext
        have hsnoc : Rooted limits (ms ++ [m] ++ []) := by
          rw [append_nil]
          exact hv.toRooted
        rw [append_cons]
        split_ifs
        · exact ih hv hsnoc
        · cases hread : v.readPayload limits m with
          | error e => exact hsnoc
          | ok r => exact ih (hv.readPayload hread) hsnoc

/-- Whatever the stream and the limits, the members admitted form one rooted tree. -/
theorem rooted_admitted (limits : TarLimits) (stream : Bytes) (n : Nat) :
    Rooted limits ((newTarWalker stream).admitted limits n) :=
  (tracks_newTarWalker stream).admitted

theorem under_append_iff : Under (top ++ slash :: a) (top ++ slash :: b) ↔ Under a b := by
  constructor
  · rintro ⟨rest, h⟩
    refine ⟨rest, ?_⟩
    simpa using h
  · rintro ⟨rest, rfl⟩
    exact ⟨rest, by simp⟩

theorem Under.trans (h : Under a b) (h' : Under b c) : Under a c := by
  obtain ⟨r, rfl⟩ := h
  obtain ⟨r', rfl⟩ := h'
  exact ⟨r' ++ slash :: r, by simp⟩

theorem Rooted.under_root {r : TarMember} (h : Rooted limits (r :: ms)) : ∀ m ∈ ms, Under m.path r.path := by
  have key : ∀ n before m after, before.length = n → r :: ms = before ++ m :: after → before ≠ [] →
      Under m.path r.path := by
    intro n
    induction n using Nat.strong_induction_on with
    | _ n ih =>
      intro before m after hn hms hne
      obtain ⟨d, hd, -, name, -, hpath⟩ := h.parent before m after hms hne
      have hunder : Under m.path d.path := ⟨name, hpath⟩
      obtain ⟨b₁, b₂, rfl⟩ := append_of_mem hd
      -- the parent is the root, or it has fewer members before it
      cases b₁ with
      | nil =>
        cases hms
        exact hunder
      | cons b b₁ =>
        refine hunder.trans (ih (b :: b₁).length ?_ (b :: b₁) d (b₂ ++ m :: after) rfl ?_ (by simp))
        · rw [← hn]
          simp
        · rw [hms]
          simp
  intro m hm
  obtain ⟨b₁, b₂, rfl⟩ := append_of_mem hm
  exact key (r :: b₁).length (r :: b₁) m b₂ rfl rfl (by simp)

end AiiOs.PackageFmt
