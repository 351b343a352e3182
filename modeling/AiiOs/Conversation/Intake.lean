import Mathlib.Data.List.Nodup
import Mathlib.Data.List.TakeWhile
import Mathlib.Logic.Relation

/-! internal/store, conversation_intake.go and cursor/cursor.go: the conversation is read in
passes, each from the stored cursor on, and a pass that was made use of moves the cursor. -/

namespace AiiOs.Conversation.Intake
open List

/-- A row of `conversations`; `searchable` says that the view has it. -/
structure Turn where
  id : List Char
  seq : Int
  content : List Char
  searchable : Bool
  deriving DecidableEq, Repr

structure TurnCursor where
  turn : List Char
  position : Nat
  deriving DecidableEq, Repr

structure TurnPart where
  id : List Char
  text : List Char
  start : Nat
  whole : Bool
  deriving DecidableEq, Repr

structure ConversationBatch where
  start : List Char
  through : TurnCursor
  parts : List TurnPart
  deriving DecidableEq, Repr

/-- The texts of the stored cursor; one whose position is negative is none. -/
structure Codec where
  marshal : TurnCursor → List Char
  unmarshal : List Char → Option TurnCursor
  unmarshal_marshal : ∀ c, unmarshal (marshal c) = some c

def maxTurnsPerPass : Nat := 256

def zeroCursor : TurnCursor := ⟨[], 0⟩

/-! ### A pass -/

section
variable (codec : Codec) (exclude : List Char)

def excluded (t : Turn) : Bool := exclude ≠ [] && exclude.isPrefixOf t.content

def startIn (inside : TurnCursor) (t : Turn) : Nat := if t.id = inside.turn then inside.position else 0

/-- The loop of `NextConversation` over the rows. -/
def takeTurns (inside : TurnCursor) : Nat → List Turn → ConversationBatch → ConversationBatch
  | _, [], b => b
  | left, t :: ts, b =>
    if excluded exclude t then takeTurns inside left ts { b with through := ⟨t.id, t.content.length⟩ }
    else
      let start := startIn inside t
      let rest := t.content.length - start
      if rest ≤ left then
        takeTurns inside (left - rest) ts { b with
            parts := b.parts ++ [⟨t.id, t.content.drop start, start, true⟩]
            through := ⟨t.id, t.content.length⟩ }
      else if b.parts = [] then
        { b with
          parts := [⟨t.id, (t.content.drop start).take left, start, false⟩], through := ⟨t.id, start + left⟩ }
      else b

/-- The loop of `oneBudgetBackLocked` over the rows from the last one back. -/
def backTurns : Nat → Nat → Int → List Turn → Int
  | _, _, after, [] => after
  | fitted, left, after, t :: ts =>
    if excluded exclude t then backTurns fitted left (t.seq - 1) ts
    else if left < t.content.length ∧ 0 < fitted then after
    else if left ≤ t.content.length then t.seq - 1
    else backTurns (fitted + 1) (left - t.content.length) (t.seq - 1) ts

section
variable (turns : List Turn)

def oneBudgetBack (budget : Nat) : Int :=
  let rows := (turns.reverse.filter Turn.searchable).take maxTurnsPerPass
  backTurns exclude 0 budget ((rows.head?.map Turn.seq).getD (-1)) rows

def believed (start : List Char) : Option (TurnCursor × Turn) := do
  let cur ← codec.unmarshal start
  if cur.turn = [] then none
  else (turns.find? fun t => t.id = cur.turn).map fun t => (cur, t)

def nextConversation (stored : List Char) (budget : Nat) : ConversationBatch :=
  let rows (after : Int) :=
    ((turns.filter fun t => after < t.seq).filter Turn.searchable).take maxTurnsPerPass
  match believed codec turns stored with
  | none => takeTurns exclude zeroCursor budget (rows (oneBudgetBack exclude turns budget))
      ⟨stored, zeroCursor, []⟩
  | some (cur, t) =>
    if cur.position < t.content.length then takeTurns exclude cur budget (rows (t.seq - 1)) ⟨stored, cur, []⟩
    else takeTurns exclude zeroCursor budget (rows t.seq) ⟨stored, cur, []⟩

def ConversationBatch.moved (b : ConversationBatch) :
    Bool := b.through.turn ≠ [] && codec.marshal b.through ≠ b.start

def ConversationBatch.keep (n runes : Int) (b : ConversationBatch) : ConversationBatch :=
  let n' := min n.toNat b.parts.length
  match b.parts.drop (n' - 1) with
  | last :: behind =>
    if n ≤ 0 then ⟨b.start, zeroCursor, []⟩
    else if behind = [] ∧ (runes ≤ 0 ∨ last.text.length ≤ runes) then b
    else
      let last :=
        if 0 < runes ∧ runes < last.text.length then
          { last with text := last.text.take runes.toNat, whole := false }
        else last
      ⟨b.start, ⟨last.id, last.start + last.text.length⟩, b.parts.take (n' - 1) ++ [last]⟩
  | [] => ⟨b.start, zeroCursor, []⟩

/-! ### Passes -/

structure State where
  turns : List Turn
  stored : List Char
  held : List ConversationBatch
  published : List ConversationBatch
  deriving DecidableEq, Repr

/-- `PublishConversationCursor`. -/
def State.publish (b : ConversationBatch) (s : State) : State :=
  if b.moved codec ∧ s.stored = b.start then
    { s with stored := codec.marshal b.through, published := s.published ++ [b] }
  else s

inductive Step : State → State → Prop
  | append {s} (t : Turn) : (∀ u ∈ s.turns, u.id ≠ t.id) → (∀ u ∈ s.turns, u.seq < t.seq) →
    Step s { s with turns := s.turns ++ [t] }
  | read {s} (budget : Nat) : 0 < budget →
    Step s { s with held := s.held ++ [nextConversation codec exclude s.turns s.stored budget] }
  | publish {s} (b : ConversationBatch) (n runes : Int) : b ∈ s.held →
      Step s (s.publish codec (b.keep n runes))

abbrev Steps := Relation.ReflTransGen (Step codec exclude)

/-! ### The text from a cursor on -/

def shown (t : Turn) : List Char := if t.searchable && !excluded exclude t then t.content else []

def stream : List Char := turns.flatMap (shown exclude)

def textFrom (c : TurnCursor) : List Char := match turns.dropWhile fun t => t.id ≠ c.turn with
  | [] => []
  | t :: ts => (shown exclude t).drop c.position ++ stream exclude ts

structure Listed (turns : List Turn) : Prop where
  ids : (turns.map Turn.id).Nodup
  seqs : turns.Pairwise fun a b => a.seq < b.seq

def Known (c : TurnCursor) : Prop := c.turn ∈ turns.map Turn.id

end

def TurnPart.from (p : TurnPart) : TurnCursor := ⟨p.id, p.start⟩

def TurnPart.upTo (p : TurnPart) (n : Nat) : TurnCursor := ⟨p.id, p.start + n⟩

/-- The parts follow each other in the conversation, from `c` to `d`. -/
def Follows (turns : List Turn) : TurnCursor → List TurnPart → TurnCursor → Prop
  | c, [], d => textFrom exclude turns c = textFrom exclude turns d ∧ Known turns d
  | c, p :: ps, d =>
    (textFrom exclude turns c = textFrom exclude turns p.from ∧ Known turns p.from ∧
      ∀ n ≤ p.text.length, p.text.take n ++ textFrom exclude turns (p.upTo n) =
        textFrom exclude turns p.from) ∧
    Follows turns (p.upTo p.text.length) ps d

def textOf (parts : List TurnPart) : List Char := parts.flatMap TurnPart.text

variable {codec exclude} {turns : List Turn} {c d : TurnCursor} {t : Turn} {ps : List TurnPart} {p : TurnPart}
  {b : ConversationBatch} {s s' : State}

theorem stream_append (l₁ l₂ : List Turn) :
    stream exclude (l₁ ++ l₂) = stream exclude l₁ ++ stream exclude l₂ :=
  flatMap_append

theorem stream_filter (l : List Turn) : stream exclude (l.filter Turn.searchable) = stream exclude l := by
  induction l with
  | nil => rfl
  | cons t l ih =>
    cases hs : t.searchable with
    | false =>
      rw [filter_cons_of_neg (by simp [hs]), ih]
      simp [stream, shown, hs]
    | true =>
      rw [filter_cons_of_pos hs]
      exact congrArg (shown exclude t ++ ·) ih

variable {before after rows : List Turn} {n : Nat}

theorem textFrom_split (hl : Listed turns) (h : turns = before ++ t :: after) (n : Nat) :
    textFrom exclude turns ⟨t.id, n⟩ = (shown exclude t).drop n ++ stream exclude after := by
  have hids := hl.ids
  have hdrop : (turns.dropWhile (·.id ≠ t.id)) = t :: after := by
    rw [h] at hids ⊢
    rw [dropWhile_append_of_pos, dropWhile_cons_of_neg (by simp)]
    intro u hu
    rw [map_append] at hids
    have hne : u.id ∉ t.id :: after.map Turn.id := disjoint_of_nodup_append hids (List.mem_map_of_mem hu)
    exact decide_eq_true fun heq => hne (heq ▸ mem_cons_self)
  unfold textFrom
  rw [hdrop]

theorem textFrom_row (hl : Listed turns) {before after : List Turn}
    (h : turns.filter Turn.searchable = before ++ t :: after) (n : Nat) :
    textFrom exclude turns ⟨t.id, n⟩ = (shown exclude t).drop n ++ stream exclude after ∧
      t ∈ turns ∧ t.searchable := by
  obtain ⟨l₁, l₂, hturns, -, hl₂⟩ := filter_eq_append_iff.mp h
  obtain ⟨l₃, l₄, rfl, -, ht, hl₄⟩ := filter_eq_cons_iff.mp hl₂
  refine ⟨?_, ?_, ht⟩
  · rw [textFrom_split hl (show turns = (l₁ ++ l₃) ++ t :: l₄ by rw [hturns, append_assoc]), ← hl₄,
      stream_filter]
  · rw [hturns]
    simp

theorem known_append (h : Known turns c) (l : List Turn) : Known (turns ++ l) c := by
  unfold Known
  rw [map_append]
  exact mem_append_left _ h

theorem textFrom_append (hc : Known turns c) (l : List Turn) :
    textFrom exclude (turns ++ l) c = textFrom exclude turns c ++ stream exclude l := by
  obtain ⟨t, ht, hid⟩ := List.mem_map.mp hc
  unfold textFrom
  rw [dropWhile_append]
  cases hdrop : turns.dropWhile fun t => t.id ≠ c.turn with
  | nil =>
    have hall := dropWhile_eq_nil_iff.mp hdrop t ht
    simp [hid] at hall
  | cons u us => simp [stream_append]

section
variable (h : Follows exclude turns c ps d)
include h

theorem Follows.append_turns (hc : Known turns c) (l : List Turn) : Follows exclude (turns ++ l) c ps d := by
  induction ps generalizing c with
  | nil => exact ⟨by rw [textFrom_append hc, textFrom_append h.2, h.1], known_append h.2 l⟩
  | cons p ps ih =>
    obtain ⟨⟨hfrom, hp, hcut⟩, hrest⟩ := h
    refine ⟨⟨by rw [textFrom_append hc, textFrom_append hp, hfrom], known_append hp l, fun n hn =>
      ?_⟩, ih hrest hp⟩
    have hup : Known turns (p.upTo n) := hp
    rw [textFrom_append hp, textFrom_append hup, ← append_assoc, hcut n hn]

theorem Follows.concat
    (hp : textFrom exclude turns d = textFrom exclude turns p.from ∧ Known turns p.from ∧
      ∀ n ≤ p.text.length, p.text.take n ++ textFrom exclude turns (p.upTo n) =
        textFrom exclude turns p.from) :
    Follows exclude turns c (ps ++ [p]) (p.upTo p.text.length) := by
  induction ps generalizing c with
  | nil => exact ⟨⟨h.1.trans hp.1, hp.2⟩, rfl, hp.2.1⟩
  | cons q ps ih => exact ⟨h.1, ih h.2⟩

theorem Follows.move {e : TurnCursor}
    (hd : textFrom exclude turns d = textFrom exclude turns e) (hk : Known turns e) :
        Follows exclude turns c ps e := by
  induction ps generalizing c with
  | nil => exact ⟨h.1.trans hd, hk⟩
  | cons q ps ih => exact ⟨h.1, ih h.2⟩

end

theorem Follows.cut {behind : List TurnPart} (h : Follows exclude turns c (ps ++ p :: behind) d)
    (hn : n ≤ p.text.length) :
    textOf ps ++ p.text.take n ++ textFrom exclude turns (p.upTo n) = textFrom exclude turns c ∧
      Known turns p.from := by
  induction ps generalizing c with
  | nil =>
    refine ⟨?_, h.1.2.1⟩
    rw [h.1.1, ← h.1.2.2 n hn]
    rfl
  | cons q ps ih =>
    obtain ⟨hcut, hk⟩ := ih h.2
    refine ⟨?_, hk⟩
    have hq := h.1.2.2 q.text.length (le_refl _)
    rw [h.1.1, ← hq, ← hcut]
    simp [textOf]

theorem Follows.whole (h : Follows exclude turns c ps d) :
    textOf ps ++ textFrom exclude turns d = textFrom exclude turns c ∧ Known turns d := by
  induction ps generalizing c with
  | nil => exact ⟨h.1.symm, h.2⟩
  | cons q ps ih =>
    obtain ⟨hrest, hk⟩ := ih h.2
    refine ⟨?_, hk⟩
    have hq := h.1.2.2 q.text.length (le_refl _)
    rw [h.1.1, ← hq, ← hrest]
    simp [textOf]

theorem Follows.keep (h : Follows exclude turns c b.parts b.through) (n runes : Int)
    (hmoved : (b.keep n runes).moved codec) :
    textOf (b.keep n runes).parts ++ textFrom exclude turns (b.keep n runes).through =
      textFrom exclude turns c ∧ Known turns (b.keep n runes).through := by
  unfold ConversationBatch.keep at hmoved ⊢
  dsimp only at hmoved ⊢
  generalize min n.toNat b.parts.length - 1 = m at hmoved ⊢
  have hsplit : b.parts = b.parts.take m ++ b.parts.drop m := (take_append_drop m _).symm
  cases hdrop : b.parts.drop m with
  | nil =>
    rw [hdrop] at hmoved
    cases hmoved
  | cons last behind =>
    rw [hdrop] at hmoved hsplit
    dsimp only at hmoved ⊢
    by_cases hn : n ≤ 0
    · rw [if_pos hn] at hmoved
      cases hmoved
    rw [if_neg hn] at hmoved ⊢
    split
    · exact h.whole
    rw [hsplit] at h
    split
    · have hle : runes.toNat ≤ last.text.length := by omega
      obtain ⟨htext, hk⟩ := h.cut hle
      refine ⟨?_, hk⟩
      simpa [textOf, TurnPart.upTo, hle] using htext
    · obtain ⟨htext, hk⟩ := h.cut (le_refl last.text.length)
      refine ⟨?_, hk⟩
      simpa [textOf, TurnPart.upTo] using htext

theorem flatMap_startIn {inside : TurnCursor} {l : List Turn} (h : ∀ u ∈ l, startIn inside u = 0) :
    l.flatMap (fun t => (shown exclude t).drop (startIn inside t)) = stream exclude l := by
  induction l with
  | nil => rfl
  | cons u l ih =>
    rw [flatMap_cons, h u mem_cons_self, ih fun v hv => h v (mem_cons_of_mem u hv)]
    rfl

theorem drop_shown_of_le (h : t.content.length ≤ n) : (shown exclude t).drop n = [] := by
  unfold shown
  split_ifs
  · exact drop_eq_nil_of_le h
  · exact drop_nil

theorem part_of_row (hl : Listed turns) (h : turns.filter Turn.searchable = before ++ t :: after)
    (hex : ¬excluded exclude t) (text : List Char) {start : Nat} (whole : Bool)
    (htext : ∀ n ≤ text.length, text.take n = (t.content.drop start).take n) :
    Known turns (TurnPart.from ⟨t.id, text, start, whole⟩) ∧
      ∀ n ≤ text.length, text.take n ++ textFrom exclude turns (TurnPart.upTo ⟨t.id, text, start, whole⟩ n) =
        textFrom exclude turns (TurnPart.from ⟨t.id, text, start, whole⟩) := by
  obtain ⟨-, hmem, hsearch⟩ := @textFrom_row exclude turns t hl _ _ h 0
  refine ⟨List.mem_map_of_mem hmem, fun n hn => ?_⟩
  have hshown : shown exclude t = t.content := by simp [shown, hsearch, hex]
  rw [htext n hn, TurnPart.upTo, TurnPart.from, (textFrom_row hl h _).1, (textFrom_row hl h _).1, hshown,
    ← append_assoc, ← drop_drop, take_append_drop]

theorem takeTurns_follows (hl : Listed turns) (inside : TurnCursor) (before rest : List Turn)
    (hrows : turns.filter Turn.searchable = before ++ rows ++ rest)
    (hstart : ∀ u ∈ rows.tail, startIn inside u = 0) (hb : Follows exclude turns c b.parts b.through)
    (htext : textFrom exclude turns b.through =
      rows.flatMap (fun t => (shown exclude t).drop (startIn inside t)) ++ stream exclude rest)
    (left : Nat) :
    Follows exclude turns c (takeTurns exclude inside left rows b).parts
      (takeTurns exclude inside left rows b).through := by
  -- on the rows still to take: what they show and then the rest is the text from the cursor on
  induction rows generalizing b before left with
  | nil => exact hb
  | cons t ts ih =>
    have hrow : turns.filter Turn.searchable = before ++ t :: (ts ++ rest) := by
      rw [hrows, append_assoc, cons_append]
    have hnext : turns.filter Turn.searchable = (before ++ [t]) ++ ts ++ rest := by
      rw [hrow, append_assoc, append_assoc, singleton_append]
    have hzero : ∀ u ∈ ts, startIn inside u = 0 := hstart
    have hts : ∀ u ∈ ts.tail, startIn inside u = 0 := fun u hu => hzero u (mem_of_mem_tail hu)
    have hknown : ∀ n, Known turns ⟨t.id, n⟩ :=
      fun n => List.mem_map_of_mem (@textFrom_row exclude turns t hl _ _ hrow 0).2.1
    have hend : textFrom exclude turns ⟨t.id, t.content.length⟩ =
        ts.flatMap (fun t => (shown exclude t).drop (startIn inside t)) ++ stream exclude rest := by
      rw [(textFrom_row hl hrow _).1, drop_shown_of_le (le_refl _), flatMap_startIn hzero, ← stream_append]
      rfl
    have hat : textFrom exclude turns b.through = textFrom exclude turns ⟨t.id, startIn inside t⟩ := by
      rw [htext, (textFrom_row hl hrow _).1, flatMap_cons, flatMap_startIn hzero, append_assoc,
        ← stream_append]
    rw [takeTurns]
    -- an excluded row shows nothing, and the cursor passes it
    split
    · rename_i hex
      refine ih (b := { b with through := ⟨t.id, t.content.length⟩ }) _ hnext hts
        (hb.move ?_ (hknown _)) hend left
      have hshown : shown exclude t = [] := by simp [shown, hex]
      rw [hat, (textFrom_row hl hrow _).1, (textFrom_row hl hrow _).1, hshown, drop_nil, drop_nil]
    rename_i hex
    by_cases hfits : t.content.length - startIn inside t ≤ left
    · rw [if_pos hfits]
      have hpart := part_of_row hl hrow hex (t.content.drop (startIn inside t)) true fun _ _ => rfl
      have hmore :=
        (hb.concat (p := ⟨t.id, t.content.drop (startIn inside t), startIn inside t, true⟩) ⟨hat, hpart⟩).move
        (e := ⟨t.id, t.content.length⟩) ?_ (hknown _)
      · exact ih (b := { b with
          parts := b.parts ++ [⟨t.id, t.content.drop (startIn inside t), startIn inside t, true⟩]
          through := ⟨t.id, t.content.length⟩ }) _ hnext hts hmore hend _
      rw [TurnPart.upTo, (textFrom_row hl hrow _).1, (textFrom_row hl hrow _).1, drop_shown_of_le (le_refl _),
        drop_shown_of_le]
      change t.content.length ≤ startIn inside t + (t.content.drop (startIn inside t)).length
      rw [length_drop]
      omega
    · rw [if_neg hfits]
      -- only the first row of a conversation is cut; a later one waits for the next
      split_ifs with hnone
      · rw [hnone] at hb
        have hlen : ((t.content.drop (startIn inside t)).take left).length = left := by
          rw [length_take, length_drop]
          omega
        have hpart :=
          part_of_row hl hrow hex ((t.content.drop (startIn inside t)).take left) false fun n hn => by
          rw [take_take, min_eq_left (hlen ▸ hn)]
        have hone := hb.concat
          (p := ⟨t.id, (t.content.drop (startIn inside t)).take left, startIn inside t, false⟩) ⟨hat, hpart⟩
        rw [hlen] at hone
        exact hone
      · exact hb

theorem filter_seq (hl : Listed turns) (h : turns = before ++ t :: after) :
    turns.filter (fun u => t.seq - 1 < u.seq) = t :: after ∧ turns.filter (fun u => t.seq < u.seq) =
      after := by
  have hseqs := hl.seqs
  rw [h, pairwise_append, pairwise_cons] at hseqs
  obtain ⟨-, ⟨hafter, -⟩, hbefore⟩ := hseqs
  have hbefore' : ∀ u ∈ before, u.seq < t.seq := fun u hu => hbefore u hu t mem_cons_self
  constructor
  · rw [h, filter_append, filter_eq_nil_iff.mpr, nil_append, filter_eq_self.mpr]
    · intro u hu
      rcases mem_cons.mp hu with rfl | hu
      · exact decide_eq_true (by omega)
      · have hlt := hafter u hu
        exact decide_eq_true (by omega)
    · intro u hu
      have hlt := hbefore' u hu
      exact fun hdec => absurd (of_decide_eq_true hdec) (by omega)
  · rw [h, filter_append, filter_eq_nil_iff.mpr, nil_append, filter_cons_of_neg, filter_eq_self.mpr]
    · exact fun u hu => decide_eq_true (hafter u hu)
    · simp
    · intro u hu
      have hlt := hbefore' u hu
      exact fun hdec => absurd (of_decide_eq_true hdec) (by omega)

theorem start_takeTurns (inside : TurnCursor) (left : Nat) (rows : List Turn) (b : ConversationBatch) :
    (takeTurns exclude inside left rows b).start = b.start := by
  induction rows generalizing left b with
  | nil => rfl
  | cons t ts ih =>
    rw [takeTurns]
    dsimp only
    split_ifs
    · exact ih _ _
    · exact ih _ _
    · rfl
    · rfl

theorem start_nextConversation (turns : List Turn) (stored : List Char) (budget : Nat) :
    (nextConversation codec exclude turns stored budget).start = stored := by
  unfold nextConversation
  split
  · exact start_takeTurns ..
  · split_ifs <;> exact start_takeTurns ..

theorem believed_marshal (hc : Known turns c) (hne : c.turn ≠ []) :
    ∃ t ∈ turns, t.id = c.turn ∧ believed codec turns (codec.marshal c) = some (c, t) := by
  obtain ⟨u, hu, hid⟩ := List.mem_map.mp hc
  unfold believed
  rw [codec.unmarshal_marshal]
  cases hfind : turns.find? fun t => t.id = c.turn with
  | none => exact absurd hid (of_decide_eq_false (Bool.eq_false_iff.mpr (List.find?_eq_none.mp hfind u hu)))
  | some t =>
    refine ⟨t, mem_of_find?_eq_some hfind, by simpa using find?_some hfind, ?_⟩
    simp [hne, hfind]

theorem nextConversation_follows (hl : Listed turns) (hc : Known turns c) (hne : c.turn ≠ []) (budget : Nat) :
    Follows exclude turns c (nextConversation codec exclude turns (codec.marshal c) budget).parts
      (nextConversation codec exclude turns (codec.marshal c) budget).through := by
  obtain ⟨t, hmem, hid, hbel⟩ := @believed_marshal codec turns c hc hne
  obtain ⟨before, after, hsplit⟩ := append_of_mem hmem
  obtain ⟨hfrom, hbehind⟩ := filter_seq hl hsplit
  have hcur : c = ⟨t.id, c.position⟩ := by rw [hid]
  have htext : textFrom exclude turns c = (shown exclude t).drop c.position ++ stream exclude after := by
    rw [hcur]
    exact textFrom_split hl hsplit _
  have hview : turns.filter Turn.searchable = before.filter Turn.searchable ++
      (t :: after).filter Turn.searchable := by
    rw [hsplit, filter_append]
  have hb : Follows exclude turns c [] c := ⟨rfl, hc⟩
  have hone : ∀ u ∈ after, startIn c u = 0 := by
    intro u hu
    have hids := hl.ids
    rw [hsplit, map_append] at hids
    have hnot : t.id ∉ after.map Turn.id := (nodup_cons.mp hids.of_append_right).1
    exact if_neg fun (heq : u.id = c.turn) => hnot (hid.trans heq.symm ▸ List.mem_map_of_mem hu)
  have hzero : ∀ u, startIn zeroCursor u = 0 := by
    intro u
    unfold startIn
    split_ifs <;> rfl
  unfold nextConversation
  rw [hbel]
  dsimp only
  rw [hfrom, hbehind]
  -- The rows behind those of this pass, whatever they are.
  have hrest : ∀ l, stream exclude (l.take maxTurnsPerPass) ++ stream exclude (l.drop maxTurnsPerPass) =
      stream exclude l := fun l => by rw [← stream_append, take_append_drop]
  split_ifs with hpos
  · cases hs : t.searchable with
    | false =>
      rw [filter_cons_of_neg (by simp [hs])] at hview ⊢
      have hall : ∀ u ∈ (after.filter Turn.searchable).take maxTurnsPerPass, startIn c u = 0 := fun u hu =>
        hone u (mem_of_mem_filter (mem_of_mem_take hu))
      refine takeTurns_follows (b := ⟨_, c, []⟩) hl c (before.filter Turn.searchable)
        ((after.filter Turn.searchable).drop maxTurnsPerPass) ?_
          (fun u hu => hall u (mem_of_mem_tail hu)) hb ?_ budget
      · rw [append_assoc, take_append_drop, hview]
      · rw [flatMap_startIn hall, hrest, stream_filter, htext]
        simp [shown, hs]
    | true =>
      rw [filter_cons_of_pos hs] at hview ⊢
      have hall : ∀ u ∈ (after.filter Turn.searchable).take 255, startIn c u = 0 := fun u hu =>
        hone u (mem_of_mem_filter (mem_of_mem_take hu))
      rw [maxTurnsPerPass, take_succ_cons]
      refine takeTurns_follows (b := ⟨_, c, []⟩) hl c (before.filter Turn.searchable)
        ((after.filter Turn.searchable).drop 255) ?_ ?_ hb ?_ budget
      · rw [hview, append_assoc, cons_append, take_append_drop]
      · exact hall
      · rw [flatMap_cons, flatMap_startIn hall, append_assoc,
          ← stream_append, take_append_drop, stream_filter, htext, startIn, if_pos hid]
  · have hbehind' : turns.filter Turn.searchable =
        (before ++ [t]).filter Turn.searchable ++ after.filter Turn.searchable := by
      rw [hsplit, ← filter_append, append_assoc, singleton_append]
    refine takeTurns_follows (b := ⟨_, c, []⟩) hl zeroCursor ((before ++ [t]).filter Turn.searchable)
      ((after.filter Turn.searchable).drop maxTurnsPerPass) ?_ (fun u _ => hzero u) hb ?_ budget
    · rw [append_assoc, take_append_drop, hbehind']
    · rw [flatMap_startIn fun u _ => hzero u, hrest, stream_filter, htext,
        drop_shown_of_le (not_lt.mp hpos), nil_append]

/-! ### What is published -/

def Placed (turns : List Turn) (b : ConversationBatch) : Prop :=
  (b.through.turn ≠ [] → Known turns b.through) ∧ ∀ p ∈ b.parts, Known turns p.from

theorem Placed.append_turns (h : Placed turns b) (l : List Turn) : Placed (turns ++ l) b :=
  ⟨fun hne => known_append (h.1 hne) l, fun p hp => known_append (h.2 p hp) l⟩

theorem takeTurns_placed (inside : TurnCursor) (hrows : ∀ t ∈ rows, t ∈ turns) (hb : Placed turns b)
    (left : Nat) : Placed turns (takeTurns exclude inside left rows b) := by
  induction rows generalizing b left with
  | nil => exact hb
  | cons t ts ih =>
    have ht : ∀ n, Known turns ⟨t.id, n⟩ := fun n => List.mem_map_of_mem (hrows t mem_cons_self)
    have hts : ∀ u ∈ ts, u ∈ turns := fun u hu => hrows u (mem_cons_of_mem t hu)
    rw [takeTurns]
    dsimp only
    split_ifs
    · exact ih (b := { b with through := ⟨t.id, t.content.length⟩ }) hts ⟨fun _ => ht _, hb.2⟩ _
    · refine ih (b := { b with parts := b.parts ++ [_], through := ⟨t.id, t.content.length⟩ }) hts
        ⟨fun _ => ht _, fun p hp => ?_⟩ _
      rcases mem_append.mp hp with hp | hp
      · exact hb.2 p hp
      · rw [mem_singleton.mp hp]
        exact ht _
    · refine ⟨fun _ => ht _, fun p hp => ?_⟩
      rw [mem_singleton.mp hp]
      exact ht _
    · exact hb

theorem nextConversation_placed (turns : List Turn) (stored : List Char) (budget : Nat) :
    Placed turns (nextConversation codec exclude turns stored budget) := by
  have hrows : ∀ after, ∀ t ∈ ((turns.filter (after < ·.seq)).filter Turn.searchable).take maxTurnsPerPass,
      t ∈ turns := fun _ t ht => mem_of_mem_filter (mem_of_mem_filter (mem_of_mem_take ht))
  unfold nextConversation
  cases hbel : believed codec turns stored with
  | none =>
    exact takeTurns_placed _ (hrows _) (b := ⟨stored, zeroCursor, []⟩) ⟨fun hne => absurd rfl hne, nofun⟩ _
  | some found =>
    obtain ⟨cur, t⟩ := found
    have hcur : Known turns cur := by
      unfold believed at hbel
      cases hun : codec.unmarshal stored with
      | none => simp [hun] at hbel
      | some c =>
        simp [hun] at hbel
        obtain ⟨-, hfind, rfl⟩ := hbel
        have hid : t.id = c.turn := by simpa using find?_some hfind
        unfold Known
        rw [← hid]
        exact List.mem_map_of_mem (mem_of_find?_eq_some hfind)
    dsimp only
    split_ifs <;> exact takeTurns_placed _ (hrows _) (b := ⟨stored, cur, []⟩) ⟨fun _ => hcur, nofun⟩ _

theorem Placed.keep (h : Placed turns b) (n runes : Int) (hne : (b.keep n runes).through.turn ≠ []) :
    Known turns (b.keep n runes).through := by
  unfold ConversationBatch.keep at hne ⊢
  dsimp only at hne ⊢
  cases hdrop : b.parts.drop (min n.toNat b.parts.length - 1) with
  | nil =>
    rw [hdrop] at hne
    exact absurd rfl hne
  | cons last behind =>
    have hlast : Known turns last.from := h.2 last (mem_of_mem_drop (hdrop ▸ mem_cons_self))
    rw [hdrop] at hne
    dsimp only at hne ⊢
    split_ifs at hne ⊢
    · exact absurd rfl hne
    · exact h.1 hne
    · exact hlast
    · exact hlast

theorem start_keep (n runes : Int) (b : ConversationBatch) : (b.keep n runes).start = b.start := by
  unfold ConversationBatch.keep
  dsimp only
  split
  · split_ifs <;> rfl
  · rfl

variable (codec exclude) in
structure Kept (s : State) : Prop where
  listed : Listed s.turns
  standing : ∀ c, s.stored = codec.marshal c → c.turn ≠ [] ∧ Known s.turns c
  placed : ∀ b ∈ s.held, Placed s.turns b
  held : ∀ b ∈ s.held, ∀ c, b.start = codec.marshal c → Known s.turns c ∧
    Follows exclude s.turns c b.parts b.through
  covered : ∀ first rest, s.published = first :: rest → Known s.turns first.through ∧
    ∃ d, s.stored = codec.marshal d ∧ Known s.turns d ∧
      rest.flatMap (fun b => textOf b.parts) ++ textFrom exclude s.turns d =
        textFrom exclude s.turns first.through

section
variable (h : Kept codec exclude s)
include h

theorem Kept.append {t : Turn} (hid : ∀ u ∈ s.turns, u.id ≠ t.id)
    (hseq : ∀ u ∈ s.turns, u.seq < t.seq) : Kept codec exclude { s with turns := s.turns ++ [t] } := by
  refine ⟨⟨?_, ?_⟩, ?_, ?_, ?_, ?_⟩
  · rw [map_append]
    refine h.listed.ids.append (nodup_singleton _) ?_
    rintro _ hmem hone
    obtain ⟨u, hu, rfl⟩ := List.mem_map.mp hmem
    exact hid u hu (mem_singleton.mp hone)
  · refine pairwise_append.mpr ⟨h.listed.seqs, pairwise_singleton .., fun u hu v hv => ?_⟩
    rw [mem_singleton.mp hv]
    exact hseq u hu
  · exact fun c hc => ⟨(h.standing c hc).1, known_append (h.standing c hc).2 _⟩
  · exact fun b hb => (h.placed b hb).append_turns _
  · intro b hb c hc
    obtain ⟨hk, hf⟩ := h.held b hb c hc
    exact ⟨known_append hk _, hf.append_turns hk _⟩
  · intro first rest hpub
    obtain ⟨hk, d, hd, hkd, htext⟩ := h.covered first rest hpub
    refine ⟨known_append hk _, d, hd, known_append hkd _, ?_⟩
    rw [textFrom_append hkd, textFrom_append hk, ← append_assoc, htext]

theorem Kept.read (budget : Nat) :
    Kept codec exclude
      { s with held := s.held ++ [nextConversation codec exclude s.turns s.stored budget] } := by
  refine ⟨h.listed, h.standing, fun b hb => ?_, fun b hb c hc => ?_, h.covered⟩
  · rcases mem_append.mp hb with hb | hb
    · exact h.placed b hb
    · rw [mem_singleton.mp hb]
      exact nextConversation_placed ..
  · rcases mem_append.mp hb with hb | hb
    · exact h.held b hb c hc
    · rw [mem_singleton.mp hb] at hc ⊢
      rw [start_nextConversation] at hc
      obtain ⟨hne, hk⟩ := h.standing c hc
      rw [hc]
      exact ⟨hk, nextConversation_follows h.listed hk hne budget⟩

theorem Kept.publish {b : ConversationBatch} (hb : b ∈ s.held) (n runes : Int) :
    Kept codec exclude (s.publish codec (b.keep n runes)) := by
  unfold State.publish
  split_ifs with hpub
  · obtain ⟨hmoved, hstored⟩ := hpub
    have hne : (b.keep n runes).through.turn ≠ [] := by
      unfold ConversationBatch.moved at hmoved
      rw [Bool.and_eq_true] at hmoved
      exact of_decide_eq_true hmoved.1
    have hk : Known s.turns (b.keep n runes).through := (h.placed b hb).keep n runes hne
    refine ⟨h.listed, fun c hc => ?_, h.placed, h.held, fun first rest hlist => ?_⟩
    · have heq := congrArg codec.unmarshal hc
      rw [codec.unmarshal_marshal, codec.unmarshal_marshal] at heq
      cases heq
      exact ⟨hne, hk⟩
    · cases hpast : s.published with
      | nil =>
        rw [hpast] at hlist
        cases hlist
        exact ⟨hk, _, rfl, hk, rfl⟩
      | cons first' rest' =>
        rw [hpast] at hlist
        cases hlist
        obtain ⟨hkf, d, hd, -, htext⟩ := h.covered _ _ hpast
        have hstart : b.start = codec.marshal d := by rw [← start_keep n runes b, ← hstored, hd]
        obtain ⟨hkept, -⟩ := (h.held b hb d hstart).2.keep n runes hmoved
        refine ⟨hkf, _, rfl, hk, ?_⟩
        change (rest' ++ [b.keep n runes]).flatMap (textOf ·.parts) ++ _ = _
        rw [flatMap_append, append_assoc, flatMap_singleton, hkept, htext]
  · exact h

theorem Kept.step (hstep : Step codec exclude s s') : Kept codec exclude s' := by
  cases hstep with
  | append t hid hseq => exact h.append hid hseq
  | read budget _ => exact h.read budget
  | publish b n runes hb => exact h.publish hb n runes

end

/-- After the first published cursor, what the publishing passes kept is the conversation's text
from that cursor to the stored one. -/
theorem published_is_text (codec : Codec) (exclude : List Char) {turns : List Turn}
    {stored : List Char} {s : State}
    (hturns : Listed turns) (hstored : ∀ c, stored = codec.marshal c → c.turn ≠ [] ∧ Known turns c)
    (h : Steps codec exclude ⟨turns, stored, [], []⟩ s) {first : ConversationBatch}
    {rest : List ConversationBatch}
    (hpub : s.published = first :: rest) :
    ∃ d, s.stored = codec.marshal d ∧
      rest.flatMap (fun b => textOf b.parts) ++ textFrom exclude s.turns d =
        textFrom exclude s.turns first.through := by
  have hk : Kept codec exclude s := by
    clear hpub
    induction h with
    | refl => exact ⟨hturns, hstored, nofun, nofun, nofun⟩
    | tail _ hstep ih => exact ih.step hstep
  obtain ⟨-, d, hd, -, htext⟩ := hk.covered first rest hpub
  exact ⟨d, hd, htext⟩

end

/-- Cursors as texts: the position in ones, a zero, the turn. -/
def unary : Codec where
  marshal c := List.replicate c.position '1' ++ '0' :: c.turn
  unmarshal l := match l.dropWhile (· = '1') with
    | [] => none
    | _ :: turn => some ⟨turn, (l.takeWhile (· = '1')).length⟩
  unmarshal_marshal c := by
    have hones : ∀ a ∈ List.replicate c.position '1', decide (a = '1') := fun a ha =>
      decide_eq_true (List.eq_of_mem_replicate ha)
    rw [List.dropWhile_append_of_pos hones, List.takeWhile_append_of_pos hones]
    simp

def spoken : List Turn := [⟨['t'], 1, ['a', 'b'], true⟩]

def atFirst : State := ⟨spoken, [], [], []⟩

def readOne (s : State) : State := { s with held := s.held ++ [nextConversation unary [] s.turns s.stored 1] }

def publishLast (s : State) : State := match s.held.getLast? with
  | none => s
  | some b => s.publish unary (b.keep 1 0)

def letterA : ConversationBatch := ⟨[], ⟨['t'], 1⟩, [⟨['t'], ['a'], 0, false⟩]⟩

def letterB : ConversationBatch := ⟨['1', '0', 't'], ⟨['t'], 2⟩, [⟨['t'], ['b'], 1, true⟩]⟩

theorem published_is_text_one_by_one :
    (publishLast (readOne (publishLast (readOne atFirst)))).published = [letterA, letterB] ∧
      ∃ d, ['b'] ++ textFrom [] spoken d = textFrom [] spoken letterA.through := by
  have hsteps : Steps unary [] atFirst (publishLast (readOne (publishLast (readOne atFirst)))) :=
    (((Relation.ReflTransGen.single (.read 1 (by decide))).tail
      (.publish letterA 1 0 (by decide))).tail (.read 1 (by decide))).tail
      (.publish letterB 1 0 (by decide))
  have hstored : ∀ c, [] = unary.marshal c → c.turn ≠ [] ∧ Known spoken c := by
    intro c hc
    cases hc' : List.replicate c.position '1' <;> simp [unary] at hc
  have hpub : (publishLast (readOne (publishLast (readOne atFirst)))).published =
    [letterA, letterB] := by decide
  obtain ⟨d, -, htext⟩ := published_is_text unary [] ⟨by decide, by decide⟩ hstored hsteps hpub
  exact ⟨hpub, d, htext⟩

end AiiOs.Conversation.Intake
