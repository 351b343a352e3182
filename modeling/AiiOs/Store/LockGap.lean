import AiiOs.Lib.Bytes

/-! internal/store/compressvfs, vfs.go and image.go: the bytes behind `pendingByte`, where the native locks
are, stand `lockGap` further on. A native call succeeds but for a read past the end; offsets are far from the
end of the `int64`, and lengths fit into the `int32` that a native call takes. -/

namespace AiiOs.Store.LockGap
open Lib List

def pendingByte : Nat := 0x40000000

def lockGap : Nat := 4096

def physicalOffset (offset : Nat) : Nat := if pendingByte ≤ offset then offset + lockGap else offset

/-- A file; it grows with zeros. -/
@[ext] structure File where
  size : Nat
  byte : Nat → UInt8
  hole : ∀ i, size ≤ i → byte i = 0

namespace File

def write (f : File) (p : Bytes) (o : Nat) : File where
  size := if p = [] then f.size else max f.size (o + p.length)
  byte i := if o ≤ i then (p[i - o]?).getD (f.byte i) else f.byte i
  hole i h := by grind [f.hole i]

def read (f : File) (n o : Nat) : Option Bytes :=
  if n = 0 ∨ o + n ≤ f.size then some ((range n).map fun i => f.byte (o + i)) else none

def truncate (f : File) (n : Nat) :
    File := ⟨n, fun i => if i < n then f.byte i else 0, fun _ h => if_neg (by omega)⟩

end File

/-- How much the next native call takes. -/
def piece (offset len : Nat) :
    Nat := if offset < pendingByte ∧ pendingByte - offset < len then pendingByte - offset else len

theorem piece_spec (offset : Nat) {len : Nat} (h : 0 < len) :
    0 < piece offset len ∧ piece offset len ≤ len := by
  unfold piece
  split_ifs <;> omega

/-- The native calls of `nativeIO` and of `transfer`. -/
def calls (p : Bytes) (offset : Nat) : List (Bytes × Nat) :=
  if _h : p = [] then []
  else
    let n := piece offset p.length
    (p.take n, physicalOffset offset) :: calls (p.drop n) (offset + n)
termination_by p.length
decreasing_by
  have := piece_spec offset (length_pos_iff.mpr _h)
  rw [length_drop]
  omega

inductive Op
  | read (n o : Nat)
  | write (p : Bytes) (o : Nat)
  | truncate (n : Nat)

/-- An operation on a file with no gap. -/
def Op.plain (l : File) : Op → Option Bytes × File
  | .read n o => (l.read n o, l)
  | .write p o => (some [], l.write p o)
  | .truncate n => (some [], l.truncate n)

/-- An operation through the mapping; the first call that fails ends it. -/
def Op.mapped (f : File) : Op → Option Bytes × File
  | .read n o => ((calls (replicate n 0) o).foldlM
      (fun got c => (f.read c.1.length c.2).map (got ++ ·)) [], f)
  | .write p o => (some [], (calls p o).foldl (fun f c => f.write c.1 c.2) f)
  | .truncate n => (some [], f.truncate (physicalOffset n))

def run (exec : File → Op → Option Bytes × File) : List Op → File → List (Option Bytes) × File
  | [], f => ([], f)
  | op :: ops, f => let (rs, g) := run exec ops (exec f op).2; ((exec f op).1 :: rs, g)

def size (f : File) : Nat :=
  if pendingByte + lockGap ≤ f.size then f.size - lockGap
    else if pendingByte < f.size then pendingByte else f.size

/-- The logical file. -/
def view (f : File) : File :=
  ⟨size f, fun i => f.byte (physicalOffset i), fun i h =>
    f.hole _ (by unfold size at h; unfold physicalOffset; split_ifs at * <;> omega)⟩

variable {f l : File} {p q : Bytes} {o n : Nat}

/-- A range on one side of `pendingByte`. -/
def OneSide (o n : Nat) : Prop := pendingByte ≤ o ∨ o + n ≤ pendingByte

section
variable (h : OneSide o p.length)
include h

theorem view_write : view (f.write p (physicalOffset o)) = (view f).write p o := by
  unfold OneSide at h
  ext i <;> simp only [view, size, File.write, physicalOffset] <;> grind

theorem read_view : f.read p.length (physicalOffset o) = (view f).read p.length o := by
  unfold OneSide at h
  have hsize : p.length = 0 ∨ physicalOffset o + p.length ≤ f.size ↔
      p.length = 0 ∨ o + p.length ≤ size f := by
    grind [size, physicalOffset]
  simp only [File.read, hsize, view]
  refine if_congr .rfl (congrArg some (map_congr_left fun i hi => congrArg f.byte ?_)) rfl
  rw [mem_range] at hi
  grind [physicalOffset]

end

theorem view_truncate : view (f.truncate (physicalOffset n)) = (view f).truncate n := by
  ext i <;> simp only [view, size, File.truncate, physicalOffset] <;> grind

theorem write_append (hp : p ≠ []) : (l.write p o).write q (o + p.length) = l.write (p ++ q) o := by
  have := length_pos_iff.mpr hp
  ext i <;> simp only [File.write, append_eq_nil_iff] <;> grind

theorem read_append (m : Nat) (_ : m ≠ 0) :
    l.read (m + n) o = (l.read m o).bind fun a => (l.read n (o + m)).map (a ++ ·) := by
  simp only [File.read, range_add, map_append, map_map, Function.comp_def, Nat.add_assoc]
  split_ifs <;> first | rfl | omega

theorem take_piece (hp : ¬p = []) (o : Nat) : OneSide o (p.take (piece o p.length)).length ∧
    (p.take (piece o p.length)).length = piece o p.length ∧ p.take (piece o p.length) ≠ [] := by
  have hn := piece_spec o (length_pos_iff.mpr hp)
  rw [ne_eq, take_eq_nil_iff, length_take, min_eq_left hn.2]
  refine ⟨?_, rfl, not_or.mpr ⟨by omega, hp⟩⟩
  unfold OneSide piece
  split_ifs <;> omega

theorem view_calls_write : view ((calls p o).foldl (fun f c => f.write c.1 c.2) f) = (view f).write p o := by
  fun_induction calls p o generalizing f with
  | case1 => ext <;> simp [File.write]
  | case2 p o hp n =>
    rename_i ih
    obtain ⟨hside, hlen, hne⟩ := take_piece hp o
    have hw := @write_append (view f) _ (p.drop (piece o p.length)) o hne
    rw [hlen, take_append_drop] at hw
    rw [foldl_cons, ih, view_write hside, hw]

theorem calls_read (got : Bytes) :
    (calls p o).foldlM (fun got c => (f.read c.1.length c.2).map (got ++ ·)) got =
    ((view f).read p.length o).map (got ++ ·) := by
  fun_induction calls p o generalizing got with
  | case1 => simp [File.read]
  | case2 p o hp n =>
    rename_i ih
    obtain ⟨hside, hlen, hne⟩ := take_piece hp o
    have hr := @read_append (view f) o (p.drop (piece o p.length)).length _ (mt length_eq_zero_iff.mp hne)
    rw [← length_append, take_append_drop, hlen] at hr
    rw [foldlM_cons, read_view hside, hlen, hr]
    cases (view f).read (piece o p.length) o with
    | none => rfl
    | some a => simpa [Function.comp_def] using ih (got ++ a)

theorem calls_outside : ∀ c ∈ calls p o, c.2 + c.1.length ≤ pendingByte ∨ pendingByte + lockGap ≤ c.2 := by
  fun_induction calls p o with
  | case1 => simp
  | case2 p o hp n =>
    rename_i ih
    obtain ⟨hside, -, hne⟩ := take_piece hp o
    have := length_pos_iff.mpr hne
    refine forall_mem_cons.mpr ⟨?_, ih⟩
    unfold OneSide at hside
    grind [physicalOffset]

theorem mapped_view (op : Op) : ((op.mapped f).1, view (op.mapped f).2) = op.plain (view f) := by
  cases op with
  | read n o =>
    have hr := @calls_read f (replicate n 0) o []
    rw [length_replicate] at hr
    simpa [Op.mapped, Op.plain] using hr
  | write p o => exact congrArg (some [], ·) view_calls_write
  | truncate n => exact congrArg (some [], ·) view_truncate

/-- Through the mapping every sequence of operations is as on a file with no gap, and no native call
touches the gap; what was written is what is read, and the size is what the file was truncated to. -/
theorem gap_not_there (ops : List Op) (f : File) :
    ((run Op.mapped ops f).1, view (run Op.mapped ops f).2) = run Op.plain ops (view f) ∧
    (∀ p o, ∀ c ∈ calls p o, c.2 + c.1.length ≤ pendingByte ∨ pendingByte + lockGap ≤ c.2) ∧
    (∀ p o n o' got, ((Op.read n o').mapped ((Op.write p o).mapped f).2).1 = some got →
      ∀ i < n, o ≤ o' + i → o' + i < o + p.length → got[i]? = p[o' + i - o]?) ∧
    ∀ n, size ((Op.truncate n).mapped f).2 = n := by
  refine ⟨?_, fun _ _ => calls_outside, fun p o n o' got hgot i hi hlow hhigh => ?_, fun n => ?_⟩
  · induction ops generalizing f with
    | nil => rfl
    | cons op ops ih =>
      have hop := @mapped_view f op
      simp only [run, ← hop, ← ih]
  · have hr := congrArg Prod.fst (@mapped_view ((Op.write p o).mapped f).2 (.read n o'))
    have hw := congrArg Prod.snd (@mapped_view f (.write p o))
    simp only [Op.plain, hgot] at hr hw
    rw [hw, File.read] at hr
    split_ifs at hr
    cases hr
    rw [getElem?_map, getElem?_range hi, Option.map_some]
    simp only [File.write]
    rw [if_pos hlow, getElem?_eq_getElem (by omega), Option.getD_some]
  · exact congrArg File.size (congrArg Prod.snd (@mapped_view f (.truncate n)))

end AiiOs.Store.LockGap
