import AiiOs.Lib.Utf8

/-! Byte strings as Go compares and prints them. -/

namespace Lib

/-- The order of Go strings: byte by byte, a proper prefix first. -/
def bytesLe : Bytes → Bytes → Bool
  | [], _ => true
  | _ :: _, [] => false
  | a :: as, b :: bs => if a.toNat < b.toNat then true else if b.toNat < a.toNat then false else bytesLe as bs

theorem bytesLe_total (as bs : Bytes) : bytesLe as bs ∨ bytesLe bs as := by
  induction as generalizing bs with
  | nil => exact .inl (by simp [bytesLe])
  | cons a as ih =>
    cases bs with
    | nil => exact .inr (by simp [bytesLe])
    | cons b bs =>
      simp only [bytesLe]
      rcases lt_trichotomy a.toNat b.toNat with h | h | h
      · simp [h]
      · simpa [h] using ih bs
      · simp [h]

theorem bytesLe_antisymm {as bs : Bytes} (h : bytesLe as bs) (h' : bytesLe bs as) : as = bs := by
  induction as generalizing bs with
  | nil => cases bs <;> simp_all [bytesLe]
  | cons a as ih =>
    cases bs with
    | nil => simp [bytesLe] at h
    | cons b bs =>
      simp only [bytesLe] at h h'
      have hab : a.toNat = b.toNat := by split_ifs at h h' <;> omega
      rw [if_neg (by omega), if_neg (by omega)] at h h'
      rw [UInt8.toNat_inj.mp hab, ih h h']

theorem bytesLe_trans {as bs cs : Bytes} (h : bytesLe as bs) (h' : bytesLe bs cs) : bytesLe as cs := by
  induction as generalizing bs cs with
  | nil => simp [bytesLe]
  | cons a as ih =>
    cases bs with
    | nil => simp [bytesLe] at h
    | cons b bs =>
      cases cs with
      | nil => simp [bytesLe] at h'
      | cons c cs =>
        simp only [bytesLe] at h h' ⊢
        split_ifs at h h' ⊢ with h1 h2 h3 h4 h5 h6 <;> first | rfl | omega | exact ih h h'

def bytesLt (as bs : Bytes) : Prop := bytesLe bs as = false

instance : Trans bytesLt bytesLt bytesLt where
  trans {as bs cs} h h' := by
    refine Bool.eq_false_iff.mpr fun hle => ?_
    have hmid : bytesLe as bs := (bytesLe_total as bs).resolve_right (Bool.eq_false_iff.mp h)
    exact Bool.eq_false_iff.mp h' (bytesLe_trans hle hmid)

end Lib
