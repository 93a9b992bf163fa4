import Mathlib.Data.Int.Order.Basic

/-! # Buckets of a division that truncates

Times are put into buckets by a division that drops the fraction. The marks are the multiples of the width: a time
after zero has reached those up to it, one before zero those down to it, and so the bucket around zero is twice as
wide as the others.

* `tdiv_eq_tdiv_iff`: two times are in one bucket exactly when they have reached the same marks. -/

namespace Notely.Lib.Buckets

/-- A time is as far from zero as a mark, on the same side. -/
def Reached (mark t : ℤ) : Prop := (0 < mark ∧ mark ≤ t) ∨ (mark < 0 ∧ t ≤ mark)

instance (mark t : ℤ) : Decidable (Reached mark t) := inferInstanceAs (Decidable (_ ∨ _))

variable {w k s t : ℤ}

/-- The buckets after zero. -/
theorem le_tdiv_iff (hw : 0 < w) (hk : 0 < k) : k ≤ t.tdiv w ↔ k * w ≤ t := by
  have hmark : 0 < k * w := Int.mul_pos hk hw
  rcases Int.le_total 0 t with ht | ht
  · rw [Int.tdiv_eq_ediv_of_nonneg ht, Int.le_ediv_iff_mul_le hw]
  · have hneg : 0 ≤ (-t).tdiv w := Int.tdiv_nonneg (by omega) (by omega)
    rw [Int.neg_tdiv] at hneg
    omega

/-- The buckets before zero. -/
theorem tdiv_le_iff (hw : 0 < w) (hk : k < 0) : t.tdiv w ≤ k ↔ t ≤ k * w := by
  have h := le_tdiv_iff (t := -t) hw (show 0 < -k by omega)
  rw [Int.neg_tdiv, Int.neg_mul] at h
  omega

theorem reached_iff (hw : 0 < w) : Reached (k * w) t ↔ (0 < k ∧ k ≤ t.tdiv w) ∨ (k < 0 ∧ t.tdiv w ≤ k) := by
  rcases Int.lt_trichotomy k 0 with hk | rfl | hk
  · have hmark : k * w < 0 := Int.mul_neg_of_neg_of_pos hk hw
    rw [Reached, tdiv_le_iff hw hk]
    omega
  · simp [Reached]
  · have hmark : 0 < k * w := Int.mul_pos hk hw
    rw [Reached, le_tdiv_iff hw hk]
    omega

/-- **Two times are in one bucket exactly when they have reached the same marks.** -/
theorem tdiv_eq_tdiv_iff (hw : 0 < w) :
    s.tdiv w = t.tdiv w ↔ ∀ k : ℤ, Reached (k * w) s ↔ Reached (k * w) t := by
  constructor
  · intro h k
    rw [reached_iff hw, reached_iff hw, h]
  · intro h
    have hs := h (s.tdiv w)
    have ht := h (t.tdiv w)
    rw [reached_iff hw, reached_iff hw] at hs ht
    omega

end Notely.Lib.Buckets
