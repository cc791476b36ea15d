import LpPresolve.Proofs.Binary.Signs
import LpPresolve.Proofs.Orders

/-! Comparisons in a binary format. They compare the values that the encodings stand for. -/

namespace LpPresolve

open Float.Model (Format UnpackedFloat)
open Scalar

namespace Binary

variable {F : Format}

theorem order_any_isLE (a b : Extended) : (order a b).any (·.isLE) = true ↔ a ≤ b := by
  have hle : a ≤ b ↔ a < b ∨ (a == b) = true := by
    rw [Extended.le_iff, Bool.or_eq_true, ← Extended.lt_iff]
    rfl
  rw [hle, order]
  split_ifs with hlt hgt heq
  · exact iff_of_true rfl (.inl hlt)
  · refine iff_of_false Bool.false_ne_true ?_
    rintro (h | h)
    · exact hlt h
    · exact Extended.lt_irrefl b ((Extended.beq_iff.1 h).2 ▸ hgt)
  · exact iff_of_true rfl (.inr heq)
  · exact iff_of_false Bool.false_ne_true (not_or.2 ⟨hlt, heq⟩)

theorem le_eq_true_iff {u v : UnpackedFloat} (hu : Rounded F u) (hv : Rounded F v) :
    u.le v = true ↔ value u ≤ value v := by
  rw [UnpackedFloat.le, compare_eq_order hu hv, order_any_isLE]

end Binary

namespace BinaryScalar

variable {α : Type} [Scalar α] [BinaryScalar α] [FaithfulBinary α]

theorem le_iff_read (a b : α) : a ≤ b ↔ read a ≤ read b :=
  (FaithfulBinary.le_iff a b).trans (Binary.le_eq_true_iff (rounded_number a) (rounded_number b))

instance : LawfulOrder α where
  not_lt {a b} ha hb := by
    rw [isNaN_eq_read] at ha hb
    rw [lt_iff_read, le_iff_read, LawfulOrder.not_lt ha hb]
  le_trans {a b c} h h' := by
    rw [le_iff_read] at h h' ⊢
    exact LawfulOrder.le_trans h h'
  le_of_lt {a b} h := by
    rw [lt_iff_read] at h
    rw [le_iff_read]
    exact LawfulOrder.le_of_lt h
  lt_irrefl a := by
    rw [lt_iff_read]
    exact LawfulOrder.lt_irrefl (read a)
  isNaN_of_lt {a b} h := by
    rw [lt_iff_read] at h
    rw [isNaN_eq_read, LawfulOrder.isNaN_of_lt h]
  isNaN_of_beq {a b} h := by
    rw [beq_eq_read] at h
    rw [isNaN_eq_read, LawfulOrder.isNaN_of_beq h]
  beq_of_lt {a b} h := by
    rw [lt_iff_read] at h
    rw [beq_eq_read, LawfulOrder.beq_of_lt h]
  isNaN_zero := by
    rw [isNaN_eq_read, read_zero, LawfulOrder.isNaN_zero]
  isNaN_magnitude a := by
    rw [isNaN_eq_read (magnitude a), read_magnitude, LawfulOrder.isNaN_magnitude, ← isNaN_eq_read]
  isInfinite_iff a := by
    rw [isInfinite, beq_eq_read, beq_eq_read a infinity, beq_eq_read a (-infinity), read_neg,
      read_magnitude, read_infinity]
    exact LawfulOrder.isInfinite_iff (read a)

end BinaryScalar

end LpPresolve
