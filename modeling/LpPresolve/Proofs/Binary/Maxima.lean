import LpPresolve.Proofs.Binary.Scalars
import LpPresolve.Proofs.Maxima

/-! Maxima in a binary format. Magnitudes have no sign, so two of them with one value have one encoding,
and the larger of two is the same in either order. -/

namespace LpPresolve

open Float.Model (Format UnpackedFloat)
open Scalar

namespace Binary

variable {F : Format}

theorem Canonical.eq_of_mul_two_zpow_eq {m m' : Nat} {e e' : Int} (h : Canonical F m e)
    (h' : Canonical F m' e') (heq : (m : Rat) * 2 ^ e = m' * 2 ^ e') : m = m' ∧ e = e' := by
  have hcompare := h.compare_eq h'
  rw [heq, compare_eq_iff_eq.2 rfl, Ordering.then_eq_eq, compare_eq_iff_eq, compare_eq_iff_eq]
    at hcompare
  exact hcompare.symm

/-- Numbers without a sign are told apart by their values. -/
theorem abs_eq_of_value_eq {u v : UnpackedFloat} (hu : Rounded F u) (hv : Rounded F v)
    (h : value u.abs = value v.abs) : u.abs = v.abs := by
  cases u with
  | notANumber => cases v with
    | notANumber => rfl
    | infinity | zero | finite => cases h
  | infinity s => cases v with
    | infinity s' => rfl
    | notANumber | zero | finite => cases h
  | zero s => cases v with
    | zero s' => rfl
    | notANumber | infinity => cases h
    | finite s' m' e' hm' =>
      rw [abs_finite, value_finite_positive] at h
      exact absurd (Extended.finite.inj h) (mantissa_mul_pos hm' e').ne
  | finite s m e hm => cases v with
    | notANumber | infinity => cases h
    | zero s' =>
      rw [abs_finite, value_finite_positive] at h
      exact absurd (Extended.finite.inj h).symm (mantissa_mul_pos hm e).ne
    | finite s' m' e' hm' =>
      rw [abs_finite, abs_finite, value_finite_positive, value_finite_positive] at h
      obtain ⟨rfl, rfl⟩ := Canonical.eq_of_mul_two_zpow_eq hu hv (Extended.finite.inj h)
      rfl

end Binary

namespace BinaryScalar

variable {α : Type} [Scalar α] [BinaryScalar α]

theorem bits_magnitude_eq_of_read_eq {a b : α} (h : read (magnitude a) = read (magnitude b)) :
    bits (magnitude a) = bits (magnitude b) := by
  rw [read_magnitude, read_magnitude, read, read, ← Binary.value_abs, ← Binary.value_abs] at h
  have habs := Binary.abs_eq_of_value_eq (rounded_number a) (rounded_number b) h
  rw [bits_magnitude, bits_magnitude]
  exact congrArg _ habs

omit [BinaryScalar α] in
theorem exists_maxNum_eq_magnitude (a b : α) :
    ∃ c, maxNum (magnitude a) (magnitude b) = magnitude c := by
  rw [maxNum]
  split_ifs
  exacts [⟨b, rfl⟩, ⟨b, rfl⟩, ⟨a, rfl⟩]

/-- A type that has one value for each encoding has maxima of magnitudes. -/
theorem lawfulMax_of_injective (hbits : Function.Injective (bits : α → _)) : LawfulMax α where
  lt_trans h h' := by
    rw [lt_iff_read] at h h' ⊢
    exact Extended.lt_trans h h'
  isNaN_of_lt h := by
    rw [lt_iff_read] at h
    rw [isNaN_eq_read]
    exact LawfulMax.isNaN_of_lt h
  maxNum_comm a b := by
    have hread : read (maxNum (magnitude a) (magnitude b)) =
        read (maxNum (magnitude b) (magnitude a)) := by
      rw [read_maxNum, read_maxNum, Extended.maxNum_comm]
    obtain ⟨c, hc⟩ := exists_maxNum_eq_magnitude a b
    obtain ⟨d, hd⟩ := exists_maxNum_eq_magnitude b a
    rw [hc, hd] at hread ⊢
    exact hbits (bits_magnitude_eq_of_read_eq hread)

theorem float_bits_injective : Function.Injective (bits : Float → _) := by
  rintro ⟨⟨x, _⟩⟩ ⟨⟨y, _⟩⟩ h
  obtain rfl : x = y := UInt64.toBitVec_inj.1 h
  rfl

theorem float32_bits_injective : Function.Injective (bits : Float32 → _) := by
  rintro ⟨⟨x, _⟩⟩ ⟨⟨y, _⟩⟩ h
  obtain rfl : x = y := UInt32.toBitVec_inj.1 h
  rfl

instance : LawfulMax Float := lawfulMax_of_injective float_bits_injective

instance : LawfulMax Float32 := lawfulMax_of_injective float32_bits_injective

end BinaryScalar

end LpPresolve
