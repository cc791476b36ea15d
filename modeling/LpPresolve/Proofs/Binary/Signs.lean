import LpPresolve.Proofs.Binary.Maxima
import LpPresolve.Proofs.Signs

/-! Signs in a binary format. Rounding looks at the magnitude of a product only, so the product of two
numbers with a sign changed is their product with its sign changed, bit for bit. -/

namespace LpPresolve

open Float.Model (Format UnpackedFloat totalExponent)
open Float.Model.UnpackedFloat (pack unpack Sign roundWithAccuracy shiftToTargetExponent)
open Scalar

namespace Binary

variable {F : Format}

/-! ### Negation -/

theorem neg_finite (s : Sign) (m : Nat) (e : Int) (hm : 0 < m) :
    (UnpackedFloat.finite s m e hm).neg = .finite (-s) m e hm := rfl

theorem value_neg (u : UnpackedFloat) : value u.neg = -value u := by
  cases u with
  | notANumber => rfl
  | zero s => exact congrArg Extended.finite neg_zero.symm
  | infinity s => cases s <;> rfl
  | finite s m e hm =>
    cases s with
    | negative =>
      rw [value_finite_negative, Extended.neg_finite, neg_neg]
      exact value_finite_positive m e hm
    | positive =>
      rw [value_finite_positive, Extended.neg_finite]
      exact value_finite_negative m e hm

theorem Rounded.neg {u : UnpackedFloat} (hu : Rounded F u) : Rounded F u.neg := by
  cases u with
  | finite => exact hu
  | infinity | notANumber | zero => trivial

theorem saturate_neg (u : UnpackedFloat) : saturate F u.neg = (saturate F u).neg := by
  cases u with
  | finite s m e hm =>
    rw [neg_finite, saturate_finite, saturate_finite, apply_ite UnpackedFloat.neg]
    rfl
  | infinity | notANumber | zero => rfl

theorem abs_neg (u : UnpackedFloat) : u.neg.abs = u.abs := by
  cases u <;> rfl

/-! ### Products -/

theorem sign_mul_comm (s t : Sign) : s * t = t * s := by
  cases s <;> cases t <;> rfl

theorem sign_neg_mul (s t : Sign) : -s * t = -(s * t) := by
  cases s <;> cases t <;> rfl

theorem mul_finite (s s' : Sign) {m m' : Nat} (e e' : Int) (hm : 0 < m) (hm' : 0 < m') :
    UnpackedFloat.mul F (.finite s m e hm) (.finite s' m' e' hm') =
      roundWithAccuracy F (s * s') (m * m') (e + e') .exact := rfl

theorem mul_comm (u v : UnpackedFloat) : UnpackedFloat.mul F u v = UnpackedFloat.mul F v u := by
  cases u with
  | notANumber => cases v <;> rfl
  | infinity s => cases v with
    | notANumber | zero => rfl
    | infinity s' | finite s' => exact congrArg UnpackedFloat.infinity (sign_mul_comm s s')
  | zero s => cases v with
    | notANumber | infinity => rfl
    | zero s' | finite s' => exact congrArg UnpackedFloat.zero (sign_mul_comm s s')
  | finite s m e hm => cases v with
    | notANumber => rfl
    | infinity s' => exact congrArg UnpackedFloat.infinity (sign_mul_comm s s')
    | zero s' => exact congrArg UnpackedFloat.zero (sign_mul_comm s s')
    | finite s' m' e' hm' => rw [mul_finite, mul_finite, sign_mul_comm, Nat.mul_comm, Int.add_comm]

theorem cut_neg (s : Sign) (m : Nat) (e : Int) : cut F (-s) m e = (cut F s m e).neg := by
  by_cases h : (shiftToTargetExponent F m e .exact).1.mantissa = 0
  · have hcut (t : Sign) : cut F t m e = .zero t := dif_pos h
    rw [hcut, hcut]
    rfl
  · have hcut (t : Sign) : cut F t m e = .finite t _ _ (Nat.pos_of_ne_zero h) := dif_neg h
    rw [hcut, hcut, neg_finite]

theorem roundWithAccuracy_neg (s : Sign) (m : Nat) (e : Int) :
    roundWithAccuracy F (-s) m e .exact = (roundWithAccuracy F s m e .exact).neg :=
  cut_neg s _ _

theorem neg_mul (u v : UnpackedFloat) :
    UnpackedFloat.mul F u.neg v = (UnpackedFloat.mul F u v).neg := by
  cases u with
  | notANumber => cases v <;> rfl
  | infinity s => cases v with
    | notANumber | zero => rfl
    | infinity s' | finite s' => exact congrArg UnpackedFloat.infinity (sign_neg_mul s s')
  | zero s => cases v with
    | notANumber | infinity => rfl
    | zero s' | finite s' => exact congrArg UnpackedFloat.zero (sign_neg_mul s s')
  | finite s m e hm => cases v with
    | notANumber => rfl
    | infinity s' => exact congrArg UnpackedFloat.infinity (sign_neg_mul s s')
    | zero s' => exact congrArg UnpackedFloat.zero (sign_neg_mul s s')
    | finite s' m' e' hm' =>
      rw [neg_finite, mul_finite, mul_finite, sign_neg_mul, roundWithAccuracy_neg]

/-- The product of two mantissas has at least the digits that are kept, unless it is below all normal
numbers. -/
theorem add_le_place_mul (hF : 0 < F.exponentBias) {m m' : Nat} {e e' : Int} (h : Canonical F m e)
    (h' : Canonical F m' e') (hm : 0 < m) (hm' : 0 < m') :
    e + e' ≤ place F ((m * m' : Nat) * 2 ^ (e + e')) := by
  have hpos := Nat.mul_pos hm hm'
  have hmin := minExponent_eq F
  rw [place_eq, ← totalExponent_eq hpos, totalExponent, mantissaBits_eq]
  by_cases hlow : e + e' ≤ F.minExponent
  · exact hlow.trans (le_max_right _ _)
  · -- one of the exponents is not the least one
    have hle : 2 ^ F.mantissaBitsWithoutImplicit ≤ m * m' := by
      by_cases he : F.minExponent < e
      · exact (h.normal he).trans (Nat.le_mul_of_pos_right m hm')
      · exact (h'.normal (by omega)).trans (Nat.le_mul_of_pos_left m' hm)
    have hlog := (Nat.le_log2 hpos.ne').2 hle
    omega

theorem rounded_mul (hF : 0 < F.exponentBias) {u v : UnpackedFloat} (hu : Rounded F u)
    (hv : Rounded F v) : Rounded F (UnpackedFloat.mul F u v) := by
  cases u <;> cases v <;> try trivial
  rename_i s m e hm s' m' e' hm'
  obtain ⟨-, -, hround, -⟩ := exists_roundWithAccuracy (F := F) (s * s') (Nat.mul_pos hm hm')
    (add_le_place_mul hF hu hv hm hm')
  exact hround

end Binary

/-! ### Scalars -/

/-- A binary scalar type that has one value for each encoding, and whose negation and comparison act on
unpacked numbers as well. -/
class FaithfulBinary (α : Type) [Scalar α] [BinaryScalar α] : Prop where
  bits_injective : Function.Injective (BinaryScalar.bits : α → _)
  bits_neg (a : α) : BinaryScalar.bits (-a) = pack (BinaryScalar.format α)
    (.neg (unpack (BinaryScalar.format α) (BinaryScalar.bits a)))
  le_iff (a b : α) : a ≤ b ↔ UnpackedFloat.le (unpack (BinaryScalar.format α) (BinaryScalar.bits a))
    (unpack (BinaryScalar.format α) (BinaryScalar.bits b)) = true

instance : FaithfulBinary Float where
  bits_injective := BinaryScalar.float_bits_injective
  bits_neg _ := rfl
  le_iff _ _ := decide_eq_true_iff

instance : FaithfulBinary Float32 where
  bits_injective := BinaryScalar.float32_bits_injective
  bits_neg _ := rfl
  le_iff _ _ := decide_eq_true_iff

namespace BinaryScalar

variable {α : Type} [Scalar α] [BinaryScalar α]

theorem exponentBias_pos : 0 < (format α).exponentBias :=
  lt_of_lt_of_le (by omega) (three_le_bias (α := α))

theorem rounded_mul (a b : α) :
    Binary.Rounded (format α) (UnpackedFloat.mul (format α) (number a) (number b)) :=
  Binary.rounded_mul exponentBias_pos (rounded_number a) (rounded_number b)

theorem number_mul (a b : α) : number (a * b) =
    Binary.saturate (format α) (UnpackedFloat.mul (format α) (number a) (number b)) :=
  number_of_bits (bits_mul a b) (rounded_mul a b)

/-- A product that is too large is packed as the infinity that it is read as. -/
theorem pack_saturate (u : UnpackedFloat) :
    pack (format α) (Binary.saturate (format α) u) = pack (format α) u := by
  have hcap := Binary.two_pow_exponentBits (format α)
  cases u with
  | finite s m e hm =>
    rw [Binary.saturate_finite, Binary.greatestExponent]
    by_cases h : e ≤ (format α).exponentBias - (format α).mantissaBitsWithoutImplicit
    · rw [if_pos h]
    · rw [if_neg h, Binary.pack_finite, if_pos (by omega)]
      rfl
  | infinity | notANumber | zero => rfl

variable [FaithfulBinary α]

theorem number_neg (a : α) : number (-a) = (number a).neg := by
  have hheld := held_number a
  rw [number_of_bits (FaithfulBinary.bits_neg a) hheld.rounded.neg, Binary.saturate_neg]
  exact congrArg UnpackedFloat.neg hheld.saturate_eq

theorem read_neg (a : α) : read (-a) = -read a := by
  rw [read, number_neg, Binary.value_neg, read]

instance : LawfulMul α where
  mul_comm a b := FaithfulBinary.bits_injective <| by
    rw [bits_mul, bits_mul, Binary.mul_comm]
  neg_mul a b := FaithfulBinary.bits_injective <| by
    have hmul := bits_mul (-a) b
    have hneg := FaithfulBinary.bits_neg (a * b)
    rw [← number, ← number, number_neg, Binary.neg_mul] at hmul
    rw [← number, number_mul, ← Binary.saturate_neg, pack_saturate] at hneg
    rw [hmul, hneg]
  magnitude_neg a := FaithfulBinary.bits_injective <| by
    have hneg := bits_magnitude (-a)
    rw [← number, number_neg, Binary.abs_neg] at hneg
    exact hneg.trans (bits_magnitude a).symm
  binaryExponent_magnitude a := by
    rw [binaryExponent_eq_read (magnitude a), binaryExponent_eq_read a, read_magnitude]
    exact LawfulMul.binaryExponent_magnitude (read a)

end BinaryScalar

end LpPresolve
