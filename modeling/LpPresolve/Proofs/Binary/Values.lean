import LpPresolve.Proofs.Binary.Packing
import LpPresolve.Proofs.Exact.Order
import Mathlib.Order.Compare
import Mathlib.Tactic.Ring

/-! The values of floating-point numbers. Comparing two rounded numbers compares their values, and the
value of a number that is held can be read off its encoding. -/

namespace LpPresolve.Binary

open Float.Model (Format UnpackedFloat)
open Float.Model.UnpackedFloat

variable {F : Format}

/-- The signs of zeros are lost. -/
def value : UnpackedFloat → Extended
  | .notANumber => .undefined
  | .infinity .positive => .top
  | .infinity .negative => .bottom
  | .zero _ => .finite 0
  | .finite s m e _ => .finite (s.apply m * 2 ^ e)

/-! ### Order -/

namespace Canonical

variable {m m' : Nat} {e e' : Int}

theorem mul_two_zpow_lt (h : Canonical F m e) (h' : Canonical F m' e') (he : e < e') :
    (m : Rat) * 2 ^ e < m' * 2 ^ e' := by
  have hm' := h'.normal (h.minExponent_le.trans_lt he)
  have hle : m + 1 ≤ 2 * m' := by
    have := h.mantissa_lt
    rw [two_pow_mantissaBits] at this
    omega
  calc (m : Rat) * 2 ^ e < (2 * m' : Nat) * 2 ^ e := by
        have := two_zpow_pos e
        gcongr
        omega
    _ = m' * 2 ^ (e + 1) := by
        rw [two_zpow_add]
        push_cast
        ring
    _ ≤ m' * 2 ^ e' := mul_le_mul_of_nonneg_left (two_zpow_le.2 he) (Nat.cast_nonneg _)

theorem compare_eq (h : Canonical F m e) (h' : Canonical F m' e') :
    (compare e e').then (compare m m') = compare ((m : Rat) * 2 ^ e) (m' * 2 ^ e') := by
  rcases lt_trichotomy e e' with he | rfl | he
  · rw [compare_lt_iff_lt.2 he, compare_lt_iff_lt.2 (h.mul_two_zpow_lt h' he)]
    rfl
  · have hpos := two_zpow_pos e
    rw [compare_eq_iff_eq.2 rfl, Ordering.eq_then]
    rcases lt_trichotomy m m' with hm | rfl | hm
    · rw [compare_lt_iff_lt.2 hm, compare_lt_iff_lt.2 (by gcongr)]
    · rw [compare_eq_iff_eq.2 rfl, compare_eq_iff_eq.2 rfl]
    · rw [compare_gt_iff_gt.2 hm, compare_gt_iff_gt.2 (by gcongr)]
  · rw [compare_gt_iff_gt.2 he, compare_gt_iff_gt.2 (h'.mul_two_zpow_lt h he)]
    rfl

end Canonical

theorem mantissa_mul_pos {m : Nat} (hm : 0 < m) (e : Int) : (0 : Rat) < m * 2 ^ e :=
  mul_pos (Nat.cast_pos.2 hm) (two_zpow_pos e)

theorem value_finite (s : Sign) (m : Nat) (e : Int) (hm : 0 < m) :
    value (.finite s m e hm) = .finite (s.apply m * 2 ^ e) := rfl

theorem value_finite_positive (m : Nat) (e : Int) (hm : 0 < m) :
    value (.finite .positive m e hm) = .finite (m * 2 ^ e) := rfl

theorem value_finite_negative (m : Nat) (e : Int) (hm : 0 < m) :
    value (.finite .negative m e hm) = .finite (-(m * 2 ^ e)) :=
  congrArg Extended.finite (neg_mul (m : Rat) (2 ^ e))

theorem value_zero (s : Sign) : value (.zero s) = .finite 0 := rfl

/-- How two extended rationals compare, if both are defined. -/
def order (a b : Extended) : Option Ordering :=
  if a < b then some .lt else if b < a then some .gt else if a == b then some .eq else none

theorem order_finite (p q : Rat) : order (.finite p) (.finite q) = some (compare p q) := by
  simp only [order, Extended.finite_lt_finite, Extended.finite_beq_finite, decide_eq_true_eq]
  rcases lt_trichotomy p q with h | rfl | h
  · rw [if_pos h, compare_lt_iff_lt.2 h]
  · simp
  · rw [if_neg h.not_gt, if_pos h, compare_gt_iff_gt.2 h]

theorem compare_neg_neg (p q : Rat) : compare (-p) (-q) = (compare p q).swap := by
  rcases lt_trichotomy p q with h | rfl | h
  · rw [compare_lt_iff_lt.2 h, compare_gt_iff_gt.2 (neg_lt_neg h)]
    rfl
  · rw [compare_eq_iff_eq.2 rfl, compare_eq_iff_eq.2 rfl]
    rfl
  · rw [compare_gt_iff_gt.2 h, compare_lt_iff_lt.2 (neg_lt_neg h)]
    rfl

theorem order_eq_lt_iff (a b : Extended) : order a b = some .lt ↔ a < b := by
  simp only [order]
  split_ifs <;> simp_all

theorem order_eq_eq_iff (a b : Extended) : order a b = some .eq ↔ (a == b) = true := by
  refine ⟨fun h => ?_, fun h => ?_⟩
  · simp only [order] at h
    split_ifs at h <;> simp_all
  · obtain ⟨-, rfl⟩ := Extended.beq_iff.1 h
    rw [order, if_neg (Extended.lt_irrefl a), if_neg (Extended.lt_irrefl a), if_pos h]

theorem compare_finite_positive (m m' : Nat) (e e' : Int) (hm : 0 < m) (hm' : 0 < m') :
    UnpackedFloat.compare (.finite .positive m e hm) (.finite .positive m' e' hm') =
      some ((compare e e').then (compare m m')) := rfl

theorem compare_finite_negative (m m' : Nat) (e e' : Int) (hm : 0 < m) (hm' : 0 < m') :
    UnpackedFloat.compare (.finite .negative m e hm) (.finite .negative m' e' hm') =
      some ((compare e e').then (compare m m')).swap := rfl

theorem compare_eq_order {u v : UnpackedFloat} (hu : Rounded F u) (hv : Rounded F v) :
    UnpackedFloat.compare u v = order (value u) (value v) := by
  cases u with
  | notANumber => cases v with
    | infinity s => cases s <;> rfl
    | notANumber | zero | finite => rfl
  | infinity s => cases v with
    | infinity s' => cases s <;> cases s' <;> rfl
    | notANumber | zero | finite => cases s <;> rfl
  | zero s =>
    cases v with
    | notANumber | zero => rfl
    | infinity s' => cases s' <;> rfl
    | finite s' m' e' hm' =>
      have hpos' := mantissa_mul_pos hm' e'
      cases s'
      · rw [value_finite_negative, value_zero, order_finite, compare_gt_iff_gt.2 (neg_neg_of_pos hpos')]
        rfl
      · rw [value_finite_positive, value_zero, order_finite, compare_lt_iff_lt.2 hpos']
        rfl
  | finite s m e hm =>
    have hpos := mantissa_mul_pos hm e
    cases v with
    | notANumber => cases s <;> rfl
    | infinity s' => cases s <;> cases s' <;> rfl
    | zero s' =>
      cases s
      · rw [value_finite_negative, value_zero, order_finite, compare_lt_iff_lt.2 (neg_neg_of_pos hpos)]
        rfl
      · rw [value_finite_positive, value_zero, order_finite, compare_gt_iff_gt.2 hpos]
        rfl
    | finite s' m' e' hm' =>
      have hpos' := mantissa_mul_pos hm' e'
      have hcompare := Canonical.compare_eq hu hv
      cases s <;> cases s'
      · rw [value_finite_negative, value_finite_negative, order_finite, compare_finite_negative,
          hcompare, compare_neg_neg]
      · rw [value_finite_negative, value_finite_positive, order_finite,
          compare_lt_iff_lt.2 ((neg_neg_of_pos hpos).trans hpos')]
        rfl
      · rw [value_finite_positive, value_finite_negative, order_finite,
          compare_gt_iff_gt.2 ((neg_neg_of_pos hpos').trans hpos)]
        rfl
      · rw [value_finite_positive, value_finite_positive, order_finite, compare_finite_positive,
          hcompare]

theorem lt_eq_true_iff {u v : UnpackedFloat} (hu : Rounded F u) (hv : Rounded F v) :
    u.lt v = true ↔ value u < value v := by
  rw [UnpackedFloat.lt, compare_eq_order hu hv, beq_iff_eq, order_eq_lt_iff]

theorem beq_eq {u v : UnpackedFloat} (hu : Rounded F u) (hv : Rounded F v) :
    u.beq v = (value u == value v) := by
  change (u.compare v == some .eq) = _
  rw [compare_eq_order hu hv, Bool.eq_iff_iff, beq_iff_eq, order_eq_eq_iff]

theorem abs_finite (s : Sign) (m : Nat) (e : Int) (hm : 0 < m) :
    (UnpackedFloat.finite s m e hm).abs = .finite .positive m e hm := rfl

theorem value_abs (u : UnpackedFloat) : value u.abs = Scalar.magnitude (value u) := by
  cases u with
  | notANumber | zero => rfl
  | infinity s => cases s <;> rfl
  | finite s m e hm =>
    have hpos := mantissa_mul_pos hm e
    rw [abs_finite, value_finite_positive]
    cases s
    · rw [value_finite_negative, Extended.magnitude_finite, abs_neg, abs_of_pos hpos]
    · rw [value_finite_positive, Extended.magnitude_finite, abs_of_pos hpos]

/-! ### Encodings -/

theorem mkRat_shiftLeft (n : Nat) (e : Int) :
    mkRat (n <<< e.toNat : Nat) (2 ^ (-e).toNat) = n * 2 ^ e := by
  have he : (2 : Rat) ^ e = 2 ^ e.toNat / 2 ^ (-e).toNat := by
    rw [← zpow_natCast, ← zpow_natCast, ← zpow_sub₀ (by norm_num)]
    congr 1
    omega
  rw [Rat.mkRat_eq_div, Nat.shiftLeft_eq, he]
  push_cast
  rw [mul_div_assoc]

/-- The interchange format with the same fields. -/
def encoding (F : Format) : BinaryFormat := ⟨F.exponentBits, F.mantissaBitsWithoutImplicit⟩

theorem minExponent_encoding (F : Format) : (encoding F).minExponent = F.minExponent := by
  rw [BinaryFormat.minExponent, Format.minExponent, mantissaBits_eq, encoding,
    Nat.one_shiftLeft]
  push_cast
  omega

theorem toNat_unpackMantissa (b : BitVec F.numBits) :
    (unpackMantissa b).toNat = b.toNat % 2 ^ F.mantissaBitsWithoutImplicit := by
  have := F.hm
  simp only [unpackMantissa, BitVec.toNat_cast, BitVec.extractLsb_toNat, Nat.shiftRight_zero]
  congr 2
  omega

theorem toNat_unpackExponent (b : BitVec F.numBits) : (unpackExponent b).toNat =
    b.toNat / 2 ^ F.mantissaBitsWithoutImplicit % 2 ^ F.exponentBits := by
  have := F.he
  simp only [unpackExponent, BitVec.toNat_cast, BitVec.extractLsb_toNat, Nat.shiftRight_eq_div_pow]
  congr 2
  omega

theorem ofBitVec_unpackSign (b : BitVec F.numBits) : Sign.ofBitVec (unpackSign b) =
    if b.toNat < 2 ^ F.mantissaBitsWithoutImplicit * 2 ^ F.exponentBits then .positive
    else .negative := by
  have hlt : b.toNat < 2 ^ (F.mantissaBitsWithoutImplicit + F.exponentBits) * 2 :=
    b.isLt.trans_eq (by rw [← pow_succ, Format.numBits]; congr 1; omega)
  have hsign : (unpackSign b).toNat =
      b.toNat / (2 ^ F.mantissaBitsWithoutImplicit * 2 ^ F.exponentBits) := by
    rw [unpackSign_eq, BitVec.toNat_cast, BitVec.extractLsb_toNat, Nat.shiftRight_eq_div_pow,
      Nat.sub_self, zero_add, pow_one, ← pow_add]
    exact Nat.mod_eq_of_lt (Nat.div_lt_of_lt_mul hlt)
  have hzero : unpackSign b = 0#1 ↔
      b.toNat < 2 ^ F.mantissaBitsWithoutImplicit * 2 ^ F.exponentBits := by
    rw [← BitVec.toNat_inj, hsign, BitVec.toNat_zero, Nat.div_eq_zero_iff_lt (by positivity)]
  rw [Sign.ofBitVec, if_congr hzero rfl rfl]

theorem toRat?_value_finite (s : Sign) (m : Nat) (e : Int) (hm : 0 < m) :
    Scalar.toRat? (value (.finite s m e hm)) =
      some (if s == .positive then (m * 2 ^ e : Rat) else -(m * 2 ^ e)) := by
  cases s
  · rw [value_finite_negative]
    rfl
  · rw [value_finite_positive]
    rfl

theorem decode?_eq (b : BitVec F.numBits) :
    (encoding F).decode? b.toNat = Scalar.toRat? (value (unpack F b)) := by
  have hmant := toNat_unpackMantissa b
  have hexp := toNat_unpackExponent b
  have hpos : (Sign.ofBitVec (unpackSign b) == .positive) = true ↔
      b.toNat < 2 ^ F.mantissaBitsWithoutImplicit * 2 ^ F.exponentBits := by
    rw [ofBitVec_unpackSign]
    split_ifs with h
    · exact iff_of_true rfl h
    · exact iff_of_false Bool.false_ne_true h
  have hlt := (unpackExponent b).isLt
  have hcap := two_pow_exponentBits F
  have hmin := minExponent_eq F
  rw [BinaryFormat.decode?, minExponent_encoding]
  simp only [encoding, Nat.one_shiftLeft, ← hmant, ← hexp]
  have hones : (unpackExponent b).toNat = 2 ^ F.exponentBits - 1 ↔ unpackExponent b = -1#_ := by
    rw [← BitVec.toNat_inj, toNat_neg_one]
  have hzero : (unpackExponent b).toNat = 0 ↔ unpackExponent b = 0#_ := by
    rw [← BitVec.toNat_inj, BitVec.toNat_zero]
  simp only [hones, mkRat_shiftLeft]
  rw [unpack_eq]
  by_cases h₁ : unpackExponent b = -1#_
  · rw [if_pos h₁, if_pos h₁]
    split_ifs
    · cases Sign.ofBitVec (unpackSign b) <;> rfl
    · rfl
  rw [if_neg h₁, if_neg h₁]
  by_cases h₀ : unpackExponent b = 0#_
  · have hE := hzero.2 h₀
    rw [if_pos h₀, if_pos hE]
    by_cases hm : unpackMantissa b = 0#_
    · rw [dif_pos hm, hm, BitVec.toNat_zero, Nat.cast_zero, zero_mul, neg_zero, ite_self]
      rfl
    · have hplace : F.minExponent + ((unpackExponent b).toNat - 1 : Nat) =
          (unpackExponent b).toNat - (F.exponentBias + F.mantissaBitsWithoutImplicit) + 1 := by omega
      rw [dif_neg hm, toRat?_value_finite, hplace, if_congr hpos rfl rfl]
  · have hE := mt hzero.1 h₀
    have hplace : F.minExponent + ((unpackExponent b).toNat - 1 : Nat) =
        (unpackExponent b).toNat - (F.exponentBias + F.mantissaBitsWithoutImplicit) := by omega
    rw [if_neg h₀, if_neg hE, toRat?_value_finite, toNat_append_one, hplace, if_congr hpos rfl rfl]

end LpPresolve.Binary
