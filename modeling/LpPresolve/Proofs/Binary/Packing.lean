import LpPresolve.Proofs.Exact.Arithmetic
import LpPresolve.Proofs.Exact.Exponents
import LpPresolve.Scalar.Binary

/-! Binary interchange formats. An encoding is unpacked into sign, mantissa and exponent. The pair of
mantissa and exponent is canonical: it is normal, or has the least exponent. Packing such a number and
unpacking it gives it back, or an infinity if its exponent is too large. -/

namespace LpPresolve.Binary

open Float.Model (Format UnpackedFloat)
open Float.Model.UnpackedFloat

variable {F : Format}

/-! ### Parameters of a format -/

/-- The exponent of the last place of the largest numbers. -/
def greatestExponent (F : Format) : Int := F.exponentBias - F.mantissaBitsWithoutImplicit

theorem mantissaBits_eq (F : Format) : F.mantissaBits = 1 + F.mantissaBitsWithoutImplicit := rfl

theorem minExponent_eq (F : Format) :
    F.minExponent = 1 - F.exponentBias - F.mantissaBitsWithoutImplicit := by
  have : 1 ≤ 2 ^ (F.exponentBits - 1) := Nat.one_le_two_pow
  rw [Format.minExponent, Format.exponentBias, mantissaBits_eq, Nat.cast_sub this]
  push_cast
  omega

theorem two_pow_exponentBits (F : Format) : 2 ^ F.exponentBits = 2 * F.exponentBias + 2 := by
  have : 1 ≤ 2 ^ (F.exponentBits - 1) := Nat.one_le_two_pow
  rw [Format.exponentBias, ← Nat.succ_pred_eq_of_pos F.he, pow_succ]
  simp only [Nat.pred_eq_sub_one, Nat.succ_eq_add_one, Nat.add_sub_cancel]
  omega

theorem two_pow_mantissaBits (F : Format) :
    2 ^ F.mantissaBits = 2 * 2 ^ F.mantissaBitsWithoutImplicit := by
  rw [mantissaBits_eq, pow_add, pow_one]

/-! ### Canonical numbers -/

/-- Mantissa and exponent of a number that is rounded to the format: normal, or with the least
exponent. -/
structure Canonical (F : Format) (m : Nat) (e : Int) : Prop where
  mantissa_lt : m < 2 ^ F.mantissaBits
  minExponent_le : F.minExponent ≤ e
  normal : F.minExponent < e → 2 ^ F.mantissaBitsWithoutImplicit ≤ m

/-- What is held for a rounded number: an infinity if its exponent is too large. -/
def saturate (F : Format) : UnpackedFloat → UnpackedFloat
  | .finite s m e h => if e ≤ greatestExponent F then .finite s m e h else .infinity s
  | u => u

def Rounded (F : Format) : UnpackedFloat → Prop
  | .finite _ m e _ => Canonical F m e
  | _ => True

/-- The numbers that the format has. -/
def Held (F : Format) : UnpackedFloat → Prop
  | .finite _ m e _ => Canonical F m e ∧ e ≤ greatestExponent F
  | _ => True

theorem held_finite {s : Sign} {m : Nat} {e : Int} {hm : 0 < m} :
    Held F (.finite s m e hm) ↔ Canonical F m e ∧ e ≤ greatestExponent F := .rfl

theorem Held.rounded {u : UnpackedFloat} (hu : Held F u) : Rounded F u := by
  cases u with
  | finite => exact hu.1
  | infinity | notANumber | zero => trivial

theorem saturate_finite (s : Sign) {m : Nat} (e : Int) (hm : 0 < m) : saturate F (.finite s m e hm) =
    if e ≤ greatestExponent F then .finite s m e hm else .infinity s := rfl

theorem Held.saturate_eq {u : UnpackedFloat} (hu : Held F u) : saturate F u = u := by
  cases u with
  | finite => exact if_pos hu.2
  | infinity | notANumber | zero => rfl

theorem Held.abs {u : UnpackedFloat} (hu : Held F u) : Held F u.abs := by
  cases u with
  | finite => exact hu
  | infinity | notANumber | zero => trivial

/-! ### Unpacking -/

theorem unpackSign_eq (b : BitVec F.numBits) : unpackSign b =
    (b.extractLsb (F.mantissaBitsWithoutImplicit + F.exponentBits)
      (F.mantissaBitsWithoutImplicit + F.exponentBits)).cast (by omega) := rfl

theorem finite_congr {s s' : Sign} {m m' : Nat} {e e' : Int} {hm : 0 < m} {hm' : 0 < m'}
    (hs : s = s') (h : m = m') (he : e = e') :
    UnpackedFloat.finite s m e hm = .finite s' m' e' hm' := by
  subst hs h he
  rfl

theorem toNat_append_one {n : Nat} (m : BitVec n) : (1#1 ++ m).toNat = 2 ^ n + m.toNat := by
  rw [BitVec.toNat_append, ← Nat.shiftLeft_add_eq_or_of_lt m.isLt]
  simp [Nat.shiftLeft_eq]

theorem toNat_append_one_pos {n : Nat} (m : BitVec n) : 0 < (1#1 ++ m).toNat := by
  rw [toNat_append_one]
  exact Nat.add_pos_left (Nat.two_pow_pos n) _

theorem toNat_neg_one (n : Nat) : (-1#n).toNat = 2 ^ n - 1 := by
  rw [BitVec.neg_one_eq_allOnes, BitVec.toNat_allOnes]

/-- The number of an encoding, by the fields of exponent and mantissa. -/
theorem unpack_eq (b : BitVec F.numBits) : unpack F b =
    if unpackExponent b = -1#_ then
      if unpackMantissa b = 0#_ then .infinity (Sign.ofBitVec (unpackSign b)) else .notANumber
    else if unpackExponent b = 0#_ then
      if h : unpackMantissa b = 0#_ then .zero (Sign.ofBitVec (unpackSign b))
      else .finite (Sign.ofBitVec (unpackSign b)) (unpackMantissa b).toNat
        ((unpackExponent b).toNat - (F.exponentBias + F.mantissaBitsWithoutImplicit) + 1)
        ((BitVec.toNat_pos _).2 ((BitVec.pos_iff_ne_zero _).2 h))
    else .finite (Sign.ofBitVec (unpackSign b)) (1#1 ++ unpackMantissa b).toNat
      ((unpackExponent b).toNat - (F.exponentBias + F.mantissaBitsWithoutImplicit))
      (toNat_append_one_pos (unpackMantissa b)) := rfl

theorem held_unpack (hF : 0 < F.exponentBias) (b : BitVec F.numBits) : Held F (unpack F b) := by
  have hmant := (unpackMantissa b).isLt
  have hexp := (unpackExponent b).isLt
  have hp := two_pow_mantissaBits F
  have hq := two_pow_exponentBits F
  have hmin := minExponent_eq F
  have hone := toNat_neg_one F.exponentBits
  rw [unpack_eq]
  by_cases h₁ : unpackExponent b = -1#_
  · rw [if_pos h₁]
    split <;> trivial
  rw [if_neg h₁]
  by_cases h₀ : unpackExponent b = 0#_
  · rw [if_pos h₀]
    by_cases hm : unpackMantissa b = 0#_
    · rw [dif_pos hm]
      trivial
    · have he : (unpackExponent b).toNat = 0 := by rw [h₀, BitVec.toNat_zero]
      rw [dif_neg hm, held_finite, greatestExponent, he]
      exact ⟨⟨by omega, by omega, fun h => by omega⟩, by omega⟩
  · have he : (unpackExponent b).toNat ≠ 0 := fun h => h₀ (BitVec.eq_of_toNat_eq (by simpa using h))
    have he' : (unpackExponent b).toNat ≠ 2 ^ F.exponentBits - 1 := fun h =>
      h₁ (BitVec.eq_of_toNat_eq (by rw [hone, h]))
    rw [if_neg h₀, held_finite, greatestExponent]
    refine ⟨⟨?_, ?_, fun _ => ?_⟩, ?_⟩
    · rw [toNat_append_one]
      omega
    · omega
    · rw [toNat_append_one]
      omega
    · omega

/-! ### Packing -/

theorem unpackSign_packComponents (s : Sign) (e : BitVec F.exponentBits)
    (m : BitVec F.mantissaBitsWithoutImplicit) :
    unpackSign (packComponents F s e m) = s.toBitVec := by
  have happend : packComponents F s e m = (s.toBitVec ++ e) ++ m := rfl
  rw [unpackSign_eq]
  ext i hi
  obtain rfl : i = 0 := Nat.lt_one_iff.1 hi
  simp [happend, BitVec.getLsbD_append, BitVec.getElem_append]

theorem ofBitVec_toBitVec (s : Sign) : Sign.ofBitVec s.toBitVec = s := by cases s <;> rfl

theorem zero_ne_neg_one (F : Format) : (0#F.exponentBits) ≠ -1#_ := fun h => by
  have h := congrArg BitVec.toNat h
  rw [toNat_neg_one, BitVec.toNat_zero] at h
  have := two_pow_exponentBits F
  omega

theorem toNat_ofNat_of_lt {n k : Nat} (h : k < 2 ^ n) : (BitVec.ofNat n k).toNat = k := by
  rw [BitVec.toNat_ofNat, Nat.mod_eq_of_lt h]

theorem unpack_normal (s : Sign) {m b : Nat} (hb : 0 < b) (hb' : b + 1 < 2 ^ F.exponentBits)
    (hm : 2 ^ F.mantissaBitsWithoutImplicit ≤ m) (hm' : m < 2 ^ F.mantissaBits) :
    unpack F (packComponents F s (BitVec.ofNat _ b) (BitVec.ofNat _ m)) =
      .finite s m (b - (F.exponentBias + F.mantissaBitsWithoutImplicit))
        ((Nat.two_pow_pos _).trans_le hm) := by
  have hp := two_pow_mantissaBits F
  have hexp := toNat_ofNat_of_lt (show b < 2 ^ F.exponentBits by omega)
  have hzero : BitVec.ofNat F.exponentBits b ≠ 0#_ := fun h => by
    rw [h, BitVec.toNat_zero] at hexp
    omega
  have hones : BitVec.ofNat F.exponentBits b ≠ -1#_ := fun h => by
    rw [h, toNat_neg_one] at hexp
    omega
  have hmant : (1#1 ++ BitVec.ofNat F.mantissaBitsWithoutImplicit m).toNat = m := by
    rw [toNat_append_one, BitVec.toNat_ofNat, Nat.mod_eq_sub_mod hm, Nat.mod_eq_of_lt (by omega)]
    omega
  rw [unpack_eq, if_neg (unpackExponent_packComponents.trans_ne hones),
    if_neg (unpackExponent_packComponents.trans_ne hzero)]
  apply finite_congr
  · rw [unpackSign_packComponents, ofBitVec_toBitVec]
  · rw [unpackMantissa_packComponents, hmant]
  · rw [unpackExponent_packComponents, hexp]

theorem unpack_subnormal (s : Sign) {m : Nat} (hm : 0 < m)
    (hm' : m < 2 ^ F.mantissaBitsWithoutImplicit) :
    unpack F (packComponents F s 0#_ (BitVec.ofNat _ m)) = .finite s m F.minExponent hm := by
  have hmin := minExponent_eq F
  have hmant := toNat_ofNat_of_lt hm'
  have hzero : BitVec.ofNat F.mantissaBitsWithoutImplicit m ≠ 0#_ := fun h => by
    rw [h, BitVec.toNat_zero] at hmant
    omega
  rw [unpack_eq, if_neg (unpackExponent_packComponents.trans_ne (zero_ne_neg_one F)),
    if_pos unpackExponent_packComponents, dif_neg (unpackMantissa_packComponents.trans_ne hzero)]
  apply finite_congr
  · rw [unpackSign_packComponents, ofBitVec_toBitVec]
  · rw [unpackMantissa_packComponents, hmant]
  · rw [unpackExponent_packComponents, BitVec.toNat_zero]
    omega

theorem canonicalNaN_ne_zero (F : Format) :
    (1#F.mantissaBitsWithoutImplicit) <<< (F.mantissaBitsWithoutImplicit - 1) ≠ 0#_ := by
  intro h
  have h := congrArg BitVec.toNat h
  have hf := F.hm
  have hlt : 2 ^ (F.mantissaBitsWithoutImplicit - 1) < 2 ^ F.mantissaBitsWithoutImplicit :=
    Nat.pow_lt_pow_right (by norm_num) (by omega)
  have hone : 1 < 2 ^ F.mantissaBitsWithoutImplicit := Nat.one_lt_two_pow (by omega)
  rw [BitVec.toNat_shiftLeft, BitVec.toNat_zero, toNat_ofNat_of_lt hone, Nat.one_shiftLeft,
    Nat.mod_eq_of_lt hlt] at h
  exact (Nat.two_pow_pos _).ne' h

theorem unpack_packedInfinity (F : Format) (s : Sign) :
    unpack F (packedInfinity F s) = .infinity s := by
  have hpacked : packedInfinity F s = packComponents F s (-1#_) 0#_ := rfl
  rw [hpacked, unpack_eq, if_pos unpackExponent_packComponents,
    if_pos unpackMantissa_packComponents, unpackSign_packComponents, ofBitVec_toBitVec]

theorem unpack_packedZero (F : Format) (s : Sign) : unpack F (packedZero F s) = .zero s := by
  have hpacked : packedZero F s = packComponents F s 0#_ 0#_ := rfl
  rw [hpacked, unpack_eq, if_neg (unpackExponent_packComponents.trans_ne (zero_ne_neg_one F)),
    if_pos unpackExponent_packComponents, dif_pos unpackMantissa_packComponents,
    unpackSign_packComponents, ofBitVec_toBitVec]

theorem unpack_packedNaN (F : Format) : unpack F (packedNaN F) = .notANumber := by
  have hpacked : packedNaN F = packComponents F .positive (-1#_)
      (1#_ <<< (F.mantissaBitsWithoutImplicit - 1)) := rfl
  rw [hpacked, unpack_eq, if_pos unpackExponent_packComponents,
    if_neg (unpackMantissa_packComponents.trans_ne (canonicalNaN_ne_zero F))]

theorem pack_finite (s : Sign) {m : Nat} (e : Int) (hm : 0 < m) : pack F (.finite s m e hm) =
    if 2 ^ F.exponentBits ≤ (e + F.exponentBias + F.mantissaBitsWithoutImplicit).toNat + 1 then
      packedInfinity F s
    else if m.log2 + 1 = F.mantissaBits then
      packComponents F s (BitVec.ofNat _ (e + F.exponentBias + F.mantissaBitsWithoutImplicit).toNat)
        (BitVec.ofNat _ m)
    else packComponents F s 0#_ (BitVec.ofNat _ m) := rfl

theorem unpack_pack {u : UnpackedFloat} (hu : Rounded F u) : unpack F (pack F u) = saturate F u := by
  cases u with
  | notANumber => exact unpack_packedNaN F
  | infinity s => exact unpack_packedInfinity F s
  | zero s => exact unpack_packedZero F s
  | finite s m e hm =>
    obtain ⟨hlt, hmin, hnormal⟩ := hu
    have hmin' := minExponent_eq F
    have hcap := two_pow_exponentBits F
    have hbits := mantissaBits_eq F
    obtain ⟨b, hb⟩ : ∃ b : Nat, (b : Int) = e + F.exponentBias + F.mantissaBitsWithoutImplicit :=
      ⟨_, Int.toNat_of_nonneg (by omega)⟩
    rw [pack_finite, saturate_finite, greatestExponent, ← hb, Int.toNat_natCast]
    by_cases hfits : e ≤ F.exponentBias - F.mantissaBitsWithoutImplicit
    · rw [if_neg (by omega), if_pos hfits]
      by_cases hn : 2 ^ F.mantissaBitsWithoutImplicit ≤ m
      · have hlow := (Nat.le_log2 hm.ne').2 hn
        have hhigh := (Nat.log2_lt hm.ne').2 hlt
        rw [if_pos (by omega), unpack_normal s (by omega) (by omega) hn hlt]
        exact finite_congr rfl rfl (by omega)
      · have hhigh := (Nat.log2_lt hm.ne').2 (not_le.1 hn)
        obtain rfl : e = F.minExponent := le_antisymm (not_lt.1 (mt hnormal hn)) hmin
        rw [if_neg (by omega), unpack_subnormal s hm (not_le.1 hn)]
    · rw [if_pos (by omega), if_neg hfits, unpack_packedInfinity]

end LpPresolve.Binary
