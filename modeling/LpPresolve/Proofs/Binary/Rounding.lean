import LpPresolve.Proofs.Binary.Values
import Mathlib.Tactic.Linarith

/-! Rounding. A positive number is rounded to a multiple of its place in the format, with an error of
less than that place: a multiple of the place is kept. -/

namespace LpPresolve.Binary

open Float.Model (Format UnpackedFloat totalExponent)
open Float.Model.UnpackedFloat

variable {F : Format}

/-! ### Shifts -/

theorem shiftRight_succ (x : ExtendedMantissa) (n : Nat) : x >>> (n + 1) = (x >>> n).shiftRightOne :=
  rfl

theorem mantissa_shiftRight (x : ExtendedMantissa) (n : Nat) :
    (x >>> n).mantissa = x.mantissa / 2 ^ n := by
  induction n with
  | zero => exact (Nat.div_one _).symm
  | succ n ih =>
    rw [shiftRight_succ, ExtendedMantissa.shiftRightOne, ih, Nat.div_div_eq_div_mul, ← pow_succ]

/-- No digits are lost. -/
theorem shiftRight_of_dvd {m n : Nat} (h : 2 ^ n ∣ m) :
    (⟨m, false, false⟩ : ExtendedMantissa) >>> n = ⟨m / 2 ^ n, false, false⟩ := by
  induction n with
  | zero => exact congrArg (ExtendedMantissa.mk · false false) (Nat.div_one m).symm
  | succ n ih =>
    have hn : 2 ^ n ∣ m := (pow_dvd_pow 2 n.le_succ).trans h
    have heven : m / 2 ^ n % 2 = 0 := by
      obtain ⟨k, rfl⟩ := h
      rw [pow_succ, mul_assoc, Nat.mul_div_cancel_left _ (Nat.two_pow_pos n), Nat.mul_mod_right]
    rw [shiftRight_succ, ih hn]
    simp [ExtendedMantissa.shiftRightOne, heven, Nat.div_div_eq_div_mul, ← pow_succ]

theorem roundedMantissa_eq_or (x : ExtendedMantissa) :
    x.roundedMantissa = x.mantissa ∨ x.roundedMantissa = x.mantissa + 1 := by
  obtain ⟨m, r, t⟩ := x
  have := Nat.mod_two_eq_zero_or_one m
  cases r <;> cases t <;>
    simp [ExtendedMantissa.roundedMantissa, ExtendedMantissa.accuracy, Accuracy.roundToNearestEven]
  omega

theorem natCast_div_two_pow_le (m n : Nat) : ((m / 2 ^ n : Nat) : Rat) * 2 ^ n ≤ m := by
  exact_mod_cast Nat.div_mul_le_self m (2 ^ n)

theorem lt_natCast_div_two_pow (m n : Nat) : (m : Rat) < ((m / 2 ^ n : Nat) + 1) * 2 ^ n := by
  exact_mod_cast Nat.lt_mul_of_div_lt (Nat.lt_succ_self _) (Nat.two_pow_pos n)

/-- The digits that are lost count for less than one in the last place. -/
theorem abs_roundedMantissa_shiftRight_sub_lt (m n : Nat) :
    |(((⟨m, false, false⟩ : ExtendedMantissa) >>> n).roundedMantissa : Rat) * 2 ^ n - m| < 2 ^ n := by
  have hpos : (0 : Rat) < 2 ^ n := by positivity
  by_cases h : 2 ^ n ∣ m
  · rw [shiftRight_of_dvd h]
    have hexact : (⟨m / 2 ^ n, false, false⟩ : ExtendedMantissa).roundedMantissa = m / 2 ^ n := rfl
    have hmul : ((m / 2 ^ n : Nat) : Rat) * 2 ^ n = m := by exact_mod_cast Nat.div_mul_cancel h
    rw [hexact, hmul, sub_self, abs_zero]
    exact hpos
  · have hlt : ((m / 2 ^ n : Nat) : Rat) * 2 ^ n < m := by
      have hle := natCast_div_two_pow_le m n
      refine hle.lt_of_ne fun heq => h ⟨m / 2 ^ n, ?_⟩
      rw [mul_comm]
      exact_mod_cast heq.symm
    have hlt' := lt_natCast_div_two_pow m n
    rw [abs_lt]
    rcases roundedMantissa_eq_or ((⟨m, false, false⟩ : ExtendedMantissa) >>> n) with hr | hr <;>
      rw [hr, mantissa_shiftRight]
    · constructor <;> linarith
    · push_cast
      constructor <;> linarith

/-! ### Rounding -/

theorem totalExponent_eq {m : Nat} (hm : 0 < m) (e : Int) :
    totalExponent m e = binaryExponentOfRat (m * 2 ^ e) := by
  have hpos := mantissa_mul_pos hm e
  have he := two_zpow_pos e
  refine (binaryExponentOfRat_eq hpos.ne' _ ?_ ?_).symm
  · have hlow : (2 : Rat) ^ m.log2 ≤ m := by exact_mod_cast Nat.log2_self_le hm.ne'
    rw [abs_of_pos hpos, totalExponent, show (m.log2 : Int) + 1 + e - 1 = m.log2 + e by omega,
      two_zpow_add, zpow_natCast]
    gcongr
  · have hhigh : (m : Rat) < 2 ^ (m.log2 + 1) := by exact_mod_cast Nat.lt_log2_self
    rw [abs_of_pos hpos, totalExponent, two_zpow_add, ← Nat.cast_succ, zpow_natCast]
    gcongr

theorem binaryExponentOfRat_apply (s : Sign) (m : Nat) (e : Int) :
    binaryExponentOfRat (s.apply m * 2 ^ e) = binaryExponentOfRat (m * 2 ^ e) := by
  cases s
  · simp [Sign.apply, binaryExponentOfRat_neg]
  · rfl

/-- The exponents of the numbers that a format has. -/
theorem Held.exponent_bounds {u : UnpackedFloat} (hu : Held F u) {q : Rat} (hq : q ≠ 0)
    (h : value u = .finite q) :
    F.minExponent < binaryExponentOfRat q ∧ binaryExponentOfRat q ≤ F.exponentBias + 1 := by
  cases u with
  | notANumber => exact Extended.noConfusion h
  | infinity s => cases s <;> exact Extended.noConfusion h
  | zero s => exact absurd (Extended.finite.inj h).symm hq
  | finite s m e hm =>
    obtain rfl := Extended.finite.inj h
    obtain ⟨⟨hlt, hmin, -⟩, hmax⟩ := hu
    have hlog := (Nat.log2_lt hm.ne').2 hlt
    rw [greatestExponent] at hmax
    rw [mantissaBits_eq] at hlog
    rw [binaryExponentOfRat_apply, ← totalExponent_eq hm, totalExponent]
    omega

/-- The exponent of the last digit of a rational in the format. -/
def place (F : Format) (q : Rat) : Int := F.targetExponent (binaryExponentOfRat q)

theorem place_eq (F : Format) (q : Rat) :
    place F q = max (binaryExponentOfRat q - F.mantissaBits) F.minExponent := rfl

/-- A rounded mantissa may have one digit too many. -/
theorem shiftToTargetExponent_eq {m : Nat} (hm : 0 < m) (e : Int) :
    shiftToTargetExponent F m e .exact =
      ((⟨m, false, false⟩ : ExtendedMantissa) >>> (place F (m * 2 ^ e) - e).toNat,
        e + (place F (m * 2 ^ e) - e).toNat) := by
  rw [place, ← totalExponent_eq hm e]
  rfl

/-- The number that is left when the digits of a mantissa beyond those of the format are cut off. -/
def cut (F : Format) (s : Sign) (m : Nat) (e : Int) : UnpackedFloat :=
  let x := shiftToTargetExponent F m e .exact
  if h : x.1.mantissa = 0 then .zero s else .finite s x.1.mantissa x.2 (Nat.pos_of_ne_zero h)

theorem roundWithAccuracy_eq (s : Sign) (m : Nat) (e : Int) :
    roundWithAccuracy F s m e .exact = cut F s (shiftToTargetExponent F m e .exact).1.roundedMantissa
      (shiftToTargetExponent F m e .exact).2 := rfl

/-- A rounded mantissa has one digit too many at most. -/
theorem cut_spec (s : Sign) {r : Nat} {e : Int} (hr : r ≤ 2 ^ F.mantissaBits)
    (he : F.minExponent ≤ e)
    (hnormal : F.minExponent < e → 2 ^ F.mantissaBitsWithoutImplicit ≤ r) :
    Rounded F (cut F s r e) ∧ value (cut F s r e) = .finite (s.apply r * 2 ^ e) := by
  have hcut : ∀ (m : Nat) (e' : Int) (hm : 0 < m), (shiftToTargetExponent F r e .exact).1.mantissa = m →
      (shiftToTargetExponent F r e .exact).2 = e' → cut F s r e = .finite s m e' hm := by
    rintro m e' hm rfl rfl
    exact dif_neg hm.ne'
  rcases Nat.eq_zero_or_pos r with rfl | hpos
  · have hzero : cut F s 0 e = .zero s := by
      refine dif_pos ?_
      simp only [shiftToTargetExponent, shiftToExponent, mantissa_shiftRight]
      exact Nat.zero_div _
    rw [hzero, value_zero]
    refine ⟨trivial, ?_⟩
    cases s <;> simp [Sign.apply]
  rw [shiftToTargetExponent_eq hpos, place_eq, ← totalExponent_eq hpos, totalExponent] at hcut
  rcases hr.lt_or_eq with hlt | rfl
  · have hlog := (Nat.log2_lt hpos.ne').2 hlt
    rw [hcut r e hpos]
    · refine ⟨⟨hlt, he, hnormal⟩, rfl⟩
    · rw [mantissa_shiftRight, Int.toNat_of_nonpos (by omega), pow_zero, Nat.div_one]
    · omega
  · rw [hcut (2 ^ F.mantissaBitsWithoutImplicit) (e + 1) (Nat.two_pow_pos _)]
    · refine ⟨⟨?_, by omega, fun _ => le_rfl⟩, ?_⟩
      · rw [two_pow_mantissaBits]
        have := Nat.two_pow_pos F.mantissaBitsWithoutImplicit
        omega
      · rw [value_finite, two_zpow_add, two_pow_mantissaBits]
        cases s <;> simp only [Sign.apply] <;> push_cast <;> ring_nf
    · rw [mantissa_shiftRight, Nat.log2_two_pow, show (max _ _ - e).toNat = 1 by omega,
        two_pow_mantissaBits, pow_one, Nat.mul_div_cancel_left _ two_pos]
    · rw [Nat.log2_two_pow]
      omega

theorem exists_roundWithAccuracy (s : Sign) {m : Nat} {e : Int} (hm : 0 < m)
    (he : e ≤ place F (m * 2 ^ e)) :
    ∃ r : Nat, |(r : Rat) * 2 ^ place F (m * 2 ^ e) - m * 2 ^ e| < 2 ^ place F (m * 2 ^ e) ∧
      Rounded F (roundWithAccuracy F s m e .exact) ∧
      value (roundWithAccuracy F s m e .exact) =
        .finite (s.apply r * 2 ^ place F (m * 2 ^ e)) := by
  have hq := mantissa_mul_pos hm e
  have he' := two_zpow_pos e
  obtain ⟨hlow, hhigh⟩ := binaryExponentOfRat_spec hq.ne'
  rw [abs_of_pos hq] at hlow hhigh
  obtain ⟨n, hn⟩ : ∃ n : Nat, place F (m * 2 ^ e) = e + n :=
    ⟨(place F (m * 2 ^ e) - e).toNat, by omega⟩
  rw [roundWithAccuracy_eq, shiftToTargetExponent_eq hm, hn, add_sub_cancel_left, Int.toNat_natCast]
  set r := (ExtendedMantissa.mk m false false >>> n).roundedMantissa
  have hor : r = m / 2 ^ n ∨ r = m / 2 ^ n + 1 := by
    have h := roundedMantissa_eq_or (ExtendedMantissa.mk m false false >>> n)
    rwa [mantissa_shiftRight] at h
  have hpl := place_eq F (m * 2 ^ e)
  refine ⟨r, ?_, cut_spec s ?_ (hn ▸ hpl ▸ le_max_right _ _) fun hmin => ?_⟩
  · have herr := abs_roundedMantissa_shiftRight_sub_lt m n
    rw [two_zpow_add, mul_comm (2 ^ e), ← mul_assoc, ← sub_mul, abs_mul, abs_of_pos he', zpow_natCast]
    gcongr
  · have hlt : (m : Rat) < (2 ^ (F.mantissaBits + n) : Nat) := by
      refine lt_of_mul_lt_mul_right (hhigh.trans_le ?_) he'.le
      rw [natCast_two_pow_mul, two_zpow_le]
      omega
    rw [Nat.cast_lt, pow_add] at hlt
    have := (Nat.div_lt_iff_lt_mul (Nat.two_pow_pos n)).2 hlt
    omega
  · have hle : ((2 ^ (F.mantissaBitsWithoutImplicit + n) : Nat) : Rat) ≤ m := by
      refine le_of_mul_le_mul_right (le_trans ?_ hlow) he'
      rw [natCast_two_pow_mul, two_zpow_le]
      rw [mantissaBits_eq] at hpl
      omega
    rw [Nat.cast_le, pow_add] at hle
    have := (Nat.le_div_iff_mul_le (Nat.two_pow_pos n)).2 hle
    omega

end LpPresolve.Binary
