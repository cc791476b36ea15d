import LpPresolve.Proofs.Binary.Rounding

/-! Products and quotients with powers of two. A product has the exponents added, as far as the format
reaches: above its range it is infinite, and below it is rounded, perhaps to zero. -/

namespace LpPresolve.Binary

open Float.Model (Format UnpackedFloat totalExponent)
open Float.Model.UnpackedFloat

variable {F : Format}

/-- The power `2 ^ k` in the format. -/
def power (F : Format) (k : Int) : UnpackedFloat :=
  .finite .positive (2 ^ F.mantissaBitsWithoutImplicit) (k - F.mantissaBitsWithoutImplicit)
    (Nat.two_pow_pos _)

theorem value_power (F : Format) (k : Int) : value (power F k) = .finite (2 ^ k) := by
  rw [power, value_finite_positive, natCast_two_pow_mul, add_sub_cancel]

/-- Powers of two that are normal numbers, or too large. -/
theorem rounded_power {k : Int} (hk : 1 - F.exponentBias ≤ k) : Rounded F (power F k) := by
  have := minExponent_eq F
  refine ⟨?_, by omega, fun _ => le_rfl⟩
  rw [two_pow_mantissaBits]
  have := Nat.two_pow_pos F.mantissaBitsWithoutImplicit
  omega

theorem saturate_power (F : Format) (k : Int) : saturate F (power F k) =
    if k ≤ F.exponentBias then power F k else .infinity .positive := by
  rw [power, saturate_finite, greatestExponent]
  exact if_congr (sub_le_sub_iff_right _) rfl rfl

/-- A rounded number is determined by its value. -/
theorem eq_power {u : UnpackedFloat} (hu : Rounded F u) {k : Int} (hk : 1 - F.exponentBias ≤ k)
    (h : value u = .finite (2 ^ k)) : u = power F k := by
  have hk0 := two_zpow_pos k
  cases u with
  | notANumber => exact Extended.noConfusion h
  | infinity s => cases s <;> exact Extended.noConfusion h
  | zero s => exact absurd (Extended.finite.inj h) hk0.ne
  | finite s m e hm =>
    have hpos := mantissa_mul_pos hm e
    cases s with
    | negative =>
      rw [value_finite_negative, Extended.finite.injEq] at h
      linarith
    | positive =>
      have hcompare := Canonical.compare_eq hu (rounded_power (F := F) hk)
      rw [← value_power F k, power, value_finite_positive, value_finite_positive,
        Extended.finite.injEq] at h
      rw [h, compare_eq_iff_eq.2 rfl, Ordering.then_eq_eq, compare_eq_iff_eq, compare_eq_iff_eq]
        at hcompare
      obtain ⟨rfl, rfl⟩ := hcompare
      rfl

/-! ### Exponents of rounded numbers -/

/-- The only multiple of `t` less than `t` away from a multiple is that multiple. -/
theorem eq_of_abs_mul_sub_lt {r j : Nat} {t : Rat} (h : |(r : Rat) * t - j * t| < t) : r = j := by
  have ht : 0 < t := (abs_nonneg _).trans_lt h
  rw [← sub_mul, abs_mul, abs_of_pos ht] at h
  have h1 : |(r : Rat) - j| < 1 := lt_of_mul_lt_mul_right (by rwa [one_mul]) ht.le
  have h2 : |(r : Int) - j| < 1 := by exact_mod_cast h1
  rw [Int.abs_lt_one_iff] at h2
  omega

/-- Rounding to a multiple of `2 ^ t` keeps the exponent, unless that is below `t`, or raises it. -/
theorem binaryExponentOfRat_of_abs_sub_lt {q : Rat} (hq : 0 < q) {r : Nat} {t : Int}
    (h : |(r : Rat) * 2 ^ t - q| < 2 ^ t) :
    (r = 0 → binaryExponentOfRat q ≤ t) ∧
      (0 < r → binaryExponentOfRat q ≤ binaryExponentOfRat (r * 2 ^ t) ∧
        binaryExponentOfRat (r * 2 ^ t) ≤ max (binaryExponentOfRat q) t + 1) := by
  obtain ⟨hlow, hhigh⟩ := binaryExponentOfRat_spec hq.ne'
  rw [abs_of_pos hq] at hlow hhigh
  obtain ⟨h₁, h₂⟩ := abs_lt.1 h
  have ht := two_zpow_pos t
  set B := binaryExponentOfRat q
  refine ⟨?_, fun hr => ?_⟩
  · rintro rfl
    have hlt : (2 : Rat) ^ (B - 1) < 2 ^ t := by
      rw [Nat.cast_zero, zero_mul] at h₁
      linarith
    have := two_zpow_lt.1 hlt
    omega
  · have hpos := mantissa_mul_pos hr t
    rw [le_binaryExponentOfRat_iff hpos.ne', binaryExponentOfRat_le_iff hpos.ne', abs_of_pos hpos]
    constructor
    · rcases le_or_gt t (B - 1) with hle | hlt
      · -- the power is a multiple of `2 ^ t` too
        obtain ⟨n, hn⟩ := Int.eq_ofNat_of_zero_le (Int.sub_nonneg_of_le hle)
        have hpow : (2 : Rat) ^ (B - 1) = (2 ^ n : Nat) * 2 ^ t := by
          rw [natCast_two_pow_mul, ← hn, sub_add_cancel]
        have hlt : ((2 ^ n : Nat) : Rat) * 2 ^ t < (r + 1 : Nat) * 2 ^ t := by
          rw [← hpow]
          push_cast
          linarith
        have hle : 2 ^ n ≤ r := Nat.lt_succ_iff.1 (Nat.cast_lt.1 (lt_of_mul_lt_mul_right hlt ht.le))
        rw [hpow]
        gcongr
      · have hone : (1 : Rat) ≤ r := by exact_mod_cast hr
        exact (two_zpow_le.2 hlt.le).trans (le_mul_of_one_le_left ht.le hone)
    · have hB : (2 : Rat) ^ B ≤ 2 ^ max B t := two_zpow_le.2 (le_max_left _ _)
      have ht : (2 : Rat) ^ t ≤ 2 ^ max B t := two_zpow_le.2 (le_max_right _ _)
      rw [two_zpow_add, zpow_one]
      linarith

/-- A power of two is kept. -/
theorem roundWithAccuracy_eq_power {m : Nat} (hm : 0 < m) {e k : Int}
    (hval : (m : Rat) * 2 ^ e = 2 ^ k) (hk : 1 - F.exponentBias ≤ k)
    (he : e ≤ k - F.mantissaBitsWithoutImplicit) :
    roundWithAccuracy F .positive m e .exact = power F k := by
  have hplace : place F (2 ^ k) = k - F.mantissaBitsWithoutImplicit := by
    have := minExponent_eq F
    rw [place_eq, binaryExponentOfRat_two_zpow, mantissaBits_eq]
    omega
  have hmul : (2 : Rat) ^ k =
      (2 ^ F.mantissaBitsWithoutImplicit : Nat) * 2 ^ (k - F.mantissaBitsWithoutImplicit) := by
    rw [natCast_two_pow_mul, add_sub_cancel]
  have hround := exists_roundWithAccuracy (F := F) .positive hm (e := e)
  rw [hval, hplace] at hround
  obtain ⟨r, herr, hu, hv⟩ := hround he
  obtain rfl := eq_of_abs_mul_sub_lt (hmul ▸ herr)
  exact eq_power hu hk (hv.trans (congrArg Extended.finite hmul.symm))

/-! ### Products -/

theorem mul_power {k l : Int} (h : 1 - F.exponentBias ≤ k + l) :
    mul F (power F k) (power F l) = power F (k + l) := by
  apply roundWithAccuracy_eq_power (Nat.mul_pos (Nat.two_pow_pos _) (Nat.two_pow_pos _)) _ h
  · omega
  · rw [Nat.cast_mul, mul_assoc, natCast_two_pow_mul, natCast_two_pow_mul]
    congr 1
    omega

theorem exists_mul_power (s : Sign) {m : Nat} (hm : 0 < m) (e k : Int) :
    ∃ r : Nat, |(r : Rat) * 2 ^ place F (m * 2 ^ (e + k)) - m * 2 ^ (e + k)| <
        2 ^ place F (m * 2 ^ (e + k)) ∧
      Rounded F (mul F (.finite s m e hm) (power F k)) ∧
      value (mul F (.finite s m e hm) (power F k)) =
        .finite (s.apply r * 2 ^ place F (m * 2 ^ (e + k))) := by
  have hmul : mul F (.finite s m e hm) (power F k) = roundWithAccuracy F s
      (m * 2 ^ F.mantissaBitsWithoutImplicit) (e + (k - F.mantissaBitsWithoutImplicit)) .exact := by
    cases s <;> rfl
  have hval : ((m * 2 ^ F.mantissaBitsWithoutImplicit : Nat) : Rat) *
      2 ^ (e + (k - F.mantissaBitsWithoutImplicit)) = m * 2 ^ (e + k) := by
    rw [Nat.cast_mul, mul_assoc, natCast_two_pow_mul]
    congr 2
    omega
  have hround := exists_roundWithAccuracy (F := F) s
    (Nat.mul_pos hm (Nat.two_pow_pos F.mantissaBitsWithoutImplicit))
    (e := e + (k - F.mantissaBitsWithoutImplicit))
  rw [hval] at hround
  rw [hmul]
  refine hround ?_
  rw [place_eq, ← totalExponent_eq hm, totalExponent, mantissaBits_eq]
  omega

/-- The value of a product with `2 ^ k`. -/
theorem exists_value_mul_power (hF : 2 ≤ F.exponentBias) (s : Sign) {m : Nat} (hm : 0 < m) {e : Int}
    (hc : Canonical F m e) (k : Int) {B : Int} (hB : B = binaryExponentOfRat (m * 2 ^ e) + k) :
    ∃ v : Rat, Rounded F (mul F (.finite s m e hm) (power F k)) ∧
      value (mul F (.finite s m e hm) (power F k)) = .finite v ∧
      (v = 0 → B ≤ F.minExponent) ∧
      (v ≠ 0 → min 0 B ≤ binaryExponentOfRat v ∧ binaryExponentOfRat v ≤ max 0 B) := by
  obtain ⟨r, herr, hu, hv⟩ := exists_mul_power (F := F) s hm e k
  refine ⟨_, hu, hv, ?_⟩
  have hq := mantissa_mul_pos hm (e + k)
  have hBq : B = binaryExponentOfRat (m * 2 ^ (e + k)) := by
    rw [hB, ← binaryExponentOfRat_mul_two_zpow k (mantissa_mul_pos hm e).ne', mul_assoc,
      two_zpow_add]
  have hplace := place_eq F (m * 2 ^ (e + k))
  rw [binaryExponentOfRat_apply]
  generalize place F (m * 2 ^ (e + k)) = t at *
  have ht := two_zpow_pos t
  have hzero : (s.apply r * 2 ^ t : Rat) = 0 ↔ r = 0 := by cases s <;> simp [Sign.apply, ht.ne']
  rw [ne_eq, hzero]
  rw [← hBq] at hplace
  rcases le_or_gt F.minExponent (B - F.mantissaBits) with hnormal | hsubnormal
  · -- the product is a multiple of its place
    have htk : t ≤ e + k := by
      have hlog := (Nat.log2_lt hm.ne').2 hc.mantissa_lt
      rw [← totalExponent_eq hm, totalExponent] at hBq
      omega
    obtain ⟨n, hn⟩ := Int.eq_ofNat_of_zero_le (Int.sub_nonneg_of_le htk)
    have hmul : (m : Rat) * 2 ^ (e + k) = (m * 2 ^ n : Nat) * 2 ^ t := by
      rw [Nat.cast_mul, mul_assoc, natCast_two_pow_mul, ← hn, sub_add_cancel]
    obtain rfl : r = m * 2 ^ n := eq_of_abs_mul_sub_lt (hmul ▸ herr)
    rw [← hmul, ← hBq]
    exact ⟨fun h => absurd h (Nat.mul_pos hm (Nat.two_pow_pos n)).ne', fun _ => by omega⟩
  · obtain ⟨hr, hr'⟩ := binaryExponentOfRat_of_abs_sub_lt hq herr
    have hmin := minExponent_eq F
    have hf := F.hm
    rw [mantissaBits_eq] at hplace hsubnormal
    refine ⟨fun h => ?_, fun h => ?_⟩
    · have := hr h
      omega
    · have := hr' (Nat.pos_of_ne_zero h)
      omega

/-- What becomes of a value in a product with `2 ^ k`, in a format whose exponents of nonzero numbers
are above `least`. -/
structure MovedBy (least k : Int) (a b : Extended) : Prop where
  infinite : Scalar.magnitude a = .top → Scalar.magnitude b = .top
  defined : ∀ q ≠ 0, a = .finite q → b ≠ .undefined
  underflow : ∀ q ≠ 0, a = .finite q → b = .finite 0 → binaryExponentOfRat q + k ≤ least
  nonzero : ∀ v ≠ 0, b = .finite v → ∃ q ≠ 0, a = .finite q ∧
    min 0 (binaryExponentOfRat q + k) ≤ binaryExponentOfRat v ∧
    binaryExponentOfRat v ≤ max 0 (binaryExponentOfRat q + k)

theorem value_finite_ne_zero (s : Sign) {m : Nat} (hm : 0 < m) (e : Int) :
    (s.apply m * 2 ^ e : Rat) ≠ 0 := by
  have := mantissa_mul_pos hm e
  cases s <;> simp [Sign.apply, hm.ne', (two_zpow_pos e).ne']

namespace MovedBy

variable {least k : Int} {a b : Extended}

theorem of_infinite (h : Scalar.magnitude b = .top) : MovedBy least k a b where
  infinite _ := h
  defined _ _ _ hb := by
    rw [hb] at h
    exact Extended.noConfusion h
  underflow _ _ _ hb := by
    rw [hb] at h
    exact Extended.noConfusion h
  nonzero _ _ hb := by
    rw [hb] at h
    exact Extended.noConfusion h

/-- A value that does not count in a maximum of magnitudes. -/
theorem ne_finite_of_negligible {a : Extended} (h : a = .finite 0 ∨ a = .undefined) {q : Rat}
    (hq : q ≠ 0) : a ≠ .finite q := by
  rcases h with rfl | rfl
  · exact fun h => hq (Extended.finite.inj h).symm
  · exact Extended.noConfusion

theorem of_negligible (ha : a = .finite 0 ∨ a = .undefined) (hb : b = .finite 0 ∨ b = .undefined) :
    MovedBy least k a b where
  infinite h := by rcases ha with rfl | rfl <;> exact Extended.noConfusion h
  defined _ hq h := absurd h (ne_finite_of_negligible ha hq)
  underflow _ hq h := absurd h (ne_finite_of_negligible ha hq)
  nonzero _ hv h := absurd h (ne_finite_of_negligible hb hv)

end MovedBy

theorem saturate_finite_cases (s : Sign) (m : Nat) (e : Int) (hm : 0 < m) :
    saturate F (.finite s m e hm) = .finite s m e hm ∨
      saturate F (.finite s m e hm) = .infinity s := by
  by_cases h : e ≤ greatestExponent F
  · exact .inl (if_pos h)
  · exact .inr (if_neg h)

theorem magnitude_value_infinity (s : Sign) : Scalar.magnitude (value (.infinity s)) = .top := by
  cases s <;> rfl

theorem value_saturate {u : UnpackedFloat} {v : Rat} (h : value u = .finite v) :
    value (saturate F u) = .finite v ∨ Scalar.magnitude (value (saturate F u)) = .top := by
  cases u with
  | finite s m e hm =>
    rcases saturate_finite_cases (F := F) s m e hm with h' | h' <;> rw [h']
    · exact .inl h
    · exact .inr (magnitude_value_infinity s)
  | infinity | notANumber | zero => exact .inl h

theorem movedBy_mul_power (hF : 2 ≤ F.exponentBias) {u : UnpackedFloat} (hu : Rounded F u) (k : Int) :
    Rounded F (mul F u (saturate F (power F k))) ∧
      MovedBy F.minExponent k (value u) (value (saturate F (mul F u (saturate F (power F k))))) := by
  have hp : saturate F (power F k) = power F k ∨ saturate F (power F k) = .infinity .positive :=
    saturate_finite_cases _ _ _ _
  cases u with
  | notANumber => exact ⟨trivial, .of_negligible (.inr rfl) (.inr rfl)⟩
  | infinity s =>
    refine ⟨?_, .of_infinite ?_⟩
    · rcases hp with h | h <;> rw [h] <;> trivial
    · rcases hp with h | h <;> rw [h] <;> exact magnitude_value_infinity _
  | zero s =>
    rcases hp with h | h <;> rw [h]
    · exact ⟨trivial, .of_negligible (.inl rfl) (.inl rfl)⟩
    · exact ⟨trivial, .of_negligible (.inl rfl) (.inr rfl)⟩
  | finite s m e hm =>
    rcases hp with h | h <;> rw [h]
    · obtain ⟨v, hround, hv, hzero, hnonzero⟩ := exists_value_mul_power hF s hm hu k rfl
      refine ⟨hround, ?_⟩
      rcases value_saturate (F := F) hv with h | h
      · rw [h]
        refine ⟨fun h => Extended.noConfusion h, fun _ _ _ h => Extended.noConfusion h, ?_, ?_⟩
        · rintro q - ha hb
          obtain rfl := Extended.finite.inj ha
          rw [binaryExponentOfRat_apply]
          exact hzero (Extended.finite.inj hb)
        · rintro w hw hb
          obtain rfl := Extended.finite.inj hb
          refine ⟨_, value_finite_ne_zero s hm e, rfl, ?_⟩
          rw [binaryExponentOfRat_apply]
          exact hnonzero hw
      · exact .of_infinite h
    · exact ⟨trivial, .of_infinite (magnitude_value_infinity _)⟩

/-! ### Quotients -/

theorem divCore_power {n : Nat} (hn : n + 2 ≤ F.exponentBias) :
    divCore F (2 ^ F.mantissaBitsWithoutImplicit) (0 - F.mantissaBitsWithoutImplicit)
      (2 ^ F.mantissaBitsWithoutImplicit) (n - F.mantissaBitsWithoutImplicit) =
      (2 ^ F.mantissaBits, -(n : Int) - F.mantissaBits, .exact) := by
  have hmin := minExponent_eq F
  have hbits : F.mantissaBits = 1 + F.mantissaBitsWithoutImplicit := rfl
  have htarget : F.targetExponent (-(n : Int)) = -n - F.mantissaBits := max_eq_left (by omega)
  have hshift : (-(n : Int) - (-n - F.mantissaBits)).toNat = F.mantissaBits := by omega
  simp only [divCore, totalExponent, Nat.log2_two_pow]
  rw [show (F.mantissaBitsWithoutImplicit + 1 + (0 - F.mantissaBitsWithoutImplicit) -
      (F.mantissaBitsWithoutImplicit + 1 + (n - F.mantissaBitsWithoutImplicit)) : Int) = -n by omega,
    show (0 - F.mantissaBitsWithoutImplicit - (n - F.mantissaBitsWithoutImplicit) : Int) = -n by omega,
    htarget, min_eq_right (by omega), hshift, Nat.shiftLeft_eq,
    Nat.mul_div_cancel_left _ (Nat.two_pow_pos _), Nat.mul_mod_right]
  rfl

theorem div_power_eq (k l : Int) : div F (power F k) (power F l) =
    let q := divCore F (2 ^ F.mantissaBitsWithoutImplicit) (k - F.mantissaBitsWithoutImplicit)
      (2 ^ F.mantissaBitsWithoutImplicit) (l - F.mantissaBitsWithoutImplicit)
    roundWithAccuracy F .positive q.1 q.2.1 q.2.2 := rfl

theorem div_power {n : Nat} (hn : n + 2 ≤ F.exponentBias) :
    div F (power F 0) (power F n) = power F (-n) := by
  have hdiv : div F (power F 0) (power F n) =
      roundWithAccuracy F .positive (2 ^ F.mantissaBits) (-(n : Int) - F.mantissaBits) .exact := by
    rw [div_power_eq, divCore_power hn]
  rw [hdiv]
  apply roundWithAccuracy_eq_power (Nat.two_pow_pos _)
  · rw [natCast_two_pow_mul, add_sub_cancel]
  · omega
  · rw [mantissaBits_eq]
    omega

end LpPresolve.Binary
