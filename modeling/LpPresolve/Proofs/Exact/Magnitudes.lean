import LpPresolve.Proofs.Exact.Exponents
import LpPresolve.Proofs.Exact.Order
import LpPresolve.Proofs.Sparse.Magnitudes

/-! Norms of extended rationals. Values that are undefined do not count, and a norm is 0 or the magnitude
of a value. -/

namespace LpPresolve

open Extended Scalar

theorem largest_le_iff (as : List Extended) (t : Extended) :
    largest as ≤ t ↔ 0 ≤ t ∧ ∀ a ∈ as, a ≠ undefined → Scalar.magnitude a ≤ t := by
  have hloop : ∀ m : Extended, m ≠ undefined →
      (as.foldl (fun m a => maxNum m (Scalar.magnitude a)) m ≤ t ↔
        m ≤ t ∧ ∀ a ∈ as, a ≠ undefined → Scalar.magnitude a ≤ t) := by
    induction as with
    | nil => simp
    | cons a r ih =>
      intro m hm
      have hmag : Scalar.magnitude a ≠ undefined ↔ a ≠ undefined := by
        cases a with
        | undefined => exact iff_of_false (fun h => h rfl) fun h => h rfl
        | bottom | finite | top => exact iff_of_true Extended.noConfusion Extended.noConfusion
      rw [List.foldl_cons, ih _ (maxNum_ne_undefined hm _), maxNum_le_iff,
        and_iff_right (Or.inl hm), List.forall_mem_cons, hmag]
      simp only [hm, ne_eq, not_false_eq_true, forall_true_left, and_assoc]
  exact hloop 0 Extended.noConfusion

/-- A norm is 0 or the magnitude of a value. -/
theorem largest_eq_or (as : List Extended) :
    largest as = 0 ∨ ∃ a ∈ as, largest as = Scalar.magnitude a := by
  have hloop : ∀ m : Extended, as.foldl (fun m a => maxNum m (Scalar.magnitude a)) m = m ∨
      ∃ a ∈ as, as.foldl (fun m a => maxNum m (Scalar.magnitude a)) m = Scalar.magnitude a := by
    induction as with
    | nil => exact fun m => .inl rfl
    | cons a r ih =>
      intro m
      have hmax : maxNum m (Scalar.magnitude a) = m ∨
          maxNum m (Scalar.magnitude a) = Scalar.magnitude a := by
        rw [maxNum]
        split_ifs <;> simp
      rw [List.foldl_cons]
      rcases ih (maxNum m (Scalar.magnitude a)) with h | ⟨b, hb, h⟩
      · rw [h]
        exact hmax.imp id fun h' => ⟨a, List.mem_cons_self, h'⟩
      · exact .inr ⟨b, List.mem_cons_of_mem a hb, h⟩
  exact hloop 0

theorem largest_ne_undefined (as : List Extended) : largest as ≠ undefined := by
  intro h
  have hle := (largest_le_iff as top).2
    ⟨finite_le_top 0, fun a _ ha => le_top (magnitude_ne_undefined ha)⟩
  rw [h] at hle
  exact not_undefined_le top hle

theorem magnitude_le_largest {as : List Extended} {a : Extended} (ha : a ∈ as) (h : a ≠ undefined) :
    Scalar.magnitude a ≤ largest as := by
  have hdef := largest_ne_undefined as
  have hself := (Extended.not_lt hdef hdef).1 (Extended.lt_irrefl _)
  exact ((largest_le_iff as _).1 hself).2 a ha h

theorem largest_eq_top {as : List Extended} {a : Extended} (ha : a ∈ as) (h : Scalar.magnitude a = top) :
    largest as = top := by
  have hdef : a ≠ undefined := by
    rintro rfl
    exact Extended.noConfusion h
  have hle := magnitude_le_largest ha hdef
  rw [h] at hle
  generalize largest as = m at *
  cases m with
  | top => rfl
  | undefined | bottom | finite => exact absurd hle Bool.false_ne_true

theorem binaryExponent_finite (q : Rat) : binaryExponent (finite q) = binaryExponentOfRat q := rfl

theorem largest_cases (as : List Extended) : largest as = 0 ∨
    (largest as = top ∧ ∃ a ∈ as, Scalar.magnitude a = top) ∨
    ∃ q ≠ 0, finite q ∈ as ∧ largest as = finite |q| := by
  rcases largest_eq_or as with h | ⟨a, ha, h⟩
  · exact .inl h
  · cases a with
    | undefined => exact absurd h (largest_ne_undefined as)
    | bottom | top => exact .inr (.inl ⟨h, _, ha, rfl⟩)
    | finite q =>
      rw [magnitude_finite] at h
      by_cases hq : q = 0
      · exact .inl (by rw [h, hq, abs_zero, zero_eq])
      · exact .inr (.inr ⟨q, hq, ha, h⟩)

theorem le_binaryExponent_largest {as : List Extended} {q : Rat} (hq : q ≠ 0) (h : finite q ∈ as) :
    largest as = top ∨ ∃ p ≠ 0, largest as = finite p ∧
      binaryExponentOfRat q ≤ binaryExponentOfRat p := by
  have hle := magnitude_le_largest h Extended.noConfusion
  rw [magnitude_finite] at hle
  rcases largest_cases as with h' | h' | ⟨p, hp, -, h'⟩
  · rw [h', zero_eq, finite_le_finite] at hle
    exact absurd hle (abs_pos.2 hq).not_ge
  · exact .inl h'.1
  · rw [h', finite_le_finite, ← abs_abs p] at hle
    exact .inr ⟨|p|, abs_ne_zero.2 hp, h', binaryExponentOfRat_mono hq hle⟩

/-- What holds of 0 and of the exponents of values holds of the exponent of their norm. -/
theorem binaryExponent_largest {P : Int → Prop} {as : List Extended} (hzero : P 0)
    (h : ∀ a ∈ as, P (binaryExponent a)) : P (binaryExponent (largest as)) := by
  rcases largest_cases as with h' | ⟨h', -⟩ | ⟨q, -, hmem, h'⟩
  · rwa [h']
  · rwa [h']
  · rw [h', binaryExponent_finite, binaryExponentOfRat_abs]
    exact h _ hmem

/-! ### Finite values -/

section Finite

variable {as : List Extended} (hf : ∀ a ∈ as, Scalar.isFinite a = true)
include hf

/-- Some value attains the norm, unless all are 0. -/
theorem largest_cases_of_finite : (largest as = 0 ∧ ∀ a ∈ as, a = 0) ∨
    ∃ q ≠ 0, finite q ∈ as ∧ largest as = finite |q| ∧ ∀ p, finite p ∈ as → |p| ≤ |q| := by
  have hle : ∀ p, finite p ∈ as → finite |p| ≤ largest as := fun p hp =>
    magnitude_finite p ▸ magnitude_le_largest hp Extended.noConfusion
  rcases largest_cases as with h | ⟨-, a, ha, htop⟩ | ⟨q, hq, hmem, h⟩
  · refine .inl ⟨h, fun a ha => ?_⟩
    obtain ⟨p, rfl⟩ := exists_eq_finite (hf a ha)
    have hp := hle p ha
    rw [h, zero_eq, finite_le_finite] at hp
    rw [abs_nonpos_iff.1 hp, zero_eq]
  · obtain ⟨p, rfl⟩ := exists_eq_finite (hf a ha)
    exact Extended.noConfusion htop
  · refine .inr ⟨q, hq, hmem, h, fun p hp => ?_⟩
    rw [← finite_le_finite, ← h]
    exact hle p hp

theorem binaryExponentOfRat_le_largest {q : Rat} (hq : q ≠ 0) (h : finite q ∈ as) :
    binaryExponentOfRat q ≤ binaryExponent (largest as) := by
  rcases largest_cases_of_finite hf with ⟨-, hzero⟩ | ⟨p, hp, -, h', hle⟩
  · exact absurd (finite.inj (hzero _ h)) hq
  · rw [h', binaryExponent_finite, binaryExponentOfRat_abs]
    exact binaryExponentOfRat_mono hq (hle q h)

end Finite

/-- Powers of two move the exponent of a norm at least as far as that of the value that attains it. -/
theorem le_binaryExponent_largest_mul {es : List (Nat × Extended)}
    (hf : ∀ e ∈ es, Scalar.isFinite e.2 = true) (k : Nat → Int) {b : Int} (hb : b ≤ 0)
    (h : ∀ e ∈ es, b ≤ binaryExponent (largest (es.map (·.2))) + k e.1) :
    b ≤ binaryExponent (largest (es.map fun e => e.2 * finite (2 ^ k e.1))) := by
  rcases largest_cases_of_finite (List.forall_mem_map.2 hf) with
    ⟨-, hzero⟩ | ⟨q, hq, hmem, hlargest, -⟩
  · rcases largest_cases (es.map fun e => e.2 * finite (2 ^ k e.1)) with
      h' | ⟨h', -⟩ | ⟨p, hp, hmem, -⟩
    · rwa [h']
    · rwa [h']
    · obtain ⟨e, he, h'⟩ := List.mem_map.1 hmem
      rw [hzero e.2 (List.mem_map_of_mem he), zero_eq, finite_mul_finite, zero_mul] at h'
      exact absurd (finite.inj h').symm hp
  · obtain ⟨e, he, h'⟩ := List.mem_map.1 hmem
    have hscaled : finite (q * 2 ^ k e.1) ∈ es.map fun e => e.2 * finite (2 ^ k e.1) :=
      List.mem_map.2 ⟨e, he, by rw [h', finite_mul_finite]⟩
    have hle := binaryExponentOfRat_le_largest
      (List.forall_mem_map.2 fun e he => (isFinite_mul (two_zpow_pos _).ne' _).trans (hf e he))
      (mul_ne_zero hq (two_zpow_pos _).ne') hscaled
    have hb := h e he
    rw [hlargest, binaryExponent_finite, binaryExponentOfRat_abs] at hb
    rw [binaryExponentOfRat_mul_two_zpow _ hq] at hle
    exact hb.trans hle

end LpPresolve
