import LpPresolve.Scalar.Extended
import Mathlib.Algebra.BigOperators.Group.Finset.Basic
import Mathlib.Algebra.Order.Field.Basic
import Mathlib.Algebra.Order.Field.Rat
import Mathlib.Tactic.Linarith

/-! Arithmetic on the finite values of the extended rationals. A finite value stands for a rational,
every operation on finite values is that of the rationals, and a bound over a factor bounds the
quotient. -/

namespace LpPresolve.Extended

open Scalar

/-- The rational that a finite value stands for. -/
def value : Extended → Rat
  | finite q => q
  | _ => 0

@[simp] theorem value_finite (q : Rat) : (finite q).value = q := rfl

theorem zero_eq : (0 : Extended) = finite 0 := rfl

theorem one_eq : (1 : Extended) = finite 1 := rfl

@[simp] theorem value_zero : (0 : Extended).value = 0 := rfl

theorem eq_finite_value {a : Extended} (h : isFinite a = true) : a = finite a.value := by
  cases a with
  | finite q => rfl
  | undefined | bottom | top => exact absurd h Bool.false_ne_true

theorem exists_eq_finite {a : Extended} (h : isFinite a = true) : ∃ q, a = finite q :=
  ⟨_, eq_finite_value h⟩

theorem value_of_not_finite {a : Extended} (h : isFinite a = false) : a.value = 0 := by
  cases a with
  | finite q => exact absurd h Bool.noConfusion
  | undefined | bottom | top => rfl

@[simp] theorem isFinite_bottom : isFinite bottom = false := rfl

@[simp] theorem isFinite_top : isFinite top = false := rfl

/-! ### Order -/

@[simp] theorem finite_le_finite {p q : Rat} : finite p ≤ finite q ↔ p ≤ q := by
  show (less _ _ || same _ _) = true ↔ _
  simp [less, same, le_iff_lt_or_eq]

@[simp] theorem bottom_le_finite (q : Rat) : bottom ≤ finite q := by
  show (less _ _ || same _ _) = true
  rfl

@[simp] theorem finite_le_top (q : Rat) : finite q ≤ top := by
  show (less _ _ || same _ _) = true
  rfl

@[simp] theorem not_finite_le_bottom (q : Rat) : ¬ finite q ≤ bottom := by
  show ¬ (less _ _ || same _ _) = true
  simp [less, same]

@[simp] theorem not_top_le_finite (q : Rat) : ¬ top ≤ finite q := by
  show ¬ (less _ _ || same _ _) = true
  simp [less, same]

@[simp] theorem bottom_lt_finite (q : Rat) : bottom < finite q := by
  show less _ _ = true
  rfl

@[simp] theorem finite_lt_top (q : Rat) : finite q < top := by
  show less _ _ = true
  rfl

@[simp] theorem not_finite_lt_bottom (q : Rat) : ¬ finite q < bottom := by
  show ¬ less _ _ = true
  simp [less]

@[simp] theorem not_top_lt_finite (q : Rat) : ¬ top < finite q := by
  show ¬ less _ _ = true
  simp [less]

@[simp] theorem finite_beq_finite (p q : Rat) : (finite p == finite q) = decide (p = q) := by
  show same _ _ = _
  simp [same, beq_eq_decide]

/-! ### Magnitudes and maxima -/

@[simp] theorem magnitude_finite (q : Rat) : Scalar.magnitude (finite q) = finite |q| := by
  have habs : q.abs = |q| := by
    rcases le_total 0 q with h | h
    · rw [Rat.abs_of_nonneg h, abs_of_nonneg h]
    · rw [Rat.abs_of_nonpos h, abs_of_nonpos h]
  exact congrArg finite habs

@[simp] theorem isNaN_finite (q : Rat) : isNaN (finite q) = false := by simp [isNaN]

@[simp] theorem maxNum_finite (p q : Rat) : maxNum (finite p) (finite q) = finite (max p q) := by
  rw [maxNum, isNaN_finite, if_neg Bool.false_ne_true]
  by_cases h : p < q
  · rw [if_pos (finite_lt_finite.2 h), max_eq_right h.le]
  · rw [if_neg (finite_lt_finite.not.2 h), max_eq_left (not_lt.1 h)]

/-! ### Sums -/

/-- A running sum of finite values is the sum of the rationals. -/
theorem foldl_add_finite {β : Type} (xs : List β) (f : β → Rat) (s : Rat) :
    xs.foldl (fun s x => s + finite (f x)) (finite s) = finite (s + (xs.map f).sum) := by
  induction xs generalizing s with
  | nil => simp
  | cons x r ih =>
    rw [List.foldl_cons, finite_add_finite, ih, List.map_cons, List.sum_cons, add_assoc]

theorem sum_map_range (f : Nat → Rat) (n : Nat) :
    ((List.range n).map f).sum = ∑ j ∈ Finset.range n, f j := rfl

/-! ### Powers of two -/

theorem pow_finite (p : Rat) (n : Nat) : pow (finite p) n = finite (p ^ n) := by
  induction n using Nat.strong_induction_on generalizing p with
  | _ n ih =>
    rw [pow]
    by_cases hn : n = 0
    · simp [hn, one_eq]
    · have hsq : (p * p) ^ (n / 2) = p ^ (2 * (n / 2)) := by rw [← pow_two, ← pow_mul]
      rw [if_neg hn, finite_mul_finite, ih (n / 2) (by omega), hsq]
      rcases Nat.mod_two_eq_zero_or_one n with h | h
      · rw [if_neg (by omega), Nat.two_mul_div_two_of_even (Nat.even_iff.2 h)]
      · rw [if_pos h, finite_mul_finite, ← pow_succ, Nat.two_mul_div_two_add_one_of_odd
          (Nat.odd_iff.2 h)]

theorem exp2_eq (k : Int) : (exp2 k : Extended) = finite (2 ^ k) := by
  have htwo : (two : Extended) = finite 2 := by
    rw [two, one_eq, finite_add_finite]
    norm_num
  rw [exp2, htwo]
  split_ifs with hk
  · rw [pow_finite, ← zpow_natCast, Int.toNat_of_nonneg hk]
  · rw [pow_finite, one_eq, finite_div_finite 1 (pow_ne_zero _ two_ne_zero), ← zpow_natCast,
      Int.toNat_of_nonneg (by omega), one_div, ← zpow_neg, neg_neg]

/-! ### Bounds over a factor -/

section Factor

variable {d : Rat}

theorem top_div_finite (hd : d < 0) : top / finite d = bottom := by
  show div _ _ = _
  simp [div, hd, infinite, sign]

theorem bottom_div_finite (hd : d < 0) : bottom / finite d = top := by
  show div _ _ = _
  simp [div, hd, infinite, sign]

theorem top_div_finite_of_pos (hd : 0 < d) : top / finite d = top := by
  show div _ _ = _
  simp [div, not_lt.2 hd.le, infinite, sign]

theorem bottom_div_finite_of_pos (hd : 0 < d) : bottom / finite d = bottom := by
  show div _ _ = _
  simp [div, not_lt.2 hd.le, infinite, sign]

theorem isFinite_div (hd : d ≠ 0) (l : Extended) : isFinite (l / finite d) = isFinite l := by
  rcases lt_or_gt_of_ne hd with h | h
  · cases l with
    | finite q => rw [finite_div_finite q hd]; rfl
    | undefined => rfl
    | bottom => rw [bottom_div_finite h, isFinite_top, isFinite_bottom]
    | top => rw [top_div_finite h, isFinite_top, isFinite_bottom]
  · cases l with
    | finite q => rw [finite_div_finite q hd]; rfl
    | undefined => rfl
    | bottom => rw [bottom_div_finite_of_pos h]
    | top => rw [top_div_finite_of_pos h]

theorem value_div (hd : d ≠ 0) (l : Extended) : (l / finite d).value = l.value / d := by
  by_cases hl : isFinite l = true
  · rw [eq_finite_value hl, finite_div_finite _ hd, value_finite, value_finite]
  · have hq : isFinite (l / finite d) = false := by simpa [isFinite_div hd] using hl
    rw [value_of_not_finite hq, value_of_not_finite (by simpa using hl), zero_div]

/-- Two factors in a row are their product. -/
theorem div_div_finite (hd : d ≠ 0) {c : Rat} (hc : 0 < c) (l : Extended) :
    l / finite d / finite c = l / finite (d * c) := by
  have hdc : d * c ≠ 0 := mul_ne_zero hd hc.ne'
  rcases lt_or_gt_of_ne hd with h | h
  · have hneg := mul_neg_of_neg_of_pos h hc
    cases l with
    | finite q =>
      rw [finite_div_finite q hd, finite_div_finite _ hc.ne', finite_div_finite q hdc, div_div]
    | undefined => rfl
    | bottom => rw [bottom_div_finite h, top_div_finite_of_pos hc, bottom_div_finite hneg]
    | top => rw [top_div_finite h, bottom_div_finite_of_pos hc, top_div_finite hneg]
  · have hpos := mul_pos h hc
    cases l with
    | finite q =>
      rw [finite_div_finite q hd, finite_div_finite _ hc.ne', finite_div_finite q hdc, div_div]
    | undefined => rfl
    | bottom =>
      rw [bottom_div_finite_of_pos h, bottom_div_finite_of_pos hc, bottom_div_finite_of_pos hpos]
    | top => rw [top_div_finite_of_pos h, top_div_finite_of_pos hc, top_div_finite_of_pos hpos]

theorem div_eq_finite_iff (hd : d ≠ 0) (l : Extended) (v : Rat) :
    l / finite d = finite v ↔ l = finite (v * d) := by
  by_cases hl : isFinite l = true
  · rw [eq_finite_value hl, finite_div_finite _ hd, finite.injEq, finite.injEq, div_eq_iff hd]
  · have hne : ∀ {a : Extended} {q : Rat}, ¬ isFinite a = true → a ≠ finite q :=
      fun ha h => ha (h ▸ isFinite_finite _)
    simp [hne hl, hne (isFinite_div hd l ▸ hl)]

theorem div_le_finite_iff_of_pos (hd : 0 < d) (l : Extended) (v : Rat) :
    l / finite d ≤ finite v ↔ l ≤ finite (v * d) := by
  cases l with
  | finite q =>
    rw [finite_div_finite q hd.ne', finite_le_finite, finite_le_finite, div_le_iff₀ hd]
  | undefined => rfl
  | bottom => simp [bottom_div_finite_of_pos hd]
  | top => simp [top_div_finite_of_pos hd]

theorem finite_le_div_iff_of_pos (hd : 0 < d) (u : Extended) (v : Rat) :
    finite v ≤ u / finite d ↔ finite (v * d) ≤ u := by
  cases u with
  | finite q =>
    rw [finite_div_finite q hd.ne', finite_le_finite, finite_le_finite, le_div_iff₀ hd]
  | undefined => rfl
  | bottom => simp [bottom_div_finite_of_pos hd]
  | top => simp [top_div_finite_of_pos hd]

theorem div_le_finite_iff_of_neg (hd : d < 0) (u : Extended) (v : Rat) :
    u / finite d ≤ finite v ↔ finite (v * d) ≤ u := by
  cases u with
  | finite q =>
    rw [finite_div_finite q hd.ne, finite_le_finite, finite_le_finite, div_le_iff_of_neg hd]
  | undefined => rfl
  | bottom => simp [bottom_div_finite hd]
  | top => simp [top_div_finite hd]

theorem finite_le_div_iff_of_neg (hd : d < 0) (l : Extended) (v : Rat) :
    finite v ≤ l / finite d ↔ l ≤ finite (v * d) := by
  cases l with
  | finite q =>
    rw [finite_div_finite q hd.ne, finite_le_finite, finite_le_finite, le_div_iff_of_neg hd]
  | undefined => rfl
  | bottom => simp [bottom_div_finite hd]
  | top => simp [top_div_finite hd]

/-! ### Products with a factor -/

theorem undefined_mul (a : Extended) : undefined * a = undefined := by
  show mul _ _ = _
  simp [mul, infinite, sign]

theorem top_mul_finite (hd : d < 0) : top * finite d = bottom := by
  show mul _ _ = _
  simp [mul, infinite, sign, Int.sign_eq_neg_one_of_neg (Rat.num_neg.2 hd)]

theorem bottom_mul_finite (hd : d < 0) : bottom * finite d = top := by
  show mul _ _ = _
  simp [mul, infinite, sign, Int.sign_eq_neg_one_of_neg (Rat.num_neg.2 hd)]

theorem top_mul_finite_of_pos (hd : 0 < d) : top * finite d = top := by
  show mul _ _ = _
  simp [mul, infinite, sign, Int.sign_eq_one_of_pos (Rat.num_pos.2 hd)]

theorem bottom_mul_finite_of_pos (hd : 0 < d) : bottom * finite d = bottom := by
  show mul _ _ = _
  simp [mul, infinite, sign, Int.sign_eq_one_of_pos (Rat.num_pos.2 hd)]

theorem mul_one_finite (a : Extended) : a * finite 1 = a := by
  cases a with
  | finite q => rw [finite_mul_finite, mul_one]
  | undefined | bottom | top => rfl

theorem div_one_finite (a : Extended) : a / finite 1 = a := by
  cases a with
  | finite q => rw [finite_div_finite q one_ne_zero, div_one]
  | undefined | bottom | top => rfl

theorem neg_mul_finite (a : Extended) (d : Rat) : -a * finite d = a * finite (-d) := by
  cases a with
  | finite q => rw [neg_finite, finite_mul_finite, finite_mul_finite, neg_mul_comm]
  | undefined => exact (undefined_mul _).trans (undefined_mul _).symm
  | bottom =>
    show infinite (1 * _) = infinite (-1 * _)
    simp [sign]
  | top =>
    show infinite (-1 * _) = infinite (1 * _)
    simp [sign]

theorem neg_div_finite (a : Extended) {d : Rat} (hd : d ≠ 0): -a / finite d = a / finite (-d) := by
  cases a with
  | finite q =>
    rw [neg_finite, finite_div_finite _ hd, finite_div_finite _ (neg_ne_zero.2 hd), neg_div,
      div_neg]
  | undefined => rfl
  | bottom =>
    rcases lt_or_gt_of_ne hd with h | h
    · exact (top_div_finite h).trans (bottom_div_finite_of_pos (neg_pos.2 h)).symm
    · exact (top_div_finite_of_pos h).trans (bottom_div_finite (neg_lt_zero.2 h)).symm
  | top =>
    rcases lt_or_gt_of_ne hd with h | h
    · exact (bottom_div_finite h).trans (top_div_finite_of_pos (neg_pos.2 h)).symm
    · exact (bottom_div_finite_of_pos h).trans (top_div_finite (neg_lt_zero.2 h)).symm

theorem div_neg_finite (a : Extended) {d : Rat} (hd : d ≠ 0) :
    a / finite (-d) = -(a / finite d) := by
  rcases lt_or_gt_of_ne hd with h | h
  · have h' := neg_pos.2 h
    cases a with
    | finite q =>
      rw [finite_div_finite q hd, finite_div_finite q h'.ne', neg_finite, div_neg]
    | undefined => rfl
    | bottom => rw [bottom_div_finite h, bottom_div_finite_of_pos h']; rfl
    | top => rw [top_div_finite h, top_div_finite_of_pos h']; rfl
  · have h' := neg_lt_zero.2 h
    cases a with
    | finite q =>
      rw [finite_div_finite q hd, finite_div_finite q h'.ne, neg_finite, div_neg]
    | undefined => rfl
    | bottom => rw [bottom_div_finite_of_pos h, bottom_div_finite h']; rfl
    | top => rw [top_div_finite_of_pos h, top_div_finite h']; rfl

/-- Whatever is divided by a factor comes back from the product with it. -/
theorem div_mul_finite (hd : d ≠ 0) (a : Extended) : a / finite d * finite d = a := by
  rcases lt_or_gt_of_ne hd with h | h
  · cases a with
    | finite q => rw [finite_div_finite q hd, finite_mul_finite, div_mul_cancel₀ _ hd]
    | undefined => exact undefined_mul _
    | bottom => rw [bottom_div_finite h, top_mul_finite h]
    | top => rw [top_div_finite h, bottom_mul_finite h]
  · cases a with
    | finite q => rw [finite_div_finite q hd, finite_mul_finite, div_mul_cancel₀ _ hd]
    | undefined => exact undefined_mul _
    | bottom => rw [bottom_div_finite_of_pos h, bottom_mul_finite_of_pos h]
    | top => rw [top_div_finite_of_pos h, top_mul_finite_of_pos h]

theorem isFinite_mul (hd : d ≠ 0) (a : Extended) : isFinite (a * finite d) = isFinite a := by
  rcases lt_or_gt_of_ne hd with h | h
  · cases a with
    | finite q => rfl
    | undefined => rw [undefined_mul]
    | bottom => rw [bottom_mul_finite h, isFinite_top, isFinite_bottom]
    | top => rw [top_mul_finite h, isFinite_top, isFinite_bottom]
  · cases a with
    | finite q => rfl
    | undefined => rw [undefined_mul]
    | bottom => rw [bottom_mul_finite_of_pos h]
    | top => rw [top_mul_finite_of_pos h]

theorem mul_finite_eq_div (hd : d ≠ 0) (a : Extended) : a * finite d = a / finite d⁻¹ := by
  rcases lt_or_gt_of_ne hd with h | h
  · have h' := inv_lt_zero.2 h
    cases a with
    | finite q => rw [finite_mul_finite, finite_div_finite _ (inv_ne_zero hd), div_inv_eq_mul]
    | undefined => exact undefined_mul _
    | bottom => rw [bottom_mul_finite h, bottom_div_finite h']
    | top => rw [top_mul_finite h, top_div_finite h']
  · have h' := inv_pos.2 h
    cases a with
    | finite q => rw [finite_mul_finite, finite_div_finite _ (inv_ne_zero hd), div_inv_eq_mul]
    | undefined => exact undefined_mul _
    | bottom => rw [bottom_mul_finite_of_pos h, bottom_div_finite_of_pos h']
    | top => rw [top_mul_finite_of_pos h, top_div_finite_of_pos h']

/-- Two factors in a row are their product. -/
theorem mul_mul_finite (hd : 0 < d) {c : Rat} (hc : 0 < c) (a : Extended) :
    a * finite d * finite c = a * finite (d * c) := by
  rw [mul_finite_eq_div hd.ne', mul_finite_eq_div hc.ne', div_div_finite (inv_ne_zero hd.ne')
    (inv_pos.2 hc), mul_finite_eq_div (mul_pos hd hc).ne', mul_inv]

/-- Whatever is multiplied by a factor comes back from the quotient by it. -/
theorem mul_div_finite (hd : d ≠ 0) (a : Extended) : a * finite d / finite d = a := by
  have hdiv := mul_finite_eq_div (inv_ne_zero hd) (a * finite d)
  rw [inv_inv] at hdiv
  rw [← hdiv, mul_finite_eq_div hd, div_mul_finite (inv_ne_zero hd)]

end Factor

end LpPresolve.Extended
