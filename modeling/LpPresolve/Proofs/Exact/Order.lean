import LpPresolve.Proofs.Exact.Arithmetic
import Mathlib.Tactic.Tauto

/-! The order of the extended rationals with the undefined value. It is total on the values that are
defined, and no comparison holds of the undefined one. A maximum drops an undefined argument. -/

namespace LpPresolve.Extended

theorem le_iff {a b : Extended} : a ≤ b ↔ (less a b || same a b) = true := Iff.rfl

theorem lt_iff {a b : Extended} : a < b ↔ less a b = true := Iff.rfl

theorem not_undefined_le (t : Extended) : ¬ undefined ≤ t := Bool.false_ne_true

theorem not_le_undefined (t : Extended) : ¬ t ≤ undefined := by cases t <;> exact Bool.false_ne_true

theorem bottom_le {a : Extended} (h : a ≠ undefined) : bottom ≤ a := by
  cases a with
  | undefined => exact absurd rfl h
  | bottom | finite | top => rfl

theorem le_top {a : Extended} (h : a ≠ undefined) : a ≤ top := by
  cases a with
  | undefined => exact absurd rfl h
  | bottom | finite | top => rfl

protected theorem le_trans {a b c : Extended} (h : a ≤ b) (h' : b ≤ c) : a ≤ c := by
  have ha : a ≠ undefined := fun ha => not_undefined_le b (ha ▸ h)
  have hc : c ≠ undefined := fun hc => not_le_undefined b (hc ▸ h')
  cases b with
  | undefined => exact absurd h (not_le_undefined a)
  | bottom =>
    cases a with
    | bottom => exact bottom_le hc
    | undefined | finite | top => exact absurd h Bool.false_ne_true
  | top =>
    cases c with
    | top => exact le_top ha
    | undefined | finite | bottom => exact absurd h' Bool.false_ne_true
  | finite q =>
    cases a with
    | undefined | top => exact absurd h Bool.false_ne_true
    | bottom => exact bottom_le hc
    | finite p =>
      cases c with
      | undefined | bottom => exact absurd h' Bool.false_ne_true
      | finite r => exact finite_le_finite.2 ((finite_le_finite.1 h).trans (finite_le_finite.1 h'))
      | top => exact le_top ha

protected theorem lt_irrefl (a : Extended) : ¬ a < a := by
  cases a <;> simp [lt_iff, less]

/-- The undefined value differs from itself. -/
theorem beq_iff {a b : Extended} : (a == b) = true ↔ a ≠ undefined ∧ a = b := by
  cases a <;> cases b <;> simp [BEq.beq, same]

theorem beq_iff_of_ne {a b : Extended} (hb : b ≠ undefined) : (a == b) = true ↔ a = b :=
  beq_iff.trans (and_iff_right_of_imp fun h => h ▸ hb)

protected theorem le_of_lt {a b : Extended} (h : a < b) : a ≤ b := by
  rw [le_iff, lt_iff.1 h, Bool.true_or]

protected theorem not_lt {a b : Extended} (ha : a ≠ undefined) (hb : b ≠ undefined) :
    ¬ a < b ↔ b ≤ a := by
  cases a with
  | undefined => exact absurd rfl ha
  | bottom => cases b <;> simp_all [lt_iff, le_iff, less, same]
  | top => cases b <;> simp_all [lt_iff, le_iff, less, same]
  | finite p =>
    cases b with
    | undefined => exact absurd rfl hb
    | bottom | top => simp
    | finite q => rw [finite_lt_finite, finite_le_finite, not_lt]

theorem isNaN_iff {a : Extended} : Scalar.isNaN a = true ↔ a = undefined := by
  cases a with
  | undefined => exact iff_of_true rfl rfl
  | bottom | top => exact iff_of_false Bool.false_ne_true Extended.noConfusion
  | finite q => exact iff_of_false (isNaN_finite q ▸ Bool.false_ne_true) Extended.noConfusion

/-- The larger of two values that are defined. -/
theorem ite_lt_le_iff {a b : Extended} (ha : a ≠ undefined) (hb : b ≠ undefined) (t : Extended) :
    (if a < b then b else a) ≤ t ↔ a ≤ t ∧ b ≤ t := by
  split_ifs with h
  · exact ⟨fun hb => ⟨Extended.le_trans (Extended.le_of_lt h) hb, hb⟩, And.right⟩
  · exact ⟨fun ha' => ⟨ha', Extended.le_trans ((Extended.not_lt ha hb).1 h) ha'⟩, And.left⟩

/-- An undefined argument does not count. -/
theorem maxNum_le_iff (a b t : Extended) :
    Scalar.maxNum a b ≤ t ↔ (a ≠ undefined ∨ b ≠ undefined) ∧
      (a ≠ undefined → a ≤ t) ∧ (b ≠ undefined → b ≤ t) := by
  rw [Scalar.maxNum, if_congr isNaN_iff rfl rfl]
  by_cases ha : a = undefined
  · by_cases hb : b = undefined
    · subst ha hb
      simp [not_undefined_le]
    · simp [ha, hb]
  · rw [if_neg ha]
    by_cases hb : b = undefined
    · have hlt : ¬ a < undefined := by cases a <;> exact Bool.false_ne_true
      rw [hb, if_neg hlt]
      simp [ha]
    · rw [ite_lt_le_iff ha hb]
      simp [ha, hb]

theorem maxNum_ne_undefined {a : Extended} (ha : a ≠ undefined) (b : Extended) :
    Scalar.maxNum a b ≠ undefined := by
  rw [Scalar.maxNum, if_congr isNaN_iff rfl rfl, if_neg ha]
  split_ifs with h
  · rintro rfl
    cases a <;> exact absurd h Bool.false_ne_true
  · exact ha

theorem maxNum_ne_undefined_iff (a b : Extended) :
    Scalar.maxNum a b ≠ undefined ↔ a ≠ undefined ∨ b ≠ undefined := by
  by_cases ha : a = undefined
  · rw [Scalar.maxNum, if_pos (isNaN_iff.2 ha)]
    simp [ha]
  · exact iff_of_true (maxNum_ne_undefined ha b) (.inl ha)

/-- The maximum of three values, without those that are undefined. -/
theorem maxNum_maxNum_le_iff (a b c t : Extended) :
    Scalar.maxNum (Scalar.maxNum a b) c ≤ t ↔
      (a ≠ undefined ∨ b ≠ undefined ∨ c ≠ undefined) ∧
        (a ≠ undefined → a ≤ t) ∧ (b ≠ undefined → b ≤ t) ∧ (c ≠ undefined → c ≤ t) := by
  rw [maxNum_le_iff, maxNum_le_iff, maxNum_ne_undefined_iff]
  tauto

theorem magnitude_ne_undefined {a : Extended} (ha : a ≠ undefined) :
    Scalar.magnitude a ≠ undefined := by
  cases a with
  | undefined => exact absurd rfl ha
  | bottom | top | finite => exact Extended.noConfusion

end LpPresolve.Extended
