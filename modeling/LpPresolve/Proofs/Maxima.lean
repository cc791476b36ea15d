import LpPresolve.Proofs.Exact.Order
import LpPresolve.Proofs.Sparse.Magnitudes
import Mathlib.Data.List.Perm.Basic

/-! Maxima of magnitudes. A running maximum does not depend on the order of the values as soon as the
comparison is transitive, nothing is less than a value that is no number, and of two magnitudes either
one comes out the larger whatever the order. -/

namespace LpPresolve

open Scalar

/-- A scalar type whose magnitudes have maxima. -/
class LawfulMax (α : Type) [Scalar α] : Prop where
  lt_trans {a b c : α} : a < b → b < c → a < c
  isNaN_of_lt {a b : α} : a < b → isNaN b = false
  maxNum_comm (a b : α) : maxNum (magnitude a) (magnitude b) = maxNum (magnitude b) (magnitude a)

section

variable {α : Type} [Scalar α]

theorem maxNum_of_lt {m a : α} (h : m < a) (hm : isNaN m = false) : maxNum m a = a := by
  rw [maxNum, hm, if_neg Bool.false_ne_true, if_pos h]

theorem maxNum_of_not_lt {m a : α} (h : ¬ m < a) (hm : isNaN m = false) : maxNum m a = m := by
  rw [maxNum, hm, if_neg Bool.false_ne_true, if_neg h]

theorem maxNum_of_isNaN {m : α} (hm : isNaN m = true) (a : α) : maxNum m a = a := by
  rw [maxNum, if_pos hm]

namespace LawfulMax

variable [LawfulMax α]

/-- The larger of two values decides, if the first one is beyond what came before. -/
theorem maxNum_of_not_lt_of_lt {m a b : α} (ha : m < a) (hb : ¬ m < b) : maxNum a b = a :=
  maxNum_of_not_lt (fun hab => hb (lt_trans ha hab)) (isNaN_of_lt ha)

theorem maxNum_right_comm (m a b : α) : maxNum (maxNum m (magnitude a)) (magnitude b) =
    maxNum (maxNum m (magnitude b)) (magnitude a) := by
  cases hm : isNaN m with
  | true => rw [maxNum_of_isNaN hm, maxNum_of_isNaN hm, maxNum_comm]
  | false =>
    by_cases ha : m < magnitude a <;> by_cases hb : m < magnitude b
    · rw [maxNum_of_lt ha hm, maxNum_of_lt hb hm, maxNum_comm]
    · rw [maxNum_of_lt ha hm, maxNum_of_not_lt hb hm, maxNum_of_lt ha hm,
        maxNum_of_not_lt_of_lt ha hb]
    · rw [maxNum_of_not_lt ha hm, maxNum_of_lt hb hm, maxNum_of_not_lt_of_lt hb ha]
    · rw [maxNum_of_not_lt ha hm, maxNum_of_not_lt hb hm, maxNum_of_not_lt ha hm]

theorem largest_perm {as bs : List α} (h : as.Perm bs) : largest as = largest bs :=
  h.foldl_eq' (fun a _ b _ m => maxNum_right_comm m a b) 0

end LawfulMax

end

/-! ### Exact arithmetic -/

namespace Extended

variable {a b c : Extended}

theorem ne_undefined_of_lt (h : a < b) : a ≠ undefined ∧ b ≠ undefined := by
  constructor
  · rintro rfl
    exact absurd h Bool.false_ne_true
  · rintro rfl
    cases a <;> exact absurd h Bool.false_ne_true

protected theorem lt_trans (h : a < b) (h' : b < c) : a < c := by
  have ha := (ne_undefined_of_lt h).1
  obtain ⟨hb, hc⟩ := ne_undefined_of_lt h'
  by_contra hca
  -- otherwise `b` would be below itself
  have hle := Extended.le_trans (Extended.le_of_lt h') ((Extended.not_lt ha hc).1 hca)
  exact (Extended.not_lt ha hb).2 hle h

theorem eq_of_not_lt (ha : a ≠ undefined) (hb : b ≠ undefined) (h : ¬ a < b) (h' : ¬ b < a) :
    a = b := by
  cases a with
  | undefined => exact absurd rfl ha
  | bottom =>
    cases b with
    | undefined => exact absurd rfl hb
    | bottom => rfl
    | finite | top => exact absurd rfl h
  | top =>
    cases b with
    | undefined => exact absurd rfl hb
    | top => rfl
    | finite | bottom => exact absurd rfl h'
  | finite p =>
    cases b with
    | undefined => exact absurd rfl hb
    | bottom => exact absurd rfl h'
    | top => exact absurd rfl h
    | finite q =>
      rw [finite_lt_finite, not_lt] at h h'
      rw [le_antisymm h' h]

theorem maxNum_comm (a b : Extended) : maxNum a b = maxNum b a := by
  have hdef : ∀ {c : Extended}, c ≠ undefined → isNaN c = false := fun hc =>
    Bool.eq_false_iff.2 fun hnan => hc (isNaN_iff.1 hnan)
  by_cases ha : a = undefined
  · by_cases hb : b = undefined
    · rw [ha, hb]
    · rw [maxNum_of_isNaN (isNaN_iff.2 ha), maxNum_of_not_lt (fun h => (ne_undefined_of_lt h).2 ha)
        (hdef hb)]
  by_cases hb : b = undefined
  · rw [maxNum_of_isNaN (isNaN_iff.2 hb), maxNum_of_not_lt (fun h => (ne_undefined_of_lt h).2 hb)
      (hdef ha)]
  by_cases hab : a < b
  · have hba : ¬ b < a := fun hba => Extended.lt_irrefl a (Extended.lt_trans hab hba)
    rw [maxNum_of_lt hab (hdef ha), maxNum_of_not_lt hba (hdef hb)]
  by_cases hba : b < a
  · rw [maxNum_of_not_lt hab (hdef ha), maxNum_of_lt hba (hdef hb)]
  · rw [eq_of_not_lt ha hb hab hba]

instance : LawfulMax Extended where
  lt_trans := Extended.lt_trans
  isNaN_of_lt h := Bool.eq_false_iff.2 fun hnan => (ne_undefined_of_lt h).2 (isNaN_iff.1 hnan)
  maxNum_comm _ _ := maxNum_comm _ _

end Extended

end LpPresolve
