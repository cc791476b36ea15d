import LpPresolve.Proofs.Optimality.Conditions
import Mathlib.Algebra.Order.BigOperators.Group.Finset

/-! Duality of linear programs with bounds. The multipliers of the constraints and of the finite bounds
of a feasible dual point give a lower bound on the objective, and a feasible point of a program stands
for one of every image with the same objective value. -/

namespace LpPresolve

open Extended

/-- A multiplier weighs its constraint in the right direction. -/
theorem ConstraintType.mul_nonpos_of_signs (t : ConstraintType) {s y : Rat}
    (hs : t.SlackSign s) (hy : t.MultiplierSign y) : s * y ≤ 0 := by
  cases t with
  | equal => exact (show s = 0 from hs) ▸ (zero_mul y).le
  | lessEqual => exact mul_nonpos_of_nonneg_of_nonpos hs hy
  | greaterEqual => exact mul_nonpos_of_nonpos_of_nonneg hs hy

namespace Program

/-- The point meets the constraints and the bounds. -/
@[mk_iff]
structure Feasible (P : Program Extended) (x : Nat → Rat) : Prop where
  row : ∀ i < P.numConstr, ∀ t ∈ P.types[i]?, t.SlackSign (P.rhs.value i - P.A.rowDot i x)
  bounds : ∀ j < P.numVar, P.lb.entry j ≤ finite (x j) ∧ finite (x j) ≤ P.ub.entry j

instance (P : Program Extended) (x : Nat → Rat) : Decidable (P.Feasible x) :=
  decidable_of_iff _ (P.feasible_iff x).symm

/-- The multipliers of the constraints and those of the lower and upper bounds add up to the
objective, and no infinite bound has a multiplier. -/
structure DualFeasible (P : Program Extended) (y zl zu : Nat → Rat) : Prop where
  column : ∀ j < P.numVar, P.A.colDot j y + zl j - zu j = P.obj.value j
  sign : ∀ i < P.numConstr, ∀ t ∈ P.types[i]?, t.MultiplierSign (y i)
  lower : ∀ j < P.numVar, 0 ≤ zl j ∧ (Scalar.isFinite (P.lb.entry j) = false → zl j = 0)
  upper : ∀ j < P.numVar, 0 ≤ zu j ∧ (Scalar.isFinite (P.ub.entry j) = false → zu j = 0)

/-- The objective value `obj' x`, without the offset. -/
def value (P : Program Extended) (x : Nat → Rat) : Rat :=
  ∑ j ∈ Finset.range P.numVar, P.obj.value j * x j

/-- The dual objective value `rhs' y + lb' zl - ub' zu` over the finite bounds, without the
offset. -/
def dualValue (P : Program Extended) (y zl zu : Nat → Rat) : Rat :=
  ∑ i ∈ Finset.range P.numConstr, P.rhs.value i * y i +
    ∑ j ∈ Finset.range P.numVar with Scalar.isFinite (P.lb.entry j) = true,
      P.lb.value j * zl j -
    ∑ j ∈ Finset.range P.numVar with Scalar.isFinite (P.ub.entry j) = true,
      P.ub.value j * zu j

/-! ### Weak duality -/

/-- Infinite bounds count as zero. -/
theorem sum_finite_eq (bounds : Vec Extended) (n : Nat) (f : Nat → Rat) :
    ∑ j ∈ Finset.range n with Scalar.isFinite (bounds.entry j) = true, bounds.value j * f j =
      ∑ j ∈ Finset.range n, bounds.value j * f j := by
  apply Finset.sum_filter_of_ne
  intro j _ hne
  by_contra hinf
  rw [Vec.value, value_of_not_finite (by simpa using hinf), zero_mul] at hne
  exact hne rfl

/-- The dual objective value of a feasible dual point is at most the objective value of a feasible
point. -/
theorem dualValue_le_value {P : Program Extended} (hP : P.Exact) {x y zl zu : Nat → Rat}
    (hx : P.Feasible x) (hy : P.DualFeasible y zl zu) : P.dualValue y zl zu ≤ P.value x := by
  have hrows : ∀ i ∈ Finset.range P.numConstr, P.rhs.value i * y i ≤ P.A.rowDot i x * y i := by
    intro i hi
    have hi := Finset.mem_range.1 hi
    have ht := Array.getElem?_eq_getElem (hP.size_types.symm ▸ hi)
    have hle := ConstraintType.mul_nonpos_of_signs _ (hx.row i hi _ ht) (hy.sign i hi _ ht)
    rwa [sub_mul, sub_nonpos] at hle
  have hlower : ∀ j ∈ Finset.range P.numVar, P.lb.value j * zl j ≤ zl j * x j := by
    intro j hj
    have hj := Finset.mem_range.1 hj
    obtain ⟨hnonneg, hzero⟩ := hy.lower j hj
    by_cases hfin : Scalar.isFinite (P.lb.entry j) = true
    · have hle := (hx.bounds j hj).1
      rw [eq_finite_value hfin, finite_le_finite] at hle
      rw [mul_comm]
      exact mul_le_mul_of_nonneg_left hle hnonneg
    · rw [hzero (by simpa using hfin), mul_zero, zero_mul]
  have hupper : ∀ j ∈ Finset.range P.numVar, zu j * x j ≤ P.ub.value j * zu j := by
    intro j hj
    have hj := Finset.mem_range.1 hj
    obtain ⟨hnonneg, hzero⟩ := hy.upper j hj
    by_cases hfin : Scalar.isFinite (P.ub.entry j) = true
    · have hle := (hx.bounds j hj).2
      rw [eq_finite_value hfin, finite_le_finite] at hle
      rw [mul_comm _ (zu j)]
      exact mul_le_mul_of_nonneg_left hle hnonneg
    · rw [hzero (by simpa using hfin), mul_zero, zero_mul]
  calc P.dualValue y zl zu
      = ∑ i ∈ Finset.range P.numConstr, P.rhs.value i * y i +
          ∑ j ∈ Finset.range P.numVar, P.lb.value j * zl j -
            ∑ j ∈ Finset.range P.numVar, P.ub.value j * zu j := by
        rw [dualValue, sum_finite_eq, sum_finite_eq]
    _ ≤ ∑ i ∈ Finset.range P.numConstr, P.A.rowDot i x * y i +
          ∑ j ∈ Finset.range P.numVar, zl j * x j - ∑ j ∈ Finset.range P.numVar, zu j * x j :=
        sub_le_sub (add_le_add (Finset.sum_le_sum hrows) (Finset.sum_le_sum hlower))
          (Finset.sum_le_sum hupper)
    _ = ∑ j ∈ Finset.range P.numVar, (P.A.colDot j y + zl j - zu j) * x j := by
        have hswap := Csc.sum_colDot_mul P.A x y
        simp only [sub_mul, add_mul, Finset.sum_sub_distrib, Finset.sum_add_distrib]
        rw [show ∑ j ∈ Finset.range P.numVar, P.A.colDot j y * x j = _ from hswap]
        rfl
    _ = P.value x :=
        Finset.sum_congr rfl fun j hj => by rw [hy.column j (Finset.mem_range.1 hj)]

/-! ### Images -/

namespace Image

variable {P Q : Program Extended} {r d : Nat → Rat}

theorem feasible_iff (h : P.Image Q r d) {x x' : Nat → Rat}
    (hx : ∀ j < P.numVar, x' j * d j = x j) : Q.Feasible x' ↔ P.Feasible x := by
  have hm := h.numConstr_eq
  have hn := h.numVar_eq
  have hrow : ∀ i < P.numConstr,
      (∀ t ∈ P.types[i]?, t.SlackSign (Q.rhs.value i - Q.A.rowDot i x')) ↔
        ∀ t ∈ P.types[i]?, t.SlackSign (P.rhs.value i - P.A.rowDot i x) := fun i hi => by
    simp only [h.rhs i hi, h.rowDot_eq hi hx, ← mul_sub,
      ConstraintType.slackSign_mul_iff (h.row_pos i hi)]
  rw [Program.feasible_iff, Program.feasible_iff, hm, hn, h.types_eq]
  exact and_congr (forall₂_congr hrow) (forall₂_congr fun j hj => h.bounds_iff hj (hx j hj))

theorem value_eq (h : P.Image Q r d) {x x' : Nat → Rat}
    (hx : ∀ j < P.numVar, x' j * d j = x j) : Q.value x' = P.value x := by
  unfold Program.value
  rw [h.numVar_eq]
  apply Finset.sum_congr rfl
  intro j hj
  have hj := Finset.mem_range.1 hj
  rw [h.obj j hj, ← hx j hj]
  ring

end Image

end Program

end LpPresolve
