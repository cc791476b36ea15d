import LpPresolve.Proofs.Exact.Scaling

/-! Optimality conditions of a linear program: the equations and bounds of the primal and the dual
side, and complementary slackness. A point meets those of a program if and only if its image meets
those of an image of the program. -/

namespace LpPresolve

open Extended

namespace ConstraintType

/-- The sign of the slack of a constraint. -/
def SlackSign : ConstraintType → Rat → Prop
  | equal, s => s = 0
  | lessEqual, s => 0 ≤ s
  | greaterEqual, s => s ≤ 0

/-- The sign of the multiplier of a constraint. -/
def MultiplierSign : ConstraintType → Rat → Prop
  | equal, _ => True
  | lessEqual, y => y ≤ 0
  | greaterEqual, y => 0 ≤ y

instance (t : ConstraintType) (s : Rat) : Decidable (t.SlackSign s) :=
  match t with
  | equal => inferInstanceAs (Decidable (s = 0))
  | lessEqual => inferInstanceAs (Decidable (0 ≤ s))
  | greaterEqual => inferInstanceAs (Decidable (s ≤ 0))

instance (t : ConstraintType) (y : Rat) : Decidable (t.MultiplierSign y) :=
  match t with
  | equal => inferInstanceAs (Decidable True)
  | lessEqual => inferInstanceAs (Decidable (y ≤ 0))
  | greaterEqual => inferInstanceAs (Decidable (0 ≤ y))

theorem slackSign_mul_iff {r : Rat} (hr : 0 < r) (t : ConstraintType) (s : Rat) :
    t.SlackSign (r * s) ↔ t.SlackSign s := by
  cases t with
  | equal => simp [SlackSign, hr.ne']
  | lessEqual => exact mul_nonneg_iff_of_pos_left hr
  | greaterEqual => rw [SlackSign, SlackSign, ← not_lt, ← not_lt, mul_pos_iff_of_pos_left hr]

theorem multiplierSign_mul_iff {r : Rat} (hr : 0 < r) (t : ConstraintType) (y : Rat) :
    t.MultiplierSign (r * y) ↔ t.MultiplierSign y := by
  cases t with
  | equal => rfl
  | lessEqual => rw [MultiplierSign, MultiplierSign, ← not_lt, ← not_lt, mul_pos_iff_of_pos_left hr]
  | greaterEqual => exact mul_nonneg_iff_of_pos_left hr

end ConstraintType

namespace Program

/-- The optimality conditions `A x + slack = rhs`, `lb <= x <= ub` and `A' y + z = obj` with the
signs of slacks and multipliers. A reduced cost is positive only at a lower and negative only at an
upper bound, and a multiplier is nonzero only for a constraint without slack. -/
@[mk_iff]
structure OptimalAt (P : Program Extended) (x slack y z : Nat → Rat) : Prop where
  row : ∀ i < P.numConstr, P.A.rowDot i x + slack i = P.rhs.value i
  bounds : ∀ j < P.numVar, P.lb.entry j ≤ finite (x j) ∧ finite (x j) ≤ P.ub.entry j
  slack_sign : ∀ i < P.numConstr, ∀ t ∈ P.types[i]?, t.SlackSign (slack i)
  column : ∀ j < P.numVar, P.A.colDot j y + z j = P.obj.value j
  multiplier_sign : ∀ i < P.numConstr, ∀ t ∈ P.types[i]?, t.MultiplierSign (y i)
  at_bound : ∀ j < P.numVar,
    (0 < z j → finite (x j) = P.lb.entry j) ∧ (z j < 0 → finite (x j) = P.ub.entry j)
  tight : ∀ i < P.numConstr, y i ≠ 0 → slack i = 0

/-- The conditions at the values of a point. -/
def Optimal (P : Program Extended) (u : UserPoint Extended) : Prop :=
  P.OptimalAt u.x.value u.slack.value u.y.value u.z.value

instance (P : Program Extended) (x slack y z : Nat → Rat) :
    Decidable (P.OptimalAt x slack y z) :=
  decidable_of_iff _ (P.optimalAt_iff x slack y z).symm

instance (P : Program Extended) (u : UserPoint Extended) : Decidable (P.Optimal u) :=
  inferInstanceAs (Decidable (P.OptimalAt _ _ _ _))

/-- Only the values of the variables and constraints matter. -/
theorem OptimalAt.congr {P : Program Extended} {x slack y z x' slack' y' z' : Nat → Rat}
    (h : P.OptimalAt x slack y z) (hx : ∀ j < P.numVar, x' j = x j)
    (hslack : ∀ i < P.numConstr, slack' i = slack i) (hy : ∀ i < P.numConstr, y' i = y i)
    (hz : ∀ j < P.numVar, z' j = z j) : P.OptimalAt x' slack' y' z' where
  row i hi := by rw [Csc.rowDot_congr hx, hslack i hi, h.row i hi]
  bounds j hj := by rw [hx j hj]; exact h.bounds j hj
  slack_sign i hi := by rw [hslack i hi]; exact h.slack_sign i hi
  column j hj := by rw [Csc.colDot_congr hy, hz j hj, h.column j hj]
  multiplier_sign i hi := by rw [hy i hi]; exact h.multiplier_sign i hi
  at_bound j hj := by rw [hx j hj, hz j hj]; exact h.at_bound j hj
  tight i hi := by rw [hy i hi, hslack i hi]; exact h.tight i hi

namespace Image

variable {P Q : Program Extended} {r d : Nat → Rat}

/-- Bounds are kept, if need be by exchanging them. -/
theorem bounds_iff (h : P.Image Q r d) {j : Nat} (hj : j < P.numVar) {x x' : Rat}
    (hx : x' * d j = x) :
    (Q.lb.entry j ≤ finite x' ∧ finite x' ≤ Q.ub.entry j) ↔
      (P.lb.entry j ≤ finite x ∧ finite x ≤ P.ub.entry j) := by
  rw [h.lb j hj, h.ub j hj]
  by_cases hd : 0 < d j
  · rw [if_pos hd, if_pos hd, div_le_finite_iff_of_pos hd, finite_le_div_iff_of_pos hd, hx]
  · have hneg := lt_of_le_of_ne (not_lt.1 hd) (h.col_ne j hj)
    rw [if_neg hd, if_neg hd, div_le_finite_iff_of_neg hneg, finite_le_div_iff_of_neg hneg, hx,
      and_comm]

/-- A reduced cost keeps to the bound it belongs to. -/
theorem complementary_iff (h : P.Image Q r d) {j : Nat} (hj : j < P.numVar) {x x' z z' : Rat}
    (hx : x' * d j = x) (hz : z' = z * d j) :
    ((0 < z' → finite x' = Q.lb.entry j) ∧ (z' < 0 → finite x' = Q.ub.entry j)) ↔
      ((0 < z → finite x = P.lb.entry j) ∧ (z < 0 → finite x = P.ub.entry j)) := by
  have hne := h.col_ne j hj
  have heq : ∀ l : Extended, finite x' = l / finite (d j) ↔ finite x = l := fun l => by
    rw [eq_comm, div_eq_finite_iff hne, hx, eq_comm]
  rw [h.lb j hj, h.ub j hj, heq, heq, hz]
  by_cases hd : 0 < d j
  · have hz : z * d j < 0 ↔ z < 0 := by
      rw [← not_le, ← not_le, mul_nonneg_iff_of_pos_right hd]
    rw [if_pos hd, if_pos hd, mul_pos_iff_of_pos_right hd, hz]
  · have hneg := neg_pos.2 (lt_of_le_of_ne (not_lt.1 hd) hne)
    have hz : z * d j < 0 ↔ 0 < z := by
      rw [← neg_pos, ← mul_neg, mul_pos_iff_of_pos_right hneg]
    have hz' : 0 < z * d j ↔ z < 0 := by
      rw [← neg_mul_neg, mul_pos_iff_of_pos_right hneg, neg_pos]
    rw [if_neg hd, if_neg hd, hz, hz', and_comm]

theorem optimal_iff (h : P.Image Q r d) {p q : UserPoint Extended}
    (hpq : p.Image q P.numVar P.numConstr r d) : Q.Optimal q ↔ P.Optimal p := by
  have hm := h.numConstr_eq
  have hn := h.numVar_eq
  have hrow : ∀ i < P.numConstr,
      Q.A.rowDot i q.x.value + q.slack.value i = Q.rhs.value i ↔
        P.A.rowDot i p.x.value + p.slack.value i = P.rhs.value i := fun i hi => by
    rw [h.rowDot_eq hi hpq.x, hpq.slack i hi, h.rhs i hi, ← mul_add,
      mul_right_inj' (h.row_pos i hi).ne']
  have hcolumn : ∀ j < P.numVar,
      Q.A.colDot j q.y.value + q.z.value j = Q.obj.value j ↔
        P.A.colDot j p.y.value + p.z.value j = P.obj.value j := fun j hj => by
    rw [h.colDot_eq hj hpq.y, hpq.z j hj, h.obj j hj, ← add_mul,
      mul_left_inj' (h.col_ne j hj)]
  have hslack : ∀ i < P.numConstr, (∀ t ∈ P.types[i]?, t.SlackSign (q.slack.value i)) ↔
      ∀ t ∈ P.types[i]?, t.SlackSign (p.slack.value i) := fun i hi => by
    simp only [hpq.slack i hi, ConstraintType.slackSign_mul_iff (h.row_pos i hi)]
  have hmult : ∀ i < P.numConstr, (∀ t ∈ P.types[i]?, t.MultiplierSign (q.y.value i)) ↔
      ∀ t ∈ P.types[i]?, t.MultiplierSign (p.y.value i) := fun i hi => by
    simp only [← hpq.y i hi, ConstraintType.multiplierSign_mul_iff (h.row_pos i hi)]
  have htight : ∀ i < P.numConstr, (q.y.value i ≠ 0 → q.slack.value i = 0) ↔
      (p.y.value i ≠ 0 → p.slack.value i = 0) := fun i hi => by
    have hr := (h.row_pos i hi).ne'
    rw [← hpq.y i hi, hpq.slack i hi, mul_ne_zero_iff, and_iff_right hr, mul_eq_zero,
      or_iff_right hr]
  rw [Optimal, Optimal, optimalAt_iff, optimalAt_iff, hm, hn, h.types_eq]
  refine and_congr (forall₂_congr hrow) <| and_congr (forall₂_congr fun j hj => ?_) <|
    and_congr (forall₂_congr hslack) <| and_congr (forall₂_congr hcolumn) <|
      and_congr (forall₂_congr hmult) <| and_congr (forall₂_congr fun j hj => ?_)
        (forall₂_congr htight)
  · exact h.bounds_iff hj (hpq.x j hj)
  · exact h.complementary_iff hj (hpq.x j hj) (hpq.z j hj)

end Image

end Program

end LpPresolve
