import LpPresolve.Proofs.Exact.Forms
import LpPresolve.Proofs.Optimality.Conditions
import LpPresolve.Proofs.Transfer.Point

/-! Iterates that solve a form, and optimal points of the scaled program. The four measures of the
primal form vanish at exactly the points that an optimal point of the scaled program extends to. In
the dual form the solver's variables are multipliers: their bounds say which signs the multipliers
have, and the signs of the solver's reduced costs that slacks and distances to bounds are
nonnegative, and zero where a multiplier is not. -/

namespace LpPresolve

open Extended

/-! ### Bounds and signs -/

theorem pos_imp_at_lower_iff {l : Extended} (hl : Scalar.isFinite l = true ∨ l = bottom)
    {x z : Rat} (hx : l ≤ finite x) :
    (l < finite x → z ≤ 0) ↔ (0 < z → finite x = l) := by
  rcases hl with hl | rfl
  · rw [eq_finite_value hl] at hx ⊢
    rw [finite_le_finite] at hx
    rw [finite_lt_finite, finite.injEq]
    constructor
    · intro h hz
      by_contra hne
      exact absurd (h (lt_of_le_of_ne hx (Ne.symm hne))) (not_le.2 hz)
    · intro h hlt
      by_contra hz
      exact hlt.ne (h (not_le.1 hz)).symm
  · simp [not_lt]

theorem neg_imp_at_upper_iff {u : Extended} (hu : Scalar.isFinite u = true ∨ u = top)
    {x z : Rat} (hx : finite x ≤ u) :
    (finite x < u → 0 ≤ z) ↔ (z < 0 → finite x = u) := by
  rcases hu with hu | rfl
  · rw [eq_finite_value hu] at hx ⊢
    rw [finite_le_finite] at hx
    rw [finite_lt_finite, finite.injEq]
    constructor
    · intro h hz
      by_contra hne
      exact absurd (h (lt_of_le_of_ne hx hne)) (not_le.2 hz)
    · intro h hlt
      by_contra hz
      exact hlt.ne (h (not_le.1 hz))
  · simp [not_lt]

theorem slack_bounds_iff (t : ConstraintType) (s : Rat) :
    (Form.slackLower t ≤ finite s ∧ finite s ≤ Form.slackUpper t) ↔ t.SlackSign s := by
  cases t with
  | equal =>
    rw [Form.slackLower, Form.slackUpper, zero_eq, finite_le_finite, finite_le_finite,
      ConstraintType.SlackSign]
    exact ⟨fun h => le_antisymm h.2 h.1, fun h => ⟨h.ge, h.le⟩⟩
  | lessEqual =>
    rw [Form.slackLower, Form.slackUpper, zero_eq, finite_le_finite]
    exact and_iff_left (finite_le_top s)
  | greaterEqual =>
    rw [Form.slackLower, Form.slackUpper, zero_eq, finite_le_finite]
    exact and_iff_right (bottom_le_finite s)

theorem multiplier_bounds_iff (t : ConstraintType) (y : Rat) :
    (Form.multiplierLower t ≤ finite y ∧ finite y ≤ Form.multiplierUpper t) ↔
      t.MultiplierSign y := by
  cases t with
  | equal => exact iff_of_true ⟨bottom_le_finite y, finite_le_top y⟩ trivial
  | lessEqual =>
    rw [Form.multiplierLower, Form.multiplierUpper, zero_eq, finite_le_finite]
    exact and_iff_right (bottom_le_finite y)
  | greaterEqual =>
    rw [Form.multiplierLower, Form.multiplierUpper, zero_eq, finite_le_finite]
    exact and_iff_left (finite_le_top y)

/-- The reduced cost of a slack is the negated multiplier of its constraint. -/
theorem slack_reduced_iff {t : ConstraintType} {s : Rat} (hs : t.SlackSign s) (y : Rat) :
    ((Form.slackLower t < finite s → -y ≤ 0) ∧ (finite s < Form.slackUpper t → 0 ≤ -y)) ↔
      t.MultiplierSign y ∧ (y ≠ 0 → s = 0) := by
  cases t with
  | equal =>
    rw [ConstraintType.SlackSign] at hs
    subst hs
    simp [Form.slackLower, Form.slackUpper, zero_eq, ConstraintType.MultiplierSign]
  | lessEqual =>
    rw [ConstraintType.SlackSign] at hs
    rw [Form.slackLower, Form.slackUpper, zero_eq, finite_lt_finite, neg_nonpos,
      neg_nonneg, ConstraintType.MultiplierSign]
    constructor
    · rintro ⟨h₁, h₂⟩
      have hy := h₂ (finite_lt_top s)
      refine ⟨hy, fun hne => ?_⟩
      by_contra hs₀
      exact hne (le_antisymm hy (h₁ (lt_of_le_of_ne hs (Ne.symm hs₀))))
    · rintro ⟨h₁, h₂⟩
      refine ⟨fun hlt => ?_, fun _ => h₁⟩
      by_contra hy
      exact hlt.ne' (h₂ fun h => hy h.ge)
  | greaterEqual =>
    rw [ConstraintType.SlackSign] at hs
    rw [Form.slackLower, Form.slackUpper, zero_eq, finite_lt_finite, neg_nonpos,
      neg_nonneg, ConstraintType.MultiplierSign]
    constructor
    · rintro ⟨h₁, h₂⟩
      have hy := h₁ (bottom_lt_finite s)
      refine ⟨hy, fun hne => ?_⟩
      by_contra hs₀
      exact hne (le_antisymm (h₂ (lt_of_le_of_ne hs hs₀)) hy)
    · rintro ⟨h₁, h₂⟩
      refine ⟨fun _ => h₁, fun hlt => ?_⟩
      by_contra hy
      exact hlt.ne (h₂ fun h => hy h.le)

/-- The reduced cost of a multiplier is the negated slack of its constraint. -/
theorem multiplier_reduced_iff {t : ConstraintType} {y : Rat} (hy : t.MultiplierSign y)
    (s : Rat) :
    ((Form.multiplierLower t < finite y → -s ≤ 0) ∧
      (finite y < Form.multiplierUpper t → 0 ≤ -s)) ↔
        t.SlackSign s ∧ (y ≠ 0 → s = 0) := by
  cases t with
  | equal =>
    have hs : (-s ≤ 0 ∧ 0 ≤ -s) ↔ s = 0 := by
      rw [neg_nonpos, neg_nonneg]
      exact ⟨fun h => le_antisymm h.2 h.1, fun h => ⟨h.ge, h.le⟩⟩
    have hl : (Form.multiplierLower .equal : Extended) < finite y := bottom_lt_finite y
    have hu : finite y < (Form.multiplierUpper .equal : Extended) := finite_lt_top y
    rw [forall_prop_of_true hl, forall_prop_of_true hu, hs, ConstraintType.SlackSign]
    exact (and_iff_left_of_imp fun h _ => h).symm
  | lessEqual =>
    have hl : (Form.multiplierLower .lessEqual : Extended) < finite y := bottom_lt_finite y
    rw [ConstraintType.MultiplierSign] at hy
    rw [forall_prop_of_true hl, Form.multiplierUpper, zero_eq, finite_lt_finite, neg_nonpos,
      neg_nonneg, ConstraintType.SlackSign]
    apply and_congr_right
    intro hs
    constructor
    · exact fun h hne => le_antisymm (h (lt_of_le_of_ne hy hne)) hs
    · exact fun h hlt => (h hlt.ne).le
  | greaterEqual =>
    have hu : finite y < (Form.multiplierUpper .greaterEqual : Extended) := finite_lt_top y
    rw [ConstraintType.MultiplierSign] at hy
    rw [forall_prop_of_true hu, Form.multiplierLower, zero_eq, finite_lt_finite, neg_nonpos,
      neg_nonneg, ConstraintType.SlackSign, and_comm]
    apply and_congr_right
    intro hs
    constructor
    · exact fun h hne => le_antisymm hs (h (lt_of_le_of_ne hy (Ne.symm hne)))
    · exact fun h hlt => (h hlt.ne').ge

/-- The column of a lower bound: its variable is fixed at zero if the bound is infinite, and its
reduced cost is the distance to the bound otherwise. -/
theorem lower_column_iff {l : Extended} (hl : Scalar.isFinite l = true ∨ l = bottom)
    (w x : Rat) :
    ((0 ≤ w ∧ finite w ≤ if Scalar.isFinite l = true then top else finite 0) ∧
      (0 < w → x - l.value ≤ 0) ∧
      (finite w < (if Scalar.isFinite l = true then top else finite 0) → 0 ≤ x - l.value)) ↔
        0 ≤ w ∧ l ≤ finite x ∧ (0 < w → finite x = l) := by
  rcases hl with hl | rfl
  · have hw : finite w ≤ top ∧ finite w < top := ⟨finite_le_top w, finite_lt_top w⟩
    rw [if_pos hl, and_iff_left hw.1, forall_prop_of_true hw.2]
    apply and_congr_right
    intro _
    rw [eq_finite_value hl, finite_le_finite, finite.injEq, value_finite, sub_nonneg, sub_nonpos,
      and_comm]
    apply and_congr_right
    intro hlx
    exact ⟨fun h hw => le_antisymm (h hw) hlx, fun h hw => (h hw).le⟩
  · rw [isFinite_bottom, if_neg Bool.false_ne_true, finite_le_finite, finite_lt_finite]
    constructor
    · rintro ⟨⟨h₁, h₂⟩, -⟩
      exact ⟨h₁, bottom_le_finite x, fun hw => absurd h₂ (not_le.2 hw)⟩
    · rintro ⟨h₁, -, h₂⟩
      have hw : ¬ 0 < w := fun hw => Extended.noConfusion (h₂ hw)
      exact ⟨⟨h₁, not_lt.1 hw⟩, fun h => absurd h hw, fun h => absurd h₁ (not_le.2 h)⟩

namespace Model

variable {M : Model Extended} {s : SolverPoint Extended}

/-! ### Coming back from a form -/

theorem Exact.sized_userPoint (hM : M.Exact) (hs : s.Fits M.rows M.cols) :
    (M.userPoint s).Sized M.program.numVar M.program.numConstr := by
  obtain ⟨hx, hy, hz⟩ := hs
  rw [rows] at hx hy hz
  rw [cols] at hx hz
  rcases hM.regular.form with hF | hF
  · rw [hF.rows_eq, hF.cols_eq] at hx hz
    rw [hF.rows_eq] at hy
    rw [userPoint_primal hF.kind_eq]
    exact ⟨by simp [hx], by simp [hx], hy, by simp [hz]⟩
  · rw [hF.rows_eq, hF.cols_eq] at hx hz
    rw [hF.rows_eq] at hy
    rw [userPoint_dual hF.kind_eq]
    exact ⟨by simp [hy], by simp [hz, Nat.add_assoc], by simp [hx, Nat.add_assoc],
      by simp [hx, cols, hF.cols_eq]⟩

end Model

namespace Form

variable {M : Model Extended} {s : SolverPoint Extended}

/-! ### Primal form -/

namespace IsPrimal

variable (hF : IsPrimal M.program M.scaled M.form) (hM : M.Exact)

include hF hM

theorem row_iff {i : Nat} (hi : i < M.program.numConstr) (x : Nat → Rat) :
    M.form.AI.rowDot i x = M.form.b.value i ↔
      M.scaledProgram.A.rowDot i x + x (M.program.numVar + i) = M.scaledProgram.rhs.value i := by
  rw [hF.rowDot_eq hM hi, hF.b_eq]
  rfl

theorem column_iff {j : Nat} (hj : j < M.program.numVar) (y : Nat → Rat) (z : Rat) :
    M.form.AI.colDot j y + z = M.form.c.value j ↔
      M.scaledProgram.A.colDot j y + z = M.scaledProgram.obj.value j := by
  rw [hF.colDot_variable hM hj, Vec.value_of_entry (hF.entry_c_variable hM hj)]

theorem column_slack_iff {i : Nat} (hi : i < M.program.numConstr) (y : Nat → Rat) (z : Rat) :
    M.form.AI.colDot (M.program.numVar + i) y + z = M.form.c.value (M.program.numVar + i) ↔
      z = -y i := by
  rw [hF.colDot_slack hM hi, Vec.value_of_entry (hF.entry_c_slack hM i), add_comm,
    add_eq_zero_iff_eq_neg]

theorem bounds_slack_iff {i : Nat} {t : ConstraintType} (ht : M.program.types[i]? = some t)
    (s : Rat) :
    (M.form.lb.entry (M.program.numVar + i) ≤ finite s ∧
      finite s ≤ M.form.ub.entry (M.program.numVar + i)) ↔ t.SlackSign s := by
  rw [hF.entry_lb_slack hM ht, hF.entry_ub_slack hM ht, slack_bounds_iff]

theorem reduced_iff {j : Nat} (hj : j < M.program.numVar) {x z : Rat}
    (hx : M.scaledProgram.lb.entry j ≤ finite x ∧ finite x ≤ M.scaledProgram.ub.entry j) :
    ((M.form.lb.entry j < finite x → z ≤ 0) ∧ (finite x < M.form.ub.entry j → 0 ≤ z)) ↔
      ((0 < z → finite x = M.scaledProgram.lb.entry j) ∧
        (z < 0 → finite x = M.scaledProgram.ub.entry j)) := by
  have hj' : j < M.scaledProgram.numVar := hM.image.numVar_eq.symm ▸ hj
  rw [hF.entry_lb_variable hM hj, hF.entry_ub_variable hM hj,
    pos_imp_at_lower_iff (hM.image.target.lower j hj') hx.1,
    neg_imp_at_upper_iff (hM.image.target.upper j hj') hx.2]

theorem reduced_slack_iff {i : Nat} {t : ConstraintType} (ht : M.program.types[i]? = some t)
    {s y z : Rat} (hs : t.SlackSign s) (hz : z = -y) :
    ((M.form.lb.entry (M.program.numVar + i) < finite s → z ≤ 0) ∧
      (finite s < M.form.ub.entry (M.program.numVar + i) → 0 ≤ z)) ↔
        t.MultiplierSign y ∧ (y ≠ 0 → s = 0) := by
  rw [hF.entry_lb_slack hM ht, hF.entry_ub_slack hM ht, hz, slack_reduced_iff hs]

/-- A point solves the primal form if and only if its parts are an optimal point of the scaled
program and the reduced costs of the slacks are the negated multipliers. -/
theorem solved_iff (hs : s.Fits M.rows M.cols) (hf : s.Finite) :
    M.form.Solved s ↔
      M.scaledProgram.OptimalAt s.x.value (fun i => s.x.value (M.program.numVar + i)) s.y.value
        s.z.value ∧
      ∀ i < M.program.numConstr, s.z.value (M.program.numVar + i) = -s.y.value i := by
  have hm : M.scaledProgram.numConstr = M.program.numConstr := hM.image.numConstr_eq
  have hn : M.scaledProgram.numVar = M.program.numVar := hM.image.numVar_eq
  have hbounds : ∀ j < M.program.numVar,
      M.form.lb.entry j = M.scaledProgram.lb.entry j ∧
        M.form.ub.entry j = M.scaledProgram.ub.entry j := fun j hj =>
    ⟨hF.entry_lb_variable hM hj, hF.entry_ub_variable hM hj⟩
  rw [(hF.exact hM).solved_iff hs hf, hF.cols_add_rows, hF.rows_eq, forall_lt_add_iff_lt_left,
    forall_lt_add_iff_lt_left, forall_lt_add_iff_lt_left]
  simp only [Vec.entry_eq_finite hf.x]
  constructor
  · rintro ⟨hrow, ⟨hcolumn, hcost⟩, ⟨hx, hslack⟩, hreduced, htight⟩
    have hz := fun i hi => (hF.column_slack_iff hM hi _ _).1 (hcost i hi)
    have hb : ∀ j < M.program.numVar, M.scaledProgram.lb.entry j ≤ finite (s.x.value j) ∧
        finite (s.x.value j) ≤ M.scaledProgram.ub.entry j := fun j hj => by
      rw [← (hbounds j hj).1, ← (hbounds j hj).2]
      exact hx j hj
    have hs := fun i hi t ht => (hF.bounds_slack_iff hM (t := t) ht _).1 (hslack i hi)
    have hr := fun i hi t ht =>
      (hF.reduced_slack_iff hM ht (hs i hi t ht) (hz i hi)).1 (htight i hi)
    refine ⟨?_, hz⟩
    exact {
      row := fun i hi => (hF.row_iff hM (hm ▸ hi) _).1 (hrow i (hm ▸ hi))
      bounds := fun j hj => hb j (hn ▸ hj)
      slack_sign := fun i hi => hs i (hm ▸ hi)
      column := fun j hj => (hF.column_iff hM (hn ▸ hj) _ _).1 (hcolumn j (hn ▸ hj))
      multiplier_sign := fun i hi t ht => (hr i (hm ▸ hi) t ht).1
      at_bound := fun j hj =>
        (hF.reduced_iff hM (hn ▸ hj) (hb j (hn ▸ hj))).1 (hreduced j (hn ▸ hj))
      tight := fun i hi =>
        (hM.regular.valid.exists_type (hm ▸ hi)).elim fun t ht => (hr i (hm ▸ hi) t ht).2 }
  · rintro ⟨hopt, hz⟩
    have hb := fun j (hj : j < M.program.numVar) => hopt.bounds j (hn.symm ▸ hj)
    refine ⟨fun i hi => (hF.row_iff hM hi _).2 (hopt.row i (hm.symm ▸ hi)),
      ⟨fun j hj => (hF.column_iff hM hj _ _).2 (hopt.column j (hn.symm ▸ hj)),
        fun i hi => (hF.column_slack_iff hM hi _ _).2 (hz i hi)⟩,
      ⟨fun j hj => ?_, fun i hi => ?_⟩,
      fun j hj => (hF.reduced_iff hM hj (hb j hj)).2 (hopt.at_bound j (hn.symm ▸ hj)),
      fun i hi => ?_⟩
    · rw [(hbounds j hj).1, (hbounds j hj).2]
      exact hb j hj
    · obtain ⟨t, ht⟩ := hM.regular.valid.exists_type hi
      exact (hF.bounds_slack_iff hM ht _).2 (hopt.slack_sign i (hm.symm ▸ hi) t ht)
    · obtain ⟨t, ht⟩ := hM.regular.valid.exists_type hi
      exact (hF.reduced_slack_iff hM ht (hopt.slack_sign i (hm.symm ▸ hi) t ht) (hz i hi)).2
        ⟨hopt.multiplier_sign i (hm.symm ▸ hi) t ht, hopt.tight i (hm.symm ▸ hi)⟩

end IsPrimal

/-! ### Dual form -/

/-- What the measures of the dual form say about variables `x`, multipliers `w` and reduced costs
`z`, column block by column block. -/
structure DualConditions (M : Model Extended) (x w z : Nat → Rat) : Prop where
  column : ∀ j < M.program.numVar,
    M.scaledProgram.A.colDot j w - upperPart M.program M.program.numConstr w j +
      w (M.program.numConstr + M.program.boxed.length + j) = M.scaledProgram.obj.value j
  row : ∀ i < M.program.numConstr,
    M.scaledProgram.A.rowDot i x - z i = M.scaledProgram.rhs.value i
  upper_cost : ∀ k (hk : k < M.program.boxed.length), z (M.program.numConstr + k) =
    M.scaledProgram.ub.value M.program.boxed[k] - x M.program.boxed[k]
  lower_cost : ∀ j < M.program.numVar,
    z (M.program.numConstr + M.program.boxed.length + j) = x j - M.scaledProgram.lb.value j
  constraint : ∀ i < M.program.numConstr, ∀ t, M.program.types[i]? = some t →
    t.MultiplierSign (w i) ∧ t.SlackSign (-z i) ∧ (w i ≠ 0 → -z i = 0)
  upper : ∀ k (hk : k < M.program.boxed.length), 0 ≤ w (M.program.numConstr + k) ∧
    x M.program.boxed[k] ≤ M.scaledProgram.ub.value M.program.boxed[k] ∧
      (0 < w (M.program.numConstr + k) →
        x M.program.boxed[k] = M.scaledProgram.ub.value M.program.boxed[k])
  lower : ∀ j < M.program.numVar, 0 ≤ w (M.program.numConstr + M.program.boxed.length + j) ∧
    M.scaledProgram.lb.entry j ≤ finite (x j) ∧
      (0 < w (M.program.numConstr + M.program.boxed.length + j) →
        finite (x j) = M.scaledProgram.lb.entry j)

namespace IsDual

variable (hF : IsDual M.program M.scaled M.form) (hM : M.Exact)

include hM

/-- The scaled upper bound of a boxed variable. -/
theorem entry_ub_boxed {j : Nat} (hj : j ∈ M.program.boxed) :
    M.scaledProgram.ub.entry j = finite (M.scaledProgram.ub.value j) :=
  eq_finite_value ((hM.isFinite_upper_iff (hM.regular.valid.lt_of_mem_boxed hj)).2 hj)

theorem entry_ub_not_boxed {j : Nat} (hj : j < M.program.numVar) (hb : j ∉ M.program.boxed) :
    M.scaledProgram.ub.entry j = top :=
  (hM.image.target.upper j (hM.image.numVar_eq.symm ▸ hj)).resolve_left fun h =>
    hb ((hM.isFinite_upper_iff hj).1 h)

include hF

/-- The equation of a column of the scaled program. -/
theorem row_iff {j : Nat} (hj : j < M.program.numVar) (w : Nat → Rat) :
    M.form.AI.rowDot j w = M.form.b.value j ↔
      M.scaledProgram.A.colDot j w - upperPart M.program M.program.numConstr w j +
        w (M.program.numConstr + M.program.boxed.length + j) = M.scaledProgram.obj.value j := by
  rw [hF.rowDot_eq hM hj, hF.b_eq]
  rfl

theorem column_iff {i : Nat} (hi : i < M.program.numConstr) (y : Nat → Rat) (z : Rat) :
    M.form.AI.colDot i y + z = M.form.c.value i ↔
      M.scaledProgram.A.rowDot i (fun j => -y j) - z = M.scaledProgram.rhs.value i := by
  rw [hF.colDot_row hM hi, Vec.value_of_entry (hF.entry_c_row hM hi), Csc.rowDot_neg]
  constructor <;> intro h <;> linarith

theorem column_upper_iff {k : Nat} (hk : k < M.program.boxed.length) (y : Nat → Rat) (z : Rat) :
    M.form.AI.colDot (M.program.numConstr + k) y + z =
        M.form.c.value (M.program.numConstr + k) ↔
      z = M.scaledProgram.ub.value M.program.boxed[k] - -y M.program.boxed[k] := by
  rw [hF.colDot_upper hM hk, Vec.value_of_entry (hF.entry_c_upper hM hk)]
  constructor <;> intro h <;> linarith

theorem column_lower_iff {j : Nat} (hj : j < M.program.numVar) (y : Nat → Rat) (z : Rat) :
    M.form.AI.colDot (M.program.numConstr + M.program.boxed.length + j) y + z =
        M.form.c.value (M.program.numConstr + M.program.boxed.length + j) ↔
      z = -y j - M.scaledProgram.lb.value j := by
  rw [hF.colDot_lower hM hj, Vec.value_of_entry (hF.entry_c_lower hM hj)]
  constructor <;> intro h <;> linarith

omit hM in
theorem bounds_row_iff {i : Nat} {t : ConstraintType} (ht : M.program.types[i]? = some t)
    (w : Rat) :
    (M.form.lb.entry i ≤ finite w ∧ finite w ≤ M.form.ub.entry i) ↔ t.MultiplierSign w := by
  rw [hF.entry_lb_row ht, hF.entry_ub_row ht, multiplier_bounds_iff]

theorem bounds_upper_iff {k : Nat} (hk : k < M.program.boxed.length) (w : Rat) :
    (M.form.lb.entry (M.program.numConstr + k) ≤ finite w ∧
      finite w ≤ M.form.ub.entry (M.program.numConstr + k)) ↔ 0 ≤ w := by
  rw [hF.entry_lb_bound hM, hF.entry_ub_upper hM hk, finite_le_finite]
  exact and_iff_left (finite_le_top w)

omit hM in
theorem reduced_row_iff {i : Nat} {t : ConstraintType} (ht : M.program.types[i]? = some t)
    {w : Rat} (hw : t.MultiplierSign w) (z : Rat) :
    ((M.form.lb.entry i < finite w → z ≤ 0) ∧ (finite w < M.form.ub.entry i → 0 ≤ z)) ↔
      t.SlackSign (-z) ∧ (w ≠ 0 → -z = 0) := by
  have h := multiplier_reduced_iff hw (-z)
  rw [neg_neg] at h
  rw [hF.entry_lb_row ht, hF.entry_ub_row ht, h]

theorem reduced_upper_iff {k : Nat} (hk : k < M.program.boxed.length) (w x u : Rat) :
    ((M.form.lb.entry (M.program.numConstr + k) < finite w → u - x ≤ 0) ∧
      (finite w < M.form.ub.entry (M.program.numConstr + k) → 0 ≤ u - x)) ↔
        x ≤ u ∧ (0 < w → x = u) := by
  rw [hF.entry_lb_bound hM, hF.entry_ub_upper hM hk, finite_lt_finite,
    forall_prop_of_true (finite_lt_top w), sub_nonpos, sub_nonneg, and_comm]
  exact and_congr_right fun hle => ⟨fun h hw => le_antisymm hle (h hw), fun h hw => (h hw).ge⟩

theorem lower_iff {j : Nat} (hj : j < M.program.numVar) (w x : Rat) :
    ((M.form.lb.entry (M.program.numConstr + M.program.boxed.length + j) ≤ finite w ∧
        finite w ≤ M.form.ub.entry (M.program.numConstr + M.program.boxed.length + j)) ∧
      (M.form.lb.entry (M.program.numConstr + M.program.boxed.length + j) < finite w →
        x - M.scaledProgram.lb.value j ≤ 0) ∧
      (finite w < M.form.ub.entry (M.program.numConstr + M.program.boxed.length + j) →
        0 ≤ x - M.scaledProgram.lb.value j)) ↔
      0 ≤ w ∧ M.scaledProgram.lb.entry j ≤ finite x ∧
        (0 < w → finite x = M.scaledProgram.lb.entry j) := by
  rw [hF.entry_ub_lower hM hj, Nat.add_assoc, hF.entry_lb_bound hM, finite_le_finite,
    finite_lt_finite]
  exact lower_column_iff (hM.image.target.lower j (hM.image.numVar_eq.symm ▸ hj)) w x

/-- A point solves the dual form if and only if its variables are multipliers that meet the
conditions together with the negated multipliers of its rows. -/
theorem solved_iff (hs : s.Fits M.rows M.cols) (hf : s.Finite) :
    M.form.Solved s ↔ DualConditions M (fun j => -s.y.value j) s.x.value s.z.value := by
  rw [(hF.exact hM).solved_iff hs hf, hF.cols_add_rows, hF.rows_eq, forall_lt_add_iff_lt_left,
    forall_lt_add_iff_lt_left, forall_lt_add_iff_lt_left, forall_lt_add_iff_lt_left,
    forall_lt_add_iff_lt_left, forall_lt_add_iff_lt_left]
  simp only [Vec.entry_eq_finite hf.x]
  constructor
  · rintro ⟨hrow, ⟨⟨hcolumn, hu⟩, hl⟩, ⟨⟨hmult, hxu⟩, hxl⟩, ⟨hslack, hzu⟩, hzl⟩
    have hcu := fun k hk => (hF.column_upper_iff hM hk _ _).1 (hu k hk)
    have hcl := fun j hj => (hF.column_lower_iff hM hj _ _).1 (hl j hj)
    refine ⟨fun j hj => (hF.row_iff hM hj _).1 (hrow j hj),
      fun i hi => (hF.column_iff hM hi _ _).1 (hcolumn i hi), hcu, hcl, fun i hi t ht => ?_,
      fun k hk => ?_, fun j hj => ?_⟩
    · have hw := (hF.bounds_row_iff ht _).1 (hmult i hi)
      exact ⟨hw, (hF.reduced_row_iff ht hw _).1 (hslack i hi)⟩
    · have hr := hzu k hk
      rw [hcu k hk] at hr
      exact ⟨(hF.bounds_upper_iff hM hk _).1 (hxu k hk), (hF.reduced_upper_iff hM hk _ _ _).1 hr⟩
    · have hr := hzl j hj
      rw [hcl j hj] at hr
      exact (hF.lower_iff hM hj _ _).1 ⟨hxl j hj, hr⟩
  · intro h
    have hl := fun j hj => (hF.lower_iff hM hj _ _).2 (h.lower j hj)
    refine ⟨fun j hj => (hF.row_iff hM hj _).2 (h.column j hj),
      ⟨⟨fun i hi => (hF.column_iff hM hi _ _).2 (h.row i hi),
        fun k hk => (hF.column_upper_iff hM hk _ _).2 (h.upper_cost k hk)⟩,
        fun j hj => (hF.column_lower_iff hM hj _ _).2 (h.lower_cost j hj)⟩,
      ⟨⟨fun i hi => ?_, fun k hk => (hF.bounds_upper_iff hM hk _).2 (h.upper k hk).1⟩,
        fun j hj => (hl j hj).1⟩,
      ⟨fun i hi => ?_, fun k hk => ?_⟩, fun j hj => ?_⟩
    · obtain ⟨t, ht⟩ := hM.regular.valid.exists_type hi
      exact (hF.bounds_row_iff ht _).2 (h.constraint i hi t ht).1
    · obtain ⟨t, ht⟩ := hM.regular.valid.exists_type hi
      obtain ⟨hw, hr⟩ := h.constraint i hi t ht
      exact (hF.reduced_row_iff ht hw _).2 hr
    · rw [h.upper_cost k hk]
      exact (hF.reduced_upper_iff hM hk _ _ _).2 (h.upper k hk).2
    · rw [h.lower_cost j hj]
      exact (hl j hj).2

end IsDual

end Form

end LpPresolve
