import LpPresolve.Proofs.Duality.Programs
import LpPresolve.Proofs.Optimality.Forms

/-! The dual form as the dual of the scaled program. A vector of the form holds the multipliers of the
constraints, those of the upper bounds of the boxed variables and those of the lower bounds. It is
feasible if and only if they are, and its cost is the negated dual objective value. -/

namespace LpPresolve

open Extended

namespace Form

/-- The vector meets the equations and the bounds of the form. -/
@[mk_iff]
structure Feasible (F : Form Extended) (w : Vec Extended) : Prop where
  row : ∀ i < F.rows, F.AI.rowDot i w.value = F.b.value i
  bounds : ∀ j < F.cols + F.rows, F.lb.entry j ≤ w.entry j ∧ w.entry j ≤ F.ub.entry j

instance (F : Form Extended) (w : Vec Extended) : Decidable (F.Feasible w) :=
  decidable_of_iff _ (F.feasible_iff w).symm

/-- These are the vectors without primal residual and infeasibility. -/
theorem Exact.feasible_iff {F : Form Extended} (hF : F.Exact) {w : Vec Extended}
    (hw : w.isFinite = true) (hs : w.size = F.cols + F.rows) :
    F.Feasible w ↔ F.primalResidual? w = some 0 ∧ F.primalInfeasibility? w = some 0 := by
  rw [hF.primalResidual?_eq_zero_iff hw hs, hF.primalInfeasibility?_eq_zero_iff hw hs,
    Form.feasible_iff]

/-- Upper bounds count for the boxed variables only, in their order. -/
theorem sum_upperPart {P : Program Extended} (hP : P.Valid) (start : Nat) (f : Nat → Rat)
    (w : Nat → Rat) :
    ∑ j ∈ Finset.range P.numVar, f j * upperPart P start w j =
      ∑ k ∈ Finset.range P.boxed.length, f (P.boxed.getD k 0) * w (start + k) := by
  rw [← hP.sum_boxed fun k => f (P.boxed.getD k 0) * w (start + k)]
  apply Finset.sum_congr rfl
  intro j _
  rw [upperPart]
  split_ifs with hb
  · rw [List.getD_eq_getElem _ _ (List.idxOf_lt_length_of_mem hb), List.getElem_idxOf]
  · rw [mul_zero]

namespace IsDual

variable {M : Model Extended} (hF : IsDual M.program M.scaled M.form) (hM : M.Exact)
  {w : Vec Extended}

include hF hM

/-- The multiplier of a lower bound is nonnegative, and zero if the bound is infinite. -/
theorem bounds_lower_iff {j : Nat} (hj : j < M.program.numVar) (w : Rat) :
    (M.form.lb.entry (M.program.numConstr + M.program.boxed.length + j) ≤ finite w ∧
      finite w ≤ M.form.ub.entry (M.program.numConstr + M.program.boxed.length + j)) ↔
      0 ≤ w ∧ (Scalar.isFinite (M.scaledProgram.lb.entry j) = false → w = 0) := by
  rw [hF.entry_ub_lower hM hj, Nat.add_assoc, hF.entry_lb_bound hM, finite_le_finite]
  apply and_congr_right
  intro hw
  by_cases hfin : Scalar.isFinite (M.scaledProgram.lb.entry j) = true
  · rw [if_pos hfin]
    exact iff_of_true (finite_le_top w) fun h => absurd (hfin.symm.trans h) Bool.noConfusion
  · rw [if_neg hfin, finite_le_finite, forall_prop_of_true (by simpa using hfin)]
    exact ⟨fun h => le_antisymm h hw, le_of_eq⟩

theorem feasible_iff (hw : w.isFinite = true) : M.form.Feasible w ↔
    M.scaledProgram.DualFeasible w.value (fun j => w.value (M.form.cols + j))
      (upperPart M.program M.program.numConstr w.value) := by
  have hm : M.scaledProgram.numConstr = M.program.numConstr := hM.image.numConstr_eq
  have hn : M.scaledProgram.numVar = M.program.numVar := hM.image.numVar_eq
  have hentry := Vec.entry_eq_finite hw
  have hrow : ∀ j < M.program.numVar, M.form.AI.rowDot j w.value = M.form.b.value j ↔
      M.scaledProgram.A.colDot j w.value +
          w.value (M.program.numConstr + M.program.boxed.length + j) -
        upperPart M.program M.program.numConstr w.value j = M.scaledProgram.obj.value j :=
    fun j hj => by rw [hF.row_iff hM hj, sub_add_eq_add_sub]
  have hboxed : ∀ j < M.program.numVar,
      Scalar.isFinite (M.scaledProgram.ub.entry j) = false ↔ j ∉ M.program.boxed := fun j hj => by
    rw [← Bool.not_eq_true]
    exact (hM.isFinite_upper_iff hj).not
  rw [hF.cols_eq]
  constructor
  · rintro ⟨hr, hb⟩
    rw [hF.cols_add_rows, forall_lt_add_iff_lt_left, forall_lt_add_iff_lt_left] at hb
    rw [hF.rows_eq] at hr
    simp only [hentry] at hb
    obtain ⟨⟨hy, hzu⟩, hzl⟩ := hb
    refine ⟨fun j hj => (hrow j (hn ▸ hj)).1 (hr j (hn ▸ hj)),
      fun i hi t ht => (hF.bounds_row_iff ht _).1 (hy i (hm ▸ hi)),
      fun j hj => (hF.bounds_lower_iff hM (hn ▸ hj) _).1 (hzl j (hn ▸ hj)),
      fun j hj => ⟨?_, fun h => ?_⟩⟩
    · rw [upperPart]
      split_ifs with hj
      · have hk := List.idxOf_lt_length_of_mem hj
        exact (hF.bounds_upper_iff hM hk _).1 (hzu _ hk)
      · exact le_rfl
    · exact if_neg ((hboxed j (hn ▸ hj)).1 h)
  · intro h
    constructor
    · rw [hF.rows_eq]
      exact fun j hj => (hrow j hj).2 (h.column j (hn.symm ▸ hj))
    · rw [hF.cols_add_rows, forall_lt_add_iff_lt_left, forall_lt_add_iff_lt_left]
      simp only [hentry]
      refine ⟨⟨fun i hi => ?_, fun k hk => (hF.bounds_upper_iff hM hk _).2 ?_⟩,
        fun j hj => (hF.bounds_lower_iff hM hj _).2 (h.lower j (hn.symm ▸ hj))⟩
      · obtain ⟨t, ht⟩ := hM.regular.valid.exists_type hi
        exact (hF.bounds_row_iff ht _).2 (h.sign i (hm.symm ▸ hi) t ht)
      · have hj := hM.regular.valid.lt_of_mem_boxed (List.getElem_mem hk)
        rw [← upperPart_boxed hM.regular.valid M.program.numConstr w.value hk]
        exact (h.upper _ (hn.symm ▸ hj)).1

/-- The cost of a vector. -/
theorem dot_c (hw : w.isFinite = true) (hs : w.size = M.form.cols + M.form.rows) :
    M.form.c.dot w = finite (-M.scaledProgram.dualValue w.value
      (fun j => w.value (M.form.cols + j))
      (upperPart M.program M.program.numConstr w.value)) := by
  have hm : M.scaledProgram.numConstr = M.program.numConstr := hM.image.numConstr_eq
  have hn : M.scaledProgram.numVar = M.program.numVar := hM.image.numVar_eq
  have hform := hF.exact hM
  have hrows : ∀ i ∈ Finset.range M.program.numConstr, M.form.c.value i * w.value i =
      -(M.scaledProgram.rhs.value i * w.value i) := fun i hi => by
    rw [Vec.value_of_entry (hF.entry_c_row hM (Finset.mem_range.1 hi)), neg_mul]
  have hupper : ∀ k ∈ Finset.range M.program.boxed.length,
      M.form.c.value (M.program.numConstr + k) * w.value (M.program.numConstr + k) =
        M.scaledProgram.ub.value (M.program.boxed.getD k 0) *
          w.value (M.program.numConstr + k) := fun k hk => by
    have hk := Finset.mem_range.1 hk
    rw [Vec.value_of_entry (hF.entry_c_upper hM hk), List.getD_eq_getElem _ _ hk]
  have hlower : ∀ j ∈ Finset.range M.program.numVar,
      M.form.c.value (M.program.numConstr + M.program.boxed.length + j) *
          w.value (M.program.numConstr + M.program.boxed.length + j) =
        -(M.scaledProgram.lb.value j *
          w.value (M.program.numConstr + M.program.boxed.length + j)) := fun j hj => by
    rw [Vec.value_of_entry (hF.entry_c_lower hM (Finset.mem_range.1 hj)), neg_mul]
  rw [Vec.dot_eq hform.finite_c hw hform.size_c hs, Program.dualValue, Program.sum_finite_eq,
    Program.sum_finite_eq, hm, hn, hF.cols_add_rows, Finset.sum_range_add, Finset.sum_range_add,
    Finset.sum_congr rfl hrows, Finset.sum_congr rfl hupper, Finset.sum_congr rfl hlower,
    ← sum_upperPart hM.regular.valid, Finset.sum_neg_distrib, Finset.sum_neg_distrib, hF.cols_eq]
  congr 1
  ring

end IsDual

end Form

namespace Model

/-- In a model loaded in the dual form the columns are the multipliers of the constraints, those of
the upper bounds of the boxed variables and those of the lower bounds. The form asks of them just what
the dual of the scaled program does, their cost is the negated dual objective value, and it bounds the
objective value of every feasible point of the user's program. -/
theorem dual_form_is_dual {M : Model Extended} (hM : M.Loaded) (hdual : M.dualized = true)
    {w : Vec Extended} (hs : w.size = M.cols + M.rows) (hw : w.isFinite = true) :
    (M.form.Feasible w ↔
      M.scaledProgram.DualFeasible w.value (fun j => w.value (M.cols + j))
        (Form.upperPart M.program M.program.numConstr w.value)) ∧
    M.form.c.dot w =
      finite (-M.scaledProgram.dualValue w.value (fun j => w.value (M.cols + j))
        (Form.upperPart M.program M.program.numConstr w.value)) ∧
    (M.form.Feasible w → ∀ x : Vec Extended, x.size = M.program.numVar → x.isFinite = true →
      M.program.Feasible x.value → -M.form.c.dot w ≤ M.program.obj.dot x) := by
  have hE := hM.exact
  have hF : Form.IsDual M.program M.scaled M.form := hE.regular.form.resolve_left fun hF => by
    rw [dualized, Form.isDualized, hF.kind_eq] at hdual
    exact Bool.noConfusion hdual
  have hfeas := hF.feasible_iff hE hw
  have hcost := hF.dot_c hE hw hs
  refine ⟨hfeas, hcost, fun h x hxs hx hxfeas => ?_⟩
  have hx' : ∀ j < M.program.numVar,
      x.value j / M.scaling.signedFactor j * M.scaling.signedFactor j = x.value j := fun j hj =>
    div_mul_cancel₀ _ (hE.image.col_ne j hj)
  have hle := Program.dualValue_le_value hE.image.target ((hE.image.feasible_iff hx').2 hxfeas)
    (hfeas.1 h)
  rw [hE.image.value_eq hx'] at hle
  rw [hcost, Vec.dot_eq hE.image.source.finite_obj hx hE.image.source.size_obj hxs, neg_finite,
    neg_neg, finite_le_finite]
  exact hle

/-- Multipliers that show the point `(2, -15, 7, 0)` to be optimal. -/
theorem dual_form_is_dual_mixed :
    ∃ M : Model Extended, M.Loaded ∧ M.program = Program.mixed ∧
      ∃ w : Vec Extended, M.form.Feasible w ∧
        M.scaledProgram.DualFeasible w.value (fun j => w.value (M.cols + j))
          (Form.upperPart M.program M.program.numConstr w.value) ∧
        -M.form.c.dot w = finite (-11) ∧
        finite (-11) ≤ M.program.obj.dot #[finite 2, finite (-15), finite 7, finite 0] := by
  obtain ⟨M, hM, hP, hp⟩ := exists_loaded { dualize := .always } Program.valid_mixed
    (p := fun M => decide (M.dualized = true ∧ M.cols + M.rows = 7 ∧
      M.form.Feasible #[finite 0, finite 2, finite (1 / 16), finite 0, finite 0, finite 3,
        finite 3] ∧
      -M.form.c.dot #[finite 0, finite 2, finite (1 / 16), finite 0, finite 0, finite 3,
        finite 3] = finite (-11))) (by decide +kernel)
  obtain ⟨hdual, hs, hfeas, hcost⟩ := of_decide_eq_true hp
  obtain ⟨hiff, -, hweak⟩ := dual_form_is_dual hM hdual
    (w := #[finite 0, finite 2, finite (1 / 16), finite 0, finite 0, finite 3, finite 3]) hs.symm
    (by decide +kernel)
  refine ⟨M, hM, hP, _, hfeas, hiff.1 hfeas, hcost, ?_⟩
  rw [hcost] at hweak
  exact hweak hfeas _ (hP ▸ rfl) (by decide +kernel) (hP ▸ (by decide +kernel))

end Model

end LpPresolve
