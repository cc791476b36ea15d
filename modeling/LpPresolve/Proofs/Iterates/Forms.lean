import LpPresolve.Proofs.Interior.Scaling
import LpPresolve.Proofs.Iterates.Gap
import LpPresolve.Proofs.PrimalForm

/-! Exact iterates and the scaled program. The slacks and multipliers of constraints are read from
distances and multipliers of bounds, a different vector for each type and form, and the equations of the
form make them agree with the iterate itself, save that a fixed column of the identity block is taken to
have its value. So the scaled point has the objective values of the form, and its only residuals are the
offsets of fixed columns: of rows in the primal form, of columns in the dual form. -/

namespace LpPresolve

open Extended

theorem Vec.value_mapIdx {β : Type} (f : Nat → β → Extended) (v : Array β) {i : Nat} {b : β}
    (h : v[i]? = some b) : Vec.value (v.mapIdx f) i = (f i b).value :=
  congrArg Extended.value (entry_mapIdx f v h)

/-! ### The primal form -/

namespace Form.IsPrimal

variable {M : Model Extended} (hF : IsPrimal M.program M.scaled M.form) (hM : M.Exact)
  {s : SolverInterior Extended}

include hF

theorem value_userInterior_variable (hs : s.Solves M.form) {j : Nat} (hj : j < M.program.numVar) :
    (M.userInterior s).x.value j = s.x.value j ∧ (M.userInterior s).xl.value j = s.xl.value j ∧
      (M.userInterior s).xu.value j = s.xu.value j ∧
        (M.userInterior s).zl.value j = s.zl.value j ∧
          (M.userInterior s).zu.value j = s.zu.value j := by
  obtain ⟨hx, hxl, hxu, -, hzl, hzu⟩ := hs.fits
  rw [hF.cols_add_rows] at hx hxl hxu hzl hzu
  have hpart : ∀ {v : Vec Extended}, v.size = M.program.numVar + M.program.numConstr →
      Vec.value (v.extract 0 M.program.numVar) j = v.value j := fun hv => by
    rw [Vec.value_extract _ (by omega) (by omega), Nat.zero_add]
  rw [Model.userInterior_primal hF.kind_eq]
  exact ⟨hpart hx, hpart hxl, hpart hxu, hpart hzl, hpart hzu⟩

include hM

/-- The slack and the multiplier of a constraint are read from different vectors for each type, and
the column of the slack makes them agree, up to the offset of a fixed slack. -/
theorem value_userInterior_constraint (hs : s.Solves M.form) {i : Nat}
    (hi : i < M.program.numConstr) :
    (M.userInterior s).slack.value i =
        s.x.value (M.program.numVar + i) - s.fixedOffset M.form i ∧
      (M.userInterior s).y.value i = s.y.value i := by
  obtain ⟨t, ht⟩ := hM.regular.valid.exists_type hi
  have hj : M.program.numVar + i < M.form.cols + M.form.rows := by
    rw [hF.cols_add_rows]
    omega
  have hlb := hF.entry_lb_slack hM ht
  have hub := hF.entry_ub_slack hM ht
  have hcolumn := hs.column _ hj
  rw [hF.colDot_slack hM hi, Vec.value_of_entry (hF.entry_c_slack hM i)] at hcolumn
  rw [Model.userInterior_primal hF.kind_eq, Vec.value_mapIdx _ _ ht, Vec.value_mapIdx _ _ ht,
    SolverInterior.fixedOffset, hF.cols_eq, hlb, hub]
  cases t with
  | equal =>
    refine ⟨?_, rfl⟩
    rw [if_pos (by rfl), Vec.value_of_entry hlb, sub_zero, sub_self]
    rfl
  | lessEqual =>
    have hxl := hs.xl_eq hj (hlb ▸ isFinite_finite 0)
    rw [Vec.value_of_entry hlb, sub_zero] at hxl
    rw [hs.zu_eq_zero hj (hub ▸ isFinite_top)] at hcolumn
    rw [if_neg Extended.noConfusion, sub_zero]
    refine ⟨hxl, (value_neg _).trans ?_⟩
    change -s.zl.value (M.program.numVar + i) = s.y.value i
    linarith
  | greaterEqual =>
    have hxu := hs.xu_eq hj (hub ▸ isFinite_finite 0)
    rw [Vec.value_of_entry hub, zero_sub] at hxu
    rw [hs.zl_eq_zero hj (hlb ▸ isFinite_bottom)] at hcolumn
    rw [if_neg Extended.noConfusion, sub_zero]
    constructor
    · refine (value_neg _).trans ?_
      change -s.xu.value (M.program.numVar + i) = s.x.value (M.program.numVar + i)
      linarith
    · change s.zu.value (M.program.numVar + i) = s.y.value i
      linarith

/-- The residual of a row is the offset of its slack. -/
theorem rowResidual_userInterior (hs : s.Solves M.form) {i : Nat} (hi : i < M.program.numConstr) :
    M.scaledProgram.rowResidual (M.userInterior s) i = s.fixedOffset M.form i := by
  have hn : M.scaledProgram.numVar = M.program.numVar := hM.image.numVar_eq
  have hrow := (hF.row_iff hM hi _).1 (hs.row i (hF.rows_eq ▸ hi))
  rw [Program.rowResidual, (hF.value_userInterior_constraint hM hs hi).1,
    Csc.rowDot_congr fun j hj => (hF.value_userInterior_variable hs (hn ▸ hj)).1]
  linarith

theorem columnResidual_userInterior (hs : s.Solves M.form) {j : Nat} (hj : j < M.program.numVar) :
    M.scaledProgram.columnResidual (M.userInterior s) j = 0 := by
  have hm : M.scaledProgram.numConstr = M.program.numConstr := hM.image.numConstr_eq
  have hcolumn := hs.column j (by rw [hF.cols_add_rows]; omega)
  obtain ⟨-, -, -, hzl, hzu⟩ := hF.value_userInterior_variable hs hj
  rw [hF.colDot_variable hM hj, Vec.value_of_entry (hF.entry_c_variable hM hj)] at hcolumn
  rw [Program.columnResidual, hzl, hzu,
    Csc.colDot_congr fun i hi => (hF.value_userInterior_constraint hM hs (hm ▸ hi)).2]
  linarith

theorem meetsBounds_userInterior (hs : s.Solves M.form) :
    M.scaledProgram.MeetsBounds (M.userInterior s) := by
  have hn : M.scaledProgram.numVar = M.program.numVar := hM.image.numVar_eq
  have hlt : ∀ j < M.program.numVar, j < M.form.cols + M.form.rows := fun j hj => by
    rw [hF.cols_add_rows]
    omega
  have hlb := fun j (hj : j < M.program.numVar) => hF.entry_lb_variable hM hj
  have hub := fun j (hj : j < M.program.numVar) => hF.entry_ub_variable hM hj
  refine ⟨fun j hj => ?_, fun j hj => ?_, fun j hj hinf => ?_, fun j hj hinf => ?_⟩
  · have hj : j < M.program.numVar := hn ▸ hj
    obtain ⟨hx, hxl, -⟩ := hF.value_userInterior_variable hs hj
    rw [Program.lowerResidual, hx, hxl]
    split_ifs with hfin
    · have hl : M.form.lb.value j = _ := congrArg Extended.value (hlb j hj)
      rw [hs.xl_eq (hlt j hj) (hlb j hj ▸ hfin), hl, ← Vec.value]
      ring
    · rfl
  · have hj : j < M.program.numVar := hn ▸ hj
    obtain ⟨hx, -, hxu, -⟩ := hF.value_userInterior_variable hs hj
    rw [Program.upperResidual, hx, hxu]
    split_ifs with hfin
    · have hu : M.form.ub.value j = _ := congrArg Extended.value (hub j hj)
      rw [hs.xu_eq (hlt j hj) (hub j hj ▸ hfin), hu, ← Vec.value]
      ring
    · rfl
  · have hj : j < M.program.numVar := hn ▸ hj
    rw [(hF.value_userInterior_variable hs hj).2.2.2.1]
    exact hs.zl_eq_zero (hlt j hj) (hlb j hj ▸ hinf)
  · have hj : j < M.program.numVar := hn ▸ hj
    rw [(hF.value_userInterior_variable hs hj).2.2.2.2]
    exact hs.zu_eq_zero (hlt j hj) (hub j hj ▸ hinf)

end Form.IsPrimal

/-! ### The dual form -/

namespace Form.IsDual

variable {M : Model Extended} (hF : IsDual M.program M.scaled M.form) (hM : M.Exact)
  {s : SolverInterior Extended}

include hF hM

/-- The multiplier of a bound is its own distance from zero. -/
theorem xl_bound (hs : s.Solves M.form) {k : Nat}
    (hk : k < M.program.boxed.length + M.program.numVar) :
    s.xl.value (M.program.numConstr + k) = s.x.value (M.program.numConstr + k) := by
  have hlb := hF.entry_lb_bound hM k
  have hj : M.program.numConstr + k < M.form.cols + M.form.rows := by
    rw [hF.cols_add_rows]
    omega
  rw [hs.xl_eq hj (hlb ▸ isFinite_finite 0), Vec.value_of_entry hlb, sub_zero]

/-- The distance from a lower bound is the multiplier of that bound's column. -/
theorem zl_lower (hs : s.Solves M.form) {j : Nat} (hj : j < M.program.numVar)
    (hfin : Scalar.isFinite (M.scaledProgram.lb.entry j) = true) :
    s.zl.value (M.program.numConstr + M.program.boxed.length + j) =
      -s.y.value j - M.scaledProgram.lb.value j := by
  have hlt : M.program.numConstr + M.program.boxed.length + j < M.form.cols + M.form.rows := by
    rw [hF.cols_add_rows]
    omega
  have hub := hF.entry_ub_lower hM hj
  rw [if_pos hfin] at hub
  have hcolumn := hs.column _ hlt
  rwa [hs.zu_eq_zero hlt (hub ▸ isFinite_top), sub_zero, hF.column_lower_iff hM hj] at hcolumn

/-- The distance from an upper bound is the multiplier of that bound's column. -/
theorem zl_upper (hs : s.Solves M.form) {k : Nat} (hk : k < M.program.boxed.length) :
    s.zl.value (M.program.numConstr + k) =
      M.scaledProgram.ub.value M.program.boxed[k] - -s.y.value M.program.boxed[k] := by
  have hlt : M.program.numConstr + k < M.form.cols + M.form.rows := by
    rw [hF.cols_add_rows]
    omega
  have hub := hF.entry_ub_upper hM hk
  have hcolumn := hs.column _ hlt
  rwa [hs.zu_eq_zero hlt (hub ▸ isFinite_top), sub_zero, hF.column_upper_iff hM hk] at hcolumn

omit hF in
theorem value_placeBoxed {j : Nat} (hj : j < M.program.numVar) (w v : Vec Extended)
    (hv : v.size = M.program.numVar) :
    (M.placeBoxed w M.program.numConstr v).value j =
      if j ∈ M.program.boxed then w.value (M.program.numConstr + M.program.boxed.idxOf j)
      else v.value j := by
  rw [Vec.value, Model.entry_placeBoxed hM.regular.valid _ _ _ (hv.symm ▸ hj)]
  split_ifs <;> rfl

omit hM in
theorem value_atFiniteLower {j : Nat} (hj : j < M.program.numVar) (w : Vec Extended)
    (a : Extended) : (M.atFiniteLower w a).value j =
      if Scalar.isFinite (M.scaledProgram.lb.entry j) = true then
        w.value (M.program.numConstr + M.program.boxed.length + j)
      else a.value := by
  have hrows : M.rows = M.program.numVar := hF.rows_eq
  rw [Vec.value, Model.entry_atFiniteLower _ _ (hrows.symm ▸ hj), hF.cols_model]
  split_ifs <;> rfl

theorem value_userInterior_multiplier (hs : s.Solves M.form) {j : Nat}
    (hj : j < M.program.numVar) :
    (M.userInterior s).zl.value j = (if Scalar.isFinite (M.scaledProgram.lb.entry j) = true then
      s.x.value (M.program.numConstr + M.program.boxed.length + j) else 0) ∧
    (M.userInterior s).zu.value j = upperPart M.program M.program.numConstr s.x.value j := by
  rw [Model.userInterior_dual hF.kind_eq]
  constructor
  · simp only
    rw [hF.value_atFiniteLower hj, Nat.add_assoc, hF.xl_bound hM hs (by omega), value_zero]
  · simp only
    rw [value_placeBoxed hM hj _ _ (Vec.size_zeros _), upperPart]
    split_ifs with hb
    · have hk := List.idxOf_lt_length_of_mem hb
      rw [hF.xl_bound hM hs (by omega)]
    · rw [Vec.value, Vec.entry_zeros, value_zero]

theorem value_userInterior_variable (hs : s.Solves M.form) {j : Nat} (hj : j < M.program.numVar) :
    (M.userInterior s).x.value j = -s.y.value j ∧
    (Scalar.isFinite (M.scaledProgram.lb.entry j) = true →
      (M.userInterior s).xl.value j = -s.y.value j - M.scaledProgram.lb.value j) ∧
    (Scalar.isFinite (M.scaledProgram.ub.entry j) = true →
      (M.userInterior s).xu.value j = M.scaledProgram.ub.value j - -s.y.value j) := by
  obtain ⟨-, -, -, hy, -⟩ := hs.fits
  rw [hF.rows_eq] at hy
  rw [Model.userInterior_dual hF.kind_eq]
  refine ⟨Vec.value_negate (hy.symm ▸ hj) hs.finite_y, fun hfin => ?_, fun hfin => ?_⟩
  · simp only
    rw [hF.value_atFiniteLower hj, if_pos hfin, hF.zl_lower hM hs hj hfin]
  · have hb : j ∈ M.program.boxed := (hM.isFinite_upper_iff hj).1 hfin
    have hk := List.idxOf_lt_length_of_mem hb
    simp only
    rw [value_placeBoxed hM hj _ _ (by simp), if_pos hb, hF.zl_upper hM hs hk,
      List.getElem_idxOf hk]

/-- The slack and the multiplier of a constraint are read from different vectors for each type, and
the column of the constraint makes them agree. -/
theorem value_userInterior_constraint (hs : s.Solves M.form) {i : Nat}
    (hi : i < M.program.numConstr) :
    (M.userInterior s).slack.value i = s.zu.value i - s.zl.value i ∧
      (M.userInterior s).y.value i = s.x.value i := by
  obtain ⟨t, ht⟩ := hM.regular.valid.exists_type hi
  have hj : i < M.form.cols + M.form.rows := by
    rw [hF.cols_add_rows]
    omega
  have hlb := hF.entry_lb_row ht
  have hub := hF.entry_ub_row ht
  rw [Model.userInterior_dual hF.kind_eq, Vec.value_mapIdx _ _ ht, Vec.value_mapIdx _ _ ht]
  cases t with
  | equal =>
    rw [hs.zl_eq_zero hj (hlb ▸ isFinite_bottom), hs.zu_eq_zero hj (hub ▸ isFinite_top)]
    exact ⟨(sub_zero 0).symm, rfl⟩
  | lessEqual =>
    have hxu := hs.xu_eq hj (hub ▸ isFinite_finite 0)
    rw [Vec.value_of_entry hub] at hxu
    rw [hs.zl_eq_zero hj (hlb ▸ isFinite_bottom), sub_zero]
    refine ⟨rfl, (value_neg _).trans ?_⟩
    change -s.xu.value i = s.x.value i
    linarith
  | greaterEqual =>
    have hxl := hs.xl_eq hj (hlb ▸ isFinite_finite 0)
    rw [Vec.value_of_entry hlb, sub_zero] at hxl
    rw [hs.zu_eq_zero hj (hub ▸ isFinite_top), zero_sub]
    exact ⟨value_neg _, hxl⟩

theorem rowResidual_userInterior (hs : s.Solves M.form) {i : Nat} (hi : i < M.program.numConstr) :
    M.scaledProgram.rowResidual (M.userInterior s) i = 0 := by
  have hn : M.scaledProgram.numVar = M.program.numVar := hM.image.numVar_eq
  have hcolumn := hs.column i (by rw [hF.cols_add_rows]; omega)
  rw [add_sub_assoc, hF.column_iff hM hi] at hcolumn
  rw [Program.rowResidual, (hF.value_userInterior_constraint hM hs hi).1,
    Csc.rowDot_congr fun j hj => (hF.value_userInterior_variable hM hs (hn ▸ hj)).1]
  linarith

/-- The column of an infinite lower bound is fixed at zero. -/
theorem fixedOffset_lower {j : Nat} (hj : j < M.program.numVar) : s.fixedOffset M.form j =
    if Scalar.isFinite (M.scaledProgram.lb.entry j) = true then 0
    else s.x.value (M.program.numConstr + M.program.boxed.length + j) := by
  have hlb := hF.entry_lb_bound hM (M.program.boxed.length + j)
  rw [← Nat.add_assoc] at hlb
  rw [SolverInterior.fixedOffset, hF.cols_eq, hlb, hF.entry_ub_lower hM hj,
    Vec.value_of_entry hlb, sub_zero]
  by_cases hfin : Scalar.isFinite (M.scaledProgram.lb.entry j) = true
  · rw [if_pos hfin, if_pos hfin, if_neg Extended.noConfusion]
  · rw [if_neg hfin, if_neg hfin, if_pos rfl]

/-- The residual of a column is the offset of the column for its lower bound. -/
theorem columnResidual_userInterior (hs : s.Solves M.form) {j : Nat} (hj : j < M.program.numVar) :
    M.scaledProgram.columnResidual (M.userInterior s) j = s.fixedOffset M.form j := by
  have hm : M.scaledProgram.numConstr = M.program.numConstr := hM.image.numConstr_eq
  have hrow := (hF.row_iff hM hj _).1 (hs.row j (hF.rows_eq ▸ hj))
  obtain ⟨hzl, hzu⟩ := hF.value_userInterior_multiplier hM hs hj
  rw [Program.columnResidual, hzl, hzu, hF.fixedOffset_lower hM hj,
    Csc.colDot_congr fun i hi => (hF.value_userInterior_constraint hM hs (hm ▸ hi)).2]
  split_ifs <;> linarith

theorem meetsBounds_userInterior (hs : s.Solves M.form) :
    M.scaledProgram.MeetsBounds (M.userInterior s) := by
  have hn : M.scaledProgram.numVar = M.program.numVar := hM.image.numVar_eq
  refine ⟨fun j hj => ?_, fun j hj => ?_, fun j hj hinf => ?_, fun j hj hinf => ?_⟩
  · have hj : j < M.program.numVar := hn ▸ hj
    obtain ⟨hx, hxl, -⟩ := hF.value_userInterior_variable hM hs hj
    rw [Program.lowerResidual]
    split_ifs with hfin
    · rw [hx, hxl hfin]
      ring
    · rfl
  · have hj : j < M.program.numVar := hn ▸ hj
    obtain ⟨hx, -, hxu⟩ := hF.value_userInterior_variable hM hs hj
    rw [Program.upperResidual]
    split_ifs with hfin
    · rw [hx, hxu hfin]
      ring
    · rfl
  · rw [(hF.value_userInterior_multiplier hM hs (hn ▸ hj)).1, if_neg (by simp [hinf])]
  · have hb : j ∉ M.program.boxed := fun hb =>
      Bool.noConfusion (hinf.symm.trans ((hM.isFinite_upper_iff (hn ▸ hj)).2 hb))
    rw [(hF.value_userInterior_multiplier hM hs (hn ▸ hj)).2, upperPart, if_neg hb]

end Form.IsDual

/-! ### Objective values -/

namespace Form

theorem value_slackLower (t : ConstraintType) : (slackLower t : Extended).value = 0 := by
  cases t <;> rfl

theorem value_slackUpper (t : ConstraintType) : (slackUpper t : Extended).value = 0 := by
  cases t <;> rfl

theorem value_multiplierLower (t : ConstraintType) : (multiplierLower t : Extended).value = 0 := by
  cases t <;> rfl

theorem value_multiplierUpper (t : ConstraintType) : (multiplierUpper t : Extended).value = 0 := by
  cases t <;> rfl

variable {M : Model Extended} {s : SolverInterior Extended}

/-- The primal form has the objective values of the scaled program. -/
theorem IsPrimal.objectives_userInterior (hF : IsPrimal M.program M.scaled M.form) (hM : M.Exact)
    (hs : s.Solves M.form) :
    M.form.c.dot s.x = finite (M.scaledProgram.value (M.userInterior s).x.value) ∧
      M.form.dualValue s = M.scaledProgram.dualValue (M.userInterior s).y.value
        (M.userInterior s).zl.value (M.userInterior s).zu.value := by
  have hm : M.scaledProgram.numConstr = M.program.numConstr := hM.image.numConstr_eq
  have hn : M.scaledProgram.numVar = M.program.numVar := hM.image.numVar_eq
  have hvariable := fun j (hj : j ∈ Finset.range M.program.numVar) =>
    hF.value_userInterior_variable hs (Finset.mem_range.1 hj)
  have hbound : ∀ j ∈ Finset.range M.program.numVar,
      M.form.lb.value j = M.scaledProgram.lb.value j ∧
        M.form.ub.value j = M.scaledProgram.ub.value j := fun j hj =>
    ⟨congrArg Extended.value (hF.entry_lb_variable hM (Finset.mem_range.1 hj)),
      congrArg Extended.value (hF.entry_ub_variable hM (Finset.mem_range.1 hj))⟩
  have hslack : ∀ i ∈ Finset.range M.program.numConstr,
      M.form.lb.value (M.program.numVar + i) * s.zl.value (M.program.numVar + i) = 0 ∧
        M.form.ub.value (M.program.numVar + i) * s.zu.value (M.program.numVar + i) = 0 := by
    intro i hi
    obtain ⟨t, ht⟩ := hM.regular.valid.exists_type (Finset.mem_range.1 hi)
    have hl : M.form.lb.value (M.program.numVar + i) = 0 :=
      (congrArg Extended.value (hF.entry_lb_slack hM ht)).trans (value_slackLower t)
    have hu : M.form.ub.value (M.program.numVar + i) = 0 :=
      (congrArg Extended.value (hF.entry_ub_slack hM ht)).trans (value_slackUpper t)
    rw [hl, hu, zero_mul, zero_mul]
    exact ⟨rfl, rfl⟩
  constructor
  · rw [hF.dot_c hM hs.finite_x hs.fits.1, Program.value, Program.value, hn]
    exact congrArg finite (Finset.sum_congr rfl fun j hj => by rw [(hvariable j hj).1])
  · rw [dualValue, Program.dualValue, Program.sum_finite_eq, Program.sum_finite_eq,
      Program.sum_finite_eq, Program.sum_finite_eq, hF.cols_add_rows, hF.rows_eq, hm, hn,
      Finset.sum_range_add, Finset.sum_range_add, Finset.sum_eq_zero fun i hi => (hslack i hi).1,
      Finset.sum_eq_zero fun i hi => (hslack i hi).2, add_zero, add_zero, hF.b_eq]
    congr 1
    · congr 1
      · exact Finset.sum_congr rfl fun i hi => by
          rw [(hF.value_userInterior_constraint hM hs (Finset.mem_range.1 hi)).2]
          rfl
      · exact Finset.sum_congr rfl fun j hj => by rw [(hbound j hj).1, (hvariable j hj).2.2.2.1]
    · exact Finset.sum_congr rfl fun j hj => by rw [(hbound j hj).2, (hvariable j hj).2.2.2.2]

/-- The dual form has the negated objective values of the scaled program, and its own dual is the
program. -/
theorem IsDual.objectives_userInterior (hF : IsDual M.program M.scaled M.form) (hM : M.Exact)
    (hs : s.Solves M.form) :
    M.form.c.dot s.x = finite (-M.scaledProgram.dualValue (M.userInterior s).y.value
      (M.userInterior s).zl.value (M.userInterior s).zu.value) ∧
      M.form.dualValue s = -M.scaledProgram.value (M.userInterior s).x.value := by
  have hm : M.scaledProgram.numConstr = M.program.numConstr := hM.image.numConstr_eq
  have hn : M.scaledProgram.numVar = M.program.numVar := hM.image.numVar_eq
  have hmultiplier := fun j (hj : j < M.program.numVar) =>
    hF.value_userInterior_multiplier hM hs hj
  have hbound : ∀ j < M.form.cols + M.form.rows,
      M.form.lb.value j = 0 ∧ M.form.ub.value j = 0 := by
    rw [hF.cols_add_rows, forall_lt_add_iff_lt_left, forall_lt_add_iff_lt_left]
    refine ⟨⟨fun i hi => ?_, fun k hk => ?_⟩, fun j hj => ?_⟩
    · obtain ⟨t, ht⟩ := hM.regular.valid.exists_type hi
      rw [Vec.value, Vec.value, hF.entry_lb_row ht, hF.entry_ub_row ht]
      exact ⟨value_multiplierLower t, value_multiplierUpper t⟩
    · rw [Vec.value, Vec.value, hF.entry_lb_bound hM, hF.entry_ub_upper hM hk]
      exact ⟨rfl, rfl⟩
    · rw [Vec.value, Vec.value, hF.entry_ub_lower hM hj, Nat.add_assoc, hF.entry_lb_bound hM]
      split_ifs <;> exact ⟨rfl, rfl⟩
  constructor
  · rw [hF.dot_c hM hs.finite_x hs.fits.1, hF.cols_eq]
    congr 2
    unfold Program.dualValue
    rw [hm, hn]
    congr 1
    · congr 1
      · exact Finset.sum_congr rfl fun i hi => by
          rw [(hF.value_userInterior_constraint hM hs (Finset.mem_range.1 hi)).2]
      · refine Finset.sum_congr rfl fun j hj => ?_
        obtain ⟨hj, hfin⟩ := Finset.mem_filter.1 hj
        rw [(hmultiplier j (Finset.mem_range.1 hj)).1, if_pos hfin]
    · refine Finset.sum_congr rfl fun j hj => ?_
      rw [(hmultiplier j (Finset.mem_range.1 (Finset.mem_filter.1 hj).1)).2]
  · have hzero : ∀ {bounds z : Nat → Rat}, (∀ j < M.form.cols + M.form.rows, bounds j = 0) →
        ∑ j ∈ Finset.range (M.form.cols + M.form.rows), bounds j * z j = 0 := fun h =>
      Finset.sum_eq_zero fun j hj => by rw [h j (Finset.mem_range.1 hj), zero_mul]
    rw [dualValue, Program.sum_finite_eq, Program.sum_finite_eq, hzero fun j hj => (hbound j hj).1,
      hzero fun j hj => (hbound j hj).2, add_zero, sub_zero, Program.value, hn, hF.rows_eq,
      hF.b_eq, ← Finset.sum_neg_distrib]
    refine Finset.sum_congr rfl fun j hj => ?_
    rw [(hF.value_userInterior_variable hM hs (Finset.mem_range.1 hj)).1, mul_neg, neg_neg]
    rfl

/-! ### Complementarity -/

/-- The fixed slacks, those of equations, count in the products of the form, but not in those of the
program. -/
theorem IsPrimal.complementarity_userInterior (hF : IsPrimal M.program M.scaled M.form)
    (hM : M.Exact) (hs : s.Solves M.form) :
    M.scaledProgram.complementarity (M.userInterior s) =
      M.form.complementarity s - M.form.fixedComplementarity s := by
  have hform := hM.form
  have hm : M.scaledProgram.numConstr = M.program.numConstr := hM.image.numConstr_eq
  have hn : M.scaledProgram.numVar = M.program.numVar := hM.image.numVar_eq
  obtain ⟨hc, hD⟩ := hF.objectives_userInterior hM hs
  have hcost := (Vec.dot_eq hform.finite_c hs.finite_x hform.size_c hs.fits.1).symm.trans hc
  have hrows : ∑ i ∈ Finset.range M.program.numConstr,
      M.scaledProgram.rowResidual (M.userInterior s) i * (M.userInterior s).y.value i =
        -M.form.fixedComplementarity s := by
    rw [hs.fixedComplementarity_eq hform, hF.rows_eq, hF.cols_eq, ← Finset.sum_neg_distrib]
    refine Finset.sum_congr rfl fun i hi => ?_
    have hi := Finset.mem_range.1 hi
    have hcolumn := hs.column (M.program.numVar + i) (by rw [hF.cols_add_rows]; omega)
    rw [add_sub_assoc, hF.column_slack_iff hM hi] at hcolumn
    rw [hF.rowResidual_userInterior hM hs hi, (hF.value_userInterior_constraint hM hs hi).2,
      hcolumn, mul_neg, neg_neg]
  have hcolumns : ∑ j ∈ Finset.range M.program.numVar,
      M.scaledProgram.columnResidual (M.userInterior s) j * (M.userInterior s).x.value j = 0 :=
    Finset.sum_eq_zero fun j hj => by
      rw [hF.columnResidual_userInterior hM hs (Finset.mem_range.1 hj), zero_mul]
  rw [(hF.meetsBounds_userInterior hM hs).complementarity_eq, hm, hn, hrows, hcolumns,
    hs.complementarity_eq hform, finite.inj hcost, hD]
  ring

/-- The fixed columns, those of infinite lower bounds, count in the products of the form, but not in
those of the program. -/
theorem IsDual.complementarity_userInterior (hF : IsDual M.program M.scaled M.form)
    (hM : M.Exact) (hs : s.Solves M.form) :
    M.scaledProgram.complementarity (M.userInterior s) =
      M.form.complementarity s - M.form.fixedComplementarity s := by
  have hform := hM.form
  have hm : M.scaledProgram.numConstr = M.program.numConstr := hM.image.numConstr_eq
  have hn : M.scaledProgram.numVar = M.program.numVar := hM.image.numVar_eq
  obtain ⟨hc, hD⟩ := hF.objectives_userInterior hM hs
  have hcost := (Vec.dot_eq hform.finite_c hs.finite_x hform.size_c hs.fits.1).symm.trans hc
  have hrows : ∑ i ∈ Finset.range M.program.numConstr,
      M.scaledProgram.rowResidual (M.userInterior s) i * (M.userInterior s).y.value i = 0 :=
    Finset.sum_eq_zero fun i hi => by
      rw [hF.rowResidual_userInterior hM hs (Finset.mem_range.1 hi), zero_mul]
  have hcolumns : ∑ j ∈ Finset.range M.program.numVar,
      M.scaledProgram.columnResidual (M.userInterior s) j * (M.userInterior s).x.value j =
        M.form.fixedComplementarity s := by
    rw [hs.fixedComplementarity_eq hform, hF.rows_eq, hF.cols_eq]
    refine Finset.sum_congr rfl fun j hj => ?_
    have hj := Finset.mem_range.1 hj
    have hcolumn := hs.column (M.program.numConstr + M.program.boxed.length + j)
      (by rw [hF.cols_add_rows]; omega)
    rw [add_sub_assoc, hF.column_lower_iff hM hj] at hcolumn
    rw [hF.columnResidual_userInterior hM hs hj, (hF.value_userInterior_variable hM hs hj).1,
      hcolumn, hF.fixedOffset_lower hM hj]
    split_ifs with hfin
    · rw [zero_mul, zero_mul]
    · have hlb : M.scaledProgram.lb.value j = 0 := value_of_not_finite (by simpa using hfin)
      rw [hlb, sub_zero]
  rw [(hF.meetsBounds_userInterior hM hs).complementarity_eq, hm, hn, hrows, hcolumns,
    hs.complementarity_eq hform, finite.inj hcost, hD]
  ring

end Form

end LpPresolve
