import LpPresolve.Proofs.Exact.Scaling
import LpPresolve.Proofs.Optimality.Measures
import Mathlib.Algebra.BigOperators.Intervals

/-! The data of the two forms in exact arithmetic, block by block. Rows and columns of the primal form
are those of the scaled matrix with a slack; in the dual form they are columns and rows of the scaled
matrix, with the multipliers of the bounds. -/

namespace LpPresolve

open Extended

/-- The type of a constraint. -/
theorem Program.Valid.exists_type {α : Type} [Scalar α] {P : Program α} (h : P.Valid) {i : Nat}
    (hi : i < P.numConstr) : ∃ t, P.types[i]? = some t :=
  ⟨_, Array.getElem?_eq_getElem (h.size_types.symm ▸ hi)⟩

namespace Form

/-! ### Bounds of slacks and multipliers -/

theorem slackLower_kind (t : ConstraintType) :
    Scalar.isFinite (slackLower t : Extended) = true ∨ (slackLower t : Extended) = bottom := by
  cases t with
  | equal | lessEqual => exact .inl rfl
  | greaterEqual => exact .inr rfl

theorem slackUpper_kind (t : ConstraintType) :
    Scalar.isFinite (slackUpper t : Extended) = true ∨ (slackUpper t : Extended) = top := by
  cases t with
  | equal | greaterEqual => exact .inl rfl
  | lessEqual => exact .inr rfl

theorem multiplierLower_kind (t : ConstraintType) :
    Scalar.isFinite (multiplierLower t : Extended) = true ∨
      (multiplierLower t : Extended) = bottom := by
  cases t with
  | equal | lessEqual => exact .inr rfl
  | greaterEqual => exact .inl rfl

theorem multiplierUpper_kind (t : ConstraintType) :
    Scalar.isFinite (multiplierUpper t : Extended) = true ∨
      (multiplierUpper t : Extended) = top := by
  cases t with
  | equal | greaterEqual => exact .inr rfl
  | lessEqual => exact .inl rfl

variable {M : Model Extended}

/-! ### Primal form -/

namespace IsPrimal

variable (hF : IsPrimal M.program M.scaled M.form) (hM : M.Exact)

include hF

theorem cols_add_rows : M.form.cols + M.form.rows = M.program.numVar + M.program.numConstr := by
  rw [hF.cols_eq, hF.rows_eq]

include hM

theorem finite_AI : M.form.AI.Finite := by
  have hn : M.scaled.A.cols = M.program.numVar := hM.regular.copies.cols_eq
  intro j hj
  rw [hF.cols_AI] at hj
  revert j
  rw [forall_lt_add_iff_lt_left]
  constructor
  · intro j hj e he
    exact hM.image.target.finite_A j (hn.symm ▸ hj) e (hF.column j hj ▸ he)
  · intro i hi e he
    rw [hF.column_slack i hi, List.mem_singleton] at he
    exact he ▸ isFinite_finite 1

theorem value_variable (i : Nat) {j : Nat} (hj : j < M.program.numVar) :
    M.form.AI.value i j = M.scaledProgram.A.value i j := by
  have hn : M.scaled.A.cols = M.program.numVar := hM.regular.copies.cols_eq
  rw [(hF.finite_AI hM).value_eq i (by rw [hF.cols_AI]; omega), hF.column j hj]
  exact (hM.image.target.finite_A.value_eq i (hn.symm ▸ hj)).symm

theorem value_slack (i : Nat) {k : Nat} (hk : k < M.program.numConstr) :
    M.form.AI.value i (M.program.numVar + k) = if k = i then 1 else 0 := by
  rw [(hF.finite_AI hM).value_eq i (by rw [hF.cols_AI]; omega), hF.column_slack k hk,
    sumAt_singleton]
  rfl

theorem rowDot_eq {i : Nat} (hi : i < M.program.numConstr) (x : Nat → Rat) :
    M.form.AI.rowDot i x =
      M.scaledProgram.A.rowDot i x + x (M.program.numVar + i) := by
  have hn : M.scaledProgram.A.cols = M.program.numVar := hM.image.numVar_eq
  rw [Csc.rowDot, hF.cols_AI, Finset.sum_range_add, Csc.rowDot, hn]
  congr 1
  · exact Finset.sum_congr rfl fun j hj => by rw [hF.value_variable hM i (Finset.mem_range.1 hj)]
  · rw [Finset.sum_eq_single_of_mem i (Finset.mem_range.2 hi)]
    · rw [hF.value_slack hM i hi, if_pos rfl, one_mul]
    · intro k hk hki
      rw [hF.value_slack hM i (Finset.mem_range.1 hk), if_neg hki, zero_mul]

theorem colDot_variable {j : Nat} (hj : j < M.program.numVar) (y : Nat → Rat) :
    M.form.AI.colDot j y = M.scaledProgram.A.colDot j y := by
  have hm : M.scaledProgram.A.rows = M.program.numConstr := hM.image.numConstr_eq
  unfold Csc.colDot
  rw [hF.rows_AI, hm]
  exact Finset.sum_congr rfl fun i _ => by rw [hF.value_variable hM i hj]

theorem colDot_slack {i : Nat} (hi : i < M.program.numConstr) (y : Nat → Rat) :
    M.form.AI.colDot (M.program.numVar + i) y = y i := by
  rw [Csc.colDot, hF.rows_AI, Finset.sum_eq_single_of_mem i (Finset.mem_range.2 hi)]
  · rw [hF.value_slack hM i hi, if_pos rfl, one_mul]
  · intro k _ hki
    rw [hF.value_slack hM k hi, if_neg (Ne.symm hki), zero_mul]

theorem entry_c_variable {j : Nat} (hj : j < M.program.numVar) :
    M.form.c.entry j = finite (M.scaledProgram.obj.value j) := by
  rw [hF.c_eq, Vec.entry_append_left _ _ (hM.regular.copies.size_obj.symm ▸ hj)]
  exact Vec.entry_eq_finite hM.image.target.finite_obj j

theorem entry_c_slack (i : Nat) : M.form.c.entry (M.program.numVar + i) = finite 0 := by
  rw [hF.c_eq, ← hM.regular.copies.size_obj, Vec.entry_append_right, Vec.entry_zeros, zero_eq]

theorem entry_lb_variable {j : Nat} (hj : j < M.program.numVar) :
    M.form.lb.entry j = M.scaledProgram.lb.entry j := by
  rw [hF.lb_eq, Vec.entry_append_left _ _ (hM.regular.copies.size_lb.symm ▸ hj)]
  rfl

theorem entry_ub_variable {j : Nat} (hj : j < M.program.numVar) :
    M.form.ub.entry j = M.scaledProgram.ub.entry j := by
  rw [hF.ub_eq, Vec.entry_append_left _ _ (hM.regular.copies.size_ub.symm ▸ hj)]
  rfl

theorem entry_lb_slack {i : Nat} {t : ConstraintType} (ht : M.program.types[i]? = some t) :
    M.form.lb.entry (M.program.numVar + i) = slackLower t := by
  rw [hF.lb_eq, ← hM.regular.copies.size_lb, Vec.entry_append_right, Vec.entry_map _ _ ht]

theorem entry_ub_slack {i : Nat} {t : ConstraintType} (ht : M.program.types[i]? = some t) :
    M.form.ub.entry (M.program.numVar + i) = slackUpper t := by
  rw [hF.ub_eq, ← hM.regular.copies.size_ub, Vec.entry_append_right, Vec.entry_map _ _ ht]

theorem exact : M.form.Exact where
  layout := hF.layout
  finite_AI := hF.finite_AI hM
  rows_AI := hF.rows_AI.trans hF.rows_eq.symm
  cols_AI := hF.cols_AI.trans hF.cols_add_rows.symm
  size_b := by rw [hF.b_eq, hF.rows_eq, hM.regular.copies.size_rhs]
  size_c := by rw [hF.cols_add_rows, hF.c_eq]; simp [hM.regular.copies.size_obj]
  size_lb := by
    rw [hF.cols_add_rows, hF.lb_eq]
    simp [hM.regular.copies.size_lb, hM.regular.valid.size_types]
  size_ub := by
    rw [hF.cols_add_rows, hF.ub_eq]
    simp [hM.regular.copies.size_ub, hM.regular.valid.size_types]
  finite_b := hF.b_eq ▸ hM.image.target.finite_rhs
  finite_c := by
    rw [Vec.isFinite_iff, hF.c_eq, Array.size_append, hM.regular.copies.size_obj, Vec.size_zeros,
      ← hF.c_eq, forall_lt_add_iff_lt_left]
    exact ⟨fun j hj => hF.entry_c_variable hM hj ▸ isFinite_finite _,
      fun i _ => hF.entry_c_slack hM i ▸ isFinite_finite _⟩
  lower := by
    rw [hF.cols_add_rows, forall_lt_add_iff_lt_left]
    constructor
    · intro j hj
      rw [hF.entry_lb_variable hM hj]
      exact hM.image.target.lower j (hM.image.numVar_eq.symm ▸ hj)
    · intro i hi
      obtain ⟨t, ht⟩ := hM.regular.valid.exists_type hi
      rw [hF.entry_lb_slack hM ht]
      exact slackLower_kind t
  upper := by
    rw [hF.cols_add_rows, forall_lt_add_iff_lt_left]
    constructor
    · intro j hj
      rw [hF.entry_ub_variable hM hj]
      exact hM.image.target.upper j (hM.image.numVar_eq.symm ▸ hj)
    · intro i hi
      obtain ⟨t, ht⟩ := hM.regular.valid.exists_type hi
      rw [hF.entry_ub_slack hM ht]
      exact slackUpper_kind t

end IsPrimal

/-! ### Dual form -/

/-- The multipliers of the upper bounds in a vector of the dual form, from position `start` on:
that of the `k`-th boxed variable is in position `start + k`. -/
def upperPart (P : Program Extended) (start : Nat) (w : Nat → Rat) (j : Nat) : Rat :=
  if j ∈ P.boxed then w (start + P.boxed.idxOf j) else 0

theorem upperPart_boxed (hM : M.program.Valid) (start : Nat) (w : Nat → Rat) {k : Nat}
    (hk : k < M.program.boxed.length) :
    upperPart M.program start w M.program.boxed[k] = w (start + k) := by
  rw [upperPart, if_pos (List.getElem_mem hk), hM.nodup_boxed.idxOf_getElem k hk]

namespace IsDual

variable (hF : IsDual M.program M.scaled M.form) (hM : M.Exact)

include hF

theorem cols_add_rows : M.form.cols + M.form.rows =
    M.program.numConstr + M.program.boxed.length + M.program.numVar := by
  rw [hF.cols_eq, hF.rows_eq]

include hM

theorem finite_AI : M.form.AI.Finite := by
  intro j hj
  rw [hF.cols_AI] at hj
  revert j
  rw [forall_lt_add_iff_lt_left, forall_lt_add_iff_lt_left]
  refine ⟨⟨?_, ?_⟩, ?_⟩
  · intro i hi e he
    rw [hF.column i hi] at he
    obtain ⟨hj, he⟩ := Csc.mem_row.1 he
    exact hM.image.target.finite_A _ hj (i, e.2) he
  · intro k hk e he
    rw [hF.column_upper k hk, List.mem_singleton] at he
    exact he ▸ isFinite_finite (-1)
  · intro j hj e he
    rw [hF.column_lower j hj, List.mem_singleton] at he
    exact he ▸ isFinite_finite 1

theorem value_row {i j : Nat} (hi : i < M.program.numConstr) (hj : j < M.program.numVar) :
    M.form.AI.value j i = M.scaledProgram.A.value i j := by
  have hn : M.scaledProgram.A.cols = M.program.numVar := hM.image.numVar_eq
  rw [(hF.finite_AI hM).value_eq j (by rw [hF.cols_AI]; omega), hF.column i hi]
  exact hM.image.target.finite_A.sumAt_row i (hn.symm ▸ hj)

theorem value_upper (j : Nat) {k : Nat} (hk : k < M.program.boxed.length) :
    M.form.AI.value j (M.program.numConstr + k) = if M.program.boxed[k] = j then -1 else 0 := by
  rw [(hF.finite_AI hM).value_eq j (by rw [hF.cols_AI]; omega), hF.column_upper k hk,
    sumAt_singleton]
  rfl

theorem value_lower (j : Nat) {k : Nat} (hk : k < M.program.numVar) :
    M.form.AI.value j (M.program.numConstr + M.program.boxed.length + k) =
      if k = j then 1 else 0 := by
  rw [(hF.finite_AI hM).value_eq j (by rw [hF.cols_AI]; omega), hF.column_lower k hk,
    sumAt_singleton]
  rfl

theorem rowDot_eq {j : Nat} (hj : j < M.program.numVar) (w : Nat → Rat) :
    M.form.AI.rowDot j w =
      M.scaledProgram.A.colDot j w - upperPart M.program M.program.numConstr w j +
        w (M.program.numConstr + M.program.boxed.length + j) := by
  have hm : M.scaledProgram.A.rows = M.program.numConstr := hM.image.numConstr_eq
  have hrows : ∑ i ∈ Finset.range M.program.numConstr, M.form.AI.value j i * w i =
      M.scaledProgram.A.colDot j w := by
    rw [Csc.colDot, hm]
    exact Finset.sum_congr rfl fun i hi => by rw [hF.value_row hM (Finset.mem_range.1 hi) hj]
  have hupper : ∑ k ∈ Finset.range M.program.boxed.length,
      M.form.AI.value j (M.program.numConstr + k) * w (M.program.numConstr + k) =
        -upperPart M.program M.program.numConstr w j := by
    rw [upperPart]
    by_cases hb : j ∈ M.program.boxed
    · have hlt := List.idxOf_lt_length_of_mem hb
      rw [if_pos hb, Finset.sum_eq_single_of_mem _ (Finset.mem_range.2 hlt)]
      · rw [hF.value_upper hM j hlt, if_pos (List.getElem_idxOf hlt), neg_one_mul]
      · intro k hk hkj
        have hk := Finset.mem_range.1 hk
        rw [hF.value_upper hM j hk, if_neg, zero_mul]
        rintro rfl
        exact hkj (hM.regular.valid.nodup_boxed.idxOf_getElem k hk).symm
    · rw [if_neg hb, neg_zero]
      apply Finset.sum_eq_zero
      intro k hk
      have hk := Finset.mem_range.1 hk
      rw [hF.value_upper hM j hk, if_neg, zero_mul]
      rintro rfl
      exact hb (List.getElem_mem hk)
  have hlower : ∑ k ∈ Finset.range M.program.numVar,
      M.form.AI.value j (M.program.numConstr + M.program.boxed.length + k) *
        w (M.program.numConstr + M.program.boxed.length + k) =
          w (M.program.numConstr + M.program.boxed.length + j) := by
    rw [Finset.sum_eq_single_of_mem j (Finset.mem_range.2 hj)]
    · rw [hF.value_lower hM j hj, if_pos rfl, one_mul]
    · intro k hk hkj
      rw [hF.value_lower hM j (Finset.mem_range.1 hk), if_neg hkj, zero_mul]
  rw [Csc.rowDot, hF.cols_AI, Finset.sum_range_add, Finset.sum_range_add, hrows, hupper, hlower,
    sub_eq_add_neg]

theorem colDot_row {i : Nat} (hi : i < M.program.numConstr) (y : Nat → Rat) :
    M.form.AI.colDot i y = M.scaledProgram.A.rowDot i y := by
  have hn : M.scaledProgram.A.cols = M.program.numVar := hM.image.numVar_eq
  rw [Csc.colDot, Csc.rowDot, hF.rows_AI, hn]
  exact Finset.sum_congr rfl fun j hj => by rw [hF.value_row hM hi (Finset.mem_range.1 hj)]

theorem colDot_upper {k : Nat} (hk : k < M.program.boxed.length) (y : Nat → Rat) :
    M.form.AI.colDot (M.program.numConstr + k) y = -y M.program.boxed[k] := by
  have hlt := hM.regular.valid.lt_of_mem_boxed (List.getElem_mem hk)
  rw [Csc.colDot, hF.rows_AI, Finset.sum_eq_single_of_mem _ (Finset.mem_range.2 hlt)]
  · rw [hF.value_upper hM _ hk, if_pos rfl, neg_one_mul]
  · intro j _ hjk
    rw [hF.value_upper hM j hk, if_neg (Ne.symm hjk), zero_mul]

theorem colDot_lower {j : Nat} (hj : j < M.program.numVar) (y : Nat → Rat) :
    M.form.AI.colDot (M.program.numConstr + M.program.boxed.length + j) y = y j := by
  rw [Csc.colDot, hF.rows_AI, Finset.sum_eq_single_of_mem j (Finset.mem_range.2 hj)]
  · rw [hF.value_lower hM j hj, if_pos rfl, one_mul]
  · intro k _ hkj
    rw [hF.value_lower hM k hj, if_neg (Ne.symm hkj), zero_mul]

/-! #### Costs and bounds -/

theorem entry_c_row {i : Nat} (hi : i < M.program.numConstr) :
    M.form.c.entry i = finite (-M.scaledProgram.rhs.value i) := by
  have hs := hM.regular.copies.size_rhs
  rw [hF.c_eq, dualCost, Array.append_assoc, Vec.entry_append_left _ _ (by simpa [hs] using hi),
    Vec.entry_negate _ (hs.symm ▸ hi), ← neg_finite]
  exact congrArg (-·) (Vec.entry_eq_finite hM.image.target.finite_rhs i)

theorem entry_c_upper {k : Nat} (hk : k < M.program.boxed.length) :
    M.form.c.entry (M.program.numConstr + k) =
      finite (M.scaledProgram.ub.value M.program.boxed[k]) := by
  have hs : M.scaled.rhs.negate.size = M.program.numConstr :=
    (Vec.size_negate _).trans hM.regular.copies.size_rhs
  have hmem : M.program.boxed[k] ∈ M.program.boxed := List.getElem_mem hk
  have hentry := Vec.entry_eq_getElem (M.program.boxed.map M.scaled.ub.entry).toArray (i := k)
    (by simpa using hk)
  rw [hF.c_eq, dualCost, Array.append_assoc, ← hs, Vec.entry_append_right,
    Vec.entry_append_left _ _ (by simpa using hk), hentry]
  simp only [List.getElem_toArray, List.getElem_map]
  exact eq_finite_value ((hM.isFinite_upper_iff (hM.regular.valid.lt_of_mem_boxed hmem)).2 hmem)

omit hF in
theorem finiteLower?_eq {j : Nat} (hj : j < M.program.numVar) :
    finiteLower? M.scaled j =
      if Scalar.isFinite (M.scaledProgram.lb.entry j) = true then
        some (M.scaledProgram.lb.entry j)
      else none := by
  rw [finiteLower?, Vec.getElem?_eq_some_entry _ (hM.regular.copies.size_lb.symm ▸ hj),
    Option.filter_some]
  rfl

theorem entry_c_lower {j : Nat} (hj : j < M.program.numVar) :
    M.form.c.entry (M.program.numConstr + M.program.boxed.length + j) =
      finite (-M.scaledProgram.lb.value j) := by
  have hs : (M.scaled.rhs.negate ++ (M.program.boxed.map M.scaled.ub.entry).toArray).size =
      M.program.numConstr + M.program.boxed.length := by
    simp [hM.regular.copies.size_rhs]
  rw [hF.c_eq, dualCost, ← hs, Vec.entry_append_right, atLowers, Vec.entry_range _ _ hj,
    finiteLower?_eq hM hj]
  by_cases h : Scalar.isFinite (M.scaledProgram.lb.entry j) = true
  · rw [if_pos h, Option.elim_some, eq_finite_value h, neg_finite]
    rfl
  · rw [if_neg h, Option.elim_none, zero_eq, Vec.value, value_of_not_finite (by simpa using h),
      neg_zero]

omit hM in
theorem entry_lb_row {i : Nat} {t : ConstraintType} (ht : M.program.types[i]? = some t) :
    M.form.lb.entry i = multiplierLower t := by
  have hi : i < M.program.types.size := (Array.getElem?_eq_some_iff.1 ht).1
  rw [hF.lb_eq, dualLower, Vec.entry_append_left _ _ (by simpa using hi), Vec.entry_map _ _ ht]

theorem entry_lb_bound (k : Nat) : M.form.lb.entry (M.program.numConstr + k) = finite 0 := by
  have hs : (M.program.types.map (multiplierLower : ConstraintType → Extended)).size =
      M.program.numConstr := by simp [hM.regular.valid.size_types]
  rw [hF.lb_eq, dualLower, ← hs, Vec.entry_append_right, Vec.entry_zeros, zero_eq]

omit hM in
theorem entry_ub_row {i : Nat} {t : ConstraintType} (ht : M.program.types[i]? = some t) :
    M.form.ub.entry i = multiplierUpper t := by
  have hi : i < M.program.types.size := (Array.getElem?_eq_some_iff.1 ht).1
  rw [hF.ub_eq, dualUpper, Array.append_assoc, Vec.entry_append_left _ _ (by simpa using hi),
    Vec.entry_map _ _ ht]

theorem entry_ub_upper {k : Nat} (hk : k < M.program.boxed.length) :
    M.form.ub.entry (M.program.numConstr + k) = top := by
  have hs : (M.program.types.map (multiplierUpper : ConstraintType → Extended)).size =
      M.program.numConstr := by simp [hM.regular.valid.size_types]
  rw [hF.ub_eq, dualUpper, Array.append_assoc, ← hs, Vec.entry_append_right,
    Vec.entry_append_left _ _ (by simpa using hk), Vec.entry_replicate _ hk]
  rfl

theorem entry_ub_lower {j : Nat} (hj : j < M.program.numVar) :
    M.form.ub.entry (M.program.numConstr + M.program.boxed.length + j) =
      if Scalar.isFinite (M.scaledProgram.lb.entry j) = true then top else finite 0 := by
  have hs : (M.program.types.map (multiplierUpper : ConstraintType → Extended) ++
      Array.replicate M.program.boxed.length Scalar.infinity).size =
        M.program.numConstr + M.program.boxed.length := by simp [hM.regular.valid.size_types]
  rw [hF.ub_eq, dualUpper, ← hs, Vec.entry_append_right, atLowers, Vec.entry_range _ _ hj,
    finiteLower?_eq hM hj]
  by_cases h : Scalar.isFinite (M.scaledProgram.lb.entry j) = true
  · rw [if_pos h, if_pos h]
    rfl
  · rw [if_neg h, if_neg h]
    rfl

theorem exact : M.form.Exact where
  layout := hF.layout
  finite_AI := hF.finite_AI hM
  rows_AI := hF.rows_AI.trans hF.rows_eq.symm
  cols_AI := hF.cols_AI.trans hF.cols_add_rows.symm
  size_b := by rw [hF.b_eq, hF.rows_eq, hM.regular.copies.size_obj]
  size_c := by
    rw [hF.cols_add_rows, hF.c_eq]
    simp [dualCost, atLowers, hM.regular.copies.size_rhs, Nat.add_assoc]
  size_lb := by
    rw [hF.cols_add_rows, hF.lb_eq]
    simp [dualLower, hM.regular.valid.size_types, Nat.add_assoc]
  size_ub := by
    rw [hF.cols_add_rows, hF.ub_eq]
    simp [dualUpper, atLowers, hM.regular.valid.size_types, Nat.add_assoc]
  finite_b := hF.b_eq ▸ hM.image.target.finite_obj
  finite_c := by
    have hs : M.form.c.size =
        M.program.numConstr + M.program.boxed.length + M.program.numVar := by
      rw [hF.c_eq]
      simp [dualCost, atLowers, hM.regular.copies.size_rhs, Nat.add_assoc]
    rw [Vec.isFinite_iff, hs, forall_lt_add_iff_lt_left, forall_lt_add_iff_lt_left]
    exact ⟨⟨fun i hi => hF.entry_c_row hM hi ▸ isFinite_finite _,
      fun k hk => hF.entry_c_upper hM hk ▸ isFinite_finite _⟩,
      fun j hj => hF.entry_c_lower hM hj ▸ isFinite_finite _⟩
  lower := by
    rw [hF.cols_add_rows, Nat.add_assoc, forall_lt_add_iff_lt_left]
    constructor
    · intro i hi
      obtain ⟨t, ht⟩ := hM.regular.valid.exists_type hi
      rw [hF.entry_lb_row ht]
      exact multiplierLower_kind t
    · intro k _
      rw [hF.entry_lb_bound hM k]
      exact .inl rfl
  upper := by
    rw [hF.cols_add_rows, forall_lt_add_iff_lt_left, forall_lt_add_iff_lt_left]
    refine ⟨⟨fun i hi => ?_, fun k hk => ?_⟩, fun j hj => ?_⟩
    · obtain ⟨t, ht⟩ := hM.regular.valid.exists_type hi
      rw [hF.entry_ub_row ht]
      exact multiplierUpper_kind t
    · rw [hF.entry_ub_upper hM hk]
      exact .inr rfl
    · rw [hF.entry_ub_lower hM hj]
      split_ifs
      · exact .inr rfl
      · exact .inl rfl

end IsDual

end Form

/-- The form of a loaded model has finite data. -/
theorem Model.Exact.form {M : Model Extended} (hM : M.Exact) : M.form.Exact :=
  hM.regular.form.elim (fun hF => hF.exact hM) fun hF => hF.exact hM

end LpPresolve
