import LpPresolve.Proofs.Model
import LpPresolve.Proofs.Sparse.Dense

/-! The matrix of a computational form, in any arithmetic. Values are moved to their places and nothing
is computed with them: the primal form is `[A | I]`, the dual form `[A' | -I(:, boxed) | I]`, both are
stored with one slot for each of their entries, and the transposed matrix has its rows in order. -/

namespace LpPresolve

variable {α : Type} [Scalar α]

namespace Form

/-- The matrix of a form is well laid out, ends in an identity block and fits the vectors. -/
structure Shaped (F : Form α) : Prop where
  layout_AI : F.AI.Layout
  rows_AI : F.AI.rows = F.rows
  cols_AI : F.AI.cols = F.cols + F.rows
  identity : ∀ i < F.rows, F.AI.column (F.cols + i) = [(i, 1)]
  size_b : F.b.size = F.rows
  size_c : F.c.size = F.cols + F.rows
  size_lb : F.lb.size = F.cols + F.rows
  size_ub : F.ub.size = F.cols + F.rows

/-- In addition the second matrix is the transpose of the first, with ascending row indices. -/
structure Assembled (F : Form α) : Prop extends F.Shaped where
  layout_AIt : F.AIt.Layout
  rows_AIt : F.AIt.rows = F.cols + F.rows
  cols_AIt : F.AIt.cols = F.rows
  transposed : ∀ i < F.rows, ∀ j < F.cols + F.rows, F.AIt.stored? j i = F.AI.stored? i j
  ascending : ∀ i < F.rows, ((F.AIt.column i).map (·.1)).Pairwise (· < ·)

/-- The dense matrix `[A | I]`, with an entry for each entry of `A` and each constraint. -/
structure PrimalMatrix (P : Program α) (S : ScaledProgram α) (F : Form α) : Prop where
  rows_eq : F.rows = P.numConstr
  cols_eq : F.cols = P.numVar
  variable_block : ∀ i < P.numConstr, ∀ j < P.numVar, F.AI.dense i j = S.A.dense i j
  slack_block : ∀ i < P.numConstr, ∀ k < P.numConstr,
    F.AI.dense i (P.numVar + k) = if i = k then 1 else 0
  nnz : ∃ k, P.A.nnz? = some k ∧ F.AI.nnz? = some (k + P.numConstr)

/-- The dense matrix `[A' | -I(:, boxed) | I]`, with an entry for each entry of `A`, each boxed
variable and each variable. -/
structure DualMatrix (P : Program α) (S : ScaledProgram α) (F : Form α) : Prop where
  rows_eq : F.rows = P.numVar
  cols_eq : F.cols = P.numConstr + P.boxed.length
  constraint_block : ∀ j < P.numVar, ∀ i < P.numConstr, F.AI.dense j i = S.A.dense i j
  upper_block : ∀ j < P.numVar, ∀ k (hk : k < P.boxed.length),
    F.AI.dense j (P.numConstr + k) = if j = P.boxed[k] then -1 else 0
  lower_block : ∀ j < P.numVar, ∀ k < P.numVar,
    F.AI.dense j (P.numConstr + P.boxed.length + k) = if j = k then 1 else 0
  nnz : ∃ k, P.A.nnz? = some k ∧ F.AI.nnz? = some (k + P.boxed.length + P.numVar)

variable {P : Program α} {S : ScaledProgram α} {F : Form α} {settings : Settings}

/-! ### Numbers of entries -/

theorem nnz?_of_copies (hP : P.Valid) (hS : ScaledProgram.Copies P S) :
    P.A.nnz? = some S.A.nzval.size := by
  obtain ⟨f, hmap⟩ := hS.mapped
  rw [hP.wellFormed.layout.nnz?_eq, hmap.size_nzval]

theorem IsPrimal.size_nzval (hF : IsPrimal P S F) (hP : P.Valid)
    (hS : ScaledProgram.Copies P S) : F.AI.nzval.size = S.A.nzval.size + P.numConstr := by
  have hleft : ((List.range P.numVar).map fun j => (F.AI.column j).length) =
      (List.range P.numVar).map fun j => (S.A.column j).length :=
    List.map_congr_left fun j hj => by rw [hF.column j (List.mem_range.1 hj)]
  have hright : ((List.range P.numConstr).map fun i => (F.AI.column (P.numVar + i)).length) =
      (List.range P.numConstr).map fun _ => 1 :=
    List.map_congr_left fun i hi => by rw [hF.column_slack i (List.mem_range.1 hi)]; rfl
  rw [← hF.layout.sum_length_column, hF.cols_AI, List.range_add, List.map_append, List.sum_append,
    List.map_map, Function.comp_def, hleft, hright, ← hS.cols_eq, (hS.layout hP).sum_length_column]
  simp

theorem IsDual.size_nzval (hF : IsDual P S F) (hP : P.Valid) (hS : ScaledProgram.Copies P S) :
    F.AI.nzval.size = S.A.nzval.size + P.boxed.length + P.numVar := by
  have hrow : ((List.range P.numConstr).map fun i => (F.AI.column i).length) =
      (List.range P.numConstr).map fun i => (S.A.row i).length :=
    List.map_congr_left fun i hi => by rw [hF.column i (List.mem_range.1 hi)]
  have hupper : ((List.range P.boxed.length).map fun k =>
      (F.AI.column (P.numConstr + k)).length) = (List.range P.boxed.length).map fun _ => 1 :=
    List.map_congr_left fun k hk => by rw [hF.column_upper k (List.mem_range.1 hk)]; rfl
  have hlower : ((List.range P.numVar).map fun j =>
      (F.AI.column (P.numConstr + P.boxed.length + j)).length) =
        (List.range P.numVar).map fun _ => 1 :=
    List.map_congr_left fun j hj => by rw [hF.column_lower j (List.mem_range.1 hj)]; rfl
  rw [← hF.layout.sum_length_column, hF.cols_AI, List.range_add, List.map_append, List.sum_append,
    List.map_map, Function.comp_def, hlower, List.range_add, List.map_append, List.sum_append,
    List.map_map, Function.comp_def, hrow, hupper, ← hS.rows_eq, (hS.layout hP).sum_length_row]
  simp

/-! ### The two forms -/

theorem Shaped.assembled (h : F.Shaped) (hF : F.Completed settings) : F.Assembled := by
  obtain ⟨AIt, hAIt, hlayout, hrows, hcols, -, hcolumn⟩ := Csc.transpose?_eq_some h.layout_AI
  obtain rfl : AIt = F.AIt := Option.some_inj.1 (hAIt.symm.trans hF.1)
  refine { h with
    layout_AIt := hlayout
    rows_AIt := hrows.trans h.cols_AI
    cols_AIt := hcols.trans h.rows_AI
    transposed := fun i hi j hj => ?_
    ascending := fun i hi => ?_ }
  · have hi := h.rows_AI.symm ▸ hi
    exact h.layout_AI.stored?_of_column_eq_row hlayout (hcols.symm ▸ hi) (hcolumn i hi)
      (h.cols_AI.symm ▸ hj)
  · rw [hcolumn i (h.rows_AI.symm ▸ hi)]
    exact h.layout_AI.row_sorted i

theorem IsPrimal.shaped (hF : IsPrimal P S F) (hP : P.Valid) (hS : ScaledProgram.Copies P S) :
    F.Shaped := by
  have hsize : F.cols + F.rows = P.numVar + P.numConstr := by rw [hF.cols_eq, hF.rows_eq]
  refine ⟨hF.layout, hF.rows_AI.trans hF.rows_eq.symm, hF.cols_AI.trans hsize.symm,
    fun i hi => ?_, ?_, ?_, ?_, ?_⟩
  · rw [hF.cols_eq]
    exact hF.column_slack i (hF.rows_eq ▸ hi)
  · rw [hF.b_eq, hS.size_rhs, hF.rows_eq]
  · rw [hF.c_eq, Array.size_append, hS.size_obj, Vec.size_zeros, hsize]
  · rw [hF.lb_eq, Array.size_append, hS.size_lb, Array.size_map, hP.size_types, hsize]
  · rw [hF.ub_eq, Array.size_append, hS.size_ub, Array.size_map, hP.size_types, hsize]

theorem IsDual.shaped (hF : IsDual P S F) (hP : P.Valid) (hS : ScaledProgram.Copies P S) :
    F.Shaped := by
  have hsize : F.cols + F.rows = P.numConstr + P.boxed.length + P.numVar := by
    rw [hF.cols_eq, hF.rows_eq]
  refine ⟨hF.layout, hF.rows_AI.trans hF.rows_eq.symm, hF.cols_AI.trans hsize.symm,
    fun j hj => ?_, ?_, ?_, ?_, ?_⟩
  · rw [hF.cols_eq]
    exact hF.column_lower j (hF.rows_eq ▸ hj)
  · rw [hF.b_eq, hS.size_obj, hF.rows_eq]
  · simp [hF.c_eq, dualCost, hS.size_rhs, atLowers, hsize, Nat.add_assoc]
  · simp [hF.lb_eq, dualLower, hP.size_types, hsize, Nat.add_assoc]
  · simp [hF.ub_eq, dualUpper, hP.size_types, atLowers, hsize, Nat.add_assoc]

theorem IsPrimal.primalMatrix (hF : IsPrimal P S F) (hP : P.Valid)
    (hS : ScaledProgram.Copies P S) : PrimalMatrix P S F where
  rows_eq := hF.rows_eq
  cols_eq := hF.cols_eq
  variable_block i _ j hj := Csc.dense_of_column_eq (hF.column j hj) i
  slack_block i _ k hk := Csc.dense_of_column_eq_singleton (hF.column_slack k hk) i
  nnz := ⟨_, nnz?_of_copies hP hS, by rw [hF.layout.nnz?_eq, hF.size_nzval hP hS]⟩

theorem IsDual.dualMatrix (hF : IsDual P S F) (hP : P.Valid) (hS : ScaledProgram.Copies P S) :
    DualMatrix P S F where
  rows_eq := hF.rows_eq
  cols_eq := hF.cols_eq
  constraint_block j hj i hi := by
    have hlt : i < F.AI.cols := by rw [hF.cols_AI]; omega
    rw [Csc.dense, Csc.dense, (hS.layout hP).stored?_of_column_eq_row hF.layout hlt
      (hF.column i hi) (hS.cols_eq.symm ▸ hj)]
  upper_block j _ k hk := Csc.dense_of_column_eq_singleton (hF.column_upper k hk) j
  lower_block j _ k hk := Csc.dense_of_column_eq_singleton (hF.column_lower k hk) j
  nnz := ⟨_, nnz?_of_copies hP hS, by rw [hF.layout.nnz?_eq, hF.size_nzval hP hS]⟩

end Form

namespace Model

variable {M : Model α}

/-- The matrices and vectors of the form of any loaded model. -/
theorem form_assembled (hM : M.Loaded) : M.form.Assembled ∧
    (M.dualized = false → Form.PrimalMatrix M.program M.scaled M.form) ∧
    (M.dualized = true → Form.DualMatrix M.program M.scaled M.form) := by
  have hR := hM.regular
  obtain ⟨-, hload⟩ := hM.ofProgram?
  obtain ⟨-, -, -, hform⟩ := ofProgram?_eq_some_iff.1 hload
  have hcompleted := Form.completed_of_ofScaled? hform
  refine ⟨?_, fun h => (hR.isPrimal h).primalMatrix hR.valid hR.copies,
    fun h => (hR.isDual h).dualMatrix hR.valid hR.copies⟩
  rcases hR.form with hF | hF
  · exact (hF.shaped hR.valid hR.copies).assembled hcompleted
  · exact (hF.shaped hR.valid hR.copies).assembled hcompleted

theorem form_assembled_mixed : ∃ M N : Model Extended,
    M.Loaded ∧ M.program = Program.mixed ∧ M.form.Assembled ∧
      Form.PrimalMatrix Program.mixed M.scaled M.form ∧
    N.Loaded ∧ N.program = Program.mixed ∧ N.form.Assembled ∧
      Form.DualMatrix Program.mixed N.scaled N.form := by
  obtain ⟨M, hM, hP, hkind⟩ := exists_loaded { dualize := .never } Program.valid_mixed
    (p := fun M => decide (M.dualized = false)) (by decide +kernel)
  obtain ⟨N, hN, hQ, hkind'⟩ := exists_loaded { dualize := .always } Program.valid_mixed
    (p := fun M => M.dualized) (by decide +kernel)
  obtain ⟨hM', hprimal, -⟩ := form_assembled hM
  obtain ⟨hN', -, hdual⟩ := form_assembled hN
  exact ⟨M, N, hM, hP, hM', hP ▸ hprimal (of_decide_eq_true hkind), hN, hQ, hN', hQ ▸ hdual hkind'⟩

end Model

end LpPresolve
