import LpPresolve.Form
import LpPresolve.Proofs.ScaledProgram
import LpPresolve.Proofs.Sparse.Concatenation

/-! The two computational forms of a scaled program, column by column. The columns of the primal
form are those of the scaled matrix, those of the dual form are its rows; units follow. -/

namespace LpPresolve

variable {α : Type} [Scalar α]

/-- The counts of the leading columns of a matrix with a layout. -/
theorem DenseColumns.ofMatrix?_eq (settings : Settings) {A : Csc α} (hA : A.Layout) (rows : Nat)
    {cols : Nat} (hc : cols ≤ A.cols) : ofMatrix? settings A rows cols =
      some (ofCounts settings rows ((List.range cols).map fun j => (A.column j).length)) := by
  rw [ofMatrix?, mapM_eq_some_map fun j hj => hA.colNnz?_eq
    (Nat.lt_of_lt_of_le (List.mem_range.1 hj) hc)]
  rfl

namespace Form

theorem exists_finish?_eq_some (settings : Settings) (kind : FormKind) (rows : Nat) {cols : Nat}
    {AI : Csc α} (hAI : AI.Layout) (hc : cols ≤ AI.cols) (b c lb ub : Vec α) :
    ∃ F, finish? settings kind rows cols AI b c lb ub = some F := by
  obtain ⟨AIt, hAIt, -⟩ := Csc.transpose?_eq_some hAI
  rw [finish?, hAIt, DenseColumns.ofMatrix?_eq settings hAI rows hc]
  exact ⟨_, rfl⟩

theorem finish?_eq_some {settings : Settings} {kind : FormKind} {rows cols : Nat} {AI : Csc α}
    {b c lb ub : Vec α} {F : Form α}
    (h : finish? settings kind rows cols AI b c lb ub = some F) :
    F.kind = kind ∧ F.rows = rows ∧ F.cols = cols ∧ F.AI = AI ∧ F.b = b ∧ F.c = c ∧ F.lb = lb ∧
      F.ub = ub := by
  simp only [finish?, Option.bind_eq_bind, Option.bind_eq_some_iff, Option.pure_def,
    Option.some_inj] at h
  obtain ⟨_, _, _, _, rfl⟩ := h
  exact ⟨rfl, rfl, rfl, rfl, rfl, rfl, rfl, rfl⟩

/-- A completed form has the transpose of its matrix and the dense columns of the matrix. -/
def Completed (settings : Settings) (F : Form α) : Prop :=
  F.AI.transpose? = some F.AIt ∧
    DenseColumns.ofMatrix? settings F.AI F.rows F.cols = some F.dense

theorem completed_of_finish? {settings : Settings} {kind : FormKind} {rows cols : Nat} {AI : Csc α}
    {b c lb ub : Vec α} {F : Form α}
    (h : finish? settings kind rows cols AI b c lb ub = some F) : F.Completed settings := by
  simp only [finish?, Option.bind_eq_bind, Option.bind_eq_some_iff, Option.pure_def,
    Option.some_inj] at h
  obtain ⟨AIt, hAIt, dense, hdense, rfl⟩ := h
  exact ⟨hAIt, hdense⟩

/-! ### Primal form -/

structure IsPrimal (P : Program α) (S : ScaledProgram α) (F : Form α) : Prop where
  kind_eq : F.kind = .primal
  rows_eq : F.rows = P.numConstr
  cols_eq : F.cols = P.numVar
  layout : F.AI.Layout
  rows_AI : F.AI.rows = P.numConstr
  cols_AI : F.AI.cols = P.numVar + P.numConstr
  column : ∀ j < P.numVar, F.AI.column j = S.A.column j
  column_slack : ∀ i < P.numConstr, F.AI.column (P.numVar + i) = [(i, 1)]
  b_eq : F.b = S.rhs
  c_eq : F.c = S.obj ++ Vec.zeros P.numConstr
  lb_eq : F.lb = S.lb ++ P.types.map slackLower
  ub_eq : F.ub = S.ub ++ P.types.map slackUpper

theorem primal?_eq_some (settings : Settings) {P : Program α} {S : ScaledProgram α} (hP : P.Valid)
    (hS : ScaledProgram.Copies P S) : ∃ F, primal? settings P S = some F ∧ IsPrimal P S F := by
  obtain ⟨C, hC, hlayout, hrows, hcols, -, hleft, hright⟩ :=
    Csc.hcat?_eq_some (hS.layout hP) (Csc.layout_identity P.numConstr) hS.rows_eq
  rw [hS.cols_eq] at hcols hleft hright
  have hle : P.numVar ≤ C.cols := hcols ▸ Nat.le_add_right _ _
  obtain ⟨F, hF⟩ := exists_finish?_eq_some settings .primal P.numConstr hlayout hle S.rhs
    (S.obj ++ Vec.zeros P.numConstr) (S.lb ++ P.types.map slackLower) (S.ub ++ P.types.map slackUpper)
  obtain ⟨hkind, hr, hc, rfl, hb, hcost, hlb, hub⟩ := finish?_eq_some hF
  refine ⟨F, ?_, {
    kind_eq := hkind
    rows_eq := hr
    cols_eq := hc
    layout := hlayout
    rows_AI := hrows.trans hS.rows_eq
    cols_AI := hcols
    column := hleft
    column_slack := fun i hi => (hright i hi).trans (Csc.column_identity hi)
    b_eq := hb
    c_eq := hcost
    lb_eq := hlb
    ub_eq := hub }⟩
  simpa only [primal?, hS.size_lb, hS.size_ub, ne_eq, not_true_eq_false, or_self, if_false, hC,
    Option.bind_eq_bind, Option.bind_some] using hF

theorem isPrimal_of_primal? {settings : Settings} {P : Program α} {S : ScaledProgram α}
    {F : Form α} (hP : P.Valid) (hS : ScaledProgram.Copies P S)
    (h : primal? settings P S = some F) : IsPrimal P S F := by
  obtain ⟨F', hF', hprimal⟩ := primal?_eq_some settings hP hS
  exact Option.some_inj.1 (hF'.symm.trans h) ▸ hprimal

/-! ### Dual form -/

/-- The columns of the dual matrix. -/
theorem dualMatrix?_eq_some {A : Csc α} (hA : A.Layout) (boxed : List Nat)
    (hb : ∀ j ∈ boxed, j < A.cols) :
    ∃ C, dualMatrix? A A.rows A.cols boxed = some C ∧ C.Layout ∧ C.rows = A.cols ∧
      C.cols = A.rows + boxed.length + A.cols ∧ (∀ i < A.rows, C.column i = A.row i) ∧
      (∀ k (hk : k < boxed.length), C.column (A.rows + k) = [(boxed[k], -1)]) ∧
      ∀ j < A.cols, C.column (A.rows + boxed.length + j) = [(j, 1)] := by
  have hfit : ∀ b ∈ [Block.matrix A 0 0 .transposed, .units boxed (-1) A.rows,
      .units (List.range A.cols) 1 (A.rows + boxed.length)],
      b.Fits (A.rows + boxed.length + A.cols) := by
    simp [Block.Fits, hA, Nat.add_assoc]
  have hlen : A.nzval.size + boxed.length + A.cols = ([Block.matrix A 0 0 .transposed,
      .units boxed (-1) A.rows, .units (List.range A.cols) 1 (A.rows + boxed.length)].flatMap
        Block.triples).length := by
    simp [Block.triples, hA.length_triples, Nat.add_assoc]
  obtain ⟨C, hC, hold⟩ := Csc.assemble?_eq A.cols hfit hlen
  have hmatrix : (Block.matrix A 0 0 .transposed).Fits A.rows := ⟨hA, Nat.le_of_eq (Nat.zero_add _)⟩
  have hunits : (Block.units boxed (-1 : α) A.rows).Fits (A.rows + boxed.length) := Nat.le_refl _
  have hcolumn : ∀ j < A.rows + boxed.length + A.cols, C.column j =
      columnOf (Block.matrix A 0 0 .transposed).triples j ++
        (columnOf (Block.units boxed (-1) A.rows).triples j ++
          columnOf (Block.units (List.range A.cols) 1 (A.rows + boxed.length)).triples j) := by
    intro j hj
    rw [hold.column j hj, List.flatMap_cons, List.flatMap_cons, List.flatMap_singleton,
      columnOf_append, columnOf_append]
  have hrow : ∀ i < A.rows, C.column i = A.row i := by
    intro i hi
    have ht := Block.columnOf_transposed A 0 0 i
    rw [Nat.zero_add] at ht
    rw [hcolumn i (by omega), ht, Block.columnOf_of_lt hi,
      Block.columnOf_of_lt (Nat.lt_add_right _ hi)]
    simp
  have hupper : ∀ k (hk : k < boxed.length), C.column (A.rows + k) = [(boxed[k], -1)] := by
    intro k hk
    rw [hcolumn _ (by omega), Block.columnOf_of_le hmatrix (by omega),
      Block.columnOf_units _ _ _ hk, Block.columnOf_of_lt (Nat.add_lt_add_left hk _)]
    simp
  have hlower : ∀ j < A.cols, C.column (A.rows + boxed.length + j) = [(j, 1)] := by
    intro j hj
    rw [hcolumn _ (by omega), Block.columnOf_of_le hmatrix (by omega),
      Block.columnOf_of_le hunits (by omega), Block.columnOf_units _ _ _ (by simpa using hj)]
    simp
  refine ⟨C, ?_, hold.layout (Block.col_lt_of_mem_flatMap hfit) ?_ ?_, hold.rows_eq, hold.cols_eq,
    hrow, hupper, hlower⟩
  · rw [dualMatrix?, hA.nnz?_eq]
    simpa only [Option.bind_eq_bind, Option.bind_some] using hC
  · rw [forall_lt_add_iff_lt_left, forall_lt_add_iff_lt_left]
    refine ⟨⟨fun i hi e he => ?_, fun k hk e he => ?_⟩, fun j hj e he => ?_⟩
    · exact (Csc.mem_row.1 (hrow i hi ▸ he)).1
    · rw [hupper k hk, List.mem_singleton] at he
      exact he ▸ hb _ (List.getElem_mem hk)
    · rw [hlower j hj, List.mem_singleton] at he
      exact he ▸ hj
  · rw [forall_lt_add_iff_lt_left, forall_lt_add_iff_lt_left]
    refine ⟨⟨fun i hi => ?_, fun k hk => ?_⟩, fun j hj => ?_⟩
    · exact hrow i hi ▸ hA.nodup_row i
    · simp [hupper k hk]
    · simp [hlower j hj]

structure IsDual (P : Program α) (S : ScaledProgram α) (F : Form α) : Prop where
  kind_eq : F.kind = .dual
  rows_eq : F.rows = P.numVar
  cols_eq : F.cols = P.numConstr + P.boxed.length
  layout : F.AI.Layout
  rows_AI : F.AI.rows = P.numVar
  cols_AI : F.AI.cols = P.numConstr + P.boxed.length + P.numVar
  column : ∀ i < P.numConstr, F.AI.column i = S.A.row i
  column_upper : ∀ k (hk : k < P.boxed.length),
    F.AI.column (P.numConstr + k) = [(P.boxed[k], -1)]
  column_lower : ∀ j < P.numVar, F.AI.column (P.numConstr + P.boxed.length + j) = [(j, 1)]
  b_eq : F.b = S.obj
  c_eq : F.c = dualCost P S
  lb_eq : F.lb = dualLower P
  ub_eq : F.ub = dualUpper P S

theorem dual?_eq_some (settings : Settings) {P : Program α} {S : ScaledProgram α} (hP : P.Valid)
    (hS : ScaledProgram.Copies P S) (hfit : BoundsFit S P.numVar) :
    ∃ F, dual? settings P S = some F ∧ IsDual P S F := by
  obtain ⟨C, hC, hlayout, hrows, hcols, hrow, hupper, hlower⟩ :=
    dualMatrix?_eq_some (hS.layout hP) P.boxed fun j hj =>
      hS.cols_eq.symm ▸ hP.lt_of_mem_boxed hj
  rw [hS.rows_eq, hS.cols_eq] at hC hcols
  rw [hS.rows_eq] at hrow hupper hlower
  rw [hS.cols_eq] at hrows hlower
  have hle : P.numConstr + P.boxed.length ≤ C.cols := hcols ▸ Nat.le_add_right _ _
  obtain ⟨F, hF⟩ := exists_finish?_eq_some settings .dual P.numVar hlayout hle S.obj
    (dualCost P S) (dualLower P) (dualUpper P S)
  obtain ⟨hkind, hr, hc, rfl, hb, hcost, hlb, hub⟩ := finish?_eq_some hF
  refine ⟨F, ?_, {
    kind_eq := hkind
    rows_eq := hr
    cols_eq := hc
    layout := hlayout
    rows_AI := hrows
    cols_AI := hcols
    column := hrow
    column_upper := hupper
    column_lower := hlower
    b_eq := hb
    c_eq := hcost
    lb_eq := hlb
    ub_eq := hub }⟩
  rw [dual?, if_pos hfit, hC]
  exact hF

theorem boundsFit_of_dual?_eq_some {settings : Settings} {P : Program α} {S : ScaledProgram α}
    {F : Form α} (h : dual? settings P S = some F) : BoundsFit S P.numVar := by
  by_contra hfit
  rw [dual?, if_neg hfit] at h
  cases h

theorem isDual_of_dual? {settings : Settings} {P : Program α} {S : ScaledProgram α}
    {F : Form α} (hP : P.Valid) (hS : ScaledProgram.Copies P S)
    (h : dual? settings P S = some F) : IsDual P S F := by
  obtain ⟨F', hF', hdual⟩ := dual?_eq_some settings hP hS (boundsFit_of_dual?_eq_some h)
  exact Option.some_inj.1 (hF'.symm.trans h) ▸ hdual

theorem completed_of_ofScaled? {settings : Settings} {P : Program α} {S : ScaledProgram α}
    {F : Form α} (h : ofScaled? settings P S = some F) : F.Completed settings := by
  unfold ofScaled? at h
  split at h
  · unfold dual? at h
    split at h
    · obtain ⟨C, -, hF⟩ := Option.bind_eq_some_iff.1 h
      exact completed_of_finish? hF
    · cases h
  · unfold primal? at h
    simp only at h
    split at h
    · cases h
    · obtain ⟨C, -, hF⟩ := Option.bind_eq_some_iff.1 h
      exact completed_of_finish? hF

theorem isPrimal_or_isDual {settings : Settings} {P : Program α} {S : ScaledProgram α}
    {F : Form α} (hP : P.Valid) (hS : ScaledProgram.Copies P S)
    (h : ofScaled? settings P S = some F) : IsPrimal P S F ∨ IsDual P S F := by
  unfold ofScaled? at h
  split at h
  · exact .inr (isDual_of_dual? hP hS h)
  · exact .inl (isPrimal_of_primal? hP hS h)

theorem layout_of_ofScaled? {settings : Settings} {P : Program α} {S : ScaledProgram α}
    {F : Form α} (hP : P.Valid) (hS : ScaledProgram.Copies P S)
    (h : ofScaled? settings P S = some F) : F.AI.Layout := by
  rcases isPrimal_or_isDual hP hS h with hF | hF
  · exact hF.layout
  · exact hF.layout

end Form

end LpPresolve
