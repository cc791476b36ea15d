import LpPresolve.Proofs.Sparse.Rearranged

/-! Matrices and their transposes. A transpose is determined by its columns, which are the rows of the
matrix; its rows are the columns of the matrix in increasing order of the row indices. So its norms are
those of the matrix with rows and columns exchanged: exactly for the rows of the matrix, which are met in
that order anyway, and because a maximum does not depend on the order for its columns. -/

namespace LpPresolve.Csc

variable {α : Type} [Scalar α] {A B A' B' : Csc α}

/-- The columns of `B` are the rows of `A`. -/
structure Transposed (A B : Csc α) : Prop where
  layout : A.Layout
  layout' : B.Layout
  rows_eq : B.rows = A.cols
  cols_eq : B.cols = A.rows
  column : ∀ i < A.rows, B.column i = A.row i

theorem Layout.exists_transposed (hA : A.Layout) : ∃ B, A.transpose? = some B ∧ A.Transposed B := by
  obtain ⟨B, hB, hlayout, hrows, hcols, -, hcolumn⟩ := transpose?_eq_some hA
  exact ⟨B, hB, hA, hlayout, hrows, hcols, hcolumn⟩

namespace Transposed

/-- There is one transpose only. -/
theorem transpose?_eq (h : A.Transposed B) : A.transpose? = some B := by
  obtain ⟨C, hC, hAC⟩ := h.layout.exists_transposed
  have hCB : C = B := by
    refine h.layout'.ext hAC.layout' ?_ ?_ fun i hi => ?_
    · rw [hAC.rows_eq, h.rows_eq]
    · rw [hAC.cols_eq, h.cols_eq]
    · have hi := h.cols_eq ▸ hi
      rw [hAC.column i hi, h.column i hi]
  rw [hC, hCB]

omit [Scalar α] in
theorem mem_row_iff (h : A.Transposed B) {j : Nat} (hj : j < A.cols) {e : Nat × α} :
    e ∈ B.row j ↔ e ∈ A.column j := by
  rw [mem_row, h.cols_eq]
  constructor
  · rintro ⟨hi, he⟩
    rw [h.column e.1 hi, mem_row] at he
    exact he.2
  · intro he
    have hi := h.layout.row_lt j hj e he
    rw [h.column e.1 hi, mem_row]
    exact ⟨hi, hj, he⟩

omit [Scalar α] in
/-- The rows of the transpose are rearranged columns. -/
theorem row_perm (h : A.Transposed B) {j : Nat} (hj : j < A.cols) :
    (B.row j).Perm (A.column j) :=
  (List.perm_ext_iff_of_nodup ((h.layout'.nodup_row j).of_map _)
    ((h.layout.nodup j hj).of_map _)).2 fun _ => h.mem_row_iff hj

theorem all_nzval_eq (h : A.Transposed B) (p : α → Bool) : B.nzval.all p = A.nzval.all p := by
  have hmem : ∀ a, a ∈ B.nzval ↔ a ∈ A.nzval := by
    intro a
    rw [h.layout.mem_nzval_iff, h.layout'.mem_nzval_iff, h.cols_eq]
    constructor
    · rintro ⟨i, hi, e, he, rfl⟩
      rw [h.column i hi, mem_row] at he
      exact ⟨e.1, he.1, (i, e.2), he.2, rfl⟩
    · rintro ⟨j, hj, e, he, rfl⟩
      have hi := h.layout.row_lt j hj e he
      exact ⟨e.1, hi, (j, e.2), by rw [h.column e.1 hi, mem_row]; exact ⟨hj, he⟩, rfl⟩
  rw [Bool.eq_iff_iff, Array.all_eq_true_iff_forall_mem, Array.all_eq_true_iff_forall_mem]
  simp only [hmem]

/-! ### Norms -/

theorem colNorms?_eq (h : A.Transposed B) : B.colNorms? B.cols = A.rowNorms? A.rows := by
  rw [h.layout'.colNorms?_eq, h.layout.rowNorms?_eq, h.cols_eq]
  congr 2
  apply List.map_congr_left
  intro i hi
  rw [h.column i (List.mem_range.1 hi)]

theorem rowNorms?_eq [LawfulMax α] (h : A.Transposed B) :
    B.rowNorms? B.rows = A.colNorms? A.cols := by
  rw [h.layout'.rowNorms?_eq, h.layout.colNorms?_eq, h.rows_eq]
  congr 2
  apply List.map_congr_left
  intro j hj
  exact LawfulMax.largest_perm ((h.row_perm (List.mem_range.1 hj)).map _)

/-! ### Changes of the values -/

omit [Scalar α] in
/-- The same changes of values, with the roles of rows and columns exchanged. -/
theorem mapped (h : A.Transposed B) {f g : Nat → Nat → α → α} (hA : A.Mapped A' f)
    (hB : B.Mapped B' g) (hfg : ∀ i j a, g j i a = f i j a) : A'.Transposed B' where
  layout := hA.layout h.layout
  layout' := hB.layout h.layout'
  rows_eq := by rw [hB.rows_eq, hA.cols_eq, h.rows_eq]
  cols_eq := by rw [hB.cols_eq, hA.rows_eq, h.cols_eq]
  column i hi := by
    have hi := hA.rows_eq ▸ hi
    rw [hB.column i (h.cols_eq.symm ▸ hi), hA.row, h.column i hi]
    simp only [hfg]

end Transposed

end LpPresolve.Csc
