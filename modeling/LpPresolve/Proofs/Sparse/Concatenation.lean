import LpPresolve.Proofs.Sparse.Blocks

/-! Assembled matrices in column form: the rows of a matrix, which are the columns of its transpose,
the identity, the transpose, and the concatenation of two matrices. -/

namespace LpPresolve

variable {α : Type}

namespace Csc

/-! ### Rows -/

theorem mem_row {A : Csc α} {i : Nat} {e : Nat × α} :
    e ∈ A.row i ↔ e.1 < A.cols ∧ (i, e.2) ∈ A.column e.1 := by
  obtain ⟨j, a⟩ := e
  simp only [row, List.mem_flatMap, List.mem_range, List.mem_map, List.mem_filter,
    decide_eq_true_eq, Prod.mk.injEq]
  constructor
  · rintro ⟨j', hj, ⟨i', a'⟩, ⟨he, rfl⟩, rfl, rfl⟩
    exact ⟨hj, he⟩
  · rintro ⟨hj, he⟩
    exact ⟨j, hj, (i, a), ⟨he, rfl⟩, rfl, rfl⟩

theorem Layout.mem_nzval_of_row [Scalar α] {A : Csc α} (h : A.Layout) {i : Nat} {e : Nat × α}
    (he : e ∈ A.row i) : e.2 ∈ A.nzval :=
  h.mem_nzval_of_column (e := (i, e.2)) (mem_row.1 he).1 (mem_row.1 he).2

/-- A row index is stored at most once in a column. -/
theorem Layout.length_filter_column_le {A : Csc α} (h : A.Layout) {j : Nat} (hj : j < A.cols)
    (i : Nat) : ((A.column j).filter (·.1 = i)).length ≤ 1 := by
  have hn := (h.nodup j hj).sublist ((List.filter_sublist (p := fun e : Nat × α => e.1 = i)).map (·.1))
  have hr : ((A.column j).filter (·.1 = i)).map (·.1) =
      List.replicate ((A.column j).filter (·.1 = i)).length i := by
    rw [← List.map_const']
    apply List.map_congr_left
    intro e he
    simpa using (List.mem_filter.1 he).2
  rw [hr, List.nodup_replicate] at hn
  exact hn

theorem Layout.row_sorted {A : Csc α} (h : A.Layout) (i : Nat) :
    ((A.row i).map (·.1)).Pairwise (· < ·) := by
  rw [row, List.map_flatMap, List.pairwise_flatMap]
  constructor
  · intro j hj
    have hle := h.length_filter_column_le (List.mem_range.1 hj) i
    generalize (A.column j).filter (·.1 = i) = es at hle
    rcases es with _ | ⟨e, _ | ⟨e', r⟩⟩
    · exact List.Pairwise.nil
    · simp
    · simp at hle
  · apply List.pairwise_lt_range.imp
    intro j k hjk x hx y hy
    simp only [List.map_map, List.mem_map, Function.comp_apply] at hx hy
    obtain ⟨_, _, rfl⟩ := hx
    obtain ⟨_, _, rfl⟩ := hy
    exact hjk

theorem Layout.nodup_row {A : Csc α} (h : A.Layout) (i : Nat) :
    ((A.row i).map (·.1)).Nodup :=
  (h.row_sorted i).imp Nat.ne_of_lt

variable [Scalar α]

/-! ### Identity -/

theorem column_identity {n j : Nat} (hj : j < n) :
    (identity n : Csc α).column j = [(j, 1)] := by
  have hs : ∀ k ≤ n, (identity n : Csc α).start k = k := fun k hk => by
    simp [start, identity, Array.getD_eq_getD_getElem?, Nat.lt_succ_of_le hk]
  have hsize : (identity n : Csc α).start (j + 1) ≤ n := by rw [hs (j + 1) hj]; exact hj
  rw [column_eq_slots _ (by simpa [identity] using hsize) (by simpa [identity] using hsize),
    hs (j + 1) hj, hs j (Nat.le_of_lt hj), Nat.add_sub_cancel_left]
  simp [slots, slot, identity, Array.getD_eq_getD_getElem?, hj, Vec.entry]

theorem layout_identity (n : Nat) : (identity n : Csc α).Layout where
  size_rowval := by simp [identity]
  size_colptr := by simp [identity]
  start_zero := by simp [start, identity, Array.getD_eq_getD_getElem?]
  start_le_succ j hj := by
    have hj' : j < n := hj
    simp [start, identity, Array.getD_eq_getD_getElem?, show j < n + 1 by omega, hj']
  start_cols := by simp [start, identity, Array.getD_eq_getD_getElem?]
  row_lt j hj e he := by
    have hj' : j < n := hj
    rw [column_identity hj', List.mem_singleton] at he
    exact he ▸ hj'
  nodup j hj := by
    have hj' : j < n := hj
    rw [column_identity hj']
    simp

/-! ### Transposition -/

/-- The columns of the transpose are the rows. -/
theorem transpose?_eq_some {A : Csc α} (hA : A.Layout) :
    ∃ B, A.transpose? = some B ∧ B.Layout ∧ B.rows = A.cols ∧ B.cols = A.rows ∧
      B.nzval.size = A.nzval.size ∧ ∀ i < A.rows, B.column i = A.row i := by
  have hfit : ∀ b ∈ [Block.matrix A 0 0 .transposed], b.Fits A.rows := by
    simp [Block.Fits, hA]
  have hlen : A.nzval.size =
      ([Block.matrix A 0 0 .transposed].flatMap Block.triples).length := by
    simp [Block.triples, hA.length_triples]
  obtain ⟨B, hB, hold⟩ := assemble?_eq A.cols hfit hlen
  have hcolumn : ∀ i < A.rows, B.column i = A.row i := by
    intro i hi
    have hrow := Block.columnOf_transposed A 0 0 i
    rw [hold.column i hi, List.flatMap_singleton]
    simpa using hrow
  refine ⟨B, ?_, hold.layout (Block.col_lt_of_mem_flatMap hfit) ?_ ?_, hold.rows_eq, hold.cols_eq,
    by rw [hold.size_nzval, hlen], hcolumn⟩
  · rw [transpose?, hA.nnz?_eq]
    exact hB
  · intro i hi e he
    rw [hcolumn i hi] at he
    exact (mem_row.1 he).1
  · intro i hi
    rw [hcolumn i hi]
    exact hA.nodup_row i

/-! ### Concatenation -/

theorem hcat?_eq_some {A B : Csc α} (hA : A.Layout) (hB : B.Layout) (h : A.rows = B.rows) :
    ∃ C, A.hcat? B = some C ∧ C.Layout ∧ C.rows = A.rows ∧ C.cols = A.cols + B.cols ∧
      C.nzval.size = A.nzval.size + B.nzval.size ∧
      (∀ j < A.cols, C.column j = A.column j) ∧
      ∀ j < B.cols, C.column (A.cols + j) = B.column j := by
  have hfit : ∀ b ∈ [Block.matrix A 0 0 .normal, .matrix B 0 A.cols .normal],
      b.Fits (A.cols + B.cols) := by
    simp [Block.Fits, hA, hB]
  have hlen : A.nzval.size + B.nzval.size =
      ([Block.matrix A 0 0 .normal, .matrix B 0 A.cols .normal].flatMap Block.triples).length := by
    simp [Block.triples, hA.length_triples, hB.length_triples]
  obtain ⟨C, hC, hold⟩ := assemble?_eq A.rows hfit hlen
  have hleft : ∀ j < A.cols, C.column j = A.column j := by
    intro j hj
    have h₁ := Block.columnOf_normal A 0 0 hj
    have h₂ : columnOf (Block.matrix B 0 A.cols .normal).triples j = [] := Block.columnOf_of_lt hj
    rw [hold.column j (by omega), List.flatMap_cons, columnOf_append, List.flatMap_singleton, h₂]
    simpa using h₁
  have hright : ∀ j < B.cols, C.column (A.cols + j) = B.column j := by
    intro j hj
    have hA' : (Block.matrix A 0 0 .normal).Fits A.cols := ⟨hA, Nat.le_of_eq (Nat.zero_add _)⟩
    have h₁ := Block.columnOf_of_le hA' (Nat.le_add_right A.cols j)
    have h₂ := Block.columnOf_normal B 0 A.cols hj
    rw [hold.column _ (by omega), List.flatMap_cons, columnOf_append, List.flatMap_singleton, h₁]
    simpa using h₂
  refine ⟨C, ?_, hold.layout (Block.col_lt_of_mem_flatMap hfit) ?_ ?_, hold.rows_eq, hold.cols_eq,
    by rw [hold.size_nzval, hlen], hleft, hright⟩
  · rw [hcat?, hA.nnz?_eq, hB.nnz?_eq]
    simp only [Option.bind_eq_bind, Option.bind_some]
    rw [hcatWithin?, if_neg (by simp [h]), hC]
  · rw [forall_lt_add_iff_lt_left]
    constructor
    · intro j hj
      rw [hleft j hj]
      exact hA.row_lt j hj
    · intro j hj
      rw [hright j hj, h]
      exact hB.row_lt j hj
  · rw [forall_lt_add_iff_lt_left]
    constructor
    · intro j hj
      rw [hleft j hj]
      exact hA.nodup j hj
    · intro j hj
      rw [hright j hj]
      exact hB.nodup j hj

end Csc

end LpPresolve
