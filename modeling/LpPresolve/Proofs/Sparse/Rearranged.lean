import LpPresolve.Proofs.Maxima
import LpPresolve.Proofs.Sparse.Concatenation

/-! Matrices that differ in the storage order within their columns. A row index is stored once in a
column, so rows are met in one order anyway, and the transposes are the same array for array; column
norms are maxima, and scaling rearranges the scaled entries alike. -/

namespace LpPresolve.Csc

variable {α : Type}

/-- The same pairs are stored in each column, possibly in another order. -/
structure Rearranged (A B : Csc α) : Prop where
  rows_eq : B.rows = A.rows
  cols_eq : B.cols = A.cols
  colptr_eq : B.colptr = A.colptr
  column : ∀ j < A.cols, (B.column j).Perm (A.column j)

namespace Rearranged

variable {A B A' B' : Csc α}

protected theorem refl (A : Csc α) : A.Rearranged A := ⟨rfl, rfl, rfl, fun _ _ => .refl _⟩

/-- The same changes of values in the same rows and columns. -/
theorem mapped (h : A.Rearranged B) {f : Nat → Nat → α → α} (hA : A.Mapped A' f)
    (hB : B.Mapped B' f) : A'.Rearranged B' where
  rows_eq := by rw [hB.rows_eq, hA.rows_eq, h.rows_eq]
  cols_eq := by rw [hB.cols_eq, hA.cols_eq, h.cols_eq]
  colptr_eq := by rw [hB.colptr_eq, hA.colptr_eq, h.colptr_eq]
  column j hj := by
    have hj := hA.cols_eq ▸ hj
    rw [hA.column j hj, hB.column j (h.cols_eq.symm ▸ hj)]
    exact (h.column j hj).map _

theorem colNnz?_eq (h : A.Rearranged B) : B.colNnz? = A.colNnz? := by
  funext j
  rw [colNnz?, colNnz?, span?, span?, h.colptr_eq]

theorem row_eq (h : A.Rearranged B) (hA : A.Layout) (i : Nat) : B.row i = A.row i := by
  unfold row
  rw [h.cols_eq]
  apply List.flatMap_congr
  intro j hj
  have hj := List.mem_range.1 hj
  have hle := hA.length_filter_column_le hj i
  have hperm := (h.column j hj).filter fun e => decide (e.1 = i)
  congr 1
  generalize (A.column j).filter (·.1 = i) = es at hle hperm
  rcases es with _ | ⟨e, _ | ⟨e', r⟩⟩
  · exact hperm.eq_nil
  · exact hperm.eq_singleton
  · simp at hle

theorem size_nzval_eq (h : A.Rearranged B) (hA : A.Layout) (hB : B.Layout) :
    B.nzval.size = A.nzval.size := by
  rw [← hA.start_cols, ← hB.start_cols, start, start, h.colptr_eq, h.cols_eq]

end Rearranged

variable [Scalar α] {A B : Csc α}

namespace Layout

/-- Two layouts of one shape whose columns hold the same pairs are rearrangements. -/
theorem rearranged (hA : A.Layout) (hB : B.Layout) (hrows : B.rows = A.rows)
    (hcols : B.cols = A.cols) (hcolumn : ∀ j < A.cols, (B.column j).Perm (A.column j)) :
    A.Rearranged B := by
  have hstart : ∀ j ≤ A.cols, B.start j = A.start j := by
    intro j hj
    induction j with
    | zero => rw [hA.start_zero, hB.start_zero]
    | succ j ih =>
      have hlen := (hcolumn j hj).length_eq
      rw [hA.length_column hj, hB.length_column (hcols.symm ▸ hj), ih (by omega)] at hlen
      have := hA.start_le_succ j hj
      have := hB.start_le_succ j (hcols.symm ▸ hj)
      rw [ih (by omega)] at this
      omega
  refine ⟨hrows, hcols, ?_, hcolumn⟩
  apply Array.ext
  · rw [hA.size_colptr, hB.size_colptr, hcols]
  · intro j hjB hjA
    have hj : j ≤ A.cols := by
      rw [hA.size_colptr] at hjA
      omega
    simpa [start, Array.getD_eq_getD_getElem?, hjA, hjB] using hstart j hj

/-- Two layouts of one shape are equal if their columns are. -/
theorem ext (hA : A.Layout) (hB : B.Layout) (hrows : B.rows = A.rows) (hcols : B.cols = A.cols)
    (hcolumn : ∀ j < A.cols, B.column j = A.column j) : B = A := by
  have hcolptr := (hA.rearranged hB hrows hcols fun j hj => .of_eq (hcolumn j hj)).colptr_eq
  have hflat : (List.range B.cols).flatMap B.column = (List.range A.cols).flatMap A.column := by
    rw [hcols]
    exact List.flatMap_congr fun j hj => hcolumn j (List.mem_range.1 hj)
  have hrowval : B.rowval.toList = A.rowval.toList := by
    rw [← hA.map_fst_flatMap_column, ← hB.map_fst_flatMap_column, hflat]
  have hnzval : B.nzval.toList = A.nzval.toList := by
    rw [← hA.map_snd_flatMap_column, ← hB.map_snd_flatMap_column, hflat]
  cases A
  cases B
  cases hrows
  cases hcols
  cases hcolptr
  cases Array.toList_inj.1 hrowval
  cases Array.toList_inj.1 hnzval
  rfl

end Layout

namespace Rearranged

variable (h : A.Rearranged B) (hA : A.Layout) (hB : B.Layout)

include h hA hB

theorem all_nzval_eq (p : α → Bool) : B.nzval.all p = A.nzval.all p := by
  have hmem : ∀ a, a ∈ B.nzval ↔ a ∈ A.nzval := by
    intro a
    rw [hA.mem_nzval_iff, hB.mem_nzval_iff, h.cols_eq]
    apply exists_congr
    intro j
    apply and_congr_right
    intro hj
    simp only [(h.column j hj).mem_iff]
  rw [Bool.eq_iff_iff, Array.all_eq_true_iff_forall_mem, Array.all_eq_true_iff_forall_mem]
  simp only [hmem]

/-! ### Norms -/

theorem rowNorms?_eq : B.rowNorms? B.rows = A.rowNorms? A.rows := by
  rw [hA.rowNorms?_eq, hB.rowNorms?_eq, h.rows_eq]
  simp only [h.row_eq hA]

theorem colNorms?_eq [LawfulMax α] : B.colNorms? B.cols = A.colNorms? A.cols := by
  rw [hA.colNorms?_eq, hB.colNorms?_eq, h.cols_eq]
  congr 2
  apply List.map_congr_left
  intro j hj
  exact LawfulMax.largest_perm ((h.column j (List.mem_range.1 hj)).map _)

/-! ### Assemblies -/

/-- The transposes agree in storage order as well. -/
theorem transpose?_eq : B.transpose? = A.transpose? := by
  obtain ⟨At, hAt, hlayout, hrows, hcols, -, hcolumn⟩ := transpose?_eq_some hA
  obtain ⟨Bt, hBt, hlayout', hrows', hcols', -, hcolumn'⟩ := transpose?_eq_some hB
  have heq : Bt = At := by
    refine hlayout.ext hlayout' ?_ ?_ fun i hi => ?_
    · rw [hrows, hrows', h.cols_eq]
    · rw [hcols, hcols', h.rows_eq]
    · rw [hcolumn i (hcols ▸ hi), hcolumn' i (h.rows_eq.symm ▸ hcols ▸ hi), h.row_eq hA]
  rw [hAt, hBt, heq]

theorem hcat? {C : Csc α} (hC : C.Layout) (hrows : A.rows = C.rows) :
    ∃ X Y, A.hcat? C = some X ∧ B.hcat? C = some Y ∧ X.Layout ∧ Y.Layout ∧ X.Rearranged Y := by
  obtain ⟨X, hX, hlayout, hr, hc, -, hleft, hright⟩ := hcat?_eq_some hA hC hrows
  obtain ⟨Y, hY, hlayout', hr', hc', -, hleft', hright'⟩ :=
    hcat?_eq_some hB hC (h.rows_eq.trans hrows)
  rw [h.cols_eq] at hc' hleft' hright'
  refine ⟨X, Y, hX, hY, hlayout, hlayout', hlayout.rearranged hlayout' ?_ ?_ ?_⟩
  · rw [hr, hr', h.rows_eq]
  · rw [hc, hc']
  · rw [hc, forall_lt_add_iff_lt_left]
    constructor
    · intro j hj
      rw [hleft j hj, hleft' j hj]
      exact h.column j hj
    · intro j hj
      rw [hright j hj, hright' j hj]

end Rearranged

end LpPresolve.Csc
