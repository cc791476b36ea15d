import LpPresolve.Proofs.Program.Validity
import LpPresolve.Proofs.Sparse.Transposed
import LpPresolve.Scalar.Binary

/-! Matrices with sorted columns. A transpose lists the entries of a row in the order of their columns,
wherever they were stored. So the transpose of a transpose is the matrix with every column sorted by row
index, and the matrix itself if its columns are. -/

namespace LpPresolve

variable {α : Type}

/-! ### Pairs by increasing index -/

/-- Ascending indices leave one order only. -/
theorem eq_of_perm_of_ascending {es fs : List (Nat × α)} (h : es.Perm fs)
    (hes : (es.map (·.1)).Pairwise (· < ·)) (hfs : (fs.map (·.1)).Pairwise (· < ·)) : es = fs := by
  rw [List.pairwise_map] at hes hfs
  exact h.eq_of_pairwise (fun _ _ _ _ hlt hgt => absurd hgt (Nat.lt_asymm hlt)) hes hfs

def indexLe (e f : Nat × α) : Bool := e.1 ≤ f.1

/-- The pairs in the order of their indices. -/
def sortPairs (es : List (Nat × α)) : List (Nat × α) := es.mergeSort indexLe

theorem sortPairs_perm (es : List (Nat × α)) : (sortPairs es).Perm es := List.mergeSort_perm _ _

theorem sortPairs_ascending {es : List (Nat × α)} (h : (es.map (·.1)).Nodup) :
    ((sortPairs es).map (·.1)).Pairwise (· < ·) := by
  have htrans : ∀ a b c : Nat × α, indexLe a b → indexLe b c → indexLe a c := by
    simp only [indexLe, decide_eq_true_eq]
    exact fun _ _ _ => Nat.le_trans
  have htotal : ∀ a b : Nat × α, indexLe a b || indexLe b a := by
    simp only [indexLe, Bool.or_eq_true, decide_eq_true_eq]
    exact fun _ _ => Nat.le_total _ _
  have hle := List.pairwise_mergeSort htrans htotal es
  have hne := ((sortPairs_perm es).map (·.1)).nodup_iff.2 h
  rw [List.Nodup, List.pairwise_map] at hne
  rw [List.pairwise_map]
  exact (hle.and hne).imp fun ⟨hle, hne⟩ => Nat.lt_of_le_of_ne (of_decide_eq_true hle) hne

theorem eq_sortPairs {es fs : List (Nat × α)} (h : fs.Perm es)
    (hfs : (fs.map (·.1)).Pairwise (· < ·)) : fs = sortPairs es := by
  have hn : (es.map (·.1)).Nodup := (h.map _).nodup_iff.1 (hfs.imp Nat.ne_of_lt)
  exact eq_of_perm_of_ascending (h.trans (sortPairs_perm es).symm) hfs (sortPairs_ascending hn)

namespace Csc

/-! ### Sorted columns -/

/-- The row indices ascend in every column. -/
def Ascending (A : Csc α) : Prop := ∀ j < A.cols, ((A.column j).map (·.1)).Pairwise (· < ·)

instance (A : Csc α) : Decidable A.Ascending := inferInstanceAs (Decidable (∀ j < A.cols, _))

/-- The matrix with the entries of each column in the order of their row indices. -/
def sortColumns (A : Csc α) : Csc α :=
  let es := (List.range A.cols).flatMap fun j => sortPairs (A.column j)
  { A with rowval := (es.map (·.1)).toArray, nzval := (es.map (·.2)).toArray }

variable [Scalar α] {A B : Csc α}

/-- Sorted columns leave one matrix only. -/
theorem Layout.eq_sortColumns (hA : A.Layout) (hB : B.Layout) (hrows : B.rows = A.rows)
    (hcols : B.cols = A.cols) (hcolumn : ∀ j < A.cols, B.column j = sortPairs (A.column j)) :
    B = A.sortColumns := by
  have hperm := hA.rearranged hB hrows hcols fun j hj => hcolumn j hj ▸ sortPairs_perm _
  have hflat : (List.range B.cols).flatMap B.column =
      (List.range A.cols).flatMap fun j => sortPairs (A.column j) := by
    rw [hcols]
    exact List.flatMap_congr fun j hj => hcolumn j (List.mem_range.1 hj)
  have hrowval := hB.map_fst_flatMap_column
  have hnzval := hB.map_snd_flatMap_column
  rw [hflat] at hrowval hnzval
  simp only [sortColumns, hrowval, hnzval, Array.toArray_toList, ← hrows, ← hperm.colptr_eq]
  rw [← hcols]

namespace Transposed

omit [Scalar α] in
/-- The rows of the transpose are the sorted columns. -/
theorem row_eq_sortPairs (h : A.Transposed B) {j : Nat} (hj : j < A.cols) :
    B.row j = sortPairs (A.column j) :=
  eq_sortPairs (h.row_perm hj) (h.layout'.row_sorted j)

omit [Scalar α] in
theorem row_eq_column (h : A.Transposed B) (hA : A.Ascending) {j : Nat} (hj : j < A.cols) :
    B.row j = A.column j :=
  eq_of_perm_of_ascending (h.row_perm hj) (h.layout'.row_sorted j) (hA j hj)

omit [Scalar α] in
theorem ascending (h : A.Transposed B) : B.Ascending := by
  intro i hi
  rw [h.column i (h.cols_eq ▸ hi)]
  exact h.layout.row_sorted i

/-- The values are those of the matrix. -/
theorem wellFormed (h : A.Transposed B) (hA : A.WellFormed) : B.WellFormed := by
  have hfinite := h.all_nzval_eq Scalar.isFinite
  rw [Bool.eq_iff_iff, Array.all_eq_true_iff_forall_mem, Array.all_eq_true_iff_forall_mem]
    at hfinite
  exact h.layout'.wellFormed (hfinite.2 hA.finite)

theorem transposed_sortColumns (h : A.Transposed B) : B.Transposed A.sortColumns := by
  obtain ⟨C, -, hBC⟩ := h.layout'.exists_transposed
  have hC : C = A.sortColumns := by
    refine h.layout.eq_sortColumns hBC.layout' ?_ ?_ fun j hj => ?_
    · rw [hBC.rows_eq, h.cols_eq]
    · rw [hBC.cols_eq, h.rows_eq]
    · rw [hBC.column j (h.rows_eq.symm ▸ hj), h.row_eq_sortPairs hj]
  exact hC ▸ hBC

omit [Scalar α] in
/-- Being a transpose is mutual between matrices with sorted columns. -/
theorem symm (h : A.Transposed B) (hA : A.Ascending) : B.Transposed A where
  layout := h.layout'
  layout' := h.layout
  rows_eq := h.cols_eq.symm
  cols_eq := h.rows_eq.symm
  column _ hj := (h.row_eq_column hA (h.rows_eq ▸ hj)).symm

end Transposed

/-- The transpose of an accepted matrix is accepted, its columns ascend, and each of them holds the
entries of a row with their values unchanged. Transposed again it is the matrix with sorted columns,
and the matrix itself if its columns are sorted. -/
theorem transpose?_transpose? (hA : A.checkFormat = .ok ()) :
    ∃ B, A.transpose? = some B ∧ B.rows = A.cols ∧ B.cols = A.rows ∧ B.checkFormat = .ok () ∧
      B.Ascending ∧
      (∀ i < A.rows, ∀ j a, (j, a) ∈ B.column i ↔ j < A.cols ∧ (i, a) ∈ A.column j) ∧
      B.transpose? = some A.sortColumns ∧ (A.Ascending → B.transpose? = some A) := by
  have hformat := A.checkFormat_eq_ok_iff.1 hA
  obtain ⟨B, hB, htrans⟩ := hformat.layout.exists_transposed
  refine ⟨B, hB, htrans.rows_eq, htrans.cols_eq, B.checkFormat_eq_ok_iff.2 (htrans.wellFormed hformat),
    htrans.ascending, fun i hi j a => ?_, htrans.transposed_sortColumns.transpose?_eq,
    fun hsorted => (htrans.symm hsorted).transpose?_eq⟩
  rw [htrans.column i hi, mem_row]

/-- A column out of order with an explicit zero, an empty column, and no entry in the third row. -/
def shuffled : Csc Float := ⟨4, 3, #[0, 3, 3, 5], #[3, 0, 1, 1, 0], #[2, 0, -4, 1, 8]⟩

theorem transpose?_transpose?_shuffled :
    shuffled.checkFormat = .ok () ∧ ¬ shuffled.Ascending ∧ ∃ B, shuffled.transpose? = some B ∧
      B.checkFormat = .ok () ∧ B.Ascending ∧ (0, 0) ∈ B.column 0 ∧
      B.transpose? = some ⟨4, 3, #[0, 3, 3, 5], #[0, 1, 3, 0, 1], #[0, -4, 2, 8, 1]⟩ ∧
      B.transpose? ≠ some shuffled := by
  have hformat : shuffled.checkFormat = .ok () :=
    shuffled.checkFormat_eq_ok_iff.2 (by decide +kernel)
  have hsorted : shuffled.sortColumns =
      ⟨4, 3, #[0, 3, 3, 5], #[0, 1, 3, 0, 1], #[0, -4, 2, 8, 1]⟩ := by
    simp [sortColumns, shuffled, sortPairs, indexLe, column, List.range_succ, List.mergeSort]
  obtain ⟨B, hB, -, -, hcheck, hasc, hmem, htwice, -⟩ := transpose?_transpose? hformat
  rw [hsorted] at htwice
  refine ⟨hformat, by decide, B, hB, hcheck, hasc, ?_, htwice, ?_⟩
  · rw [hmem 0 (by decide)]
    exact ⟨by decide, by simp [shuffled, column]⟩
  · rw [htwice]
    simp [shuffled]

end Csc

end LpPresolve
