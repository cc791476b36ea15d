import LpPresolve.Proofs.Sparse.Sorted
import LpPresolve.Proofs.Sums
import LpPresolve.Scalar.Binary

/-! Two ways to multiply with the transpose of a matrix: reading the matrix column by column, each
column giving one entry of the result, or reading the stored transpose, each column of which gives
something to many entries. An entry is added up along a column of the matrix either way, in storage
order the first time and by increasing row index the second. -/

namespace LpPresolve.Csc

variable {α : Type} [Scalar α] {A B : Csc α}

/-- Both products are the same as soon as every column adds up to the same in both orders. -/
theorem Transposed.gemv?_eq (h : A.Transposed B) {x y : Vec α} (hx : x.size = A.rows)
    (hy : y.size = A.cols) (a b : α) :
    ∃ r s, A.gemv? .transposed a x b y = some r ∧ B.gemv? .normal a x b y = some s ∧
      ((∀ j < A.cols, ∀ t, addLine a x t (B.row j) = addLine a x t (A.column j)) → s = r) := by
  obtain ⟨r, hr, hrs, hre⟩ := h.layout.gemv?_entries .transposed a hx b hy
  obtain ⟨s, hs, hss, hse⟩ := h.layout'.gemv?_entries .normal a (hx.trans h.cols_eq.symm) b
    (hy.trans h.rows_eq.symm)
  rw [show B.outer .normal = A.cols from h.rows_eq] at hss hse
  refine ⟨r, s, hr, hs, fun hline => Vec.ext_entry (hss.trans hrs.symm) fun j hj => ?_⟩
  have hj := hss ▸ hj
  rw [hse j hj, hre j hj]
  exact hline j hj _

/-- Multiplying with the transpose of an accepted matrix gives the same result whether or not the
transpose is stored: in any arithmetic if the row indices of every column ascend, and else if the
order of a sum counts for nothing. -/
theorem gemv?_transpose? (hA : A.checkFormat = .ok ()) {x y : Vec α} (hx : x.size = A.rows)
    (hy : y.size = A.cols) (a b : α) :
    ∃ B r s, A.transpose? = some B ∧ A.gemv? .transposed a x b y = some r ∧
      B.gemv? .normal a x b y = some s ∧ (A.Ascending → s = r) ∧ (LawfulAdd α → s = r) := by
  obtain ⟨B, hB, htrans⟩ := (A.checkFormat_eq_ok_iff.1 hA).layout.exists_transposed
  obtain ⟨r, s, hr, hs, heq⟩ := htrans.gemv?_eq hx hy a b
  refine ⟨B, r, s, hB, hr, hs, fun hsorted => heq fun j hj t => ?_, fun _ => heq fun j hj t => ?_⟩
  · rw [htrans.row_eq_column hsorted hj]
  · exact addLine_perm a x t (htrans.row_perm hj)

/-- The values of the first column cancel, up to the smallest one. -/
def cancelling : Csc Float := ⟨3, 2, #[0, 3, 4], #[0, 1, 2, 1], #[1e16, 1, -1e16, 0.1]⟩

/-- The same out of order. -/
def scattered : Csc Extended :=
  ⟨3, 2, #[0, 3, 4], #[2, 0, 1, 1], #[.finite (-7), .finite 7, .finite 1, .finite (1 / 10)]⟩

theorem gemv?_transpose?_cancelling :
    cancelling.checkFormat = .ok () ∧ cancelling.Ascending ∧
    (∃ B r, cancelling.transpose? = some B ∧
      cancelling.gemv? .transposed (-1) #[1, 0.3, 1] 2 #[0.7, 0] = some r ∧
      B.gemv? .normal (-1) #[1, 0.3, 1] 2 #[0.7, 0] = some r) ∧
    scattered.checkFormat = .ok () ∧ ¬ scattered.Ascending ∧
    ∃ B r, scattered.transpose? = some B ∧
      scattered.gemv? .transposed (-1) #[1, .top, 1] 1 #[1, 0] = some r ∧
      B.gemv? .normal (-1) #[1, .top, 1] 1 #[1, 0] = some r := by
  have hcancel : cancelling.checkFormat = .ok () :=
    cancelling.checkFormat_eq_ok_iff.2 (by decide +kernel)
  have hscatter : scattered.checkFormat = .ok () :=
    scattered.checkFormat_eq_ok_iff.2 (by decide +kernel)
  refine ⟨hcancel, by decide, ?_, hscatter, by decide, ?_⟩
  · obtain ⟨B, r, s, hB, hr, hs, heq, -⟩ :=
      gemv?_transpose? hcancel (x := #[1, 0.3, 1]) (y := #[0.7, 0]) rfl rfl (-1) 2
    exact ⟨B, r, hB, hr, heq (by decide) ▸ hs⟩
  · obtain ⟨B, r, s, hB, hr, hs, -, heq⟩ :=
      gemv?_transpose? hscatter (x := #[1, .top, 1]) (y := #[1, 0]) rfl rfl (-1) 1
    exact ⟨B, r, hB, hr, heq inferInstance ▸ hs⟩

end LpPresolve.Csc
