import LpPresolve.Proofs.Sparse.Concatenation
import LpPresolve.Proofs.Sparse.Norms
import Mathlib.Data.List.Basic

/-! Column and row norms of a matrix with a layout. The norm of a column is taken over its values in
storage order, that of a row over its values in the order of the columns: the pass over the matrix
meets the entries of a row in that order. -/

namespace LpPresolve

open Scalar

variable {α : Type} [Scalar α]

/-- The largest magnitude of some values, the first of which is compared with 0. -/
def largest (as : List α) : α := as.foldl (fun m a => maxNum m (magnitude a)) 0

namespace Csc

omit [Scalar α] in
/-- The values of row `i`, met column by column. -/
theorem map_snd_filter_flatMap_column (A : Csc α) (i : Nat) :
    (((List.range A.cols).flatMap A.column).filter (·.1 = i)).map (·.2) =
      (A.row i).map (·.2) := by
  rw [List.filter_flatMap, List.map_flatMap, row, List.map_flatMap]
  simp only [List.map_map, Function.comp_def]

omit [Scalar α] in
theorem Mapped.row {A B : Csc α} {f : Nat → Nat → α → α} (h : A.Mapped B f) (i : Nat) :
    B.row i = (A.row i).map fun e => (e.1, f i e.1 e.2) := by
  rw [Csc.row, Csc.row, h.cols_eq, List.map_flatMap]
  apply List.flatMap_congr
  intro j hj
  rw [h.column j (List.mem_range.1 hj), List.filter_map, List.map_map, List.map_map]
  apply List.map_congr_left
  intro e he
  have hi : e.1 = i := by simpa using (List.mem_filter.1 he).2
  simp [hi]

namespace Layout

variable {A : Csc α}

theorem colNorms?_eq (h : A.Layout) : A.colNorms? A.cols =
    some ((List.range A.cols).map fun j => largest ((A.column j).map (·.2))).toArray := by
  rw [colNorms?, if_neg (by simp),
    mapM_eq_some_map (g := fun j => largest ((A.column j).map (·.2))) fun j hj => ?_]
  · rfl
  · have hj := List.mem_range.1 hj
    rw [h.span?_eq hj, h.map_snd_column, largest, Array.foldl_toList]
    simp only [Option.bind_eq_bind, Option.bind_some, h.slice?_eq hj _ rfl]
    rfl

theorem rowNorms?_eq (h : A.Layout) : A.rowNorms? A.rows =
    some ((List.range A.rows).map fun i => largest ((A.row i).map (·.2))).toArray := by
  have hstep : ∀ e ∈ (List.range A.cols).flatMap A.column, ∀ w : Vec α, w.size = A.rows →
      modify? w e.1 (fun m => maxNum m (magnitude e.2)) =
          some (w.modify e.1 fun m => maxNum m (magnitude e.2)) ∧
        (w.modify e.1 fun m => maxNum m (magnitude e.2)).size = A.rows := by
    intro e he w hw
    obtain ⟨j, hj, he⟩ := List.mem_flatMap.1 he
    have hlt : e.1 < w.size := hw.symm ▸ h.row_lt j (List.mem_range.1 hj) e he
    exact ⟨modify?_eq_some_iff.2 ⟨hlt, rfl⟩, by rw [Array.size_modify, hw]⟩
  obtain ⟨hrun, hsize⟩ := foldlM_eq_some_foldl _ hstep (Vec.size_zeros A.rows)
  rw [rowNorms?, if_neg (by simp), ← Array.foldlM_toList, Array.toList_zip, ← h.flatMap_column,
    hrun]
  congr 1
  apply Vec.ext_entry
  · simpa using hsize
  · intro i hi
    rw [hsize] at hi
    have hentry := Vec.entry_foldl_modify (fun e : Nat × α => e.1)
      (fun m e => maxNum m (magnitude e.2)) ((List.range A.cols).flatMap A.column)
      (Vec.zeros A.rows) (i := i) (by simpa using hi)
    rw [hentry, Vec.entry_zeros, Vec.entry_range _ _ hi, ← A.map_snd_filter_flatMap_column, largest,
      List.foldl_map]

end Layout

end Csc

end LpPresolve
