import LpPresolve.Proofs.Sparse.Concatenation

/-! Sparse matrices read as dense ones. No row index is stored twice in a column, so an entry is looked
up and nothing is added. Transposing exchanges the two indices of an entry. The number of entries is
the sum of the lengths of the columns, and that of the rows as well. -/

namespace LpPresolve

theorem lookup_eq_some_iff_mem {α : Type} {es : List (Nat × α)} (h : (es.map (·.1)).Nodup) {i : Nat}
    {a : α} : es.lookup i = some a ↔ (i, a) ∈ es := by
  induction es with
  | nil => simp
  | cons e r ih =>
    obtain ⟨k, b⟩ := e
    obtain ⟨hk, hr⟩ := List.nodup_cons.1 h
    rw [List.lookup_cons, List.mem_cons, Prod.mk.injEq]
    by_cases hik : i = k
    · subst hik
      have hnot : (i, a) ∉ r := fun hmem => hk (List.mem_map.2 ⟨_, hmem, rfl⟩)
      simp [hnot, eq_comm]
    · simp only [beq_false_of_ne hik, hik, false_and, false_or]
      exact ih hr

namespace Csc

variable {α : Type}

/-- The value stored in row `i` of column `j`, if there is one. -/
def stored? (A : Csc α) (i j : Nat) : Option α := (A.column j).lookup i

/-- The stored values, and zero where nothing is stored. -/
def dense [Scalar α] (A : Csc α) (i j : Nat) : α := (A.stored? i j).getD 0

variable {A B : Csc α} {i j : Nat}

theorem Layout.stored?_eq_some_iff (hA : A.Layout) (hj : j < A.cols) {a : α} :
    A.stored? i j = some a ↔ (i, a) ∈ A.column j :=
  lookup_eq_some_iff_mem (hA.nodup j hj)

theorem dense_of_column_eq [Scalar α] {k : Nat} (h : B.column k = A.column j) (i : Nat) :
    B.dense i k = A.dense i j := by
  rw [dense, dense, stored?, stored?, h]

theorem dense_of_column_eq_singleton [Scalar α] {k : Nat} {a : α} (h : A.column j = [(k, a)])
    (i : Nat) : A.dense i j = if i = k then a else 0 := by
  rw [dense, stored?, h, List.lookup_cons]
  by_cases hik : i = k
  · simp [hik]
  · simp [beq_false_of_ne hik, hik]

/-- A matrix whose columns are the rows of another one is its transpose. -/
theorem Layout.stored?_of_column_eq_row (hA : A.Layout) (hB : B.Layout) (hi : i < B.cols)
    (hrow : B.column i = A.row i) (hj : j < A.cols) : B.stored? j i = A.stored? i j := by
  apply Option.ext
  intro a
  rw [hB.stored?_eq_some_iff hi, hA.stored?_eq_some_iff hj, hrow, mem_row, and_iff_right hj]

/-! ### Numbers of entries -/

variable [Scalar α]

theorem Layout.sum_length_column (hA : A.Layout) :
    ((List.range A.cols).map fun j => (A.column j).length).sum = A.nzval.size := by
  rw [← List.length_flatMap, hA.flatMap_column, List.length_zip, Array.length_toList,
    Array.length_toList, hA.size_rowval, Nat.min_self]

theorem Layout.sum_length_row (hA : A.Layout) :
    ((List.range A.rows).map fun i => (A.row i).length).sum = A.nzval.size := by
  obtain ⟨B, -, hB, -, hcols, hsize, hcolumn⟩ := transpose?_eq_some hA
  rw [← hsize, ← hB.sum_length_column, hcols]
  congr 1
  apply List.map_congr_left
  intro i hi
  rw [hcolumn i (List.mem_range.1 hi)]

end Csc

end LpPresolve
