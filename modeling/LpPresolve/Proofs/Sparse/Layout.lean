import LpPresolve.Proofs.Entries
import LpPresolve.Sparse.Format

/-! The layout of a matrix: what a well-formed matrix demands of its pointers and row indices, with
nothing said about its values. Position `k` of the two entry arrays is a slot; a column is a run of
slots, and the columns one after another are all slots. The triples of a matrix are its stored
entries with their rows and columns, in storage order. -/

namespace LpPresolve.Csc

variable {α : Type} [Scalar α]

/-! ### Slots -/

/-- The position where column `j` starts. -/
def start (A : Csc α) (j : Nat) : Nat := A.colptr.getD j 0

/-- The row index and the value at position `k`. -/
def slot (A : Csc α) (k : Nat) : Nat × α := (A.rowval.getD k 0, A.nzval.entry k)

/-- The `n` slots from position `p` on. -/
def slots (A : Csc α) (p n : Nat) : List (Nat × α) := (List.range' p n).map A.slot

theorem slots_succ (A : Csc α) (p n : Nat) : A.slots p (n + 1) = A.slots p n ++ [A.slot (p + n)] := by
  simp [slots, List.range'_1_concat]

theorem slots_add (A : Csc α) (p n k : Nat) :
    A.slots p (n + k) = A.slots p n ++ A.slots (p + n) k := by
  simp only [slots, ← List.map_append]
  rw [List.range'_append_1]

theorem zip_extract_eq_slots (A : Csc α) {p q : Nat} (hr : q ≤ A.rowval.size)
    (hv : q ≤ A.nzval.size) :
    (A.rowval.extract p q).toList.zip (A.nzval.extract p q).toList = A.slots p (q - p) := by
  apply List.ext_getElem
  · simp [slots]
    omega
  · intro k h₁ h₂
    have hk : p + k < q := by
      simp [slots] at h₂
      omega
    simp [slots, slot, Array.getD_eq_getD_getElem?, Vec.entry, show p + k < A.rowval.size by omega,
      show p + k < A.nzval.size by omega]

theorem column_eq_slots (A : Csc α) {j : Nat} (hr : A.start (j + 1) ≤ A.rowval.size)
    (hv : A.start (j + 1) ≤ A.nzval.size) :
    A.column j = A.slots (A.start j) (A.start (j + 1) - A.start j) :=
  A.zip_extract_eq_slots hr hv

/-! ### Layout -/

instance (A : Csc α) : Decidable A.WellFormed :=
  decidable_of_iff
    (A.rowval.size = A.nzval.size ∧ A.colptr.size = A.cols + 1 ∧ A.colptr[0]? = some 0 ∧
      (∀ j < A.cols, A.colptr.getD j 0 ≤ A.colptr.getD (j + 1) 0) ∧
      A.colptr[A.cols]? = some A.rowval.size ∧ (∀ a ∈ A.nzval, Scalar.isFinite a = true) ∧
      (∀ j < A.cols, ∀ e ∈ A.column j, e.1 < A.rows) ∧
      ∀ j < A.cols, ((A.column j).map (·.1)).Nodup)
    ⟨fun ⟨hr, hs, hz, hm, hl, hf, hrow, hn⟩ => ⟨hr, hs, hz, hm, hl, hf, hrow, hn⟩,
      fun h => ⟨h.size_rowval, h.size_colptr, h.colptr_zero, h.colptr_mono, h.colptr_last, h.finite,
        h.row_lt, h.nodup⟩⟩

structure Layout (A : Csc α) : Prop where
  size_rowval : A.rowval.size = A.nzval.size
  size_colptr : A.colptr.size = A.cols + 1
  start_zero : A.start 0 = 0
  start_le_succ : ∀ j < A.cols, A.start j ≤ A.start (j + 1)
  start_cols : A.start A.cols = A.nzval.size
  row_lt : ∀ j < A.cols, ∀ e ∈ A.column j, e.1 < A.rows
  nodup : ∀ j < A.cols, ((A.column j).map (·.1)).Nodup

theorem WellFormed.layout {A : Csc α} (h : A.WellFormed) : A.Layout where
  size_rowval := h.size_rowval
  size_colptr := h.size_colptr
  start_zero := by simp [start, Array.getD_eq_getD_getElem?, h.colptr_zero]
  start_le_succ := h.colptr_mono
  start_cols := by simp [start, Array.getD_eq_getD_getElem?, h.colptr_last, h.size_rowval]
  row_lt := h.row_lt
  nodup := h.nodup

namespace Layout

variable {A : Csc α}

omit [Scalar α] in
theorem start_mono (h : A.Layout) {i j : Nat} (hij : i ≤ j) (hj : j ≤ A.cols) :
    A.start i ≤ A.start j := by
  induction hij with
  | refl => exact Nat.le_refl _
  | step hij ih => exact Nat.le_trans (ih (by omega)) (h.start_le_succ _ (by omega))

omit [Scalar α] in
theorem start_le_size (h : A.Layout) {j : Nat} (hj : j ≤ A.cols) : A.start j ≤ A.nzval.size := by
  rw [← h.start_cols]
  exact h.start_mono hj (Nat.le_refl _)

theorem column_eq (h : A.Layout) {j : Nat} (hj : j < A.cols) :
    A.column j = A.slots (A.start j) (A.start (j + 1) - A.start j) :=
  A.column_eq_slots (h.size_rowval ▸ h.start_le_size hj) (h.start_le_size hj)

theorem length_column (h : A.Layout) {j : Nat} (hj : j < A.cols) :
    (A.column j).length = A.start (j + 1) - A.start j := by
  rw [h.column_eq hj]
  simp [slots]

omit [Scalar α] in
theorem map_fst_column (h : A.Layout) (j : Nat) :
    (A.column j).map (·.1) = (A.rowval.extract (A.start j) (A.start (j + 1))).toList := by
  rw [column, List.map_fst_zip (by simp [h.size_rowval])]
  rfl

omit [Scalar α] in
theorem map_snd_column (h : A.Layout) (j : Nat) :
    (A.column j).map (·.2) = (A.nzval.extract (A.start j) (A.start (j + 1))).toList := by
  rw [column, List.map_snd_zip (by simp [h.size_rowval])]
  rfl

theorem flatMap_column_eq_slots (h : A.Layout) {n : Nat} (hn : n ≤ A.cols) :
    (List.range n).flatMap A.column = A.slots 0 (A.start n) := by
  induction n with
  | zero => simp [h.start_zero, slots]
  | succ n ih =>
    have hle := h.start_le_succ n (by omega)
    have hadd := A.slots_add 0 (A.start n) (A.start (n + 1) - A.start n)
    rw [Nat.zero_add, Nat.add_sub_cancel' hle] at hadd
    rw [List.range_succ, List.flatMap_append, ih (by omega), List.flatMap_singleton,
      h.column_eq (by omega), hadd]

/-- The columns one after another are the two entry arrays side by side. -/
theorem flatMap_column (h : A.Layout) :
    (List.range A.cols).flatMap A.column = A.rowval.toList.zip A.nzval.toList := by
  have hz := A.zip_extract_eq_slots (p := 0) (Nat.le_of_eq h.size_rowval.symm) (Nat.le_refl _)
  rw [h.flatMap_column_eq_slots (Nat.le_refl _), h.start_cols, ← Nat.sub_zero A.nzval.size, ← hz,
    ← h.size_rowval, Array.extract_size, h.size_rowval, Array.extract_size]

theorem map_fst_flatMap_column (h : A.Layout) :
    ((List.range A.cols).flatMap A.column).map (·.1) = A.rowval.toList := by
  rw [h.flatMap_column, List.map_fst_zip (by simp [h.size_rowval])]

theorem map_snd_flatMap_column (h : A.Layout) :
    ((List.range A.cols).flatMap A.column).map (·.2) = A.nzval.toList := by
  rw [h.flatMap_column, List.map_snd_zip (by simp [h.size_rowval])]

/-- The stored values are those of the columns. -/
theorem mem_nzval_iff (h : A.Layout) {a : α} :
    a ∈ A.nzval ↔ ∃ j < A.cols, ∃ e ∈ A.column j, e.2 = a := by
  rw [← Array.mem_toList_iff, ← h.map_snd_flatMap_column, List.map_flatMap, List.mem_flatMap]
  simp only [List.mem_range, List.mem_map]

theorem mem_nzval_of_column (h : A.Layout) {j : Nat} (hj : j < A.cols) {e : Nat × α}
    (he : e ∈ A.column j) : e.2 ∈ A.nzval :=
  h.mem_nzval_iff.2 ⟨j, hj, e, he, rfl⟩

omit [Scalar α] in
theorem getElem?_colptr (h : A.Layout) {j : Nat} (hj : j ≤ A.cols) :
    A.colptr[j]? = some (A.start j) := by
  have hlt : j < A.colptr.size := by rw [h.size_colptr]; omega
  simp [start, Array.getD_eq_getD_getElem?, hlt]

omit [Scalar α] in
theorem span?_eq (h : A.Layout) {j : Nat} (hj : j < A.cols) :
    A.span? j = some (A.start j, A.start (j + 1)) := by
  simp [span?, h.getElem?_colptr (Nat.le_of_lt hj), h.getElem?_colptr hj]

omit [Scalar α] in
theorem nnz?_eq (h : A.Layout) : A.nnz? = some A.nzval.size := by
  rw [nnz?, h.getElem?_colptr (Nat.le_refl _), h.start_cols]

/-- Beyond the layout, the values have to be finite. -/
theorem wellFormed (h : A.Layout) (hf : ∀ a ∈ A.nzval, Scalar.isFinite a = true) :
    A.WellFormed where
  size_rowval := h.size_rowval
  size_colptr := h.size_colptr
  colptr_zero := by rw [h.getElem?_colptr (Nat.zero_le _), h.start_zero]
  colptr_mono := h.start_le_succ
  colptr_last := by rw [h.getElem?_colptr (Nat.le_refl _), h.start_cols, h.size_rowval]
  finite := hf
  row_lt := h.row_lt
  nodup := h.nodup

omit [Scalar α] in
theorem slice?_eq {β : Type} (h : A.Layout) {j : Nat} (hj : j < A.cols) (xs : Array β)
    (hx : xs.size = A.nzval.size) :
    slice? xs (A.start j) (A.start (j + 1)) = some (xs.extract (A.start j) (A.start (j + 1))) :=
  slice?_eq_some_iff.2 ⟨⟨h.start_le_succ j hj, hx ▸ h.start_le_size hj⟩, rfl⟩

end Layout

/-! ### Triples -/

/-- The stored entries, each as row, column and value. -/
def triples (A : Csc α) : List (Nat × Nat × α) :=
  (List.range A.cols).flatMap fun j => (A.column j).map fun e => (e.1, j, e.2)

omit [Scalar α] in
theorem mem_triples {A : Csc α} {t : Nat × Nat × α} :
    t ∈ A.triples ↔ t.2.1 < A.cols ∧ (t.1, t.2.2) ∈ A.column t.2.1 := by
  obtain ⟨i, j, a⟩ := t
  simp only [triples, List.mem_flatMap, List.mem_range, List.mem_map, Prod.mk.injEq]
  constructor
  · rintro ⟨j', hj, ⟨i', a'⟩, he, rfl, rfl, rfl⟩
    exact ⟨hj, he⟩
  · rintro ⟨hj, he⟩
    exact ⟨j, hj, (i, a), he, rfl, rfl, rfl⟩

theorem Layout.length_triples {A : Csc α} (h : A.Layout) : A.triples.length = A.nzval.size := by
  have hf := congrArg List.length h.flatMap_column
  simp only [List.length_flatMap, List.length_zip, Array.length_toList, h.size_rowval,
    Nat.min_self] at hf
  simpa [triples, List.length_flatMap] using hf

end LpPresolve.Csc
