import LpPresolve.Proofs.Sparse.Assembly

/-! Columns of blocks. A matrix in its own orientation contributes its columns, a transposed one its
rows, each in the order of its columns, and a run of units one entry to each of its columns. A block
has nothing in the columns before its first and behind its last one. -/

namespace LpPresolve

variable {α : Type}

theorem columnOf_eq_nil {L : List (Nat × Nat × α)} {j : Nat} (h : ∀ t ∈ L, t.2.1 ≠ j) :
    columnOf L j = [] := by
  rw [columnOf, List.map_eq_nil_iff, List.filter_eq_nil_iff]
  simpa using h

/-- The part of a list over several columns that belongs to one of them. -/
theorem flatMap_range_eq_single {β : Type} {n j : Nat} (hj : j < n) {f : Nat → List β}
    (h : ∀ i < n, i ≠ j → f i = []) : (List.range n).flatMap f = f j := by
  induction n with
  | zero => omega
  | succ n ih =>
    rw [List.range_succ, List.flatMap_append, List.flatMap_singleton]
    by_cases hn : n = j
    · subst hn
      have hnil : (List.range n).flatMap f = [] := by
        rw [List.flatMap_eq_nil_iff]
        intro i hi
        have := List.mem_range.1 hi
        exact h i (by omega) (by omega)
      rw [hnil, List.nil_append]
    · rw [ih (by omega) fun i hi => h i (by omega), h n (by omega) hn, List.append_nil]

theorem filter_zipIdx {β : Type} (xs : List β) (s : Nat) {k : Nat} (hk : k < xs.length) :
    (xs.zipIdx s).filter (·.2 = s + k) = [(xs[k], s + k)] := by
  induction xs generalizing s k with
  | nil => simp at hk
  | cons x r ih =>
    rw [List.zipIdx_cons]
    cases k with
    | zero =>
      have hnil : (r.zipIdx (s + 1)).filter (·.2 = s) = [] := by
        rw [List.filter_eq_nil_iff]
        intro p hp
        have := List.le_snd_of_mem_zipIdx hp
        simp only [decide_eq_true_eq]
        omega
      simpa using hnil
    | succ k =>
      have hr := ih (s + 1) (k := k) (by simpa using hk)
      rw [Nat.add_right_comm, Nat.add_assoc] at hr
      simpa using hr

namespace Csc

/-- The columns and values stored in row `i`, in the order of the columns. -/
def row (A : Csc α) (i : Nat) : List (Nat × α) :=
  (List.range A.cols).flatMap fun j => ((A.column j).filter (·.1 = i)).map fun e => (j, e.2)

theorem columnOf_triples (A : Csc α) {j : Nat} (hj : j < A.cols) :
    columnOf A.triples j = A.column j := by
  rw [columnOf, triples, List.filter_flatMap, List.map_flatMap,
    flatMap_range_eq_single hj fun i _ hi => by simp [List.filter_map, Function.comp_def, hi]]
  simp [List.filter_map, Function.comp_def]

end Csc

namespace Block

theorem columnOf_normal (B : Csc α) (row col : Nat) {j : Nat} (hj : j < B.cols) :
    columnOf (matrix B row col .normal).triples (col + j) =
      (B.column j).map fun e => (e.1 + row, e.2) := by
  rw [← B.columnOf_triples hj, columnOf, columnOf, triples, List.filter_map, List.map_map,
    List.map_map]
  simp [Function.comp_def, Nat.add_comm col]

theorem columnOf_transposed (B : Csc α) (row col i : Nat) :
    columnOf (matrix B row col .transposed).triples (col + i) =
      (B.row i).map fun e => (e.1 + row, e.2) := by
  rw [columnOf, triples, Csc.triples, Csc.row, List.filter_map, List.map_map, List.filter_flatMap,
    List.map_flatMap, List.map_flatMap]
  simp [List.filter_map, Function.comp_def, Nat.add_comm col]

theorem columnOf_units (rows : List Nat) (a : α) (col : Nat) {k : Nat} (hk : k < rows.length) :
    columnOf (units rows a col).triples (col + k) = [(rows[k], a)] := by
  have hf := filter_zipIdx rows 0 hk
  rw [Nat.zero_add] at hf
  rw [columnOf, triples, List.filter_map, List.map_map]
  simp only [Function.comp_def, Nat.add_left_cancel_iff, hf]
  rfl

/-- The first column of a block. -/
def start : Block α → Nat
  | matrix _ _ col _ => col
  | units _ _ col => col

theorem columnOf_of_lt {b : Block α} {j : Nat} (hj : j < b.start) :
    columnOf b.triples j = [] := by
  apply columnOf_eq_nil
  intro t ht
  cases b with
  | matrix B row col shape =>
    cases shape with
    | normal | transposed =>
      obtain ⟨s, _, rfl⟩ := List.mem_map.1 ht
      simp only [start] at hj ⊢
      omega
  | units rows a col =>
    obtain ⟨s, _, rfl⟩ := List.mem_map.1 ht
    simp only [start] at hj ⊢
    omega

theorem columnOf_of_le {b : Block α} {cols j : Nat} (h : b.Fits cols) (hj : cols ≤ j) :
    columnOf b.triples j = [] :=
  columnOf_eq_nil fun t ht => Nat.ne_of_lt (Nat.lt_of_lt_of_le (col_lt h t ht) hj)

/-- The entries of a block for column `j` of the whole: the shifted column of a matrix in its own
orientation, the shifted row of a transposed one, or the entry of a run of units. -/
def column : Block α → Nat → List (Nat × α)
  | matrix B row col .normal, j =>
    if col ≤ j ∧ j - col < B.cols then (B.column (j - col)).map fun e => (e.1 + row, e.2) else []
  | matrix B row col .transposed, j =>
    if col ≤ j then (B.row (j - col)).map fun e => (e.1 + row, e.2) else []
  | units rows a col, j => if col ≤ j then rows[j - col]?.toList.map fun i => (i, a) else []

theorem column_of_lt {b : Block α} {j : Nat} (hj : j < b.start) : b.column j = [] := by
  match b with
  | matrix B row col .normal => exact if_neg fun h => Nat.not_le.2 hj h.1
  | matrix B row col .transposed | units rows a col => exact if_neg (Nat.not_le.2 hj)

theorem columnOf_triples {b : Block α} {cols : Nat} (h : b.Fits cols) (j : Nat) :
    columnOf b.triples j = b.column j := by
  rcases Nat.lt_or_ge j b.start with hj | hj
  · rw [columnOf_of_lt hj, column_of_lt hj]
  obtain ⟨k, rfl⟩ := Nat.exists_eq_add_of_le hj
  match b, h with
  | matrix B row col .normal, h =>
    rw [start, column, Nat.add_sub_cancel_left]
    by_cases hk : k < B.cols
    · rw [if_pos ⟨Nat.le_add_right col k, hk⟩, columnOf_normal B row col hk]
    · have hfit : (matrix B row col .normal).Fits (col + B.cols) := ⟨h.1, Nat.le_refl _⟩
      rw [if_neg fun h => hk h.2, columnOf_of_le hfit (by omega)]
  | matrix B row col .transposed, _ =>
    rw [start, column, Nat.add_sub_cancel_left, if_pos (Nat.le_add_right col k),
      columnOf_transposed]
  | units rows a col, _ =>
    rw [start, column, Nat.add_sub_cancel_left, if_pos (Nat.le_add_right col k)]
    by_cases hk : k < rows.length
    · rw [columnOf_units rows a col hk, List.getElem?_eq_getElem hk]
      rfl
    · have hfit : (units rows a col).Fits (col + rows.length) := Nat.le_refl _
      rw [columnOf_of_le hfit (by omega), List.getElem?_eq_none (by omega)]
      rfl

end Block

end LpPresolve
