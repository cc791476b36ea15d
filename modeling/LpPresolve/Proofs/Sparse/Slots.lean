import LpPresolve.Proofs.Sparse.Blocks
import LpPresolve.Scalar.Extended
import Mathlib.Algebra.BigOperators.Group.List.Basic
import Mathlib.Data.List.Nodup

/-! Slots of an assembly. The blocks are counted in one order and filled in any other, with a record of
the slots that are written (`Recorded`). A slot that has been written lies in the part of a column that
its pointer has passed, and the pointer never returns, so no slot is written twice (`Recording`). As many
entries are written as there are slots, hence every slot is written. Then the pointers are the sums of the
counts before them, and each column holds what the blocks have for it in the order of filling. -/

namespace LpPresolve

variable {α : Type}

/-- A matrix under assembly and the slots written so far. -/
structure Recorded (α : Type) where
  matrix : Csc α
  slots : List Nat

namespace Recorded

/-- Writes an entry and notes the slot that the pointer of its column has reached. -/
def put? (R : Recorded α) (row col : Nat) (a : α) : Option (Recorded α) := do
  let k ← R.matrix.colptr[col]?
  return ⟨← R.matrix.put? row col a, R.slots ++ [k]⟩

theorem map_matrix_put? (R : Recorded α) (row col : Nat) (a : α) :
    (R.put? row col a).map (·.matrix) = R.matrix.put? row col a := by
  unfold put? Csc.put?
  cases R.matrix.colptr[col]? with
  | none => rfl
  | some k =>
    simp only [Option.bind_eq_bind, Option.bind_some]
    split_ifs <;> rfl

/-- The record changes nothing of the run. -/
theorem map_matrix_foldlM (R : Recorded α) (L : List (Nat × Nat × α)) :
    (L.foldlM (fun R t => put? R t.1 t.2.1 t.2.2) R).map (·.matrix) =
      L.foldlM (fun C t => C.put? t.1 t.2.1 t.2.2) R.matrix :=
  map_foldlM (fun R t => map_matrix_put? R t.1 t.2.1 t.2.2) R

end Recorded

variable [Scalar α]

namespace Csc

/-- The state when `L` is to be written, `done` is the part written so far, and the slots written are
noted. -/
structure Recording (rows cols : Nat) (L done : List (Nat × Nat × α)) (R : Recorded α) : Prop where
  filling : Filling rows cols L done R.matrix
  nodup : R.slots.Nodup
  length_eq : R.slots.length = done.length
  passed : ∀ k ∈ R.slots, ∃ j, L.countP (·.2.1 < j) ≤ k ∧
    k < L.countP (·.2.1 < j) + done.countP (·.2.1 = j)

theorem Recording.step {rows cols : Nat} {L done rest : List (Nat × Nat × α)}
    {t : Nat × Nat × α} {R : Recorded α} (h : Recording rows cols L done R)
    (hL : L = done ++ t :: rest) (ht : t.2.1 < cols) :
    ∃ R', R.put? t.1 t.2.1 t.2.2 = some R' ∧ Recording rows cols L (done ++ [t]) R' := by
  obtain ⟨C, hC, hfilling⟩ := h.filling.step hL ht
  have hlt : t.2.1 < R.matrix.colptr.size := by rw [h.filling.size_colptr]; omega
  have hk : R.matrix.colptr[t.2.1]? = some (R.matrix.start t.2.1) := by
    simp [Csc.start, Array.getD_eq_getD_getElem?, hlt]
  have hstart := h.filling.start _ ht
  have hnew : R.matrix.start t.2.1 ∉ R.slots := by
    intro hmem
    obtain ⟨j, hle, hlt⟩ := h.passed _ hmem
    exact h.filling.start_ne hL ht hle hlt rfl
  refine ⟨⟨C, R.slots ++ [R.matrix.start t.2.1]⟩, by simp [Recorded.put?, hk, hC], hfilling, ?_, ?_,
    ?_⟩
  · simpa using List.Nodup.concat hnew h.nodup
  · simp [h.length_eq]
  · intro k hmem
    simp only [List.countP_append]
    rcases List.mem_append.1 hmem with hold | hsame
    · obtain ⟨j, hle, hlt⟩ := h.passed k hold
      exact ⟨j, hle, by omega⟩
    · have hone : [t].countP (·.2.1 = t.2.1) = 1 := by simp
      rw [List.mem_singleton.1 hsame]
      exact ⟨t.2.1, by omega, by omega⟩

theorem Recording.run {rows cols : Nat} {L : List (Nat × Nat × α)} {R : Recorded α}
    (h : Recording rows cols L [] R) (hL : ∀ t ∈ L, t.2.1 < cols) :
    ∃ R', L.foldlM (fun R t => R.put? t.1 t.2.1 t.2.2) R = some R' ∧
      Recording rows cols L L R' :=
  exists_foldlM_eq_some _ (fun done R => Recording rows cols L done R)
    (fun _ t _ hd _ hR => hR.step hd (hL t (by simp [hd]))) h

theorem Recording.of_filling {rows cols : Nat} {L : List (Nat × Nat × α)} {C : Csc α}
    (h : Filling rows cols L [] C) : Recording rows cols L [] ⟨C, []⟩ :=
  ⟨h, List.nodup_nil, rfl, by simp⟩

/-- A run to the end has written every slot once. -/
theorem Recording.slots_perm {rows cols : Nat} {L : List (Nat × Nat × α)} {R : Recorded α}
    (h : Recording rows cols L L R) : R.slots.Perm (List.range L.length) := by
  have hsub : R.slots ⊆ List.range L.length := by
    intro k hk
    obtain ⟨j, -, hlt⟩ := h.passed k hk
    rw [← countP_lt_succ] at hlt
    exact List.mem_range.2 (Nat.lt_of_lt_of_le hlt List.countP_le_length)
  refine (List.subperm_of_subset h.nodup hsub).perm_of_length_le ?_
  rw [List.length_range]
  exact Nat.le_of_eq h.length_eq.symm

/-! ### Pointers -/

omit [Scalar α] in
theorem countP_flatMap_triples {cols : Nat} {blocks : List (Block α)}
    (hb : ∀ b ∈ blocks, b.Fits cols) (j : Nat) :
    (blocks.flatMap Block.triples).countP (·.2.1 = j) =
      (blocks.map fun b => (b.column j).length).sum := by
  rw [List.countP_flatMap]
  congr 1
  apply List.map_congr_left
  intro b hmem
  rw [Function.comp_apply, ← Block.columnOf_triples (hb b hmem), columnOf, List.length_map,
    List.countP_eq_length_filter]

omit [Scalar α] in
theorem columnOf_flatMap_triples {cols : Nat} {blocks : List (Block α)}
    (hb : ∀ b ∈ blocks, b.Fits cols) (j : Nat) :
    columnOf (blocks.flatMap Block.triples) j = blocks.flatMap fun b => b.column j := by
  rw [columnOf, List.filter_flatMap, List.map_flatMap]
  apply List.flatMap_congr
  intro b hmem
  exact Block.columnOf_triples (hb b hmem) j

/-- Blocks that are counted in one order and filled in any other, into arrays with room for exactly their
entries, are written without a failing write, and the slots written are all slots, each once. The pointers
end as the sums of the counts before them, and a column holds the entries of the blocks for it in the
order of filling. -/
theorem fill_each_slot_once {C₀ : Csc α} {blocks order : List (Block α)}
    (hfits : ∀ b ∈ blocks, b.Fits C₀.cols) (horder : order.Perm blocks)
    (hzero : C₀.colptr = Array.replicate (C₀.cols + 1) 0)
    (hrowval : C₀.rowval.size = (blocks.map Block.size).sum)
    (hnzval : C₀.nzval.size = (blocks.map Block.size).sum) :
    ∃ C₁ C₂ slots,
      blocks.foldlM Block.count? C₀ = some C₁ ∧
      C₁.colptr.toList = (List.range (C₀.cols + 1)).map
        (fun j => (blocks.map fun b => (b.column j).length).sum) ∧
      C₁.colptr.toList.sum = (blocks.map Block.size).sum ∧
      order.foldlM Block.fill? C₁.startFromCounts = some C₂ ∧
      order.foldlM (Block.fillWith? Recorded.put?) ⟨C₁.startFromCounts, []⟩ = some ⟨C₂, slots⟩ ∧
      slots.Perm (List.range (blocks.map Block.size).sum) ∧
      C₂.closeColumns.colptr.toList =
        (List.range (C₀.cols + 1)).map (fun j => (C₁.colptr.toList.take j).sum) ∧
      ∀ j < C₀.cols, C₂.closeColumns.column j = order.flatMap fun b => b.column j := by
  have hfits' : ∀ b ∈ order, b.Fits C₀.cols := fun b hb => hfits b (horder.mem_iff.1 hb)
  obtain ⟨C₁, hcount, hsize, hcounts, hstart⟩ :=
    exists_filling C₀ hfits horder hzero hrowval hnzval
  obtain ⟨⟨C₂, slots⟩, hrun, hrecord⟩ :=
    (Recording.of_filling hstart).run (Block.col_lt_of_mem_flatMap hfits')
  have hplain := Recorded.map_matrix_foldlM ⟨C₁.startFromCounts, []⟩ (order.flatMap Block.triples)
  rw [hrun, Option.map_some] at hplain
  have hholds : Holds C₀.rows C₀.cols (order.flatMap Block.triples) C₂.closeColumns :=
    hrecord.filling.closeColumns
  have hlength : (order.flatMap Block.triples).length = (blocks.map Block.size).sum := by
    rw [Block.length_flatMap_triples hfits', (horder.map Block.size).sum_eq]
  refine ⟨C₁, C₂, slots, hcount, ?_, ?_, ?_, ?_, hlength ▸ hrecord.slots_perm, ?_, fun j hj => ?_⟩
  · rw [Vec.toList_eq_map_getD C₁.colptr 0, hsize]
    apply List.map_congr_left
    intro j _
    rw [hcounts j, countP_flatMap_triples hfits', (horder.map _).sum_eq]
  · have hsum := sum_take_eq_countP hcounts (Nat.le_refl _)
    have hlast : ∀ t ∈ order.flatMap Block.triples, t.2.1 < C₁.colptr.size := fun t ht => by
      have := Block.col_lt_of_mem_flatMap hfits' t ht
      omega
    rw [List.take_of_length_le (by simp), List.countP_eq_length.2 (by simpa using hlast)] at hsum
    exact hsum.trans hlength
  · rw [foldlM_fill?_eq _ hfits', ← hplain]
  · rw [foldlM_fillWith?_eq _ _ hfits', hrun]
  · rw [Vec.toList_eq_map_getD C₂.closeColumns.colptr 0, hholds.size_colptr]
    apply List.map_congr_left
    intro j hj
    have hj : j < C₀.cols + 1 := List.mem_range.1 hj
    rw [sum_take_eq_countP hcounts (by omega)]
    exact hholds.start j (by omega)
  · rw [hholds.column j hj, columnOf_flatMap_triples hfits']

/-! ### Overlapping blocks -/

open Extended

/-- A matrix whose first column is not sorted. -/
def unsorted : Csc Extended := ⟨2, 2, #[0, 2, 3], #[1, 0, 0], #[finite 5, finite 2, finite 7]⟩

/-- The matrix and its transpose share a column, and so do the transpose and the units. -/
def overlapping : List (Block Extended) :=
  [.matrix unsorted 0 0 .normal, .matrix unsorted 2 1 .transposed, .units [3, 1] (finite (-1)) 2]

/-- Room for eight entries, not cleared. -/
def uncleared : Csc Extended where
  rows := 4
  cols := 4
  colptr := #[0, 0, 0, 0, 0]
  rowval := Array.replicate 8 9
  nzval := Array.replicate 8 (finite 9)

/-- The last block first: in column 1 the entries of the transpose come before those of the matrix. -/
theorem fill_each_slot_once_overlapping :
    ∃ C₁ C₂ slots, overlapping.foldlM Block.count? uncleared = some C₁ ∧
      overlapping.reverse.foldlM Block.fill? C₁.startFromCounts = some C₂ ∧
      overlapping.reverse.foldlM (Block.fillWith? Recorded.put?) ⟨C₁.startFromCounts, []⟩ =
        some ⟨C₂, slots⟩ ∧
      slots.Perm (List.range 8) ∧ C₂.closeColumns.colptr = #[0, 2, 5, 7, 8] ∧
      C₂.closeColumns.column 1 = [(2, finite 2), (3, finite 7), (0, finite 7)] ∧
      C₂.closeColumns.column 2 = [(3, finite (-1)), (2, finite 5)] := by
  have hA : unsorted.WellFormed := by decide +kernel
  have hfits : ∀ b ∈ overlapping, b.Fits uncleared.cols := by
    simp only [overlapping, List.forall_mem_cons, List.not_mem_nil, false_implies, implies_true,
      and_true]
    exact ⟨⟨hA.layout, by decide⟩, ⟨hA.layout, by decide⟩, Nat.le_refl 4⟩
  obtain ⟨C₁, C₂, slots, hcount, hcounts, -, hfill, hrecord, hperm, hptr, hcolumn⟩ :=
    fill_each_slot_once hfits overlapping.reverse_perm rfl rfl rfl
  have hcol₁ := hcolumn 1 (by decide)
  have hcol₂ := hcolumn 2 (by decide)
  rw [hcounts] at hptr
  exact ⟨C₁, C₂, slots, hcount, hfill, hrecord, hperm, Array.toList_inj.1 (hptr.trans (by decide)),
    hcol₁.trans (by decide), hcol₂.trans (by decide)⟩

end Csc

end LpPresolve
