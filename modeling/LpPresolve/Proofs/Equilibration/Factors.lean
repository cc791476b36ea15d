import LpPresolve.Proofs.Exact.Equilibration

/-! What the factors of an equilibration say about its matrix, in exact arithmetic: they are powers of
two, and the matrix is the original one with each stored value multiplied by the factors of its row and
column. The matrix is scaled by the factors of one round after the other and their products are kept
apart from it, so this takes an invariant of the rounds (`Equilibration.Shifts`). -/

namespace LpPresolve

open Extended

namespace Equilibration

/-- The factors of `E` turn the matrix `A` into the matrix of `E`. -/
structure Describes (E : Equilibration Extended) (A : Csc Extended) : Prop where
  rows_eq : E.matrix.rows = A.rows
  cols_eq : E.matrix.cols = A.cols
  colptr_eq : E.matrix.colptr = A.colptr
  rowval_eq : E.matrix.rowval = A.rowval
  size_nzval : E.matrix.nzval.size = A.nzval.size
  size_colscale : E.colscale.size = A.cols
  size_rowscale : E.rowscale.size = A.rows
  colscale : ∀ j < A.cols, ∃ e : Int, E.colscale.entry j = finite (2 ^ e)
  rowscale : ∀ i < A.rows, ∃ e : Int, E.rowscale.entry i = finite (2 ^ e)
  nzval : ∀ j < A.cols, ∀ k, A.start j ≤ k → k < A.start (j + 1) → E.matrix.nzval.entry k =
    E.rowscale.entry (A.rowval.getD k 0) * A.nzval.entry k * E.colscale.entry j

theorem Shifts.describes {A : Csc Extended} {E : Equilibration Extended} {r c : Nat → Int}
    (h : Shifts (start A) E r c) (hA : A.Layout) (hf : A.Finite) : E.Describes A := by
  have hbalances := h.balances hA
  exact {
    rows_eq := h.mapped.rows_eq
    cols_eq := h.mapped.cols_eq
    colptr_eq := h.mapped.colptr_eq
    rowval_eq := h.mapped.rowval_eq
    size_nzval := h.mapped.size_nzval
    size_colscale := hbalances.size_colscale
    size_rowscale := hbalances.size_rowscale
    colscale := fun j hj => ⟨c j, h.colscale_start hj⟩
    rowscale := fun i hi => ⟨r i, h.rowscale_start hi⟩
    nzval := fun j hj k hk hk' => by
      have hmem : A.slot k ∈ A.column j := by
        rw [hA.column_eq hj]
        exact List.mem_map_of_mem (List.mem_range'_1.2 (by omega))
      have hi : A.rowval.getD k 0 < A.rows := hA.row_lt j hj _ hmem
      obtain ⟨q, hq⟩ := exists_eq_finite (hf j hj _ hmem)
      change A.nzval.entry k = finite q at hq
      rw [h.mapped.entry_nzval hA hj hk hk', h.rowscale_start hi, h.colscale_start hj, start, hq,
        finite_mul_finite, finite_mul_finite, finite_mul_finite, two_zpow_add]
      congr 1
      ring }

end Equilibration

namespace Csc

/-- Whatever the limit, the rounds stay within it and the factors say what they did. -/
theorem equilibrate?_describes {A : Csc Extended} (hA : A.WellFormed) (n : Nat) :
    ∃ E, A.equilibrate? n = some E ∧ E.Describes A ∧ E.rounds ≤ n := by
  obtain ⟨E, hE⟩ := A.exists_equilibrate?_eq_some hA.layout n
  obtain ⟨r, c, hshifts⟩ := exists_shifts_of_equilibrate? hA.layout hA.finite_column hE
  exact ⟨E, hE, hshifts.describes hA.layout hA.finite_column, rounds_of_equilibrate? hE⟩

/-- Values between 5e-6 and 1e4. -/
def badlyScaled : Csc Extended where
  rows := 2
  cols := 2
  colptr := #[0, 2, 4]
  rowval := #[0, 1, 0, 1]
  nzval := #[finite 10000, finite (1 / 500), finite 3, finite (1 / 200000)]

theorem wellFormed_badlyScaled : badlyScaled.WellFormed := by
  decide +kernel

/-- The run ends by itself after four rounds. -/
theorem equilibrate?_describes_badlyScaled :
    ∃ E, badlyScaled.equilibrate? 10 = some E ∧ E.Describes badlyScaled ∧ E.rounds = 4 ∧
      E.rowscale = #[finite (1 / 64), finite 8192] ∧ E.colscale = #[finite (1 / 64), finite 16] := by
  obtain ⟨E, hE, hdescribes, -⟩ := equilibrate?_describes wellFormed_badlyScaled 10
  have hrun : (badlyScaled.equilibrate? 10).any (fun E => E.rounds = 4 ∧
      E.rowscale = #[finite (1 / 64), finite 8192] ∧ E.colscale = #[finite (1 / 64), finite 16]) =
        true := by decide +kernel
  rw [hE, Option.any_some, decide_eq_true_eq] at hrun
  exact ⟨E, hE, hdescribes, hrun⟩

end Csc

end LpPresolve
