import LpPresolve.Proofs.Equilibration
import LpPresolve.Scalar.Binary

/-! The number of rounds that equilibration makes. A run makes all of its rounds, unless it ends at a
settled matrix before. Whether a matrix is settled depends on nothing else, so a run that has ended by
itself leaves nothing to do for another one, whatever the arithmetic. -/

namespace LpPresolve

variable {α : Type} [Scalar α]

namespace Equilibration

variable {E E₁ E' : Equilibration α} {n : Nat}

theorem Round.rounds_eq (h : Round E E₁) : E₁.rounds = E.rounds + 1 := by
  cases h
  rfl

theorem run?_of_settled (h : E.matrix.Settled) (n : Nat) : run? n E = some E := by
  cases n with
  | zero => rfl
  | succ n => exact run?_succ_eq_some_iff.2 (.inl ⟨h, rfl⟩)

theorem le_rounds_of_run? (hrun : run? n E = some E') : E.rounds ≤ E'.rounds :=
  run?_keeps (P := fun E' => E.rounds ≤ E'.rounds)
    (fun hround hle => Nat.le_trans hle (hround.rounds_eq ▸ Nat.le_succ _)) (Nat.le_refl _) hrun

/-- A run makes its rounds, unless it ends at a settled matrix before. -/
theorem rounds_of_run? (hrun : run? n E = some E') :
    E'.rounds ≤ E.rounds + n ∧ (E'.rounds < E.rounds + n → E'.matrix.Settled) := by
  induction n generalizing E with
  | zero =>
    rw [run?, Option.some_inj] at hrun
    subst hrun
    exact ⟨Nat.le_refl _, fun h => absurd h (Nat.lt_irrefl _)⟩
  | succ n ih =>
    rcases run?_succ_eq_some_iff.1 hrun with ⟨hsettled, rfl⟩ | ⟨E₁, hround, hrun⟩
    · exact ⟨Nat.le_add_right _ _, fun _ => hsettled⟩
    · have hrounds := hround.rounds_eq
      obtain ⟨hle, hstop⟩ := ih hrun
      exact ⟨by omega, fun h => hstop (by omega)⟩

end Equilibration

namespace Csc

open Equilibration

variable {A : Csc α} {E : Equilibration α} {n : Nat}

/-- A matrix that a run has settled, or that needed none. -/
theorem equilibrate?_eq_some_iff : A.equilibrate? n = some E ↔
    if A.nzval.all (fun a => inWindow (Scalar.binaryExponent a)) then Equilibration.start A = E
    else run? n (Equilibration.start A) = some E := by
  rw [equilibrate?]
  split_ifs
  · exact Option.some_inj
  · rfl

theorem rounds_of_equilibrate? (h : A.equilibrate? n = some E) : E.rounds ≤ n := by
  rw [equilibrate?_eq_some_iff] at h
  split_ifs at h
  · exact h ▸ Nat.zero_le n
  · have hle := (rounds_of_run? h).1
    rwa [Equilibration.start, Nat.zero_add] at hle

theorem equilibrate?_eq_start
    (h : A.nzval.all (fun a => inWindow (Scalar.binaryExponent a)) = true ∨ A.Settled) (n : Nat) :
    A.equilibrate? n = some (Equilibration.start A) := by
  rw [equilibrate?]
  split_ifs with hwindow
  · rfl
  · exact run?_of_settled (h.resolve_left hwindow) n

/-- If equilibration ends before its last round, then another run on the matrix finds nothing to do. -/
theorem equilibrate?_idempotent (hA : A.WellFormed) (n : Nat) :
    ∃ E, A.equilibrate? n = some E ∧ (E.rounds < n → ∀ k, E.matrix.equilibrate? k =
      some ⟨E.matrix, Array.replicate E.matrix.cols 1, Array.replicate E.matrix.rows 1, 0⟩) := by
  obtain ⟨E, hE⟩ := A.exists_equilibrate?_eq_some hA.layout n
  refine ⟨E, hE, fun hlt => equilibrate?_eq_start ?_⟩
  rw [equilibrate?_eq_some_iff] at hE
  split_ifs at hE with hwindow
  · exact .inl (hE ▸ hwindow)
  · exact .inr ((rounds_of_run? hE).2 (by rwa [Equilibration.start, Nat.zero_add]))

/-- A small value in the row of a large one. -/
def uneven : Csc Float := ⟨2, 2, #[0, 1, 3], #[0, 0, 1], #[16, 0.0009765625, 1]⟩

/-- The norms of `uneven` need one round. The small value stays small, and a second run is no quick
return. -/
theorem equilibrate?_idempotent_uneven :
    ∃ E, uneven.equilibrate? 3 = some E ∧ E.rounds = 1 ∧
      E.matrix.nzval.all (fun a => inWindow (Scalar.binaryExponent a)) = false ∧
      ∀ k, E.matrix.equilibrate? k =
        some ⟨E.matrix, Array.replicate E.matrix.cols 1, Array.replicate E.matrix.rows 1, 0⟩ := by
  have hrun : (uneven.equilibrate? 3).any (fun E => E.rounds == 1 &&
      !E.matrix.nzval.all fun a => inWindow (Scalar.binaryExponent a)) = true := by decide +kernel
  have hformat : uneven.WellFormed :=
    { size_rowval := rfl
      size_colptr := rfl
      colptr_zero := rfl
      colptr_mono := by decide
      colptr_last := rfl
      finite := by decide +kernel
      row_lt := by decide +kernel
      nodup := by decide +kernel }
  obtain ⟨E, hE, hagain⟩ := equilibrate?_idempotent hformat 3
  rw [hE, Option.any_some, Bool.and_eq_true, beq_iff_eq, Bool.not_eq_true'] at hrun
  exact ⟨E, hE, hrun.1, hrun.2, hagain (by omega)⟩

end Csc

end LpPresolve
