import LpPresolve.Proofs.Binary.Signs
import LpPresolve.Proofs.Equilibration.Rounds
import LpPresolve.Proofs.Sparse.Negated
import LpPresolve.Proofs.Sparse.Transposed

/-! Symmetries of equilibration. Every round takes the factors of its rows and columns from the same
matrix, so on the transpose it takes the same factors with the roles exchanged, and the two matrices stay
transposes of each other (`Mirrored`). Signs count for no norm, so with some columns negated it takes the
same factors, and those columns stay the negated ones. -/

namespace LpPresolve

variable {α : Type} [Scalar α]

namespace Equilibration

variable {E E₁ E' F : Equilibration α} {n : Nat}

/-! ### Rows and columns exchanged -/

/-- `F` has done to the transpose what `E` has done to a matrix. -/
structure Mirrored (E F : Equilibration α) : Prop where
  matrix : E.matrix.Transposed F.matrix
  colscale_eq : F.colscale = E.rowscale
  rowscale_eq : F.rowscale = E.colscale
  rounds_eq : F.rounds = E.rounds

theorem mirrored_start {A B : Csc α} (h : A.Transposed B) : Mirrored (start A) (start B) where
  matrix := h
  colscale_eq := by rw [start, start, h.cols_eq]
  rowscale_eq := by rw [start, start, h.rows_eq]
  rounds_eq := rfl

/-- One round with exchanged factors. -/
theorem Mirrored.next [LawfulMul α] (h : Mirrored E F) {r c : Vec α} (hr : r.size = E.matrix.rows)
    (hc : c.size = E.matrix.cols) :
    ∃ B B', E.matrix.lrscale? r c = some B ∧ F.matrix.lrscale? c r = some B' ∧
      Mirrored (E.next B c r) (F.next B' r c) := by
  obtain ⟨B, hB, hmap⟩ := Csc.lrscale?_eq h.matrix.layout hr hc
  obtain ⟨B', hB', hmap'⟩ := Csc.lrscale?_eq h.matrix.layout' (hc.trans h.matrix.rows_eq.symm)
    (hr.trans h.matrix.cols_eq.symm)
  refine ⟨B, B', hB, hB', h.matrix.mapped hmap hmap' fun i j a => ?_, ?_, ?_, ?_⟩
  · rw [LawfulMul.mul_comm (c.entry j)]
  · rw [Equilibration.next, Equilibration.next, h.colscale_eq]
  · rw [Equilibration.next, Equilibration.next, h.rowscale_eq]
  · rw [Equilibration.next, Equilibration.next, h.rounds_eq]

theorem Mirrored.run? [LawfulMax α] [LawfulMul α] (h : Mirrored E F) (n : Nat) :
    ∃ E' F', run? n E = some E' ∧ run? n F = some F' ∧ Mirrored E' F' := by
  induction n generalizing E F with
  | zero => exact ⟨E, F, rfl, rfl, h⟩
  | succ n ih =>
    have hcol := h.matrix.colNorms?_eq
    have hrow := h.matrix.rowNorms?_eq
    obtain ⟨c, hc⟩ : ∃ c, E.matrix.colNorms? E.matrix.cols = some c :=
      ⟨_, h.matrix.layout.colNorms?_eq⟩
    obtain ⟨r, hr⟩ : ∃ r, E.matrix.rowNorms? E.matrix.rows = some r :=
      ⟨_, h.matrix.layout.rowNorms?_eq⟩
    have hsettled := Bool.and_comm ((factors c).all (· == 1)) ((factors r).all (· == 1))
    simp only [Equilibration.run?, hcol, hrow, hc, hr, Option.bind_eq_bind, Option.bind_some,
      hsettled]
    -- both runs stop here or go on with the factors `r` and `c`
    split
    · exact ⟨E, F, rfl, rfl, h⟩
    · obtain ⟨B, B', hB, hB', hnext⟩ := h.next (r := factors r) (c := factors c)
        (by simpa [factors] using Csc.size_of_rowNorms? hr)
        (by simpa [factors] using Csc.size_of_colNorms? hc)
      rw [hB, hB']
      exact ih hnext

/-! ### Columns negated -/

/-- The same factors, with the columns in `J` negated. -/
def negateColumns (E : Equilibration α) (J : Finset Nat) : Equilibration α :=
  { E with matrix := E.matrix.negateColumns J }

theorem run?_negateColumns [LawfulMul α] (hE : E.matrix.Layout) (J : Finset Nat) (n : Nat) :
    run? n (E.negateColumns J) = (run? n E).map (·.negateColumns J) := by
  induction n generalizing E with
  | zero => rfl
  | succ n ih =>
    have hcol : (E.negateColumns J).matrix.colNorms? (E.negateColumns J).matrix.cols =
        E.matrix.colNorms? E.matrix.cols := hE.colNorms?_negateColumns J
    have hrow : (E.negateColumns J).matrix.rowNorms? (E.negateColumns J).matrix.rows =
        E.matrix.rowNorms? E.matrix.rows := hE.rowNorms?_negateColumns J
    obtain ⟨c, hc⟩ : ∃ c, E.matrix.colNorms? E.matrix.cols = some c := ⟨_, hE.colNorms?_eq⟩
    obtain ⟨r, hr⟩ : ∃ r, E.matrix.rowNorms? E.matrix.rows = some r := ⟨_, hE.rowNorms?_eq⟩
    simp only [run?, hcol, hrow, hc, hr, Option.bind_eq_bind, Option.bind_some]
    split
    · rfl
    · have hrs : (factors r).size = E.matrix.rows := by
        simpa [factors] using Csc.size_of_rowNorms? hr
      have hcs : (factors c).size = E.matrix.cols := by
        simpa [factors] using Csc.size_of_colNorms? hc
      obtain ⟨B, hB, hmap⟩ := Csc.lrscale?_eq hE hrs hcs
      have hneg : (E.negateColumns J).matrix.lrscale? (factors r) (factors c) =
          some (B.negateColumns J) := hE.lrscale?_negateColumns J hrs hcs hB
      rw [hB, hneg]
      exact ih (E := E.next B (factors c) (factors r)) (hmap.layout hE)

end Equilibration

namespace Csc

open Equilibration

variable {A B : Csc α}

theorem Transposed.equilibrate? [LawfulMax α] [LawfulMul α] (h : A.Transposed B) (n : Nat) :
    ∃ E F, A.equilibrate? n = some E ∧ B.equilibrate? n = some F ∧ Mirrored E F := by
  have hstart : Mirrored (Equilibration.start A) (Equilibration.start B) := mirrored_start h
  unfold Csc.equilibrate?
  rw [h.all_nzval_eq]
  split
  · exact ⟨_, _, rfl, rfl, hstart⟩
  · exact hstart.run? n

theorem Layout.equilibrate?_negateColumns [LawfulMul α] (hA : A.Layout) (J : Finset Nat) (n : Nat) :
    (A.negateColumns J).equilibrate? n = (A.equilibrate? n).map (·.negateColumns J) := by
  unfold Csc.equilibrate?
  rw [A.all_negateColumns J fun a => by rw [LawfulMul.binaryExponent_neg]]
  split
  · rfl
  · exact run?_negateColumns (E := Equilibration.start A) hA J n

/-- Equilibrating the transpose takes as many rounds, exchanges the factors of rows and columns and leads
to the transpose. Equilibrating with some columns negated takes the same factors and leads to the same
matrix with those columns negated, and negating them is what the multiplication by `-1` does that precedes
the scaling of a program. -/
theorem equilibrate?_symmetric [LawfulMax α] [LawfulMul α] (hA : A.WellFormed) (n : Nat) :
    ∃ E At Bt, A.equilibrate? n = some E ∧ A.transpose? = some At ∧
      E.matrix.transpose? = some Bt ∧
      At.equilibrate? n = some ⟨Bt, E.rowscale, E.colscale, E.rounds⟩ ∧
      (∀ J : Finset Nat, (A.negateColumns J).equilibrate? n =
        some ⟨E.matrix.negateColumns J, E.colscale, E.rowscale, E.rounds⟩) ∧
      ((∀ a ∈ A.nzval, a * 1 = a) → ∀ js : List Nat, js.Nodup → (∀ j ∈ js, j < A.cols) →
        js.foldlM (fun A j => A.scaleCol? j (-1)) A = some (A.negateColumns js.toFinset)) := by
  have hlayout := hA.layout
  obtain ⟨At, hAt, htrans⟩ := hlayout.exists_transposed
  obtain ⟨E, F, hE, hF, hmirror⟩ := htrans.equilibrate? n
  have hF' : F = ⟨F.matrix, E.rowscale, E.colscale, E.rounds⟩ := by
    rw [← hmirror.colscale_eq, ← hmirror.rowscale_eq, ← hmirror.rounds_eq]
  refine ⟨E, At, F.matrix, hE, hAt, hmirror.matrix.transpose?_eq, hF'.symm ▸ hF, fun J => ?_,
    fun hone js hn hj => hlayout.foldlM_scaleCol?_neg_one hone hn hj⟩
  rw [hlayout.equilibrate?_negateColumns, hE]
  rfl

/-- The rows of the first column descend. -/
def crossed : Csc Float :=
  ⟨2, 2, #[0, 2, 4], #[1, 0, 0, 1], #[.ofBits 0xc090000000000000, 1, 16, .ofBits 0x3fd0000000000000]⟩

/-- It takes one round to scale `crossed`, its transpose, and it with the first column negated. -/
theorem equilibrate?_symmetric_crossed :
    ∃ E At Bt, crossed.equilibrate? 3 = some E ∧ crossed.transpose? = some At ∧
      E.matrix.transpose? = some Bt ∧ E.rounds = 1 ∧ (E.rowscale == E.colscale) = false ∧
      At.equilibrate? 3 = some ⟨Bt, E.rowscale, E.colscale, E.rounds⟩ ∧
      ∃ N, crossed.scaleCol? 0 (-1) = some N ∧
        N.equilibrate? 3 = some ⟨E.matrix.negateColumns {0}, E.colscale, E.rowscale, E.rounds⟩ := by
  have hrun : (crossed.equilibrate? 3).any (fun E => E.rounds == 1 &&
      !(E.rowscale == E.colscale)) = true := by decide +kernel
  have hformat : crossed.WellFormed := by decide +kernel
  obtain ⟨E, At, Bt, hE, hAt, hBt, hF, hneg, hflip⟩ := equilibrate?_symmetric hformat 3
  rw [hE, Option.any_some, Bool.and_eq_true, beq_iff_eq, Bool.not_eq_true'] at hrun
  have hscale := hflip (by decide +kernel) [0] (List.nodup_singleton 0) (by decide)
  simp only [List.foldlM_cons, List.foldlM_nil, bind_pure] at hscale
  exact ⟨E, At, Bt, hE, hAt, hBt, hrun.1, hrun.2, hF, _, hscale, hneg _⟩

end Csc

end LpPresolve
