import LpPresolve.Proofs.ScaledProgram
import LpPresolve.Proofs.Sparse.Rearranged

/-! Scaling two programs whose matrices differ in storage order only. The norms of a round agree, so the
two equilibrations go through the same rounds with the same factors, and their matrices stay
rearrangements of each other. -/

namespace LpPresolve

variable {α : Type} [Scalar α]

/-! ### Equilibration -/

namespace Equilibration

/-- Two equilibrations that have applied the same factors to matrices that are rearrangements. -/
structure InStep (E E' : Equilibration α) : Prop where
  layout : E.matrix.Layout
  layout' : E'.matrix.Layout
  matrix : E.matrix.Rearranged E'.matrix
  colscale_eq : E'.colscale = E.colscale
  rowscale_eq : E'.rowscale = E.rowscale
  rounds_eq : E'.rounds = E.rounds

variable {E E' : Equilibration α}

theorem inStep_start {A B : Csc α} (h : A.Rearranged B) (hA : A.Layout) (hB : B.Layout) :
    InStep (start A) (start B) where
  layout := hA
  layout' := hB
  matrix := h
  colscale_eq := by rw [start, start, h.cols_eq]
  rowscale_eq := by rw [start, start, h.rows_eq]
  rounds_eq := rfl

/-- One round with the same factors. -/
theorem InStep.next (h : InStep E E') {r c : Vec α} (hr : r.size = E.matrix.rows)
    (hc : c.size = E.matrix.cols) :
    ∃ B B', E.matrix.lrscale? r c = some B ∧ E'.matrix.lrscale? r c = some B' ∧
      InStep (E.next B c r) (E'.next B' c r) := by
  obtain ⟨B, hB, hmap⟩ := Csc.lrscale?_eq h.layout hr hc
  obtain ⟨B', hB', hmap'⟩ := Csc.lrscale?_eq h.layout' (hr.trans h.matrix.rows_eq.symm)
    (hc.trans h.matrix.cols_eq.symm)
  refine ⟨B, B', hB, hB', hmap.layout h.layout, hmap'.layout h.layout',
    h.matrix.mapped hmap hmap', ?_, ?_, ?_⟩
  · rw [Equilibration.next, Equilibration.next, h.colscale_eq]
  · rw [Equilibration.next, Equilibration.next, h.rowscale_eq]
  · rw [Equilibration.next, Equilibration.next, h.rounds_eq]

/-- The two runs stop after the same round. -/
theorem InStep.run? [LawfulMax α] (h : InStep E E') (n : Nat) :
    ∃ F F', run? n E = some F ∧ run? n E' = some F' ∧ InStep F F' := by
  induction n generalizing E E' with
  | zero => exact ⟨E, E', rfl, rfl, h⟩
  | succ n ih =>
    have hcol := h.matrix.colNorms?_eq h.layout h.layout'
    have hrow := h.matrix.rowNorms?_eq h.layout h.layout'
    obtain ⟨c, hc⟩ : ∃ c, E.matrix.colNorms? E.matrix.cols = some c := ⟨_, h.layout.colNorms?_eq⟩
    obtain ⟨r, hr⟩ : ∃ r, E.matrix.rowNorms? E.matrix.rows = some r := ⟨_, h.layout.rowNorms?_eq⟩
    simp only [Equilibration.run?, hcol, hrow, hc, hr, Option.bind_eq_bind, Option.bind_some]
    -- the norms agree, so both runs stop here or go on with the same factors
    split
    · exact ⟨E, E', rfl, rfl, h⟩
    · obtain ⟨B, B', hB, hB', hnext⟩ := h.next (r := factors r) (c := factors c)
        (by simpa [factors] using Csc.size_of_rowNorms? hr)
        (by simpa [factors] using Csc.size_of_colNorms? hc)
      rw [hB, hB']
      exact ih hnext

end Equilibration

theorem Csc.Rearranged.equilibrate? [LawfulMax α] {A B : Csc α} (h : A.Rearranged B)
    (hA : A.Layout) (hB : B.Layout) (n : Nat) :
    ∃ E E', A.equilibrate? n = some E ∧ B.equilibrate? n = some E' ∧
      Equilibration.InStep E E' := by
  have hstart := Equilibration.inStep_start h hA hB
  unfold Csc.equilibrate?
  rw [h.all_nzval_eq hA hB]
  split
  · exact ⟨_, _, rfl, rfl, hstart⟩
  · exact hstart.run? n

/-! ### Scaled programs -/

theorem Program.Valid.rearranged {P : Program α} (hP : P.Valid) {B : Csc α} (hB : B.WellFormed)
    (h : P.A.Rearranged B) : Program.Valid { P with A := B } where
  numVar_pos := hP.numVar_pos.trans_eq h.cols_eq.symm
  size_rhs := hP.size_rhs.trans h.rows_eq.symm
  size_types := hP.size_types.trans h.rows_eq.symm
  size_obj := hP.size_obj.trans h.cols_eq.symm
  size_lb := hP.size_lb.trans h.cols_eq.symm
  size_ub := hP.size_ub.trans h.cols_eq.symm
  finite_rhs := hP.finite_rhs
  finite_obj := hP.finite_obj
  bound j hj := hP.bound j (Nat.lt_of_lt_of_eq hj h.cols_eq)
  wellFormed := hB

namespace ScaledProgram

variable {P : Program α} {B : Csc α}

theorem flip?_rearranged (hP : P.Valid) (hB : B.WellFormed) (h : P.A.Rearranged B) :
    ∃ S C, flip? P = some S ∧ flip? { P with A := B } = some { S with A := C } ∧
      S.A.Layout ∧ C.Layout ∧ S.A.Rearranged C := by
  obtain ⟨S, hS, hmap⟩ := flip?_eq_some hP
  obtain ⟨C, hC, hmap'⟩ := flip?_eq_some (hP.rearranged hB h)
  exact ⟨_, C, hS, hC, hmap.layout hP.wellFormed.layout, hmap'.layout hB.layout,
    h.mapped hmap hmap'⟩

/-- The scaled copies have the same vectors and factors. -/
theorem ofProgram?_rearranged [LawfulMax α] (hP : P.Valid) (hB : B.WellFormed)
    (h : P.A.Rearranged B) (settings : Settings) :
    ∃ S C, ofProgram? P settings = some S ∧
      ofProgram? { P with A := B } settings = some { S with A := C } ∧
      S.A.Layout ∧ C.Layout ∧ S.A.Rearranged C := by
  obtain ⟨S, C, hS, hC, hlayout, hlayout', hperm⟩ := flip?_rearranged hP hB h
  obtain ⟨E, E', hE, hE', hstep⟩ := hperm.equilibrate? hlayout hlayout' settings.equilibrateMaxIter
  have hidentity : E'.isIdentity = E.isIdentity := by
    rw [Equilibration.isIdentity, Equilibration.isIdentity, hstep.rounds_eq]
  simp only [ofProgram?, hS, hC, hE, hE', hidentity, Option.bind_eq_bind, Option.bind_some]
  by_cases hscale : settings.scale = true
  · cases hid : E.isIdentity with
    | true => exact ⟨S, C, by simp [hscale], by simp [hscale], hlayout, hlayout', hperm⟩
    | false =>
      refine ⟨S.applyFactors E, E'.matrix, by simp [hscale], ?_, hstep.layout, hstep.layout',
        hstep.matrix⟩
      simp [hscale, applyFactors, hstep.colscale_eq, hstep.rowscale_eq]
  · exact ⟨S, C, by simp [hscale], by simp [hscale], hlayout, hlayout', hperm⟩

end ScaledProgram

end LpPresolve
