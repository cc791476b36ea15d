import LpPresolve.Proofs.Interior.Evaluation
import LpPresolve.Proofs.Iterates.Forms

/-! Evaluated iterates. An exact iterate is reported with the objective values of the form and with no
residual but that of fixed columns that are off their value. These columns are also left out of the
complementarity. -/

namespace LpPresolve

open Extended

theorem Extended.sub_finite (a : Extended) (q : Rat) : a - finite q = a + finite (-q) := rfl

namespace Model

variable {M : Model Extended} {s : SolverInterior Extended}

/-- A point at its distances from the bounds is reported with the objective values of the scaled
program, and with residuals exactly if one of its rows or columns has one. -/
theorem Exact.evaluateInterior?_of_meetsBounds (hM : M.Exact) (hs : s.Fits M.rows M.cols)
    (hf : s.Finite M.form) (hmeets : M.scaledProgram.MeetsBounds (M.userInterior s)) :
    ∃ info, M.evaluateInterior? s = some info ∧
      (info.absPresidual = 0 ↔
        ∀ i < M.program.numConstr, M.scaledProgram.rowResidual (M.userInterior s) i = 0) ∧
      (info.absDresidual = 0 ↔
        ∀ j < M.program.numVar, M.scaledProgram.columnResidual (M.userInterior s) j = 0) ∧
      info.pobjval = M.program.offset +
        finite (M.scaledProgram.value (M.userInterior s).x.value) ∧
      info.dobjval = M.program.offset +
        finite (M.scaledProgram.dualValue (M.userInterior s).y.value (M.userInterior s).zl.value
          (M.userInterior s).zu.value) ∧
      info.complementarity = finite (M.scaledProgram.complementarity (M.userInterior s)) := by
  have hn : M.scaledProgram.numVar = M.program.numVar := hM.image.numVar_eq
  have hq := hM.regular.sized_userInterior hs
  have hqf := hM.finite_userInterior hs hf
  have himage := Scaling.image_unscaleInterior hM.suits hM.positive_colscale hM.positive_rowscale hq
  obtain ⟨R, hR, hresid⟩ := hM.scaledResiduals?_eq hq hqf
  have hres := Scaling.residuals_unscaleResiduals hM.suits hM.positive_colscale
    hM.positive_rowscale hM.image himage hresid
  have hbounds := fun j (hj : j < M.program.numVar) =>
    hM.image.boundResiduals_eq_zero himage hmeets hj
  have hobj : M.scaled.obj.dot (M.userInterior s).x =
      finite (M.scaledProgram.value (M.userInterior s).x.value) :=
    hM.image.target.dot_obj hqf.x (hq.size_x.trans hn.symm)
  simp only [evaluateInterior?, if_pos hs, hR, Option.bind_eq_bind, Option.bind_some]
  refine ⟨_, rfl, ?_, ?_, congrArg (M.program.offset + ·) hobj, hM.dualObjective_eq hq hqf,
    hM.complementarity_eq hq hqf⟩
  · simp only
    rw [Vec.normInf_of_entries hres.size_rb hres.rb, Vec.normInf_of_entries hres.size_rl hres.rl,
      Vec.normInf_of_entries hres.size_ru hres.ru,
      Vec.absMax_eq_zero_iff.2 fun j hj => (hbounds j hj).1,
      Vec.absMax_eq_zero_iff.2 fun j hj => (hbounds j hj).2, maxNum_finite, maxNum_finite,
      max_eq_left (Vec.absMax_nonneg _ _), max_eq_left (Vec.absMax_nonneg _ _), zero_eq,
      finite.injEq, Vec.absMax_eq_zero_iff]
    exact forall₂_congr fun i hi => hM.image.rowResidual_eq_zero_iff himage hi
  · simp only
    rw [Vec.normInf_of_entries hres.size_rc hres.rc, zero_eq, finite.injEq, Vec.absMax_eq_zero_iff]
    exact forall₂_congr fun j hj => hM.image.columnResidual_eq_zero_iff himage hj

/-- An iterate that meets the equations of the form and of its dual is reported with the objective
values that the form itself gives, in the dual form with the roles of the two objectives exchanged. The
columns of the identity block that are fixed are taken to have their value, as no distance from a bound
tells how far they are off: one that is off leaves a residual of its row in the primal form and of its
column in the dual form, and only the products of the other columns make up the complementarity. -/
theorem evaluateInterior?_solves (hM : M.Loaded) (hs : s.Solves M.form) :
    ∃ info, M.evaluateInterior? s = some info ∧
      (M.dualized = false →
        (info.absPresidual = 0 ↔ s.KeepsFixed M.form) ∧ info.absDresidual = 0 ∧
          info.pobjval = M.program.offset + M.form.c.dot s.x ∧
          info.dobjval = M.program.offset + finite (M.form.dualValue s)) ∧
      (M.dualized = true →
        info.absPresidual = 0 ∧ (info.absDresidual = 0 ↔ s.KeepsFixed M.form) ∧
          info.pobjval = M.program.offset - finite (M.form.dualValue s) ∧
          info.dobjval = M.program.offset - M.form.c.dot s.x) ∧
      info.complementarity =
        finite (M.form.complementarity s - M.form.fixedComplementarity s) ∧
      (s.KeepsFixed M.form → info.complementarity = finite (M.form.complementarity s)) := by
  have hE := hM.exact
  have hfixed := hs.keepsFixed_iff hE.form
  have hkeep : s.KeepsFixed M.form →
      M.form.complementarity s - M.form.fixedComplementarity s = M.form.complementarity s :=
    fun h => by rw [hs.fixedComplementarity_eq_zero hE.form h, sub_zero]
  rcases hE.regular.form with hF | hF
  · have hkind := dualized_of_isPrimal hF
    obtain ⟨hc, hD⟩ := hF.objectives_userInterior hE hs
    obtain ⟨info, heval, hp, hd, hpobj, hdobj, hcompl⟩ :=
      hE.evaluateInterior?_of_meetsBounds hs.fits hs.finite (hF.meetsBounds_userInterior hE hs)
    rw [hF.complementarity_userInterior hE hs] at hcompl
    refine ⟨info, heval, fun _ => ⟨?_, ?_, ?_, ?_⟩,
      fun h => Bool.noConfusion (hkind.symm.trans h), hcompl, fun h => hkeep h ▸ hcompl⟩
    · rw [hp, hfixed, hF.rows_eq]
      exact forall₂_congr fun i hi => by rw [hF.rowResidual_userInterior hE hs hi]
    · exact hd.2 fun j hj => hF.columnResidual_userInterior hE hs hj
    · rw [hpobj, hc]
    · rw [hdobj, hD]
  · have hkind := dualized_of_isDual hF
    obtain ⟨hc, hD⟩ := hF.objectives_userInterior hE hs
    obtain ⟨info, heval, hp, hd, hpobj, hdobj, hcompl⟩ :=
      hE.evaluateInterior?_of_meetsBounds hs.fits hs.finite (hF.meetsBounds_userInterior hE hs)
    rw [hF.complementarity_userInterior hE hs] at hcompl
    refine ⟨info, heval, fun h => Bool.noConfusion (hkind.symm.trans h),
      fun _ => ⟨?_, ?_, ?_, ?_⟩, hcompl, fun h => hkeep h ▸ hcompl⟩
    · exact hp.2 fun i hi => hF.rowResidual_userInterior hE hs hi
    · rw [hd, hfixed, hF.rows_eq]
      exact forall₂_congr fun j hj => by rw [hF.columnResidual_userInterior hE hs hj]
    · rw [hpobj, hD, sub_finite, neg_neg]
    · rw [hdobj, hc, sub_finite, neg_neg]

/-- The optimal point `(2, -15, 7, 0)` of `Program.mixed` and its multipliers in the dual form. -/
def mixedIterate : SolverInterior Extended where
  x := #[finite 0, finite 2, finite (1 / 16), finite 0, finite 0, finite 3, finite 3]
  xl := #[top, finite 2, finite (1 / 16), finite 0, finite 0, finite 3, finite 3]
  xu := #[finite 0, top, top, top, finite 0, top, top]
  y := #[finite (-32), finite 15, finite 7, finite 0]
  zl := #[finite 0, finite 0, finite 0, finite 48, finite 0, finite 0, finite 0]
  zu := #[finite (1913 / 1024), finite 0, finite 0, finite 0, finite 15, finite 0, finite 0]

theorem evaluateInterior?_solves_mixed :
    ∃ M : Model Extended, M.Loaded ∧ M.program = Program.mixed ∧ M.dualized = true ∧
      mixedIterate.Solves M.form ∧ mixedIterate.KeepsFixed M.form ∧
      ∃ info, M.evaluateInterior? mixedIterate = some info ∧ info.absPresidual = 0 ∧
        info.absDresidual = 0 ∧ info.pobjval = finite (-11) ∧ info.complementarity = 0 := by
  obtain ⟨M, hM, hP, hp⟩ := exists_loaded { dualize := .always } Program.valid_mixed
    (p := fun M => decide (M.dualized = true ∧ mixedIterate.Solves M.form ∧
      mixedIterate.KeepsFixed M.form ∧
      M.program.offset - finite (M.form.dualValue mixedIterate) = finite (-11) ∧
      finite (M.form.complementarity mixedIterate) = 0)) (by decide +kernel)
  obtain ⟨hdual, hs, hfixed, hpobj, hcompl⟩ := of_decide_eq_true hp
  obtain ⟨info, heval, -, hinfo, -, hproducts⟩ := evaluateInterior?_solves hM hs
  obtain ⟨hpres, hdres, hobj, -⟩ := hinfo hdual
  exact ⟨M, hM, hP, hdual, hs, hfixed, info, heval, hpres, hdres.2 hfixed, hobj.trans hpobj,
    (hproducts hfixed).trans hcompl⟩

end Model

/-- One equation in one nonnegative variable. -/
def Program.single : Program Extended where
  A := ⟨1, 1, #[0, 1], #[0], #[finite 1]⟩
  rhs := #[finite 1]
  types := #[.equal]
  offset := finite 0
  obj := #[finite 0]
  lb := #[finite 0]
  ub := #[top]

theorem Program.valid_single : single.Valid where
  numVar_pos := by decide
  size_rhs := rfl
  size_types := rfl
  size_obj := rfl
  size_lb := rfl
  size_ub := rfl
  finite_rhs := by decide +kernel
  finite_obj := by decide +kernel
  bound := by decide +kernel
  wellFormed := by decide +kernel

/-- The slack of an equation is off its value. -/
def Model.offIterate : SolverInterior Extended where
  x := #[finite 0, finite 1]
  xl := #[finite 0, finite 1]
  xu := #[top, finite (-1)]
  y := #[finite 0]
  zl := #[finite 0, finite 0]
  zu := #[finite 0, finite 0]

/-- A fixed column that is off its value leaves a residual, though the iterate meets all equations. -/
theorem Model.evaluateInterior?_not_fixed :
    ∃ M : Model Extended, M.Loaded ∧ M.program = Program.single ∧ M.dualized = false ∧
      Model.offIterate.Solves M.form ∧
      ∃ info, M.evaluateInterior? Model.offIterate = some info ∧ info.absPresidual = finite 1 := by
  obtain ⟨M, hM, hP, hp⟩ := exists_loaded { dualize := .never } Program.valid_single
    (p := fun M => decide (M.dualized = false ∧ Model.offIterate.Solves M.form) &&
      (M.evaluateInterior? Model.offIterate).any fun info => decide (info.absPresidual = finite 1))
    (by decide +kernel)
  obtain ⟨hform, heval⟩ := (Bool.and_eq_true _ _).mp hp
  obtain ⟨hprimal, hs⟩ := of_decide_eq_true hform
  obtain ⟨info, hinfo, hres⟩ := (Option.any_eq_true _ _).1 heval
  exact ⟨M, hM, hP, hprimal, hs, info, hinfo, of_decide_eq_true hres⟩

end LpPresolve
