import LpPresolve.Proofs.Exact.Transfer
import LpPresolve.Proofs.Optimality.Forms
import LpPresolve.Proofs.Transfer.RoundTrip

/-! Optimality across presolving. A point that solves the form of a loaded model comes back as an
optimal point of the user's program, and an optimal point of the user's program becomes one that
solves the form. Between the two stands the scaled program: the forms are compared with it block by
block, and it is an image of the user's. -/

namespace LpPresolve

open Extended

/-! ### The dual form and the scaled program -/

namespace Form

variable {M : Model Extended} {x y z w : Nat → Rat}

/-- The reduced cost of a variable is the multiplier of its lower bound less that of its upper
bound. -/
theorem DualConditions.optimalAt (hM : M.Exact) (h : DualConditions M x w z) :
    M.scaledProgram.OptimalAt x (fun i => -z i) w fun j =>
      w (M.program.numConstr + M.program.boxed.length + j) -
        upperPart M.program M.program.numConstr w j := by
  have hm : M.scaledProgram.numConstr = M.program.numConstr := hM.image.numConstr_eq
  have hn : M.scaledProgram.numVar = M.program.numVar := hM.image.numVar_eq
  have hupper : ∀ j ∈ M.program.boxed, 0 ≤ upperPart M.program M.program.numConstr w j ∧
      x j ≤ M.scaledProgram.ub.value j ∧
        (0 < upperPart M.program M.program.numConstr w j → x j = M.scaledProgram.ub.value j) := by
    intro j hj
    obtain ⟨k, hk, rfl⟩ := List.getElem_of_mem hj
    rw [upperPart_boxed hM.regular.valid _ _ hk]
    exact h.upper k hk
  refine ⟨fun i hi => ?_, fun j hj => ?_, fun i hi t ht => ?_, fun j hj => ?_, fun i hi t ht => ?_,
    fun j hj => ?_, fun i hi => ?_⟩
  · rw [← sub_eq_add_neg]
    exact h.row i (hm ▸ hi)
  · have hj : j < M.program.numVar := hn ▸ hj
    refine ⟨(h.lower j hj).2.1, ?_⟩
    by_cases hb : j ∈ M.program.boxed
    · rw [IsDual.entry_ub_boxed hM hb, finite_le_finite]
      exact (hupper j hb).2.1
    · rw [IsDual.entry_ub_not_boxed hM hj hb]
      exact finite_le_top _
  · exact (h.constraint i (hm ▸ hi) t ht).2.1
  · have hcolumn := h.column j (hn ▸ hj)
    linarith
  · exact (h.constraint i (hm ▸ hi) t ht).1
  · have hj : j < M.program.numVar := hn ▸ hj
    obtain ⟨hw, -, hlower⟩ := h.lower j hj
    by_cases hb : j ∈ M.program.boxed
    · obtain ⟨hnonneg, -, htight⟩ := hupper j hb
      refine ⟨fun hz => hlower (by linarith), fun hz => ?_⟩
      rw [IsDual.entry_ub_boxed hM hb, htight (by linarith)]
    · rw [upperPart, if_neg hb, sub_zero]
      exact ⟨hlower, fun hz => absurd hw (not_le.2 hz)⟩
  · obtain ⟨t, ht⟩ := hM.regular.valid.exists_type (hm ▸ hi)
    exact (h.constraint i (hm ▸ hi) t ht).2.2

theorem DualVectors.dualConditions {slack zred : Nat → Rat} (hM : M.Exact)
    (hv : DualVectors M x slack y zred w z) (h : M.scaledProgram.OptimalAt x slack y zred) :
    DualConditions M x w z := by
  have hm : M.scaledProgram.numConstr = M.program.numConstr := hM.image.numConstr_eq
  have hn : M.scaledProgram.numVar = M.program.numVar := hM.image.numVar_eq
  have hupper : ∀ j ∈ M.program.boxed, upperPart M.program M.program.numConstr w j =
      if zred j < 0 then -zred j else 0 := by
    intro j hj
    obtain ⟨k, hk, rfl⟩ := List.getElem_of_mem hj
    rw [upperPart_boxed hM.regular.valid _ _ hk, hv.upper_part k hk]
  -- without an upper bound no reduced cost is negative
  have hnonneg : ∀ j < M.program.numVar, j ∉ M.program.boxed → 0 ≤ zred j := by
    intro j hj hb
    by_contra hneg
    have htop := (h.at_bound j (hn.symm ▸ hj)).2 (not_le.1 hneg)
    rw [IsDual.entry_ub_not_boxed hM hj hb] at htop
    exact Extended.noConfusion htop
  refine ⟨fun j hj => ?_, fun i hi => ?_, hv.upper_distance, hv.lower_distance,
    fun i hi t ht => ?_, fun k hk => ?_, fun j hj => ?_⟩
  · have hcolumn := h.column j (hn.symm ▸ hj)
    have hmult : ∀ i < M.scaledProgram.A.rows, w i = y i := fun i hi => hv.multiplier i (hm ▸ hi)
    rw [Csc.colDot_congr hmult, hv.lower_part j hj]
    by_cases hb : j ∈ M.program.boxed
    · rw [hupper j hb, if_pos hb]
      split_ifs <;> linarith
    · rw [upperPart, if_neg hb, if_neg hb, sub_zero, hcolumn]
  · rw [hv.slack i hi, sub_neg_eq_add]
    exact h.row i (hm.symm ▸ hi)
  · have hi' : i < M.scaledProgram.numConstr := hm.symm ▸ hi
    rw [hv.multiplier i hi, hv.slack i hi, neg_neg]
    exact ⟨h.multiplier_sign i hi' t ht, h.slack_sign i hi' t ht, h.tight i hi'⟩
  · have hb : M.program.boxed[k] ∈ M.program.boxed := List.getElem_mem hk
    have hj := hn.symm ▸ hM.regular.valid.lt_of_mem_boxed hb
    have hle := (h.bounds _ hj).2
    have hat := (h.at_bound _ hj).2
    rw [IsDual.entry_ub_boxed hM hb, finite_le_finite] at hle
    rw [IsDual.entry_ub_boxed hM hb, finite.injEq] at hat
    rw [hv.upper_part k hk]
    split_ifs with hneg
    · exact ⟨neg_nonneg.2 hneg.le, hle, fun _ => hat hneg⟩
    · exact ⟨le_rfl, hle, fun h => absurd h (lt_irrefl 0)⟩
  · have hj' : j < M.scaledProgram.numVar := hn.symm ▸ hj
    have hle := (h.bounds j hj').1
    have hat := (h.at_bound j hj').1
    rw [hv.lower_part j hj]
    split_ifs with hb hneg
    · exact ⟨le_rfl, hle, fun h => absurd h (lt_irrefl 0)⟩
    · exact ⟨not_lt.1 hneg, hle, hat⟩
    · exact ⟨hnonneg j hj hb, hle, hat⟩

end Form

namespace Model

variable {M : Model Extended} {s : SolverPoint Extended} {u : UserPoint Extended}

/-! ### The form and the scaled program -/

namespace Exact

theorem finite_userPoint (hM : M.Exact) (hs : s.Fits M.rows M.cols) (hf : s.Finite) :
    (M.userPoint s).Finite := by
  rcases hM.regular.form with hF | hF
  · exact hF.finite_userPoint hs hf
  · exact hF.finite_userPoint hM hs hf

theorem finite_solverPoint (hM : M.Exact) (hf : u.Finite) : (M.solverPoint u).Finite := by
  rcases hM.regular.form with hF | hF
  · exact hF.finite_solverPoint hM hf
  · exact hF.finite_solverPoint hM hf

theorem optimal_userPoint (hM : M.Exact) (hs : s.Fits M.rows M.cols) (hf : s.Finite)
    (h : M.form.Solved s) : M.scaledProgram.Optimal (M.userPoint s) := by
  have hm : M.scaledProgram.numConstr = M.program.numConstr := hM.image.numConstr_eq
  have hn : M.scaledProgram.numVar = M.program.numVar := hM.image.numVar_eq
  rw [Program.Optimal]
  rcases hM.regular.form with hF | hF
  · obtain ⟨hx, hslack, hy, hz⟩ := hF.value_userPoint hs
    have hopt := ((hF.solved_iff hM hs hf).1 h).1
    exact hopt.congr (hn ▸ hx) (hm ▸ hslack) (hm ▸ hy) (hn ▸ hz)
  · obtain ⟨hx, hslack, hy, hz⟩ := hF.value_userPoint hM hs hf
    have hopt := ((hF.solved_iff hM hs hf).1 h).optimalAt hM
    exact hopt.congr (hn ▸ hx) (hm ▸ hslack) (hm ▸ hy) (hn ▸ hz)

theorem solved_solverPoint (hM : M.Exact)
    (hu : u.Sized M.program.numVar M.program.numConstr) (hf : u.Finite)
    (h : M.scaledProgram.Optimal u) : M.form.Solved (M.solverPoint u) := by
  have hm : M.scaledProgram.numConstr = M.program.numConstr := hM.image.numConstr_eq
  have hn : M.scaledProgram.numVar = M.program.numVar := hM.image.numVar_eq
  have hs := hM.regular.fits_solverPoint hu
  rcases hM.regular.form with hF | hF
  · obtain ⟨hx, hslack, hy, hz, hreduced⟩ := hF.value_solverPoint hM hu hf
    rw [hF.solved_iff hM hs (hF.finite_solverPoint hM hf)]
    refine ⟨Program.OptimalAt.congr h (hn ▸ hx) (fun i _ => hslack i) (fun i _ => hy i) (hn ▸ hz),
      fun i hi => ?_⟩
    rw [hreduced i hi, hy i]
  · obtain ⟨hx, hv⟩ := hF.value_solverPoint hM hu hf
    rw [hF.solved_iff hM hs (hF.finite_solverPoint hM hf)]
    exact hv.dualConditions hM (Program.OptimalAt.congr h (hn ▸ hx) (fun _ _ => rfl)
      (fun _ _ => rfl) fun _ _ => rfl)

end Exact

/-! ### The form and the user's program -/

/-- Optimality is kept in both directions. A finite point that solves the form of a loaded model is
postsolved to an optimal point of the user's program, and a finite optimal point of the user's
program is presolved to a point that solves the form. -/
theorem optimality_transfers {M : Model Extended} (hM : M.Loaded) :
    (∀ s : SolverPoint Extended, s.Fits M.rows M.cols → s.Finite → M.form.Solved s →
      ∃ u, M.postsolvePoint? s = some u ∧ u.Sized M.program.numVar M.program.numConstr ∧
        u.Finite ∧ M.program.Optimal u) ∧
    ∀ u : UserPoint Extended, u.Sized M.program.numVar M.program.numConstr → u.Finite →
      M.program.Optimal u →
        ∃ s, M.presolvePoint u.toPartial = .ok s ∧ s.Fits M.rows M.cols ∧ s.Finite ∧
          M.form.Solved s := by
  have hE := hM.exact
  have hsuits := hE.suits
  constructor
  · intro s hs hf h
    have hsized := hE.sized_userPoint hs
    obtain ⟨hfinite, himage⟩ := Scaling.image_unscalePoint hsuits hE.positive_colscale
      hE.positive_rowscale hsized (hE.finite_userPoint hs hf)
    refine ⟨_, if_pos hs, Scaling.sized_unscalePoint hsuits hsized, hfinite, ?_⟩
    exact (hE.image.optimal_iff himage).1 (hE.optimal_userPoint hs hf h)
  · intro u hu hf h
    obtain ⟨hfinite, himage⟩ := Scaling.image_scalePoint hsuits hE.positive_colscale
      hE.positive_rowscale hu hf
    have hsized := Scaling.sized_scalePoint hsuits hu
    have hopt := (hE.image.optimal_iff himage).2 h
    exact ⟨_, presolvePoint_toPartial hu, hE.regular.fits_solverPoint hsized,
      hE.finite_solverPoint hfinite, hE.solved_solverPoint hsized hfinite hopt⟩

/-- An optimal point of a program with all kinds of bounds, with a boxed variable at its upper bound,
through the dual form and back. -/
theorem optimality_transfers_mixed :
    ∃ M : Model Extended, M.Loaded ∧ M.program = Program.mixed ∧ M.dualized = true ∧
      ∃ s u, M.presolvePoint ⟨some #[finite 2, finite (-15), finite 7, finite 0],
          some #[finite (1913 / 64), finite 0], some #[finite 0, finite 2],
          some #[finite (-1), finite 0, finite (-3), finite 3]⟩ = .ok s ∧
        M.form.Solved s ∧ M.postsolvePoint? s = some u ∧ Program.mixed.Optimal u := by
  obtain ⟨M, hM, hP, hdual⟩ := exists_loaded { dualize := .always } Program.valid_mixed
    (p := fun M => M.dualized) (by decide +kernel)
  obtain ⟨hpost, hpre⟩ := optimality_transfers hM
  rw [hP] at hpost hpre
  obtain ⟨s, hs, hfits, hfinite, hsolved⟩ := hpre
    ⟨#[finite 2, finite (-15), finite 7, finite 0], #[finite (1913 / 64), finite 0],
      #[finite 0, finite 2], #[finite (-1), finite 0, finite (-3), finite 3]⟩
    ⟨rfl, rfl, rfl, rfl⟩ (by decide +kernel) (by decide +kernel)
  obtain ⟨u, hu, -, -, hopt⟩ := hpost s hfits hfinite hsolved
  exact ⟨M, hM, hP, hdual, s, u, hs, hsolved, hu, hopt⟩

end Model

end LpPresolve
