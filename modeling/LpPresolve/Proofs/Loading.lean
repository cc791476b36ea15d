import LpPresolve.Proofs.Exact.Scaling
import LpPresolve.Scalar.Binary

/-! Which data loads. Scaling and both forms read and write within their arrays on every accepted
matrix, whatever its values become, so that one step only can fail: the dual form wants a finite lower
bound under every finite upper bound. Flipping sees to that, and in exact arithmetic so does the
division by the column factors. A rounded quotient can leave the range of the format, and then a
boxed variable is left with its upper bound only. -/

namespace LpPresolve

variable {α : Type} [Scalar α]

/-! ### Scaled bounds -/

namespace ScaledProgram

/-- Each of the first `n` variables has a finite lower bound if it has a finite upper one. -/
def LowersFinite (S : ScaledProgram α) (n : Nat) : Prop :=
  ∀ j < n, Scalar.isFinite (S.ub.entry j) = true → Scalar.isFinite (S.lb.entry j) = true

theorem Copies.isSome_finiteLower? {P : Program α} {S : ScaledProgram α} (h : Copies P S) {j : Nat}
    (hj : j < P.numVar) :
    (Form.finiteLower? S j).isSome = Scalar.isFinite (S.lb.entry j) := by
  rw [Form.finiteLower?, Vec.getElem?_eq_some_entry _ (h.size_lb.symm ▸ hj)]
  cases hfin : Scalar.isFinite (S.lb.entry j) <;> simp [Option.filter, hfin]

theorem Copies.boundsFit_iff {P : Program α} {S : ScaledProgram α} (h : Copies P S) :
    Form.BoundsFit S P.numVar ↔ S.LowersFinite P.numVar := by
  have hsizes : S.lb.size ≤ P.numVar ∧ P.numVar ≤ S.ub.size :=
    ⟨Nat.le_of_eq h.size_lb, Nat.le_of_eq h.size_ub.symm⟩
  rw [Form.BoundsFit, and_iff_right hsizes.1, and_iff_right hsizes.2]
  constructor
  · intro hfit j hj hu
    exact (h.isSome_finiteLower? hj).symm.trans (hfit j hj hu)
  · intro hfit j hj hu
    exact (h.isSome_finiteLower? hj).trans (hfit j hj hu)

end ScaledProgram

/-! ### Forms -/

theorem Form.ofScaled?_isSome_iff (settings : Settings) {P : Program α} {S : ScaledProgram α}
    (hP : P.Valid) (hS : ScaledProgram.Copies P S) :
    (ofScaled? settings P S).isSome = true ↔
      (settings.dualize.dualizes P.numConstr P.numVar = true → S.LowersFinite P.numVar) := by
  rw [← hS.boundsFit_iff, ofScaled?]
  split
  · next hd =>
    rw [forall_prop_of_true hd]
    constructor
    · intro h
      obtain ⟨F, hF⟩ := Option.isSome_iff_exists.1 h
      exact boundsFit_of_dual?_eq_some hF
    · intro hfit
      obtain ⟨F, hF, -⟩ := dual?_eq_some settings hP hS hfit
      exact Option.isSome_iff_exists.2 ⟨F, hF⟩
  · next hd =>
    obtain ⟨F, hF, -⟩ := primal?_eq_some settings hP hS
    exact iff_of_true (Option.isSome_iff_exists.2 ⟨F, hF⟩) fun h => absurd h hd

/-! ### Loading -/

namespace Model

theorem ofProgram?_isSome_iff {settings : Settings} {P : Program α} (hP : P.Valid) :
    (ofProgram? P settings).isSome = true ↔
      (settings.dualize.dualizes P.numConstr P.numVar = true →
        ∀ S, ScaledProgram.ofProgram? P settings = some S → S.LowersFinite P.numVar) := by
  obtain ⟨S, hS⟩ := ScaledProgram.exists_ofProgram?_eq_some hP settings
  have hcopies := ScaledProgram.copies_of_ofProgram? hP hS
  simp only [hS, Option.some_inj, forall_eq']
  rw [← Form.ofScaled?_isSome_iff settings hP hcopies, ofProgram?, hS]
  cases hform : Form.ofScaled? settings P S <;> simp [hform]

theorem load?_isSome_iff_ofProgram? {A : Csc α} {rhs : Vec α} {types : Array Char} {offset : α}
    {obj lb ub : Vec α} {settings : Settings} :
    (load? A rhs types offset obj lb ub settings).isSome = true ↔
      ∀ P, Program.ofData A rhs types offset obj lb ub = .ok P →
        (ofProgram? P settings).isSome = true := by
  unfold load?
  split
  · next e he => simp [he]
  · next P hP => simp [hP]

/-- Loading has a result, a model or an error, but for one case: the form is the dual one, and some
variable has a finite upper bound and no finite lower bound after scaling. -/
theorem load?_isSome_iff (A : Csc α) (rhs : Vec α) (types : Array Char) (offset : α)
    (obj lb ub : Vec α) (settings : Settings) :
    (load? A rhs types offset obj lb ub settings).isSome = true ↔
      ∀ P, Program.ofData A rhs types offset obj lb ub = .ok P →
        settings.dualize.dualizes P.numConstr P.numVar = true →
          ∀ S, ScaledProgram.ofProgram? P settings = some S → S.LowersFinite P.numVar := by
  rw [load?_isSome_iff_ofProgram?]
  apply forall_congr'
  intro P
  apply forall_congr'
  intro hP
  exact ofProgram?_isSome_iff (Program.ofData_eq_ok_iff.1 hP).2.2

/-- One boxed variable under an equation, in double and in single precision. Its factor is below 1
and takes the lower bound out of the range of the format. -/
theorem load?_eq_none_of_overflow :
    load? ⟨1, 1, #[0, 1], #[0], #[(1e9 : Float)]⟩ #[0] #['='] 0 #[-1] #[-1e308] #[1]
        { dualize := .always } = none ∧
      load? ⟨1, 1, #[0, 1], #[0], #[(1e9 : Float32)]⟩ #[0] #['='] 0 #[-1] #[-3e38] #[1]
        { dualize := .always } = none := by
  decide +kernel

/-! ### Exact arithmetic -/

open Extended

theorem Exact.lowersFinite {M : Model Extended} (hM : M.Exact) :
    M.scaled.LowersFinite M.program.numVar := by
  intro j hj hu
  have hvalid := hM.regular.valid
  have hboxed := (Program.mem_boxed hvalid.size_lb hvalid.size_ub).1 ((hM.isFinite_upper_iff hj).1 hu)
  have hlb : M.scaled.lb.entry j = _ := hM.image.lb j hj
  rw [hlb, isFinite_div (hM.image.col_ne j hj)]
  split_ifs
  · exact hboxed.2.1
  · exact hboxed.2.2

/-- Without rounding all data loads or is rejected. -/
theorem load?_isSome (A : Csc Extended) (rhs : Vec Extended) (types : Array Char)
    (offset : Extended) (obj lb ub : Vec Extended) (settings : Settings) :
    (load? A rhs types offset obj lb ub settings).isSome = true := by
  rw [load?_isSome_iff_ofProgram?]
  intro P hP
  have hvalid := (Program.ofData_eq_ok_iff.1 hP).2.2
  rw [ofProgram?_isSome_iff hvalid]
  intro _ S hS
  have hcopies := ScaledProgram.copies_of_ofProgram? hvalid hS
  obtain ⟨himage, hc, hr⟩ := ScaledProgram.image_of_ofProgram? hvalid hS
  -- the primal form is there in any case
  obtain ⟨F, -, hF⟩ := Form.primal?_eq_some settings hvalid hcopies
  let M : Model Extended := { program := P, scaled := S, form := F, settings }
  have hM : M.Exact := ⟨⟨hvalid, hcopies, .inl hF⟩, himage, hc, hr⟩
  exact hM.lowersFinite

end Model

end LpPresolve
