import LpPresolve.Proofs.Duality.Forms
import LpPresolve.Proofs.Exact.Transfer
import Mathlib.Data.Set.Function

/-! The primal form as the user's program with slacks. A point of the program stands for the vector of
its scaled variables and of their slacks in the scaled program. This is one to one between the feasible
points of the program and those of the form, and it keeps the objective value. -/

namespace LpPresolve

open Extended

/-- Finite vectors of one length with the same values. -/
theorem Vec.ext_value {v w : Vec Extended} (hv : v.isFinite = true) (hw : w.isFinite = true)
    (hs : v.size = w.size) (h : ∀ i < v.size, v.value i = w.value i) : v = w :=
  Vec.ext_entry hs fun i hi => by
    rw [Vec.entry_eq_finite hv, Vec.entry_eq_finite hw, h i hi]

/-- The vector of `n` rationals. -/
def Vec.ofValues (n : Nat) (f : Nat → Rat) : Vec Extended :=
  ((List.range n).map fun i => finite (f i)).toArray

@[simp] theorem Vec.size_ofValues (n : Nat) (f : Nat → Rat) : (ofValues n f).size = n := by
  simp [ofValues]

theorem Vec.entry_ofValues (n : Nat) (f : Nat → Rat) {i : Nat} (hi : i < n) :
    (ofValues n f).entry i = finite (f i) :=
  entry_range n _ hi

theorem Vec.value_ofValues (n : Nat) (f : Nat → Rat) {i : Nat} (hi : i < n) :
    (ofValues n f).value i = f i :=
  value_of_entry (entry_ofValues n f hi)

theorem Vec.isFinite_ofValues (n : Nat) (f : Nat → Rat) : (ofValues n f).isFinite = true :=
  isFinite_of_entry fun _ hi => entry_ofValues n f (size_ofValues n f ▸ hi)

theorem Program.Exact.dot_obj {P : Program Extended} (hP : P.Exact) {x : Vec Extended}
    (hx : x.isFinite = true) (hs : x.size = P.numVar) : P.obj.dot x = finite (P.value x.value) :=
  Vec.dot_eq hP.finite_obj hx hP.size_obj hs

/-! ### Feasible vectors of the form -/

namespace Form.IsPrimal

variable {M : Model Extended} (hF : IsPrimal M.program M.scaled M.form) (hM : M.Exact)
  {v : Vec Extended}

include hF hM

/-- The last entries of a feasible vector are the slacks of the first ones. -/
theorem feasible_iff (hv : v.isFinite = true) : M.form.Feasible v ↔
    (∀ i < M.program.numConstr, v.value (M.program.numVar + i) =
      M.scaledProgram.rhs.value i - M.scaledProgram.A.rowDot i v.value) ∧
        M.scaledProgram.Feasible v.value := by
  have hm : M.scaledProgram.numConstr = M.program.numConstr := hM.image.numConstr_eq
  have hn : M.scaledProgram.numVar = M.program.numVar := hM.image.numVar_eq
  have hrow : ∀ i < M.program.numConstr, M.form.AI.rowDot i v.value = M.form.b.value i ↔
      v.value (M.program.numVar + i) =
        M.scaledProgram.rhs.value i - M.scaledProgram.A.rowDot i v.value := fun i hi => by
    rw [hF.row_iff hM hi, eq_sub_iff_add_eq']
  rw [Form.feasible_iff, Program.feasible_iff, hF.cols_add_rows, hF.rows_eq, hm, hn,
    forall_lt_add_iff_lt_left, forall₂_congr hrow]
  refine and_congr_right fun hslack => ?_
  rw [and_comm]
  apply and_congr
  · apply forall₂_congr
    intro i hi
    obtain ⟨t, ht⟩ := hM.regular.valid.exists_type hi
    rw [Vec.entry_eq_finite hv, hF.bounds_slack_iff hM ht, hslack i hi,
      show M.scaledProgram.types[i]? = some t from ht]
    simp
  · apply forall₂_congr
    intro j hj
    rw [Vec.entry_eq_finite hv, hF.entry_lb_variable hM hj, hF.entry_ub_variable hM hj]

/-- Slacks cost nothing. -/
theorem dot_c (hv : v.isFinite = true) (hs : v.size = M.form.cols + M.form.rows) :
    M.form.c.dot v = finite (M.scaledProgram.value v.value) := by
  have hform := hF.exact hM
  have hn : M.scaledProgram.numVar = M.program.numVar := hM.image.numVar_eq
  have hslack : ∀ i ∈ Finset.range M.program.numConstr,
      M.form.c.value (M.program.numVar + i) * v.value (M.program.numVar + i) = 0 := fun i _ => by
    rw [Vec.value_of_entry (hF.entry_c_slack hM i), zero_mul]
  rw [Vec.dot_eq hform.finite_c hv hform.size_c hs, hF.cols_add_rows, Finset.sum_range_add,
    Finset.sum_eq_zero hslack, add_zero, Program.value, hn]
  congr 1
  apply Finset.sum_congr rfl
  intro j hj
  rw [Vec.value_of_entry (hF.entry_c_variable hM (Finset.mem_range.1 hj))]

end Form.IsPrimal

/-! ### The vector of a point -/

namespace Model

/-- The scaled variables. -/
def scaledVariables (M : Model Extended) (x : Vec Extended) : Vec Extended :=
  M.scaling.flipped.negate (Scaling.divBy M.scaling.colscale x)

/-- The scaled variables with their slacks in the scaled program. -/
def slacked (M : Model Extended) (x : Vec Extended) : Vec Extended :=
  M.scaledVariables x ++ Vec.ofValues M.program.numConstr fun i =>
    M.scaledProgram.rhs.value i - M.scaledProgram.A.rowDot i (M.scaledVariables x).value

variable {M : Model Extended} {x : Vec Extended}

theorem Exact.scaledVariables (hM : M.Exact) (hs : x.size = M.program.numVar)
    (hx : x.isFinite = true) : (M.scaledVariables x).size = M.program.numVar ∧
      (M.scaledVariables x).isFinite = true ∧ ∀ j < M.program.numVar,
        (M.scaledVariables x).value j * M.scaling.signedFactor j = x.value j := by
  -- the slacks and multipliers of the point play no part
  have hsized : (UserPoint.mk x (Vec.zeros M.program.numConstr) (Vec.zeros M.program.numConstr)
      (Vec.zeros M.program.numVar)).Sized M.program.numVar M.program.numConstr :=
    ⟨hs, Vec.size_zeros _, Vec.size_zeros _, Vec.size_zeros _⟩
  obtain ⟨hfin, himage⟩ := Scaling.image_scalePoint hM.suits hM.positive_colscale
    hM.positive_rowscale hsized
    ⟨hx, Vec.isFinite_zeros _, Vec.isFinite_zeros _, Vec.isFinite_zeros _⟩
  exact ⟨(Scaling.sized_scalePoint hM.suits hsized).size_x, hfin.x, himage.x⟩

theorem Exact.slacked (hM : M.Exact) (hs : x.size = M.program.numVar) (hx : x.isFinite = true) :
    (M.slacked x).size = M.program.numVar + M.program.numConstr ∧
      (M.slacked x).isFinite = true ∧
      (∀ j < M.program.numVar, (M.slacked x).value j * M.scaling.signedFactor j = x.value j) ∧
      ∀ i < M.program.numConstr, (M.slacked x).value (M.program.numVar + i) =
        M.scaledProgram.rhs.value i - M.scaledProgram.A.rowDot i (M.slacked x).value := by
  obtain ⟨hsize, hfin, hvalue⟩ := hM.scaledVariables hs hx
  have hleft : ∀ j < M.program.numVar, (M.slacked x).value j = (M.scaledVariables x).value j :=
    fun j hj => Vec.value_append_left _ _ (hsize.symm ▸ hj)
  refine ⟨?_, Vec.isFinite_append hfin (Vec.isFinite_ofValues _ _), fun j hj => ?_,
    fun i hi => ?_⟩
  · simp [Model.slacked, hsize]
  · rw [hleft j hj, hvalue j hj]
  · have hn : M.scaledProgram.A.cols = M.program.numVar := hM.image.numVar_eq
    have hrow : M.scaledProgram.A.rowDot i (M.slacked x).value =
        M.scaledProgram.A.rowDot i (M.scaledVariables x).value :=
      Csc.rowDot_congr (fun j hj => hleft j (hn ▸ hj)) i
    rw [hrow, Model.slacked, ← hsize, Vec.value_append_right, Vec.value_ofValues _ _ hi]

/-! ### The equivalence -/

end Model

/-- The finite vectors that meet the constraints and the bounds. -/
def Program.feasibleSet (P : Program Extended) : Set (Vec Extended) :=
  {x | x.size = P.numVar ∧ x.isFinite = true ∧ P.Feasible x.value}

/-- The finite vectors that meet the equations and the bounds of the form. -/
def Form.feasibleSet (F : Form Extended) : Set (Vec Extended) :=
  {v | v.size = F.cols + F.rows ∧ v.isFinite = true ∧ F.Feasible v}

namespace Form.IsPrimal

variable {M : Model Extended} (hF : IsPrimal M.program M.scaled M.form) (hM : M.Exact)

include hM

theorem injOn_slacked : Set.InjOn M.slacked M.program.feasibleSet := by
  rintro x ⟨hs, hx, -⟩ x' ⟨hs', hx', -⟩ heq
  obtain ⟨-, -, hvar, -⟩ := hM.slacked hs hx
  obtain ⟨-, -, hvar', -⟩ := hM.slacked hs' hx'
  apply Vec.ext_value hx hx' (hs.trans hs'.symm)
  intro j hj
  rw [← hvar j (hs ▸ hj), ← hvar' j (hs ▸ hj), heq]

include hF

theorem mapsTo_slacked : Set.MapsTo M.slacked M.program.feasibleSet M.form.feasibleSet := by
  rintro x ⟨hs, hx, hfeas⟩
  obtain ⟨hsize, hfin, hvar, hslack⟩ := hM.slacked hs hx
  exact ⟨hsize.trans hF.cols_add_rows.symm, hfin,
    (hF.feasible_iff hM hfin).2 ⟨hslack, (hM.image.feasible_iff hvar).2 hfeas⟩⟩

theorem surjOn_slacked : Set.SurjOn M.slacked M.program.feasibleSet M.form.feasibleSet := by
  rintro v ⟨hs, hv, hfeas⟩
  obtain ⟨hslacks, hscaled⟩ := (hF.feasible_iff hM hv).1 hfeas
  -- the point is read off the first entries
  let f j := v.value j * M.scaling.signedFactor j
  let x := Vec.ofValues M.program.numVar f
  have hxs : x.size = M.program.numVar := Vec.size_ofValues _ _
  have hx : x.isFinite = true := Vec.isFinite_ofValues _ _
  have hunscaled : ∀ j < M.program.numVar, v.value j * M.scaling.signedFactor j = x.value j :=
    fun j hj => (Vec.value_ofValues _ f hj).symm
  obtain ⟨hsize, hfin, hvar, hslack⟩ := hM.slacked hxs hx
  have heq : ∀ j < M.program.numVar, (M.slacked x).value j = v.value j := fun j hj =>
    mul_right_cancel₀ (hM.image.col_ne j hj) ((hvar j hj).trans (hunscaled j hj).symm)
  refine ⟨x, ⟨hxs, hx, (hM.image.feasible_iff hunscaled).1 hscaled⟩,
    Vec.ext_value hfin hv (hsize.trans (hF.cols_add_rows ▸ hs.symm)) ?_⟩
  rw [hsize, forall_lt_add_iff_lt_left]
  refine ⟨heq, fun i hi => ?_⟩
  rw [hslack i hi, hslacks i hi, hM.image.rowDot_eq hi hvar, hM.image.rowDot_eq hi hunscaled]

end Form.IsPrimal

namespace Model

/-- In a model loaded in the primal form the feasible vectors are those of the feasible points of the
user's program, each of just one, with the same objective value and with the scaled slacks of the
point. -/
theorem primal_form_is_program {M : Model Extended} (hM : M.Loaded)
    (hprimal : M.dualized = false) :
    Set.BijOn M.slacked M.program.feasibleSet M.form.feasibleSet ∧
    ∀ x : Vec Extended, x.size = M.program.numVar → x.isFinite = true →
      M.form.c.dot (M.slacked x) = M.program.obj.dot x ∧
      ∀ i < M.program.numConstr, (M.slacked x).entry (M.cols + i) = finite
        (M.scaling.rowFactor i * (M.program.rhs.value i - M.program.A.rowDot i x.value)) := by
  have hE := hM.exact
  have hF := hE.regular.isPrimal hprimal
  refine ⟨⟨hF.mapsTo_slacked hE, Form.IsPrimal.injOn_slacked hE, hF.surjOn_slacked hE⟩,
    fun x hs hx => ?_⟩
  obtain ⟨hsize, hfin, hvar, hslack⟩ := hE.slacked hs hx
  constructor
  · rw [hF.dot_c hE hfin (hsize.trans hF.cols_add_rows.symm), hE.image.value_eq hvar,
      hE.image.source.dot_obj hx hs]
  · intro i hi
    rw [hF.cols_model, Vec.entry_eq_finite hfin, hslack i hi, hE.image.rowDot_eq hi hvar,
      hE.image.rhs i hi, mul_sub]

/-- The point `(2, -15, 7, 0)` and its vector. -/
theorem primal_form_is_program_mixed :
    ∃ M : Model Extended, M.Loaded ∧ M.program = Program.mixed ∧ M.dualized = false ∧
      M.form.Feasible (M.slacked #[finite 2, finite (-15), finite 7, finite 0]) ∧
      M.form.c.dot (M.slacked #[finite 2, finite (-15), finite 7, finite 0]) = finite (-11) := by
  obtain ⟨M, hM, hP, hp⟩ := exists_loaded { dualize := .never } Program.valid_mixed
    (p := fun M => !M.dualized) (by decide +kernel)
  have hprimal : M.dualized = false := by simpa using hp
  obtain ⟨hbij, hkeep⟩ := primal_form_is_program hM hprimal
  have hs : (#[finite 2, finite (-15), finite 7, finite 0] : Vec Extended).size =
      M.program.numVar := hP ▸ rfl
  have hx : Vec.isFinite #[finite 2, finite (-15), finite 7, finite 0] = true := by decide +kernel
  have hmem : #[finite 2, finite (-15), finite 7, finite 0] ∈ M.program.feasibleSet :=
    ⟨hs, hx, hP ▸ (by decide +kernel)⟩
  refine ⟨M, hM, hP, hprimal, (hbij.mapsTo hmem).2.2, ?_⟩
  rw [(hkeep _ hs hx).1, hP]
  decide +kernel

end Model

end LpPresolve
