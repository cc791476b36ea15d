import LpPresolve.Model
import LpPresolve.Proofs.Form
import LpPresolve.Scalar.Extended

/-! Loaded models. A model that loading some data results in has a valid program, a scaled copy of it
and one of the two forms of that copy. -/

namespace LpPresolve

namespace Model

variable {α : Type} [Scalar α]

/-- The model is what loading some data under some settings results in. -/
def Loaded (M : Model α) : Prop :=
  ∃ (A : Csc α) (rhs : Vec α) (types : Array Char) (offset : α) (obj lb ub : Vec α)
    (settings : Settings), load? A rhs types offset obj lb ub settings = some (.ok M)

/-- What loading guarantees in any arithmetic. -/
structure Regular (M : Model α) : Prop where
  valid : M.program.Valid
  copies : ScaledProgram.Copies M.program M.scaled
  form : Form.IsPrimal M.program M.scaled M.form ∨ Form.IsDual M.program M.scaled M.form

theorem ofProgram?_eq_some_iff {P : Program α} {settings : Settings} {M : Model α} :
    ofProgram? P settings = some M ↔ M.program = P ∧ M.settings = settings ∧
      ScaledProgram.ofProgram? P settings = some M.scaled ∧
      Form.ofScaled? settings P M.scaled = some M.form := by
  simp only [ofProgram?, Option.bind_eq_bind, Option.bind_eq_some_iff, Option.pure_def,
    Option.some_inj]
  constructor
  · rintro ⟨S, hS, F, hF, rfl⟩
    exact ⟨rfl, rfl, hS, hF⟩
  · rintro ⟨rfl, rfl, hS, hF⟩
    exact ⟨_, hS, _, hF, rfl⟩

/-- A loaded model comes from a valid program. -/
theorem Loaded.ofProgram? {M : Model α} (h : M.Loaded) :
    M.program.Valid ∧ Model.ofProgram? M.program M.settings = some M := by
  obtain ⟨A, rhs, types, offset, obj, lb, ub, settings, h⟩ := h
  unfold load? at h
  split at h
  · simp at h
  · next P hP =>
    rw [Option.map_eq_some_iff] at h
    obtain ⟨M', hM, h⟩ := h
    obtain rfl : M' = M := Except.ok.inj h
    obtain ⟨rfl, rfl, -⟩ := ofProgram?_eq_some_iff.1 hM
    exact ⟨(Program.ofData_eq_ok_iff.1 hP).2.2, hM⟩

theorem Loaded.regular {M : Model α} (h : M.Loaded) : M.Regular := by
  obtain ⟨hvalid, hM⟩ := h.ofProgram?
  obtain ⟨-, -, hS, hF⟩ := ofProgram?_eq_some_iff.1 hM
  have hcopies := ScaledProgram.copies_of_ofProgram? hvalid hS
  exact ⟨hvalid, hcopies, Form.isPrimal_or_isDual hvalid hcopies hF⟩

/-! ### The kind of the form -/

variable {M : Model α}

theorem dualized_of_isPrimal (hF : Form.IsPrimal M.program M.scaled M.form) :
    M.dualized = false := by
  rw [dualized, Form.isDualized, hF.kind_eq]
  rfl

theorem dualized_of_isDual (hF : Form.IsDual M.program M.scaled M.form) : M.dualized = true := by
  rw [dualized, Form.isDualized, hF.kind_eq]
  rfl

theorem Regular.isPrimal (hM : M.Regular) (h : M.dualized = false) :
    Form.IsPrimal M.program M.scaled M.form :=
  hM.form.resolve_right fun hF => Bool.noConfusion (h.symm.trans (dualized_of_isDual hF))

theorem Regular.isDual (hM : M.Regular) (h : M.dualized = true) :
    Form.IsDual M.program M.scaled M.form :=
  hM.form.resolve_left fun hF => Bool.noConfusion (h.symm.trans (dualized_of_isPrimal hF))

/-! ### Loading a given program -/

/-- A valid program can be loaded. -/
theorem exists_loaded {P : Program α} (settings : Settings) (hP : P.Valid) {p : Model α → Bool}
    (hp : (Model.ofProgram? P settings).any p = true) :
    ∃ M : Model α, M.Loaded ∧ M.program = P ∧ p M = true := by
  cases hM : Model.ofProgram? P settings with
  | none => simp [hM] at hp
  | some M =>
    rw [hM] at hp
    have hload : load? P.A P.rhs (P.types.map ConstraintType.toChar) P.offset P.obj P.lb P.ub
        settings = some (.ok M) := by
      simp [load?, hP.ofData_eq_ok, hM]
    exact ⟨M, ⟨_, _, _, _, _, _, _, _, hload⟩, (ofProgram?_eq_some_iff.1 hM).1, hp⟩

end Model

/-! ### A program with all kinds of bounds -/

open Extended in
/-- A boxed variable with a large entry, a free one, one that is flipped, and one with a lower bound
only, under constraints of both directions. -/
def Program.mixed : Program Extended where
  A := ⟨2, 4, #[0, 1, 3, 5, 6], #[0, 0, 1, 0, 1, 1],
    #[finite 1000, finite 2, finite 1, finite (1 / 64), finite 3, finite 1]⟩
  rhs := #[finite 2000, finite 6]
  types := #[.lessEqual, .greaterEqual]
  offset := finite 0
  obj := #[finite (-1), finite 2, finite 3, finite 5]
  lb := #[finite (-1), bottom, bottom, finite 0]
  ub := #[finite 2, top, finite 7, top]

theorem Program.valid_mixed : mixed.Valid where
  numVar_pos := by decide
  size_rhs := rfl
  size_types := rfl
  size_obj := rfl
  size_lb := rfl
  size_ub := rfl
  finite_rhs := by decide +kernel
  finite_obj := by decide +kernel
  bound := by decide +kernel
  wellFormed := by decide +kernel

end LpPresolve
