import LpPresolve.Proofs.Binary.Maxima
import LpPresolve.Proofs.Model
import LpPresolve.Proofs.Rearranged.Scaling

/-! Loading does not depend on the storage order within the columns of the matrix. What is made of two
rearranged matrices differs in the matrix of the primal form alone, and there in storage order only. -/

namespace LpPresolve

variable {α : Type} [Scalar α]

omit [Scalar α] in
theorem Program.numConstr_rearranged (P : Program α) {B : Csc α} (h : P.A.Rearranged B) :
    numConstr { P with A := B } = P.numConstr :=
  h.rows_eq

omit [Scalar α] in
theorem Program.numVar_rearranged (P : Program α) {B : Csc α} (h : P.A.Rearranged B) :
    numVar { P with A := B } = P.numVar :=
  h.cols_eq

/-! ### Forms -/

omit [Scalar α] in
/-- The column pointers decide which columns are dense. -/
theorem DenseColumns.ofMatrix?_rearranged {A B : Csc α} (h : A.Rearranged B) (settings : Settings)
    (rows cols : Nat) : ofMatrix? settings B rows cols = ofMatrix? settings A rows cols := by
  rw [ofMatrix?, ofMatrix?, h.colNnz?_eq]

namespace Form

theorem finish?_rearranged {X Y : Csc α} (hX : X.Layout) (hY : Y.Layout) (h : X.Rearranged Y)
    (settings : Settings) (kind : FormKind) (rows cols : Nat) (b c lb ub : Vec α) :
    finish? settings kind rows cols Y b c lb ub =
      (finish? settings kind rows cols X b c lb ub).map fun F => { F with AI := Y } := by
  rw [finish?, finish?, h.transpose?_eq hX hY, DenseColumns.ofMatrix?_rearranged h]
  cases X.transpose? with
  | none => rfl
  | some At =>
    cases DenseColumns.ofMatrix? settings X rows cols with
    | none => rfl
    | some dense => rfl

theorem dualMatrix?_rearranged {A B : Csc α} (hA : A.Layout) (hB : B.Layout) (h : A.Rearranged B)
    (boxed : List Nat) (hb : ∀ j ∈ boxed, j < A.cols) :
    dualMatrix? B A.rows A.cols boxed = dualMatrix? A A.rows A.cols boxed := by
  obtain ⟨C, hC, hlayout, hrows, hcols, hrow, hupper, hlower⟩ := dualMatrix?_eq_some hA boxed hb
  obtain ⟨D, hD, hlayout', hrows', hcols', hrow', hupper', hlower'⟩ :=
    dualMatrix?_eq_some hB boxed fun j hj => h.cols_eq.symm ▸ hb j hj
  rw [h.rows_eq] at hD hcols' hrow' hupper' hlower'
  rw [h.cols_eq] at hD hrows' hcols' hlower'
  have heq : D = C := by
    refine hlayout.ext hlayout' (hrows'.trans hrows.symm) (hcols'.trans hcols.symm) ?_
    rw [hcols, forall_lt_add_iff_lt_left, forall_lt_add_iff_lt_left]
    refine ⟨⟨fun i hi => ?_, fun k hk => ?_⟩, fun j hj => ?_⟩
    · rw [hrow i hi, hrow' i hi, h.row_eq hA]
    · rw [hupper k hk, hupper' k hk]
    · rw [hlower j hj, hlower' j hj]
  rw [hC, hD, heq]

section

variable {P : Program α} {S : ScaledProgram α} {B C : Csc α} (settings : Settings)

/-- The primal forms differ in the matrix only. -/
theorem primal?_rearranged (hP : P.Valid) (hS : ScaledProgram.Copies P S) (hB : P.A.Rearranged B)
    (hC : C.Layout) (h : S.A.Rearranged C) :
    ∃ F X, primal? settings P S = some F ∧
      primal? settings { P with A := B } { S with A := C } = some { F with AI := X } ∧
        F.kind = .primal ∧ F.AI.Rearranged X := by
  have hrows := P.numConstr_rearranged hB
  have hcols := P.numVar_rearranged hB
  obtain ⟨X, Y, hX, hY, hlayout, hlayout', hperm⟩ := h.hcat? (hS.layout hP) hC
    (Csc.layout_identity P.numConstr) hS.rows_eq
  obtain ⟨F, hF, hprimal⟩ := primal?_eq_some settings hP hS
  have hfinish := hF
  simp only [primal?, hS.size_lb, hS.size_ub, ne_eq, not_true_eq_false, or_self, if_false, hX,
    Option.bind_eq_bind, Option.bind_some] at hfinish
  obtain ⟨-, -, -, rfl, -⟩ := finish?_eq_some hfinish
  refine ⟨F, Y, hF, ?_, hprimal.kind_eq, hperm⟩
  simp only [primal?, hrows, hcols, hS.size_lb, hS.size_ub, ne_eq, not_true_eq_false, or_self,
    if_false, hY, Option.bind_eq_bind, Option.bind_some]
  rw [finish?_rearranged hlayout hlayout' hperm, hfinish]
  rfl

/-- The dual forms are the same, with the same storage order. -/
theorem dual?_rearranged (hP : P.Valid) (hS : ScaledProgram.Copies P S) (hB : P.A.Rearranged B)
    (hC : C.Layout) (h : S.A.Rearranged C) :
    dual? settings { P with A := B } { S with A := C } = dual? settings P S := by
  have hrows := P.numConstr_rearranged hB
  have hcols := P.numVar_rearranged hB
  have hmatrix := dualMatrix?_rearranged (hS.layout hP) hC h P.boxed fun j hj =>
    hS.cols_eq.symm ▸ hP.lt_of_mem_boxed hj
  rw [hS.rows_eq, hS.cols_eq] at hmatrix
  unfold dual? dualCost dualLower dualUpper
  rw [hrows, hcols]
  -- the condition on the bounds does not read the matrix
  by_cases hfit : BoundsFit S P.numVar
  · rw [if_pos hfit, ← hmatrix]
    exact if_pos hfit
  · rw [if_neg hfit]
    exact if_neg hfit

/-- Both scaled copies have a form or neither has. The forms differ in the matrix only, and dual ones
not at all. -/
theorem ofScaled?_rearranged (hP : P.Valid) (hS : ScaledProgram.Copies P S)
    (hB : P.A.Rearranged B) (hC : C.Layout) (h : S.A.Rearranged C) :
    (ofScaled? settings P S = none ∧
      ofScaled? settings { P with A := B } { S with A := C } = none) ∨
    ∃ F X, ofScaled? settings P S = some F ∧
      ofScaled? settings { P with A := B } { S with A := C } = some { F with AI := X } ∧
        F.AI.Rearranged X ∧ (F.isDualized = true → X = F.AI) := by
  have hrows := P.numConstr_rearranged hB
  have hcols := P.numVar_rearranged hB
  rw [ofScaled?, ofScaled?, hrows, hcols, dual?_rearranged settings hP hS hB hC h]
  by_cases hd : settings.dualize.dualizes P.numConstr P.numVar = true
  · rw [if_pos hd, if_pos hd]
    cases dual? settings P S with
    | none => exact .inl ⟨rfl, rfl⟩
    | some F => exact .inr ⟨F, F.AI, rfl, rfl, .refl F.AI, fun _ => rfl⟩
  · rw [if_neg hd, if_neg hd]
    obtain ⟨F, X, hF, hF', hkind, hperm⟩ := primal?_rearranged settings hP hS hB hC h
    refine .inr ⟨F, X, hF, hF', hperm, fun hdual => ?_⟩
    rw [isDualized, hkind] at hdual
    cases hdual

end

end Form

/-! ### Programs -/

/-- Data with a checked matrix is accepted or refused whatever the matrix stores. -/
theorem Program.ofData_of_checkFormat {A B : Csc α} (hA : A.checkFormat = .ok ())
    (hB : B.checkFormat = .ok ()) (hrows : B.rows = A.rows) (hcols : B.cols = A.cols) (rhs : Vec α)
    (types : Array Char) (offset : α) (obj lb ub : Vec α) :
    ofData B rhs types offset obj lb ub =
      (fun P => { P with A := B }) <$> ofData A rhs types offset obj lb ub := by
  simp only [ofData, hA, hB, hrows, hcols, throw, throwThe, MonadExceptOf.throw, error_bind]
  split
  · rfl
  · simp only [map_bind, map_pure, apply_ite ((fun P : Program α => { P with A := B }) <$> ·)]
    split_ifs <;> rfl

/-! ### Models -/

namespace Model

/-- The models differ in the three matrices they are made of only, and there in the storage order
within columns. A dual form, and the transposed matrix of any form, is stored alike. -/
structure Rearranged (M N : Model α) : Prop where
  settings_eq : N.settings = M.settings
  program_eq : N.program = { M.program with A := N.program.A }
  program_A : M.program.A.Rearranged N.program.A
  scaled_eq : N.scaled = { M.scaled with A := N.scaled.A }
  scaled_A : M.scaled.A.Rearranged N.scaled.A
  form_eq : N.form = { M.form with AI := N.form.AI }
  form_AI : M.form.AI.Rearranged N.form.AI
  dual_form_eq : M.dualized = true → N.form = M.form
  normObj_eq : N.program.normObj = M.program.normObj
  normRhs_eq : N.program.normRhs = M.program.normRhs
  normC_eq : N.form.normC = M.form.normC
  normBounds_eq : N.form.normBounds = M.form.normBounds
  denseColumnIndices_eq : N.form.denseColumnIndices = M.form.denseColumnIndices
  info_eq : N.info = M.info

/-- Two runs of loading with one outcome: no result, the same error, or models that differ in storage
order only. -/
inductive LoadedAlike : Option (Except ModelError (Model α)) →
    Option (Except ModelError (Model α)) → Prop
  | stuck : LoadedAlike none none
  | refused (e : ModelError) : LoadedAlike (some (.error e)) (some (.error e))
  | loaded {M N : Model α} (h : M.Rearranged N) : LoadedAlike (some (.ok M)) (some (.ok N))

/-- The parts of a model are rearranged one by one. -/
theorem rearranged_of_parts {P : Program α} {S : ScaledProgram α} {F : Form α} {B C X : Csc α}
    {settings : Settings} (hP : P.A.Layout) (hB : B.Layout) (hX : F.AI.Layout) (hY : X.Layout)
    (hPB : P.A.Rearranged B) (hSC : S.A.Rearranged C) (hFX : F.AI.Rearranged X)
    (hdual : F.isDualized = true → X = F.AI) :
    Rearranged ⟨P, S, F, settings⟩
      ⟨{ P with A := B }, { S with A := C }, { F with AI := X }, settings⟩ where
  settings_eq := rfl
  program_eq := rfl
  program_A := hPB
  scaled_eq := rfl
  scaled_A := hSC
  form_eq := rfl
  form_AI := hFX
  dual_form_eq h := by rw [hdual h]
  normObj_eq := rfl
  normRhs_eq := rfl
  normC_eq := rfl
  normBounds_eq := rfl
  denseColumnIndices_eq := by
    simp only [Form.denseColumnIndices, hFX.colNnz?_eq]
  info_eq := by
    simp only [info, Program.numVar, Program.numConstr, hPB.rows_eq, hPB.cols_eq,
      hPB.size_nzval_eq hP hB, hFX.size_nzval_eq hX hY, rows, cols, dualized, Form.isDualized]

/-- Preprocessing goes the same way. -/
theorem ofProgram?_rearranged [LawfulMax α] {P : Program α} {B : Csc α} (hP : P.Valid)
    (hB : B.WellFormed) (h : P.A.Rearranged B) (settings : Settings) :
    (ofProgram? P settings = none ∧ ofProgram? { P with A := B } settings = none) ∨
    ∃ M N, ofProgram? P settings = some M ∧ ofProgram? { P with A := B } settings = some N ∧
      M.Rearranged N := by
  have hQ := hP.rearranged hB h
  obtain ⟨S, C, hS, hT, -, hC, hSC⟩ := ScaledProgram.ofProgram?_rearranged hP hB h settings
  have hcopies := ScaledProgram.copies_of_ofProgram? hP hS
  have hcopies' := ScaledProgram.copies_of_ofProgram? hQ hT
  simp only [ofProgram?, hS, hT, Option.bind_eq_bind, Option.bind_some]
  rcases Form.ofScaled?_rearranged settings hP hcopies h hC hSC with
    ⟨hF, hG⟩ | ⟨F, X, hF, hG, hFX, hdual⟩
  · exact .inl ⟨by rw [hF]; rfl, by rw [hG]; rfl⟩
  · have hlayout := Form.layout_of_ofScaled? hP hcopies hF
    have hlayout' := Form.layout_of_ofScaled? hQ hcopies' hG
    exact .inr ⟨_, _, by rw [hF]; rfl, by rw [hG]; rfl,
      rearranged_of_parts hP.wellFormed.layout hB.layout hlayout hlayout' h hSC hFX hdual⟩

/-- Loading goes the same way for two checked matrices with the same pairs in each column. -/
theorem load?_rearranged [LawfulMax α] {A B : Csc α} (hA : A.checkFormat = .ok ())
    (hB : B.checkFormat = .ok ()) (h : A.Rearranged B) (rhs : Vec α) (types : Array Char)
    (offset : α) (obj lb ub : Vec α) (settings : Settings) :
    LoadedAlike (load? A rhs types offset obj lb ub settings)
      (load? B rhs types offset obj lb ub settings) := by
  unfold load?
  rw [Program.ofData_of_checkFormat hA hB h.rows_eq h.cols_eq]
  cases hP : Program.ofData A rhs types offset obj lb ub with
  | error e => exact .refused e
  | ok P =>
    obtain ⟨hdata, -, hvalid⟩ := Program.ofData_eq_ok_iff.1 hP
    obtain rfl : P.A = A := by rw [hdata]
    rw [Except.map_ok]
    rcases ofProgram?_rearranged hvalid (B.checkFormat_eq_ok_iff.1 hB) h settings with
      ⟨hM, hN⟩ | ⟨M, N, hM, hN, hMN⟩
    · simp only [hM, hN]
      exact .stuck
    · simp only [hM, hN]
      exact .loaded hMN

theorem LoadedAlike.exists_rearranged {r r' : Option (Except ModelError (Model α))}
    (h : LoadedAlike r r') (hr : r.any Except.isOk = true) :
    ∃ M N, r = some (.ok M) ∧ r' = some (.ok N) ∧ M.Rearranged N := by
  cases h with
  | stuck => cases hr
  | refused e => cases hr
  | loaded h => exact ⟨_, _, rfl, rfl, h⟩

end Model

/-! ### A program with two entries in a column -/

/-- Two entries in the first column, in ascending order, and one in the second. -/
def Csc.ascending (a b c : α) : Csc α := ⟨2, 2, #[0, 2, 3], #[0, 1, 1], #[a, b, c]⟩

def Csc.descending (a b c : α) : Csc α := ⟨2, 2, #[0, 2, 3], #[1, 0, 1], #[b, a, c]⟩

omit [Scalar α] in
theorem Csc.rearranged_descending (a b c : α) :
    (ascending a b c).Rearranged (descending a b c) where
  rows_eq := rfl
  cols_eq := rfl
  colptr_eq := rfl
  column
    | 0, _ => .swap (0, a) (1, b) []
    | 1, _ => .refl [(1, c)]

/-- A free variable and one with an upper bound only. -/
def Program.ascending : Program Float where
  A := .ascending 1000 (-1) 0.25
  rhs := #[1, -1]
  types := #[.lessEqual, .equal]
  offset := 0
  obj := #[1, 1]
  lb := #[-Scalar.infinity, -Scalar.infinity]
  ub := #[Scalar.infinity, 1]

theorem Program.valid_ascending : ascending.Valid where
  numVar_pos := by decide
  size_rhs := rfl
  size_types := rfl
  size_obj := rfl
  size_lb := rfl
  size_ub := rfl
  finite_rhs := by decide +kernel
  finite_obj := by decide +kernel
  bound := by decide +kernel
  wellFormed := by decide +kernel

theorem Csc.wellFormed_descending : (descending 1000 (-1) 0.25 : Csc Float).WellFormed := by
  decide +kernel

namespace Model

/-- What loading makes of the program with another matrix. -/
def loadAscending? (A : Csc Float) (settings : Settings) :
    Option (Except ModelError (Model Float)) :=
  load? A Program.ascending.rhs (Program.ascending.types.map ConstraintType.toChar)
    Program.ascending.offset Program.ascending.obj Program.ascending.lb Program.ascending.ub settings

/-- The primal form by default, and the dual one on demand. -/
theorem load?_rearranged_descending :
    (∃ M N, loadAscending? (.ascending 1000 (-1) 0.25) {} = some (.ok M) ∧
      loadAscending? (.descending 1000 (-1) 0.25) {} = some (.ok N) ∧ M.Rearranged N) ∧
    ∃ M N, loadAscending? (.ascending 1000 (-1) 0.25) { dualize := .always } = some (.ok M) ∧
      loadAscending? (.descending 1000 (-1) 0.25) { dualize := .always } = some (.ok N) ∧
        M.Rearranged N := by
  have halike : ∀ settings, LoadedAlike (loadAscending? (.ascending 1000 (-1) 0.25) settings)
      (loadAscending? (.descending 1000 (-1) 0.25) settings) :=
    load?_rearranged ((Csc.checkFormat_eq_ok_iff _).2 Program.valid_ascending.wellFormed)
      ((Csc.checkFormat_eq_ok_iff _).2 Csc.wellFormed_descending)
      (Csc.rearranged_descending 1000 (-1) 0.25) _ _ _ _ _ _
  have hload : ∀ settings, loadAscending? (.ascending 1000 (-1) 0.25) settings =
      (ofProgram? Program.ascending settings).map .ok := fun settings => by
    have hdata := Program.valid_ascending.ofData_eq_ok
    rw [Program.ascending] at hdata
    rw [loadAscending?, load?, Program.ascending, hdata]
  constructor
  · refine (halike _).exists_rearranged ?_
    rw [hload]
    decide +kernel
  · refine (halike _).exists_rearranged ?_
    rw [hload]
    decide +kernel

end Model

end LpPresolve
