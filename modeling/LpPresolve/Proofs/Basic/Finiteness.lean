import LpPresolve.Proofs.Basic.Solutions
import LpPresolve.Proofs.Iterates.Evaluation
import LpPresolve.Proofs.Optimality.Transfer

/-! Finite and infinite basic solutions. Moving a variable to the bound that its status names makes it
infinite if the program lacks that bound, and this is the only way a finite point becomes infinite. The
dual form gives no such status: a free variable is superbasic there, and only boxed variables are put at
their upper bounds. The primal form hands over the solver's statuses as they are. -/

namespace LpPresolve

open Extended

/-- A vector is finite if some entries are zero and the others are those of a finite vector. -/
theorem Vec.isFinite_of_kept {v w : Vec Extended} {zero : Nat → Prop} (hw : w.isFinite = true)
    (hzero : ∀ i < v.size, zero i → v.entry i = 0)
    (hkept : ∀ i < v.size, ¬ zero i → v.entry i = w.entry i) : v.isFinite = true := by
  rw [isFinite_iff]
  intro i hi
  by_cases h : zero i
  · rw [hzero i hi h]
    rfl
  · rw [hkept i hi h]
    exact isFinite_entry hw i

namespace Program

/-- The status of variable `j` names a bound that the program lacks. -/
inductive MissesBound (P : Program Extended) (B : Basis) (j : Nat) : Prop
  | lower (status : B.varStatus[j]? = some .nonbasicLower)
      (bound : Scalar.isFinite (P.lb.entry j) = false)
  | upper (status : B.varStatus[j]? = some .nonbasicUpper)
      (bound : Scalar.isFinite (P.ub.entry j) = false)

variable {P Q : Program Extended} {B B' : Basis} {q p : UserPoint Extended} {r d : Nat → Rat}

theorem missesBound_iff {j : Nat} : P.MissesBound B j ↔
    B.varStatus[j]? = some .nonbasicLower ∧ Scalar.isFinite (P.lb.entry j) = false ∨
      B.varStatus[j]? = some .nonbasicUpper ∧ Scalar.isFinite (P.ub.entry j) = false := by
  constructor
  · rintro (⟨hs, hbound⟩ | ⟨hs, hbound⟩)
    · exact .inl ⟨hs, hbound⟩
    · exact .inr ⟨hs, hbound⟩
  · rintro (⟨hs, hbound⟩ | ⟨hs, hbound⟩)
    · exact .lower hs hbound
    · exact .upper hs hbound

theorem missesBound_iff_of_lower {j : Nat} (hs : B.varStatus[j]? = some .nonbasicLower) :
    P.MissesBound B j ↔ Scalar.isFinite (P.lb.entry j) = false := by
  simp [missesBound_iff, hs]

theorem missesBound_iff_of_upper {j : Nat} (hs : B.varStatus[j]? = some .nonbasicUpper) :
    P.MissesBound B j ↔ Scalar.isFinite (P.ub.entry j) = false := by
  simp [missesBound_iff, hs]

theorem not_missesBound {j : Nat} (hl : B.varStatus[j]? ≠ some .nonbasicLower)
    (hu : B.varStatus[j]? ≠ some .nonbasicUpper) : ¬ P.MissesBound B j := by
  simp [missesBound_iff, hl, hu]

/-! ### Moved points -/

namespace MovedTo

variable (h : P.MovedTo B q p) (hq : q.Finite)

include h hq

/-- A variable is finite unless its status names a bound that the program lacks. -/
theorem isFinite_x_iff {j : Nat} (hj : j < P.numVar) :
    Scalar.isFinite (p.x.entry j) = true ↔ ¬ P.MissesBound B j := by
  by_cases hl : B.varStatus[j]? = some .nonbasicLower
  · rw [h.x_lower j hj hl, missesBound_iff_of_lower hl, Bool.not_eq_false]
  by_cases hu : B.varStatus[j]? = some .nonbasicUpper
  · rw [h.x_upper j hj hu, missesBound_iff_of_upper hu, Bool.not_eq_false]
  · rw [h.x_kept j hj hl hu]
    exact iff_of_true (Vec.isFinite_entry hq.x j) (not_missesBound hl hu)

theorem isFinite_slack (hp : p.slack.size = P.numConstr) : p.slack.isFinite = true :=
  Vec.isFinite_of_kept hq.slack (fun i hi => h.slack_active i (hp ▸ hi))
    fun i hi => h.slack_kept i (hp ▸ hi)

theorem isFinite_y (hp : p.y.size = P.numConstr) : p.y.isFinite = true :=
  Vec.isFinite_of_kept hq.y (fun i hi => h.y_inactive i (hp ▸ hi)) fun i hi => h.y_kept i (hp ▸ hi)

theorem isFinite_z (hp : p.z.size = P.numVar) : p.z.isFinite = true :=
  Vec.isFinite_of_kept hq.z (fun j hj => h.z_basic j (hp ▸ hj)) fun j hj => h.z_kept j (hp ▸ hj)

theorem finite_iff (hp : p.Sized P.numVar P.numConstr) :
    p.Finite ↔ ∀ j < P.numVar, ¬ P.MissesBound B j := by
  constructor
  · exact fun hfin j hj => (h.isFinite_x_iff hq hj).1 (Vec.isFinite_entry hfin.x j)
  · intro hmiss
    refine ⟨?_, h.isFinite_slack hq hp.size_slack, h.isFinite_y hq hp.size_y,
      h.isFinite_z hq hp.size_z⟩
    rw [Vec.isFinite_iff]
    intro j hj
    have hj := hp.size_x ▸ hj
    exact (h.isFinite_x_iff hq hj).2 (hmiss j hj)

end MovedTo

/-- Statuses are mirrored together with the bounds that they name. -/
theorem Image.missesBound_iff (h : P.Image Q r d) (hB : B.Image B' P.numVar d) {j : Nat}
    (hj : j < P.numVar) : P.MissesBound B j ↔ Q.MissesBound B' j := by
  have hd := h.col_ne j hj
  have hlb := isFinite_mul hd (Q.lb.entry j)
  have hub := isFinite_mul hd (Q.ub.entry j)
  have hlower := hB.var_eq_some_iff hj .nonbasicLower
  have hupper := hB.var_eq_some_iff hj .nonbasicUpper
  rw [(h.bounds_mul hj).1] at hlb
  rw [(h.bounds_mul hj).2] at hub
  rw [Program.missesBound_iff, Program.missesBound_iff, hlower, hupper, ← hlb, ← hub]
  split_ifs
  · rfl
  · exact or_comm

end Program

namespace Model

variable {M : Model Extended} {s : SolverPoint Extended} {basis : Array BasisStatus}

/-- In the dual form variables are only put at bounds that they have. -/
theorem not_missesBound_userBasis (hM : M.Exact)
    (hF : Form.IsDual M.program M.scaled M.form) {j : Nat} (hj : j < M.program.numVar) :
    ¬ M.scaledProgram.MissesBound (M.userBasis basis) j := by
  rintro (⟨hs, hbound⟩ | ⟨hs, hbound⟩)
  · exact Bool.noConfusion (((basicAt_of_varStatus hF).1 hs).2.symm.trans hbound)
  · have hboxed := ((basicAt_of_varStatus hF).2 hs).1
    exact Bool.noConfusion (((hM.isFinite_upper_iff hj).2 hboxed).symm.trans hbound)

/-- A finite point and an accepted basis give a finite solution, except that a variable is infinite
if its status names a bound that the program lacks. This does not happen in the dual form. -/
theorem postsolveBasic?_finite (hM : M.Loaded) (hs : s.Fits M.rows M.cols) (hf : s.Finite)
    {B : Basis} (hB : M.postsolveBasis? basis = some B) :
    ∃ p, M.postsolveBasic? s basis = some p ∧ p.Sized M.program.numVar M.program.numConstr ∧
      p.slack.isFinite = true ∧ p.y.isFinite = true ∧ p.z.isFinite = true ∧
      (∀ j < M.program.numVar,
        Scalar.isFinite (p.x.entry j) = true ↔ ¬ M.program.MissesBound B j) ∧
      (p.Finite ↔ ∀ j < M.program.numVar, ¬ M.program.MissesBound B j) ∧
      (M.dualized = true → p.Finite) := by
  have hE := hM.exact
  obtain ⟨hacc, rfl⟩ := hE.regular.postsolveBasis?_eq_some_iff.1 hB
  have hq := hE.sized_userPoint hs
  have hqf := (Scaling.image_unscalePoint hE.suits hE.positive_colscale hE.positive_rowscale hq
    (hE.finite_userPoint hs hf)).1
  have hp := Scaling.sized_unscalePoint hE.suits (M.sized_matchBasis hq (M.userBasis basis))
  have hmove := hE.movedTo_unscalePoint hs (M.userBasis basis)
  have hiff := hmove.finite_iff hqf hp
  refine ⟨_, hacc.postsolveBasic?_eq hE.regular hs, hp, hmove.isFinite_slack hqf hp.size_slack,
    hmove.isFinite_y hqf hp.size_y, hmove.isFinite_z hqf hp.size_z,
    fun j hj => hmove.isFinite_x_iff hqf hj, hiff, fun hdual => hiff.2 fun j hj => ?_⟩
  rw [hE.image.missesBound_iff (hE.image_unscaleBasis _) hj]
  exact not_missesBound_userBasis hE (hE.regular.isDual hdual) hj

end Model

/-- One equation in one free variable. -/
def Program.line : Program Extended := { single with lb := #[bottom] }

theorem Program.valid_line : line.Valid where
  __ := valid_single
  bound := by decide +kernel

namespace Model

/-- A point of the primal form of `Program.line`. -/
def lineSolution : SolverPoint Extended where
  x := #[finite 3, finite 0]
  y := #[finite 0]
  z := #[finite 0, finite 0]

/-- A basis of that form: the free variable is nonbasic, the slack is basic. -/
def lineStatuses : Array BasisStatus := #[.nonbasicLower, .basic]

theorem postsolveBasic?_finite_mixed :
    ∃ M : Model Extended, M.Loaded ∧ M.program = Program.mixed ∧
      ∃ p, M.postsolveBasic? mixedSolution mixedStatuses = some p ∧ p.Finite := by
  obtain ⟨M, hM, hP, hp⟩ := exists_loaded { dualize := .always } Program.valid_mixed
    (p := fun M => decide (M.dualized = true ∧ mixedSolution.Fits M.rows M.cols ∧
      M.postsolveBasis? mixedStatuses = some ⟨#[.basic, .nonbasic],
        #[.nonbasicUpper, .basic, .nonbasicUpper, .nonbasicLower]⟩)) (by decide +kernel)
  obtain ⟨hdual, hs, hB⟩ := of_decide_eq_true hp
  have hf : mixedSolution.Finite := ⟨by decide +kernel, by decide +kernel, by decide +kernel⟩
  obtain ⟨p, hpost, -, -, -, -, -, -, hfinite⟩ := postsolveBasic?_finite hM hs hf hB
  exact ⟨M, hM, hP, p, hpost, hfinite hdual⟩

/-- The free variable is put at its lower bound, which is infinite, and not at zero. -/
theorem postsolveBasic?_not_finite :
    ∃ M : Model Extended, M.Loaded ∧ M.program = Program.line ∧ M.dualized = false ∧
      lineSolution.Fits M.rows M.cols ∧ lineSolution.Finite ∧
      M.postsolveBasis? lineStatuses = some ⟨#[.basic], #[.nonbasicLower]⟩ ∧
      ∃ p, M.postsolveBasic? lineSolution lineStatuses = some p ∧ p.x.entry 0 = bottom ∧
        ¬ p.Finite := by
  obtain ⟨M, hM, hP, hp⟩ := exists_loaded { dualize := .never } Program.valid_line
    (p := fun M => decide (M.dualized = false ∧ lineSolution.Fits M.rows M.cols ∧
      M.postsolveBasis? lineStatuses = some ⟨#[.basic], #[.nonbasicLower]⟩) &&
      (M.postsolveBasic? lineSolution lineStatuses).any
        (fun p : UserPoint Extended => decide (p.x.entry 0 = bottom ∧ ¬ p.Finite))) (by decide +kernel)
  simp only [Bool.and_eq_true, Option.any_eq_true, decide_eq_true_eq] at hp
  obtain ⟨⟨hdual, hs, hB⟩, p, hpost, hx⟩ := hp
  have hf : lineSolution.Finite := ⟨by decide +kernel, by decide +kernel, by decide +kernel⟩
  exact ⟨M, hM, hP, hdual, hs, hf, hB, p, hpost, hx⟩

end Model

end LpPresolve
