import LpPresolve.Proofs.Exact.Order
import LpPresolve.Proofs.Loading

/-! The classes of variables by their bounds. A valid program sorts its variables into four classes,
and scaling keeps them apart: a flipped variable gets a lower bound in place of its upper one, and the
bounds over a factor are finite where they were. So the scaled program has a finite upper bound exactly
for the boxed variables and a finite lower bound for all but the free ones. -/

namespace LpPresolve

open Extended

/-- Which bounds of a variable are finite. -/
inductive BoundClass
  | free | boxed | upperOnly | lowerOnly
  deriving DecidableEq

namespace Program

variable {P : Program Extended} {j : Nat}

def HasClass (P : Program Extended) (j : Nat) : BoundClass → Prop
  | .free => P.lb.entry j = bottom ∧ P.ub.entry j = top
  | .boxed => Scalar.isFinite (P.lb.entry j) = true ∧ Scalar.isFinite (P.ub.entry j) = true
  | .upperOnly => P.lb.entry j = bottom ∧ Scalar.isFinite (P.ub.entry j) = true
  | .lowerOnly => Scalar.isFinite (P.lb.entry j) = true ∧ P.ub.entry j = top

/-- The class that the two finiteness tests tell. -/
def boundClass (P : Program Extended) (j : Nat) : BoundClass :=
  match Scalar.isFinite (P.lb.entry j), Scalar.isFinite (P.ub.entry j) with
  | false, false => .free
  | true, true => .boxed
  | false, true => .upperOnly
  | true, false => .lowerOnly

theorem Exact.lower_eq_bottom_iff (hP : P.Exact) (hj : j < P.numVar) :
    P.lb.entry j = bottom ↔ Scalar.isFinite (P.lb.entry j) = false := by
  constructor
  · intro h
    rw [h, isFinite_bottom]
  · exact fun h => (hP.lower j hj).resolve_left (Bool.eq_false_iff.1 h)

theorem Exact.upper_eq_top_iff (hP : P.Exact) (hj : j < P.numVar) :
    P.ub.entry j = top ↔ Scalar.isFinite (P.ub.entry j) = false := by
  constructor
  · intro h
    rw [h, isFinite_top]
  · exact fun h => (hP.upper j hj).resolve_left (Bool.eq_false_iff.1 h)

theorem Exact.hasClass_iff (hP : P.Exact) (hj : j < P.numVar) {k : BoundClass} :
    P.HasClass j k ↔ P.boundClass j = k := by
  unfold boundClass
  cases k <;> simp only [HasClass, hP.lower_eq_bottom_iff hj, hP.upper_eq_top_iff hj] <;>
    cases Scalar.isFinite (P.lb.entry j) <;> cases Scalar.isFinite (P.ub.entry j) <;> decide

/-- A variable has exactly one class. -/
theorem Exact.existsUnique_hasClass (hP : P.Exact) (hj : j < P.numVar) :
    ∃! k, P.HasClass j k := by
  refine ⟨P.boundClass j, (hP.hasClass_iff hj).2 rfl, fun k hk => ?_⟩
  exact ((hP.hasClass_iff hj).1 hk).symm

end Program

namespace Model

/-- The lists of boxed and flipped variables, the scaled bounds and the factors agree with the classes
of the variables. -/
structure KeepsClasses (M : Model Extended) : Prop where
  boxed : ∀ j, j ∈ M.program.boxed ↔ j < M.program.numVar ∧ M.program.HasClass j .boxed
  flipped : ∀ j, j ∈ M.scaling.flipped.indices ↔
    j < M.program.numVar ∧ M.program.HasClass j .upperOnly
  boxed_sorted : M.program.boxed.Pairwise (· < ·)
  flipped_sorted : M.scaling.flipped.indices.Pairwise (· < ·)
  disjoint : M.program.boxed.Disjoint M.scaling.flipped.indices
  size_lb : M.scaled.lb.size = M.program.numVar
  size_ub : M.scaled.ub.size = M.program.numVar
  upper : ∀ j < M.program.numVar,
    Scalar.isFinite (M.scaled.ub.entry j) = true ↔ j ∈ M.program.boxed
  lower : ∀ j < M.program.numVar,
    Scalar.isFinite (M.scaled.lb.entry j) = true ↔ ¬ M.program.HasClass j .free
  ordered : ∀ j < M.program.numVar, M.scaled.lb.entry j ≤ M.scaled.ub.entry j
  factors : M.scaling.colscale = #[] ∧ M.scaling.rowscale = #[] ∨
    M.scaling.colscale.size = M.program.numVar ∧ M.scaling.rowscale.size = M.program.numConstr

namespace Exact

variable {M : Model Extended}

theorem scaled_lb_le_ub (hM : M.Exact) {j : Nat} (hj : j < M.program.numVar) :
    M.scaled.lb.entry j ≤ M.scaled.ub.entry j := by
  have hj' : j < M.scaledProgram.numVar := hM.image.numVar_eq.symm ▸ hj
  have hbound := Program.not_upper_lt_lower_of_checkBound (hM.regular.valid.bound j hj)
  have hl : M.scaledProgram.lb.entry j ≠ undefined := by
    rintro hnan
    rcases hM.image.target.lower j hj' with h | h <;> rw [hnan] at h <;> cases h
  have hu : M.scaledProgram.ub.entry j ≠ undefined := by
    rintro hnan
    rcases hM.image.target.upper j hj' with h | h <;> rw [hnan] at h <;> cases h
  exact (Extended.not_lt hu hl).1 (hM.image.not_upper_lt_lower hj hbound)

theorem keepsClasses (hM : M.Exact) : M.KeepsClasses := by
  have hvalid := hM.regular.valid
  have hcopies := hM.regular.copies
  have hboxed := fun j => Program.mem_boxed hvalid.size_lb hvalid.size_ub (j := j)
  have hflips : M.scaling.flipped = ScaledProgram.flips M.program := hcopies.flipped_eq
  have hflipped : ∀ j, j ∈ M.scaling.flipped.indices ↔
      j < M.program.numVar ∧ M.program.HasClass j .upperOnly := by
    intro j
    constructor
    · intro hj
      have hlt := hM.suits.within j hj
      obtain ⟨hu, hl⟩ := (hM.mem_flipped_iff hlt).1 hj
      exact ⟨hlt, hl, hu⟩
    · rintro ⟨hlt, hl, hu⟩
      exact (hM.mem_flipped_iff hlt).2 ⟨hu, hl⟩
  refine {
    boxed := hboxed
    flipped := hflipped
    boxed_sorted := Program.boxed_sorted hvalid.size_lb hvalid.size_ub
    flipped_sorted := hflips ▸ ScaledProgram.flips_sorted hvalid.size_lb hvalid.size_ub
    disjoint := fun j hb hf => ?_
    size_lb := hcopies.size_lb
    size_ub := hcopies.size_ub
    upper := fun j hj => hM.isFinite_upper_iff hj
    lower := fun j hj => hM.isFinite_lower_iff hj
    ordered := fun j hj => hM.scaled_lb_le_ub hj
    factors := hcopies.factors }
  have hl := ((hboxed j).1 hb).2.1
  rw [((hflipped j).1 hf).2.1] at hl
  exact Bool.noConfusion hl

end Exact

/-- Accepted data is loaded under any settings. Each variable is free, boxed, bounded from above only
or bounded from below only, and the scaled program keeps these classes. -/
theorem load?_keepsClasses {A : Csc Extended} {rhs obj lb ub : Vec Extended} {types : Array Char}
    {offset : Extended} {P : Program Extended}
    (hP : Program.ofData A rhs types offset obj lb ub = .ok P) (settings : Settings) :
    ∃ M, load? A rhs types offset obj lb ub settings = some (.ok M) ∧ M.program = P ∧
      (∀ j < P.numVar, ∃! k, P.HasClass j k) ∧ M.KeepsClasses := by
  have hload := load?_isSome A rhs types offset obj lb ub settings
  rw [load?_isSome_iff_ofProgram?] at hload
  obtain ⟨M, hM⟩ := Option.isSome_iff_exists.1 (hload P hP)
  have hM' : load? A rhs types offset obj lb ub settings = some (.ok M) := by
    simp [load?, hP, hM]
  obtain rfl : M.program = P := (ofProgram?_eq_some_iff.1 hM).1
  have hE : M.Exact := Loaded.exact ⟨_, _, _, _, _, _, _, _, hM'⟩
  exact ⟨M, hM', rfl, fun j hj => hE.regular.valid.exact.existsUnique_hasClass hj,
    hE.keepsClasses⟩

theorem load?_keepsClasses_mixed :
    ∃ M, load? Program.mixed.A Program.mixed.rhs #['<', '>'] Program.mixed.offset Program.mixed.obj
        Program.mixed.lb Program.mixed.ub {} = some (.ok M) ∧
      M.program = Program.mixed ∧ M.KeepsClasses ∧ Program.mixed.HasClass 0 .boxed ∧
      Program.mixed.HasClass 1 .free ∧ Program.mixed.HasClass 2 .upperOnly ∧
      Program.mixed.HasClass 3 .lowerOnly := by
  have htypes : Program.mixed.types.map ConstraintType.toChar = #['<', '>'] := by
    simp [Program.mixed, ConstraintType.toChar]
  obtain ⟨M, hM, hP, -, hkeeps⟩ := load?_keepsClasses Program.valid_mixed.ofData_eq_ok {}
  exact ⟨M, htypes ▸ hM, hP, hkeeps, ⟨rfl, rfl⟩, ⟨rfl, rfl⟩, ⟨rfl, rfl⟩, ⟨rfl, rfl⟩⟩

end Model

end LpPresolve
