import LpPresolve.Proofs.Scaling.Inverse
import LpPresolve.Proofs.Transfer.Point

/-! Round trips of starting points. A partial point is refused for its first vector of a wrong length;
otherwise the solver's point fits the form, and coming back from it restores the given vectors, with
zeros for the missing ones. -/

namespace LpPresolve

variable {α : Type}

namespace PartialPoint

/-- The name of the first given vector whose length is not that of a point with `n` variables and
`m` constraints. -/
def firstMisfit (p : PartialPoint α) (n m : Nat) : Option String :=
  [("x", n, p.x), ("slack", m, p.slack), ("y", m, p.y), ("z", n, p.z)].findSome?
    fun (name, k, v) => if v.any (·.size ≠ k) then some name else none

theorem firstMisfit_eq_none_iff {p : PartialPoint α} {n m : Nat} :
    p.firstMisfit n m = none ↔ (∀ v ∈ p.x, v.size = n) ∧ (∀ v ∈ p.slack, v.size = m) ∧
      (∀ v ∈ p.y, v.size = m) ∧ ∀ v ∈ p.z, v.size = n := by
  have hany : ∀ (v : Option (Vec α)) (k : Nat),
      v.any (·.size ≠ k) = false ↔ ∀ w ∈ v, w.size = k := by
    intro v k
    cases v <;> simp
  simp only [firstMisfit, List.findSome?_eq_none_iff, List.forall_mem_cons, List.not_mem_nil,
    ite_eq_right_iff, reduceCtorEq, imp_false, Bool.not_eq_true, hany, false_implies,
    implies_true, and_true]

/-- The point with zeros for its missing vectors. -/
def completed [Scalar α] (p : PartialPoint α) (n m : Nat) : UserPoint α where
  x := p.x.getD (Vec.zeros n)
  slack := p.slack.getD (Vec.zeros m)
  y := p.y.getD (Vec.zeros m)
  z := p.z.getD (Vec.zeros n)

theorem sized_completed [Scalar α] {p : PartialPoint α} {n m : Nat}
    (h : p.firstMisfit n m = none) : (p.completed n m).Sized n m := by
  have hget : ∀ {v : Option (Vec α)} {k : Nat}, (∀ w ∈ v, w.size = k) →
      (v.getD (Vec.zeros k)).size = k := by
    intro v k hv
    cases v with
    | none => simp
    | some w => exact hv w rfl
  obtain ⟨hx, hslack, hy, hz⟩ := firstMisfit_eq_none_iff.1 h
  exact ⟨hget hx, hget hslack, hget hy, hget hz⟩

end PartialPoint

instance [Scalar α] [DecidableEq α] (S : Scaling α) (p : UserPoint α) : Decidable (S.Keeps p) :=
  decidable_of_iff _ (S.keeps_iff p).symm

namespace Model

variable [Scalar α]

theorem supplied_eq (name : String) (n : Nat) (v : Option (Vec α)) :
    supplied name n v = if v.any (·.size ≠ n) then .error (.invalidDimension name)
      else .ok (v.getD (Vec.zeros n)) := by
  cases v with
  | none => rfl
  | some v => by_cases h : v.size = n <;> simp [supplied, h]

/-- The vectors are looked at in the order `x`, `slack`, `y`, `z`. -/
theorem presolvePoint_eq (M : Model α) (p : PartialPoint α) :
    M.presolvePoint p =
      match p.firstMisfit M.program.numVar M.program.numConstr with
      | some name => .error (.invalidDimension name)
      | none => .ok (M.solverPoint
          (M.scaling.scalePoint (p.completed M.program.numVar M.program.numConstr))) := by
  simp only [presolvePoint, supplied_eq, PartialPoint.firstMisfit, List.findSome?_cons,
    List.findSome?_nil]
  by_cases hx : p.x.any (·.size ≠ M.program.numVar) = true
  · simp only [hx, if_true, error_bind]
  by_cases hslack : p.slack.any (·.size ≠ M.program.numConstr) = true
  · simp only [hx, hslack, if_true, if_false, Bool.false_eq_true, error_bind]
    rfl
  by_cases hy : p.y.any (·.size ≠ M.program.numConstr) = true
  · simp only [hx, hslack, hy, if_true, if_false, Bool.false_eq_true, error_bind]
    rfl
  by_cases hz : p.z.any (·.size ≠ M.program.numVar) = true
  · simp only [hx, hslack, hy, hz, if_true, if_false, Bool.false_eq_true, error_bind]
    rfl
  · simp only [hx, hslack, hy, hz, if_false, Bool.false_eq_true]
    rfl

theorem presolvePoint_toPartial {M : Model α} {u : UserPoint α}
    (hu : u.Sized M.program.numVar M.program.numConstr) :
    M.presolvePoint u.toPartial = .ok (M.solverPoint (M.scaling.scalePoint u)) := by
  have hnone : u.toPartial.firstMisfit M.program.numVar M.program.numConstr = none :=
    PartialPoint.firstMisfit_eq_none_iff.2 (by
      simp [UserPoint.toPartial, hu.size_x, hu.size_slack, hu.size_y, hu.size_z])
  rw [presolvePoint_eq, hnone]
  rfl

/-- Presolving refuses exactly the partial points with a given vector of a wrong length, naming the
first one. For any other point its result fits the form, and postsolving undoes it, in every
arithmetic whose negation and whose scale factors can be undone. -/
theorem postsolvePoint?_presolvePoint {M : Model α} (hM : M.Loaded) (hneg : ∀ a : α, - -a = a)
    (hzero : ∀ a : α, a < 0 → 0 - -a = a) (hsub : ∀ a : α, a - 0 = a) (p : PartialPoint α) :
    (∀ e, M.presolvePoint p = .error e ↔
      ∃ name, p.firstMisfit M.program.numVar M.program.numConstr = some name ∧
        e = .invalidDimension name) ∧
    (p.firstMisfit M.program.numVar M.program.numConstr = none →
      ∃ s, M.presolvePoint p = .ok s ∧ s.Fits M.rows M.cols ∧
        (M.scaling.Keeps (p.completed M.program.numVar M.program.numConstr) →
          M.postsolvePoint? s = some (p.completed M.program.numVar M.program.numConstr))) := by
  have hreg := hM.regular
  have hsuits : M.scaling.Suits M.program.numVar M.program.numConstr :=
    hreg.copies.suits hreg.valid
  rw [presolvePoint_eq]
  constructor
  · intro e
    cases p.firstMisfit M.program.numVar M.program.numConstr with
    | none => simp
    | some name => simp [eq_comm]
  · intro hnone
    rw [hnone]
    have hsized := PartialPoint.sized_completed hnone
    have hscaled := Scaling.sized_scalePoint hsuits hsized
    have hfits := hreg.fits_solverPoint hscaled
    refine ⟨_, rfl, hfits, fun hkeep => ?_⟩
    rw [postsolvePoint?, if_pos hfits, hreg.userPoint_solverPoint hscaled hneg hzero hsub]
    exact congrArg some (Scaling.unscalePoint_scalePoint hsuits hsized hneg hkeep)

open Extended in
/-- A point without slacks, through the dual form of a program with all kinds of bounds. -/
theorem postsolvePoint?_presolvePoint_mixed :
    ∃ M : Model Extended, M.Loaded ∧ M.program = Program.mixed ∧ M.dualized = true ∧
      ∃ s, M.presolvePoint ⟨some #[finite 2, finite 5, finite (1 / 3), finite 0], none,
          some #[finite (-7), finite 3],
          some #[finite (-9), finite 0, finite 4, finite (1 / 5)]⟩ = .ok s ∧
        M.postsolvePoint? s = some ⟨#[finite 2, finite 5, finite (1 / 3), finite 0],
          #[finite 0, finite 0], #[finite (-7), finite 3],
          #[finite (-9), finite 0, finite 4, finite (1 / 5)]⟩ := by
  obtain ⟨M, hM, hP, hp⟩ := exists_loaded { dualize := .always } Program.valid_mixed
    (p := fun M => M.dualized &&
      decide (M.scaling.Keeps ⟨#[finite 2, finite 5, finite (1 / 3), finite 0],
        #[finite 0, finite 0], #[finite (-7), finite 3],
        #[finite (-9), finite 0, finite 4, finite (1 / 5)]⟩)) (by decide +kernel)
  rw [Bool.and_eq_true, decide_eq_true_eq] at hp
  obtain ⟨s, hs, -, hpost⟩ := (postsolvePoint?_presolvePoint hM Extended.neg_neg
    (fun a _ => Extended.zero_sub_neg a) Extended.sub_zero
    ⟨some #[finite 2, finite 5, finite (1 / 3), finite 0], none, some #[finite (-7), finite 3],
      some #[finite (-9), finite 0, finite 4, finite (1 / 5)]⟩).2 (by rw [hP]; decide)
  rw [hP] at hpost
  exact ⟨M, hM, hP, hp.1, s, hs, hpost hp.2⟩

end Model

end LpPresolve
