import LpPresolve.Transfer.Point

/-! Bases and basic solutions across the computational form. In the dual form a constraint is
active exactly if its multiplier is basic, and a variable sits at a bound exactly if the column of
that bound is basic. -/

namespace LpPresolve.Model

variable {α : Type} [Scalar α]

open Scalar

/-! ### Computational form to scaled program -/

/-- The status of variable `j` according to the column of its lower bound. -/
def lowerStatus (M : Model α) (j : Nat) (column : BasisStatus) : BasisStatus :=
  if column.isBasic then
    if isFinite (M.scaled.lb.entry j) then .nonbasicLower else .superbasic
  else .basic

/-- The `k`-th boxed variable `j` moves to its upper bound if the column of that bound is basic.
It cannot be at its lower bound as well. -/
def takeUpper? (m : Nat) (basis status : Array BasisStatus) (j k : Nat) :
    Option (Array BasisStatus) :=
  if (basis.getD (m + k) .nonbasicLower).isBasic then
    if (status.getD j .nonbasicLower).isBasic then
      some (status.setIfInBounds j .nonbasicUpper)
    else none
  else some status

/-- The basis of the scaled program. There is none if a column of the identity block is superbasic,
or if both bounds of a variable are active. -/
def userBasis? (M : Model α) (basis : Array BasisStatus) : Option Basis :=
  let m := M.program.numConstr
  let n := M.program.numVar
  let identity := basis.extract M.cols basis.size
  if identity.contains .superbasic then none
  else
    match M.form.kind with
    | .primal => some {
        constrStatus := identity.map fun b => if b.isBasic then .basic else .nonbasic
        varStatus := basis.extract 0 n }
    | .dual => do
      let varStatus ← M.program.boxed.zipIdx.foldlM
        (fun v (j, k) => takeUpper? m basis v j k) (identity.mapIdx M.lowerStatus)
      return {
        constrStatus := (basis.extract 0 m).map fun b => if b.isBasic then .nonbasic else .basic
        varStatus }

/-- Moves nonbasic variables to their bounds, and makes the reduced costs of basic variables, the
slacks of active constraints and the multipliers of inactive ones zero. -/
def matchBasis (M : Model α) (B : Basis) (u : UserPoint α) : UserPoint α where
  x := u.x.mapIdx fun j a =>
    match B.varStatus[j]? with
    | some .nonbasicLower => M.scaled.lb.entry j
    | some .nonbasicUpper => M.scaled.ub.entry j
    | _ => a
  slack := u.slack.mapIdx fun i a => if B.constrStatus[i]? = some .nonbasic then 0 else a
  y := u.y.mapIdx fun i a => if B.constrStatus[i]? = some .basic then 0 else a
  z := u.z.mapIdx fun j a => if B.varStatus[j]? = some .basic then 0 else a

/-! ### Computational form to user program -/

/-- The basis of the user program, for one status per column. -/
def postsolveBasis? (M : Model α) (basis : Array BasisStatus) : Option Basis := do
  if basis.size = M.cols + M.rows then
    return M.scaling.unscaleBasis (← M.userBasis? basis)
  else none

/-- The basic solution of the scaled program with its basis, for a point and a basis that fit the
form. -/
def scaledBasic? (M : Model α) (s : SolverPoint α) (basis : Array BasisStatus) :
    Option (UserPoint α × Basis) := do
  if s.Fits M.rows M.cols ∧ basis.size = M.cols + M.rows then
    let B ← M.userBasis? basis
    return (M.matchBasis B (M.userPoint s), B)
  else none

/-- The basic solution of the user program. -/
def postsolveBasic? (M : Model α) (s : SolverPoint α) (basis : Array BasisStatus) :
    Option (UserPoint α) := do
  let (u, _) ← M.scaledBasic? s basis
  return M.scaling.unscalePoint u

end LpPresolve.Model
