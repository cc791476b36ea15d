import LpPresolve.Transfer.Basis
import LpPresolve.Transfer.Interior

/-! Quality of a solver's points. Interior and basic solutions are measured in user space, though
the residuals are computed in scaled space and only then unscaled; iterates are measured against
the computational form itself. -/

namespace LpPresolve

open Scalar

/-- Primal residuals are those of the rows and bound distances. The relative ones are over 1 plus
the norm of the right hand sides and finite bounds, or of the objective. The objective values
include the offset, and their relative gap is over 1 plus their mean magnitude. -/
structure InteriorInfo (α : Type) where
  absPresidual : α
  absDresidual : α
  relPresidual : α
  relDresidual : α
  pobjval : α
  dobjval : α
  relObjgap : α
  complementarity : α
  normx : α
  normy : α
  normz : α

/-- The largest violation of a bound or of the sign of a slack, and the largest of the sign of a
reduced cost or multiplier. The objective value is without the offset. -/
structure BasicInfo (α : Type) where
  primalInfeas : α
  dualInfeas : α
  objval : α

namespace Model

variable {α : Type} [Scalar α]

/-! ### Interior solutions -/

/-- The distance to a bound that a scaled point misses, by `f` at the finite bounds and 0 at the
others. -/
def boundResiduals (bounds : Vec α) (f : Nat → α → α) : Vec α :=
  bounds.mapIdx fun j b => if isFinite b then f j b else 0

/-- The residuals of a scaled point. The right hand side is added last, which keeps digits when
the point is large. -/
def scaledResiduals? (M : Model α) (u : UserInterior α) : Option (Residuals α) := do
  let S := M.scaled
  let rb ← M.multiply? .normal (-1) u.x (Vec.zeros M.program.numConstr)
  let rc ← M.multiply? .transposed (-1) u.y (Vec.zeros M.program.numVar)
  let rc := Array.zipWith (· - ·) rc (Array.zipWith (· - ·) u.zl u.zu)
  return {
    rb := Vec.axpby 1 S.rhs 1 (Vec.axpby (-1) u.slack 1 rb)
    rc := Vec.axpby 1 S.obj 1 rc
    rl := boundResiduals S.lb fun j l => l - u.x.entry j + u.xl.entry j
    ru := boundResiduals S.ub fun j b => b - u.x.entry j - u.xu.entry j }

/-- The dual objective value of a scaled point. -/
def dualObjective (M : Model α) (u : UserInterior α) : α :=
  (List.range M.program.numVar).foldl (fun d j =>
    let (l, b) := (M.scaled.lb.entry j, M.scaled.ub.entry j)
    let d := if isFinite l then d + l * u.zl.entry j else d
    if isFinite b then d - b * u.zu.entry j else d)
    (M.program.offset + M.scaled.rhs.dot u.y)

/-- The sum of the products of distance and multiplier over the finite bounds and the
constraints. -/
def complementarity (M : Model α) (u : UserInterior α) : α :=
  let bounds := (List.range M.program.numVar).foldl (fun c j =>
    let c := if isFinite (M.scaled.lb.entry j) then c + u.xl.entry j * u.zl.entry j else c
    if isFinite (M.scaled.ub.entry j) then c + u.xu.entry j * u.zu.entry j else c) 0
  bounds - u.y.dot u.slack

/-- The quality of an interior solution, for a point that fits the form. -/
def evaluateInterior? (M : Model α) (s : SolverInterior α) : Option (InteriorInfo α) := do
  if s.Fits M.rows M.cols then
    let u := M.userInterior s
    let r := M.scaling.unscaleResiduals (← M.scaledResiduals? u)
    let presidual := maxNum (maxNum r.rb.normInf r.rl.normInf) r.ru.normInf
    let dresidual := r.rc.normInf
    let pobjval := M.program.offset + M.scaled.obj.dot u.x
    let dobjval := M.dualObjective u
    let v := M.scaling.unscaleInterior u
    return {
      absPresidual := presidual
      absDresidual := dresidual
      relPresidual := presidual / (1 + M.program.normRhs)
      relDresidual := dresidual / (1 + M.program.normObj)
      pobjval
      dobjval
      relObjgap := (pobjval - dobjval) / (1 + half * magnitude (pobjval + dobjval))
      complementarity := M.complementarity u
      normx := v.x.normInf
      normy := v.y.normInf
      normz := maxNum v.zl.normInf v.zu.normInf }
  else none

/-! ### Basic solutions -/

/-- By how much `x` lies outside its bounds. -/
def boundViolation (l u x : α) : α :=
  if u < x then x - u else if x < l then x - l else 0

/-- A reduced cost with the wrong sign for the status of its variable. -/
def costViolation (status : BasisStatus) (z : α) : α :=
  if 0 < z then if status = .nonbasicLower then 0 else z
  else if z < 0 then if status = .nonbasicUpper then 0 else z
  else 0

/-- A slack with the wrong sign. -/
def slackViolation (t : ConstraintType) (s : α) : α :=
  match t with
  | .equal => 0
  | .lessEqual => if s < 0 then s else 0
  | .greaterEqual => if 0 < s then s else 0

/-- A constraint multiplier with the wrong sign. -/
def multiplierViolation (t : ConstraintType) (y : α) : α :=
  match t with
  | .equal => 0
  | .lessEqual => if 0 < y then y else 0
  | .greaterEqual => if y < 0 then y else 0

/-- The violations of a scaled basic solution, which are scaled like the solution itself. -/
def violations (M : Model α) (u : UserPoint α) (B : Basis) : UserPoint α where
  x := u.x.mapIdx fun j a => boundViolation (M.scaled.lb.entry j) (M.scaled.ub.entry j) a
  slack := Array.zipWith slackViolation M.program.types u.slack
  y := Array.zipWith multiplierViolation M.program.types u.y
  z := Array.zipWith costViolation B.varStatus u.z

/-- The quality of a basic solution, for a point and a basis that fit the form. -/
def evaluateBasic? (M : Model α) (s : SolverPoint α) (basis : Array BasisStatus) :
    Option (BasicInfo α) := do
  let (u, B) ← M.scaledBasic? s basis
  let v := M.scaling.unscalePoint (M.violations u B)
  return {
    primalInfeas := maxNum v.x.normInf v.slack.normInf
    dualInfeas := maxNum v.z.normInf v.y.normInf
    objval := M.scaled.obj.dot u.x }

end Model

/-! ### Iterates of the computational form -/

namespace Form

variable {α : Type} [Scalar α]

/-- The columns, each with its bounds. -/
def bounds (F : Form α) : List (α × α) := F.lb.toList.zip F.ub.toList

/-- The largest violation of `lb <= x <= ub`. -/
def primalInfeasibility? (F : Form α) (x : Vec α) : Option α :=
  if x.size = F.lb.size then
    some ((x.toList.zip F.bounds).foldl (fun m (a, l, u) => maxNum (maxNum m (l - a)) (a - u)) 0)
  else none

/-- The largest reduced cost with the wrong sign for a variable off its bounds. -/
def dualInfeasibility? (F : Form α) (x z : Vec α) : Option α :=
  if x.size = F.lb.size ∧ z.size = F.lb.size then
    some (((x.toList.zip z.toList).zip F.bounds).foldl (fun m ((a, d), l, u) =>
      let m := if l < a then maxNum m d else m
      if a < u then maxNum m (-d) else m) 0)
  else none

/-- The largest entry of `b - AI x`. -/
def primalResidual? (F : Form α) (x : Vec α) : Option α := do
  return (← F.AI.gemv? .normal (-1) x 1 F.b).normInf

/-- The largest entry of `c - z - AI' y`. -/
def dualResidual? (F : Form α) (y z : Vec α) : Option α := do
  let r ← Vec.axpby? (-1) z 1 F.c
  return (← F.AI.gemv? .transposed (-1) y 1 r).normInf

end Form

end LpPresolve
