import LpPresolve.Model

/-! Points across the computational form. In the dual form the solver's multipliers are the
negated user variables and its variables the user's multipliers; a negative reduced cost of a
boxed variable belongs to the column of its upper bound. -/

namespace LpPresolve.Model

variable {α : Type} [Scalar α]

/-! ### Scaled program to computational form and back -/

/-- The reduced costs `c_j - y_i` of the columns of the identity block. -/
def identityCosts (M : Model α) (y : Vec α) : Vec α :=
  ((List.range M.rows).map fun i => M.form.c.entry (M.cols + i) - y.entry i).toArray

def solverPoint (M : Model α) (u : UserPoint α) : SolverPoint α :=
  let m := M.program.numConstr
  let boxed := M.program.boxed
  match M.form.kind with
  | .primal =>
    { x := u.x ++ u.slack
      y := u.y
      z := u.z ++ M.identityCosts u.y }
  | .dual =>
    let y := u.x.negate
    { x := u.y ++
        (boxed.map fun j => if u.z.entry j < 0 then -u.z.entry j else 0).toArray ++
        boxed.foldl (fun z j => z.modify j fun a => if a < 0 then 0 else a) u.z
      y
      z := u.slack.negate ++
        (boxed.zipIdx.map fun (j, k) => M.form.c.entry (m + k) + y.entry j).toArray ++
        M.identityCosts y }

def userPoint (M : Model α) (s : SolverPoint α) : UserPoint α :=
  let m := M.program.numConstr
  let n := M.program.numVar
  match M.form.kind with
  | .primal =>
    { x := s.x.extract 0 n
      slack := s.x.extract n s.x.size
      y := s.y
      z := s.z.extract 0 n }
  | .dual =>
    { x := s.y.negate
      slack := Vec.negate (s.z.extract 0 m)
      y := s.x.extract 0 m
      z := M.program.boxed.zipIdx.foldl
        (fun z (j, k) => z.modify j (· - s.x.entry (m + k))) (s.x.extract M.cols s.x.size) }

/-! ### User program to computational form and back -/

/-- The given vector if it has length `n`, and zeros if there is none. -/
def supplied (name : String) (n : Nat) : Option (Vec α) → Except ModelError (Vec α)
  | none => .ok (Vec.zeros n)
  | some v => if v.size = n then .ok v else .error (.invalidDimension name)

/-- A starting point for the solver. -/
def presolvePoint (M : Model α) (p : PartialPoint α) : Except ModelError (SolverPoint α) := do
  let x ← supplied "x" M.program.numVar p.x
  let slack ← supplied "slack" M.program.numConstr p.slack
  let y ← supplied "y" M.program.numConstr p.y
  let z ← supplied "z" M.program.numVar p.z
  return M.solverPoint (M.scaling.scalePoint { x, slack, y, z })

/-- Undoes `presolvePoint`, for a point that fits the form. -/
def postsolvePoint? (M : Model α) (s : SolverPoint α) : Option (UserPoint α) :=
  if s.Fits M.rows M.cols then some (M.scaling.unscalePoint (M.userPoint s)) else none

end LpPresolve.Model
