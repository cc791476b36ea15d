import LpPresolve.Transfer.Point

/-! Interior points across the computational form. Coming back, slacks and multipliers of
inequalities are read from bound distances, so that their signs are right even where the solver's
point is not feasible. -/

namespace LpPresolve.Model

variable {α : Type} [Scalar α]

open Scalar

/-! ### Scaled program to computational form and back -/

/-- For the primal form. The bound distances of a fixed slack are of no use and zero. -/
def solverInterior (M : Model α) (u : UserInterior α) : SolverInterior α :=
  let slacks (f : ConstraintType → α → α) (v : Vec α) := Array.zipWith f M.program.types v
  { x := u.x ++ u.slack
    xl := u.xl ++ slacks (fun
      | .equal, _ => 0
      | .lessEqual, s => s
      | .greaterEqual, _ => infinity) u.slack
    xu := u.xu ++ slacks (fun
      | .equal, _ => 0
      | .lessEqual, _ => infinity
      | .greaterEqual, s => -s) u.slack
    y := u.y
    zl := u.zl ++ slacks (fun
      | .lessEqual, y => -y
      | _, _ => 0) u.y
    zu := u.zu ++ slacks (fun
      | .greaterEqual, y => y
      | _, _ => 0) u.y }

/-- The entry of the `k`-th boxed variable in `v` becomes entry `start + k` of `w`. -/
def placeBoxed (M : Model α) (w : Vec α) (start : Nat) (v : Vec α) : Vec α :=
  M.program.boxed.zipIdx.foldl (fun v (j, k) => v.setIfInBounds j (w.entry (start + k))) v

/-- The identity block of `w` where the lower bound is finite, and `a` elsewhere. -/
def atFiniteLower (M : Model α) (w : Vec α) (a : α) : Vec α :=
  ((List.range M.rows).map fun j =>
    if isFinite (M.scaled.lb.entry j) then w.entry (M.cols + j) else a).toArray

def userInterior (M : Model α) (s : SolverInterior α) : UserInterior α :=
  let m := M.program.numConstr
  let n := M.program.numVar
  let constraints (f : Nat → ConstraintType → α) : Vec α := M.program.types.mapIdx f
  match M.form.kind with
  | .primal =>
    { x := s.x.extract 0 n
      xl := s.xl.extract 0 n
      xu := s.xu.extract 0 n
      slack := constraints fun
        | _, .equal => 0
        | i, .lessEqual => s.xl.entry (n + i)
        | i, .greaterEqual => -s.xu.entry (n + i)
      y := constraints fun
        | i, .equal => s.y.entry i
        | i, .lessEqual => -s.zl.entry (n + i)
        | i, .greaterEqual => s.zu.entry (n + i)
      zl := s.zl.extract 0 n
      zu := s.zu.extract 0 n }
  | .dual =>
    { x := s.y.negate
      xl := M.atFiniteLower s.zl infinity
      xu := M.placeBoxed s.zl m (Array.replicate n infinity)
      slack := constraints fun
        | _, .equal => 0
        | i, .lessEqual => s.zu.entry i
        | i, .greaterEqual => -s.zl.entry i
      y := constraints fun
        | i, .equal => s.x.entry i
        | i, .lessEqual => -s.xu.entry i
        | i, .greaterEqual => s.xl.entry i
      zl := M.atFiniteLower s.xl 0
      zu := M.placeBoxed s.xl m (Vec.zeros n) }

/-! ### Acceptable starting points -/

/-- A distance to a bound is nonnegative, and infinite exactly for an infinite bound. -/
def distanceOk (bound noBound d : α) : Bool :=
  decide (0 ≤ d) && (bound == noBound) == (d == infinity)

/-- A bound multiplier is finite and nonnegative, and zero for an infinite bound. -/
def multiplierOk (bound noBound z : α) : Bool :=
  decide (0 ≤ z) && decide (z < infinity) && !(bound == noBound && !(z == 0))

def slackOk (t : ConstraintType) (s : α) : Bool :=
  isFinite s && match t with
    | .equal => s == 0
    | .lessEqual => decide (0 ≤ s)
    | .greaterEqual => decide (s ≤ 0)

def constraintMultiplierOk (t : ConstraintType) (y : α) : Bool :=
  isFinite y && match t with
    | .equal => true
    | .lessEqual => decide (y ≤ 0)
    | .greaterEqual => decide (0 ≤ y)

/-- The first vector of a scaled point that does not suit the scaled program decides. -/
def checkInterior (M : Model α) (u : UserInterior α) : Except ModelError Unit := do
  let demand (name : String) (ok : Bool) : Except ModelError Unit :=
    if ok then .ok () else .error (.invalidVector name)
  let { lb, ub, .. } := M.scaled
  let types := M.program.types
  demand "x" u.x.isFinite
  demand "xl" ((lb.zip u.xl).all fun (l, d) => distanceOk l (-infinity) d)
  demand "xu" ((ub.zip u.xu).all fun (b, d) => distanceOk b infinity d)
  demand "slack" ((types.zip u.slack).all fun (t, s) => slackOk t s)
  demand "y" ((types.zip u.y).all fun (t, y) => constraintMultiplierOk t y)
  demand "zl" ((lb.zip u.zl).all fun (l, z) => multiplierOk l (-infinity) z)
  demand "zu" ((ub.zip u.zu).all fun (b, z) => multiplierOk b infinity z)

/-! ### User program to computational form and back -/

def required (name : String) : Option (Vec α) → Except ModelError (Vec α)
  | none => .error (.argumentNull name)
  | some v => .ok v

/-- An interior starting point for the solver, in the primal form only. Missing vectors come
first, then the form, the lengths and the values. -/
def presolveInterior (M : Model α) (p : PartialInterior α) :
    Except ModelError (SolverInterior α) := do
  let m := M.program.numConstr
  let n := M.program.numVar
  let x ← required "x" p.x
  let xl ← required "xl" p.xl
  let xu ← required "xu" p.xu
  let slack ← required "slack" p.slack
  let y ← required "y" p.y
  let zl ← required "zl" p.zl
  let zu ← required "zu" p.zu
  if M.dualized then
    throw (.notImplemented "interior starting point for a dualized model")
  let x ← supplied "x" n x
  let xl ← supplied "xl" n xl
  let xu ← supplied "xu" n xu
  let slack ← supplied "slack" m slack
  let y ← supplied "y" m y
  let zl ← supplied "zl" n zl
  let zu ← supplied "zu" n zu
  let u := M.scaling.scaleInterior { x, xl, xu, slack, y, zl, zu }
  M.checkInterior u
  return M.solverInterior u

/-- An interior solution of the user program, from a point that fits the form. -/
def postsolveInterior? (M : Model α) (s : SolverInterior α) : Option (UserInterior α) :=
  if s.Fits M.rows M.cols then some (M.scaling.unscaleInterior (M.userInterior s)) else none

end LpPresolve.Model
