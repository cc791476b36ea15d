import LpPresolve.Error

/-! Linear programs as the user states them:

    minimize    obj' x + offset
    subject to  A x (=, <=, >=) rhs
                lb <= x <= ub

`Program.ofData` checks the data and reports the first fault: dimensions come first, then the
values of the vectors, the constraint types and the matrix. -/

namespace LpPresolve

open Scalar

inductive ConstraintType
  | equal | lessEqual | greaterEqual
  deriving DecidableEq, Inhabited

namespace ConstraintType

def toChar : ConstraintType → Char
  | equal => '='
  | lessEqual => '<'
  | greaterEqual => '>'

def ofChar : Char → Except ModelError ConstraintType
  | '=' => .ok equal
  | '<' => .ok lessEqual
  | '>' => .ok greaterEqual
  | _ => .error (.invalidVector "constr_type")

theorem ofChar_toChar (t : ConstraintType) : ofChar t.toChar = .ok t := by cases t <;> rfl

end ConstraintType

/-- A bound may be infinite on its own side. -/
structure Program (α : Type) where
  A : Csc α
  rhs : Vec α
  types : Array ConstraintType
  offset : α
  obj : Vec α
  lb : Vec α
  ub : Vec α

namespace Program

variable {α : Type} [Scalar α]

/-! ### Sizes and classes of variables -/

def numConstr (P : Program α) : Nat := P.A.rows

def numVar (P : Program α) : Nat := P.A.cols

def numEqConstr (P : Program α) : Nat := P.types.count .equal

/-- The variables, each with its bounds. -/
def bounds (P : Program α) : List ((α × α) × Nat) := (P.lb.toList.zip P.ub.toList).zipIdx

/-- The number of variables with two infinite bounds. -/
def numFreeVar (P : Program α) : Nat :=
  P.bounds.countP fun ((l, u), _) => isInfinite l && isInfinite u

/-- The variables with two finite bounds, in increasing order. -/
def boxed (P : Program α) : List Nat :=
  (P.bounds.filter fun ((l, u), _) => isFinite l && isFinite u).map (·.2)

def normObj (P : Program α) : α := P.obj.normInf

/-- The largest magnitude of a right hand side or a finite bound. -/
def normRhs (P : Program α) : α :=
  maxNum (maxNum P.rhs.normInf P.lb.normInfFinite) P.ub.normInfFinite

/-! ### Validation -/

def checkSize (name : String) (size expected : Nat) : Except ModelError Unit :=
  if size = expected then .ok () else .error (.invalidDimension name)

/-- A lower bound is finite or minus infinity, an upper bound finite or infinity, and they are in
order. No comparison holds of a value that is no number. -/
def checkBound (l u : α) : Except ModelError Unit :=
  if !(isFinite l || l == -infinity) then .error (.invalidVector "lb")
  else if !(isFinite u || u == infinity) then .error (.invalidVector "ub")
  else if u < l then .error (.invalidVector "lb")
  else .ok ()

def ofData (A : Csc α) (rhs : Vec α) (types : Array Char) (offset : α) (obj lb ub : Vec α) :
    Except ModelError (Program α) := do
  if A.cols = 0 then throw (.invalidDimension "num_var")
  checkSize "rhs" rhs.size A.rows
  checkSize "constr_type" types.size A.rows
  checkSize "obj" obj.size A.cols
  checkSize "lb" lb.size A.cols
  checkSize "ub" ub.size A.cols
  unless rhs.isFinite do throw (.invalidVector "rhs")
  unless obj.isFinite do throw (.invalidVector "obj")
  (lb.toList.zip ub.toList).forM fun (l, u) => checkBound l u
  let types ← types.mapM ConstraintType.ofChar
  A.checkFormat.mapError .invalidMatrix
  return { A, rhs, types, offset, obj, lb, ub }

end Program

end LpPresolve
