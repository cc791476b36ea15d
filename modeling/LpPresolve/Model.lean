import LpPresolve.Form
import LpPresolve.Sparse.Product

/-! A loaded linear program: the program, its scaled copy and the computational form handed to a
solver. -/

namespace LpPresolve

structure Model (α : Type) where
  program : Program α
  scaled : ScaledProgram α
  form : Form α
  settings : Settings

/-- Sizes of a linear program and of its computational form. The solver's columns include the
slacks. -/
structure ModelInfo where
  numVar : Nat := 0
  numConstr : Nat := 0
  numEntries : Nat := 0
  numRowsSolver : Nat := 0
  numColsSolver : Nat := 0
  numEntriesSolver : Nat := 0
  dualized : Bool := false
  denseCols : Nat := 0
  deriving DecidableEq, Inhabited

namespace Model

variable {α : Type} [Scalar α]

/-- Preprocesses a program. There is no result if scaling turns the finite lower bound of a boxed
variable into an infinite one while the dual form needs it. -/
def ofProgram? (P : Program α) (settings : Settings) : Option (Model α) := do
  let scaled ← ScaledProgram.ofProgram? P settings
  return { program := P, scaled, form := ← Form.ofScaled? settings P scaled, settings }

/-- Checks and preprocesses raw data. -/
def load? (A : Csc α) (rhs : Vec α) (types : Array Char) (offset : α) (obj lb ub : Vec α)
    (settings : Settings) : Option (Except ModelError (Model α)) :=
  match Program.ofData A rhs types offset obj lb ub with
  | .error e => some (.error e)
  | .ok P => (ofProgram? P settings).map .ok

def scaling (M : Model α) : Scaling α := M.scaled.scaling

def dualized (M : Model α) : Bool := M.form.isDualized

def rows (M : Model α) : Nat := M.form.rows

def cols (M : Model α) : Nat := M.form.cols

def info (M : Model α) : ModelInfo where
  numVar := M.program.numVar
  numConstr := M.program.numConstr
  numEntries := M.program.A.nzval.size
  numRowsSolver := M.rows
  numColsSolver := M.cols + M.rows
  numEntriesSolver := M.form.AI.nzval.size
  dualized := M.dualized
  denseCols := M.form.dense.numDense

/-- The sum `y + a A x`, for the scaled matrix or its transpose. -/
def multiply? (M : Model α) (shape : Orientation) (a : α) (x y : Vec α) : Option (Vec α) :=
  M.scaled.A.gemv? shape a x 1 y

/-- The computational form that other bounds and settings would give. -/
def reform? (M : Model α) (lb ub : Vec α) (settings : Settings) : Option (Form α) :=
  Form.ofScaled? settings M.program { M.scaled with lb, ub }

end Model

end LpPresolve
