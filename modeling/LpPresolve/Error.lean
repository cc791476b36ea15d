import LpPresolve.Sparse.Format

/-! Why a linear program or a starting point is refused. -/

namespace LpPresolve

/-- The text of all but `invalidMatrix` names the argument or operation at fault. -/
inductive ModelError
  | argumentNull (name : String)
  | invalidDimension (name : String)
  | invalidVector (name : String)
  | invalidMatrix (cause : FormatError)
  | notImplemented (operation : String)
  deriving DecidableEq

namespace ModelError

def code : ModelError → Nat
  | argumentNull _ => 102
  | invalidDimension _ => 103
  | invalidMatrix _ => 104
  | invalidVector _ => 105
  | notImplemented _ => 109

def message : ModelError → String
  | argumentNull name => "Required argument \"" ++ name ++ "\" is missing"
  | invalidDimension name => "Bad dimension for \"" ++ name ++ "\""
  | invalidVector name => "Invalid value in \"" ++ name ++ "\""
  | invalidMatrix cause => "Invalid constraint matrix: " ++ cause.message
  | notImplemented operation => "Operation not implemented: " ++ operation

end ModelError

end LpPresolve
