/-! Basis status of the columns of a computational form and of the variables and constraints of
a linear program. -/

namespace LpPresolve

/-- A variable that is not basic sits at one of its bounds, or away from both. -/
inductive BasisStatus
  | basic | nonbasicLower | nonbasicUpper | superbasic
  deriving DecidableEq, Inhabited

namespace BasisStatus

/-- The status of the negated variable. -/
def mirrored : BasisStatus → BasisStatus
  | nonbasicLower => nonbasicUpper
  | nonbasicUpper => nonbasicLower
  | s => s

def isBasic (s : BasisStatus) : Bool := s == basic

@[simp] theorem mirrored_mirrored (s : BasisStatus) : s.mirrored.mirrored = s := by
  cases s <;> rfl

end BasisStatus

/-- The slack of a basic constraint is basic; a nonbasic constraint is active. -/
inductive ConstraintStatus
  | basic | nonbasic
  deriving DecidableEq, Inhabited

structure Basis where
  constrStatus : Array ConstraintStatus
  varStatus : Array BasisStatus
  deriving DecidableEq, Inhabited

/-- Everything basic. -/
def Basis.initial (numConstr numVar : Nat) : Basis where
  constrStatus := Array.replicate numConstr .basic
  varStatus := Array.replicate numVar .basic

end LpPresolve
