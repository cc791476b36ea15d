import LpPresolve.Vec

/-! Points of a linear program and of its computational form. The solver side has one entry of
`x` and of the bound multipliers per column, slack columns included, and one of `y` per row. -/

namespace LpPresolve

variable {α : Type}

/-- Variables, slacks `rhs - A x`, constraint multipliers and reduced costs. -/
structure UserPoint (α : Type) where
  x : Vec α
  slack : Vec α
  y : Vec α
  z : Vec α

structure SolverPoint (α : Type) where
  x : Vec α
  y : Vec α
  z : Vec α

/-- The distances `xl` and `xu` of `x` to its bounds come with the multipliers `zl` and `zu`. The
distance to an infinite bound is infinite and its multiplier zero. -/
structure UserInterior (α : Type) where
  x : Vec α
  xl : Vec α
  xu : Vec α
  slack : Vec α
  y : Vec α
  zl : Vec α
  zu : Vec α

structure SolverInterior (α : Type) where
  x : Vec α
  xl : Vec α
  xu : Vec α
  y : Vec α
  zl : Vec α
  zu : Vec α

/-- A point some of whose vectors are not given. -/
structure PartialPoint (α : Type) where
  x : Option (Vec α) := none
  slack : Option (Vec α) := none
  y : Option (Vec α) := none
  z : Option (Vec α) := none

/-- An interior point some of whose vectors are not given. -/
structure PartialInterior (α : Type) where
  x : Option (Vec α) := none
  xl : Option (Vec α) := none
  xu : Option (Vec α) := none
  slack : Option (Vec α) := none
  y : Option (Vec α) := none
  zl : Option (Vec α) := none
  zu : Option (Vec α) := none

namespace UserPoint

def zero [Scalar α] (numVar numConstr : Nat) : UserPoint α where
  x := Vec.zeros numVar
  slack := Vec.zeros numConstr
  y := Vec.zeros numConstr
  z := Vec.zeros numVar

def toPartial (p : UserPoint α) : PartialPoint α := ⟨p.x, p.slack, p.y, p.z⟩

end UserPoint

namespace UserInterior

def zero [Scalar α] (numVar numConstr : Nat) : UserInterior α where
  x := Vec.zeros numVar
  xl := Vec.zeros numVar
  xu := Vec.zeros numVar
  slack := Vec.zeros numConstr
  y := Vec.zeros numConstr
  zl := Vec.zeros numVar
  zu := Vec.zeros numVar

def toPartial (p : UserInterior α) : PartialInterior α :=
  ⟨p.x, p.xl, p.xu, p.slack, p.y, p.zl, p.zu⟩

end UserInterior

namespace SolverPoint

def zero [Scalar α] (rows cols : Nat) : SolverPoint α where
  x := Vec.zeros (cols + rows)
  y := Vec.zeros rows
  z := Vec.zeros (cols + rows)

/-- The point has the lengths of a form with `rows` rows and `cols` columns before the slacks. -/
def Fits (p : SolverPoint α) (rows cols : Nat) : Prop :=
  p.x.size = cols + rows ∧ p.y.size = rows ∧ p.z.size = cols + rows

instance (p : SolverPoint α) (rows cols : Nat) : Decidable (p.Fits rows cols) :=
  inferInstanceAs (Decidable (_ ∧ _))

end SolverPoint

namespace SolverInterior

def zero [Scalar α] (rows cols : Nat) : SolverInterior α where
  x := Vec.zeros (cols + rows)
  xl := Vec.zeros (cols + rows)
  xu := Vec.zeros (cols + rows)
  y := Vec.zeros rows
  zl := Vec.zeros (cols + rows)
  zu := Vec.zeros (cols + rows)

/-- The point has the lengths of a form with `rows` rows and `cols` columns before the slacks. -/
def Fits (p : SolverInterior α) (rows cols : Nat) : Prop :=
  p.x.size = cols + rows ∧ p.xl.size = cols + rows ∧ p.xu.size = cols + rows ∧
    p.y.size = rows ∧ p.zl.size = cols + rows ∧ p.zu.size = cols + rows

instance (p : SolverInterior α) (rows cols : Nat) : Decidable (p.Fits rows cols) :=
  inferInstanceAs (Decidable (_ ∧ _))

end SolverInterior

end LpPresolve
