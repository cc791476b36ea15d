import LpPresolve.Equilibration
import LpPresolve.Program
import LpPresolve.Scaling
import LpPresolve.Settings

/-! The flipped and equilibrated copy of a linear program. Every variable with no other bound than
an upper one is negated, so that a finite upper bound comes with a finite lower bound; then the
matrix is equilibrated. -/

namespace LpPresolve

open Scalar

structure ScaledProgram (α : Type) where
  A : Csc α
  obj : Vec α
  rhs : Vec α
  lb : Vec α
  ub : Vec α
  scaling : Scaling α

namespace ScaledProgram

variable {α : Type} [Scalar α]

/-- The bounds of a variable that is to be negated. -/
def upperOnly (l u : α) : Bool := isFinite u && isInfinite l

/-- The variables to be negated, in increasing order. -/
def flips (P : Program α) : Flips :=
  ⟨(P.bounds.filter fun ((l, u), _) => upperOnly l u).map (·.2)⟩

/-- The program with some variables negated. -/
def flip? (P : Program α) : Option (ScaledProgram α) := do
  let flipped := flips P
  let A ← flipped.indices.foldlM (fun A j => A.scaleCol? j (-1)) P.A
  return {
    A
    obj := flipped.negate P.obj
    rhs := P.rhs
    lb := Array.zipWith (fun l u => if upperOnly l u then -u else l) P.lb P.ub
    ub := Array.zipWith (fun l u => if upperOnly l u then infinity else u) P.lb P.ub
    scaling := { Scaling.identity with flipped } }

/-- The program with its matrix replaced by the equilibrated one, and all else scaled alike. -/
def applyFactors (S : ScaledProgram α) (E : Equilibration α) : ScaledProgram α where
  A := E.matrix
  obj := S.obj.mul E.colscale
  rhs := S.rhs.mul E.rowscale
  lb := S.lb.div E.colscale
  ub := S.ub.div E.colscale
  scaling := { S.scaling with colscale := E.colscale, rowscale := E.rowscale }

def ofProgram? (P : Program α) (settings : Settings) : Option (ScaledProgram α) := do
  let S ← flip? P
  if settings.scale then
    let E ← S.A.equilibrate? settings.equilibrateMaxIter
    return if E.isIdentity then S else S.applyFactors E
  else return S

end ScaledProgram

end LpPresolve
