import LpPresolve.Sparse.Norms

/-! Equilibration of a matrix by powers of two. Each round divides every row and every column by
roughly the square root of its largest entry. The factor is a power of two, so that scaling only
moves exponents. -/

namespace LpPresolve

open Scalar

/-- The factors applied by the rounds so far, and the matrix they have led to. -/
structure Equilibration (α : Type) where
  matrix : Csc α
  colscale : Vec α
  rowscale : Vec α
  rounds : Nat

namespace Equilibration

variable {α : Type} [Scalar α]

/-- Whether a magnitude with this binary exponent needs no scaling: it lies in `[1/2, 8)`. -/
def inWindow (e : Int) : Bool := 0 ≤ e && e ≤ 3

/-- The power of two that moves a magnitude with this binary exponent half of the way to the
window. -/
def factor (e : Int) : α :=
  if e < 0 then exp2 ((1 - e) / 2)
  else if 3 < e then exp2 (-((e - 2) / 2))
  else 1

def isIdentity (E : Equilibration α) : Bool := E.rounds == 0

def start (A : Csc α) : Equilibration α where
  matrix := A
  colscale := Array.replicate A.cols 1
  rowscale := Array.replicate A.rows 1
  rounds := 0

/-- The factors that a row or column norm asks for. -/
def factors (norms : Vec α) : Vec α := norms.map fun a => factor (binaryExponent a)

/-- The accumulated factors `s` after a round with the factors `f`. -/
def combine (s f : Vec α) : Vec α :=
  Array.zipWith (fun a b => if b == 1 then a else a * b) s f

/-- Further rounds, until one has nothing to correct. -/
def run? : Nat → Equilibration α → Option (Equilibration α)
  | 0, E => some E
  | n + 1, E => do
    let c := factors (← E.matrix.colNorms? E.matrix.cols)
    let r := factors (← E.matrix.rowNorms? E.matrix.rows)
    if r.all (· == 1) && c.all (· == 1) then return E
    else
      let matrix ← E.matrix.lrscale? r c
      run? n ⟨matrix, combine E.colscale c, combine E.rowscale r, E.rounds + 1⟩

end Equilibration

open Equilibration in
/-- At most `maxRounds` rounds; none if all entries need no scaling. -/
def Csc.equilibrate? {α : Type} [Scalar α] (A : Csc α) (maxRounds : Nat) :
    Option (Equilibration α) :=
  if A.nzval.all fun a => inWindow (binaryExponent a) then some (Equilibration.start A)
  else run? maxRounds (Equilibration.start A)

end LpPresolve
