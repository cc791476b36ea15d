import LpPresolve.DenseColumns
import LpPresolve.ScaledProgram
import LpPresolve.Sparse.Assembly

/-! Computational forms: linear programs with equations only,

    minimize    c' x
    subject to  AI x = b
                lb <= x <= ub

whose matrix ends in an identity block. The primal form adds a slack to every constraint; the dual
form is the dual of the scaled program. -/

namespace LpPresolve

open Scalar

inductive FormKind
  | primal | dual
  deriving DecidableEq, Inhabited

/-- The matrix has `cols` columns before the identity block. -/
structure Form (α : Type) where
  kind : FormKind
  rows : Nat
  cols : Nat
  AI : Csc α
  AIt : Csc α
  b : Vec α
  c : Vec α
  lb : Vec α
  ub : Vec α
  dense : DenseColumns

namespace Form

variable {α : Type} [Scalar α]

def isDualized (F : Form α) : Bool := F.kind == .dual

def normC (F : Form α) : α := F.c.normInf

/-- The largest magnitude of a right hand side or a finite bound. -/
def normBounds (F : Form α) : α :=
  maxNum (maxNum F.b.normInf F.lb.normInfFinite) F.ub.normInfFinite

def denseColumnIndices (F : Form α) : List Nat :=
  (List.range F.cols).filter fun j => (F.AI.colNnz? j).any F.dense.isDense

/-- Completes a form by its transposed matrix and its dense columns. -/
def finish? (settings : Settings) (kind : FormKind) (rows cols : Nat) (AI : Csc α)
    (b c lb ub : Vec α) : Option (Form α) := do
  return { kind, rows, cols, AI, b, c, lb, ub
           AIt := ← AI.transpose?
           dense := ← DenseColumns.ofMatrix? settings AI rows cols }

/-! ### Primal form -/

/-- Lower bound of the slack of a constraint. -/
def slackLower : ConstraintType → α
  | .equal | .lessEqual => 0
  | .greaterEqual => -infinity

/-- Upper bound of the slack of a constraint. -/
def slackUpper : ConstraintType → α
  | .equal | .greaterEqual => 0
  | .lessEqual => infinity

/-- The primal form `[A | I] x = rhs`. -/
def primal? (settings : Settings) (P : Program α) (S : ScaledProgram α) : Option (Form α) := do
  let (m, n) := (P.numConstr, P.numVar)
  if S.lb.size ≠ n ∨ S.ub.size ≠ n then none
  else
    finish? settings .primal m n (← S.A.hcat? (.identity m))
      S.rhs
      (S.obj ++ Vec.zeros m)
      (S.lb ++ P.types.map slackLower)
      (S.ub ++ P.types.map slackUpper)

/-! ### Dual form -/

/-- Lower bound of the multiplier of a constraint. -/
def multiplierLower : ConstraintType → α
  | .equal | .lessEqual => -infinity
  | .greaterEqual => 0

/-- Upper bound of the multiplier of a constraint. -/
def multiplierUpper : ConstraintType → α
  | .equal | .greaterEqual => infinity
  | .lessEqual => 0

/-- The lower bound of variable `j`, if it is finite. -/
def finiteLower? (S : ScaledProgram α) (j : Nat) : Option α := S.lb[j]?.filter isFinite

/-- The dual form has a column for the lower bound of every variable and for the upper bounds of
the boxed ones only, so a finite upper bound must come with a finite lower bound. -/
def BoundsFit (S : ScaledProgram α) (n : Nat) : Prop :=
  S.lb.size ≤ n ∧ n ≤ S.ub.size ∧
    ∀ j < n, isFinite (S.ub.entry j) = true → (finiteLower? S j).isSome = true

instance (S : ScaledProgram α) (n : Nat) : Decidable (BoundsFit S n) :=
  inferInstanceAs (Decidable (_ ∧ _))

/-- The matrix `[A' | -I(:, boxed) | I]`. -/
def dualMatrix? (A : Csc α) (m n : Nat) (boxed : List Nat) : Option (Csc α) := do
  let nb := boxed.length
  Csc.assemble? n (m + nb + n) ((← A.nnz?) + nb + n)
    [.matrix A 0 0 .transposed, .units boxed (-1) m, .units (List.range n) 1 (m + nb)]

/-- One entry for the lower bound of each of `n` variables. -/
def atLowers (S : ScaledProgram α) (n : Nat) (f : Option α → α) : Vec α :=
  ((List.range n).map fun j => f (finiteLower? S j)).toArray

/-- The cost `[-rhs; ub(boxed); -lb]`, with no cost for an infinite lower bound. -/
def dualCost (P : Program α) (S : ScaledProgram α) : Vec α :=
  S.rhs.negate ++ (P.boxed.map S.ub.entry).toArray ++
    atLowers S P.numVar fun l => l.elim 0 (-·)

def dualLower (P : Program α) : Vec α :=
  P.types.map multiplierLower ++ Vec.zeros (P.boxed.length + P.numVar)

def dualUpper (P : Program α) (S : ScaledProgram α) : Vec α :=
  P.types.map multiplierUpper ++ Array.replicate P.boxed.length infinity ++
    atLowers S P.numVar fun l => if l.isSome then infinity else 0

/-- The dual form `[A' | -I(:, boxed) | I] x = obj`. The columns are the constraint multipliers,
the multipliers of the upper bounds of boxed variables, and those of the lower bounds, which are
fixed at zero where the bound is infinite. -/
def dual? (settings : Settings) (P : Program α) (S : ScaledProgram α) : Option (Form α) := do
  if BoundsFit S P.numVar then
    finish? settings .dual P.numVar (P.numConstr + P.boxed.length)
      (← dualMatrix? S.A P.numConstr P.numVar P.boxed)
      S.obj (dualCost P S) (dualLower P) (dualUpper P S)
  else none

def ofScaled? (settings : Settings) (P : Program α) (S : ScaledProgram α) : Option (Form α) :=
  if settings.dualize.dualizes P.numConstr P.numVar then dual? settings P S
  else primal? settings P S

end Form

end LpPresolve
