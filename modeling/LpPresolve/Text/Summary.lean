import LpPresolve.Model
import LpPresolve.Text.Scientific

/-! The summary of a loaded program: its sizes, the ranges of its coefficients, and what the
preprocessing has done. -/

namespace LpPresolve

open Scalar

variable {α : Type} [Scalar α]

/-- The smallest and the largest magnitude of the nonzero entries, and zeros if there are none. -/
def nonzeroRange (v : Vec α) : α × α :=
  let range := (v.filter fun a => !(a == 0)).foldl
    (fun (lo, hi) a => (minNum lo (magnitude a), maxNum hi (magnitude a))) (infinity, 0)
  if isInfinite range.1 then (0, 0) else range

namespace Text

def line (label value : String) : String := "    " ++ label ++ " = " ++ value ++ "\n"

/-- A range with the given number of significant digits. -/
def range (digits : Nat) (r : α × α) : String :=
  "[" ++ scientific digits r.1 ++ ", " ++ scientific digits r.2 ++ "]"

def yesNo (b : Bool) : String := if b then "yes" else "no"

end Text

open Text in
/-- Ranges of the data have one significant digit, all other values three. -/
def Model.summary (M : Model α) : String :=
  let P := M.program
  let data (v : Vec α) := range 1 (nonzeroRange v)
  "Input\n" ++
  line "variables           " (toString P.numVar) ++
  line "free variables      " (toString P.numFreeVar) ++
  line "constraints         " (toString P.numConstr) ++
  line "equality constraints" (toString P.numEqConstr) ++
  line "matrix entries      " (toString P.A.nzval.size) ++
  line "matrix range        " (data P.A.nzval) ++
  line "rhs range           " (data P.rhs) ++
  line "objective range     " (data P.obj) ++
  line "bounds range        " (data ((P.lb ++ P.ub).filter isFinite)) ++
  "Preprocessing\n" ++
  line "dualized model      " (yesNo M.dualized) ++
  line "dense columns       " (toString M.form.dense.numDense) ++
  (if M.settings.scale then
    line "scaling factors     " (range 3 M.scaling.factorRange) else "") ++
  line "scaled cost norm    " (scientific 3 M.form.normC) ++
  line "scaled bounds norm  " (scientific 3 M.form.normBounds)

/-- What is printed once a program has been loaded. -/
def Model.loadReport (M : Model α) : String := if M.settings.verbose then M.summary else ""

end LpPresolve
