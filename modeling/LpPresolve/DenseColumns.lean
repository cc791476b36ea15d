import LpPresolve.Settings
import LpPresolve.Sparse.Basic

/-! Dense columns. In the increasing order of the column counts, the first large gap starts the
dense ones. -/

namespace LpPresolve

/-- A column is dense if it has at least `nzDense` entries. -/
structure DenseColumns where
  numDense : Nat
  nzDense : Nat
  deriving DecidableEq

namespace DenseColumns

def isDense (D : DenseColumns) (nnz : Nat) : Bool := D.nzDense ≤ nnz

/-- No column of a matrix with `rows` rows has as many entries. -/
def none (rows : Nat) : DenseColumns := ⟨0, rows + 1⟩

/-- The counts from the first gap on, in a list of counts in increasing order. -/
def suffix (settings : Settings) : List Nat → List Nat
  | a :: b :: r =>
    if max settings.denseMinNnz (settings.denseRatio * a) < b then b :: r
    else suffix settings (b :: r)
  | _ => []

/-- From the entry counts of the columns of a matrix with `rows` rows. -/
def ofCounts (settings : Settings) (rows : Nat) (counts : List Nat) : DenseColumns :=
  match suffix settings (counts.mergeSort (· ≤ ·)) with
  | [] => none rows
  | n :: r => if r.length + 1 ≤ settings.denseMaxCols then ⟨r.length + 1, n⟩ else none rows

/-- For the first `cols` columns of `A`. -/
def ofMatrix? {α : Type} (settings : Settings) (A : Csc α) (rows cols : Nat) :
    Option DenseColumns := do
  return ofCounts settings rows (← (List.range cols).mapM A.colNnz?)

end DenseColumns

end LpPresolve
