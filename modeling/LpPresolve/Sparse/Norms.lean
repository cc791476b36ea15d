import LpPresolve.Sparse.Assembly

/-! Column and row norms of a matrix, and its scaling by columns and rows. -/

namespace LpPresolve.Csc

variable {α : Type} [Scalar α]

open Scalar

/-- The largest magnitude of each column in a vector of length `n`. Entries that are no number do
not count. -/
def colNorms? (A : Csc α) (n : Nat) : Option (Vec α) :=
  if n ≠ A.cols then none
  else do
    let norms ← (List.range n).mapM fun j => do
      let (start, stop) ← A.span? j
      return (← slice? A.nzval start stop).foldl (fun m v => maxNum m (magnitude v)) 0
    return norms.toArray

/-- The largest magnitude of each row in a vector of length `n`. Entries that are no number do not
count. -/
def rowNorms? (A : Csc α) (n : Nat) : Option (Vec α) :=
  if n ≠ A.rows then none
  else (A.rowval.zip A.nzval).foldlM
    (fun norms (i, v) => modify? norms i fun m => maxNum m (magnitude v)) (Vec.zeros n)

/-- The value at every position from `start` up to `stop` changed by `f`, which sees the
position. -/
def mapSpan (A : Csc α) (start stop : Nat) (f : Nat → α → α) : Csc α :=
  { A with
    nzval := (List.range' start (stop - start)).foldl (fun v k => v.modify k (f k)) A.nzval }

/-- Column `j` times `c`. -/
def scaleCol? (A : Csc α) (j : Nat) (c : α) : Option (Csc α) := do
  let (start, stop) ← A.span? j
  discard <| slice? A.nzval start stop
  return A.mapSpan start stop fun _ v => v * c

/-- The entry in row `i` and column `j` times the product of `l i` and `r j`. Columns beyond the
end of `r` are kept. -/
def lrscale? (A : Csc α) (l r : Vec α) : Option (Csc α) :=
  if A.nnz? ≠ some A.nzval.size then none
  else r.toList.zipIdx.foldlM (fun A (rj, j) => do
    let (start, stop) ← A.span? j
    discard <| slice? A.nzval start stop
    if (← slice? A.rowval start stop).all (· < l.size) then
      return A.mapSpan start stop fun k v => v * (l.entry (A.rowval.getD k 0) * rj)
    else none) A

end LpPresolve.Csc
