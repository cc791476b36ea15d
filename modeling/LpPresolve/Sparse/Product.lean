import LpPresolve.Sparse.Basic

/-! Matrix-vector products `a A x + b y` and `a A' x + b y`, accumulated entry by entry in storage
order. Factors of 0, 1 and -1 are not multiplied with. -/

namespace LpPresolve.Csc

variable {α : Type} [Scalar α]

/-- The start `b y` of a product, all zeros if `b` is zero. -/
def scaleTarget (b : α) (y : Vec α) : Vec α :=
  if b == 0 then y.fill 0
  else if b == 1 then y
  else if b == -1 then y.negate
  else y.scale b

/-- The sum `s + a v x`. -/
def accumulate (a s v x : α) : α :=
  if a == 1 then s + v * x
  else if a == -1 then s - v * x
  else s + a * v * x

/-- The stored pairs at the positions from `start` up to `stop`. No position, no demand. -/
def pairs? (A : Csc α) (start stop : Nat) : Option (List (Nat × α)) :=
  if stop ≤ start then some []
  else return (← slice? A.rowval start stop).toList.zip (← slice? A.nzval start stop).toList

/-- The product `a A x + b y` for the matrix or its transpose. With `a` zero the lengths do not
matter. -/
def gemv? (A : Csc α) (shape : Orientation) (a : α) (x : Vec α) (b : α) (y : Vec α) :
    Option (Vec α) :=
  let y := scaleTarget b y
  let (inner, outer) := match shape with
    | .normal => (A.cols, A.rows)
    | .transposed => (A.rows, A.cols)
  if a == 0 then some y
  else if A.nnz? ≠ some A.nzval.size ∨ x.size ≠ inner ∨ y.size ≠ outer then none
  else (List.range A.cols).foldlM (fun y j => do
    let (start, stop) ← A.span? j
    (← A.pairs? start stop).foldlM (fun y (i, v) => do
      let (source, target) := match shape with
        | .normal => (j, i)
        | .transposed => (i, j)
      return y.setIfInBounds target (accumulate a (← y[target]?) v (← x[source]?))) y) y

end LpPresolve.Csc
