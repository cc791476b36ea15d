import LpPresolve.Sparse.Basic

/-! Assembly of a matrix from blocks. The column pointers first count the entries of every column
(`Block.count?`), are then turned into the position of each column's first entry
(`startFromCounts`), move on as the blocks are written (`Block.fill?`), and are moved back by one
column at the end (`closeColumns`). Transposition and horizontal concatenation are assemblies. -/

namespace LpPresolve

/-- Entry `i` changed by `f`, if there is one. -/
def modify? {β : Type} (xs : Array β) (i : Nat) (f : β → β) : Option (Array β) :=
  if i < xs.size then some (xs.modify i f) else none

theorem modify?_eq_some_iff {β : Type} {xs ys : Array β} {i : Nat} {f : β → β} :
    modify? xs i f = some ys ↔ i < xs.size ∧ xs.modify i f = ys := by
  by_cases h : i < xs.size <;> simp [modify?, h]

variable {α : Type} [Scalar α]

namespace Csc

/-! ### Counting -/

/-- One entry more in each of `n` columns from `col` on. -/
def countUnits? (C : Csc α) (col n : Nat) : Option (Csc α) :=
  if col + n ≤ C.colptr.size then
    some { C with colptr := (List.range' col n).foldl (fun p j => p.modify j (· + 1)) C.colptr }
  else none

/-- The entries of the block `B`, whose first column is `col`. -/
def countBlock? (C B : Csc α) (col : Nat) : Orientation → Option (Csc α)
  | .normal => do
    let colptr ← (List.range B.cols).foldlM (fun p j => do
      let n ← B.colNnz? j
      modify? p (col + j) (· + n)) C.colptr
    return { C with colptr }
  | .transposed => do
    let colptr ← B.rowval.foldlM (fun p i => modify? p (col + i) (· + 1)) C.colptr
    return { C with colptr }

/-- Each count becomes the sum of the counts before it. -/
def runningSums (start : Nat) : List Nat → List Nat
  | [] => []
  | n :: r => start :: runningSums (start + n) r

@[simp] theorem length_runningSums (start : Nat) (ns : List Nat) :
    (runningSums start ns).length = ns.length := by
  induction ns generalizing start with
  | nil => rfl
  | cons n r ih => simp [runningSums, ih]

theorem getElem_runningSums (start : Nat) (ns : List Nat) (i : Nat)
    (h : i < (runningSums start ns).length) :
    (runningSums start ns)[i] = (ns.take i).foldl (· + ·) start := by
  induction ns generalizing start i with
  | nil => simp [runningSums] at h
  | cons n r ih =>
    cases i with
    | zero => rfl
    | succ i => exact ih (start + n) i _

def startFromCounts (C : Csc α) : Csc α :=
  { C with colptr := (runningSums 0 C.colptr.toList).toArray }

/-! ### Filling -/

/-- One entry, at the position that the pointer of column `col` has reached. -/
def put? (C : Csc α) (row col : Nat) (a : α) : Option (Csc α) := do
  let k ← C.colptr[col]?
  if k < C.rowval.size ∧ k < C.nzval.size then
    return { C with
      colptr := C.colptr.modify col (· + 1)
      rowval := C.rowval.setIfInBounds k row
      nzval := C.nzval.setIfInBounds k a }
  else none

/-- The stored pairs of column `j`, if its positions lie within both arrays. -/
def column? (A : Csc α) (j : Nat) : Option (List (Nat × α)) := do
  let (start, stop) ← A.span? j
  return (← slice? A.rowval start stop).toList.zip (← slice? A.nzval start stop).toList

/-- The entries of the block `B`, whose first row and column are `row` and `col`, in the storage
order of `B`. -/
def fillBlock? (C B : Csc α) (row col : Nat) (shape : Orientation) : Option (Csc α) :=
  (List.range B.cols).foldlM (fun C j => do
    (← B.column? j).foldlM (fun C (i, a) =>
      match shape with
      | .normal => C.put? (i + row) (j + col) a
      | .transposed => C.put? (j + row) (i + col) a) C) C

/-- The value `a` once in each column from `col` on, in the given rows. -/
def fillUnits? (C : Csc α) (rows : List Nat) (a : α) (col : Nat) : Option (Csc α) :=
  rows.zipIdx.foldlM (fun C (i, k) => C.put? i (col + k) a) C

/-- After filling, the pointer of a column stands where the next column starts. -/
def closeColumns (C : Csc α) : Csc α :=
  { C with colptr := #[0] ++ C.colptr.pop }

/-- Room for `nnz` entries, with nothing counted yet. -/
def emptyCounts (rows cols nnz : Nat) : Csc α :=
  { blank rows cols nnz with colptr := Array.replicate (cols + 1) 0 }

end Csc

/-! ### Blocks -/

/-- A matrix with its first entry in row `row` and column `col`, or the value `a` once in each
column from `col` on, in the given rows. -/
inductive Block (α : Type)
  | matrix (B : Csc α) (row col : Nat) (shape : Orientation)
  | units (rows : List Nat) (a : α) (col : Nat)

namespace Block

def count? (C : Csc α) : Block α → Option (Csc α)
  | matrix B _ col shape => C.countBlock? B col shape
  | units rows _ col => C.countUnits? col rows.length

def fill? (C : Csc α) : Block α → Option (Csc α)
  | matrix B row col shape => C.fillBlock? B row col shape
  | units rows a col => C.fillUnits? rows a col

end Block

namespace Csc

/-- The matrix that consists of the blocks, which have `nnz` entries altogether. -/
def assemble? (rows cols nnz : Nat) (blocks : List (Block α)) : Option (Csc α) := do
  let C ← blocks.foldlM Block.count? (emptyCounts rows cols nnz)
  let C ← blocks.foldlM Block.fill? C.startFromCounts
  return C.closeColumns

/-- The row indices of every column of the result ascend. -/
def transpose? (A : Csc α) : Option (Csc α) := do
  assemble? A.cols A.rows (← A.nnz?) [.matrix A 0 0 .transposed]

/-- The columns of `A` and then those of `B`, which has as many rows, with room for `nnz`
entries. -/
def hcatWithin? (A B : Csc α) (nnz : Nat) : Option (Csc α) :=
  if A.rows ≠ B.rows then none
  else
    assemble? A.rows (A.cols + B.cols) nnz
      [.matrix A 0 0 .normal, .matrix B 0 A.cols .normal]

def hcat? (A B : Csc α) : Option (Csc α) := do
  A.hcatWithin? B ((← A.nnz?) + (← B.nnz?))

end Csc

end LpPresolve
