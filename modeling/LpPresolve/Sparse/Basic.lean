import LpPresolve.Vec

/-! Sparse matrices in compressed column form. The fields are raw: nothing ties them together
until the format has been checked, and every operation that would read or write outside an array
has the result `none`. `column` and `entry` are the two views of a matrix: the stored pairs of a
column in storage order, and the dense matrix they add up to. -/

namespace LpPresolve

/-- Column `j` is stored at the positions from `colptr[j]` up to `colptr[j + 1]`. -/
structure Csc (α : Type) where
  rows : Nat
  cols : Nat
  colptr : Array Nat
  rowval : Array Nat
  nzval : Vec α

/-- The number of words. Pointers and counts are words of 64 bits. -/
def wordSize : Nat := 1 <<< 64

/-- A matrix as it is, or as its transpose. -/
inductive Orientation
  | normal | transposed
  deriving DecidableEq, Inhabited

/-- The entries from `start` up to `stop`, if the range lies within the array. -/
def slice? {β : Type} (xs : Array β) (start stop : Nat) : Option (Array β) :=
  if start ≤ stop ∧ stop ≤ xs.size then some (xs.extract start stop) else none

theorem slice?_eq_some_iff {β : Type} {xs ys : Array β} {start stop : Nat} :
    slice? xs start stop = some ys ↔
      (start ≤ stop ∧ stop ≤ xs.size) ∧ xs.extract start stop = ys := by
  by_cases h : start ≤ stop ∧ stop ≤ xs.size <;> simp [slice?, h]

namespace Csc

variable {α : Type}

/-! ### Views -/

/-- The row indices and values stored in column `j`. -/
def column (A : Csc α) (j : Nat) : List (Nat × α) :=
  let start := A.colptr.getD j 0
  let stop := A.colptr.getD (j + 1) 0
  (A.rowval.extract start stop).toList.zip (A.nzval.extract start stop).toList

def entry [Scalar α] (A : Csc α) (i j : Nat) : α :=
  ((A.column j).filter (·.1 = i)).foldl (fun s e => s + e.2) 0

/-! ### Constructors -/

/-- Ties the lengths of the arrays together, and nothing else. -/
def ofArrays? (rows cols : Nat) (colptr rowval : Array Nat) (nzval : Vec α) : Option (Csc α) :=
  if rowval.size = nzval.size ∧ colptr.size = cols + 1 ∧ colptr[cols]? = some rowval.size then
    some ⟨rows, cols, colptr, rowval, nzval⟩
  else none

/-- Room for `nnz` entries, all of them zeros in the first row of the last column. -/
def blank [Scalar α] (rows cols nnz : Nat) : Csc α where
  rows := rows
  cols := cols
  colptr := (Array.replicate cols 0).push nnz
  rowval := Array.replicate nnz 0
  nzval := Vec.zeros nnz

def identity [Scalar α] (n : Nat) : Csc α where
  rows := n
  cols := n
  colptr := Array.range (n + 1)
  rowval := Array.range n
  nzval := Array.replicate n 1

/-- From the rows of a dense matrix. Zeros of either sign are not stored. -/
def ofRows [Scalar α] (cols : Nat) (dense : List (Vec α)) : Csc α :=
  let columns := (List.range cols).map fun j =>
    dense.zipIdx.filterMap fun (row, i) =>
      let a := Vec.entry row j
      if a == 0 then none else some (i, a)
  { rows := dense.length
    cols := cols
    colptr := columns.foldl (fun ptr c => ptr.push (ptr.back?.getD 0 + c.length)) #[0]
    rowval := (columns.flatten.map (·.1)).toArray
    nzval := (columns.flatten.map (·.2)).toArray }

/-! ### Counts -/

/-- The number of stored entries according to the last column pointer. -/
def nnz? (A : Csc α) : Option Nat := A.colptr[A.cols]?

/-- The first position of column `j` and the one after its last. -/
def span? (A : Csc α) (j : Nat) : Option (Nat × Nat) := do
  return (← A.colptr[j]?, ← A.colptr[j + 1]?)

/-- Whether each of the first `n` columns has both of its pointers. -/
def HasColumns (A : Csc α) (n : Nat) : Prop := n = 0 ∨ n < A.colptr.size

instance (A : Csc α) (n : Nat) : Decidable (A.HasColumns n) := inferInstanceAs (Decidable (_ ∨ _))

theorem span?_eq_none_of_not_hasColumns {A : Csc α} {n : Nat} (h : ¬ A.HasColumns n) :
    A.span? (n - 1) = none := by
  simp only [HasColumns, not_or, Nat.not_lt] at h
  have hn : n - 1 + 1 = n := by omega
  cases hs : A.colptr[n - 1]? <;> simp [span?, hs, hn, Array.getElem?_eq_none h.2]

/-- The number of entries stored in column `j`, the difference of its pointers as words. -/
def colNnz? (A : Csc α) (j : Nat) : Option Nat := do
  let (start, stop) ← A.span? j
  return if start ≤ stop then stop - start else stop + wordSize - start

end Csc

end LpPresolve
