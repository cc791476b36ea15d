import LpPresolve.DenseColumns
import LpPresolve.Equilibration
import LpPresolve.Point
import LpPresolve.Sparse.Format

/-! Limits of storage. The numbers of rows and columns of a raw matrix are words that no array has
to agree with, while the length of an array is bounded. The operations below have no result where
they would need a longer array, and their sums are taken modulo the word size; on sizes within
those limits they are the operations of the same name elsewhere. -/

namespace LpPresolve

/-- The bytes of an array of words are counted by a signed word, so its length stays below this. -/
def arrayLimit : Nat := 1 <<< 60

/-- One entry without a result leaves the list without one. -/
theorem mapM_eq_none_of_mem {β γ : Type} {f : β → Option γ} {xs : List β} {x : β} (h : x ∈ xs)
    (hx : f x = none) : xs.mapM f = none := by
  induction xs with
  | nil => simp at h
  | cons y r ih =>
    rcases List.mem_cons.1 h with rfl | h
    · simp [hx]
    · cases hy : f y <;> simp [hy, ih h]

theorem Csc.last_mem_of_not_hasColumns {α : Type} {A : Csc α} {n : Nat} (h : ¬ A.HasColumns n) :
    n - 1 ∈ List.range n := by
  simp only [HasColumns, not_or] at h
  exact List.mem_range.2 (by omega)

namespace Limited

variable {α : Type} [Scalar α]

/-! ### Constructors -/

def blank? (rows cols nnz : Nat) : Option (Csc α) :=
  if cols + 1 < arrayLimit ∧ nnz < arrayLimit then some (.blank rows cols nnz) else none

def identity? (n : Nat) : Option (Csc α) :=
  if n + 1 < arrayLimit then some (.identity n) else none

def zeroPoint? (n m : Nat) : Option (UserPoint α) :=
  if n < arrayLimit ∧ m < arrayLimit then some (.zero n m) else none

/-! ### Format -/

/-- The row indices of column `j`. A row is marked with the last column that had it. -/
def markRows? (rows j : Nat) :
    List Nat → Array Nat → Option (Except FormatError (Array Nat))
  | [], marks => some (.ok marks)
  | i :: r, marks =>
    if rows ≤ i then some (.error .badRowval)
    else match marks[i]? with
      | none => none
      | some k =>
        if k = j then some (.error .duplicateEntry) else markRows? rows j r (marks.set! i j)

/-- The columns in the list, one after another. The marks are never cleared. -/
def markColumns? (A : Csc α) : List Nat → Array Nat → Option (Except FormatError Unit)
  | [], _ => some (.ok ())
  | j :: js, marks => do
    let (start, stop) ← A.span? j
    match ← markRows? A.rows j (← slice? A.rowval start stop).toList marks with
    | .error e => return .error e
    | .ok marks => markColumns? A js marks

/-- The check with one mark for every row; the last word marks the rows that no column has had. Without
any pointer there is no first one to look at, although the empty array has the length asked for if
`A.cols + 1` is zero as a word. -/
def checkFormat? (A : Csc α) : Option (Except FormatError Unit) :=
  if A.rowval.size ≠ A.nzval.size then some (.error .incompatibleDimension)
  else if A.colptr.size ≠ (A.cols + 1) % wordSize then some (.error .incompatibleDimension)
  else do
    if (← A.colptr[0]?) ≠ 0 || !Csc.nondecreasing A.colptr.toList then return .error .badColptr
    if (← A.colptr[A.cols]?) ≠ A.rowval.size then return .error .incompatibleDimension
    if !Vec.isFinite A.nzval then return .error .badNzval
    if A.rows < arrayLimit then
      markColumns? A (List.range A.cols) (Array.replicate A.rows (wordSize - 1))
    else none

/-! ### Assembly -/

/-- The transpose has a pointer for every row, and one more. -/
def transpose? (A : Csc α) : Option (Csc α) := do
  if A.rows + 1 < arrayLimit ∧ (← A.nnz?) < arrayLimit then A.transpose? else none

theorem transpose?_eq {A : Csc α} {nnz : Nat} (h : A.nnz? = some nnz)
    (hr : A.rows + 1 < arrayLimit) (hn : nnz < arrayLimit) : transpose? A = A.transpose? := by
  simp [transpose?, h, hr, hn]

def hcat? (A B : Csc α) : Option (Csc α) := do
  let nnz := ((← A.nnz?) + (← B.nnz?)) % wordSize
  if nnz < arrayLimit then A.hcatWithin? B nnz else none

theorem hcat?_eq {A B : Csc α} {nnzA nnzB : Nat} (hA : A.nnz? = some nnzA)
    (hB : B.nnz? = some nnzB) (h : nnzA + nnzB < arrayLimit) : hcat? A B = A.hcat? B := by
  have hw : nnzA + nnzB < wordSize := Nat.lt_trans h (by decide)
  simp [hcat?, Csc.hcat?, hA, hB, h, Nat.mod_eq_of_lt hw]

/-! ### Norms and scaling -/

/-- Stops before the first column if the last one is missing. -/
def colNorms? (A : Csc α) (n : Nat) : Option (Vec α) :=
  if A.HasColumns n then A.colNorms? n else none

theorem colNorms?_eq (A : Csc α) (n : Nat) : colNorms? A n = A.colNorms? n := by
  by_cases h : A.HasColumns n
  · rw [colNorms?, if_pos h]
  · rw [colNorms?, if_neg h, Csc.colNorms?, mapM_eq_none_of_mem (Csc.last_mem_of_not_hasColumns h)
      (by simp [Csc.span?_eq_none_of_not_hasColumns h])]
    simp

def rowNorms? (A : Csc α) (n : Nat) : Option (Vec α) :=
  if n < arrayLimit then A.rowNorms? n else none

def equilibrate? (A : Csc α) (maxRounds : Nat) : Option (Equilibration α) :=
  if A.rows < arrayLimit ∧ A.cols < arrayLimit then A.equilibrate? maxRounds else none

/-! ### Dense columns -/

/-- The counts from the first gap on, with products that stop at the last word. -/
def denseSuffix (settings : Settings) : List Nat → List Nat
  | a :: b :: r =>
    if max settings.denseMinNnz (min (settings.denseRatio * a) (wordSize - 1)) < b then b :: r
    else denseSuffix settings (b :: r)
  | _ => []

/-- If no column is dense, the number of rows may be the last word, and the count after it is 0. -/
def denseColumns? (settings : Settings) (A : Csc α) (rows cols : Nat) : Option DenseColumns := do
  if A.HasColumns cols then
    let counts ← (List.range cols).mapM A.colNnz?
    match denseSuffix settings (counts.mergeSort (· ≤ ·)) with
    | [] => return ⟨0, (rows + 1) % wordSize⟩
    | n :: r =>
      return if r.length + 1 ≤ settings.denseMaxCols then ⟨r.length + 1, n⟩
        else ⟨0, (rows + 1) % wordSize⟩
  else none

/-! ### Dualization -/

/-- Twice the number of variables is a word. -/
def dualizes (policy : DualizePolicy) (numConstr numVar : Nat) : Bool :=
  policy.dualizes numConstr (2 * numVar % wordSize / 2)

theorem dualizes_eq (policy : DualizePolicy) (numConstr : Nat) {numVar : Nat}
    (h : 2 * numVar < wordSize) :
    dualizes policy numConstr numVar = policy.dualizes numConstr numVar := by
  rw [dualizes, Nat.mod_eq_of_lt h, Nat.mul_div_cancel_left _ (by decide)]

end Limited

end LpPresolve
