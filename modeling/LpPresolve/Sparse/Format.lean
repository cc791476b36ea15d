import LpPresolve.Sparse.Basic
import Std.Data.HashSet

/-! The format of a matrix: what `WellFormed` demands, and the check that reports the first
violation. The check looks at the array lengths first, then at the column pointers, the values
and, column by column in storage order, the row indices. -/

namespace LpPresolve

inductive FormatError
  | incompatibleDimension | badColptr | badRowval | duplicateEntry | badNzval
  deriving DecidableEq

def FormatError.message : FormatError → String
  | incompatibleDimension => "Matrix dimension fields and/or array lengths are incompatible"
  | badColptr => "Bad column pointer values"
  | badRowval => "Row value exceeds the matrix row dimension"
  | duplicateEntry => "Row index appears more than once within a column"
  | badNzval => "Matrix contains a non-finite value"

namespace Csc

variable {α : Type} [Scalar α]

/-- The row indices of a column need not ascend, and a stored value may be zero. -/
structure WellFormed (A : Csc α) : Prop where
  size_rowval : A.rowval.size = A.nzval.size
  size_colptr : A.colptr.size = A.cols + 1
  colptr_zero : A.colptr[0]? = some 0
  colptr_mono : ∀ j < A.cols, A.colptr.getD j 0 ≤ A.colptr.getD (j + 1) 0
  colptr_last : A.colptr[A.cols]? = some A.rowval.size
  finite : ∀ a ∈ A.nzval, Scalar.isFinite a = true
  row_lt : ∀ j < A.cols, ∀ e ∈ A.column j, e.1 < A.rows
  nodup : ∀ j < A.cols, ((A.column j).map (·.1)).Nodup

/-- Whether no entry is larger than the next. -/
def nondecreasing : List Nat → Bool
  | a :: b :: r => a ≤ b && nondecreasing (b :: r)
  | _ => true

theorem nondecreasing_iff_pairwise (ns : List Nat) :
    nondecreasing ns = true ↔ ns.Pairwise (· ≤ ·) := by
  induction ns with
  | nil => simp [nondecreasing]
  | cons a r ih =>
    cases r with
    | nil => simp [nondecreasing]
    | cons b r =>
      simp only [nondecreasing, Bool.and_eq_true, decide_eq_true_eq, ih, List.pairwise_cons,
        List.mem_cons, forall_eq_or_imp]
      exact ⟨fun ⟨h, hb, hr⟩ => ⟨⟨h, fun c hc => Nat.le_trans h (hb c hc)⟩, hb, hr⟩,
        fun ⟨⟨h, _⟩, hb, hr⟩ => ⟨h, hb, hr⟩⟩

/-- The first row index of a column that is out of range or was seen before decides. -/
def checkRows (rows : Nat) : List Nat → Std.HashSet Nat → Except FormatError Unit
  | [], _ => .ok ()
  | i :: r, seen =>
    if rows ≤ i then .error .badRowval
    else if seen.contains i then .error .duplicateEntry
    else checkRows rows r (seen.insert i)

theorem checkRows_eq_ok_iff (rows : Nat) (is : List Nat) (seen : Std.HashSet Nat) :
    checkRows rows is seen = .ok () ↔ (∀ i ∈ is, i < rows ∧ i ∉ seen) ∧ is.Nodup := by
  induction is generalizing seen with
  | nil => simp [checkRows]
  | cons j r ih =>
    by_cases hj : rows ≤ j
    · simp [checkRows, hj, Nat.not_lt.2 hj]
    by_cases hs : j ∈ seen
    · simp [checkRows, hj, hs]
    rw [checkRows, if_neg hj, if_neg (by simpa using hs), ih]
    simp only [Std.HashSet.mem_insert, beq_iff_eq, not_or, List.forall_mem_cons, List.nodup_cons]
    constructor
    · intro ⟨h, hr⟩
      exact ⟨⟨⟨Nat.not_le.1 hj, hs⟩, fun i hi => ⟨(h i hi).1, (h i hi).2.2⟩⟩,
        fun hmem => (h j hmem).2.1 rfl, hr⟩
    · intro ⟨⟨_, h⟩, hmem, hr⟩
      exact ⟨fun i hi => ⟨(h i hi).1, fun e => hmem (e ▸ hi), (h i hi).2⟩, hr⟩

/-- The part of the check that comes before the row indices. -/
def checkArrays (A : Csc α) : Except FormatError Unit :=
  if A.rowval.size ≠ A.nzval.size then .error .incompatibleDimension
  else if A.colptr.size ≠ A.cols + 1 then .error .incompatibleDimension
  else if A.colptr[0]? ≠ some 0 || !nondecreasing A.colptr.toList then .error .badColptr
  else if A.colptr[A.cols]? ≠ some A.rowval.size then .error .incompatibleDimension
  else if !Vec.isFinite A.nzval then .error .badNzval
  else .ok ()

/-- The check of the row indices, column by column. -/
def checkColumns (A : Csc α) : Except FormatError Unit :=
  (List.range A.cols).forM fun j => checkRows A.rows ((A.column j).map (·.1)) ∅

def checkFormat (A : Csc α) : Except FormatError Unit := do
  A.checkArrays
  A.checkColumns

end Csc

end LpPresolve
