import LpPresolve.Limits
import LpPresolve.Proofs.Demands
import LpPresolve.Proofs.Program.Validity
import LpPresolve.Scalar.Binary

/-! The order of the format check. What `WellFormed` demands is a list of demands, and the check reports
the first one that is not met. With one array of marks for all columns nothing is read out of range, and
the outcome is the same: while a column is read, its own number marks the rows that it had, and every
other mark is of an earlier column or of none. -/

namespace LpPresolve

variable {α : Type} [Scalar α] {A : Csc α}

namespace Csc

/-! ### Demands -/

/-- What is demanded before any row index is looked at. -/
def arrayDemands (A : Csc α) : List (Demand FormatError) :=
  [⟨A.rowval.size = A.nzval.size, .incompatibleDimension⟩,
    ⟨A.colptr.size = A.cols + 1, .incompatibleDimension⟩,
    ⟨A.colptr[0]? = some 0 ∧ A.colptr.toList.Pairwise (· ≤ ·), .badColptr⟩,
    ⟨A.colptr[A.cols]? = some A.rowval.size, .incompatibleDimension⟩,
    ⟨∀ a ∈ A.nzval, Scalar.isFinite a = true, .badNzval⟩]

/-- An index is in range and not among those before it. -/
def rowDemands (rows : Nat) : List Nat → List Nat → List (Demand FormatError)
  | _, [] => []
  | before, i :: r =>
    ⟨i < rows, .badRowval⟩ :: ⟨i ∉ before, .duplicateEntry⟩ :: rowDemands rows (before ++ [i]) r

omit [Scalar α] in
/-- The row indices of column `j` in storage order. -/
def columnDemands (A : Csc α) (j : Nat) : List (Demand FormatError) :=
  rowDemands A.rows [] ((A.column j).map (·.1))

/-- What is demanded of a matrix, in the order of the checks: column by column, entry by entry. -/
def demands (A : Csc α) : List (Demand FormatError) :=
  A.arrayDemands ++ (List.range A.cols).flatMap A.columnDemands

/-! ### The check -/

theorem unordered_iff {q : Prop} [Decidable (¬ q)] (ns : List Nat) :
    (decide (¬ q) || !nondecreasing ns) = true ↔ ¬ (q ∧ ns.Pairwise (· ≤ ·)) := by
  rw [← nondecreasing_iff_pairwise, Bool.or_eq_true, decide_eq_true_eq, Bool.not_eq_true', not_and_or,
    Bool.not_eq_true]

theorem not_isFinite_iff (v : Vec α) :
    (!v.isFinite) = true ↔ ¬ ∀ a ∈ v, Scalar.isFinite a = true := by
  rw [Bool.not_eq_true', ← Bool.not_eq_true, not_iff_not]
  exact Array.all_eq_true_iff_forall_mem

theorem checks_arrays (A : Csc α) : Checks A.arrayDemands A.checkArrays := by
  unfold arrayDemands checkArrays
  exact .cons Iff.rfl fun _ => .cons Iff.rfl fun _ => .cons (unordered_iff _) fun _ =>
    .cons Iff.rfl fun _ => .cons (not_isFinite_iff _) fun _ => .ok ()

theorem checks_rows {rows : Nat} {before : List Nat} {seen : Std.HashSet Nat}
    (hseen : ∀ i, i ∈ seen ↔ i ∈ before) (is : List Nat) :
    Checks (rowDemands rows before is) (checkRows rows is seen) := by
  induction is generalizing before seen with
  | nil => exact .ok ()
  | cons i r ih =>
    rw [rowDemands, checkRows]
    refine .cons Nat.not_lt.symm fun _ => .cons ?_ fun _ => ih fun k => ?_
    · rw [Std.HashSet.contains_iff_mem, hseen, not_not]
    · rw [Std.HashSet.mem_insert, beq_iff_eq, hseen, List.mem_append, List.mem_singleton, or_comm,
        @eq_comm _ i]

omit [Scalar α] in
theorem checks_columns (A : Csc α) :
    Checks ((List.range A.cols).flatMap A.columnDemands) A.checkColumns :=
  .forM fun _ _ => checks_rows (by simp) _

theorem checks_format (A : Csc α) : Checks A.demands A.checkFormat :=
  A.checks_arrays.bind fun _ _ => A.checks_columns

theorem forall_demands_iff (A : Csc α) : (∀ d ∈ A.demands, d.met) ↔ A.WellFormed := by
  rw [← A.checks_format.exists_ok_iff, ← A.checkFormat_eq_ok_iff]
  exact ⟨fun ⟨_, h⟩ => h, fun h => ⟨_, h⟩⟩

end Csc

namespace Limited

open Csc

/-! ### Marks -/

/-- The marks when column `j` has had the indices in `before`. -/
structure Marked (rows j : Nat) (before : List Nat) (marks : Array Nat) : Prop where
  size_eq : marks.size = rows
  mem_iff : ∀ i : Nat, i < rows → (marks[i]? = some j ↔ i ∈ before)
  /-- A later column finds no mark of its own. -/
  fresh : ∀ k, j < k → k < wordSize - 1 → ∀ i : Nat, marks[i]? ≠ some k

namespace Marked

variable {rows j : Nat} {before : List Nat} {marks : Array Nat}

theorem start (rows : Nat) : Marked rows 0 [] (Array.replicate rows (wordSize - 1)) where
  size_eq := Array.size_replicate
  mem_iff i hi := by simp [hi, wordSize]
  fresh k _ hk i := by
    rw [Array.getElem?_replicate]
    split_ifs
    · simp only [ne_eq, Option.some_inj]
      omega
    · exact nofun

/-- The marks need not be cleared for the next column. -/
theorem next (h : Marked rows j before marks) (hj : j + 1 < wordSize - 1) :
    Marked rows (j + 1) [] marks where
  size_eq := h.size_eq
  mem_iff i _ := by simp [h.fresh (j + 1) (Nat.lt_succ_self j) hj i]
  fresh k hk := h.fresh k (Nat.lt_of_succ_lt hk)

theorem mark (h : Marked rows j before marks) (i : Nat) :
    Marked rows j (before ++ [i]) (marks.set! i j) where
  size_eq := by simp [h.size_eq]
  mem_iff k hk := by
    rw [Array.set!_eq_setIfInBounds, Array.getElem?_setIfInBounds, List.mem_append,
      List.mem_singleton]
    by_cases hik : i = k
    · simp [hik, h.size_eq, hk]
    · simp [hik, h.mem_iff k hk, Ne.symm hik]
  fresh k hk hk' p := by
    rw [Array.set!_eq_setIfInBounds, Array.getElem?_setIfInBounds]
    split_ifs
    · simp only [ne_eq, Option.some_inj]
      omega
    · exact nofun
    · exact h.fresh k hk hk' p

/-- One column. -/
theorem markRows? (h : Marked rows j before marks) (is : List Nat) :
    ∃ r, markRows? rows j is marks = some r ∧ Checks (rowDemands rows before is) r ∧
      ∀ marks', r = .ok marks' → Marked rows j (before ++ is) marks' := by
  induction is generalizing before marks with
  | nil =>
    refine ⟨.ok marks, rfl, .ok marks, ?_⟩
    rintro _ ⟨⟩
    rwa [List.append_nil]
  | cons i r ih =>
    rw [rowDemands, Limited.markRows?]
    by_cases hi : i < rows
    · obtain ⟨k, hget⟩ : ∃ k, marks[i]? = some k :=
        ⟨_, Array.getElem?_eq_getElem (h.size_eq.symm ▸ hi)⟩
      have hmem := h.mem_iff i hi
      rw [hget, Option.some_inj] at hmem
      simp only [if_neg (Nat.not_le.2 hi), hget]
      by_cases hdup : i ∈ before
      · rw [if_pos (hmem.2 hdup)]
        exact ⟨_, rfl, .later hi (.here (not_not.2 hdup)), nofun⟩
      · rw [if_neg (mt hmem.1 hdup)]
        obtain ⟨x, hx, hchecks, hmarked⟩ := ih (h.mark i)
        exact ⟨x, hx, .later hi (.later hdup hchecks), by simpa using hmarked⟩
    · rw [if_pos (Nat.not_lt.1 hi)]
      exact ⟨_, rfl, .here hi, nofun⟩

end Marked

omit [Scalar α] in
/-- Pointers that ascend to the number of entries cut out a part of the row indices for each column. -/
theorem exists_slice_column (hsize : A.colptr.size = A.cols + 1)
    (hmono : A.colptr.toList.Pairwise (· ≤ ·)) (hlast : A.colptr[A.cols]? = some A.rowval.size)
    (hval : A.rowval.size = A.nzval.size) {j : Nat} (hj : j < A.cols) :
    ∃ p q rows, A.span? j = some (p, q) ∧ slice? A.rowval p q = some rows ∧
      rows.toList = (A.column j).map (·.1) := by
  have hle : ∀ {i k : Nat} (hik : i ≤ k) (hk : k < A.colptr.size), A.colptr[i] ≤ A.colptr[k] := by
    intro i k hik hk
    simpa using hmono.rel_get_of_le (a := ⟨i, by simp; omega⟩) (b := ⟨k, by simpa⟩) hik
  have hstart : A.span? j = some (A.colptr[j], A.colptr[j + 1]) := by
    rw [span?, Array.getElem?_eq_getElem (by omega), Array.getElem?_eq_getElem (by omega)]
    rfl
  rw [Array.getElem?_eq_getElem (by omega), Option.some_inj] at hlast
  refine ⟨_, _, _, hstart, slice?_eq_some_iff.2 ⟨⟨hle (Nat.le_succ j) (by omega), ?_⟩, rfl⟩, ?_⟩
  · exact hlast ▸ hle hj (by omega)
  · rw [column, List.map_fst_zip (by simp [hval])]
    simp [Array.getD_eq_getD_getElem?, hsize, show j < A.cols + 1 by omega, hj]

omit [Scalar α] in
/-- All columns from `j` on. -/
theorem Marked.markColumns? (hsize : A.colptr.size = A.cols + 1)
    (hmono : A.colptr.toList.Pairwise (· ≤ ·)) (hlast : A.colptr[A.cols]? = some A.rowval.size)
    (hval : A.rowval.size = A.nzval.size) (hc : A.cols + 1 < wordSize) (n : Nat) {j : Nat}
    {marks : Array Nat} (hj : j + n ≤ A.cols) (h : Marked A.rows j [] marks) :
    Answers ((List.range' j n).flatMap A.columnDemands) (markColumns? A (List.range' j n) marks) := by
  induction n generalizing j marks with
  | zero => exact ⟨_, rfl, .ok ()⟩
  | succ n ih =>
    obtain ⟨p, q, rows, hspan, hslice, hrows⟩ :=
      exists_slice_column hsize hmono hlast hval (j := j) (by omega)
    obtain ⟨x, hx, hchecks, hmarked⟩ := h.markRows? rows.toList
    rw [hrows] at hchecks
    rw [List.range'_succ, List.flatMap_cons, Limited.markColumns?, hspan]
    simp only [Option.bind_eq_bind, Option.bind_some, hslice, hx]
    cases x with
    | error e => exact ⟨_, rfl, hchecks.bind (f := fun _ => .ok ()) nofun⟩
    | ok marks' =>
      obtain ⟨r, hr, hrest⟩ := ih (by omega) ((hmarked marks' rfl).next (by omega))
      exact ⟨r, hr, hchecks.bind (f := fun _ => r) fun _ _ => hrest⟩

theorem answers_checkFormat? (hc : A.cols + 1 < wordSize) (hr : A.rows < arrayLimit) :
    Answers A.demands (checkFormat? A) := by
  unfold checkFormat? demands arrayDemands
  rw [Nat.mod_eq_of_lt hc]
  refine .cons Iff.rfl fun hval => .cons Iff.rfl fun hsize => ?_
  obtain ⟨first, hfirst⟩ : ∃ k, A.colptr[0]? = some k := ⟨_, Array.getElem?_eq_getElem (by omega)⟩
  obtain ⟨last, hlast⟩ : ∃ k, A.colptr[A.cols]? = some k := ⟨_, Array.getElem?_eq_getElem (by omega)⟩
  rw [hfirst, hlast, Option.some_inj, Option.some_inj]
  simp only [Option.bind_eq_bind, Option.bind_some]
  refine .cons (unordered_iff _) fun hptr => .cons Iff.rfl fun hend =>
    .cons (not_isFinite_iff _) fun _ => ?_
  rw [if_pos hr, List.range_eq_range']
  exact (Marked.start A.rows).markColumns? hsize hptr.2 (hlast.trans (congrArg some hend)) hval hc
    A.cols (Nat.zero_add _).le

/-- The check ends without reading out of range, for any matrix whose pointers can be counted and whose
marks can be stored. It passes exactly the well-formed matrices, and of another one it reports the first
demand that is not met. -/
theorem checkFormat?_decides (hc : A.cols + 1 < wordSize) (hr : A.rows < arrayLimit) :
    ∃ r, checkFormat? A = some r ∧ (r = .ok () ↔ A.WellFormed) ∧
      (∀ e, r = .error e ↔ FirstFault A.demands e) ∧ r = A.checkFormat := by
  obtain ⟨r, hr, hchecks⟩ := answers_checkFormat? hc hr
  have heq := hchecks.unique A.checks_format
  exact ⟨r, hr, heq ▸ A.checkFormat_eq_ok_iff, hchecks, heq⟩

/-- Both columns have the last row. The second one has the row before it twice, and then a row that does
not exist. -/
def repeating : Csc Float := ⟨3, 2, #[0, 2, 6], #[2, 0, 1, 2, 1, 3], #[1, 1, 1, 1, 1, 1]⟩

theorem checkFormat?_decides_repeating :
    checkFormat? repeating = some (.error .duplicateEntry) ∧ ¬ repeating.WellFormed ∧
      FirstFault repeating.demands .duplicateEntry := by
  have hrun : checkFormat? repeating = some (.error .duplicateEntry) := by decide +kernel
  obtain ⟨r, hr, hok, herror, -⟩ := checkFormat?_decides (A := repeating) (by decide) (by decide)
  obtain rfl := Option.some_inj.1 (hrun.symm.trans hr)
  exact ⟨hr, mt hok.2 nofun, (herror _).1 rfl⟩

end Limited

end LpPresolve
