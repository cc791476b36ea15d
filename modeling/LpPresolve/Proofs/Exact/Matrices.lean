import LpPresolve.Proofs.Exact.Vectors
import LpPresolve.Proofs.Sparse.Concatenation
import LpPresolve.Proofs.Sparse.Norms
import LpPresolve.Proofs.Sparse.Product
import Mathlib.Algebra.BigOperators.Group.Finset.Piecewise
import Mathlib.Algebra.BigOperators.Group.Finset.Sigma
import Mathlib.Algebra.BigOperators.Ring.Finset
import Mathlib.Tactic.Ring

/-! Matrices of finite values. Entry by entry such a matrix is a function to the rationals, and the
sparse products are those of this function with vectors. -/

namespace LpPresolve

open Extended

/-! ### Pairs of an index and a value -/

/-- The sum of the values with index `i`. -/
def sumAt (es : List (Nat × Extended)) (i : Nat) : Rat :=
  ((es.filter (·.1 = i)).map (·.2.value)).sum

@[simp] theorem sumAt_nil (i : Nat) : sumAt [] i = 0 := rfl

theorem sumAt_cons (e : Nat × Extended) (es : List (Nat × Extended)) (i : Nat) :
    sumAt (e :: es) i = (if e.1 = i then e.2.value else 0) + sumAt es i := by
  by_cases h : e.1 = i <;> simp [sumAt, h]

theorem sumAt_singleton (k : Nat) (a : Extended) (i : Nat) :
    sumAt [(k, a)] i = if k = i then a.value else 0 := by
  rw [sumAt_cons, sumAt_nil, add_zero]

/-- A sum over pairs is a sum over the indices. -/
theorem sum_map_mul_eq {es : List (Nat × Extended)} {n : Nat} (h : ∀ e ∈ es, e.1 < n)
    (x : Nat → Rat) :
    (es.map fun e => e.2.value * x e.1).sum = ∑ i ∈ Finset.range n, sumAt es i * x i := by
  induction es with
  | nil => simp
  | cons e r ih =>
    obtain ⟨he, hr⟩ := List.forall_mem_cons.1 h
    rw [List.map_cons, List.sum_cons, ih hr]
    simp only [sumAt_cons, add_mul, Finset.sum_add_distrib, ite_mul, zero_mul]
    rw [Finset.sum_ite_eq, if_pos (Finset.mem_range.2 he)]

namespace Csc

/-! ### Entries -/

def Finite (A : Csc Extended) : Prop :=
  ∀ j < A.cols, ∀ e ∈ A.column j, Scalar.isFinite e.2 = true

/-- The rational in row `i` and column `j`. -/
def value (A : Csc Extended) (i j : Nat) : Rat := (A.entry i j).value

/-- Row `i` times a vector. -/
def rowDot (A : Csc Extended) (i : Nat) (x : Nat → Rat) : Rat :=
  ∑ j ∈ Finset.range A.cols, A.value i j * x j

/-- Column `j` times a vector. -/
def colDot (A : Csc Extended) (j : Nat) (y : Nat → Rat) : Rat :=
  ∑ i ∈ Finset.range A.rows, A.value i j * y i

variable {A : Csc Extended}

theorem rowDot_congr {x x' : Nat → Rat} (h : ∀ j < A.cols, x j = x' j) (i : Nat) :
    A.rowDot i x = A.rowDot i x' :=
  Finset.sum_congr rfl fun j hj => by rw [h j (Finset.mem_range.1 hj)]

theorem colDot_congr {y y' : Nat → Rat} (h : ∀ i < A.rows, y i = y' i) (j : Nat) :
    A.colDot j y = A.colDot j y' :=
  Finset.sum_congr rfl fun i hi => by rw [h i (Finset.mem_range.1 hi)]

theorem rowDot_neg (A : Csc Extended) (i : Nat) (x : Nat → Rat) :
    A.rowDot i (fun j => -x j) = -A.rowDot i x := by
  simp only [rowDot, mul_neg, Finset.sum_neg_distrib]

/-- The matrix passes from one factor of a product to the other as its transpose. -/
theorem sum_colDot_mul (A : Csc Extended) (x y : Nat → Rat) :
    ∑ j ∈ Finset.range A.cols, A.colDot j y * x j =
      ∑ i ∈ Finset.range A.rows, A.rowDot i x * y i := by
  simp only [colDot, rowDot, Finset.sum_mul]
  rw [Finset.sum_comm]
  refine Finset.sum_congr rfl fun i _ => Finset.sum_congr rfl fun j _ => ?_
  ring

theorem WellFormed.finite_column (h : A.WellFormed) : A.Finite := by
  intro j _ e he
  apply h.finite
  have hmem := (List.of_mem_zip he).2
  simp only [Array.toList_extract] at hmem
  exact Array.mem_toList_iff.1 (List.mem_of_mem_drop (List.mem_of_mem_take hmem))

theorem Finite.value_eq (h : A.Finite) (i : Nat) {j : Nat} (hj : j < A.cols) :
    A.value i j = sumAt (A.column j) i := by
  have hfold := foldl_add_finite ((A.column j).filter (·.1 = i)) (fun e => e.2.value) 0
  have hcongr : ∀ es : List (Nat × Extended), (∀ e ∈ es, Scalar.isFinite e.2 = true) → ∀ s,
      es.foldl (fun s e => s + e.2) s = es.foldl (fun s e => s + finite e.2.value) s := by
    intro es hes s
    induction es generalizing s with
    | nil => rfl
    | cons e r ih =>
      obtain ⟨he, hr⟩ := List.forall_mem_cons.1 hes
      rw [List.foldl_cons, List.foldl_cons, ih hr, ← eq_finite_value he]
  rw [value, entry, hcongr _ (fun e he => h j hj e (List.mem_filter.1 he).1), zero_eq, hfold,
    value_finite, zero_add]
  rfl

/-- The row list of a matrix holds its row. -/
theorem Finite.sumAt_row (h : A.Finite) (i : Nat) {j : Nat} (hj : j < A.cols) :
    sumAt (A.row i) j = A.value i j := by
  rw [h.value_eq i hj, sumAt, row, List.filter_flatMap,
    flatMap_range_eq_single hj fun k _ hk => by simp [List.filter_map, Function.comp_def, hk]]
  simp [sumAt, List.filter_map, Function.comp_def]

theorem Mapped.finite_of {B : Csc Extended} {f : Nat → Nat → Extended → Extended}
    (h : A.Mapped B f)
    (hf : ∀ j < A.cols, ∀ e ∈ A.column j, Scalar.isFinite (f e.1 j e.2) = true) : B.Finite := by
  intro j hj e he
  have hj := h.cols_eq ▸ hj
  rw [h.column j hj] at he
  obtain ⟨d, hd, rfl⟩ := List.mem_map.1 he
  exact hf j hj d hd

/-- Factors on the stored values are factors on the entries. -/
theorem Mapped.value_eq {B : Csc Extended} {f : Nat → Nat → Extended → Extended}
    (h : A.Mapped B f) (hA : A.Finite) {g : Nat → Nat → Rat}
    (hf : ∀ j < A.cols, ∀ e ∈ A.column j, f e.1 j e.2 = finite (e.2.value * g e.1 j))
    (i : Nat) {j : Nat} (hj : j < A.cols) : B.value i j = A.value i j * g i j := by
  have hB : B.Finite := h.finite_of fun j hj e he => hf j hj e he ▸ isFinite_finite _
  rw [hB.value_eq i (h.cols_eq.symm ▸ hj), hA.value_eq i hj, h.column j hj]
  have hes := hf j hj
  generalize A.column j = es at hes ⊢
  induction es with
  | nil => simp
  | cons e r ih =>
    obtain ⟨he, hr⟩ := List.forall_mem_cons.1 hes
    rw [List.map_cons, sumAt_cons, sumAt_cons, ih hr, add_mul, he, value_finite]
    by_cases hei : e.1 = i <;> simp [hei]

/-! ### Products -/

/-- A product with the matrix or its transpose, as an entry of the result. -/
def dotAt (A : Csc Extended) : Orientation → Nat → (Nat → Rat) → Rat
  | .normal => A.rowDot
  | .transposed => A.colDot

theorem sum_line (hA : A.Layout) (hf : A.Finite) (shape : Orientation) {i : Nat}
    (hi : i < A.outer shape) (x : Nat → Rat) :
    ((A.line shape i).map fun e => e.2.value * x e.1).sum = A.dotAt shape i x := by
  cases shape with
  | normal =>
    rw [line, sum_map_mul_eq fun e he => (mem_row.1 he).1]
    exact Finset.sum_congr rfl fun j hj => by rw [hf.sumAt_row i (Finset.mem_range.1 hj)]
  | transposed =>
    rw [line, sum_map_mul_eq (hA.row_lt i hi)]
    exact Finset.sum_congr rfl fun k _ => by rw [hf.value_eq k hi]

theorem Finite.isFinite_line (hf : A.Finite) (shape : Orientation) {i : Nat}
    (hi : i < A.outer shape) : ∀ e ∈ A.line shape i, Scalar.isFinite e.2 = true := by
  cases shape with
  | normal => exact fun e he => hf e.1 (mem_row.1 he).1 (i, e.2) (mem_row.1 he).2
  | transposed => exact hf i hi

theorem accumulate_finite (a s v x : Rat) :
    accumulate (finite a) (finite s) (finite v) (finite x) = finite (s + a * (v * x)) := by
  have hneg : (-1 : Extended) = finite (-1) := rfl
  rw [accumulate, hneg, one_eq]
  simp only [finite_beq_finite, decide_eq_true_eq]
  by_cases h₁ : a = 1
  · simp [h₁]
  by_cases h₂ : a = -1
  · rw [if_neg h₁, if_pos h₂, h₂, finite_mul_finite, finite_sub_finite, neg_one_mul,
      sub_eq_add_neg]
  · simp [h₁, h₂, mul_assoc]

theorem entry_scaleTarget_finite (b : Rat) {y : Vec Extended} (hy : y.isFinite = true) {i : Nat}
    (hi : i < y.size) : (scaleTarget (finite b) y).entry i = finite (b * y.value i) := by
  have hneg : (-1 : Extended) = finite (-1) := rfl
  have hget := y.getElem?_eq_some_entry hi
  rw [Vec.entry_eq_finite hy] at hget
  rw [scaleTarget, hneg, one_eq, zero_eq]
  simp only [finite_beq_finite, decide_eq_true_eq]
  split_ifs with h₀ h₁ h₂
  · rw [Vec.fill, Vec.entry_map _ _ hget, h₀, zero_mul]
  · rw [Vec.entry_eq_finite hy, h₁, one_mul]
  · rw [Vec.entry_negate _ hi, Vec.entry_eq_finite hy, h₂, neg_finite, neg_one_mul]
  · rw [Vec.scale, Vec.entry_map _ _ hget, finite_mul_finite, mul_comm]

/-- A run along a line whose steps add the terms of a product. -/
theorem foldl_line_finite {f : Extended → Nat × Extended → Extended} {a : Rat} {x : Nat → Rat}
    {es : List (Nat × Extended)}
    (hf : ∀ e ∈ es, ∀ s, f (finite s) e = finite (s + a * (e.2.value * x e.1))) (s : Rat) :
    es.foldl f (finite s) = finite (s + a * (es.map fun e => e.2.value * x e.1).sum) := by
  induction es generalizing s with
  | nil => simp
  | cons e r ih =>
    obtain ⟨he, hr⟩ := List.forall_mem_cons.1 hf
    rw [List.foldl_cons, he, ih hr, List.map_cons, List.sum_cons, mul_add, add_assoc]

theorem addLine_finite (a : Rat) {x : Vec Extended} (hx : x.isFinite = true)
    {es : List (Nat × Extended)} (hes : ∀ e ∈ es, Scalar.isFinite e.2 = true) (s : Rat) :
    addLine (finite a) x (finite s) es =
      finite (s + a * (es.map fun e => e.2.value * x.value e.1).sum) := by
  by_cases ha : a = 0
  · simp [addLine, zero_eq, ha]
  · rw [addLine, if_neg (by simp [zero_eq, ha])]
    refine foldl_line_finite (fun e he s => ?_) s
    rw [eq_finite_value (hes e he), Vec.entry_eq_finite hx, accumulate_finite]
    rfl

/-- Sparse products are products. -/
theorem gemv?_finite (hA : A.Layout) (hf : A.Finite) (shape : Orientation) (a : Rat)
    {x : Vec Extended} (hx : x.isFinite = true) (hxs : x.size = A.inner shape)
    (b : Rat) {y : Vec Extended} (hy : y.isFinite = true) (hys : y.size = A.outer shape) :
    ∃ r, A.gemv? shape (finite a) x (finite b) y = some r ∧ r.size = A.outer shape ∧
      ∀ i < A.outer shape, r.entry i = finite (b * y.value i + a * A.dotAt shape i x.value) := by
  obtain ⟨r, hr, hrs, hentry⟩ := hA.gemv?_entries shape (finite a) hxs (finite b) hys
  refine ⟨r, hr, hrs, fun i hi => ?_⟩
  rw [hentry i hi, entry_scaleTarget_finite b hy (hys.symm ▸ hi),
    addLine_finite a hx (hf.isFinite_line shape hi), sum_line hA hf shape hi]

end Csc

end LpPresolve
