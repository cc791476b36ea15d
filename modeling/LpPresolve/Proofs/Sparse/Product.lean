import LpPresolve.Proofs.Folds
import LpPresolve.Proofs.Sparse.Blocks
import LpPresolve.Sparse.Product
import Mathlib.Tactic.SplitIfs

/-! Products as folds over the stored entries. Both products run through the triples of the matrix
in storage order, and each triple changes one entry of the result, its target, by one entry of the
given vector, its source. An entry of the result is therefore a fold over the triples that have it
as their target, and these are its line: a row of the matrix, or a column for the transpose. -/

namespace LpPresolve

variable {α : Type}

/-- The index of the entry of the given vector that a triple reads. -/
def Orientation.source : Orientation → Nat × Nat × α → Nat
  | normal, t => t.2.1
  | transposed, t => t.1

/-- The index of the entry of the result that a triple changes. -/
def Orientation.target : Orientation → Nat × Nat × α → Nat
  | normal, t => t.1
  | transposed, t => t.2.1

namespace Csc

/-- The length of the vector that the matrix or its transpose is multiplied with. -/
def inner (A : Csc α) : Orientation → Nat
  | .normal => A.cols
  | .transposed => A.rows

/-- The length of a product with the matrix or its transpose. -/
def outer (A : Csc α) : Orientation → Nat
  | .normal => A.rows
  | .transposed => A.cols

theorem Layout.source_lt {A : Csc α} (h : A.Layout) (shape : Orientation) {t : Nat × Nat × α}
    (ht : t ∈ A.triples) : shape.source t < A.inner shape := by
  obtain ⟨hj, he⟩ := mem_triples.1 ht
  cases shape with
  | normal => exact hj
  | transposed => exact h.row_lt _ hj _ he

theorem Layout.target_lt {A : Csc α} (h : A.Layout) (shape : Orientation) {t : Nat × Nat × α}
    (ht : t ∈ A.triples) : shape.target t < A.outer shape := by
  obtain ⟨hj, he⟩ := mem_triples.1 ht
  cases shape with
  | normal => exact h.row_lt _ hj _ he
  | transposed => exact hj

/-- The values that make up entry `i` of a product, each with the index of the entry of the given
vector that it is multiplied with. -/
def line (A : Csc α) : Orientation → Nat → List (Nat × α)
  | .normal => A.row
  | .transposed => A.column

theorem map_filter_target (A : Csc α) (shape : Orientation) {i : Nat} (hi : i < A.outer shape) :
    (A.triples.filter (shape.target · = i)).map (fun t => (shape.source t, t.2.2)) =
      A.line shape i := by
  cases shape with
  | normal =>
    rw [triples, List.filter_flatMap, List.map_flatMap, line, row]
    simp only [Orientation.target, Orientation.source, List.filter_map, List.map_map,
      Function.comp_def]
    rfl
  | transposed => exact A.columnOf_triples hi

variable [Scalar α]

@[simp] theorem size_scaleTarget (b : α) (y : Vec α) : (scaleTarget b y).size = y.size := by
  unfold scaleTarget
  split_ifs <;> simp

theorem Layout.pairs?_eq {A : Csc α} (h : A.Layout) {j : Nat} (hj : j < A.cols) :
    A.pairs? (A.start j) (A.start (j + 1)) = some (A.column j) := by
  unfold pairs?
  split_ifs with hle
  · have hnil : (A.column j).length = 0 := by rw [h.length_column hj]; omega
    rw [List.length_eq_zero_iff.1 hnil]
  · rw [h.slice?_eq hj _ h.size_rowval, h.slice?_eq hj _ rfl]
    rfl

/-- One triple of a product. -/
def addTriple (shape : Orientation) (a : α) (x y : Vec α) (t : Nat × Nat × α) : Vec α :=
  y.setIfInBounds (shape.target t)
    (accumulate a (y.entry (shape.target t)) t.2.2 (x.entry (shape.source t)))

@[simp] theorem size_addTriple (shape : Orientation) (a : α) (x y : Vec α) (t : Nat × Nat × α) :
    (addTriple shape a x y t).size = y.size := by
  simp [addTriple]

theorem size_foldl_addTriple (shape : Orientation) (a : α) (x y : Vec α)
    (ts : List (Nat × Nat × α)) : (ts.foldl (addTriple shape a x) y).size = y.size :=
  Vec.size_foldl_setIfInBounds shape.target
    (fun s t => accumulate a s t.2.2 (x.entry (shape.source t))) ts y

/-- An entry of the result sees the triples with this target, in their order. -/
theorem entry_foldl_addTriple (shape : Orientation) (a : α) (x y : Vec α)
    (ts : List (Nat × Nat × α)) {i : Nat} (hi : i < y.size) :
    (ts.foldl (addTriple shape a x) y).entry i =
      (ts.filter (shape.target · = i)).foldl
        (fun s t => accumulate a s t.2.2 (x.entry (shape.source t))) (y.entry i) :=
  Vec.entry_foldl_setIfInBounds shape.target
    (fun s t => accumulate a s t.2.2 (x.entry (shape.source t))) ts y hi

/-- One triple of a product, if its source and target exist. -/
def addTriple? (shape : Orientation) (a : α) (x y : Vec α) (t : Nat × Nat × α) :
    Option (Vec α) := do
  return y.setIfInBounds (shape.target t)
    (accumulate a (← y[shape.target t]?) t.2.2 (← x[shape.source t]?))

theorem addTriple?_eq {shape : Orientation} {x y : Vec α} {t : Nat × Nat × α}
    (hs : shape.source t < x.size) (ht : shape.target t < y.size) (a : α) :
    addTriple? shape a x y t = some (addTriple shape a x y t) := by
  simp [addTriple?, addTriple, Vec.getElem?_eq_some_entry _ hs, Vec.getElem?_eq_some_entry _ ht]

theorem Layout.gemv?_eq_foldlM {A : Csc α} (h : A.Layout) (shape : Orientation) {a : α}
    (ha : (a == 0) = false) {x : Vec α} (hx : x.size = A.inner shape) (b : α) {y : Vec α}
    (hy : y.size = A.outer shape) :
    A.gemv? shape a x b y = A.triples.foldlM (addTriple? shape a x) (scaleTarget b y) := by
  have hcol : ∀ j < A.cols, ∀ {γ : Type} (f : List (Nat × α) → Option γ),
      (do let s ← A.span? j
          f (← A.pairs? s.1 s.2)) = f (A.column j) := fun j hj γ f => by
    simp [h.span?_eq hj, h.pairs?_eq hj]
  rw [triples, foldlM_flatMap]
  cases shape with
  | normal =>
    rw [gemv?, if_neg (by simp [ha]), if_neg (by
      rw [h.nnz?_eq, size_scaleTarget, hx, hy]
      simp [inner, outer])]
    apply foldlM_congr_mem
    intro j hj y
    rw [List.foldlM_map]
    exact hcol j (List.mem_range.1 hj) _
  | transposed =>
    rw [gemv?, if_neg (by simp [ha]), if_neg (by
      rw [h.nnz?_eq, size_scaleTarget, hx, hy]
      simp [inner, outer])]
    apply foldlM_congr_mem
    intro j hj y
    rw [List.foldlM_map]
    exact hcol j (List.mem_range.1 hj) _

/-- With a factor other than zero, a product succeeds on vectors of the right lengths. -/
theorem Layout.gemv?_eq {A : Csc α} (h : A.Layout) (shape : Orientation) {a : α}
    (ha : (a == 0) = false) {x : Vec α} (hx : x.size = A.inner shape) (b : α) {y : Vec α}
    (hy : y.size = A.outer shape) :
    A.gemv? shape a x b y = some (A.triples.foldl (addTriple shape a x) (scaleTarget b y)) := by
  rw [h.gemv?_eq_foldlM shape ha hx b hy]
  refine (foldlM_eq_some_foldl (fun y : Vec α => y.size = A.outer shape) (fun t ht y hy => ?_)
    (by simpa using hy)).1
  have hs := h.source_lt shape ht
  have hg := h.target_lt shape ht
  rw [← hx] at hs
  rw [← hy] at hg
  exact ⟨addTriple?_eq hs hg a, by simpa using hy⟩

/-- What a line adds to `s`, entry by entry. A factor of zero stops before the first one. -/
def addLine (a : α) (x : Vec α) (s : α) (es : List (Nat × α)) : α :=
  if a == 0 then s else es.foldl (fun s e => accumulate a s e.2 (x.entry e.1)) s

/-- A product succeeds on vectors of the right lengths, and each entry is added up along its line. -/
theorem Layout.gemv?_entries {A : Csc α} (h : A.Layout) (shape : Orientation) (a : α) {x : Vec α}
    (hx : x.size = A.inner shape) (b : α) {y : Vec α} (hy : y.size = A.outer shape) :
    ∃ r, A.gemv? shape a x b y = some r ∧ r.size = A.outer shape ∧ ∀ i < A.outer shape,
      r.entry i = addLine a x ((scaleTarget b y).entry i) (A.line shape i) := by
  have hsize : (scaleTarget b y).size = A.outer shape := by rw [size_scaleTarget, hy]
  cases ha : a == 0 with
  | true => exact ⟨_, if_pos ha, hsize, fun i _ => (if_pos ha).symm⟩
  | false =>
    refine ⟨_, h.gemv?_eq shape ha hx b hy, by rw [size_foldl_addTriple, hsize], fun i hi => ?_⟩
    rw [entry_foldl_addTriple _ _ _ _ _ (hsize.symm ▸ hi), addLine, if_neg (by simp [ha]),
      ← A.map_filter_target shape hi, List.foldl_map]

end Csc

end LpPresolve
