import LpPresolve.Proofs.Equilibration.Rounds
import LpPresolve.Proofs.Exact.Magnitudes
import LpPresolve.Proofs.Exact.Matrices

/-! Equilibration in exact arithmetic. Every factor is a power of two, so the factors of the rounds
multiply up: a round shifts the exponents of the values and those of the factors alike, and after any
number of rounds the matrix is the original one, with every entry times the factors of its row and
column. -/

namespace LpPresolve

open Extended

/-- Every entry is a positive rational. -/
def Vec.Positive (v : Vec Extended) : Prop := ∀ i < v.size, ∃ q > 0, v.entry i = finite q

theorem Vec.Positive.value_pos {v : Vec Extended} (h : v.Positive) {i : Nat} (hi : i < v.size) :
    0 < v.value i := by
  obtain ⟨q, hq, hv⟩ := h i hi
  rwa [value_of_entry hv]

theorem Vec.Positive.entry_eq {v : Vec Extended} (h : v.Positive) {i : Nat} (hi : i < v.size) :
    v.entry i = finite (v.value i) := by
  obtain ⟨q, hq, hv⟩ := h i hi
  rw [value_of_entry hv, hv]

theorem Vec.Positive.entry_mul {v f : Vec Extended} (hf : f.Positive) {i : Nat} (hv : i < v.size)
    (hi : i < f.size) {q : Rat} (h : v.entry i = finite q) :
    (v.mul f).entry i = finite (q * f.value i) := by
  rw [Vec.entry_mul v f hv hi, h, hf.entry_eq hi, finite_mul_finite]

theorem Vec.Positive.entry_div {v f : Vec Extended} (hf : f.Positive) {i : Nat} (hv : i < v.size)
    (hi : i < f.size) {d : Rat} (hd : d ≠ 0) {a : Extended} (h : v.entry i = a / finite d) :
    (v.div f).entry i = a / finite (d * f.value i) := by
  rw [Vec.entry_div v f hv hi, h, hf.entry_eq hi, div_div_finite hd (hf.value_pos hi)]

/-! ### Exponents of norms -/

namespace Csc

open Scalar

/-- The exponent of the largest magnitude in column `j`. -/
def colExponent (A : Csc Extended) (j : Nat) : Int :=
  binaryExponent (largest ((A.column j).map (·.2)))

/-- The exponent of the largest magnitude in row `i`. -/
def rowExponent (A : Csc Extended) (i : Nat) : Int :=
  binaryExponent (largest ((A.row i).map (·.2)))

end Csc

namespace Equilibration

theorem factor_eq (e : Int) : (factor e : Extended) = finite (2 ^ halfway e) := by
  rw [factor, halfway]
  split_ifs
  · exact exp2_eq _
  · exact exp2_eq _
  · rw [zpow_zero, one_eq]

section Norms

variable {A : Csc Extended} {c r : Vec Extended}

theorem entry_colFactors (hA : A.Layout) (hc : A.colNorms? A.cols = some c) {j : Nat}
    (hj : j < A.cols) : (factors c).entry j = finite (2 ^ halfway (A.colExponent j)) := by
  rw [entry_factors (hj.trans_eq (Csc.size_of_colNorms? hc).symm), factor_eq,
    ← Option.some_inj.1 (hA.colNorms?_eq.symm.trans hc), Vec.entry_range _ _ hj, Csc.colExponent]

theorem entry_rowFactors (hA : A.Layout) (hr : A.rowNorms? A.rows = some r) {i : Nat}
    (hi : i < A.rows) : (factors r).entry i = finite (2 ^ halfway (A.rowExponent i)) := by
  rw [entry_factors (hi.trans_eq (Csc.size_of_rowNorms? hr).symm), factor_eq,
    ← Option.some_inj.1 (hA.rowNorms?_eq.symm.trans hr), Vec.entry_range _ _ hi, Csc.rowExponent]

end Norms

/-- Leaving out factors of 1 makes no difference. -/
theorem entry_combine (s f : Vec Extended) {i : Nat} (hi : i < s.size) (hi' : i < f.size) :
    (combine s f).entry i = s.entry i * f.entry i := by
  rw [entry_combine_eq s f hi hi']
  split_ifs with h
  · rw [(beq_iff.1 h).2, one_eq, mul_one_finite]
  · rfl

/-! ### States -/

/-- A finite matrix with a factor for every column and row. -/
structure Proper (E : Equilibration Extended) : Prop where
  layout : E.matrix.Layout
  finite : E.matrix.Finite
  size_colscale : E.colscale.size = E.matrix.cols
  size_rowscale : E.rowscale.size = E.matrix.rows

/-- The state `E'` is `E` with the exponents of row `i` moved by `r i` and those of column `j` by
`c j`, in the matrix and in the factors alike. -/
structure Shifts (E E' : Equilibration Extended) (r c : Nat → Int) : Prop where
  mapped : E.matrix.Mapped E'.matrix fun i j a => a * Extended.finite (2 ^ (r i + c j))
  size_colscale : E'.colscale.size = E.colscale.size
  size_rowscale : E'.rowscale.size = E.rowscale.size
  colscale : ∀ j < E.matrix.cols,
    E'.colscale.entry j = E.colscale.entry j * Extended.finite (2 ^ c j)
  rowscale : ∀ i < E.matrix.rows,
    E'.rowscale.entry i = E.rowscale.entry i * Extended.finite (2 ^ r i)

variable {A : Csc Extended} {E E' E₁ : Equilibration Extended} {r c r' c' : Nat → Int} {n : Nat}

theorem proper_start (hA : A.Layout) (hf : A.Finite) : Proper (start A) where
  layout := hA
  finite := hf
  size_colscale := Array.size_replicate
  size_rowscale := Array.size_replicate

namespace Shifts

theorem refl (E : Equilibration Extended) : Shifts E E (fun _ => 0) fun _ => 0 where
  mapped := .refl _ fun _ _ _ a => mul_one_finite a
  size_colscale := rfl
  size_rowscale := rfl
  colscale _ _ := (mul_one_finite _).symm
  rowscale _ _ := (mul_one_finite _).symm

theorem trans (h : Shifts E E₁ r c) (h' : Shifts E₁ E' r' c') :
    Shifts E E' (fun i => r i + r' i) fun j => c j + c' j where
  mapped := (h.mapped.trans h'.mapped).congr fun j _ e _ => by
    rw [mul_mul_finite (two_zpow_pos _) (two_zpow_pos _), ← two_zpow_add, add_add_add_comm]
  size_colscale := h'.size_colscale.trans h.size_colscale
  size_rowscale := h'.size_rowscale.trans h.size_rowscale
  colscale j hj := by
    rw [h'.colscale j (h.mapped.cols_eq.symm ▸ hj), h.colscale j hj,
      mul_mul_finite (two_zpow_pos _) (two_zpow_pos _), ← two_zpow_add]
  rowscale i hi := by
    rw [h'.rowscale i (h.mapped.rows_eq.symm ▸ hi), h.rowscale i hi,
      mul_mul_finite (two_zpow_pos _) (two_zpow_pos _), ← two_zpow_add]

theorem proper (h : Shifts E E' r c) (hE : Proper E) : Proper E' where
  layout := h.mapped.layout hE.layout
  finite := h.mapped.finite_of fun j hj e he => by
    rw [isFinite_mul (two_zpow_pos _).ne', hE.finite j hj e he]
  size_colscale := by rw [h.size_colscale, hE.size_colscale, h.mapped.cols_eq]
  size_rowscale := by rw [h.size_rowscale, hE.size_rowscale, h.mapped.rows_eq]

/-- The exponents of the factors, when the rounds begin with factors of 1. -/
theorem colscale_start (h : Shifts (start A) E r c) {j : Nat} (hj : j < A.cols) :
    E.colscale.entry j = Extended.finite (2 ^ c j) := by
  rw [h.colscale j hj, start, Vec.entry_replicate 1 hj, one_eq, finite_mul_finite, one_mul]

theorem rowscale_start (h : Shifts (start A) E r c) {i : Nat} (hi : i < A.rows) :
    E.rowscale.entry i = Extended.finite (2 ^ r i) := by
  rw [h.rowscale i hi, start, Vec.entry_replicate 1 hi, one_eq, finite_mul_finite, one_mul]

end Shifts

/-- What a round does. -/
theorem Round.shifts (h : Round E E₁) (hE : Proper E) :
    Shifts E E₁ (fun i => halfway (E.matrix.rowExponent i))
      fun j => halfway (E.matrix.colExponent j) := by
  obtain ⟨c, r, hc, hr, hcs, hrs, hcol, hrow, hmap⟩ := h.exists_factors hE.layout
  have hcf := fun j (hj : j < E.matrix.cols) => entry_colFactors hE.layout hc hj
  have hrf := fun i (hi : i < E.matrix.rows) => entry_rowFactors hE.layout hr hi
  refine ⟨hmap.congr fun j hj e he => ?_, ?_, ?_, fun j hj => ?_, fun i hi => ?_⟩
  · rw [hcf j hj, hrf e.1 (hE.layout.row_lt j hj e he), finite_mul_finite, two_zpow_add]
  · simp [hcol, combine, hcs, hE.size_colscale]
  · simp [hrow, combine, hrs, hE.size_rowscale]
  · rw [hcol, entry_combine _ _ (hE.size_colscale.symm ▸ hj) (hcs.symm ▸ hj), hcf j hj]
  · rw [hrow, entry_combine _ _ (hE.size_rowscale.symm ▸ hi) (hrs.symm ▸ hi), hrf i hi]

/-- What a run does. -/
theorem exists_shifts_of_run? (hE : Proper E) (hrun : run? n E = some E') :
    ∃ r c, Shifts E E' r c :=
  run?_keeps (P := fun E' => ∃ r c, Shifts E E' r c)
    (fun hround ⟨_, _, h⟩ => ⟨_, _, h.trans (hround.shifts (h.proper hE))⟩) ⟨_, _, .refl E⟩ hrun

/-- The matrix of `E` is `A`, scaled by the factors of `E`. -/
structure Balances (A : Csc Extended) (E : Equilibration Extended) : Prop where
  mapped : A.Mapped E.matrix fun i j a => a * (E.rowscale.entry i * E.colscale.entry j)
  size_colscale : E.colscale.size = A.cols
  size_rowscale : E.rowscale.size = A.rows
  positive_colscale : E.colscale.Positive
  positive_rowscale : E.rowscale.Positive

theorem Shifts.balances (h : Shifts (start A) E r c) (hA : A.Layout) : Balances A E := by
  have hcs : E.colscale.size = A.cols := h.size_colscale.trans Array.size_replicate
  have hrs : E.rowscale.size = A.rows := h.size_rowscale.trans Array.size_replicate
  refine ⟨h.mapped.congr fun j hj e he => ?_, hcs, hrs, fun j hj => ?_, fun i hi => ?_⟩
  · rw [h.colscale_start hj, h.rowscale_start (hA.row_lt j hj e he), finite_mul_finite,
      two_zpow_add]
  · exact ⟨_, two_zpow_pos _, h.colscale_start (hcs ▸ hj)⟩
  · exact ⟨_, two_zpow_pos _, h.rowscale_start (hrs ▸ hi)⟩

end Equilibration

namespace Csc

variable {A : Csc Extended} {E : Equilibration Extended} {n : Nat}

theorem exists_shifts_of_equilibrate? (hA : A.Layout) (hf : A.Finite)
    (h : A.equilibrate? n = some E) : ∃ r c, (Equilibration.start A).Shifts E r c := by
  rw [equilibrate?_eq_some_iff] at h
  split_ifs at h
  · exact h ▸ ⟨_, _, .refl _⟩
  · exact Equilibration.exists_shifts_of_run? (Equilibration.proper_start hA hf) h

theorem balances_of_equilibrate? (hA : A.Layout) (hf : A.Finite)
    (h : A.equilibrate? n = some E) : Equilibration.Balances A E := by
  obtain ⟨r, c, hshifts⟩ := exists_shifts_of_equilibrate? hA hf h
  exact hshifts.balances hA

end Csc

end LpPresolve
