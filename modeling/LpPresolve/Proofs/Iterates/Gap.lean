import LpPresolve.Proofs.Interior.Solver

/-! Exact iterates of the solver: points that meet the equations of the form and of its dual, at the
distances from the bounds that they claim. The products of distance and multiplier of such a point make
up the gap between its two objective values. For a point of a program the gap has to be corrected by
the residuals of rows and columns. -/

namespace LpPresolve

open Extended

/-! ### Iterates -/

/-- A finite point that meets the equations of the form and those of its dual, at the given distances
from the bounds. Infinite bounds are infinitely far and have no multiplier. -/
@[mk_iff]
structure SolverInterior.Solves (s : SolverInterior Extended) (F : Form Extended) : Prop where
  fits : s.Fits F.rows F.cols
  finite_x : s.x.isFinite = true
  finite_y : s.y.isFinite = true
  finite_zl : s.zl.isFinite = true
  finite_zu : s.zu.isFinite = true
  row : ∀ i < F.rows, F.AI.rowDot i s.x.value = F.b.value i
  column : ∀ j < F.cols + F.rows,
    F.AI.colDot j s.y.value + s.zl.value j - s.zu.value j = F.c.value j
  lower : ∀ j < F.cols + F.rows, if Scalar.isFinite (F.lb.entry j) = true then
    s.xl.entry j = finite (s.x.value j - F.lb.value j) else s.xl.entry j = top ∧ s.zl.value j = 0
  upper : ∀ j < F.cols + F.rows, if Scalar.isFinite (F.ub.entry j) = true then
    s.xu.entry j = finite (F.ub.value j - s.x.value j) else s.xu.entry j = top ∧ s.zu.value j = 0

instance (s : SolverInterior Extended) (F : Form Extended) : Decidable (s.Solves F) :=
  decidable_of_iff _ (s.solves_iff F).symm

/-- In the identity block a column with two equal bounds has their value. -/
def SolverInterior.KeepsFixed (s : SolverInterior Extended) (F : Form Extended) : Prop :=
  ∀ k < F.rows, F.lb.entry (F.cols + k) = F.ub.entry (F.cols + k) →
    s.x.entry (F.cols + k) = F.lb.entry (F.cols + k)

instance (s : SolverInterior Extended) (F : Form Extended) : Decidable (s.KeepsFixed F) :=
  inferInstanceAs (Decidable (∀ k < F.rows, _ → _))

/-- How far a column of the identity block is off the value of its two bounds, if they are equal. -/
def SolverInterior.fixedOffset (s : SolverInterior Extended) (F : Form Extended) (k : Nat) : Rat :=
  if F.lb.entry (F.cols + k) = F.ub.entry (F.cols + k) then
    s.x.value (F.cols + k) - F.lb.value (F.cols + k) else 0

namespace Form

/-- The dual objective value `b' y + lb' zl - ub' zu` over the finite bounds. -/
def dualValue (F : Form Extended) (s : SolverInterior Extended) : Rat :=
  ∑ i ∈ Finset.range F.rows, F.b.value i * s.y.value i +
    ∑ j ∈ Finset.range (F.cols + F.rows) with Scalar.isFinite (F.lb.entry j) = true,
      F.lb.value j * s.zl.value j -
    ∑ j ∈ Finset.range (F.cols + F.rows) with Scalar.isFinite (F.ub.entry j) = true,
      F.ub.value j * s.zu.value j

/-- The products of distance and multiplier over the finite bounds. -/
def complementarity (F : Form Extended) (s : SolverInterior Extended) : Rat :=
  ∑ j ∈ Finset.range (F.cols + F.rows) with Scalar.isFinite (F.lb.entry j) = true,
      s.xl.value j * s.zl.value j +
    ∑ j ∈ Finset.range (F.cols + F.rows) with Scalar.isFinite (F.ub.entry j) = true,
      s.xu.value j * s.zu.value j

/-- The products of distance and multiplier of the columns of the identity block whose two bounds are
equal. -/
def fixedComplementarity (F : Form Extended) (s : SolverInterior Extended) : Rat :=
  ∑ k ∈ Finset.range F.rows with F.lb.entry (F.cols + k) = F.ub.entry (F.cols + k),
    (s.xl.value (F.cols + k) * s.zl.value (F.cols + k) +
      s.xu.value (F.cols + k) * s.zu.value (F.cols + k))

/-- Two equal bounds are finite. -/
theorem Exact.isFinite_of_eq {F : Form Extended} (hF : F.Exact) {j : Nat}
    (hj : j < F.cols + F.rows) (heq : F.lb.entry j = F.ub.entry j) :
    Scalar.isFinite (F.lb.entry j) = true := by
  rcases hF.lower j hj with hfin | hbottom
  · exact hfin
  · rcases hF.upper j hj with hfin | htop
    · exact heq ▸ hfin
    · exact Extended.noConfusion (hbottom.symm.trans (heq.trans htop))

end Form

/-! ### The duality gap -/

theorem sum_filter_mul {n : Nat} {p : Nat → Bool} {d f z : Nat → Rat}
    (hd : ∀ j < n, p j = true → d j = f j) (hz : ∀ j < n, p j = false → z j = 0) :
    ∑ j ∈ Finset.range n with p j = true, d j * z j = ∑ j ∈ Finset.range n, f j * z j := by
  rw [Finset.sum_filter]
  apply Finset.sum_congr rfl
  intro j hj
  have hj := Finset.mem_range.1 hj
  split_ifs with hp
  · rw [hd j hj hp]
  · rw [hz j hj (by simpa using hp), mul_zero]

/-- The products of distances and multipliers add up to the gap between the two objective values, up to
the residuals of the rows and those of the columns. -/
theorem Csc.sum_distances_eq (A : Csc Extended) (x y zl zu slack b c lb ub : Nat → Rat) :
    ∑ j ∈ Finset.range A.cols, (x j - lb j) * zl j +
        ∑ j ∈ Finset.range A.cols, (ub j - x j) * zu j -
          ∑ i ∈ Finset.range A.rows, y i * slack i =
      ∑ j ∈ Finset.range A.cols, c j * x j -
        (∑ i ∈ Finset.range A.rows, b i * y i + ∑ j ∈ Finset.range A.cols, lb j * zl j -
          ∑ j ∈ Finset.range A.cols, ub j * zu j) +
        ∑ i ∈ Finset.range A.rows, (b i - slack i - A.rowDot i x) * y i -
          ∑ j ∈ Finset.range A.cols, (c j - zl j + zu j - A.colDot j y) * x j := by
  have hcost : ∑ j ∈ Finset.range A.cols, (c j - zl j + zu j - A.colDot j y) * x j =
      ∑ j ∈ Finset.range A.cols, c j * x j - ∑ j ∈ Finset.range A.cols, x j * zl j +
        ∑ j ∈ Finset.range A.cols, x j * zu j -
          ∑ j ∈ Finset.range A.cols, A.colDot j y * x j := by
    rw [← Finset.sum_sub_distrib, ← Finset.sum_add_distrib, ← Finset.sum_sub_distrib]
    apply Finset.sum_congr rfl
    intro j _
    ring
  have hrhs : ∑ i ∈ Finset.range A.rows, (b i - slack i - A.rowDot i x) * y i =
      ∑ i ∈ Finset.range A.rows, b i * y i - ∑ i ∈ Finset.range A.rows, y i * slack i -
        ∑ i ∈ Finset.range A.rows, A.rowDot i x * y i := by
    rw [← Finset.sum_sub_distrib, ← Finset.sum_sub_distrib]
    apply Finset.sum_congr rfl
    intro i _
    ring
  simp only [sub_mul _ _ (zl _), sub_mul _ _ (zu _), Finset.sum_sub_distrib]
  rw [hcost, hrhs, Csc.sum_colDot_mul]
  ring

namespace SolverInterior.Solves

variable {F : Form Extended} {s : SolverInterior Extended}

theorem finite (h : s.Solves F) : s.Finite F where
  x := h.finite_x
  y := h.finite_y
  zl := h.finite_zl
  zu := h.finite_zu
  xl j hj hfin := by
    have hl := h.lower j hj
    rw [if_pos hfin] at hl
    exact hl ▸ isFinite_finite _
  xu j hj hfin := by
    have hu := h.upper j hj
    rw [if_pos hfin] at hu
    exact hu ▸ isFinite_finite _

variable {j : Nat}

theorem xl_eq (h : s.Solves F) (hj : j < F.cols + F.rows)
    (hfin : Scalar.isFinite (F.lb.entry j) = true) : s.xl.value j = s.x.value j - F.lb.value j := by
  have hl := h.lower j hj
  rw [if_pos hfin] at hl
  exact Vec.value_of_entry hl

theorem xu_eq (h : s.Solves F) (hj : j < F.cols + F.rows)
    (hfin : Scalar.isFinite (F.ub.entry j) = true) : s.xu.value j = F.ub.value j - s.x.value j := by
  have hu := h.upper j hj
  rw [if_pos hfin] at hu
  exact Vec.value_of_entry hu

theorem zl_eq_zero (h : s.Solves F) (hj : j < F.cols + F.rows)
    (hinf : Scalar.isFinite (F.lb.entry j) = false) : s.zl.value j = 0 := by
  have hl := h.lower j hj
  rw [if_neg (by simp [hinf])] at hl
  exact hl.2

theorem zu_eq_zero (h : s.Solves F) (hj : j < F.cols + F.rows)
    (hinf : Scalar.isFinite (F.ub.entry j) = false) : s.zu.value j = 0 := by
  have hu := h.upper j hj
  rw [if_neg (by simp [hinf])] at hu
  exact hu.2

/-- Within the bounds a fixed column has no choice. -/
theorem keepsFixed (h : s.Solves F) (hb : ∀ j < F.cols + F.rows,
    F.lb.entry j ≤ s.x.entry j ∧ s.x.entry j ≤ F.ub.entry j) : s.KeepsFixed F := by
  intro k hk heq
  obtain ⟨hl, hu⟩ := hb (F.cols + k) (by omega)
  rw [Vec.entry_eq_finite h.finite_x] at hl hu ⊢
  rw [← heq] at hu
  cases hlb : F.lb.entry (F.cols + k) with
  | finite q =>
    rw [hlb, finite_le_finite] at hl hu
    rw [le_antisymm hl hu]
  | bottom => exact absurd (hlb ▸ hu) (not_finite_le_bottom _)
  | top => exact absurd (hlb ▸ hl) (not_top_le_finite _)
  | undefined =>
    rw [hlb] at hl
    exact absurd hl Bool.false_ne_true

theorem keepsFixed_iff (hF : F.Exact) (h : s.Solves F) :
    s.KeepsFixed F ↔ ∀ k < F.rows, s.fixedOffset F k = 0 := by
  refine forall₂_congr fun k hk => ?_
  rw [SolverInterior.fixedOffset, ite_eq_right_iff]
  refine imp_congr_right fun heq => ?_
  rw [Vec.entry_eq_finite h.finite_x, eq_finite_value (hF.isFinite_of_eq (by omega) heq),
    finite.injEq, sub_eq_zero]
  rfl

theorem fixedComplementarity_eq (hF : F.Exact) (h : s.Solves F) : F.fixedComplementarity s =
    ∑ k ∈ Finset.range F.rows,
      s.fixedOffset F k * (s.zl.value (F.cols + k) - s.zu.value (F.cols + k)) := by
  rw [Form.fixedComplementarity, Finset.sum_filter]
  apply Finset.sum_congr rfl
  intro k hk
  have hj : F.cols + k < F.cols + F.rows := Nat.add_lt_add_left (Finset.mem_range.1 hk) _
  rw [SolverInterior.fixedOffset]
  split_ifs with heq
  · have hfin := hF.isFinite_of_eq hj heq
    have hvalue : F.lb.value (F.cols + k) = F.ub.value (F.cols + k) :=
      congrArg Extended.value heq
    rw [h.xl_eq hj hfin, h.xu_eq hj (heq ▸ hfin), ← hvalue]
    ring
  · rw [zero_mul]

theorem fixedComplementarity_eq_zero (hF : F.Exact) (h : s.Solves F) (hfixed : s.KeepsFixed F) :
    F.fixedComplementarity s = 0 := by
  rw [h.fixedComplementarity_eq hF]
  apply Finset.sum_eq_zero
  intro k hk
  rw [(h.keepsFixed_iff hF).1 hfixed k (Finset.mem_range.1 hk), zero_mul]

/-- The complementarity of an exact iterate is its duality gap. -/
theorem complementarity_eq (hF : F.Exact) (h : s.Solves F) : F.complementarity s =
    ∑ j ∈ Finset.range (F.cols + F.rows), F.c.value j * s.x.value j - F.dualValue s := by
  have hrow : ∀ i ∈ Finset.range F.rows,
      (F.b.value i - 0 - F.AI.rowDot i s.x.value) * s.y.value i = 0 := fun i hi => by
    rw [h.row i (Finset.mem_range.1 hi), sub_zero, sub_self, zero_mul]
  have hcolumn : ∀ j ∈ Finset.range (F.cols + F.rows),
      (F.c.value j - s.zl.value j + s.zu.value j - F.AI.colDot j s.y.value) * s.x.value j = 0 :=
    fun j hj => by
      rw [← h.column j (Finset.mem_range.1 hj)]
      ring
  have hgap := F.AI.sum_distances_eq s.x.value s.y.value s.zl.value s.zu.value (fun _ => 0)
    F.b.value F.c.value F.lb.value F.ub.value
  rw [hF.rows_AI, hF.cols_AI, Finset.sum_eq_zero hrow, Finset.sum_eq_zero hcolumn] at hgap
  simp only [mul_zero, Finset.sum_const_zero, sub_zero, add_zero] at hgap
  rw [Form.complementarity, Form.dualValue, Program.sum_finite_eq, Program.sum_finite_eq, ← hgap,
    sum_filter_mul (fun j hj => h.xl_eq hj) fun j hj => h.zl_eq_zero hj,
    sum_filter_mul (fun j hj => h.xu_eq hj) fun j hj => h.zu_eq_zero hj]

end SolverInterior.Solves

/-! ### Points at their distances -/

/-- The distances from the finite bounds are those of the point, and infinite bounds have no
multiplier. -/
structure Program.MeetsBounds (P : Program Extended) (u : UserInterior Extended) : Prop where
  lower : ∀ j < P.numVar, P.lowerResidual u j = 0
  upper : ∀ j < P.numVar, P.upperResidual u j = 0
  zl : ∀ j < P.numVar, Scalar.isFinite (P.lb.entry j) = false → u.zl.value j = 0
  zu : ∀ j < P.numVar, Scalar.isFinite (P.ub.entry j) = false → u.zu.value j = 0

/-- The complementarity of a point at its distances is its duality gap, up to the residuals of rows and
columns. -/
theorem Program.MeetsBounds.complementarity_eq {P : Program Extended} {u : UserInterior Extended}
    (h : P.MeetsBounds u) : P.complementarity u =
      P.value u.x.value - P.dualValue u.y.value u.zl.value u.zu.value +
        ∑ i ∈ Finset.range P.numConstr, P.rowResidual u i * u.y.value i -
          ∑ j ∈ Finset.range P.numVar, P.columnResidual u j * u.x.value j := by
  have hlower : ∀ j < P.numVar, Scalar.isFinite (P.lb.entry j) = true →
      u.xl.value j = u.x.value j - P.lb.value j := fun j hj hfin => by
    have hl := h.lower j hj
    rw [lowerResidual, if_pos hfin] at hl
    linarith
  have hupper : ∀ j < P.numVar, Scalar.isFinite (P.ub.entry j) = true →
      u.xu.value j = P.ub.value j - u.x.value j := fun j hj hfin => by
    have hu := h.upper j hj
    rw [upperResidual, if_pos hfin] at hu
    linarith
  rw [Program.complementarity, Program.dualValue, sum_finite_eq, sum_finite_eq,
    sum_filter_mul hlower h.zl, sum_filter_mul hupper h.zu]
  exact P.A.sum_distances_eq _ _ _ _ _ _ _ _ _

/-! ### Images -/

namespace Program.Image

variable {P Q : Program Extended} {r d : Nat → Rat} {p q : UserInterior Extended}

theorem rowResidual_eq_zero_iff (h : P.Image Q r d)
    (hpq : p.Image q P.numVar P.numConstr r d) {i : Nat} (hi : i < P.numConstr) :
    P.rowResidual p i = 0 ↔ Q.rowResidual q i = 0 := by
  rw [h.rowResidual_eq hpq hi, mul_eq_zero_iff_left (h.row_pos i hi).ne']

theorem columnResidual_eq_zero_iff (h : P.Image Q r d)
    (hpq : p.Image q P.numVar P.numConstr r d) {j : Nat} (hj : j < P.numVar) :
    P.columnResidual p j = 0 ↔ Q.columnResidual q j = 0 := by
  rw [h.columnResidual_eq hpq hj, mul_eq_zero_iff_right (h.col_ne j hj)]

/-- A point at its distances stands for one that is. -/
theorem boundResiduals_eq_zero (h : P.Image Q r d) (hpq : p.Image q P.numVar P.numConstr r d)
    (hq : Q.MeetsBounds q) {j : Nat} (hj : j < P.numVar) :
    P.lowerResidual p j = 0 ∧ P.upperResidual p j = 0 := by
  have hj' : j < Q.numVar := h.numVar_eq.symm ▸ hj
  have hlower := h.lowerResidual_eq hpq hj
  have hupper := h.upperResidual_eq hpq hj
  rw [hq.lower j hj', zero_mul] at hlower
  rw [hq.upper j hj', zero_mul] at hupper
  by_cases hd : 0 < d j
  · rw [if_pos hd] at hlower hupper
    exact ⟨hlower.symm, hupper.symm⟩
  · rw [if_neg hd, zero_eq_neg] at hlower hupper
    exact ⟨hupper, hlower⟩

end Program.Image

end LpPresolve
