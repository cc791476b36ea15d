import LpPresolve.Proofs.Duality.Programs
import LpPresolve.Quality

/-! The quality of an interior point, measured on the program itself. A point and its image under the
factors of rows and columns have the same objective values and the same complementarity, and each
residual is the image's over or times a factor; for a negative factor the residuals of the two bounds
trade places and change sign. -/

namespace LpPresolve

open Extended

namespace UserInterior

structure Sized (u : UserInterior Extended) (n m : Nat) : Prop where
  size_x : u.x.size = n
  size_xl : u.xl.size = n
  size_xu : u.xu.size = n
  size_slack : u.slack.size = m
  size_y : u.y.size = m
  size_zl : u.zl.size = n
  size_zu : u.zu.size = n

/-- All entries are rationals, save perhaps the distances to infinite bounds. -/
structure Finite (u : UserInterior Extended) (P : Program Extended) : Prop where
  x : u.x.isFinite = true
  slack : u.slack.isFinite = true
  y : u.y.isFinite = true
  zl : u.zl.isFinite = true
  zu : u.zu.isFinite = true
  xl : ∀ j < P.numVar, Scalar.isFinite (P.lb.entry j) = true →
    Scalar.isFinite (u.xl.entry j) = true
  xu : ∀ j < P.numVar, Scalar.isFinite (P.ub.entry j) = true →
    Scalar.isFinite (u.xu.entry j) = true

/-- The point `q` of an image program that stands for `p`. A negative factor exchanges the distances
and the multipliers of the two bounds. -/
structure Image (p q : UserInterior Extended) (n m : Nat) (r d : Nat → Rat) : Prop where
  x : ∀ j < n, q.x.value j * d j = p.x.value j
  slack : ∀ i < m, q.slack.value i = r i * p.slack.value i
  y : ∀ i < m, r i * q.y.value i = p.y.value i
  xl : ∀ j < n, q.xl.value j * |d j| = if 0 < d j then p.xl.value j else p.xu.value j
  xu : ∀ j < n, q.xu.value j * |d j| = if 0 < d j then p.xu.value j else p.xl.value j
  zl : ∀ j < n, q.zl.value j = (if 0 < d j then p.zl.value j else p.zu.value j) * |d j|
  zu : ∀ j < n, q.zu.value j = (if 0 < d j then p.zu.value j else p.zl.value j) * |d j|

end UserInterior

namespace Program

variable (P : Program Extended) (u : UserInterior Extended)

/-! ### Measures -/

def rowResidual (i : Nat) : Rat := P.rhs.value i - u.slack.value i - P.A.rowDot i u.x.value

def columnResidual (j : Nat) : Rat :=
  P.obj.value j - u.zl.value j + u.zu.value j - P.A.colDot j u.y.value

def lowerResidual (j : Nat) : Rat :=
  if Scalar.isFinite (P.lb.entry j) then P.lb.value j - u.x.value j + u.xl.value j else 0

def upperResidual (j : Nat) : Rat :=
  if Scalar.isFinite (P.ub.entry j) then P.ub.value j - u.x.value j - u.xu.value j else 0

/-- The entries of the vectors are the residuals of the point. -/
structure HasResiduals (R : Residuals Extended) : Prop where
  size_rb : R.rb.size = P.numConstr
  size_rc : R.rc.size = P.numVar
  size_rl : R.rl.size = P.numVar
  size_ru : R.ru.size = P.numVar
  rb : ∀ i < P.numConstr, R.rb.entry i = finite (P.rowResidual u i)
  rc : ∀ j < P.numVar, R.rc.entry j = finite (P.columnResidual u j)
  rl : ∀ j < P.numVar, R.rl.entry j = finite (P.lowerResidual u j)
  ru : ∀ j < P.numVar, R.ru.entry j = finite (P.upperResidual u j)

/-- The products of distance and multiplier, over the finite bounds and the constraints. -/
def complementarity : Rat :=
  ∑ j ∈ Finset.range P.numVar with Scalar.isFinite (P.lb.entry j) = true,
      u.xl.value j * u.zl.value j +
    ∑ j ∈ Finset.range P.numVar with Scalar.isFinite (P.ub.entry j) = true,
      u.xu.value j * u.zu.value j -
    ∑ i ∈ Finset.range P.numConstr, u.y.value i * u.slack.value i

/-- The quality of an interior point. -/
def interiorInfo : InteriorInfo Extended :=
  let presidual := finite (max (max (Vec.absMax P.numConstr (P.rowResidual u))
    (Vec.absMax P.numVar (P.lowerResidual u))) (Vec.absMax P.numVar (P.upperResidual u)))
  let dresidual := finite (Vec.absMax P.numVar (P.columnResidual u))
  let pobjval := P.offset + finite (P.value u.x.value)
  let dobjval := P.offset + finite (P.dualValue u.y.value u.zl.value u.zu.value)
  { absPresidual := presidual
    absDresidual := dresidual
    relPresidual := presidual / (1 + P.normRhs)
    relDresidual := dresidual / (1 + P.normObj)
    pobjval
    dobjval
    relObjgap := (pobjval - dobjval) / (1 + Scalar.half * Scalar.magnitude (pobjval + dobjval))
    complementarity := finite (P.complementarity u)
    normx := finite (Vec.absMax P.numVar u.x.value)
    normy := finite (Vec.absMax P.numConstr u.y.value)
    normz := finite (max (Vec.absMax P.numVar u.zl.value) (Vec.absMax P.numVar u.zu.value)) }

/-! ### Images -/

namespace Image

variable {P Q : Program Extended} {r d : Nat → Rat} {p q : UserInterior Extended}

theorem isFinite_lb (h : P.Image Q r d) {j : Nat} (hj : j < P.numVar) :
    Scalar.isFinite (Q.lb.entry j) =
      Scalar.isFinite (if 0 < d j then P.lb.entry j else P.ub.entry j) := by
  rw [h.lb j hj, isFinite_div (h.col_ne j hj)]

theorem isFinite_ub (h : P.Image Q r d) {j : Nat} (hj : j < P.numVar) :
    Scalar.isFinite (Q.ub.entry j) =
      Scalar.isFinite (if 0 < d j then P.ub.entry j else P.lb.entry j) := by
  rw [h.ub j hj, isFinite_div (h.col_ne j hj)]

theorem value_lb (h : P.Image Q r d) {j : Nat} (hj : j < P.numVar) :
    Q.lb.value j = (if 0 < d j then P.lb.value j else P.ub.value j) / d j := by
  rw [Vec.value, h.lb j hj, value_div (h.col_ne j hj)]
  split_ifs <;> rfl

theorem value_ub (h : P.Image Q r d) {j : Nat} (hj : j < P.numVar) :
    Q.ub.value j = (if 0 < d j then P.ub.value j else P.lb.value j) / d j := by
  rw [Vec.value, h.ub j hj, value_div (h.col_ne j hj)]
  split_ifs <;> rfl

theorem rowResidual_eq (h : P.Image Q r d) (hpq : p.Image q P.numVar P.numConstr r d) {i : Nat}
    (hi : i < P.numConstr) : Q.rowResidual q i = r i * P.rowResidual p i := by
  unfold rowResidual
  rw [h.rhs i hi, hpq.slack i hi, h.rowDot_eq hi hpq.x]
  ring

theorem columnResidual_eq (h : P.Image Q r d) (hpq : p.Image q P.numVar P.numConstr r d) {j : Nat}
    (hj : j < P.numVar) : Q.columnResidual q j = P.columnResidual p j * d j := by
  unfold columnResidual
  rw [h.obj j hj, hpq.zl j hj, hpq.zu j hj, h.colDot_eq hj hpq.y]
  by_cases hd : 0 < d j
  · rw [if_pos hd, if_pos hd, abs_of_pos hd]
    ring
  · rw [if_neg hd, if_neg hd, abs_of_nonpos (not_lt.1 hd)]
    ring

theorem lowerResidual_eq (h : P.Image Q r d) (hpq : p.Image q P.numVar P.numConstr r d) {j : Nat}
    (hj : j < P.numVar) : Q.lowerResidual q j * |d j| =
      if 0 < d j then P.lowerResidual p j else -P.upperResidual p j := by
  have hne := h.col_ne j hj
  have hxl := hpq.xl j hj
  have hx := hpq.x j hj
  unfold lowerResidual upperResidual
  rw [h.isFinite_lb hj, h.value_lb hj]
  by_cases hd : 0 < d j
  · rw [if_pos hd] at hxl
    simp only [if_pos hd]
    split_ifs
    · rw [add_mul, sub_mul, hxl, abs_of_pos hd, hx, div_mul_cancel₀ _ hne]
    · rw [zero_mul]
  · rw [if_neg hd] at hxl
    simp only [if_neg hd]
    split_ifs
    · rw [add_mul, sub_mul, hxl, abs_of_nonpos (not_lt.1 hd), mul_neg, mul_neg, hx,
        div_mul_cancel₀ _ hne]
      ring
    · rw [zero_mul, neg_zero]

theorem upperResidual_eq (h : P.Image Q r d) (hpq : p.Image q P.numVar P.numConstr r d) {j : Nat}
    (hj : j < P.numVar) : Q.upperResidual q j * |d j| =
      if 0 < d j then P.upperResidual p j else -P.lowerResidual p j := by
  have hne := h.col_ne j hj
  have hxu := hpq.xu j hj
  have hx := hpq.x j hj
  unfold upperResidual lowerResidual
  rw [h.isFinite_ub hj, h.value_ub hj]
  by_cases hd : 0 < d j
  · rw [if_pos hd] at hxu
    simp only [if_pos hd]
    split_ifs
    · rw [sub_mul, sub_mul, hxu, abs_of_pos hd, hx, div_mul_cancel₀ _ hne]
    · rw [zero_mul]
  · rw [if_neg hd] at hxu
    simp only [if_neg hd]
    split_ifs
    · rw [sub_mul, sub_mul, hxu, abs_of_nonpos (not_lt.1 hd), mul_neg, mul_neg, hx,
        div_mul_cancel₀ _ hne]
      ring
    · rw [zero_mul, neg_zero]

theorem dualValue_eq (h : P.Image Q r d) (hpq : p.Image q P.numVar P.numConstr r d) :
    Q.dualValue q.y.value q.zl.value q.zu.value =
      P.dualValue p.y.value p.zl.value p.zu.value := by
  have hrow : ∀ i ∈ Finset.range P.numConstr,
      Q.rhs.value i * q.y.value i = P.rhs.value i * p.y.value i := fun i hi => by
    have hi := Finset.mem_range.1 hi
    rw [h.rhs i hi, ← hpq.y i hi]
    ring
  have hcol : ∀ j ∈ Finset.range P.numVar,
      Q.lb.value j * q.zl.value j - Q.ub.value j * q.zu.value j =
        P.lb.value j * p.zl.value j - P.ub.value j * p.zu.value j := fun j hj => by
    have hj := Finset.mem_range.1 hj
    have hne := h.col_ne j hj
    rw [h.value_lb hj, h.value_ub hj, hpq.zl j hj, hpq.zu j hj]
    by_cases hd : 0 < d j
    · simp only [if_pos hd, abs_of_pos hd]
      field_simp
    · simp only [if_neg hd, abs_of_nonpos (not_lt.1 hd)]
      field_simp
      ring
  unfold dualValue
  rw [sum_finite_eq, sum_finite_eq, sum_finite_eq, sum_finite_eq,
    h.numConstr_eq, h.numVar_eq, Finset.sum_congr rfl hrow, add_sub_assoc, add_sub_assoc,
    ← Finset.sum_sub_distrib, ← Finset.sum_sub_distrib, Finset.sum_congr rfl hcol]

theorem complementarity_eq (h : P.Image Q r d) (hpq : p.Image q P.numVar P.numConstr r d) :
    Q.complementarity q = P.complementarity p := by
  have hrow : ∀ i ∈ Finset.range P.numConstr,
      q.y.value i * q.slack.value i = p.y.value i * p.slack.value i := fun i hi => by
    have hi := Finset.mem_range.1 hi
    rw [hpq.slack i hi, ← hpq.y i hi]
    ring
  have hcol : ∀ j ∈ Finset.range P.numVar,
      (if Scalar.isFinite (Q.lb.entry j) = true then q.xl.value j * q.zl.value j else 0) +
          (if Scalar.isFinite (Q.ub.entry j) = true then q.xu.value j * q.zu.value j else 0) =
        (if Scalar.isFinite (P.lb.entry j) = true then p.xl.value j * p.zl.value j else 0) +
          (if Scalar.isFinite (P.ub.entry j) = true then p.xu.value j * p.zu.value j else 0) :=
    fun j hj => by
      have hj := Finset.mem_range.1 hj
      have hl : q.xl.value j * q.zl.value j =
          (if 0 < d j then p.xl.value j * p.zl.value j else p.xu.value j * p.zu.value j) := by
        rw [hpq.zl j hj, mul_comm _ |d j|, ← mul_assoc, hpq.xl j hj]
        split_ifs <;> rfl
      have hu : q.xu.value j * q.zu.value j =
          (if 0 < d j then p.xu.value j * p.zu.value j else p.xl.value j * p.zl.value j) := by
        rw [hpq.zu j hj, mul_comm _ |d j|, ← mul_assoc, hpq.xu j hj]
        split_ifs <;> rfl
      rw [hl, hu, h.isFinite_lb hj, h.isFinite_ub hj]
      by_cases hd : 0 < d j
      · simp only [if_pos hd]
      · simp only [if_neg hd]
        exact add_comm _ _
  unfold complementarity
  rw [Finset.sum_filter, Finset.sum_filter, Finset.sum_filter,
    Finset.sum_filter, ← Finset.sum_add_distrib, ← Finset.sum_add_distrib, h.numConstr_eq,
    h.numVar_eq, Finset.sum_congr rfl hrow, Finset.sum_congr rfl hcol]

end Image

end Program

end LpPresolve
