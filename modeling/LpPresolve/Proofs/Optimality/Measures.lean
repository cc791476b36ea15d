import LpPresolve.Proofs.Exact.Matrices
import LpPresolve.Proofs.Model
import LpPresolve.Quality

/-! What the four measures of an iterate say in exact arithmetic. The residuals vanish if and only if
the equations of the form hold, and the infeasibilities if and only if the bounds hold and no reduced
cost has the wrong sign. -/

namespace LpPresolve

open Extended

/-! ### Running maxima -/

/-- A loop that only raises a value ends at zero if no step raises it. -/
theorem foldl_eq_zero_iff {β : Type} {xs : List β} {f : Extended → β → Extended}
    {p : β → Prop} (h : ∀ x ∈ xs, ∀ m, 0 ≤ m →
      ∃ q, 0 ≤ q ∧ f (finite m) x = finite q ∧ (q = 0 ↔ m = 0 ∧ p x)) :
    xs.foldl f 0 = 0 ↔ ∀ x ∈ xs, p x := by
  suffices hs : ∀ m : Rat, 0 ≤ m →
      (xs.foldl f (finite m) = finite 0 ↔ m = 0 ∧ ∀ x ∈ xs, p x) by
    exact (hs 0 le_rfl).trans (and_iff_right rfl)
  induction xs with
  | nil => simp
  | cons x r ih =>
    intro m hm
    obtain ⟨hx, hr⟩ := List.forall_mem_cons.1 h
    obtain ⟨q, hq, hstep, hzero⟩ := hx m hm
    rw [List.foldl_cons, hstep, ih hr q hq, hzero, List.forall_mem_cons, and_assoc]

/-- The larger of a nonnegative value and one that is finite or negative infinite. -/
theorem maxNum_eq {m : Rat} (hm : 0 ≤ m) {a : Extended}
    (ha : Scalar.isFinite a = true ∨ a = bottom) :
    ∃ q, 0 ≤ q ∧ Scalar.maxNum (finite m) a = finite q ∧ (q = 0 ↔ m = 0 ∧ a ≤ finite 0) := by
  rcases ha with ha | rfl
  · rw [eq_finite_value ha, maxNum_finite, finite_le_finite]
    refine ⟨_, le_max_of_le_left hm, rfl, ?_⟩
    constructor
    · intro h
      exact ⟨le_antisymm (h ▸ le_max_left _ _) hm, h ▸ le_max_right _ _⟩
    · rintro ⟨rfl, hle⟩
      exact max_eq_left hle
  · refine ⟨m, hm, ?_, ?_⟩
    · rw [Scalar.maxNum, isNaN_finite, if_neg Bool.false_ne_true, if_neg (not_finite_lt_bottom m)]
    · simp

theorem isFinite_sub_finite {l : Extended} (hl : Scalar.isFinite l = true ∨ l = bottom)
    (x : Rat) : (Scalar.isFinite (l - finite x) = true ∨ l - finite x = bottom) ∧
      (l - finite x ≤ finite 0 ↔ l ≤ finite x) := by
  rcases hl with hl | rfl
  · rw [eq_finite_value hl, finite_sub_finite, finite_le_finite, finite_le_finite, sub_nonpos]
    exact ⟨.inl rfl, Iff.rfl⟩
  · exact ⟨.inr rfl, iff_of_true (bottom_le_finite 0) (bottom_le_finite x)⟩

theorem finite_sub_isFinite {u : Extended} (hu : Scalar.isFinite u = true ∨ u = top)
    (x : Rat) : (Scalar.isFinite (finite x - u) = true ∨ finite x - u = bottom) ∧
      (finite x - u ≤ finite 0 ↔ finite x ≤ u) := by
  rcases hu with hu | rfl
  · rw [eq_finite_value hu, finite_sub_finite, finite_le_finite, finite_le_finite, sub_nonpos]
    exact ⟨.inl rfl, Iff.rfl⟩
  · exact ⟨.inr rfl, iff_of_true (bottom_le_finite 0) (finite_le_top x)⟩

/-- A statement about the entries of several vectors side by side. -/
theorem forall_mem_zip_iff {β γ : Type} {xs : List β} {ys : List γ} {n : Nat}
    {f : Nat → β} {g : Nat → γ} (hx : xs = (List.range n).map f) (hy : ys = (List.range n).map g)
    {p : β × γ → Prop} : (∀ e ∈ xs.zip ys, p e) ↔ ∀ j < n, p (f j, g j) := by
  rw [hx, hy, List.zip_map', List.forall_mem_map]
  simp

/-! ### Forms with finite data -/

/-- All entries are rationals. -/
structure SolverPoint.Finite (s : SolverPoint Extended) : Prop where
  x : s.x.isFinite = true
  y : s.y.isFinite = true
  z : s.z.isFinite = true

namespace Form

/-- All data are finite, except for bounds that are infinite on their own side. -/
structure Exact (F : Form Extended) : Prop where
  layout : F.AI.Layout
  finite_AI : F.AI.Finite
  rows_AI : F.AI.rows = F.rows
  cols_AI : F.AI.cols = F.cols + F.rows
  size_b : F.b.size = F.rows
  size_c : F.c.size = F.cols + F.rows
  size_lb : F.lb.size = F.cols + F.rows
  size_ub : F.ub.size = F.cols + F.rows
  finite_b : F.b.isFinite = true
  finite_c : F.c.isFinite = true
  lower : ∀ j < F.cols + F.rows, Scalar.isFinite (F.lb.entry j) = true ∨ F.lb.entry j = bottom
  upper : ∀ j < F.cols + F.rows, Scalar.isFinite (F.ub.entry j) = true ∨ F.ub.entry j = top

/-- All four measures of the point are zero. -/
def Solved (F : Form Extended) (s : SolverPoint Extended) : Prop :=
  F.primalResidual? s.x = some 0 ∧ F.dualResidual? s.y s.z = some 0 ∧
    F.primalInfeasibility? s.x = some 0 ∧ F.dualInfeasibility? s.x s.z = some 0

instance (F : Form Extended) (s : SolverPoint Extended) : Decidable (F.Solved s) :=
  inferInstanceAs (Decidable (_ ∧ _))

namespace Exact

variable {F : Form Extended} {x y z : Vec Extended}

theorem primalResidual?_eq_zero_iff (hF : F.Exact) (hx : x.isFinite = true)
    (hxs : x.size = F.cols + F.rows) :
    F.primalResidual? x = some 0 ↔ ∀ i < F.rows, F.AI.rowDot i x.value = F.b.value i := by
  obtain ⟨r, hr, hrs, hentry⟩ := Csc.gemv?_finite hF.layout hF.finite_AI .normal
    (-1) hx (hxs.trans hF.cols_AI.symm) 1 hF.finite_b
    (hF.size_b.trans hF.rows_AI.symm)
  have hrows : F.AI.outer .normal = F.rows := hF.rows_AI
  rw [hrows] at hrs hentry
  have hfin : r.isFinite = true := Vec.isFinite_of_entry fun i hi => hentry i (hrs ▸ hi)
  have hres : F.primalResidual? x = some r.normInf := by
    rw [primalResidual?, show F.AI.gemv? .normal (-1) x 1 F.b = some r from hr]
    rfl
  rw [hres, Option.some_inj, Vec.normInf_eq hfin, zero_eq, finite.injEq, Vec.absMax_eq_zero_iff,
    hrs]
  apply forall₂_congr
  intro i hi
  rw [Vec.value_of_entry (hentry i hi), one_mul, neg_one_mul, add_neg_eq_zero, eq_comm]
  rfl

theorem dualResidual?_eq_zero_iff (hF : F.Exact) (hy : y.isFinite = true)
    (hys : y.size = F.rows) (hz : z.isFinite = true) (hzs : z.size = F.cols + F.rows) :
    F.dualResidual? y z = some 0 ↔
      ∀ j < F.cols + F.rows, F.AI.colDot j y.value + z.value j = F.c.value j := by
  have hdiff : ∀ j < F.cols + F.rows,
      (Vec.axpby (-1) z 1 F.c).entry j = finite (F.c.value j - z.value j) := by
    intro j hj
    have hneg : (-1 : Extended) = finite (-1) := rfl
    rw [Vec.entry_axpby _ _ _ _ (hzs ▸ hj) (hF.size_c ▸ hj), Vec.entry_eq_finite hz,
      Vec.entry_eq_finite hF.finite_c, hneg, one_eq, finite_mul_finite, finite_mul_finite,
      finite_add_finite]
    congr 1
    ring
  have hsize : (Vec.axpby (-1) z 1 F.c).size = F.cols + F.rows := by simp [hzs, hF.size_c]
  obtain ⟨r, hr, hrs, hentry⟩ := Csc.gemv?_finite hF.layout hF.finite_AI .transposed
    (-1) hy (hys.trans hF.rows_AI.symm) 1
    (y := Vec.axpby (-1) z 1 F.c)
    (Vec.isFinite_of_entry fun j hj => hdiff j (hsize ▸ hj)) (hsize.trans hF.cols_AI.symm)
  have hcols : F.AI.outer .transposed = F.cols + F.rows := hF.cols_AI
  rw [hcols] at hrs hentry
  have hfin : r.isFinite = true := Vec.isFinite_of_entry fun j hj => hentry j (hrs ▸ hj)
  have hax : Vec.axpby? (-1) z 1 F.c = some (Vec.axpby (-1) z 1 F.c) :=
    Vec.ifSameSize_eq_some_iff.2 ⟨hF.size_c.trans hzs.symm, rfl⟩
  have hres : F.dualResidual? y z = some r.normInf := by
    rw [dualResidual?, hax]
    simp only [Option.bind_eq_bind, Option.bind_some]
    rw [show F.AI.gemv? .transposed (-1) y 1 _ = some r from hr]
    rfl
  rw [hres, Option.some_inj, Vec.normInf_eq hfin, zero_eq, finite.injEq, Vec.absMax_eq_zero_iff,
    hrs]
  apply forall₂_congr
  intro j hj
  have hdot : F.AI.dotAt .transposed j y.value = F.AI.colDot j y.value := rfl
  rw [Vec.value_of_entry (hentry j hj), Vec.value_of_entry (hdiff j hj), hdot]
  constructor <;> intro h <;> linarith

theorem bounds_eq (hF : F.Exact) :
    F.bounds = (List.range (F.cols + F.rows)).map fun j => (F.lb.entry j, F.ub.entry j) := by
  rw [bounds, Vec.toList_eq_map_range, Vec.toList_eq_map_range, hF.size_lb, hF.size_ub,
    List.zip_map']

theorem primalInfeasibility?_eq_zero_iff (hF : F.Exact) (hx : x.isFinite = true)
    (hxs : x.size = F.cols + F.rows) :
    F.primalInfeasibility? x = some 0 ↔
      ∀ j < F.cols + F.rows, F.lb.entry j ≤ x.entry j ∧ x.entry j ≤ F.ub.entry j := by
  have hxl := hxs ▸ Vec.toList_eq_map_range x
  rw [primalInfeasibility?, if_pos (hxs.trans hF.size_lb.symm), Option.some_inj,
    foldl_eq_zero_iff (p := fun e => e.2.1 ≤ e.1 ∧ e.1 ≤ e.2.2),
    forall_mem_zip_iff hxl hF.bounds_eq]
  intro e he m hm
  obtain ⟨j, hj, rfl⟩ : ∃ j < F.cols + F.rows, (x.entry j, F.lb.entry j, F.ub.entry j) = e := by
    rw [hxl, hF.bounds_eq, List.zip_map', List.mem_map] at he
    simpa using he
  rw [Vec.entry_eq_finite hx]
  obtain ⟨hlk, hl⟩ := isFinite_sub_finite (hF.lower j hj) (x.value j)
  obtain ⟨huk, hu⟩ := finite_sub_isFinite (hF.upper j hj) (x.value j)
  obtain ⟨q, hq, hmax, hzero⟩ := maxNum_eq hm hlk
  obtain ⟨q', hq', hmax', hzero'⟩ := maxNum_eq hq huk
  refine ⟨q', hq', ?_, ?_⟩
  · simp only [hmax, hmax']
  · rw [hzero', hzero, hl, hu, and_assoc]

theorem dualInfeasibility?_eq_zero_iff (hF : F.Exact) (hxs : x.size = F.cols + F.rows)
    (hz : z.isFinite = true) (hzs : z.size = F.cols + F.rows) :
    F.dualInfeasibility? x z = some 0 ↔
      ∀ j < F.cols + F.rows, (F.lb.entry j < x.entry j → z.value j ≤ 0) ∧
        (x.entry j < F.ub.entry j → 0 ≤ z.value j) := by
  have hxl := hxs ▸ Vec.toList_eq_map_range x
  have hzl := hzs ▸ Vec.toList_eq_map_range z
  have hpairs : x.toList.zip z.toList =
      (List.range (F.cols + F.rows)).map fun j => (x.entry j, z.entry j) := by
    rw [hxl, hzl, List.zip_map']
  rw [dualInfeasibility?, if_pos ⟨hxs.trans hF.size_lb.symm, hzs.trans hF.size_lb.symm⟩,
    Option.some_inj,
    foldl_eq_zero_iff (p := fun e => (e.2.1 < e.1.1 → e.1.2.value ≤ 0) ∧
      (e.1.1 < e.2.2 → 0 ≤ e.1.2.value)), forall_mem_zip_iff hpairs hF.bounds_eq]
  · rfl
  intro e he m hm
  obtain ⟨j, hj, rfl⟩ : ∃ j < F.cols + F.rows,
      ((x.entry j, z.entry j), F.lb.entry j, F.ub.entry j) = e := by
    rw [hpairs, hF.bounds_eq, List.zip_map', List.mem_map] at he
    simpa using he
  simp only
  have hguard : ∀ (p : Prop) [Decidable p] (a : Rat) {m : Rat}, 0 ≤ m →
      ∃ q, 0 ≤ q ∧ (if p then Scalar.maxNum (finite m) (finite a) else finite m) = finite q ∧
        (q = 0 ↔ m = 0 ∧ (p → a ≤ 0)) := by
    intro p _ a m hm
    by_cases hp : p
    · obtain ⟨q, hq, hmax, hzero⟩ := maxNum_eq hm (.inl (isFinite_finite a))
      refine ⟨q, hq, by rw [if_pos hp, hmax], ?_⟩
      rw [hzero, finite_le_finite]
      simp [hp]
    · exact ⟨m, hm, if_neg hp, by simp [hp]⟩
  rw [Vec.entry_eq_finite hz j]
  obtain ⟨q, hq, hstep, hzero⟩ := hguard (F.lb.entry j < x.entry j) (z.value j) hm
  obtain ⟨q', hq', hstep', hzero'⟩ := hguard (x.entry j < F.ub.entry j) (-z.value j) hq
  refine ⟨q', hq', ?_, ?_⟩
  · rw [hstep, neg_finite]
    exact hstep'
  · rw [hzero', hzero, and_assoc, neg_nonpos, value_finite]

theorem solved_iff (hF : F.Exact) {s : SolverPoint Extended} (hs : s.Fits F.rows F.cols)
    (hf : s.Finite) : F.Solved s ↔
      (∀ i < F.rows, F.AI.rowDot i s.x.value = F.b.value i) ∧
      (∀ j < F.cols + F.rows, F.AI.colDot j s.y.value + s.z.value j = F.c.value j) ∧
      (∀ j < F.cols + F.rows, F.lb.entry j ≤ s.x.entry j ∧ s.x.entry j ≤ F.ub.entry j) ∧
      ∀ j < F.cols + F.rows, (F.lb.entry j < s.x.entry j → s.z.value j ≤ 0) ∧
        (s.x.entry j < F.ub.entry j → 0 ≤ s.z.value j) := by
  obtain ⟨hx, hy, hz⟩ := hs
  rw [Solved, hF.primalResidual?_eq_zero_iff hf.x hx, hF.dualResidual?_eq_zero_iff hf.y hy hf.z hz,
    hF.primalInfeasibility?_eq_zero_iff hf.x hx,
    hF.dualInfeasibility?_eq_zero_iff hx hf.z hz]

end Exact

end Form

end LpPresolve
