import LpPresolve.Proofs.Basic.Solutions
import LpPresolve.Proofs.Duality.Programs
import LpPresolve.Proofs.Optimality.Measures

/-! The quality of basic solutions. Violations are taken of the scaled solution, by the statuses of the
scaled variables, and then unscaled as if they were a point. In user space they are the violations of
the unscaled solution by the mirrored statuses, so that the two infeasibilities are the largest of
those and the objective value is that of the user's program. -/

namespace LpPresolve

open Extended

/-! ### Single violations -/

namespace Model

theorem boundViolation_finite {l u : Extended} (hl : Scalar.isFinite l = true ∨ l = bottom)
    (hu : Scalar.isFinite u = true ∨ u = top) (hlu : ¬ u < l) (x : Rat) :
    ∃ q, boundViolation l u (finite x) = finite q ∧
      ∀ v > 0, |q| = v ↔ l = finite (x + v) ∨ u = finite (x - v) := by
  rw [boundViolation]
  split_ifs with hx hx'
  · -- above the upper bound, which is finite then
    obtain ⟨b, rfl⟩ : ∃ b, u = finite b :=
      ⟨_, eq_finite_value (hu.resolve_right fun h => not_top_lt_finite x (h ▸ hx))⟩
    rw [finite_lt_finite] at hx
    refine ⟨x - b, finite_sub_finite x b, fun v hv => ?_⟩
    rw [abs_of_pos (sub_pos.2 hx), finite.injEq]
    constructor
    · exact fun h => .inr (by linarith)
    · rintro (rfl | h)
      · rw [finite_lt_finite] at hlu
        linarith
      · linarith
  · obtain ⟨a, rfl⟩ : ∃ a, l = finite a :=
      ⟨_, eq_finite_value (hl.resolve_right fun h => not_finite_lt_bottom x (h ▸ hx'))⟩
    rw [finite_lt_finite] at hx'
    refine ⟨x - a, finite_sub_finite x a, fun v hv => ?_⟩
    rw [abs_of_neg (sub_neg.2 hx'), finite.injEq]
    constructor
    · exact fun h => .inl (by linarith)
    · rintro (h | rfl)
      · linarith
      · rw [finite_lt_finite] at hx
        linarith
  · refine ⟨0, rfl, fun v hv => iff_of_false (by rw [abs_zero]; exact hv.ne) ?_⟩
    rintro (rfl | rfl)
    · rw [finite_lt_finite] at hx'
      linarith
    · rw [finite_lt_finite] at hx
      linarith

/-- A value that is kept only if it has a wrong sign. -/
theorem abs_ite_eq_iff {p : Prop} [Decidable p] {s v : Rat} (hv : 0 < v) :
    |if p then s else 0| = v ↔ p ∧ |s| = v := by
  split_ifs with h
  · exact (and_iff_right h).symm
  · exact iff_of_false (by rw [abs_zero]; exact hv.ne) fun h' => h h'.1

theorem pos_and_abs_eq_iff {s v : Rat} (hv : 0 < v) : 0 < s ∧ |s| = v ↔ s = v := by
  constructor
  · rintro ⟨hs, rfl⟩
    exact (abs_of_pos hs).symm
  · rintro rfl
    exact ⟨hv, abs_of_pos hv⟩

theorem neg_and_abs_eq_iff {s v : Rat} (hv : 0 < v) : s < 0 ∧ |s| = v ↔ s = -v := by
  rw [← neg_pos, ← abs_neg, pos_and_abs_eq_iff hv, neg_eq_iff_eq_neg]

theorem slackViolation_finite (t : ConstraintType) (s : Rat) :
    ∃ q, slackViolation t (finite s) = finite q ∧
      ∀ v > 0, |q| = v ↔ t = .lessEqual ∧ s = -v ∨ t = .greaterEqual ∧ s = v := by
  cases t with
  | equal => exact ⟨0, rfl, fun v hv => iff_of_false (by rw [abs_zero]; exact hv.ne) (by simp)⟩
  | lessEqual =>
    refine ⟨if s < 0 then s else 0, ?_, fun v hv => ?_⟩
    · simp only [slackViolation, zero_eq, finite_lt_finite, apply_ite finite]
    · rw [abs_ite_eq_iff hv, neg_and_abs_eq_iff hv]
      simp
  | greaterEqual =>
    refine ⟨if 0 < s then s else 0, ?_, fun v hv => ?_⟩
    · simp only [slackViolation, zero_eq, finite_lt_finite, apply_ite finite]
    · rw [abs_ite_eq_iff hv, pos_and_abs_eq_iff hv]
      simp

theorem multiplierViolation_finite (t : ConstraintType) (y : Rat) :
    ∃ q, multiplierViolation t (finite y) = finite q ∧
      ∀ v > 0, |q| = v ↔ t = .lessEqual ∧ y = v ∨ t = .greaterEqual ∧ y = -v := by
  cases t with
  | equal => exact ⟨0, rfl, fun v hv => iff_of_false (by rw [abs_zero]; exact hv.ne) (by simp)⟩
  | lessEqual =>
    refine ⟨if 0 < y then y else 0, ?_, fun v hv => ?_⟩
    · simp only [multiplierViolation, zero_eq, finite_lt_finite, apply_ite finite]
    · rw [abs_ite_eq_iff hv, pos_and_abs_eq_iff hv]
      simp
  | greaterEqual =>
    refine ⟨if y < 0 then y else 0, ?_, fun v hv => ?_⟩
    · simp only [multiplierViolation, zero_eq, finite_lt_finite, apply_ite finite]
    · rw [abs_ite_eq_iff hv, neg_and_abs_eq_iff hv]
      simp

theorem costViolation_finite (b : BasisStatus) (z : Rat) :
    ∃ q, costViolation b (finite z) = finite q ∧
      ∀ v > 0, |q| = v ↔ b ≠ .nonbasicLower ∧ z = v ∨ b ≠ .nonbasicUpper ∧ z = -v := by
  refine ⟨if b ≠ .nonbasicLower ∧ 0 < z ∨ b ≠ .nonbasicUpper ∧ z < 0 then z else 0, ?_,
    fun v hv => ?_⟩
  · rw [costViolation, zero_eq]
    simp only [finite_lt_finite]
    rcases lt_trichotomy z 0 with h | rfl | h
    · simp [h, h.not_gt, apply_ite finite]
    · simp
    · simp [h, h.not_gt, apply_ite finite]
  · rw [abs_ite_eq_iff hv, or_and_right, and_assoc, and_assoc, pos_and_abs_eq_iff hv,
      neg_and_abs_eq_iff hv]

end Model

/-! ### Violations of a point -/

namespace Program

/-- By how much a point misses the bounds of variables and the signs of slacks. -/
def primalViolations (P : Program Extended) (u : UserPoint Extended) : Set Rat :=
  {v | 0 < v ∧
    ((∃ j < P.numVar, P.lb.entry j = finite (u.x.value j + v) ∨
        P.ub.entry j = finite (u.x.value j - v)) ∨
      ∃ i < P.numConstr, P.types[i]? = some .lessEqual ∧ u.slack.value i = -v ∨
        P.types[i]? = some .greaterEqual ∧ u.slack.value i = v)}

/-- The magnitudes of reduced costs with the wrong sign for the status of their variable and of
multipliers with the wrong sign for their constraint. -/
def dualViolations (P : Program Extended) (B : Basis) (u : UserPoint Extended) : Set Rat :=
  {v | 0 < v ∧
    ((∃ j < P.numVar, B.varStatus[j]? ≠ some .nonbasicLower ∧ u.z.value j = v ∨
        B.varStatus[j]? ≠ some .nonbasicUpper ∧ u.z.value j = -v) ∨
      ∃ i < P.numConstr, P.types[i]? = some .lessEqual ∧ u.y.value i = v ∨
        P.types[i]? = some .greaterEqual ∧ u.y.value i = -v)}

/-- The magnitudes of the entries of `V`, where they are not zero, are the violations of `u`. -/
structure Violations (P : Program Extended) (B : Basis) (u V : UserPoint Extended) : Prop where
  x : ∀ j < P.numVar, ∀ v > 0, |V.x.value j| = v ↔
    P.lb.entry j = finite (u.x.value j + v) ∨ P.ub.entry j = finite (u.x.value j - v)
  slack : ∀ i < P.numConstr, ∀ v > 0, |V.slack.value i| = v ↔
    P.types[i]? = some .lessEqual ∧ u.slack.value i = -v ∨
      P.types[i]? = some .greaterEqual ∧ u.slack.value i = v
  y : ∀ i < P.numConstr, ∀ v > 0, |V.y.value i| = v ↔
    P.types[i]? = some .lessEqual ∧ u.y.value i = v ∨
      P.types[i]? = some .greaterEqual ∧ u.y.value i = -v
  z : ∀ j < P.numVar, ∀ v > 0, |V.z.value j| = v ↔
    B.varStatus[j]? ≠ some .nonbasicLower ∧ u.z.value j = v ∨
      B.varStatus[j]? ≠ some .nonbasicUpper ∧ u.z.value j = -v

/-- The infeasibilities are the largest violations, or 0 if there are none. -/
structure MeasuredBy (P : Program Extended) (B : Basis) (u : UserPoint Extended)
    (info : BasicInfo Extended) : Prop where
  primal : ∃ v, info.primalInfeas = finite v ∧ IsGreatest (insert 0 (P.primalViolations u)) v
  dual : ∃ v, info.dualInfeas = finite v ∧ IsGreatest (insert 0 (P.dualViolations B u)) v
  objval : info.objval = finite (P.value u.x.value)

theorem Violations.measuredBy {P : Program Extended} {B : Basis} {u V : UserPoint Extended}
    (h : P.Violations B u V) (hV : V.Sized P.numVar P.numConstr) (hf : V.Finite) {obj : Extended}
    (hobj : obj = finite (P.value u.x.value)) : P.MeasuredBy B u
      ⟨Scalar.maxNum V.x.normInf V.slack.normInf, Scalar.maxNum V.z.normInf V.y.normInf, obj⟩ := by
  obtain ⟨v, hv, hgreatest⟩ := Vec.isGreatest_maxNum_normInf hf.x hf.slack
  obtain ⟨w, hw, hgreatest'⟩ := Vec.isGreatest_maxNum_normInf hf.z hf.y
  refine ⟨⟨v, hv, ?_⟩, ⟨w, hw, ?_⟩, hobj⟩
  · convert hgreatest using 2
    ext t
    refine and_congr_right fun ht => or_congr ?_ ?_
    · rw [hV.size_x]
      exact exists_congr fun j => and_congr_right fun hj => (h.x j hj t ht).symm
    · rw [hV.size_slack]
      exact exists_congr fun i => and_congr_right fun hi => (h.slack i hi t ht).symm
  · convert hgreatest' using 2
    ext t
    refine and_congr_right fun ht => or_congr ?_ ?_
    · rw [hV.size_z]
      exact exists_congr fun j => and_congr_right fun hj => (h.z j hj t ht).symm
    · rw [hV.size_y]
      exact exists_congr fun i => and_congr_right fun hi => (h.y i hi t ht).symm

/-! ### Images -/

namespace Image

variable {P Q : Program Extended} {r d : Nat → Rat}

/-- A missed bound is missed by as much in user space, if need be as the other bound. -/
theorem missed_iff (h : P.Image Q r d) {j : Nat} (hj : j < P.numVar) {x x' : Rat}
    (hx : x' * d j = x) (v : Rat) :
    (Q.lb.entry j = finite (x' + v / |d j|) ∨ Q.ub.entry j = finite (x' - v / |d j|)) ↔
      (P.lb.entry j = finite (x + v) ∨ P.ub.entry j = finite (x - v)) := by
  have hne := h.col_ne j hj
  rw [h.lb j hj, h.ub j hj, div_eq_finite_iff hne, div_eq_finite_iff hne, add_mul, sub_mul, hx]
  by_cases hd : 0 < d j
  · rw [if_pos hd, if_pos hd, abs_of_pos hd, div_mul_cancel₀ _ hne]
  · have hneg := lt_of_le_of_ne (not_lt.1 hd) hne
    rw [if_neg hd, if_neg hd, abs_of_neg hneg, div_neg, neg_mul, div_mul_cancel₀ _ hne,
      sub_neg_eq_add, ← sub_eq_add_neg, or_comm]

/-- A reduced cost has the wrong sign for a status if and only if the mirrored one has for the
mirrored status. -/
theorem wrong_cost_iff (h : P.Image Q r d) {B B' : Basis} (hB : B.Image B' P.numVar d) {j : Nat}
    (hj : j < P.numVar) {z z' : Rat} (hz : z' = z * d j) (v : Rat) :
    (B'.varStatus[j]? ≠ some .nonbasicLower ∧ z' = v * |d j| ∨
        B'.varStatus[j]? ≠ some .nonbasicUpper ∧ z' = -(v * |d j|)) ↔
      (B.varStatus[j]? ≠ some .nonbasicLower ∧ z = v ∨
        B.varStatus[j]? ≠ some .nonbasicUpper ∧ z = -v) := by
  have hne := h.col_ne j hj
  simp only [ne_eq, hB.var_eq_some_iff hj, hz, ← neg_mul]
  by_cases hd : 0 < d j
  · rw [if_pos hd, if_pos hd, abs_of_pos hd, mul_left_inj' hne, mul_left_inj' hne]
  · have hneg := lt_of_le_of_ne (not_lt.1 hd) hne
    rw [if_neg hd, if_neg hd, abs_of_neg hneg, mul_neg, mul_neg, ← neg_mul, ← neg_mul, neg_neg,
      mul_left_inj' hne, mul_left_inj' hne, or_comm]
    rfl

/-- The violations of the image of a point are those of the point, scaled like it. -/
theorem violations (h : P.Image Q r d) {B B' : Basis} (hB : B.Image B' P.numVar d)
    {p p' V V' : UserPoint Extended} (hp : p.Image p' P.numVar P.numConstr r d)
    (hV : V.Image V' P.numVar P.numConstr r d) (hviol : Q.Violations B' p' V') :
    P.Violations B p V := by
  have hm := h.numConstr_eq
  have hn := h.numVar_eq
  refine ⟨fun j hj v hv => ?_, fun i hi v hv => ?_, fun i hi v hv => ?_, fun j hj v hv => ?_⟩
  · have hpos := abs_pos.2 (h.col_ne j hj)
    rw [← hV.x j hj, abs_mul, ← eq_div_iff hpos.ne',
      hviol.x j (hn ▸ hj) _ (div_pos hv hpos), h.missed_iff hj (hp.x j hj)]
  · have hr := h.row_pos i hi
    have habs : |V.slack.value i| = v ↔ |V'.slack.value i| = r i * v := by
      rw [hV.slack i hi, abs_mul, abs_of_pos hr, mul_right_inj' hr.ne']
    rw [habs, hviol.slack i (hm ▸ hi) _ (mul_pos hr hv), h.types_eq, hp.slack i hi, ← mul_neg,
      mul_right_inj' hr.ne', mul_right_inj' hr.ne']
  · have hr := h.row_pos i hi
    rw [← hV.y i hi, ← hp.y i hi, abs_mul, abs_of_pos hr, mul_comm, ← eq_div_iff hr.ne',
      hviol.y i (hm ▸ hi) _ (div_pos hv hr), h.types_eq, mul_comm (r i), ← eq_div_iff hr.ne',
      ← eq_div_iff hr.ne', neg_div]
  · have hpos := abs_pos.2 (h.col_ne j hj)
    have habs : |V.z.value j| = v ↔ |V'.z.value j| = v * |d j| := by
      rw [hV.z j hj, abs_mul, mul_left_inj' hpos.ne']
    rw [habs, hviol.z j (hn ▸ hj) _ (mul_pos hv hpos), h.wrong_cost_iff hB hj (hp.z j hj)]

end Image

end Program

/-! ### Loaded models -/

namespace Model

variable {M : Model Extended}

namespace Exact

variable {u : UserPoint Extended} {B : Basis}

theorem sized_violations (hM : M.Exact) (hu : u.Sized M.program.numVar M.program.numConstr)
    (hB : B.varStatus.size = M.program.numVar) :
    (M.violations u B).Sized M.program.numVar M.program.numConstr := by
  have htypes := hM.regular.valid.size_types
  exact ⟨Array.size_mapIdx.trans hu.size_x,
    Array.size_zipWith.trans (by rw [hu.size_slack, htypes]; exact Nat.min_self _),
    Array.size_zipWith.trans (by rw [hu.size_y, htypes]; exact Nat.min_self _),
    Array.size_zipWith.trans (by rw [hu.size_z, hB, Nat.min_self])⟩

theorem violations_scaledProgram (hM : M.Exact)
    (hu : u.Sized M.program.numVar M.program.numConstr) (hf : u.Finite)
    (hB : B.varStatus.size = M.program.numVar) :
    (M.violations u B).Finite ∧ M.scaledProgram.Violations B u (M.violations u B) := by
  have hvalid := hM.regular.valid
  have hm : M.scaledProgram.numConstr = M.program.numConstr := hM.image.numConstr_eq
  have hn : M.scaledProgram.numVar = M.program.numVar := hM.image.numVar_eq
  have hsized := hM.sized_violations hu hB
  have hx : ∀ j < M.program.numVar, ∃ q, (M.violations u B).x.entry j = finite q ∧
      ∀ v > 0, |q| = v ↔ M.scaledProgram.lb.entry j = finite (u.x.value j + v) ∨
        M.scaledProgram.ub.entry j = finite (u.x.value j - v) := by
    intro j hj
    rw [violations, Vec.entry_mapIdx _ _ (u.x.getElem?_eq_some_entry (hu.size_x.symm ▸ hj)),
      Vec.entry_eq_finite hf.x]
    exact boundViolation_finite (hM.image.target.lower j (hn.symm ▸ hj))
      (hM.image.target.upper j (hn.symm ▸ hj)) (hM.image.not_upper_lt_lower hj
        (Program.not_upper_lt_lower_of_checkBound (hvalid.bound j hj))) _
  have hslack : ∀ i < M.program.numConstr, ∃ q, (M.violations u B).slack.entry i = finite q ∧
      ∀ v > 0, |q| = v ↔ M.program.types[i]? = some .lessEqual ∧ u.slack.value i = -v ∨
        M.program.types[i]? = some .greaterEqual ∧ u.slack.value i = v := by
    intro i hi
    obtain ⟨t, ht⟩ := hvalid.exists_type hi
    rw [violations, Vec.entry_zipWith _ _ _ ht (hu.size_slack.symm ▸ hi),
      Vec.entry_eq_finite hf.slack, ht]
    simpa only [Option.some_inj] using slackViolation_finite t (u.slack.value i)
  have hy : ∀ i < M.program.numConstr, ∃ q, (M.violations u B).y.entry i = finite q ∧
      ∀ v > 0, |q| = v ↔ M.program.types[i]? = some .lessEqual ∧ u.y.value i = v ∨
        M.program.types[i]? = some .greaterEqual ∧ u.y.value i = -v := by
    intro i hi
    obtain ⟨t, ht⟩ := hvalid.exists_type hi
    rw [violations, Vec.entry_zipWith _ _ _ ht (hu.size_y.symm ▸ hi), Vec.entry_eq_finite hf.y, ht]
    simpa only [Option.some_inj] using multiplierViolation_finite t (u.y.value i)
  have hz : ∀ j < M.program.numVar, ∃ q, (M.violations u B).z.entry j = finite q ∧
      ∀ v > 0, |q| = v ↔ B.varStatus[j]? ≠ some .nonbasicLower ∧ u.z.value j = v ∨
        B.varStatus[j]? ≠ some .nonbasicUpper ∧ u.z.value j = -v := by
    intro j hj
    have hb := Array.getElem?_eq_getElem (hB.symm ▸ hj)
    rw [violations, Vec.entry_zipWith _ _ _ hb (hu.size_z.symm ▸ hj), Vec.entry_eq_finite hf.z, hb]
    simpa only [ne_eq, Option.some_inj] using costViolation_finite _ (u.z.value j)
  have hfinite : ∀ {w : Vec Extended} {n : Nat} {p : Nat → Rat → Prop}, w.size = n →
      (∀ j < n, ∃ q, w.entry j = finite q ∧ p j q) → w.isFinite = true := by
    intro w n p hw h
    rw [Vec.isFinite_iff]
    intro j hj
    obtain ⟨q, hq, -⟩ := h j (hw ▸ hj)
    exact hq ▸ isFinite_finite q
  have hvalue : ∀ {w : Vec Extended} {j : Nat} {p : Rat → Prop},
      (∃ q, w.entry j = finite q ∧ p q) → p (w.value j) := by
    rintro w j p ⟨q, hq, h⟩
    rwa [Vec.value_of_entry hq]
  exact ⟨⟨hfinite hsized.size_x hx, hfinite hsized.size_slack hslack, hfinite hsized.size_y hy,
      hfinite hsized.size_z hz⟩,
    ⟨fun j hj => hvalue (hx j (hn ▸ hj)), fun i hi => hvalue (hslack i (hm ▸ hi)),
      fun i hi => hvalue (hy i (hm ▸ hi)), fun j hj => hvalue (hz j (hn ▸ hj))⟩⟩

/-- A solution is finite if it is after unscaling. -/
theorem finite_of_unscalePoint (hM : M.Exact)
    (hu : u.Sized M.program.numVar M.program.numConstr)
    (hf : (M.scaling.unscalePoint u).Finite) : u.Finite := by
  have h := Scaling.unscaled_unscalePoint hM.suits hM.positive_colscale hM.positive_rowscale hu
  have hcol := hM.image.col_ne
  have hrow := fun i hi => (hM.image.row_pos i hi).ne'
  have hfin : ∀ {v w : Vec Extended} {n : Nat}, v.isFinite = true → w.size = n →
      (∀ j < n, Scalar.isFinite (v.entry j) = Scalar.isFinite (w.entry j)) → w.isFinite = true :=
    fun hv hw heq => Vec.isFinite_iff.2 fun j hj =>
      heq j (hw ▸ hj) ▸ Vec.isFinite_entry hv j
  exact ⟨hfin hf.x hu.size_x fun j hj => by rw [h.x j hj, isFinite_mul (hcol j hj)],
    hfin hf.slack hu.size_slack fun i hi => by rw [h.slack i hi, isFinite_div (hrow i hi)],
    hfin hf.y hu.size_y fun i hi => by rw [h.y i hi, isFinite_mul (hrow i hi)],
    hfin hf.z hu.size_z fun j hj => by rw [h.z j hj, isFinite_div (hcol j hj)]⟩

theorem dot_obj (hM : M.Exact) (hu : u.Sized M.program.numVar M.program.numConstr)
    (hf : u.Finite) {p : UserPoint Extended}
    (hp : ∀ j < M.program.numVar, u.x.value j * M.scaling.signedFactor j = p.x.value j) :
    M.scaled.obj.dot u.x = finite (M.program.value p.x.value) := by
  rw [← hM.image.value_eq hp]
  exact Vec.dot_eq hM.image.target.finite_obj hf.x hM.image.target.size_obj
    (hu.size_x.trans hM.image.numVar_eq.symm)

end Exact

variable {s : SolverPoint Extended} {basis : Array BasisStatus}

/-- The quality of a basic solution of a loaded model is what the postsolved solution and the
postsolved basis show in user space, for every point and every accepted basis that give a finite
solution. -/
theorem evaluateBasic?_measures (hM : M.Loaded) (hs : s.Fits M.rows M.cols) {B : Basis}
    (hB : M.postsolveBasis? basis = some B) :
    ∃ p info, M.postsolveBasic? s basis = some p ∧ M.evaluateBasic? s basis = some info ∧
      (p.Finite → M.program.MeasuredBy B p info) := by
  have hE := hM.exact
  have hsuits := hE.suits
  have hc := hE.positive_colscale
  have hr := hE.positive_rowscale
  obtain ⟨hacc, rfl⟩ := hE.regular.postsolveBasis?_eq_some_iff.1 hB
  have hvar := (hacc.size_userBasis hE.regular).2
  have hsized := M.sized_matchBasis (hE.sized_userPoint hs) (M.userBasis basis)
  refine ⟨_, _, hacc.postsolveBasic?_eq hE.regular hs,
    by rw [evaluateBasic?, hacc.scaledBasic?_eq hE.regular hs]; rfl, fun hp => ?_⟩
  have hf := hE.finite_of_unscalePoint hsized hp
  have hpoint := (Scaling.image_unscalePoint hsuits hc hr hsized hf).2
  have hviolated := hE.sized_violations hsized hvar
  obtain ⟨hfinite, hviol⟩ := hE.violations_scaledProgram hsized hf hvar
  obtain ⟨hV, hscaled⟩ := Scaling.image_unscalePoint hsuits hc hr hviolated hfinite
  have huser := hE.image.violations (hE.image_unscaleBasis (M.userBasis basis)) hpoint hscaled hviol
  exact huser.measuredBy (Scaling.sized_unscalePoint hsuits hviolated) hV
    (hE.dot_obj hsized hf hpoint.x)

theorem evaluateBasic?_measures_mixed :
    ∃ M : Model Extended, M.Loaded ∧ M.program = Program.mixed ∧ M.dualized = true ∧
      ∃ p info, M.postsolveBasic? mixedSolution mixedStatuses = some p ∧
        M.evaluateBasic? mixedSolution mixedStatuses = some info ∧ p.Finite ∧
        Program.mixed.MeasuredBy ⟨#[.basic, .nonbasic],
          #[.nonbasicUpper, .basic, .nonbasicUpper, .nonbasicLower]⟩ p info := by
  obtain ⟨M, hM, hP, hp⟩ := exists_loaded { dualize := .always } Program.valid_mixed
    (p := fun M => decide (M.dualized = true ∧ mixedSolution.Fits M.rows M.cols ∧
      M.postsolveBasis? mixedStatuses = some ⟨#[.basic, .nonbasic],
        #[.nonbasicUpper, .basic, .nonbasicUpper, .nonbasicLower]⟩ ∧
      (M.postsolveBasic? mixedSolution mixedStatuses).all (fun p => decide p.Finite) = true))
    (by decide +kernel)
  obtain ⟨hdual, hs, hB, hfinite⟩ := of_decide_eq_true hp
  obtain ⟨p, info, hpost, hinfo, hmeasured⟩ := evaluateBasic?_measures hM hs hB
  rw [hpost, Option.all_some] at hfinite
  have hfinite := of_decide_eq_true hfinite
  exact ⟨M, hM, hP, hdual, p, info, hpost, hinfo, hfinite, hP ▸ hmeasured hfinite⟩

end Model

end LpPresolve
