import LpPresolve.Proofs.Interior.Starting

/-! The solver's side of an interior starting point. An accepted point gives the slack columns the
distances and multipliers that their bounds ask for, by the type of the constraint, and coming back
reads slacks and multipliers of the constraints from exactly these entries. -/

namespace LpPresolve

open Extended

namespace Extended

variable {p : Prop} {q : Rat}

theorem isDistance_finite (hp : ¬ p) (hq : 0 ≤ q) : IsDistance p (finite q) :=
  ⟨finite_le_finite.2 hq, iff_of_false Extended.noConfusion hp⟩

theorem isDistance_top (hp : p) : IsDistance p top :=
  ⟨finite_le_top 0, iff_of_true rfl hp⟩

theorem isMultiplier_finite (hp : ¬ p) (hq : 0 ≤ q) : IsMultiplier p (finite q) :=
  ⟨finite_le_finite.2 hq, finite_lt_top q, fun h => absurd h hp⟩

theorem isMultiplier_zero (p : Prop) : IsMultiplier p 0 :=
  ⟨finite_le_finite.2 le_rfl, finite_lt_top 0, fun _ => rfl⟩

end Extended

/-! ### The column of a slack -/

namespace ConstraintType

/-- The distances of the slack `s` of a constraint to its bounds. -/
def slackDistances : ConstraintType → Extended → Extended × Extended
  | equal, _ => (0, 0)
  | lessEqual, s => (s, top)
  | greaterEqual, s => (top, -s)

/-- The multipliers of the bounds of a slack, for the multiplier `y` of the constraint. -/
def slackMultipliers : ConstraintType → Extended → Extended × Extended
  | equal, _ => (0, 0)
  | lessEqual, y => (-y, 0)
  | greaterEqual, y => (0, y)

variable {t : ConstraintType} {s y : Extended}

theorem IsSlack.isDistance (h : t.IsSlack s) :
    Extended.IsDistance ((Form.slackLower t : Extended) = bottom) (t.slackDistances s).1 ∧
      Extended.IsDistance ((Form.slackUpper t : Extended) = top) (t.slackDistances s).2 := by
  obtain ⟨hfin, hsign⟩ := h
  obtain ⟨q, rfl⟩ := exists_eq_finite hfin
  cases t with
  | equal =>
    exact ⟨isDistance_finite Extended.noConfusion le_rfl,
      isDistance_finite Extended.noConfusion le_rfl⟩
  | lessEqual => exact ⟨isDistance_finite Extended.noConfusion hsign, isDistance_top rfl⟩
  | greaterEqual =>
    exact ⟨isDistance_top rfl, isDistance_finite Extended.noConfusion (neg_nonneg.2 hsign)⟩

theorem IsMultiplier.isMultiplier (h : t.IsMultiplier y) :
    Extended.IsMultiplier ((Form.slackLower t : Extended) = bottom) (t.slackMultipliers y).1 ∧
      Extended.IsMultiplier ((Form.slackUpper t : Extended) = top) (t.slackMultipliers y).2 := by
  obtain ⟨hfin, hsign⟩ := h
  obtain ⟨q, rfl⟩ := exists_eq_finite hfin
  cases t with
  | equal => exact ⟨isMultiplier_zero _, isMultiplier_zero _⟩
  | lessEqual =>
    exact ⟨isMultiplier_finite Extended.noConfusion (neg_nonneg.2 hsign), isMultiplier_zero _⟩
  | greaterEqual => exact ⟨isMultiplier_zero _, isMultiplier_finite Extended.noConfusion hsign⟩

theorem IsSlack.eq_zero (h : equal.IsSlack s) : s = 0 := by
  rw [eq_finite_value h.1, zero_eq, show s.value = 0 from h.2]

/-- The distances to finite bounds are differences. -/
theorem IsSlack.slackDistances_eq (h : t.IsSlack s) :
    (Scalar.isFinite (Form.slackLower t : Extended) = true →
      (t.slackDistances s).1 = s - Form.slackLower t) ∧
    (Scalar.isFinite (Form.slackUpper t : Extended) = true →
      (t.slackDistances s).2 = Form.slackUpper t - s) := by
  obtain ⟨hfin, hsign⟩ := h
  obtain ⟨q, rfl⟩ := exists_eq_finite hfin
  cases t with
  | equal =>
    obtain rfl : q = 0 := hsign
    exact ⟨fun _ => (Extended.sub_zero _).symm, fun _ => (Extended.sub_zero _).symm⟩
  | lessEqual => exact ⟨fun _ => (Extended.sub_zero _).symm, nofun⟩
  | greaterEqual =>
    refine ⟨nofun, fun _ => ?_⟩
    rw [slackDistances, Form.slackUpper, zero_eq, finite_sub_finite, neg_finite, zero_sub]

/-- For an inequality the difference of the multipliers is the reduced cost of the slack. -/
theorem IsMultiplier.slackMultipliers_sub (h : t.IsMultiplier y) (ht : t ≠ equal) :
    (t.slackMultipliers y).1 - (t.slackMultipliers y).2 = finite 0 - y := by
  obtain ⟨q, rfl⟩ := exists_eq_finite h.1
  cases t with
  | equal => exact absurd rfl ht
  | lessEqual =>
    rw [slackMultipliers, Extended.sub_zero, finite_sub_finite, neg_finite, zero_sub]
  | greaterEqual => rfl

end ConstraintType

namespace Model

variable {M : Model Extended} {s : SolverInterior Extended} {u : UserInterior Extended}

/-- The point suits the bounds of column `j` of the form. Distances are nonnegative, and infinite
exactly for infinite bounds. Multipliers are finite and nonnegative, and zero for infinite bounds. -/
structure WarmColumn (M : Model Extended) (s : SolverInterior Extended) (j : Nat) : Prop where
  xl : IsDistance (M.form.lb.entry j = bottom) (s.xl.entry j)
  xu : IsDistance (M.form.ub.entry j = top) (s.xu.entry j)
  zl : IsMultiplier (M.form.lb.entry j = bottom) (s.zl.entry j)
  zu : IsMultiplier (M.form.ub.entry j = top) (s.zu.entry j)

/-- The distances of the slack of constraint `i` are those to its finite bounds, and if the
constraint is an inequality, then the difference of the multipliers is the reduced cost. -/
structure WarmSlack (M : Model Extended) (s : SolverInterior Extended) (i : Nat) : Prop where
  lower : Scalar.isFinite (M.form.lb.entry (M.cols + i)) = true →
    s.xl.entry (M.cols + i) = s.x.entry (M.cols + i) - M.form.lb.entry (M.cols + i)
  upper : Scalar.isFinite (M.form.ub.entry (M.cols + i)) = true →
    s.xu.entry (M.cols + i) = M.form.ub.entry (M.cols + i) - s.x.entry (M.cols + i)
  reduced : M.program.types[i]? ≠ some .equal →
    s.zl.entry (M.cols + i) - s.zu.entry (M.cols + i) =
      M.form.c.entry (M.cols + i) - s.y.entry i

/-- The point suits the form of `M` as a starting point. -/
structure WarmStart (M : Model Extended) (s : SolverInterior Extended) : Prop where
  fits : s.Fits M.rows M.cols
  column : ∀ j < M.cols + M.rows, M.WarmColumn s j
  slack : ∀ i < M.rows, M.WarmSlack s i

/-- The slack and the multiplier of a constraint have the signs of its type. -/
theorem Exact.signs_of_admissible (hM : M.Exact) (ha : u.Admissible M.scaledProgram) {i : Nat}
    (hi : i < M.program.numConstr) {t : ConstraintType} (ht : M.program.types[i]? = some t) :
    t.IsSlack (u.slack.entry i) ∧ t.IsMultiplier (u.y.entry i) := by
  have hi' : i < M.scaledProgram.numConstr := hM.image.numConstr_eq ▸ hi
  exact ⟨ha.slack i hi' t ht, ha.y i hi' t ht⟩

/-- The column of the slack of constraint `i`, of type `t`. -/
theorem entry_solverInterior_slack (hu : u.Sized M.program.numVar M.program.numConstr)
    {i : Nat} (hi : i < M.program.numConstr) {t : ConstraintType}
    (ht : M.program.types[i]? = some t) :
    (M.solverInterior u).x.entry (M.program.numVar + i) = u.slack.entry i ∧
    (M.solverInterior u).xl.entry (M.program.numVar + i) = (t.slackDistances (u.slack.entry i)).1 ∧
    (M.solverInterior u).xu.entry (M.program.numVar + i) = (t.slackDistances (u.slack.entry i)).2 ∧
    (M.solverInterior u).zl.entry (M.program.numVar + i) = (t.slackMultipliers (u.y.entry i)).1 ∧
    (M.solverInterior u).zu.entry (M.program.numVar + i) =
      (t.slackMultipliers (u.y.entry i)).2 := by
  have hs : i < u.slack.size := hu.size_slack.symm ▸ hi
  have hy : i < u.y.size := hu.size_y.symm ▸ hi
  unfold solverInterior
  refine ⟨?_, ?_, ?_, ?_, ?_⟩ <;> simp only
  · rw [← hu.size_x, Vec.entry_append_right]
  · rw [← hu.size_xl, Vec.entry_append_right, Vec.entry_zipWith _ _ _ ht hs]
    cases t <;> rfl
  · rw [← hu.size_xu, Vec.entry_append_right, Vec.entry_zipWith _ _ _ ht hs]
    cases t <;> rfl
  · rw [← hu.size_zl, Vec.entry_append_right, Vec.entry_zipWith _ _ _ ht hy]
    cases t <;> rfl
  · rw [← hu.size_zu, Vec.entry_append_right, Vec.entry_zipWith _ _ _ ht hy]
    cases t <;> rfl

theorem entry_solverInterior_variable (hu : u.Sized M.program.numVar M.program.numConstr)
    {j : Nat} (hj : j < M.program.numVar) :
    (M.solverInterior u).xl.entry j = u.xl.entry j ∧
    (M.solverInterior u).xu.entry j = u.xu.entry j ∧
    (M.solverInterior u).zl.entry j = u.zl.entry j ∧
    (M.solverInterior u).zu.entry j = u.zu.entry j :=
  ⟨Vec.entry_append_left _ _ (hu.size_xl.symm ▸ hj),
    Vec.entry_append_left _ _ (hu.size_xu.symm ▸ hj),
    Vec.entry_append_left _ _ (hu.size_zl.symm ▸ hj),
    Vec.entry_append_left _ _ (hu.size_zu.symm ▸ hj)⟩

end Model

namespace Form.IsPrimal

variable {M : Model Extended} {u : UserInterior Extended}
  (hF : IsPrimal M.program M.scaled M.form) (hM : M.Exact)
  (hu : u.Sized M.program.numVar M.program.numConstr)

include hF hM hu

theorem fits_solverInterior : (M.solverInterior u).Fits M.rows M.cols := by
  have hcols : M.cols = M.program.numVar := hF.cols_eq
  have hrows : M.rows = M.program.numConstr := hF.rows_eq
  have htypes := hM.regular.valid.size_types
  rw [hcols, hrows]
  unfold Model.solverInterior SolverInterior.Fits
  simp only [Array.size_append, Array.size_zipWith, htypes, hu.size_x, hu.size_xl, hu.size_xu,
    hu.size_slack, hu.size_y, hu.size_zl, hu.size_zu, min_self, and_self]

section Admissible

variable (ha : u.Admissible M.scaledProgram)

include ha

theorem warmColumn_variable {j : Nat} (hj : j < M.program.numVar) :
    M.WarmColumn (M.solverInterior u) j := by
  have hj' : j < M.scaledProgram.numVar := hM.image.numVar_eq ▸ hj
  obtain ⟨hxl, hxu, hzl, hzu⟩ := Model.entry_solverInterior_variable hu hj
  constructor
  · rw [hF.entry_lb_variable hM hj, hxl]
    exact ha.xl j hj'
  · rw [hF.entry_ub_variable hM hj, hxu]
    exact ha.xu j hj'
  · rw [hF.entry_lb_variable hM hj, hzl]
    exact ha.zl j hj'
  · rw [hF.entry_ub_variable hM hj, hzu]
    exact ha.zu j hj'

theorem warmColumn_slack {i : Nat} (hi : i < M.program.numConstr) :
    M.WarmColumn (M.solverInterior u) (M.program.numVar + i) := by
  obtain ⟨t, ht⟩ := hM.regular.valid.exists_type hi
  obtain ⟨hslack, hy⟩ := hM.signs_of_admissible ha hi ht
  obtain ⟨-, hxl, hxu, hzl, hzu⟩ := Model.entry_solverInterior_slack hu hi ht
  have hlb := hF.entry_lb_slack hM ht
  have hub := hF.entry_ub_slack hM ht
  constructor
  · rw [hlb, hxl]
    exact hslack.isDistance.1
  · rw [hub, hxu]
    exact hslack.isDistance.2
  · rw [hlb, hzl]
    exact hy.isMultiplier.1
  · rw [hub, hzu]
    exact hy.isMultiplier.2

theorem warmSlack_solverInterior {i : Nat} (hi : i < M.program.numConstr) :
    M.WarmSlack (M.solverInterior u) i := by
  obtain ⟨t, ht⟩ := hM.regular.valid.exists_type hi
  obtain ⟨hslack, hy⟩ := hM.signs_of_admissible ha hi ht
  obtain ⟨hx, hxl, hxu, hzl, hzu⟩ := Model.entry_solverInterior_slack hu hi ht
  have hcols : M.cols = M.program.numVar := hF.cols_eq
  constructor
  · rw [hcols, hF.entry_lb_slack hM ht, hx, hxl]
    exact hslack.slackDistances_eq.1
  · rw [hcols, hF.entry_ub_slack hM ht, hx, hxu]
    exact hslack.slackDistances_eq.2
  · intro hne
    rw [hcols, hF.entry_c_slack hM i, hzl, hzu]
    rw [ht, ne_eq, Option.some_inj] at hne
    exact hy.slackMultipliers_sub hne

theorem warmStart_solverInterior : M.WarmStart (M.solverInterior u) where
  fits := hF.fits_solverInterior hM hu
  column := by
    have hcols : M.cols = M.program.numVar := hF.cols_eq
    have hrows : M.rows = M.program.numConstr := hF.rows_eq
    rw [hcols, hrows]
    exact forall_lt_add_iff_lt_left.2 ⟨fun j hj => hF.warmColumn_variable hM hu ha hj,
      fun i hi => hF.warmColumn_slack hM hu ha hi⟩
  slack := by
    have hrows : M.rows = M.program.numConstr := hF.rows_eq
    rw [hrows]
    exact fun i hi => hF.warmSlack_solverInterior hM hu ha hi

/-- Coming back undoes the way to the form. -/
theorem userInterior_solverInterior : M.userInterior (M.solverInterior u) = u := by
  have htypes := hM.regular.valid.size_types
  rw [Model.userInterior_primal hF.kind_eq]
  obtain ⟨x, xl, xu, slack, y, zl, zu⟩ := u
  congr
  · exact Vec.extract_append_left _ _ hu.size_x
  · exact Vec.extract_append_left _ _ hu.size_xl
  · exact Vec.extract_append_left _ _ hu.size_xu
  · apply Vec.ext_entry (by rw [Array.size_mapIdx, htypes, hu.size_slack])
    intro i hi
    rw [Array.size_mapIdx, htypes] at hi
    obtain ⟨t, ht⟩ := hM.regular.valid.exists_type hi
    obtain ⟨hslack, -⟩ := hM.signs_of_admissible ha hi ht
    obtain ⟨-, hxl, hxu, -, -⟩ := Model.entry_solverInterior_slack hu hi ht
    rw [Vec.entry_mapIdx _ _ ht]
    cases t with
    | equal => exact hslack.eq_zero.symm
    | lessEqual => exact hxl
    | greaterEqual => exact (congrArg Neg.neg hxu).trans (Extended.neg_neg _)
  · apply Vec.ext_entry (by rw [Array.size_mapIdx, htypes, hu.size_y])
    intro i hi
    rw [Array.size_mapIdx, htypes] at hi
    obtain ⟨t, ht⟩ := hM.regular.valid.exists_type hi
    obtain ⟨-, -, -, hzl, hzu⟩ := Model.entry_solverInterior_slack hu hi ht
    rw [Vec.entry_mapIdx _ _ ht]
    cases t with
    | equal => rfl
    | lessEqual => exact (congrArg Neg.neg hzl).trans (Extended.neg_neg _)
    | greaterEqual => exact hzu
  · exact Vec.extract_append_left _ _ hu.size_zl
  · exact Vec.extract_append_left _ _ hu.size_zu

end Admissible

end Form.IsPrimal

namespace Model

variable {M : Model Extended} {s : SolverInterior Extended}

/-- What an accepted point has passed. -/
theorem of_presolveInterior_eq_ok {p : PartialInterior Extended}
    (h : M.presolveInterior p = .ok s) :
    M.dualized = false ∧ ∃ u : UserInterior Extended, p = u.toPartial ∧
      u.Sized M.program.numVar M.program.numConstr ∧
      M.checkInterior (M.scaling.scaleInterior u) = .ok () ∧
      s = M.solverInterior (M.scaling.scaleInterior u) := by
  cases hmissing : p.firstMissing with
  | some name =>
    rw [presolveInterior_of_missing hmissing] at h
    cases h
  | none =>
    obtain ⟨u, rfl⟩ := PartialInterior.exists_toPartial hmissing
    rw [presolveInterior_toPartial] at h
    split_ifs at h with hdual
    split at h
    · cases h
    · next hfits =>
      cases hcheck : M.checkInterior (M.scaling.scaleInterior u) with
      | error e =>
        rw [hcheck] at h
        cases h
      | ok =>
        rw [hcheck] at h
        exact ⟨Bool.eq_false_iff.2 hdual, u, rfl, UserInterior.firstMisfit_eq_none_iff.1 hfits,
          hcheck, (Except.ok.inj h).symm⟩

/-- An accepted starting point suits the form, slack columns included, and comes back unchanged. -/
theorem presolveInterior_warmStart (hM : M.Loaded) {p : PartialInterior Extended}
    (h : M.presolveInterior p = .ok s) :
    M.WarmStart s ∧ ∃ u : UserInterior Extended, p = u.toPartial ∧
      M.postsolveInterior? s = some u := by
  have hE := hM.exact
  obtain ⟨hprimal, u, rfl, hu, hcheck, rfl⟩ := of_presolveInterior_eq_ok h
  have hF : Form.IsPrimal M.program M.scaled M.form := hE.regular.isPrimal hprimal
  have hsized := Scaling.sized_scaleInterior hE.suits hu
  have hadm := (checkInterior_eq_ok_iff hE hsized).1 hcheck
  have hwarm := hF.warmStart_solverInterior hE hsized hadm
  refine ⟨hwarm, u, rfl, ?_⟩
  rw [postsolveInterior?, if_pos hwarm.fits, hF.userInterior_solverInterior hE hsized hadm,
    Scaling.unscaleInterior_scaleInterior hE.suits hE.positive_colscale hE.positive_rowscale hu]

theorem presolveInterior_warmStart_mixed :
    ∃ M : Model Extended, M.Loaded ∧ M.program = Program.mixed ∧
      ∃ s, M.presolveInterior mixedStart.toPartial = .ok s ∧ M.WarmStart s ∧
        M.postsolveInterior? s = some mixedStart := by
  obtain ⟨M, hM, hP, hok⟩ := exists_loaded { dualize := .never } Program.valid_mixed
    (p := fun M => (M.presolveInterior mixedStart.toPartial).isOk) (by decide +kernel)
  cases h : M.presolveInterior mixedStart.toPartial with
  | error e =>
    rw [h] at hok
    cases hok
  | ok s =>
    obtain ⟨hwarm, u, hu, hback⟩ := presolveInterior_warmStart hM h
    obtain rfl := UserInterior.toPartial_injective hu
    exact ⟨M, hM, hP, s, h, hwarm, hback⟩

end Model

end LpPresolve
