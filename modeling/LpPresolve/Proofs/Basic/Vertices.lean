import LpPresolve.Proofs.Basic.Solutions
import LpPresolve.Proofs.Exact.Transfer

/-! Exact basic solutions. Where the solver's point sits at the bounds that its basis names, and
its reduced costs are exact and vanish in the basis, every correction writes the value that is there
already. In the primal form each correction reads one column. In the dual form active slacks and
variables at their bounds come from the reduced costs of basic columns, and zero multipliers and
reduced costs from nonbasic columns, whose finite bounds are all zero. -/

namespace LpPresolve

open Extended

theorem Vec.entry_eq_zero {v : Vec Extended} (hv : v.isFinite = true) {i : Nat}
    (h : v.value i = 0) : v.entry i = 0 := by
  rw [entry_eq_finite hv, h]
  rfl

/-- At most one point of a given size is the other one moved to the basis. -/
theorem Program.MovedTo.unique {P : Program Extended} {B : Basis} {q p p' : UserPoint Extended}
    (h : P.MovedTo B q p) (h' : P.MovedTo B q p') (hp : p.Sized P.numVar P.numConstr)
    (hp' : p'.Sized P.numVar P.numConstr) : p = p' := by
  have hx : p.x = p'.x := by
    refine Vec.ext_entry (hp.size_x.trans hp'.size_x.symm) fun j hj => ?_
    rw [hp.size_x] at hj
    by_cases hl : B.varStatus[j]? = some .nonbasicLower
    · rw [h.x_lower j hj hl, h'.x_lower j hj hl]
    · by_cases hu : B.varStatus[j]? = some .nonbasicUpper
      · rw [h.x_upper j hj hu, h'.x_upper j hj hu]
      · rw [h.x_kept j hj hl hu, h'.x_kept j hj hl hu]
  have hslack : p.slack = p'.slack := by
    refine Vec.ext_entry (hp.size_slack.trans hp'.size_slack.symm) fun i hi => ?_
    rw [hp.size_slack] at hi
    by_cases hs : B.constrStatus[i]? = some .nonbasic
    · rw [h.slack_active i hi hs, h'.slack_active i hi hs]
    · rw [h.slack_kept i hi hs, h'.slack_kept i hi hs]
  have hy : p.y = p'.y := by
    refine Vec.ext_entry (hp.size_y.trans hp'.size_y.symm) fun i hi => ?_
    rw [hp.size_y] at hi
    by_cases hs : B.constrStatus[i]? = some .basic
    · rw [h.y_inactive i hi hs, h'.y_inactive i hi hs]
    · rw [h.y_kept i hi hs, h'.y_kept i hi hs]
  have hz : p.z = p'.z := by
    refine Vec.ext_entry (hp.size_z.trans hp'.size_z.symm) fun j hj => ?_
    rw [hp.size_z] at hj
    by_cases hs : B.varStatus[j]? = some .basic
    · rw [h.z_basic j hj hs, h'.z_basic j hj hs]
    · rw [h.z_kept j hj hs, h'.z_kept j hj hs]
  obtain ⟨x, slack, y, z⟩ := p
  obtain ⟨x', slack', y', z'⟩ := p'
  simp only at hx hslack hy hz
  rw [hx, hslack, hy, hz]

namespace Form

/-! ### Basic solutions of a form -/

/-- The point `s` has the reduced costs of its multipliers and sits where the basis says: basic
columns have no reduced cost, nonbasic ones are at the finite bound named, and superbasic ones have
no bounds and are zero in the dual form. -/
@[mk_iff]
structure IsBasicSolution (F : Form Extended) (basis : Array BasisStatus)
    (s : SolverPoint Extended) : Prop where
  reduced : ∀ j < F.cols + F.rows, s.z.value j = F.c.value j - F.AI.colDot j s.y.value
  basic : ∀ j < F.cols + F.rows, basis[j]? = some .basic → s.z.value j = 0
  lower : ∀ j < F.cols + F.rows, basis[j]? = some .nonbasicLower →
    Scalar.isFinite (F.lb.entry j) = true ∧ s.x.entry j = F.lb.entry j
  upper : ∀ j < F.cols + F.rows, basis[j]? = some .nonbasicUpper →
    Scalar.isFinite (F.ub.entry j) = true ∧ s.x.entry j = F.ub.entry j
  superbasic : ∀ j < F.cols + F.rows, basis[j]? = some .superbasic →
    F.lb.entry j = bottom ∧ F.ub.entry j = top ∧ (F.isDualized = true → s.x.entry j = 0)

instance (F : Form Extended) (basis : Array BasisStatus) (s : SolverPoint Extended) :
    Decidable (F.IsBasicSolution basis s) :=
  decidable_of_iff _ (isBasicSolution_iff F basis s).symm

/-- The finite bounds of column `j` are zero. -/
structure ZeroBounds (F : Form Extended) (j : Nat) : Prop where
  lower : Scalar.isFinite (F.lb.entry j) = true → F.lb.entry j = 0
  upper : Scalar.isFinite (F.ub.entry j) = true → F.ub.entry j = 0

variable {M : Model Extended} {s : SolverPoint Extended} {basis : Array BasisStatus}

theorem IsBasicSolution.eq_zero {F : Form Extended} (h : F.IsBasicSolution basis s) {j : Nat}
    (hj : j < F.cols + F.rows) (hsize : basis.size = F.cols + F.rows) (hbounds : F.ZeroBounds j)
    (hsuper : basis[j]? = some .superbasic → s.x.entry j = 0) (hnot : ¬ BasicAt basis j) :
    s.x.entry j = 0 := by
  have hget : basis[j]? = some basis[j] := Array.getElem?_eq_getElem (hsize ▸ hj)
  cases hb : basis[j] with
  | basic => exact absurd (hget.trans (congrArg some hb)) hnot
  | nonbasicLower =>
    obtain ⟨hfin, hx⟩ := h.lower j hj (hget.trans (congrArg some hb))
    exact hx.trans (hbounds.lower hfin)
  | nonbasicUpper =>
    obtain ⟨hfin, hx⟩ := h.upper j hj (hget.trans (congrArg some hb))
    exact hx.trans (hbounds.upper hfin)
  | superbasic => exact hsuper (hget.trans (congrArg some hb))

theorem slackLower_eq_zero {t : ConstraintType}
    (h : Scalar.isFinite (slackLower t : Extended) = true) : (slackLower t : Extended) = 0 := by
  cases t with
  | equal | lessEqual => rfl
  | greaterEqual => exact Bool.noConfusion h

theorem slackUpper_eq_zero {t : ConstraintType}
    (h : Scalar.isFinite (slackUpper t : Extended) = true) : (slackUpper t : Extended) = 0 := by
  cases t with
  | equal | greaterEqual => rfl
  | lessEqual => exact Bool.noConfusion h

theorem multiplierLower_eq_zero {t : ConstraintType}
    (h : Scalar.isFinite (multiplierLower t : Extended) = true) :
    (multiplierLower t : Extended) = 0 := by
  cases t with
  | greaterEqual => rfl
  | equal | lessEqual => exact Bool.noConfusion h

theorem multiplierUpper_eq_zero {t : ConstraintType}
    (h : Scalar.isFinite (multiplierUpper t : Extended) = true) :
    (multiplierUpper t : Extended) = 0 := by
  cases t with
  | lessEqual => rfl
  | equal | greaterEqual => exact Bool.noConfusion h

/-! ### Primal form -/

namespace IsPrimal

variable (hF : IsPrimal M.program M.scaled M.form) (hM : M.Exact)

include hF

theorem varStatus_userBasis (h : M.Accepts basis) {j : Nat} (hj : j < M.program.numVar) :
    (M.userBasis basis).varStatus[j]? = basis[j]? := by
  have hs := h.size
  have hcols := hF.cols_model
  unfold Model.userBasis
  simp only [hF.kind_eq]
  rw [Array.getElem?_extract, if_pos (by omega), Nat.zero_add]

include hM

theorem zeroBounds_slack {i : Nat} (hi : i < M.program.numConstr) :
    M.form.ZeroBounds (M.program.numVar + i) := by
  obtain ⟨t, ht⟩ := hM.regular.valid.exists_type hi
  refine ⟨fun h => ?_, fun h => ?_⟩
  · rw [hF.entry_lb_slack hM ht] at h ⊢
    exact slackLower_eq_zero h
  · rw [hF.entry_ub_slack hM ht] at h ⊢
    exact slackUpper_eq_zero h

/-- Nothing is left to move in the primal form. -/
theorem movedTo_self (hs : s.Fits M.rows M.cols) (hf : s.Finite) (hacc : M.Accepts basis)
    (h : M.form.IsBasicSolution basis s) :
    M.scaledProgram.MovedTo (M.userBasis basis) (M.userPoint s) (M.userPoint s) := by
  have hm : M.scaledProgram.numConstr = M.program.numConstr := hM.image.numConstr_eq
  have hn : M.scaledProgram.numVar = M.program.numVar := hM.image.numVar_eq
  have hrows : M.rows = M.program.numConstr := hF.rows_eq
  have hcols := hF.cols_add_rows
  obtain ⟨hconstr, hvar⟩ := hacc.basicAt_primal hF
  obtain ⟨hx, hslack, hy, hz⟩ := hF.value_userPoint hs
  have hu := hF.finite_userPoint hs hf
  -- the column of a variable has its status, bounds and value
  have hentry : ∀ j < M.program.numVar, (M.userPoint s).x.entry j = s.x.entry j := fun j hj => by
    rw [Vec.entry_eq_finite hu.x, hx j hj, ← Vec.entry_eq_finite hf.x]
  refine ⟨fun j hj hst => ?_, fun j hj hst => ?_, fun _ _ _ _ => rfl, fun i hi hst => ?_,
    fun _ _ _ => rfl, fun i hi hst => ?_, fun _ _ _ => rfl, fun j hj hst => ?_, fun _ _ _ => rfl⟩
  · rw [hn] at hj
    rw [hF.varStatus_userBasis hacc hj] at hst
    rw [hentry j hj, (h.lower j (by omega) hst).2, hF.entry_lb_variable hM hj]
  · rw [hn] at hj
    rw [hF.varStatus_userBasis hacc hj] at hst
    rw [hentry j hj, (h.upper j (by omega) hst).2, hF.entry_ub_variable hM hj]
  · rw [hm] at hi
    have hnot : ¬ BasicAt basis (M.program.numVar + i) := fun hb => by
      rw [(hconstr i hi).2 hb] at hst
      exact ConstraintStatus.noConfusion (Option.some.inj hst)
    have hsuper : basis[M.program.numVar + i]? ≠ some .superbasic :=
      hF.cols_model ▸ hacc.identity i (hrows.symm ▸ hi)
    have hzero := h.eq_zero (by omega) hacc.size (hF.zeroBounds_slack hM hi)
      (fun hb => absurd hb hsuper) hnot
    rw [Vec.entry_eq_finite hu.slack, hslack i hi, ← Vec.entry_eq_finite hf.x, hzero]
  · rw [hm] at hi
    have hlt : M.program.numVar + i < M.form.cols + M.form.rows := by omega
    have hzero := h.basic _ hlt ((hconstr i hi).1 hst)
    have hcost := (hF.column_slack_iff hM hi _ _).1 (eq_sub_iff_add_eq'.1 (h.reduced _ hlt))
    exact Vec.entry_eq_zero hu.y ((hy i hi).trans (neg_eq_zero.1 (hcost.symm.trans hzero)))
  · rw [hn] at hj
    exact Vec.entry_eq_zero hu.z ((hz j hj).trans (h.basic j (by omega) ((hvar j hj).1 hst)))

end IsPrimal

/-! ### Dual form -/

namespace IsDual

variable (hF : IsDual M.program M.scaled M.form) (hM : M.Exact)

include hF hM

theorem zeroBounds : ∀ j < M.form.cols + M.form.rows, M.form.ZeroBounds j := by
  rw [hF.cols_add_rows, forall_lt_add_iff_lt_left, forall_lt_add_iff_lt_left]
  refine ⟨⟨fun i hi => ?_, fun k hk => ⟨fun _ => hF.entry_lb_bound hM k, fun h => ?_⟩⟩,
    fun j hj => ⟨fun _ => ?_, fun h => ?_⟩⟩
  · obtain ⟨t, ht⟩ := hM.regular.valid.exists_type hi
    refine ⟨fun h => ?_, fun h => ?_⟩
    · rw [hF.entry_lb_row ht] at h ⊢
      exact multiplierLower_eq_zero h
    · rw [hF.entry_ub_row ht] at h ⊢
      exact multiplierUpper_eq_zero h
  · rw [hF.entry_ub_upper hM hk] at h
    exact Bool.noConfusion h
  · rw [Nat.add_assoc]
    exact hF.entry_lb_bound hM _
  · rw [hF.entry_ub_lower hM hj] at h ⊢
    split_ifs at h ⊢
    · exact Bool.noConfusion h
    · rfl

theorem eq_zero_of_not_basicAt (hacc : M.Accepts basis) (h : M.form.IsBasicSolution basis s)
    {j : Nat} (hj : j < M.form.cols + M.form.rows) (hnot : ¬ BasicAt basis j) :
    s.x.entry j = 0 :=
  h.eq_zero hj hacc.size (hF.zeroBounds hM j hj)
    (fun hb => (h.superbasic j hj hb).2.2 (Model.dualized_of_isDual hF)) hnot

/-- Nothing is left to move in the dual form. -/
theorem movedTo_self (hs : s.Fits M.rows M.cols) (hf : s.Finite) (hacc : M.Accepts basis)
    (h : M.form.IsBasicSolution basis s) :
    M.scaledProgram.MovedTo (M.userBasis basis) (M.userPoint s) (M.userPoint s) := by
  have hm : M.scaledProgram.numConstr = M.program.numConstr := hM.image.numConstr_eq
  have hn : M.scaledProgram.numVar = M.program.numVar := hM.image.numVar_eq
  have hall := hF.cols_add_rows
  have hcols := hF.cols_model
  obtain ⟨hconstr, hvar⟩ := hacc.basicAt_dual hF
  obtain ⟨hx, hslack, hy, hz⟩ := hF.value_userPoint hM hs hf
  have hu := hF.finite_userPoint hM hs hf
  have hzero := fun {j} => hF.eq_zero_of_not_basicAt hM hacc h (j := j)
  -- a basic column has no reduced cost
  have hcost : ∀ j < M.form.cols + M.form.rows, BasicAt basis j →
      M.form.AI.colDot j s.y.value + 0 = M.form.c.value j := fun j hj hb =>
    eq_sub_iff_add_eq'.1 ((h.basic j hj hb).symm.trans (h.reduced j hj))
  refine ⟨fun j hj hst => ?_, fun j hj hst => ?_, fun _ _ _ _ => rfl, fun i hi hst => ?_,
    fun _ _ _ => rfl, fun i hi hst => ?_, fun _ _ _ => rfl, fun j hj hst => ?_, fun _ _ _ => rfl⟩
  · rw [hn] at hj
    obtain ⟨hb, hfin⟩ := (Model.basicAt_of_varStatus hF).1 hst
    have hat := (hF.column_lower_iff hM hj _ _).1 (hcost _ (by omega) (hcols ▸ hb))
    have hlb : M.scaledProgram.lb.entry j = finite (M.scaledProgram.lb.value j) :=
      eq_finite_value hfin
    rw [Vec.entry_eq_finite hu.x, hx j hj, hlb, sub_eq_zero.1 hat.symm]
  · rw [hn] at hj
    obtain ⟨hmem, hb⟩ := (Model.basicAt_of_varStatus hF).2 hst
    have hk := List.idxOf_lt_length_of_mem hmem
    have hat := (hF.column_upper_iff hM hk _ _).1 (hcost _ (by omega) hb)
    rw [List.getElem_idxOf hk] at hat
    rw [Vec.entry_eq_finite hu.x, hx j hj, IsDual.entry_ub_boxed hM hmem, sub_eq_zero.1 hat.symm]
  · rw [hm] at hi
    have hb : BasicAt basis i := by
      by_contra hnot
      rw [(hconstr i hi).2 hnot] at hst
      exact ConstraintStatus.noConfusion (Option.some.inj hst)
    refine Vec.entry_eq_zero hu.slack ?_
    rw [hslack i hi, h.basic i (by omega) hb, neg_zero]
  · rw [hm] at hi
    have hxi := hzero (by omega) ((hconstr i hi).1 hst)
    rw [Vec.entry_eq_finite hu.y, hy i hi, ← Vec.entry_eq_finite hf.x, hxi]
  · rw [hn] at hj
    -- neither column of the variable is basic, so both parts of its reduced cost are zero
    obtain ⟨hlow, hup⟩ := (hvar j hj).1 hst
    have hlower : s.x.value (M.program.numConstr + M.program.boxed.length + j) = 0 :=
      Vec.value_of_entry (hzero (by omega) (hcols ▸ hlow))
    have hupper : upperPart M.program M.program.numConstr s.x.value j = 0 := by
      rw [upperPart]
      split_ifs with hmem
      · have hk := List.idxOf_lt_length_of_mem hmem
        exact Vec.value_of_entry (hzero (by omega) fun hb => hup ⟨hmem, hb⟩)
      · rfl
    refine Vec.entry_eq_zero hu.z ?_
    rw [hz j hj, hlower, hupper, sub_zero]

end IsDual

end Form

namespace Model

variable {M : Model Extended} {s : SolverPoint Extended} {basis : Array BasisStatus}

/-- For an exact basic solution of a loaded model, postsolving with the basis agrees with
postsolving the point alone. -/
theorem postsolveBasic?_eq_postsolvePoint? (hM : M.Loaded) (hs : s.Fits M.rows M.cols)
    (hf : s.Finite) {B : Basis} (hB : M.postsolveBasis? basis = some B)
    (h : M.form.IsBasicSolution basis s) :
    ∃ p, M.postsolveBasic? s basis = some p ∧ M.postsolvePoint? s = some p := by
  have hE := hM.exact
  have hm : M.scaledProgram.numConstr = M.program.numConstr := hE.image.numConstr_eq
  have hn : M.scaledProgram.numVar = M.program.numVar := hE.image.numVar_eq
  obtain ⟨hacc, -⟩ := hE.regular.postsolveBasis?_eq_some_iff.1 hB
  have hu := hE.sized_userPoint hs
  have hself : M.scaledProgram.MovedTo (M.userBasis basis) (M.userPoint s) (M.userPoint s) :=
    hE.regular.form.elim (fun hF => hF.movedTo_self hE hs hf hacc h)
      fun hF => hF.movedTo_self hE hs hf hacc h
  have hmatch : M.matchBasis (M.userBasis basis) (M.userPoint s) = M.userPoint s :=
    (hE.movedTo_matchBasis hu _).unique hself (hn.symm ▸ hm.symm ▸ M.sized_matchBasis hu _)
      (hn.symm ▸ hm.symm ▸ hu)
  refine ⟨_, hacc.postsolveBasic?_eq hE.regular hs, ?_⟩
  rw [hmatch]
  exact if_pos hs

/-- The solution of the dual form of `Program.mixed` for the basis `mixedStatuses`. -/
def mixedVertex : SolverPoint Extended where
  x := #[finite 0, finite 2, finite (1 / 16), finite 0, finite 0, finite 3, finite 3]
  y := #[finite (-32), finite 15, finite 7, finite 0]
  z := #[finite (-1913 / 1024), finite 0, finite 0, finite 48, finite (-15), finite 0, finite 0]

theorem postsolveBasic?_eq_postsolvePoint?_mixed :
    ∃ M : Model Extended, M.Loaded ∧ M.program = Program.mixed ∧ M.dualized = true ∧
      M.form.IsBasicSolution mixedStatuses mixedVertex ∧
      ∃ p, M.postsolveBasic? mixedVertex mixedStatuses = some p ∧
        M.postsolvePoint? mixedVertex = some p := by
  obtain ⟨M, hM, hP, hp⟩ := exists_loaded { dualize := .always } Program.valid_mixed
    (p := fun M => decide (M.dualized = true ∧ mixedVertex.Fits M.rows M.cols ∧
      (M.postsolveBasis? mixedStatuses).isSome = true ∧
      M.form.IsBasicSolution mixedStatuses mixedVertex)) (by decide +kernel)
  obtain ⟨hdual, hs, hsome, h⟩ := of_decide_eq_true hp
  obtain ⟨B, hB⟩ := Option.isSome_iff_exists.1 hsome
  have hf : mixedVertex.Finite := ⟨by decide +kernel, by decide +kernel, by decide +kernel⟩
  exact ⟨M, hM, hP, hdual, h, postsolveBasic?_eq_postsolvePoint? hM hs hf hB h⟩

end Model

end LpPresolve
