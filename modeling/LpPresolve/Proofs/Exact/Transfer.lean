import LpPresolve.Proofs.Exact.Forms
import LpPresolve.Proofs.Transfer.Point

/-! Points across the computational form in exact arithmetic. Finite points stay finite in both
directions, and each of their values is read off the other side. -/

namespace LpPresolve

open Extended

namespace Model

variable {M : Model Extended} {s : SolverPoint Extended} {u : UserPoint Extended}

/-! ### The parts of a reduced cost -/

theorem entry_upperCosts_finite {z : Vec Extended} (hz : z.isFinite = true) {k : Nat}
    (hk : k < M.program.boxed.length) : (M.upperCosts z).entry k =
      finite (if z.value M.program.boxed[k] < 0 then -z.value M.program.boxed[k] else 0) := by
  rw [upperCosts, Vec.entry_eq_getElem _ (by simpa using hk)]
  simp only [List.getElem_toArray, List.getElem_map, Vec.entry_eq_finite hz, zero_eq,
    finite_lt_finite, neg_finite]
  split_ifs <;> rfl

theorem entry_lowerCosts_finite (hM : M.program.Valid) {z : Vec Extended}
    (hz : z.isFinite = true) {j : Nat} (hj : j < z.size) : (M.lowerCosts z).entry j =
      finite (if j ∈ M.program.boxed then (if z.value j < 0 then 0 else z.value j)
        else z.value j) := by
  rw [entry_lowerCosts hM z hj]
  simp only [Vec.entry_eq_finite hz, zero_eq, finite_lt_finite]
  split_ifs <;> rfl

theorem entry_mergeCosts_finite (hM : M.program.Valid) {w z : Vec Extended}
    (hw : w.isFinite = true) (hz : z.isFinite = true) (start : Nat) {j : Nat} (hj : j < z.size) :
    (M.mergeCosts w start z).entry j =
      finite (z.value j - Form.upperPart M.program start w.value j) := by
  rw [entry_mergeCosts hM w start z hj, Form.upperPart]
  simp only [Vec.entry_eq_finite hz, Vec.entry_eq_finite hw, finite_sub_finite]
  split_ifs
  · rfl
  · rw [sub_zero]

theorem entry_identityCosts_finite (hc : M.form.c.isFinite = true) {y : Vec Extended}
    (hy : y.isFinite = true) {i : Nat} (hi : i < M.rows) : (M.identityCosts y).entry i =
      finite (M.form.c.value (M.cols + i) - y.value i) := by
  rw [identityCosts, Vec.entry_range _ _ hi, Vec.entry_eq_finite hc, Vec.entry_eq_finite hy,
    finite_sub_finite]

theorem isFinite_identityCosts (hc : M.form.c.isFinite = true) {y : Vec Extended}
    (hy : y.isFinite = true) : (M.identityCosts y).isFinite = true :=
  Vec.isFinite_of_entry fun _ hi =>
    entry_identityCosts_finite hc hy (by simpa [identityCosts] using hi)

end Model

namespace Form

variable {M : Model Extended} {s : SolverPoint Extended} {u : UserPoint Extended}

/-! ### Primal form -/

namespace IsPrimal

variable (hF : IsPrimal M.program M.scaled M.form) (hM : M.Exact)

include hF

theorem cols_model : M.cols = M.program.numVar := hF.cols_eq

theorem size_of_fits (hs : s.Fits M.rows M.cols) :
    s.x.size = M.program.numVar + M.program.numConstr ∧ s.y.size = M.program.numConstr ∧
      s.z.size = M.program.numVar + M.program.numConstr := by
  rw [← hF.cols_eq, ← hF.rows_eq]
  exact hs

theorem finite_userPoint (hs : s.Fits M.rows M.cols) (hf : s.Finite) :
    (M.userPoint s).Finite := by
  obtain ⟨hx, -, hz⟩ := hF.size_of_fits hs
  rw [Model.userPoint_primal hF.kind_eq]
  exact ⟨Vec.isFinite_extract hf.x (by omega), Vec.isFinite_extract hf.x le_rfl, hf.y,
    Vec.isFinite_extract hf.z (by omega)⟩

theorem value_userPoint (hs : s.Fits M.rows M.cols) :
    (∀ j < M.program.numVar, (M.userPoint s).x.value j = s.x.value j) ∧
    (∀ i < M.program.numConstr,
      (M.userPoint s).slack.value i = s.x.value (M.program.numVar + i)) ∧
    (∀ i < M.program.numConstr, (M.userPoint s).y.value i = s.y.value i) ∧
    ∀ j < M.program.numVar, (M.userPoint s).z.value j = s.z.value j := by
  obtain ⟨hx, -, hz⟩ := hF.size_of_fits hs
  rw [Model.userPoint_primal hF.kind_eq]
  refine ⟨fun j hj => ?_, fun i hi => ?_, fun _ _ => rfl, fun j hj => ?_⟩
  · rw [Vec.value_extract _ (by omega) (by omega), Nat.zero_add]
  · rw [Vec.value_extract _ (by omega) le_rfl]
  · rw [Vec.value_extract _ (by omega) (by omega), Nat.zero_add]

include hM

theorem finite_solverPoint (hf : u.Finite) : (M.solverPoint u).Finite := by
  rw [Model.solverPoint_primal hF.kind_eq]
  exact ⟨Vec.isFinite_append hf.x hf.slack, hf.y,
    Vec.isFinite_append hf.z (Model.isFinite_identityCosts (hF.exact hM).finite_c hf.y)⟩

theorem value_solverPoint (hu : u.Sized M.program.numVar M.program.numConstr) (hf : u.Finite) :
    (∀ j < M.program.numVar, (M.solverPoint u).x.value j = u.x.value j) ∧
    (∀ i, (M.solverPoint u).x.value (M.program.numVar + i) = u.slack.value i) ∧
    (∀ i, (M.solverPoint u).y.value i = u.y.value i) ∧
    (∀ j < M.program.numVar, (M.solverPoint u).z.value j = u.z.value j) ∧
    ∀ i < M.program.numConstr,
      (M.solverPoint u).z.value (M.program.numVar + i) = -u.y.value i := by
  have hrows : M.rows = M.program.numConstr := hF.rows_eq
  rw [Model.solverPoint_primal hF.kind_eq]
  refine ⟨fun j hj => Vec.value_append_left _ _ (hu.size_x.symm ▸ hj), fun i => ?_, fun _ => rfl,
    fun j hj => Vec.value_append_left _ _ (hu.size_z.symm ▸ hj), fun i hi => ?_⟩
  · rw [← hu.size_x, Vec.value_append_right]
  · have hentry := Model.entry_identityCosts_finite (hF.exact hM).finite_c hf.y (hrows.symm ▸ hi)
    rw [hF.cols_model, Vec.value_of_entry (hF.entry_c_slack hM i), zero_sub] at hentry
    simp only
    rw [← hu.size_z, Vec.value_append_right, Vec.value_of_entry hentry]

end IsPrimal

/-! ### Dual form -/

/-- How the vectors of the dual form stand for a point of the scaled program: its multipliers come
with the two parts of its reduced costs, and its slacks with the distances to the bounds. -/
structure DualVectors (M : Model Extended) (x slack y zred w z : Nat → Rat) : Prop where
  multiplier : ∀ i < M.program.numConstr, w i = y i
  upper_part : ∀ k (hk : k < M.program.boxed.length), w (M.program.numConstr + k) =
    if zred M.program.boxed[k] < 0 then -zred M.program.boxed[k] else 0
  lower_part : ∀ j < M.program.numVar, w (M.program.numConstr + M.program.boxed.length + j) =
    if j ∈ M.program.boxed then (if zred j < 0 then 0 else zred j) else zred j
  slack : ∀ i < M.program.numConstr, z i = -slack i
  upper_distance : ∀ k (hk : k < M.program.boxed.length), z (M.program.numConstr + k) =
    M.scaledProgram.ub.value M.program.boxed[k] - x M.program.boxed[k]
  lower_distance : ∀ j < M.program.numVar,
    z (M.program.numConstr + M.program.boxed.length + j) = x j - M.scaledProgram.lb.value j

namespace IsDual

variable (hF : IsDual M.program M.scaled M.form) (hM : M.Exact)

include hF

theorem cols_model : M.cols = M.program.numConstr + M.program.boxed.length := hF.cols_eq

theorem size_of_fits (hs : s.Fits M.rows M.cols) :
    s.x.size = M.program.numConstr + M.program.boxed.length + M.program.numVar ∧
      s.y.size = M.program.numVar ∧
        s.z.size = M.program.numConstr + M.program.boxed.length + M.program.numVar := by
  rw [← hF.cols_eq, ← hF.rows_eq]
  exact hs

include hM

theorem finite_userPoint (hs : s.Fits M.rows M.cols) (hf : s.Finite) :
    (M.userPoint s).Finite := by
  obtain ⟨hx, hy, hz⟩ := hF.size_of_fits hs
  rw [Model.userPoint_dual hF.kind_eq]
  have hpart : Vec.isFinite (s.x.extract M.cols s.x.size) = true :=
    Vec.isFinite_extract hf.x le_rfl
  exact ⟨Vec.isFinite_negate hf.y, Vec.isFinite_negate (Vec.isFinite_extract hf.z (by omega)),
    Vec.isFinite_extract hf.x (by omega), Vec.isFinite_of_entry fun j hj =>
      Model.entry_mergeCosts_finite hM.regular.valid hf.x hpart _ (by simpa using hj)⟩

theorem value_userPoint (hs : s.Fits M.rows M.cols) (hf : s.Finite) :
    (∀ j < M.program.numVar, (M.userPoint s).x.value j = -s.y.value j) ∧
    (∀ i < M.program.numConstr, (M.userPoint s).slack.value i = -s.z.value i) ∧
    (∀ i < M.program.numConstr, (M.userPoint s).y.value i = s.x.value i) ∧
    ∀ j < M.program.numVar, (M.userPoint s).z.value j =
      s.x.value (M.program.numConstr + M.program.boxed.length + j) -
        upperPart M.program M.program.numConstr s.x.value j := by
  obtain ⟨hx, hy, hz⟩ := hF.size_of_fits hs
  have hcols := hF.cols_model
  rw [Model.userPoint_dual hF.kind_eq]
  have hpart : Vec.isFinite (s.x.extract M.cols s.x.size) = true :=
    Vec.isFinite_extract hf.x le_rfl
  refine ⟨fun j hj => Vec.value_negate (hy.symm ▸ hj) hf.y, fun i hi => ?_, fun i hi => ?_,
    fun j hj => ?_⟩
  · rw [Vec.value_negate (by rw [Array.size_extract]; omega)
      (Vec.isFinite_extract hf.z (by omega)), Vec.value_extract _ (by omega) (by omega),
      Nat.zero_add]
  · rw [Vec.value_extract _ (by omega) (by omega), Nat.zero_add]
  · have hentry := Model.entry_mergeCosts_finite hM.regular.valid hf.x hpart M.program.numConstr
      (j := j) (by rw [Array.size_extract]; omega)
    rw [Vec.value_of_entry hentry, Vec.value_extract _ (by omega) le_rfl, hcols]

theorem finite_solverPoint (hf : u.Finite) : (M.solverPoint u).Finite := by
  have hx := Vec.isFinite_negate hf.x
  have hc := (hF.exact hM).finite_c
  have hupper : (M.upperCosts u.z).isFinite = true := Vec.isFinite_iff.2 fun k hk => by
    rw [Model.entry_upperCosts_finite hf.z (by simpa using hk)]
    exact isFinite_finite _
  have hlower : (M.lowerCosts u.z).isFinite = true := Vec.isFinite_of_entry fun j hj =>
    Model.entry_lowerCosts_finite hM.regular.valid hf.z (by simpa using hj)
  rw [Model.solverPoint_dual hF.kind_eq]
  refine ⟨Vec.isFinite_append (Vec.isFinite_append hf.y hupper) hlower, hx,
    Vec.isFinite_append (Vec.isFinite_append (Vec.isFinite_negate hf.slack) ?_)
      (Model.isFinite_identityCosts hc hx)⟩
  apply Vec.isFinite_iff.2
  intro k hk
  rw [Vec.entry_eq_getElem _ hk]
  simp only [List.getElem_toArray, List.getElem_map, List.getElem_zipIdx, Vec.entry_eq_finite hc,
    Vec.entry_eq_finite hx, finite_add_finite]
  exact isFinite_finite _

theorem value_solverPoint (hu : u.Sized M.program.numVar M.program.numConstr) (hf : u.Finite) :
    (∀ j < M.program.numVar, -(M.solverPoint u).y.value j = u.x.value j) ∧
      DualVectors M (fun j => -(M.solverPoint u).y.value j) u.slack.value u.y.value u.z.value
        (M.solverPoint u).x.value (M.solverPoint u).z.value := by
  have hn : M.rows = M.program.numVar := hF.rows_eq
  have hx := Vec.isFinite_negate hf.x
  have hc := (hF.exact hM).finite_c
  have hvalue : ∀ j < M.program.numVar, u.x.negate.value j = -u.x.value j := fun j hj =>
    Vec.value_negate (hu.size_x.symm ▸ hj) hf.x
  have hslacks : u.slack.negate.size = M.program.numConstr :=
    (Vec.size_negate _).trans hu.size_slack
  have hparts : (u.y ++ M.upperCosts u.z).size =
      M.program.numConstr + M.program.boxed.length := by
    rw [Array.size_append, Model.size_upperCosts, hu.size_y]
  have hcosts : (u.slack.negate ++ (M.program.boxed.zipIdx.map fun p =>
      M.form.c.entry (M.program.numConstr + p.2) + u.x.negate.entry p.1).toArray).size =
        M.program.numConstr + M.program.boxed.length := by
    rw [Array.size_append, hslacks]
    simp
  rw [Model.solverPoint_dual hF.kind_eq]
  refine ⟨fun j hj => neg_eq_iff_eq_neg.2 (hvalue j hj), fun i hi => ?_, fun k hk => ?_,
    fun j hj => ?_, fun i hi => ?_, fun k hk => ?_, fun j hj => ?_⟩
  · simp only [Array.append_assoc]
    rw [Vec.value_append_left _ _ (hu.size_y.symm ▸ hi)]
  · simp only
    rw [Vec.value_append_left _ _ (by omega), ← hu.size_y, Vec.value_append_right]
    exact Vec.value_of_entry (Model.entry_upperCosts_finite hf.z hk)
  · simp only
    rw [← hparts, Vec.value_append_right]
    exact Vec.value_of_entry
      (Model.entry_lowerCosts_finite hM.regular.valid hf.z (hu.size_z.symm ▸ hj))
  · simp only [Array.append_assoc]
    rw [Vec.value_append_left _ _ (hslacks.symm ▸ hi),
      Vec.value_negate (hu.size_slack.symm ▸ hi) hf.slack]
  · have hentry := Vec.entry_eq_getElem (M.program.boxed.zipIdx.map fun p =>
      M.form.c.entry (M.program.numConstr + p.2) + u.x.negate.entry p.1).toArray (i := k)
        (by simpa using hk)
    simp only
    rw [Vec.value_append_left _ _ (by omega), ← hslacks, Vec.value_append_right, hslacks, Vec.value,
      hentry]
    simp only [List.getElem_toArray, List.getElem_map, List.getElem_zipIdx, Nat.zero_add]
    rw [hF.entry_c_upper hM hk, Vec.entry_eq_finite hx, finite_add_finite, value_finite,
      sub_neg_eq_add]
  · have hentry := Model.entry_identityCosts_finite hc hx (i := j) (hn.symm ▸ hj)
    rw [hF.cols_model, Vec.value_of_entry (hF.entry_c_lower hM hj)] at hentry
    simp only
    rw [← hcosts, Vec.value_append_right, Vec.value_of_entry hentry, neg_sub_comm]

end IsDual

end Form

end LpPresolve
