import LpPresolve.Proofs.Interior.Scaling
import LpPresolve.Proofs.Interior.Solver

/-! Evaluated interior solutions. The residuals, objective values and products that a model takes from
a scaled point are those of the scaled program, and so after unscaling the residuals all fields are
those that the user's program itself gives for the postsolved point. -/

namespace LpPresolve

open Extended

/-! ### Running sums -/

namespace Extended

theorem add_finite_finite (a : Extended) (p q : Rat) :
    a + finite p + finite q = a + finite (p + q) := by
  cases a with
  | finite r => rw [finite_add_finite, finite_add_finite, finite_add_finite, add_assoc]
  | undefined | bottom | top => rfl

theorem add_finite_guarded (a : Extended) (s : Rat) (p : Bool) {b : Extended} {q : Rat}
    (h : p = true → b = finite q) : (if p then a + finite s + b else a + finite s) =
      a + finite (s + if p then q else 0) := by
  split_ifs with hp
  · rw [h hp, add_finite_finite]
  · rw [add_zero]

/-- A loop over two kinds of summands, each under its own guard, from any start. -/
theorem foldl_guarded (a : Extended) (s : Rat) {n : Nat} {p q : Nat → Bool}
    {f g : Nat → Extended} {k l : Nat → Rat} (hf : ∀ j < n, p j = true → f j = finite (k j))
    (hg : ∀ j < n, q j = true → g j = finite (l j)) :
    (List.range n).foldl (fun d j => if q j then (if p j then d + f j else d) + g j
        else if p j then d + f j else d) (a + finite s) =
      a + finite (s + (∑ j ∈ Finset.range n with p j = true, k j +
        ∑ j ∈ Finset.range n with q j = true, l j)) := by
  rw [Finset.sum_filter, Finset.sum_filter]
  induction n with
  | zero => simp
  | succ n ih =>
    have hn := n.lt_succ_self
    rw [List.range_succ, List.foldl_append, List.foldl_cons, List.foldl_nil,
      ih (fun j hj => hf j (hj.trans hn)) (fun j hj => hg j (hj.trans hn)),
      add_finite_guarded a _ (p n) (hf n hn), add_finite_guarded a _ (q n) (hg n hn),
      Finset.sum_range_succ, Finset.sum_range_succ]
    congr 2
    ring

end Extended

theorem Vec.normInf_of_entries {v : Vec Extended} {n : Nat} {f : Nat → Rat} (hs : v.size = n)
    (h : ∀ i < n, v.entry i = finite (f i)) : v.normInf = finite (Vec.absMax n f) := by
  rw [Vec.normInf_eq (Vec.isFinite_of_entry fun i hi => h i (hs ▸ hi)), hs,
    Vec.absMax_congr fun i hi => Vec.value_of_entry (h i hi)]

namespace Model

variable {M : Model Extended} {u : UserInterior Extended}

/-! ### Residuals -/

theorem size_boundResiduals (bounds : Vec Extended) (f : Nat → Extended → Extended) :
    (boundResiduals bounds f).size = bounds.size := Array.size_mapIdx

theorem entry_boundResiduals {bounds : Vec Extended} {n : Nat} (hs : bounds.size = n)
    {f : Nat → Extended → Extended} {g : Nat → Rat → Rat}
    (h : ∀ j < n, Scalar.isFinite (bounds.entry j) = true →
      f j (bounds.entry j) = finite (g j (bounds.value j))) {j : Nat} (hj : j < n) :
    (boundResiduals bounds f).entry j =
      finite (if Scalar.isFinite (bounds.entry j) then g j (bounds.value j) else 0) := by
  rw [boundResiduals, Vec.entry_mapIdx _ _ (bounds.getElem?_eq_some_entry (hs.symm ▸ hj))]
  by_cases hfin : Scalar.isFinite (bounds.entry j) = true
  · rw [if_pos hfin, if_pos hfin, h j hj hfin]
  · rw [if_neg hfin, if_neg hfin, zero_eq]

/-- The negated product with the scaled matrix or its transpose. -/
theorem Exact.multiply?_eq (hM : M.Exact) (shape : Orientation) {x : Vec Extended} {l : Nat}
    (hl : M.scaledProgram.A.outer shape = l) (hx : x.isFinite = true)
    (hxs : x.size = M.scaledProgram.A.inner shape) :
    ∃ v, M.multiply? shape (-1) x (Vec.zeros l) = some v ∧ v.size = l ∧
      ∀ i < l, v.entry i = finite (-M.scaledProgram.A.dotAt shape i x.value) := by
  obtain ⟨v, hv, hvs, hentry⟩ := Csc.gemv?_finite hM.image.target.layout hM.image.target.finite_A
    shape (-1) hx hxs 1 (Vec.isFinite_zeros l) ((Vec.size_zeros _).trans hl.symm)
  refine ⟨v, hv, hvs.trans hl, fun i hi => ?_⟩
  rw [hentry i (hl.symm ▸ hi), Vec.value, Vec.entry_zeros, value_zero, mul_zero, zero_add,
    neg_one_mul]

/-- The right hand side, less the slacks and the product with the matrix. -/
theorem Exact.entry_rb (hM : M.Exact) (hu : u.Sized M.program.numVar M.program.numConstr)
    (hf : u.Finite M.scaledProgram) {v : Vec Extended} (hv : v.size = M.program.numConstr)
    {i : Nat} (hi : i < M.program.numConstr)
    (hrow : v.entry i = finite (-M.scaledProgram.A.rowDot i u.x.value)) :
    (Vec.axpby 1 M.scaled.rhs 1 (Vec.axpby (-1) u.slack 1 v)).entry i =
      finite (M.scaledProgram.rowResidual u i) := by
  have hneg : (-1 : Extended) = finite (-1) := rfl
  have hrhs : M.scaled.rhs.entry i = finite (M.scaledProgram.rhs.value i) :=
    Vec.entry_eq_finite hM.image.target.finite_rhs i
  have hslack : (Vec.axpby (-1) u.slack 1 v).size = M.program.numConstr := by
    simp [hu.size_slack, hv]
  rw [Vec.entry_axpby _ _ _ _ (hM.regular.copies.size_rhs.symm ▸ hi) (hslack.symm ▸ hi),
    Vec.entry_axpby _ _ _ _ (hu.size_slack.symm ▸ hi) (hv.symm ▸ hi), hrow, hrhs,
    Vec.entry_eq_finite hf.slack, hneg, one_eq]
  simp only [finite_mul_finite, finite_add_finite, Program.rowResidual]
  congr 1
  ring

/-- The objective, less the multipliers of the bounds and the product with the transpose. -/
theorem Exact.entry_rc (hM : M.Exact) (hu : u.Sized M.program.numVar M.program.numConstr)
    (hf : u.Finite M.scaledProgram) {w : Vec Extended} (hw : w.size = M.program.numVar)
    {j : Nat} (hj : j < M.program.numVar)
    (hcol : w.entry j = finite (-M.scaledProgram.A.colDot j u.y.value)) :
    (Vec.axpby 1 M.scaled.obj 1 (Array.zipWith (· - ·) w
        (Array.zipWith (· - ·) u.zl u.zu))).entry j =
      finite (M.scaledProgram.columnResidual u j) := by
  have hobj : M.scaled.obj.entry j = finite (M.scaledProgram.obj.value j) :=
    Vec.entry_eq_finite hM.image.target.finite_obj j
  have hmults : (Array.zipWith (· - ·) u.zl u.zu).size = M.program.numVar := by
    simp [hu.size_zl, hu.size_zu]
  have hdiff : (Array.zipWith (· - ·) w (Array.zipWith (· - ·) u.zl u.zu)).size =
      M.program.numVar := by
    simp [hmults, hw]
  rw [Vec.entry_axpby _ _ _ _ (hM.regular.copies.size_obj.symm ▸ hj) (hdiff.symm ▸ hj),
    Vec.entry_zipWith _ _ _ (w.getElem?_eq_some_entry (hw.symm ▸ hj)) (hmults.symm ▸ hj),
    Vec.entry_zipWith _ _ _ (u.zl.getElem?_eq_some_entry (hu.size_zl.symm ▸ hj))
      (hu.size_zu.symm ▸ hj), hcol, hobj, Vec.entry_eq_finite hf.zl,
    Vec.entry_eq_finite hf.zu, one_eq]
  simp only [finite_mul_finite, finite_add_finite, finite_sub_finite, Program.columnResidual]
  congr 1
  ring

theorem Exact.scaledResiduals?_eq (hM : M.Exact)
    (hu : u.Sized M.program.numVar M.program.numConstr) (hf : u.Finite M.scaledProgram) :
    ∃ R, M.scaledResiduals? u = some R ∧ M.scaledProgram.HasResiduals u R := by
  have hm : M.scaledProgram.numConstr = M.program.numConstr := hM.image.numConstr_eq
  have hn : M.scaledProgram.numVar = M.program.numVar := hM.image.numVar_eq
  have hcopy := hM.regular.copies
  obtain ⟨v, hv, hvs, hrow⟩ := hM.multiply?_eq .normal hm hf.x (hu.size_x.trans hn.symm)
  obtain ⟨w, hw, hws, hcol⟩ := hM.multiply?_eq .transposed hn hf.y (hu.size_y.trans hm.symm)
  rw [scaledResiduals?, hv, Option.bind_eq_bind, Option.bind_some, hw]
  refine ⟨_, rfl, ?_⟩
  refine ⟨?_, ?_, ?_, ?_, fun i hi => ?_, fun j hj => ?_, fun j hj => ?_, fun j hj => ?_⟩
  · simp [hcopy.size_rhs, hu.size_slack, hvs, hm]
  · simp [hcopy.size_obj, hu.size_zl, hu.size_zu, hws, hn]
  · exact (size_boundResiduals _ _).trans (hcopy.size_lb.trans hn.symm)
  · exact (size_boundResiduals _ _).trans (hcopy.size_ub.trans hn.symm)
  · exact hM.entry_rb hu hf hvs (hm ▸ hi) (hrow i (hm ▸ hi))
  · exact hM.entry_rc hu hf hws (hn ▸ hj) (hcol j (hn ▸ hj))
  · have hj : j < M.program.numVar := hn ▸ hj
    refine entry_boundResiduals hcopy.size_lb (g := fun j l => l - u.x.value j + u.xl.value j)
      (fun j hj hfin => ?_) hj
    rw [eq_finite_value hfin, Vec.entry_eq_finite hf.x,
      eq_finite_value (hf.xl j (hn.symm ▸ hj) hfin), finite_sub_finite, finite_add_finite]
    rfl
  · have hj : j < M.program.numVar := hn ▸ hj
    refine entry_boundResiduals hcopy.size_ub (g := fun j b => b - u.x.value j - u.xu.value j)
      (fun j hj hfin => ?_) hj
    rw [eq_finite_value hfin, Vec.entry_eq_finite hf.x,
      eq_finite_value (hf.xu j (hn.symm ▸ hj) hfin), finite_sub_finite, finite_sub_finite]
    rfl

/-! ### Objective values and complementarity -/

theorem Exact.dualObjective_eq (hM : M.Exact)
    (hu : u.Sized M.program.numVar M.program.numConstr) (hf : u.Finite M.scaledProgram) :
    M.dualObjective u = M.program.offset +
      finite (M.scaledProgram.dualValue u.y.value u.zl.value u.zu.value) := by
  have hm : M.scaledProgram.numConstr = M.program.numConstr := hM.image.numConstr_eq
  have hn : M.scaledProgram.numVar = M.program.numVar := hM.image.numVar_eq
  have hdot : M.scaled.rhs.dot u.y = finite (∑ i ∈ Finset.range M.scaledProgram.numConstr,
      M.scaledProgram.rhs.value i * u.y.value i) :=
    Vec.dot_eq hM.image.target.finite_rhs hf.y (hM.regular.copies.size_rhs.trans hm.symm)
      (hu.size_y.trans hm.symm)
  have hloop := foldl_guarded M.program.offset
    (∑ i ∈ Finset.range M.scaledProgram.numConstr, M.scaledProgram.rhs.value i * u.y.value i)
    (n := M.scaledProgram.numVar)
    (p := fun j => Scalar.isFinite (M.scaledProgram.lb.entry j))
    (q := fun j => Scalar.isFinite (M.scaledProgram.ub.entry j))
    (f := fun j => M.scaledProgram.lb.entry j * u.zl.entry j)
    (g := fun j => -(M.scaledProgram.ub.entry j * u.zu.entry j))
    (k := fun j => M.scaledProgram.lb.value j * u.zl.value j)
    (l := fun j => -(M.scaledProgram.ub.value j * u.zu.value j))
    (fun j _ hl => by
      rw [eq_finite_value hl, Vec.entry_eq_finite hf.zl, finite_mul_finite]
      rfl)
    (fun j _ hb => by
      rw [eq_finite_value hb, Vec.entry_eq_finite hf.zu, finite_mul_finite, neg_finite]
      rfl)
  rw [dualObjective, hdot, ← hn]
  refine hloop.trans ?_
  rw [Program.dualValue, Finset.sum_neg_distrib, ← sub_eq_add_neg, add_sub_assoc]

theorem Exact.complementarity_eq (hM : M.Exact)
    (hu : u.Sized M.program.numVar M.program.numConstr) (hf : u.Finite M.scaledProgram) :
    M.complementarity u = finite (M.scaledProgram.complementarity u) := by
  have hm : M.scaledProgram.numConstr = M.program.numConstr := hM.image.numConstr_eq
  have hn : M.scaledProgram.numVar = M.program.numVar := hM.image.numVar_eq
  have hdot : u.y.dot u.slack = finite (∑ i ∈ Finset.range M.scaledProgram.numConstr,
      u.y.value i * u.slack.value i) :=
    Vec.dot_eq hf.y hf.slack (hu.size_y.trans hm.symm) (hu.size_slack.trans hm.symm)
  have hloop := foldl_guarded 0 0 (n := M.scaledProgram.numVar)
    (p := fun j => Scalar.isFinite (M.scaledProgram.lb.entry j))
    (q := fun j => Scalar.isFinite (M.scaledProgram.ub.entry j))
    (f := fun j => u.xl.entry j * u.zl.entry j) (g := fun j => u.xu.entry j * u.zu.entry j)
    (k := fun j => u.xl.value j * u.zl.value j) (l := fun j => u.xu.value j * u.zu.value j)
    (fun j hj hl => by
      rw [eq_finite_value (hf.xl j hj hl), Vec.entry_eq_finite hf.zl, finite_mul_finite]
      rfl)
    (fun j hj hb => by
      rw [eq_finite_value (hf.xu j hj hb), Vec.entry_eq_finite hf.zu, finite_mul_finite]
      rfl)
  have hstart : (0 : Extended) = 0 + finite 0 := by rw [zero_eq, finite_add_finite, add_zero]
  rw [complementarity, hdot, ← hn, hstart]
  refine (congrArg (· - _) hloop).trans ?_
  rw [zero_eq, finite_add_finite, finite_sub_finite, zero_add, zero_add, Program.complementarity]

/-! ### All fields -/

/-- A model evaluates a finite interior solution of its form to what the user's program gives for the
postsolved point, though it measures in scaled space. Distances to infinite bounds of the form need
not be finite. -/
theorem evaluateInterior?_eq {M : Model Extended} (hM : M.Loaded) {s : SolverInterior Extended}
    (hs : s.Fits M.rows M.cols) (hf : s.Finite M.form) :
    ∃ u, M.postsolveInterior? s = some u ∧ u.Sized M.program.numVar M.program.numConstr ∧
      u.Finite M.program ∧ M.evaluateInterior? s = some (M.program.interiorInfo u) := by
  have hE := hM.exact
  have hn : M.scaledProgram.numVar = M.program.numVar := hE.image.numVar_eq
  have hq := hE.regular.sized_userInterior hs
  have hqf := hE.finite_userInterior hs hf
  have hsized := Scaling.sized_unscaleInterior hE.suits hq
  have hfinite := Scaling.finite_unscaleInterior hE.suits hE.positive_colscale hE.positive_rowscale
    hE.image hq hqf
  have himage := Scaling.image_unscaleInterior hE.suits hE.positive_colscale hE.positive_rowscale hq
  obtain ⟨R, hR, hresid⟩ := hE.scaledResiduals?_eq hq hqf
  have hres := Scaling.residuals_unscaleResiduals hE.suits hE.positive_colscale
    hE.positive_rowscale hE.image himage hresid
  have hobj : M.scaled.obj.dot (M.userInterior s).x =
      finite (M.program.value (M.scaling.unscaleInterior (M.userInterior s)).x.value) := by
    rw [← hE.image.value_eq himage.x, Program.value, hn]
    exact Vec.dot_eq hE.image.target.finite_obj hqf.x hE.regular.copies.size_obj hq.size_x
  have hdual := hE.dualObjective_eq hq hqf
  rw [hE.image.dualValue_eq himage] at hdual
  have hcompl := hE.complementarity_eq hq hqf
  rw [hE.image.complementarity_eq himage] at hcompl
  refine ⟨_, if_pos hs, hsized, hfinite, ?_⟩
  simp only [evaluateInterior?, if_pos hs, hR, Option.bind_eq_bind, Option.bind_some]
  rw [Vec.normInf_of_entries hres.size_rb hres.rb, Vec.normInf_of_entries hres.size_rc hres.rc,
    Vec.normInf_of_entries hres.size_rl hres.rl, Vec.normInf_of_entries hres.size_ru hres.ru,
    Vec.normInf_eq hfinite.x, Vec.normInf_eq hfinite.y, Vec.normInf_eq hfinite.zl,
    Vec.normInf_eq hfinite.zu, hsized.size_x, hsized.size_y, hsized.size_zl, hsized.size_zu, hobj,
    hdual, hcompl, maxNum_finite, maxNum_finite, maxNum_finite]
  rfl

/-- A point of the dual form of `Program.mixed`, infinitely far from every infinite bound. -/
def mixedInterior : SolverInterior Extended where
  x := #[finite (-1), finite 2, finite 1, finite 1, finite 0, finite 3, finite 3]
  xl := #[top, finite 2, finite 1, finite 1, finite 0, finite 3, finite 3]
  xu := #[finite 1, top, top, top, finite 0, top, top]
  y := #[finite 1, finite 2, finite 3, finite 4]
  zl := #[finite 0, finite 5, finite 1, finite 1, finite 1, finite 2, finite 1]
  zu := #[finite 7, finite 0, finite 0, finite 0, finite 1, finite 0, finite 0]

theorem evaluateInterior?_eq_mixed :
    ∃ M : Model Extended, M.Loaded ∧ M.program = Program.mixed ∧ M.dualized = true ∧
      ∃ u, M.postsolveInterior? mixedInterior = some u ∧
        M.evaluateInterior? mixedInterior = some (Program.mixed.interiorInfo u) := by
  obtain ⟨M, hM, hP, hp⟩ := exists_loaded { dualize := .always } Program.valid_mixed
    (p := fun M => decide (M.dualized = true ∧ mixedInterior.Fits M.rows M.cols ∧
      mixedInterior.Finite M.form)) (by decide +kernel)
  obtain ⟨hdual, hs, hf⟩ := of_decide_eq_true hp
  obtain ⟨u, hu, -, -, heval⟩ := evaluateInterior?_eq hM hs hf
  exact ⟨M, hM, hP, hdual, u, hu, hP ▸ heval⟩

end Model

end LpPresolve
