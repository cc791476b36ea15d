import LpPresolve.Proofs.Exact.Order
import LpPresolve.Proofs.Iterates.Evaluation

/-! Measures of iterates with undefined entries. The norm of a vector is undefined if an entry is, but a
maximum drops an undefined argument: the norms of the residual vectors are dropped one by one, and so
are the violations of bounds. A measure within a tolerance only speaks of what is left. -/

namespace LpPresolve

open Extended

/-! ### Norms -/

namespace Vec

/-- All entries are numbers, finite or not. -/
def Defined (v : Vec Extended) : Prop := ∀ a ∈ v, a ≠ undefined

theorem normInf_le_iff (v : Vec Extended) {t : Extended} (ht : 0 ≤ t) :
    v.normInf ≤ t ↔ v.Defined ∧ ∀ a ∈ v, Scalar.magnitude a ≤ t := by
  unfold normInf
  split
  next a ha =>
    have hnan := isNaN_iff.1 (Array.find?_some ha)
    exact iff_of_false (hnan ▸ not_undefined_le _) fun h => h.1 a (Array.mem_of_find?_eq_some ha) hnan
  next hnone =>
    have hdef : v.Defined := fun a ha hnan =>
      Array.find?_eq_none.1 hnone a ha (isNaN_iff.2 hnan)
    rw [and_iff_right hdef, ← Array.foldl_toList]
    have hloop : ∀ (l : List Extended), (∀ a ∈ l, a ≠ undefined) → ∀ m : Extended, m ≠ undefined →
        (l.foldl (fun m a => if m < Scalar.magnitude a then Scalar.magnitude a else m) m ≤ t ↔
          m ≤ t ∧ ∀ a ∈ l, Scalar.magnitude a ≤ t) := by
      intro l
      induction l with
      | nil => simp
      | cons a r ih =>
        intro hl m hm
        obtain ⟨ha, hr⟩ := List.forall_mem_cons.1 hl
        have ha := magnitude_ne_undefined ha
        rw [List.foldl_cons, ih hr _ (by split_ifs; exacts [ha, hm]), ite_lt_le_iff hm ha,
          List.forall_mem_cons, and_assoc]
    rw [hloop v.toList (fun a ha => hdef a (Array.mem_toList_iff.1 ha)) 0 Extended.noConfusion]
    simp [ht]

theorem normInf_ne_undefined_iff (v : Vec Extended) : v.normInf ≠ undefined ↔ v.Defined := by
  have htop : v.normInf ≠ undefined ↔ v.normInf ≤ top :=
    ⟨le_top, fun h hnan => not_undefined_le top (hnan ▸ h)⟩
  rw [htop, normInf_le_iff v (le_top Extended.noConfusion)]
  exact and_iff_left_of_imp fun h a ha => le_top (magnitude_ne_undefined (h a ha))

end Vec

/-! ### Violated bounds -/

namespace Extended

theorem sub_undefined (a : Extended) : a - undefined = undefined := by cases a <;> rfl

/-- A lower bound is violated by more than a tolerance, unless the difference is undefined. -/
theorem sub_le_iff {l : Extended} (hl : Scalar.isFinite l = true ∨ l = bottom) (a : Extended)
    (t : Rat) : (l - a ≠ undefined → l - a ≤ finite t) ↔ a = undefined ∨ l - finite t ≤ a := by
  rcases hl with hl | rfl
  · obtain ⟨p, rfl⟩ : ∃ p, l = finite p := ⟨_, eq_finite_value hl⟩
    cases a with
    | undefined => exact iff_of_true (fun h => absurd (sub_undefined _) h) (.inl rfl)
    | top => exact iff_of_true (fun _ => bottom_le_finite t) (.inr (finite_le_top _))
    | bottom =>
      refine iff_of_false (fun h => not_top_le_finite t (h Extended.noConfusion)) ?_
      rintro (h | h)
      · exact Extended.noConfusion h
      · exact not_finite_le_bottom _ h
    | finite q => simp [add_comm]
  · cases a with
    | undefined => exact iff_of_true (fun h => absurd (sub_undefined _) h) (.inl rfl)
    | bottom => exact iff_of_true (fun h => absurd rfl h) (.inr rfl)
    | top => exact iff_of_true (fun _ => bottom_le_finite t) (.inr rfl)
    | finite q => exact iff_of_true (fun _ => bottom_le_finite t) (.inr (bottom_le_finite q))

theorem le_add_iff {u : Extended} (hu : Scalar.isFinite u = true ∨ u = top) (a : Extended)
    (t : Rat) : (a - u ≠ undefined → a - u ≤ finite t) ↔ a = undefined ∨ a ≤ u + finite t := by
  rcases hu with hu | rfl
  · obtain ⟨p, rfl⟩ : ∃ p, u = finite p := ⟨_, eq_finite_value hu⟩
    cases a with
    | undefined => exact iff_of_true (fun h => absurd rfl h) (.inl rfl)
    | bottom => exact iff_of_true (fun _ => bottom_le_finite t) (.inr (bottom_le_finite _))
    | top =>
      refine iff_of_false (fun h => not_top_le_finite t (h Extended.noConfusion)) ?_
      rintro (h | h)
      · exact Extended.noConfusion h
      · exact not_top_le_finite _ h
    | finite q => simp [add_comm]
  · cases a with
    | undefined => exact iff_of_true (fun h => absurd rfl h) (.inl rfl)
    | top => exact iff_of_true (fun h => absurd rfl h) (.inr rfl)
    | bottom => exact iff_of_true (fun _ => bottom_le_finite t) (.inr rfl)
    | finite q => exact iff_of_true (fun _ => bottom_le_finite t) (.inr (finite_le_top q))

end Extended

namespace Form.Exact

variable {F : Form Extended} {x : Vec Extended}

theorem primalInfeasibility?_le_iff (hF : F.Exact) (hxs : x.size = F.cols + F.rows) :
    ∃ v, F.primalInfeasibility? x = some v ∧ ∀ t ≥ 0, v ≤ finite t ↔
      ∀ j < F.cols + F.rows, x.entry j = undefined ∨
        F.lb.entry j - finite t ≤ x.entry j ∧ x.entry j ≤ F.ub.entry j + finite t := by
  refine ⟨_, if_pos (hxs.trans hF.size_lb.symm), fun t ht => ?_⟩
  have hloop : ∀ (l : List (Extended × Extended × Extended)) (m : Extended), m ≠ undefined →
      (l.foldl (fun m (a, l, u) => Scalar.maxNum (Scalar.maxNum m (l - a)) (a - u)) m ≤ finite t ↔
        m ≤ finite t ∧ ∀ e ∈ l, (e.2.1 - e.1 ≠ undefined → e.2.1 - e.1 ≤ finite t) ∧
          (e.1 - e.2.2 ≠ undefined → e.1 - e.2.2 ≤ finite t)) := by
    intro l
    induction l with
    | nil => simp
    | cons e r ih =>
      intro m hm
      have hlower := maxNum_ne_undefined hm (e.2.1 - e.1)
      rw [List.foldl_cons, ih _ (maxNum_ne_undefined hlower _), List.forall_mem_cons,
        maxNum_le_iff, maxNum_le_iff, and_iff_right (Or.inl hlower), and_iff_right (Or.inl hm)]
      simp only [hlower, hm, ne_eq, not_false_eq_true, forall_true_left, and_assoc]
  have hxl := hxs ▸ Vec.toList_eq_map_range x
  rw [hloop _ 0 Extended.noConfusion, forall_mem_zip_iff hxl hF.bounds_eq, zero_eq,
    finite_le_finite, and_iff_right ht]
  apply forall₂_congr
  intro j hj
  rw [sub_le_iff (hF.lower j hj), le_add_iff (hF.upper j hj), ← or_and_left]

end Form.Exact

namespace Model

variable {M : Model Extended}

theorem Exact.scaledResiduals?_isSome (hM : M.Exact) {u : UserInterior Extended}
    (hu : u.Sized M.program.numVar M.program.numConstr) : ∃ R, M.scaledResiduals? u = some R := by
  have hA := hM.image.target.layout
  have hm : M.scaledProgram.numConstr = M.program.numConstr := hM.image.numConstr_eq
  have hn : M.scaledProgram.numVar = M.program.numVar := hM.image.numVar_eq
  have hne : ((-1 : Extended) == 0) = false := rfl
  have hrow : M.multiply? .normal (-1) u.x (Vec.zeros M.program.numConstr) = some _ :=
    hA.gemv?_eq .normal hne (hu.size_x.trans hn.symm) 1 ((Vec.size_zeros _).trans hm.symm)
  have hcol : M.multiply? .transposed (-1) u.y (Vec.zeros M.program.numVar) = some _ :=
    hA.gemv?_eq .transposed hne (hu.size_y.trans hm.symm) 1 ((Vec.size_zeros _).trans hn.symm)
  rw [scaledResiduals?, hrow, hcol]
  exact ⟨_, rfl⟩

/-- The residuals of an iterate in user space. -/
def userResiduals? (M : Model Extended) (s : SolverInterior Extended) :
    Option (Residuals Extended) :=
  (M.scaledResiduals? (M.userInterior s)).map M.scaling.unscaleResiduals

/-- What the primal measures of any iterate of a loaded model say. The primal residual is within a
tolerance if and only if those of the vectors `rb`, `rl` and `ru` that are defined are, and there is
one; the primal infeasibility is if and only if every variable that is defined keeps to its bounds. -/
theorem measures_le_iff (hM : M.Loaded) :
    (∀ s : SolverInterior Extended, s.Fits M.rows M.cols → ∃ r info,
      M.userResiduals? s = some r ∧ M.evaluateInterior? s = some info ∧
      ∀ t ≥ 0, info.absPresidual ≤ finite t ↔
        (∃ v ∈ [r.rb, r.rl, r.ru], v.Defined) ∧ ∀ v ∈ [r.rb, r.rl, r.ru], v.Defined →
          ∀ a ∈ v, Scalar.magnitude a ≤ finite t) ∧
    ∀ x : Vec Extended, x.size = M.cols + M.rows → ∃ v, M.form.primalInfeasibility? x = some v ∧
      ∀ t ≥ 0, v ≤ finite t ↔ ∀ j < M.cols + M.rows, x.entry j = undefined ∨
        M.form.lb.entry j - finite t ≤ x.entry j ∧ x.entry j ≤ M.form.ub.entry j + finite t := by
  have hE := hM.exact
  refine ⟨fun s hs => ?_, fun x hx => hE.form.primalInfeasibility?_le_iff hx⟩
  obtain ⟨R, hR⟩ := hE.scaledResiduals?_isSome (hE.regular.sized_userInterior hs)
  refine ⟨_, _, by rw [userResiduals?, hR]; rfl,
    by simp only [evaluateInterior?, if_pos hs, hR]; rfl, fun t ht => ?_⟩
  have hnorm : ∀ v : Vec Extended, (v.normInf ≠ undefined → v.normInf ≤ finite t) ↔
      (v.Defined → ∀ a ∈ v, Scalar.magnitude a ≤ finite t) := fun v => by
    rw [Vec.normInf_ne_undefined_iff, Vec.normInf_le_iff v (finite_le_finite.2 ht)]
    exact ⟨fun h hv => (h hv).2, fun h hv => ⟨hv, h hv⟩⟩
  rw [maxNum_maxNum_le_iff, hnorm, hnorm, hnorm]
  simp only [Vec.normInf_ne_undefined_iff, List.mem_cons, List.not_mem_nil, or_false,
    exists_eq_or_imp, exists_eq_left, forall_eq_or_imp, forall_eq]

/-- An iterate of the primal form of `Program.single` without a value for the variable. -/
def undefinedIterate : SolverInterior Extended where
  x := #[undefined, finite 0]
  xl := #[finite 0, finite 0]
  xu := #[top, finite 0]
  y := #[finite 0]
  zl := #[finite 0, finite 0]
  zu := #[finite 0, finite 0]

theorem measures_le_iff_single :
    ∃ M : Model Extended, M.Loaded ∧ M.program = Program.single ∧
      (∃ r info, M.userResiduals? undefinedIterate = some r ∧
        M.evaluateInterior? undefinedIterate = some info ∧
        (info.absPresidual ≤ finite 0 ↔ (∃ v ∈ [r.rb, r.rl, r.ru], v.Defined) ∧
          ∀ v ∈ [r.rb, r.rl, r.ru], v.Defined → ∀ a ∈ v, Scalar.magnitude a ≤ finite 0)) ∧
      ∃ v, M.form.primalInfeasibility? undefinedIterate.x = some v ∧
        (v ≤ finite 0 ↔ ∀ j < M.cols + M.rows, undefinedIterate.x.entry j = undefined ∨
          M.form.lb.entry j - finite 0 ≤ undefinedIterate.x.entry j ∧
            undefinedIterate.x.entry j ≤ M.form.ub.entry j + finite 0) := by
  obtain ⟨M, hM, hP, hp⟩ := exists_loaded { dualize := .never } Program.valid_single
    (p := fun M => decide (undefinedIterate.Fits M.rows M.cols)) (by decide +kernel)
  have hs := of_decide_eq_true hp
  obtain ⟨hresidual, hinfeas⟩ := measures_le_iff hM
  obtain ⟨r, info, hr, hinfo, hiff⟩ := hresidual undefinedIterate hs
  obtain ⟨v, hv, hle⟩ := hinfeas undefinedIterate.x hs.1
  exact ⟨M, hM, hP, ⟨r, info, hr, hinfo, hiff 0 le_rfl⟩, v, hv, hle 0 le_rfl⟩

/-- Both measures of the iterate are zero, though a residual and the variable are undefined. -/
theorem measures_hide_undefined :
    ∃ M : Model Extended, M.Loaded ∧ M.program = Program.single ∧
      undefinedIterate.Fits M.rows M.cols ∧
      (∃ r info, M.userResiduals? undefinedIterate = some r ∧ r.rb.entry 0 = undefined ∧
        M.evaluateInterior? undefinedIterate = some info ∧ info.absPresidual = 0) ∧
      M.form.primalInfeasibility? undefinedIterate.x = some 0 ∧
      ¬ M.form.lb.entry 0 ≤ undefinedIterate.x.entry 0 := by
  obtain ⟨M, hM, hP, hp⟩ := exists_loaded { dualize := .never } Program.valid_single
    (p := fun M => decide (undefinedIterate.Fits M.rows M.cols) &&
      (M.userResiduals? undefinedIterate).any
        (fun r : Residuals Extended => decide (r.rb.entry 0 = undefined)) &&
      (M.evaluateInterior? undefinedIterate).any
        (fun info : InteriorInfo Extended => decide (info.absPresidual = 0)) &&
      decide (M.form.primalInfeasibility? undefinedIterate.x = some 0 ∧
        ¬ M.form.lb.entry 0 ≤ undefinedIterate.x.entry 0))
    (by decide +kernel)
  simp only [Bool.and_eq_true, Option.any_eq_true, decide_eq_true_eq] at hp
  obtain ⟨⟨⟨hs, r, hr, hrb⟩, info, hinfo, hres⟩, hinfeas, hlb⟩ := hp
  exact ⟨M, hM, hP, hs, ⟨r, info, hr, hrb, hinfo, hres⟩, hinfeas, hlb⟩

end Model

end LpPresolve
