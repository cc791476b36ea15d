import LpPresolve.Proofs.Exact.Transfer
import LpPresolve.Proofs.Interior.Measures

/-! Interior points from the solver. For a point whose entries are rationals, save for distances to
infinite bounds of the form, the scaled point that it stands for has only rational entries as well,
save for distances to infinite bounds of the scaled program. -/

namespace LpPresolve

open Extended

/-- All entries are rationals, save perhaps the distances to infinite bounds. -/
@[mk_iff]
structure SolverInterior.Finite (s : SolverInterior Extended) (F : Form Extended) : Prop where
  x : s.x.isFinite = true
  y : s.y.isFinite = true
  zl : s.zl.isFinite = true
  zu : s.zu.isFinite = true
  xl : ∀ j < F.cols + F.rows, Scalar.isFinite (F.lb.entry j) = true →
    Scalar.isFinite (s.xl.entry j) = true
  xu : ∀ j < F.cols + F.rows, Scalar.isFinite (F.ub.entry j) = true →
    Scalar.isFinite (s.xu.entry j) = true

instance (s : SolverInterior Extended) (F : Form Extended) : Decidable (s.Finite F) :=
  decidable_of_iff _ (s.finite_iff F).symm

namespace Model

variable {M : Model Extended} {s : SolverInterior Extended}

/-! ### Vectors of the bounds -/

@[simp] theorem size_placeBoxed (M : Model Extended) (w : Vec Extended) (start : Nat)
    (v : Vec Extended) : (M.placeBoxed w start v).size = v.size :=
  Vec.size_foldl_zipIdx (g := fun v j k => v.setIfInBounds j (w.entry (start + k)))
    (fun _ _ _ => Array.size_setIfInBounds) _ 0 v

theorem entry_placeBoxed (hM : M.program.Valid) (w : Vec Extended) (start : Nat)
    (v : Vec Extended) {j : Nat} (hj : j < v.size) : (M.placeBoxed w start v).entry j =
      if j ∈ M.program.boxed then w.entry (start + M.program.boxed.idxOf j) else v.entry j := by
  have h := Vec.entry_foldl_zipIdx (f := fun k _ => w.entry (start + k))
    (g := fun v j k => v.setIfInBounds j (w.entry (start + k)))
    (fun _ _ _ => Array.size_setIfInBounds)
    (fun v j k i hi => Vec.entry_setIfInBounds v j _ hi) hM.nodup_boxed 0 v hj
  rw [Nat.zero_add] at h
  exact h

@[simp] theorem size_atFiniteLower (M : Model Extended) (w : Vec Extended) (a : Extended) :
    (M.atFiniteLower w a).size = M.rows := by
  simp [atFiniteLower]

theorem entry_atFiniteLower (w : Vec Extended) (a : Extended) {j : Nat} (hj : j < M.rows) :
    (M.atFiniteLower w a).entry j =
      if Scalar.isFinite (M.scaledProgram.lb.entry j) = true then w.entry (M.cols + j) else a :=
  Vec.entry_range _ _ hj

/-! ### The two forms -/

theorem userInterior_primal (hk : M.form.kind = .primal) (s : SolverInterior Extended) :
    M.userInterior s =
      { x := s.x.extract 0 M.program.numVar
        xl := s.xl.extract 0 M.program.numVar
        xu := s.xu.extract 0 M.program.numVar
        slack := M.program.types.mapIdx fun
          | _, .equal => 0
          | i, .lessEqual => s.xl.entry (M.program.numVar + i)
          | i, .greaterEqual => -s.xu.entry (M.program.numVar + i)
        y := M.program.types.mapIdx fun
          | i, .equal => s.y.entry i
          | i, .lessEqual => -s.zl.entry (M.program.numVar + i)
          | i, .greaterEqual => s.zu.entry (M.program.numVar + i)
        zl := s.zl.extract 0 M.program.numVar
        zu := s.zu.extract 0 M.program.numVar } := by
  unfold userInterior
  split
  · rfl
  · next h => simp [hk] at h

theorem userInterior_dual (hk : M.form.kind = .dual) (s : SolverInterior Extended) :
    M.userInterior s =
      { x := s.y.negate
        xl := M.atFiniteLower s.zl Scalar.infinity
        xu := M.placeBoxed s.zl M.program.numConstr
          (Array.replicate M.program.numVar Scalar.infinity)
        slack := M.program.types.mapIdx fun
          | _, .equal => 0
          | i, .lessEqual => s.zu.entry i
          | i, .greaterEqual => -s.zl.entry i
        y := M.program.types.mapIdx fun
          | i, .equal => s.x.entry i
          | i, .lessEqual => -s.xu.entry i
          | i, .greaterEqual => s.xl.entry i
        zl := M.atFiniteLower s.xl 0
        zu := M.placeBoxed s.xl M.program.numConstr (Vec.zeros M.program.numVar) } := by
  unfold userInterior
  split
  · next h => simp [hk] at h
  · rfl

theorem Regular.sized_userInterior (hM : M.Regular) (hs : s.Fits M.rows M.cols) :
    (M.userInterior s).Sized M.program.numVar M.program.numConstr := by
  obtain ⟨hx, hxl, hxu, hy, hzl, hzu⟩ := hs
  have htypes := hM.valid.size_types
  rw [rows, cols] at *
  rcases hM.form with hF | hF
  · rw [hF.rows_eq, hF.cols_eq] at hx hxl hxu hzl hzu
    rw [userInterior_primal hF.kind_eq]
    exact ⟨by simp [hx], by simp [hxl], by simp [hxu], by simp [htypes], by simp [htypes],
      by simp [hzl], by simp [hzu]⟩
  · rw [hF.rows_eq] at hy
    rw [userInterior_dual hF.kind_eq]
    exact ⟨by simp [hy], by simp [rows, hF.rows_eq], by simp, by simp [htypes], by simp [htypes],
      by simp [rows, hF.rows_eq], by simp⟩

end Model

/-! ### Finite entries -/

theorem isFinite_mapIdx {β : Type} {v : Array β} {f : Nat → β → Extended}
    (h : ∀ i t, v[i]? = some t → Scalar.isFinite (f i t) = true) :
    Vec.isFinite (v.mapIdx f) = true :=
  Vec.isFinite_iff.2 fun i hi => by
    have ht := Array.getElem?_eq_getElem (show i < v.size by simpa using hi)
    rw [Vec.entry_mapIdx f v ht]
    exact h i _ ht

theorem isFinite_neg {a : Extended} (h : Scalar.isFinite a = true) :
    Scalar.isFinite (-a) = true := by
  rw [eq_finite_value h, neg_finite]
  exact isFinite_finite _

namespace Form

variable {M : Model Extended} {s : SolverInterior Extended}

theorem IsPrimal.finite_userInterior (hF : IsPrimal M.program M.scaled M.form) (hM : M.Exact)
    (hs : s.Fits M.rows M.cols) (hf : s.Finite M.form) :
    (M.userInterior s).Finite M.scaledProgram := by
  obtain ⟨hx, hxl, hxu, -, hzl, hzu⟩ := hs
  have hn : M.scaledProgram.numVar = M.program.numVar := hM.image.numVar_eq
  have hlt : ∀ {i t}, M.program.types[i]? = some t →
      M.program.numVar + i < M.form.cols + M.form.rows := fun ht => by
    have hi := (Array.getElem?_eq_some_iff.1 ht).1
    rw [hM.regular.valid.size_types] at hi
    rw [hF.cols_add_rows]
    omega
  rw [Model.rows, Model.cols, hF.cols_add_rows] at hx hxl hxu hzl hzu
  rw [Model.userInterior_primal hF.kind_eq]
  refine ⟨Vec.isFinite_extract hf.x (by omega), isFinite_mapIdx fun i t ht => ?_,
    isFinite_mapIdx fun i t ht => ?_, Vec.isFinite_extract hf.zl (by omega),
    Vec.isFinite_extract hf.zu (by omega), fun j hj hfin => ?_, fun j hj hfin => ?_⟩
  · cases t with
    | equal => exact isFinite_finite 0
    | lessEqual => exact hf.xl _ (hlt ht) (hF.entry_lb_slack hM ht ▸ isFinite_finite 0)
    | greaterEqual =>
      exact isFinite_neg (hf.xu _ (hlt ht) (hF.entry_ub_slack hM ht ▸ isFinite_finite 0))
  · cases t with
    | equal => exact Vec.isFinite_entry hf.y i
    | lessEqual => exact isFinite_neg (Vec.isFinite_entry hf.zl _)
    | greaterEqual => exact Vec.isFinite_entry hf.zu _
  · have hj : j < M.program.numVar := hn ▸ hj
    rw [Vec.entry_extract _ (by omega) (by omega), Nat.zero_add]
    exact hf.xl j (by rw [hF.cols_add_rows]; omega) (hF.entry_lb_variable hM hj ▸ hfin)
  · have hj : j < M.program.numVar := hn ▸ hj
    rw [Vec.entry_extract _ (by omega) (by omega), Nat.zero_add]
    exact hf.xu j (by rw [hF.cols_add_rows]; omega) (hF.entry_ub_variable hM hj ▸ hfin)

theorem IsDual.finite_userInterior (hF : IsDual M.program M.scaled M.form) (hM : M.Exact)
    (hf : s.Finite M.form) : (M.userInterior s).Finite M.scaledProgram := by
  have hn : M.scaledProgram.numVar = M.program.numVar := hM.image.numVar_eq
  have hrows : M.rows = M.program.numVar := hF.rows_eq
  have hcols := hF.cols_model
  have hlt : ∀ {i t}, M.program.types[i]? = some t → i < M.form.cols + M.form.rows := fun ht => by
    have hi := (Array.getElem?_eq_some_iff.1 ht).1
    rw [hM.regular.valid.size_types] at hi
    rw [hF.cols_add_rows]
    omega
  -- the distances of the multipliers of bounds are those to zero
  have hbound : ∀ k, M.program.numConstr + k < M.form.cols + M.form.rows →
      Scalar.isFinite (s.xl.entry (M.program.numConstr + k)) = true := fun k hk =>
    hf.xl _ hk (hF.entry_lb_bound hM k ▸ isFinite_finite 0)
  rw [Model.userInterior_dual hF.kind_eq]
  refine ⟨Vec.isFinite_negate hf.y, isFinite_mapIdx fun i t ht => ?_,
    isFinite_mapIdx fun i t ht => ?_, Vec.isFinite_iff.2 fun j hj => ?_,
    Vec.isFinite_iff.2 fun j hj => ?_, fun j hj hfin => ?_, fun j hj hfin => ?_⟩
  · cases t with
    | equal => exact isFinite_finite 0
    | lessEqual => exact Vec.isFinite_entry hf.zu i
    | greaterEqual => exact isFinite_neg (Vec.isFinite_entry hf.zl i)
  · cases t with
    | equal => exact Vec.isFinite_entry hf.x i
    | lessEqual => exact isFinite_neg (hf.xu _ (hlt ht) (hF.entry_ub_row ht ▸ isFinite_finite 0))
    | greaterEqual => exact hf.xl _ (hlt ht) (hF.entry_lb_row ht ▸ isFinite_finite 0)
  · have hj : j < M.rows := by simpa using hj
    rw [Model.entry_atFiniteLower _ _ hj, hcols, Nat.add_assoc]
    split_ifs
    · exact hbound _ (by rw [hF.cols_add_rows]; omega)
    · exact isFinite_finite 0
  · rw [Model.size_placeBoxed, Vec.size_zeros] at hj
    rw [Model.entry_placeBoxed hM.regular.valid _ _ _ (by simpa using hj), Vec.entry_zeros]
    split_ifs with hb
    · have hk := List.idxOf_lt_length_of_mem hb
      exact hbound _ (by rw [hF.cols_add_rows]; omega)
    · exact isFinite_finite 0
  · rw [Model.entry_atFiniteLower _ _ (hrows.symm ▸ hn ▸ hj), if_pos hfin]
    exact Vec.isFinite_entry hf.zl _
  · have hj : j < M.program.numVar := hn ▸ hj
    rw [Model.entry_placeBoxed hM.regular.valid _ _ _ (by simpa using hj),
      if_pos ((hM.isFinite_upper_iff hj).1 hfin)]
    exact Vec.isFinite_entry hf.zl _

end Form

theorem Model.Exact.finite_userInterior {M : Model Extended} {s : SolverInterior Extended}
    (hM : M.Exact) (hs : s.Fits M.rows M.cols) (hf : s.Finite M.form) :
    (M.userInterior s).Finite M.scaledProgram := by
  rcases hM.regular.form with hF | hF
  · exact hF.finite_userInterior hM hs hf
  · exact hF.finite_userInterior hM hf

end LpPresolve
