import LpPresolve.Proofs.Interior.Admissible
import LpPresolve.Proofs.Interior.Solver

/-! Signs of postsolved interior points. The solver may stop at a point that is not feasible. Slacks and
multipliers of inequalities are nevertheless read off bound distances and bound multipliers, and the
solver keeps these nonnegative, so a postsolved point has the signs of its program whatever else is wrong
with it. In the dual form the same holds for infinite bounds, which have no column there to be read. -/

namespace LpPresolve

open Extended

/-! ### Single entries -/

namespace Extended

theorem nonpos_neg {a : Extended} (h : 0 ≤ a) : -a ≤ 0 := by
  cases a with
  | undefined => exact absurd h (not_le_undefined 0)
  | bottom => exact absurd h (not_finite_le_bottom 0)
  | finite q =>
    rw [zero_eq, finite_le_finite] at h
    rw [neg_finite, zero_eq, finite_le_finite]
    exact neg_nonpos.2 h
  | top => exact bottom_le_finite 0

section Factor

variable {c : Rat} (hc : 0 < c) (a : Extended)
include hc

theorem nonneg_mul_iff : 0 ≤ a * finite c ↔ 0 ≤ a := by
  rw [mul_finite_eq_div hc.ne', nonneg_div_iff (inv_pos.2 hc)]

theorem nonpos_div_iff : a / finite c ≤ 0 ↔ a ≤ 0 := by
  rw [zero_eq, div_le_finite_iff_of_pos hc, zero_mul]

theorem mul_finite_eq_zero_iff : a * finite c = 0 ↔ a = 0 := by
  rw [mul_finite_eq_div hc.ne', div_finite_eq_zero_iff (inv_pos.2 hc)]

end Factor

end Extended

namespace ConstraintType

/-- The sign of a slack of the constraint, finite or not. -/
def HasSlackSign : ConstraintType → Extended → Prop
  | .equal, s => s = 0
  | .lessEqual, s => 0 ≤ s
  | .greaterEqual, s => s ≤ 0

/-- The sign of a multiplier of the constraint, finite or not. -/
def HasMultiplierSign : ConstraintType → Extended → Prop
  | .equal, _ => True
  | .lessEqual, y => y ≤ 0
  | .greaterEqual, y => 0 ≤ y

theorem hasSlackSign_mul_iff {r : Rat} (hr : 0 < r) (t : ConstraintType) (s : Extended) :
    t.HasSlackSign (s * finite r) ↔ t.HasSlackSign s := by
  cases t with
  | equal => exact mul_finite_eq_zero_iff hr s
  | lessEqual => exact nonneg_mul_iff hr s
  | greaterEqual =>
    rw [mul_finite_eq_div hr.ne']
    exact nonpos_div_iff (inv_pos.2 hr) s

theorem hasMultiplierSign_div_iff {r : Rat} (hr : 0 < r) (t : ConstraintType) (y : Extended) :
    t.HasMultiplierSign (y / finite r) ↔ t.HasMultiplierSign y := by
  cases t with
  | equal => rfl
  | lessEqual => exact nonpos_div_iff hr y
  | greaterEqual => exact nonneg_div_iff hr y

end ConstraintType

/-! ### Points -/

namespace UserInterior

/-- The slacks, multipliers and distances have the signs that the program gives them. -/
@[mk_iff]
structure Signed (u : UserInterior Extended) (P : Program Extended) : Prop where
  slack : ∀ i < P.numConstr, ∀ t ∈ P.types[i]?, t.HasSlackSign (u.slack.entry i)
  y : ∀ i < P.numConstr, ∀ t ∈ P.types[i]?, t.HasMultiplierSign (u.y.entry i)
  lower : ∀ j < P.numVar, 0 ≤ u.xl.entry j ∧ 0 ≤ u.zl.entry j
  upper : ∀ j < P.numVar, 0 ≤ u.xu.entry j ∧ 0 ≤ u.zu.entry j

/-- Infinite bounds are infinitely far and have no multipliers. -/
@[mk_iff]
structure FreesInfinite (u : UserInterior Extended) (P : Program Extended) : Prop where
  lower : ∀ j < P.numVar, P.lb.entry j = bottom → u.xl.entry j = top ∧ u.zl.entry j = 0
  upper : ∀ j < P.numVar, P.ub.entry j = top → u.xu.entry j = top ∧ u.zu.entry j = 0

end UserInterior

/-- Distances and multipliers of bounds are nonnegative. Nothing is said about the other entries. -/
structure SolverInterior.Nonneg (s : SolverInterior Extended) : Prop where
  xl : ∀ a ∈ s.xl, 0 ≤ a
  xu : ∀ a ∈ s.xu, 0 ≤ a
  zl : ∀ a ∈ s.zl, 0 ≤ a
  zu : ∀ a ∈ s.zu, 0 ≤ a

namespace Program.Image

variable {P Q : Program Extended} {r d : Nat → Rat} {p q : UserInterior Extended}

/-- A positive factor keeps a sign, and a negative one exchanges the two bounds. -/
theorem signed_iff (h : P.Image Q r d) (hq : q.Scaled p P.numVar P.numConstr r d) :
    q.Signed Q ↔ p.Signed P := by
  have habs : ∀ j < P.numVar, 0 < |d j| := fun j hj => abs_pos.2 (h.col_ne j hj)
  have hbounds : ((∀ j < P.numVar, 0 ≤ q.xl.entry j ∧ 0 ≤ q.zl.entry j) ∧
      ∀ j < P.numVar, 0 ≤ q.xu.entry j ∧ 0 ≤ q.zu.entry j) ↔
        (∀ j < P.numVar, 0 ≤ p.xl.entry j ∧ 0 ≤ p.zl.entry j) ∧
          ∀ j < P.numVar, 0 ≤ p.xu.entry j ∧ 0 ≤ p.zu.entry j := by
    apply forall_exchange (c := fun j => 0 < d j) <;> intro j hj
    · rw [hq.xl j hj, hq.zl j hj, nonneg_div_iff (habs j hj), nonneg_mul_iff (habs j hj)]
      split_ifs <;> rfl
    · rw [hq.xu j hj, hq.zu j hj, nonneg_div_iff (habs j hj), nonneg_mul_iff (habs j hj)]
      split_ifs <;> rfl
  have hslack : (∀ i < P.numConstr, ∀ t ∈ P.types[i]?, t.HasSlackSign (q.slack.entry i)) ↔
      ∀ i < P.numConstr, ∀ t ∈ P.types[i]?, t.HasSlackSign (p.slack.entry i) :=
    forall₂_congr fun i hi => forall₂_congr fun t _ => by
      rw [hq.slack i hi, t.hasSlackSign_mul_iff (h.row_pos i hi)]
  have hy : (∀ i < P.numConstr, ∀ t ∈ P.types[i]?, t.HasMultiplierSign (q.y.entry i)) ↔
      ∀ i < P.numConstr, ∀ t ∈ P.types[i]?, t.HasMultiplierSign (p.y.entry i) :=
    forall₂_congr fun i hi => forall₂_congr fun t _ => by
      rw [hq.y i hi, t.hasMultiplierSign_div_iff (h.row_pos i hi)]
  rw [UserInterior.signed_iff, UserInterior.signed_iff, h.numVar_eq, h.numConstr_eq, h.types_eq,
    hslack, hy, hbounds]

theorem freesInfinite_iff (h : P.Image Q r d) (hq : q.Scaled p P.numVar P.numConstr r d) :
    q.FreesInfinite Q ↔ p.FreesInfinite P := by
  have habs : ∀ j < P.numVar, 0 < |d j| := fun j hj => abs_pos.2 (h.col_ne j hj)
  rw [UserInterior.freesInfinite_iff, UserInterior.freesInfinite_iff, h.numVar_eq]
  apply forall_exchange (c := fun j => 0 < d j) <;> intro j hj
  · rw [hq.xl j hj, hq.zl j hj, div_eq_top_iff (habs j hj), mul_finite_eq_zero_iff (habs j hj),
      h.lb_eq_bottom_iff hj]
    split_ifs <;> rfl
  · rw [hq.xu j hj, hq.zu j hj, div_eq_top_iff (habs j hj), mul_finite_eq_zero_iff (habs j hj),
      h.ub_eq_top_iff hj]
    split_ifs <;> rfl

end Program.Image

/-! ### The two forms -/

theorem Vec.entry_nonneg {v : Vec Extended} (h : ∀ a ∈ v, 0 ≤ a) (i : Nat) : 0 ≤ v.entry i := by
  by_cases hi : i < v.size
  · rw [entry_eq_getElem v hi]
    exact h _ (Array.getElem_mem hi)
  · rw [entry_of_size_le v (not_lt.1 hi)]
    exact finite_le_finite.2 le_rfl

namespace Form

variable {M : Model Extended} {s : SolverInterior Extended}

theorem IsPrimal.signed_userInterior (hF : IsPrimal M.program M.scaled M.form) (hM : M.Exact)
    (hs : s.Fits M.rows M.cols) (hn : s.Nonneg) :
    (M.userInterior s).Signed M.scaledProgram := by
  obtain ⟨-, hxl, hxu, -, hzl, hzu⟩ := hs
  rw [Model.rows, Model.cols, hF.cols_add_rows] at hxl hxu hzl hzu
  have hcols : M.scaledProgram.numVar = M.program.numVar := hM.image.numVar_eq
  have htypes : M.scaledProgram.types = M.program.types := hM.image.types_eq
  have hentry : ∀ {v : Vec Extended} {j : Nat}, v.size = M.program.numVar + M.program.numConstr →
      (∀ a ∈ v, 0 ≤ a) → j < M.scaledProgram.numVar →
        0 ≤ Vec.entry (v.extract 0 M.program.numVar) j := fun hv h hj => by
    rw [Vec.entry_extract _ (by omega) (by omega)]
    exact Vec.entry_nonneg h _
  rw [Model.userInterior_primal hF.kind_eq]
  refine ⟨fun i _ t ht => ?_, fun i _ t ht => ?_,
    fun j hj => ⟨hentry hxl hn.xl hj, hentry hzl hn.zl hj⟩,
    fun j hj => ⟨hentry hxu hn.xu hj, hentry hzu hn.zu hj⟩⟩
  · rw [Vec.entry_mapIdx _ _ (htypes ▸ ht)]
    cases t with
    | equal => rfl
    | lessEqual => exact Vec.entry_nonneg hn.xl _
    | greaterEqual => exact nonpos_neg (Vec.entry_nonneg hn.xu _)
  · rw [Vec.entry_mapIdx _ _ (htypes ▸ ht)]
    cases t with
    | equal => trivial
    | lessEqual => exact nonpos_neg (Vec.entry_nonneg hn.zl _)
    | greaterEqual => exact Vec.entry_nonneg hn.zu _

section Dual

variable (hF : IsDual M.program M.scaled M.form) (hM : M.Exact)
include hF hM

theorem IsDual.signed_userInterior (hn : s.Nonneg) :
    (M.userInterior s).Signed M.scaledProgram := by
  have hrows : M.rows = M.program.numVar := hF.rows_eq
  have hcols : M.scaledProgram.numVar = M.program.numVar := hM.image.numVar_eq
  have htypes : M.scaledProgram.types = M.program.types := hM.image.types_eq
  have hzero : (0 : Extended) ≤ 0 := finite_le_finite.2 le_rfl
  have hlower : ∀ {v : Vec Extended} {a : Extended} {j : Nat}, (∀ a ∈ v, 0 ≤ a) → 0 ≤ a →
      j < M.scaledProgram.numVar → 0 ≤ (M.atFiniteLower v a).entry j := fun h ha hj => by
    rw [Model.entry_atFiniteLower _ _ (by omega)]
    split_ifs
    · exact Vec.entry_nonneg h _
    · exact ha
  have hupper : ∀ {v w : Vec Extended} {j : Nat}, w.size = M.program.numVar → (∀ a ∈ v, 0 ≤ a) →
      (∀ a ∈ w, 0 ≤ a) → j < M.scaledProgram.numVar →
        0 ≤ (M.placeBoxed v M.program.numConstr w).entry j := fun hw h hw' hj => by
    rw [Model.entry_placeBoxed hM.regular.valid _ _ _ (by omega)]
    split_ifs
    · exact Vec.entry_nonneg h _
    · exact Vec.entry_nonneg hw' _
  rw [Model.userInterior_dual hF.kind_eq]
  refine ⟨fun i _ t ht => ?_, fun i _ t ht => ?_,
    fun j hj => ⟨hlower hn.zl (finite_le_top 0) hj, hlower hn.xl hzero hj⟩,
    fun j hj => ⟨hupper Array.size_replicate hn.zl ?_ hj, hupper (Vec.size_zeros _) hn.xl ?_ hj⟩⟩
  · rw [Vec.entry_mapIdx _ _ (htypes ▸ ht)]
    cases t with
    | equal => rfl
    | lessEqual => exact Vec.entry_nonneg hn.zu _
    | greaterEqual => exact nonpos_neg (Vec.entry_nonneg hn.zl _)
  · rw [Vec.entry_mapIdx _ _ (htypes ▸ ht)]
    cases t with
    | equal => trivial
    | lessEqual => exact nonpos_neg (Vec.entry_nonneg hn.xu _)
    | greaterEqual => exact Vec.entry_nonneg hn.xl _
  · exact fun a ha => Array.eq_of_mem_replicate ha ▸ finite_le_top 0
  · exact fun a ha => Array.eq_of_mem_replicate ha ▸ hzero

/-- Only finite bounds of the scaled program have columns in the dual form. -/
theorem IsDual.freesInfinite_userInterior (s : SolverInterior Extended) :
    (M.userInterior s).FreesInfinite M.scaledProgram := by
  have hrows : M.rows = M.program.numVar := hF.rows_eq
  have hcols : M.scaledProgram.numVar = M.program.numVar := hM.image.numVar_eq
  rw [Model.userInterior_dual hF.kind_eq]
  refine ⟨fun j hj hlb => ?_, fun j hj hub => ?_⟩
  · rw [Model.entry_atFiniteLower _ _ (by omega), Model.entry_atFiniteLower _ _ (by omega), hlb]
    exact ⟨rfl, rfl⟩
  · have hboxed : j ∉ M.program.boxed := fun h => by
      have hfinite : Scalar.isFinite (M.scaledProgram.ub.entry j) = true :=
        (hM.isFinite_upper_iff (by omega)).2 h
      rw [hub] at hfinite
      exact Bool.noConfusion hfinite
    rw [Model.entry_placeBoxed hM.regular.valid _ _ _ (by simpa using hcols ▸ hj),
      Model.entry_placeBoxed hM.regular.valid _ _ _ (by simpa using hcols ▸ hj), if_neg hboxed,
      if_neg hboxed]
    exact ⟨Vec.entry_replicate _ (by omega), Vec.entry_zeros _ _⟩

end Dual

end Form

/-! ### The user's program -/

namespace Model

/-- Whatever the point of the form is, its postsolved point has the signs of the program, and in the
dual form no trace of infinite bounds. -/
theorem postsolveInterior?_signed {M : Model Extended} (hM : M.Loaded) {s : SolverInterior Extended}
    (hs : s.Fits M.rows M.cols) (hn : s.Nonneg) :
    ∃ u, M.postsolveInterior? s = some u ∧ u.Sized M.program.numVar M.program.numConstr ∧
      u.Signed M.program ∧ (M.dualized = true → u.FreesInfinite M.program) := by
  have hE := hM.exact
  have hq := hE.regular.sized_userInterior hs
  have hu := Scaling.sized_unscaleInterior hE.suits hq
  have hscaled := Scaling.scaled_scaleInterior hE.suits hE.positive_colscale
    hE.positive_rowscale hu
  rw [Scaling.scaleInterior_unscaleInterior hE.suits hE.positive_colscale hE.positive_rowscale hq]
    at hscaled
  refine ⟨_, if_pos hs, hu, (hE.image.signed_iff hscaled).1 ?_, fun hdual =>
    (hE.image.freesInfinite_iff hscaled).1
      ((hE.regular.isDual hdual).freesInfinite_userInterior hE s)⟩
  rcases hE.regular.form with hF | hF
  · exact hF.signed_userInterior hE hs hn
  · exact hF.signed_userInterior hE hn

/-- A point of the dual form of `Program.mixed` that is not feasible, with entries that are not even
finite. -/
def mixedStray : SolverInterior Extended where
  x := #[undefined, finite (-2), bottom, finite 5, finite 0, top, finite 1]
  xl := #[finite 1, finite 7, finite 2, top, finite 4, finite 0, finite 3]
  xu := #[finite 2, finite 5, top, finite 1, finite 0, finite 9, finite 1]
  y := #[finite 1, top, undefined, finite (-4)]
  zl := #[finite 3, finite 1, finite 0, finite 6, finite 2, top, finite 8]
  zu := #[finite 0, finite 4, finite 1, finite 1, top, finite 3, finite 5]

theorem postsolveInterior?_signed_mixed :
    ∃ M : Model Extended, M.Loaded ∧ M.program = Program.mixed ∧ M.dualized = true ∧
      ∃ u, M.postsolveInterior? mixedStray = some u ∧ u.Signed Program.mixed ∧
        u.FreesInfinite Program.mixed := by
  obtain ⟨M, hM, hP, hp⟩ := exists_loaded { dualize := .always } Program.valid_mixed
    (p := fun M => decide (M.dualized = true ∧ mixedStray.Fits M.rows M.cols)) (by decide +kernel)
  obtain ⟨hdual, hs⟩ := of_decide_eq_true hp
  have hn : mixedStray.Nonneg := by constructor <;> decide +kernel
  obtain ⟨u, hu, -, hsigned, hfrees⟩ := postsolveInterior?_signed hM hs hn
  exact ⟨M, hM, hP, hdual, u, hu, hP ▸ hsigned, hP ▸ hfrees hdual⟩

end Model

end LpPresolve
