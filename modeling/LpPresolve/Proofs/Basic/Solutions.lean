import LpPresolve.Proofs.Optimality.Forms
import LpPresolve.Proofs.Transfer.Basis

/-! Basic solutions of loaded models. A solution is moved to the bounds of the scaled program by the
statuses of the scaled variables, and statuses and solution are mirrored afterwards. Both meet in user
space: a flipped variable has the mirrored status and the other bound, and so sits at the bound that
its status names again. -/

namespace LpPresolve

open Extended

namespace Program

/-- The point `p` is `q` moved to a basis: variables sit at the bounds that their statuses name, and
reduced costs of basic variables, slacks of active constraints and multipliers of the others are zero.
All other entries are kept. -/
structure MovedTo (P : Program Extended) (B : Basis) (q p : UserPoint Extended) : Prop where
  x_lower : ∀ j < P.numVar, B.varStatus[j]? = some .nonbasicLower → p.x.entry j = P.lb.entry j
  x_upper : ∀ j < P.numVar, B.varStatus[j]? = some .nonbasicUpper → p.x.entry j = P.ub.entry j
  x_kept : ∀ j < P.numVar, B.varStatus[j]? ≠ some .nonbasicLower →
    B.varStatus[j]? ≠ some .nonbasicUpper → p.x.entry j = q.x.entry j
  slack_active : ∀ i < P.numConstr, B.constrStatus[i]? = some .nonbasic → p.slack.entry i = 0
  slack_kept : ∀ i < P.numConstr, B.constrStatus[i]? ≠ some .nonbasic →
    p.slack.entry i = q.slack.entry i
  y_inactive : ∀ i < P.numConstr, B.constrStatus[i]? = some .basic → p.y.entry i = 0
  y_kept : ∀ i < P.numConstr, B.constrStatus[i]? ≠ some .basic → p.y.entry i = q.y.entry i
  z_basic : ∀ j < P.numVar, B.varStatus[j]? = some .basic → p.z.entry j = 0
  z_kept : ∀ j < P.numVar, B.varStatus[j]? ≠ some .basic → p.z.entry j = q.z.entry j

end Program

/-! ### Mirrored bases -/

namespace Basis

/-- The basis `B'` of an image program that stands for `B`, with the statuses of `n` variables mirrored
where their factor is negative. -/
structure Image (B B' : Basis) (n : Nat) (d : Nat → Rat) : Prop where
  constr : B'.constrStatus = B.constrStatus
  var : ∀ j < n, B.varStatus[j]? =
    if 0 < d j then B'.varStatus[j]? else B'.varStatus[j]?.map BasisStatus.mirrored

variable {B B' : Basis} {n : Nat} {d : Nat → Rat}

theorem map_mirrored_eq_some_iff {o : Option BasisStatus} {b : BasisStatus} :
    o.map BasisStatus.mirrored = some b ↔ o = some b.mirrored := by
  constructor
  · intro h
    obtain ⟨a, rfl, rfl⟩ := Option.map_eq_some_iff.1 h
    rw [BasisStatus.mirrored_mirrored]
  · rintro rfl
    rw [Option.map_some, BasisStatus.mirrored_mirrored]

theorem Image.var_eq_some_iff (h : B.Image B' n d) {j : Nat} (hj : j < n) (b : BasisStatus) :
    B.varStatus[j]? = some b ↔ B'.varStatus[j]? = some (if 0 < d j then b else b.mirrored) := by
  rw [h.var j hj]
  split_ifs
  · rfl
  · exact map_mirrored_eq_some_iff

end Basis

/-! ### The scaled program -/

namespace Model

section Scaled

variable {α : Type} [Scalar α] {M : Model α} {s : SolverPoint α} {basis : Array BasisStatus}

theorem sized_matchBasis (M : Model α) {u : UserPoint α} {n m : Nat} (hu : u.Sized n m)
    (B : Basis) : (M.matchBasis B u).Sized n m where
  size_x := Array.size_mapIdx.trans hu.size_x
  size_slack := Array.size_mapIdx.trans hu.size_slack
  size_y := Array.size_mapIdx.trans hu.size_y
  size_z := Array.size_mapIdx.trans hu.size_z

theorem Regular.postsolveBasis?_eq_some_iff (hM : M.Regular) {B : Basis} :
    M.postsolveBasis? basis = some B ↔
      M.Accepts basis ∧ M.scaling.unscaleBasis (M.userBasis basis) = B := by
  rw [hM.postsolveBasis?_eq]
  by_cases h : M.Accepts basis <;> simp [h]

theorem Accepts.scaledBasic?_eq (hM : M.Regular) (hs : s.Fits M.rows M.cols)
    (h : M.Accepts basis) : M.scaledBasic? s basis =
      some (M.matchBasis (M.userBasis basis) (M.userPoint s), M.userBasis basis) := by
  rw [scaledBasic?, if_pos ⟨hs, h.size⟩, hM.userBasis?_eq h.size, if_pos h]
  rfl

theorem Accepts.postsolveBasic?_eq (hM : M.Regular) (hs : s.Fits M.rows M.cols)
    (h : M.Accepts basis) : M.postsolveBasic? s basis = some
      (M.scaling.unscalePoint (M.matchBasis (M.userBasis basis) (M.userPoint s))) := by
  rw [postsolveBasic?, h.scaledBasic?_eq hM hs]
  rfl

end Scaled

namespace Exact

variable {M : Model Extended} {u : UserPoint Extended}

theorem movedTo_matchBasis (hM : M.Exact)
    (hu : u.Sized M.program.numVar M.program.numConstr) (B : Basis) :
    M.scaledProgram.MovedTo B u (M.matchBasis B u) := by
  have hm : M.scaledProgram.numConstr = M.program.numConstr := hM.image.numConstr_eq
  have hn : M.scaledProgram.numVar = M.program.numVar := hM.image.numVar_eq
  have hx := fun j (hj : j < M.scaledProgram.numVar) =>
    u.x.getElem?_eq_some_entry (hu.size_x.symm ▸ hn ▸ hj)
  have hslack := fun i (hi : i < M.scaledProgram.numConstr) =>
    u.slack.getElem?_eq_some_entry (hu.size_slack.symm ▸ hm ▸ hi)
  have hy := fun i (hi : i < M.scaledProgram.numConstr) =>
    u.y.getElem?_eq_some_entry (hu.size_y.symm ▸ hm ▸ hi)
  have hz := fun j (hj : j < M.scaledProgram.numVar) =>
    u.z.getElem?_eq_some_entry (hu.size_z.symm ▸ hn ▸ hj)
  unfold matchBasis
  refine ⟨fun j hj h => ?_, fun j hj h => ?_, fun j hj hl hu => ?_, fun i hi h => ?_,
    fun i hi h => ?_, fun i hi h => ?_, fun i hi h => ?_, fun j hj h => ?_, fun j hj h => ?_⟩
  · simp only [Vec.entry_mapIdx _ _ (hx j hj), h, scaledProgram, ScaledProgram.program]
  · simp only [Vec.entry_mapIdx _ _ (hx j hj), h, scaledProgram, ScaledProgram.program]
  · rw [Vec.entry_mapIdx _ _ (hx j hj)]
    split
    next h => exact absurd h hl
    next h => exact absurd h hu
    next => rfl
  · rw [Vec.entry_mapIdx _ _ (hslack i hi), if_pos h]
  · rw [Vec.entry_mapIdx _ _ (hslack i hi), if_neg h]
  · rw [Vec.entry_mapIdx _ _ (hy i hi), if_pos h]
  · rw [Vec.entry_mapIdx _ _ (hy i hi), if_neg h]
  · rw [Vec.entry_mapIdx _ _ (hz j hj), if_pos h]
  · rw [Vec.entry_mapIdx _ _ (hz j hj), if_neg h]

theorem image_unscaleBasis (hM : M.Exact) (B : Basis) :
    (M.scaling.unscaleBasis B).Image B M.program.numVar M.scaling.signedFactor := by
  refine ⟨rfl, fun j hj => ?_⟩
  have hflip : j ∈ M.scaling.flipped.indices ↔ ¬ 0 < M.scaling.signedFactor j := by
    rw [← hM.signedFactor_neg_iff_flipped hj, not_lt]
    exact ⟨le_of_lt, fun h => lt_of_le_of_ne h (hM.image.col_ne j hj)⟩
  rw [Scaling.unscaleBasis, Flips.getElem?_mirrorStatus hM.suits.nodup, if_congr hflip rfl rfl,
    ite_not]

end Exact

end Model

/-! ### User space -/

namespace Program.Image

variable {P Q : Program Extended} {r d : Nat → Rat} {B B' : Basis}
  {p q p' q' : UserPoint Extended}

/-- The bounds of an image are unscaled to those of the program. -/
theorem bounds_mul (h : P.Image Q r d) {j : Nat} (hj : j < P.numVar) :
    Q.lb.entry j * finite (d j) = (if 0 < d j then P.lb.entry j else P.ub.entry j) ∧
      Q.ub.entry j * finite (d j) = (if 0 < d j then P.ub.entry j else P.lb.entry j) := by
  rw [h.lb j hj, h.ub j hj, div_mul_finite (h.col_ne j hj), div_mul_finite (h.col_ne j hj)]
  exact ⟨rfl, rfl⟩

theorem movedTo (h : P.Image Q r d) (hB : B.Image B' P.numVar d)
    (hq : q.Unscaled q' P.numVar P.numConstr r d) (hp : p.Unscaled p' P.numVar P.numConstr r d)
    (hmove : Q.MovedTo B' q' p') : P.MovedTo B q p := by
  have hm := h.numConstr_eq
  have hn := h.numVar_eq
  have hbasic := fun {j} (hj : j < P.numVar) => hB.var_eq_some_iff hj .basic
  have hlower := fun {j} (hj : j < P.numVar) => hB.var_eq_some_iff hj .nonbasicLower
  have hupper := fun {j} (hj : j < P.numVar) => hB.var_eq_some_iff hj .nonbasicUpper
  simp only [BasisStatus.mirrored, ite_self] at hbasic hlower hupper
  refine ⟨fun j hj hs => ?_, fun j hj hs => ?_, fun j hj hl hu => ?_, fun i hi hs => ?_,
    fun i hi hs => ?_, fun i hi hs => ?_, fun i hi hs => ?_, fun j hj hs => ?_, fun j hj hs => ?_⟩
  · obtain ⟨hlb, hub⟩ := h.bounds_mul hj
    rw [hlower hj] at hs
    rw [hp.x j hj]
    split_ifs at hs hlb hub
    · rw [hmove.x_lower j (hn ▸ hj) hs, hlb]
    · rw [hmove.x_upper j (hn ▸ hj) hs, hub]
  · obtain ⟨hlb, hub⟩ := h.bounds_mul hj
    rw [hupper hj] at hs
    rw [hp.x j hj]
    split_ifs at hs hlb hub
    · rw [hmove.x_upper j (hn ▸ hj) hs, hub]
    · rw [hmove.x_lower j (hn ▸ hj) hs, hlb]
  · rw [Ne, hlower hj] at hl
    rw [Ne, hupper hj] at hu
    rw [hp.x j hj, hq.x j hj]
    split_ifs at hl hu
    · rw [hmove.x_kept j (hn ▸ hj) hl hu]
    · rw [hmove.x_kept j (hn ▸ hj) hu hl]
  · rw [hp.slack i hi, hmove.slack_active i (hm ▸ hi) (hB.constr ▸ hs), zero_eq,
      finite_div_finite _ (h.row_pos i hi).ne', zero_div]
  · rw [hp.slack i hi, hq.slack i hi, hmove.slack_kept i (hm ▸ hi) (hB.constr ▸ hs)]
  · rw [hp.y i hi, hmove.y_inactive i (hm ▸ hi) (hB.constr ▸ hs), zero_eq, finite_mul_finite,
      zero_mul]
  · rw [hp.y i hi, hq.y i hi, hmove.y_kept i (hm ▸ hi) (hB.constr ▸ hs)]
  · rw [hp.z j hj, hmove.z_basic j (hn ▸ hj) ((hbasic hj).1 hs), zero_eq,
      finite_div_finite _ (h.col_ne j hj), zero_div]
  · rw [hp.z j hj, hq.z j hj, hmove.z_kept j (hn ▸ hj) fun hs' => hs ((hbasic hj).2 hs')]

end Program.Image

namespace Model

variable {M : Model Extended} {s : SolverPoint Extended} {basis : Array BasisStatus}

/-- The unscaled solution is moved to the unscaled basis. -/
theorem Exact.movedTo_unscalePoint (hM : M.Exact) (hs : s.Fits M.rows M.cols) (B : Basis) :
    M.program.MovedTo (M.scaling.unscaleBasis B) (M.scaling.unscalePoint (M.userPoint s))
      (M.scaling.unscalePoint (M.matchBasis B (M.userPoint s))) :=
  have hq := hM.sized_userPoint hs
  hM.image.movedTo (hM.image_unscaleBasis B)
    (Scaling.unscaled_unscalePoint hM.suits hM.positive_colscale hM.positive_rowscale hq)
    (Scaling.unscaled_unscalePoint hM.suits hM.positive_colscale hM.positive_rowscale
      (M.sized_matchBasis hq B))
    (hM.movedTo_matchBasis hq B)

/-- For every point and every accepted basis of a loaded model the postsolved basic solution is the
postsolved point moved to the postsolved basis. -/
theorem postsolveBasic?_movedTo (hM : M.Loaded) (hs : s.Fits M.rows M.cols) {B : Basis}
    (hB : M.postsolveBasis? basis = some B) :
    B.constrStatus.size = M.program.numConstr ∧ B.varStatus.size = M.program.numVar ∧
      ∃ p q, M.postsolveBasic? s basis = some p ∧ M.postsolvePoint? s = some q ∧
        p.Sized M.program.numVar M.program.numConstr ∧
        q.Sized M.program.numVar M.program.numConstr ∧ M.program.MovedTo B q p := by
  have hE := hM.exact
  obtain ⟨hacc, rfl⟩ := hE.regular.postsolveBasis?_eq_some_iff.1 hB
  obtain ⟨hconstr, hvar⟩ := hacc.size_userBasis hE.regular
  have hq := hE.sized_userPoint hs
  have hp := M.sized_matchBasis hq (M.userBasis basis)
  exact ⟨hconstr, (Flips.size_mirrorStatus _ _).trans hvar, _, _,
    hacc.postsolveBasic?_eq hE.regular hs, if_pos hs, Scaling.sized_unscalePoint hE.suits hp,
    Scaling.sized_unscalePoint hE.suits hq, hE.movedTo_unscalePoint hs (M.userBasis basis)⟩

/-- A point of the dual form of `Program.mixed`. -/
def mixedSolution : SolverPoint Extended where
  x := #[finite 1, finite 2, finite 3, finite 4, finite (-5), finite 6, finite 7]
  y := #[finite 1, finite (-2), finite 3, finite 4]
  z := #[finite 1, finite 2, finite 3, finite 4, finite 5, finite 6, finite 7]

/-- A basis of that form: the boxed and the flipped variable are at their upper bounds, the free one is
basic. -/
def mixedStatuses : Array BasisStatus :=
  #[.nonbasicUpper, .basic, .basic, .nonbasicLower, .nonbasicLower, .basic, .basic]

theorem postsolveBasic?_movedTo_mixed :
    ∃ M : Model Extended, M.Loaded ∧ M.program = Program.mixed ∧ M.dualized = true ∧
      ∃ p q, M.postsolveBasic? mixedSolution mixedStatuses = some p ∧
        M.postsolvePoint? mixedSolution = some q ∧
        Program.mixed.MovedTo ⟨#[.basic, .nonbasic],
          #[.nonbasicUpper, .basic, .nonbasicUpper, .nonbasicLower]⟩ q p := by
  obtain ⟨M, hM, hP, hp⟩ := exists_loaded { dualize := .always } Program.valid_mixed
    (p := fun M => decide (M.dualized = true ∧ mixedSolution.Fits M.rows M.cols ∧
      M.postsolveBasis? mixedStatuses = some ⟨#[.basic, .nonbasic],
        #[.nonbasicUpper, .basic, .nonbasicUpper, .nonbasicLower]⟩)) (by decide +kernel)
  obtain ⟨hdual, hs, hB⟩ := of_decide_eq_true hp
  obtain ⟨-, -, p, q, hpost, hpoint, -, -, hmove⟩ := postsolveBasic?_movedTo hM hs hB
  exact ⟨M, hM, hP, hdual, p, q, hpost, hpoint, hP ▸ hmove⟩

end Model

end LpPresolve
