import LpPresolve.Proofs.Exact.Forms
import LpPresolve.Proofs.Transfer.Basis
import Mathlib.LinearAlgebra.FiniteDimensional.Lemmas
import Mathlib.LinearAlgebra.Matrix.DotProduct

/-! Bases in exact arithmetic. As many columns of a form as it has rows, linearly independent, come back
as a basis of the user's program: as many constraints and variables as there are constraints, whose units
and columns are linearly independent. A relation between these is one between the columns of the primal
form. In the dual form it is a vector orthogonal to all basic columns, which span the whole space. -/

namespace LpPresolve

open Extended

/-! ### Families of columns -/

/-- The numbers below `n` with a property. -/
abbrev Members (n : Nat) (p : Nat → Prop) : Type := {j : Fin n // p j}

theorem sum_members {β : Type} [AddCommMonoid β] {n : Nat} (p : Nat → Prop) [DecidablePred p]
    (f : Nat → β) (h : ∀ j < n, ¬ p j → f j = 0) :
    ∑ j : Members n p, f j.1 = ∑ j ∈ Finset.range n, f j := by
  have hmem : ∀ j : Fin n, j ∈ Finset.univ.filter (fun j : Fin n => p j) ↔ p j := by simp
  have hzero : ∀ j ∈ (Finset.univ : Finset (Fin n)), f j ≠ 0 → p j := by
    intro j _ hne
    by_contra hp
    exact hne (h j j.2 hp)
  rw [Finset.sum_range, ← Finset.sum_filter_of_ne hzero]
  exact (Finset.sum_subtype _ hmem fun j : Fin n => f j).symm

theorem card_members {n : Nat} (p : Nat → Prop) [DecidablePred p] :
    Fintype.card (Members n p) = ∑ j ∈ Finset.range n, if p j then 1 else 0 := by
  have hone : ∀ j : Members n p, 1 = if p j.1 then 1 else 0 := fun j => (if_pos j.2).symm
  rw [Fintype.card_eq_sum_ones, ← sum_members p _ fun j _ hp => if_neg hp]
  exact Fintype.sum_congr _ _ hone

/-- A vector that is orthogonal to as many independent vectors as it has entries. -/
theorem eq_zero_of_forall_dotProduct {ι : Type} [Fintype ι] {n : Nat} {v : ι → Fin n → Rat}
    (hv : LinearIndependent Rat v) (hcard : Fintype.card ι = n) {y : Fin n → Rat}
    (hy : ∀ k, v k ⬝ᵥ y = 0) : y = 0 := by
  have hspan := hv.span_eq_top_of_card_eq_finrank' (by simpa using hcard)
  have hall : ∀ u ∈ Submodule.span Rat (Set.range v), u ⬝ᵥ y = 0 := by
    intro u hu
    induction hu using Submodule.span_induction with
    | mem u hu =>
      obtain ⟨k, rfl⟩ := hu
      exact hy k
    | zero => exact zero_dotProduct y
    | add u w _ _ hu hw => rw [add_dotProduct, hu, hw, add_zero]
    | smul a u _ hu => rw [smul_dotProduct, hu, smul_zero]
  exact dotProduct_self_eq_zero.1 (hall y (hspan ▸ Submodule.mem_top))

/-! ### Bases of the form -/

/-- The columns of the form that are basic. -/
def Form.basicColumns (F : Form Extended) (basis : Array BasisStatus) :
    Members (F.cols + F.rows) (BasicAt basis) → Fin F.rows → Rat :=
  fun j i => F.AI.value i j

/-- As many columns as there are rows are basic, and they are linearly independent. -/
structure Form.IsBasis (F : Form Extended) (basis : Array BasisStatus) : Prop where
  size : basis.size = F.cols + F.rows
  count : basis.count .basic = F.rows
  independent : LinearIndependent Rat (F.basicColumns basis)

namespace Form.IsBasis

variable {F : Form Extended} {basis : Array BasisStatus}

/-- No relation holds between the basic columns. -/
theorem eq_zero_of_rowDot (h : F.IsBasis basis) (hF : F.Exact) {w : Nat → Rat}
    (hw : ∀ j < F.cols + F.rows, ¬ BasicAt basis j → w j = 0)
    (hrow : ∀ i < F.rows, F.AI.rowDot i w = 0) {j : Nat} (hj : BasicAt basis j) : w j = 0 := by
  have hind := Fintype.linearIndependent_iff.1 h.independent fun j => w j.1
  refine hind ?_ ⟨⟨j, h.size ▸ hj.lt_size⟩, hj⟩
  funext i
  rw [Finset.sum_apply]
  refine (sum_members (BasicAt basis) (fun j => w j * F.AI.value i j) fun j hlt hb => ?_).trans ?_
  · rw [hw j hlt hb, zero_mul]
  · rw [Pi.zero_apply, ← hrow i i.2, Csc.rowDot, hF.cols_AI]
    exact Finset.sum_congr rfl fun j _ => mul_comm _ _

/-- No vector but zero is orthogonal to all basic columns. -/
theorem eq_zero_of_colDot (h : F.IsBasis basis) (hF : F.Exact) {y : Nat → Rat}
    (hy : ∀ j < F.cols + F.rows, BasicAt basis j → F.AI.colDot j y = 0) {i : Nat}
    (hi : i < F.rows) : y i = 0 := by
  have hcard : Fintype.card (Members (F.cols + F.rows) (BasicAt basis)) = F.rows := by
    rw [card_members, ← h.size, ← count_basic_eq_sum, h.count]
  have hzero := eq_zero_of_forall_dotProduct h.independent hcard (y := fun i => y i) fun j => by
    rw [← hy j.1 j.1.2 j.2, Csc.colDot, hF.rows_AI, Finset.sum_range]
    rfl
  exact congrFun hzero ⟨i, hi⟩

end Form.IsBasis

/-- The rows `L j` are a left inverse of the basic columns. -/
def Form.HasLeftInverse (F : Form Extended) (basis : Array BasisStatus) (L : Nat → Nat → Rat) : Prop :=
  ∀ j < F.cols + F.rows, BasicAt basis j → ∀ k < F.cols + F.rows, BasicAt basis k →
    ∑ i ∈ Finset.range F.rows, L j i * F.AI.value i k = if j = k then 1 else 0

instance (F : Form Extended) (basis : Array BasisStatus) (L : Nat → Nat → Rat) :
    Decidable (F.HasLeftInverse basis L) :=
  inferInstanceAs (Decidable (∀ j < _, BasicAt basis j → _))

/-- Columns with a left inverse are independent. -/
theorem Form.HasLeftInverse.independent {F : Form Extended} {basis : Array BasisStatus}
    {L : Nat → Nat → Rat} (h : F.HasLeftInverse basis L) :
    LinearIndependent Rat (F.basicColumns basis) := by
  let dual (j : Members (F.cols + F.rows) (BasicAt basis)) : Module.Dual Rat (Fin F.rows → Rat) :=
    dotProductBilin Rat Rat fun i => L j.1 i
  have hdual : ∀ j k, dual j (F.basicColumns basis k) = if j.1.1 = k.1.1 then 1 else 0 := by
    intro j k
    rw [← h j.1 j.1.2 j.2 k.1 k.1.2 k.2, Finset.sum_range]
    rfl
  apply LinearIndependent.of_pairwise_dual_eq_zero_one _ dual
  · intro j k hjk
    rw [hdual j k, if_neg fun heq => hjk (Subtype.ext (Fin.ext heq))]
  · intro j
    rw [hdual j j, if_pos rfl]

/-! ### Bases of the program -/

/-- The units of the basic constraints and the columns of the basic variables. -/
def Program.basicColumns (P : Program Extended) (B : Basis) :
    Members P.numConstr (fun i => B.constrStatus[i]? = some .basic) ⊕
      Members P.numVar (BasicAt B.varStatus) → Fin P.numConstr → Rat :=
  Sum.elim (fun i => Pi.single i.1 1) fun j i => P.A.value i j

/-- As many constraints and variables as there are constraints are basic, and their units and columns
are linearly independent. -/
structure Program.IsBasis (P : Program Extended) (B : Basis) : Prop where
  size_constr : B.constrStatus.size = P.numConstr
  size_var : B.varStatus.size = P.numVar
  count : B.numBasic = P.numConstr
  independent : LinearIndependent Rat (P.basicColumns B)

/-- A function on some numbers, continued by zero. -/
def Members.extend {n : Nat} {p : Nat → Prop} [DecidablePred p] (g : Members n p → Rat) (j : Nat) :
    Rat :=
  if h : j < n ∧ p j then g ⟨⟨j, h.1⟩, h.2⟩ else 0

theorem Members.extend_apply {n : Nat} {p : Nat → Prop} [DecidablePred p] (g : Members n p → Rat)
    (j : Members n p) : extend g j.1 = g j :=
  dif_pos ⟨j.1.2, j.2⟩

theorem Members.extend_of_not {n : Nat} {p : Nat → Prop} [DecidablePred p] (g : Members n p → Rat)
    {j : Nat} (h : ¬ p j) : extend g j = 0 :=
  dif_neg fun hj => h hj.2

/-- The units and columns are independent if every relation between them is trivial. -/
theorem Program.independent_of_forall {P : Program Extended} {B : Basis}
    (h : ∀ x s : Nat → Rat, (∀ j, ¬ BasicAt B.varStatus j → x j = 0) →
      (∀ i, B.constrStatus[i]? ≠ some .basic → s i = 0) →
      (∀ i < P.numConstr, P.A.rowDot i x + s i = 0) →
      (∀ j < P.numVar, x j = 0) ∧ ∀ i < P.numConstr, s i = 0) :
    LinearIndependent Rat (P.basicColumns B) := by
  apply Fintype.linearIndependent_iff.2
  intro g hg
  let x := Members.extend fun j => g (.inr j)
  let s := Members.extend fun i => g (.inl i)
  have hxapply : ∀ j, x j.1 = g (.inr j) := Members.extend_apply _
  have hsapply : ∀ i, s i.1 = g (.inl i) := Members.extend_apply _
  have hx : ∀ j, ¬ BasicAt B.varStatus j → x j = 0 := fun j hb => Members.extend_of_not _ hb
  have hs : ∀ i, B.constrStatus[i]? ≠ some .basic → s i = 0 := fun i hb =>
    Members.extend_of_not _ hb
  have hrow : ∀ i < P.numConstr, P.A.rowDot i x + s i = 0 := by
    intro i hi
    have hunits : ∑ k, g (.inl k) * P.basicColumns B (.inl k) ⟨i, hi⟩ = s i := by
      calc ∑ k, g (.inl k) * P.basicColumns B (.inl k) ⟨i, hi⟩
          = ∑ k : Members P.numConstr (fun i => B.constrStatus[i]? = some .basic),
              s k.1 * if i = k.1 then 1 else 0 := by
            apply Finset.sum_congr rfl
            intro k _
            rw [hsapply k, basicColumns, Sum.elim_inl, Pi.single_apply]
            simp only [Fin.ext_iff]
        _ = ∑ k ∈ Finset.range P.numConstr, s k * if i = k then 1 else 0 :=
            sum_members _ (fun k => s k * if i = k then 1 else 0) fun k _ hb => by
              rw [hs k hb, zero_mul]
        _ = s i := by simp [hi]
    have hcolumns : ∑ j, g (.inr j) * P.basicColumns B (.inr j) ⟨i, hi⟩ = P.A.rowDot i x := by
      calc ∑ j, g (.inr j) * P.basicColumns B (.inr j) ⟨i, hi⟩
          = ∑ j : Members P.numVar (BasicAt B.varStatus), P.A.value i j.1 * x j.1 := by
            apply Finset.sum_congr rfl
            intro j _
            rw [hxapply j, mul_comm]
            rfl
        _ = P.A.rowDot i x :=
            sum_members _ (fun j => P.A.value i j * x j) fun j _ hb => by rw [hx j hb, mul_zero]
    have hsum := congrFun hg ⟨i, hi⟩
    rw [Fintype.sum_sum_type, Pi.add_apply, Finset.sum_apply, Finset.sum_apply] at hsum
    rw [← hunits, ← hcolumns, add_comm]
    exact hsum
  obtain ⟨hxzero, hszero⟩ := h x s hx hs hrow
  rintro (i | j)
  · exact (hsapply i).symm.trans (hszero i.1 i.1.2)
  · exact (hxapply j).symm.trans (hxzero j.1 j.1.2)

namespace Form

variable {M : Model Extended} {basis : Array BasisStatus}

/-! ### Primal form -/

/-- A relation between the user's units and columns is one between the columns of the form, each over
its factor. -/
theorem IsPrimal.independent (hF : IsPrimal M.program M.scaled M.form) (hM : M.Exact)
    (h : M.form.IsBasis basis) {B : Basis}
    (hconstr : ∀ i < M.program.numConstr, B.constrStatus[i]? = some .basic ↔
      BasicAt basis (M.program.numVar + i))
    (hvar : ∀ j < M.program.numVar, BasicAt B.varStatus j ↔ BasicAt basis j) :
    LinearIndependent Rat (M.program.basicColumns B) := by
  apply Program.independent_of_forall
  intro x s hx hs hrow
  let r := M.scaling.rowFactor
  let d := M.scaling.signedFactor
  let w : Nat → Rat := fun j =>
    if j < M.program.numVar then x j / d j else r (j - M.program.numVar) * s (j - M.program.numVar)
  have hleft : ∀ j < M.program.numVar, w j = x j / d j := fun j hj => if_pos hj
  have hright : ∀ i, w (M.program.numVar + i) = r i * s i := fun i => by
    simp only [w]
    rw [if_neg (by omega), Nat.add_sub_cancel_left]
  have hzero : ∀ j < M.form.cols + M.form.rows, ¬ BasicAt basis j → w j = 0 := by
    rw [hF.cols_add_rows, forall_lt_add_iff_lt_left]
    constructor
    · intro j hj hb
      rw [hleft j hj, hx j fun h => hb ((hvar j hj).1 h), zero_div]
    · intro i hi hb
      rw [hright, hs i fun h => hb ((hconstr i hi).1 h), mul_zero]
  have hrows : ∀ i < M.form.rows, M.form.AI.rowDot i w = 0 := by
    rw [hF.rows_eq]
    intro i hi
    have hunscaled : ∀ j < M.program.numVar, w j * d j = x j := by
      intro j hj
      rw [hleft j hj, div_mul_cancel₀ _ (hM.image.col_ne j hj)]
    have hscaled := hM.image.rowDot_eq hi hunscaled
    rw [hF.rowDot_eq hM hi, hscaled, hright, ← mul_add, hrow i hi, mul_zero]
  have hall := fun j (hj : BasicAt basis j) => h.eq_zero_of_rowDot (hF.exact hM) hzero hrows hj
  refine ⟨fun j hj => ?_, fun i hi => ?_⟩
  · by_cases hb : BasicAt B.varStatus j
    · have hw := hall j ((hvar j hj).1 hb)
      rw [hleft j hj, div_eq_zero_iff] at hw
      exact hw.resolve_right (hM.image.col_ne j hj)
    · exact hx j hb
  · by_cases hb : B.constrStatus[i]? = some .basic
    · have hw := hall _ ((hconstr i hi).1 hb)
      rw [hright, mul_eq_zero] at hw
      exact hw.resolve_left (hM.image.row_pos i hi).ne'
    · exact hs i hb

/-! ### Dual form -/

namespace IsDual

variable (hF : IsDual M.program M.scaled M.form) (hM : M.Exact)

include hF hM

/-- The two columns of a boxed variable are negatives of each other. -/
theorem not_basicAt_both (h : M.form.IsBasis basis) {k j : Nat}
    (hk : M.program.boxed[k]? = some j) (hup : BasicAt basis (M.program.numConstr + k)) :
    ¬ BasicAt basis (M.form.cols + j) := by
  intro hlow
  have hlt := (List.getElem?_eq_some_iff.1 hk).1
  let w : Nat → Rat := fun t => if t = M.program.numConstr + k ∨ t = M.form.cols + j then 1 else 0
  have hzero : ∀ t < M.form.cols + M.form.rows, ¬ BasicAt basis t → w t = 0 := by
    intro t _ hb
    apply if_neg
    rintro (rfl | rfl)
    · exact hb hup
    · exact hb hlow
  have hrows : ∀ i < M.form.rows, M.form.AI.rowDot i w = 0 := by
    rw [hF.rows_eq]
    intro i hi
    have hm : M.scaledProgram.A.rows = M.program.numConstr := hM.image.numConstr_eq
    have hconstr : M.scaledProgram.A.colDot i w = 0 := by
      have hw : ∀ t < M.scaledProgram.A.rows, w t = 0 := fun t ht => if_neg (by
        rw [hm] at ht
        rw [hF.cols_eq]
        omega)
      rw [Csc.colDot]
      exact Finset.sum_eq_zero fun t ht => by rw [hw t (Finset.mem_range.1 ht), mul_zero]
    have hboth : upperPart M.program M.program.numConstr w i =
        w (M.program.numConstr + M.program.boxed.length + i) := by
      rw [← hF.cols_eq]
      by_cases hij : i = j
      · obtain ⟨hmem, hidx⟩ := hM.regular.valid.getElem?_boxed_iff.1 hk
        rw [hij, upperPart, if_pos hmem, hidx,
          show w (M.program.numConstr + k) = 1 from if_pos (.inl rfl)]
        exact (if_pos (.inr rfl)).symm
      · have hright : w (M.form.cols + i) = 0 := if_neg (by rw [hF.cols_eq]; omega)
        rw [hright, upperPart]
        split_ifs with hb
        · have hlt := List.idxOf_lt_length_of_mem hb
          have hne : M.program.boxed.idxOf i ≠ k := by
            intro hik
            have hi := hM.regular.valid.getElem?_boxed_iff.2 ⟨hb, hik⟩
            exact hij (Option.some_inj.1 (hi.symm.trans hk))
          exact if_neg (by rw [hF.cols_eq]; omega)
        · rfl
    rw [hF.rowDot_eq hM hi, hconstr, hboth]
    ring
  have hw := h.eq_zero_of_rowDot (hF.exact hM) hzero hrows hup
  rw [show w _ = 1 from if_pos (.inl rfl)] at hw
  exact one_ne_zero hw

/-- A relation between the user's units and columns, each column over its factor, is orthogonal to all
basic columns of the form. -/
theorem independent (h : M.form.IsBasis basis) {B : Basis}
    (hconstr : ∀ i < M.program.numConstr, B.constrStatus[i]? = some .basic ↔ ¬ BasicAt basis i)
    (hvar : ∀ j < M.program.numVar, BasicAt B.varStatus j → ¬ BasicAt basis (M.form.cols + j) ∧
      ¬ (j ∈ M.program.boxed ∧
        BasicAt basis (M.program.numConstr + M.program.boxed.idxOf j))) :
    LinearIndependent Rat (M.program.basicColumns B) := by
  apply Program.independent_of_forall
  intro x s hx hs hrow
  let y : Nat → Rat := fun j => x j / M.scaling.signedFactor j
  have hy : ∀ j < M.program.numVar, y j * M.scaling.signedFactor j = x j := fun j hj =>
    div_mul_cancel₀ _ (hM.image.col_ne j hj)
  have hyzero : ∀ j, ¬ BasicAt B.varStatus j → y j = 0 := fun j hb => by
    simp only [y, hx j hb, zero_div]
  have horth : ∀ t < M.form.cols + M.form.rows, BasicAt basis t → M.form.AI.colDot t y = 0 := by
    rw [hF.cols_add_rows, forall_lt_add_iff_lt_left, forall_lt_add_iff_lt_left]
    refine ⟨⟨fun i hi hb => ?_, fun k hk hb => ?_⟩, fun j hj hb => ?_⟩
    · have hrel := hrow i hi
      rw [hs i fun h => (hconstr i hi).1 h hb, add_zero] at hrel
      rw [hF.colDot_row hM hi, hM.image.rowDot_eq hi hy, hrel, mul_zero]
    · obtain ⟨hmem, hidx⟩ := hM.regular.valid.getElem?_boxed_iff.1 (List.getElem?_eq_getElem hk)
      rw [hF.colDot_upper hM hk, hyzero, neg_zero]
      intro hvb
      refine (hvar _ (hM.regular.valid.lt_of_mem_boxed hmem) hvb).2 ⟨hmem, ?_⟩
      rwa [hidx]
    · rw [hF.colDot_lower hM hj, hyzero]
      intro hvb
      exact (hvar j hj hvb).1 (hF.cols_eq ▸ hb)
  have hxzero : ∀ j < M.program.numVar, x j = 0 := fun j hj => by
    rw [← hy j hj, h.eq_zero_of_colDot (hF.exact hM) horth (hF.rows_eq.symm ▸ hj), zero_mul]
  refine ⟨hxzero, fun i hi => ?_⟩
  have hrel := hrow i hi
  rwa [Csc.rowDot, Finset.sum_eq_zero fun j hj => by
    rw [hxzero j (Finset.mem_range.1 hj), mul_zero], zero_add] at hrel

end IsDual

end Form

/-! ### Postsolved bases -/

namespace Model

variable {M : Model Extended} {basis : Array BasisStatus}

/-- A basis of the form without superbasic columns in the identity block is accepted. -/
theorem Exact.accepts_of_isBasis (hM : M.Exact) (h : M.form.IsBasis basis)
    (hid : ∀ k < M.rows, basis[M.cols + k]? ≠ some .superbasic) : M.Accepts basis := by
  refine ⟨h.size, hid, fun hdual p hp hup => ?_⟩
  have hF := hM.regular.isDual hdual
  exact hF.not_basicAt_both hM h (List.mem_zipIdx_iff_getElem?.1 hp) hup

/-- A model takes a basis of its form to a basis of the user's program: it is not refused, and the basic
constraints and variables are as many as there are constraints and have linearly independent units and
columns. -/
theorem postsolveBasis?_isBasis (hM : M.Loaded) (h : M.form.IsBasis basis)
    (hid : ∀ k < M.rows, basis[M.cols + k]? ≠ some .superbasic) :
    ∃ B, M.postsolveBasis? basis = some B ∧ M.program.IsBasis B := by
  have hE := hM.exact
  have hacc := hE.accepts_of_isBasis h hid
  obtain ⟨hconstr, hvar⟩ := hacc.size_userBasis hE.regular
  have hmirror : ∀ j, BasicAt (M.scaling.unscaleBasis (M.userBasis basis)).varStatus j ↔
      BasicAt (M.userBasis basis).varStatus j := fun j => Flips.basicAt_mirrorStatus _
  have hbasis : M.program.IsBasis (M.scaling.unscaleBasis (M.userBasis basis)) := by
    refine ⟨hconstr, (Flips.size_mirrorStatus _ _).trans hvar,
      (M.scaling.numBasic_unscaleBasis _).trans ?_, ?_⟩
    · rcases hE.regular.form with hF | hF
      · rw [hacc.numBasic_primal hE.regular hF, h.count, hF.rows_eq]
      · have hcount := hacc.numBasic_dual hE.regular hF
        rw [h.count, hF.rows_eq] at hcount
        exact Nat.add_right_cancel hcount
    · rcases hE.regular.form with hF | hF
      · obtain ⟨hc, hv⟩ := hacc.basicAt_primal hF
        exact hF.independent hE h hc fun j hj => (hmirror j).trans (hv j hj)
      · obtain ⟨hc, hv⟩ := hacc.basicAt_dual hF
        exact hF.independent hE h hc fun j hj hb => (hv j hj).1 ((hmirror j).1 hb)
  exact ⟨_, (hE.regular.postsolveBasis?_eq basis).trans (if_pos hacc), hbasis⟩

/-- The optimal basis of `Program.mixed` in the dual form: the multiplier of the second constraint, that
of the upper bound of the boxed variable and those of two lower bounds. -/
def mixedBasis : Array BasisStatus :=
  #[.nonbasicUpper, .basic, .basic, .nonbasicLower, .nonbasicLower, .basic, .basic]

/-- The rows of a left inverse of its columns. -/
def mixedInverse (j i : Nat) : Rat :=
  ([[], [0, 1], [-1], [], [], [0, 3, 1], [0, -1, 0, 1]].getD j []).getD i 0

theorem postsolveBasis?_isBasis_mixed :
    ∃ M : Model Extended, M.Loaded ∧ M.program = Program.mixed ∧ M.dualized = true ∧
      M.form.IsBasis mixedBasis ∧ ∃ B, M.postsolveBasis? mixedBasis = some B ∧
        Program.mixed.IsBasis B := by
  obtain ⟨M, hM, hP, hp⟩ := exists_loaded { dualize := .always } Program.valid_mixed
    (p := fun M => decide (M.dualized = true ∧ mixedBasis.size = M.form.cols + M.form.rows ∧
      mixedBasis.count .basic = M.form.rows ∧
      (∀ k < M.rows, mixedBasis[M.cols + k]? ≠ some .superbasic) ∧
      M.form.HasLeftInverse mixedBasis mixedInverse)) (by decide +kernel)
  obtain ⟨hdual, hs, hcount, hid, hinverse⟩ := of_decide_eq_true hp
  have hbasis : M.form.IsBasis mixedBasis := ⟨hs, hcount, hinverse.independent⟩
  obtain ⟨B, hB, hresult⟩ := postsolveBasis?_isBasis hM hbasis hid
  exact ⟨M, hM, hP, hdual, hbasis, B, hB, hP ▸ hresult⟩

end Model

end LpPresolve
