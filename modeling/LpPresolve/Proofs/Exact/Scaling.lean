import LpPresolve.Proofs.Exact.Image
import Mathlib.Tactic.FieldSimp

/-! The factors of a scaling as rationals. A loaded model's scaled program is the image of the user's
under the factors of the rows and the signed factors of the columns, and scaling and unscaling take a
finite point to its image and back. -/

namespace LpPresolve

open Extended

namespace Scaling

/-! ### Factors -/

/-- The factor at position `i`, which is 1 without scaling. -/
def factorAt (factors : Vec Extended) (i : Nat) : Rat :=
  if factors.isEmpty then 1 else factors.value i

variable (S : Scaling Extended)

/-- The factor that constraint `i` is multiplied by. -/
def rowFactor (i : Nat) : Rat := factorAt S.rowscale i

/-- The factor that variable `j` is divided by, negative for a flipped variable. -/
def signedFactor (j : Nat) : Rat :=
  (if j ∈ S.flipped.indices then -1 else 1) * factorAt S.colscale j

variable {factors v : Vec Extended} {i : Nat}

theorem factorAt_pos {n : Nat} (h : Applies factors n) (hpos : factors.Positive) (hi : i < n) :
    0 < factorAt factors i := by
  rw [factorAt]
  split_ifs with he
  · exact one_pos
  · exact hpos.value_pos (h.size_eq he ▸ hi)

theorem entry_mulBy_finite (h : Applies factors v.size) (hpos : factors.Positive) {q : Rat}
    (hi : i < v.size) (hv : v.entry i = finite q) :
    (mulBy factors v).entry i = finite (q * factorAt factors i) := by
  rw [entry_mulBy h hi, factorAt, hv]
  split_ifs with he
  · rw [mul_one]
  · rw [hpos.entry_eq (h.size_eq he ▸ hi), finite_mul_finite]

theorem entry_divBy_finite (h : Applies factors v.size) (hpos : factors.Positive) {q : Rat}
    (hi : i < v.size) (hv : v.entry i = finite q) :
    (divBy factors v).entry i = finite (q / factorAt factors i) := by
  rw [entry_divBy h hi, factorAt, hv]
  split_ifs with he
  · rw [div_one]
  · have hi' := h.size_eq he ▸ hi
    rw [hpos.entry_eq hi', finite_div_finite _ (hpos.value_pos hi').ne']

theorem entry_mulBy_factorAt (h : Applies factors v.size) (hpos : factors.Positive)
    (hi : i < v.size) : (mulBy factors v).entry i = v.entry i * finite (factorAt factors i) := by
  rw [entry_mulBy h hi, factorAt]
  split_ifs with he
  · exact (mul_one_finite _).symm
  · rw [hpos.entry_eq (h.size_eq he ▸ hi)]

theorem entry_divBy_factorAt (h : Applies factors v.size) (hpos : factors.Positive)
    (hi : i < v.size) : (divBy factors v).entry i = v.entry i / finite (factorAt factors i) := by
  rw [entry_divBy h hi, factorAt]
  split_ifs with he
  · exact (div_one_finite _).symm
  · rw [hpos.entry_eq (h.size_eq he ▸ hi)]

end Scaling

/-! ### Images of programs -/

namespace ScaledProgram

variable {P : Program Extended} {S : ScaledProgram Extended}

section Factors

variable {r d : Nat → Rat} (h : Program.Image P (S.program P) r d) {E : Equilibration Extended}
  (hE : Equilibration.Balances S.A E)

include h hE

theorem colscale_lt {j : Nat} (hj : j < P.numVar) : j < E.colscale.size := by
  rwa [hE.size_colscale, show S.A.cols = P.numVar from h.numVar_eq]

theorem rowscale_lt {i : Nat} (hi : i < P.numConstr) : i < E.rowscale.size := by
  rwa [hE.size_rowscale, show S.A.rows = P.numConstr from h.numConstr_eq]

theorem sizes_applyFactors : (S.applyFactors E).obj.size = P.numVar ∧
    (S.applyFactors E).rhs.size = P.numConstr ∧ (S.applyFactors E).lb.size = P.numVar ∧
      (S.applyFactors E).ub.size = P.numVar := by
  have hm : S.A.rows = P.numConstr := h.numConstr_eq
  have hn : S.A.cols = P.numVar := h.numVar_eq
  have hobj : S.obj.size = P.numVar := h.target.size_obj.trans hn
  have hrhs : S.rhs.size = P.numConstr := h.target.size_rhs.trans hm
  have hlb : S.lb.size = P.numVar := h.target.size_lb.trans hn
  have hub : S.ub.size = P.numVar := h.target.size_ub.trans hn
  simp [applyFactors, hobj, hrhs, hlb, hub, hE.size_colscale, hE.size_rowscale, hm, hn]

theorem entry_obj_applyFactors {j : Nat} (hj : j < P.numVar) :
    (S.applyFactors E).obj.entry j = finite (P.obj.value j * (d j * E.colscale.value j)) := by
  have hobj : S.obj.entry j = finite (P.obj.value j * d j) := by
    rw [← h.obj j hj]
    exact Vec.entry_eq_finite h.target.finite_obj j
  have hs : S.obj.size = P.numVar := h.target.size_obj.trans h.numVar_eq
  rw [applyFactors, hE.positive_colscale.entry_mul (hs.symm ▸ hj) (colscale_lt h hE hj) hobj,
    mul_assoc]

theorem entry_rhs_applyFactors {i : Nat} (hi : i < P.numConstr) :
    (S.applyFactors E).rhs.entry i =
      finite (r i * E.rowscale.value i * P.rhs.value i) := by
  have hrhs : S.rhs.entry i = finite (r i * P.rhs.value i) := by
    rw [← h.rhs i hi]
    exact Vec.entry_eq_finite h.target.finite_rhs i
  have hs : S.rhs.size = P.numConstr := h.target.size_rhs.trans h.numConstr_eq
  rw [applyFactors, hE.positive_rowscale.entry_mul (hs.symm ▸ hi) (rowscale_lt h hE hi) hrhs,
    mul_right_comm]

/-- A positive factor leaves a bound on its side. -/
theorem entry_div_bound {v : Vec Extended} (hs : v.size = P.numVar) {l u : Extended} {j : Nat}
    (hj : j < P.numVar) (hv : v.entry j = (if 0 < d j then l else u) / finite (d j)) :
    (v.div E.colscale).entry j = (if 0 < d j * E.colscale.value j then l else u) /
      finite (d j * E.colscale.value j) := by
  have hlt := colscale_lt h hE hj
  rw [hE.positive_colscale.entry_div (hs.symm ▸ hj) hlt (h.col_ne j hj) hv]
  simp only [mul_pos_iff_of_pos_right (hE.positive_colscale.value_pos hlt)]

theorem entry_lb_applyFactors {j : Nat} (hj : j < P.numVar) : (S.applyFactors E).lb.entry j =
    (if 0 < d j * E.colscale.value j then P.lb.entry j else P.ub.entry j) /
      finite (d j * E.colscale.value j) :=
  entry_div_bound h hE (h.target.size_lb.trans h.numVar_eq) hj (h.lb j hj)

theorem entry_ub_applyFactors {j : Nat} (hj : j < P.numVar) : (S.applyFactors E).ub.entry j =
    (if 0 < d j * E.colscale.value j then P.ub.entry j else P.lb.entry j) /
      finite (d j * E.colscale.value j) :=
  entry_div_bound h hE (h.target.size_ub.trans h.numVar_eq) hj (h.ub j hj)

theorem column_applyFactors : ∀ j < S.A.cols, ∀ e ∈ S.A.column j,
    e.2 * (E.rowscale.entry e.1 * E.colscale.entry j) =
      finite (e.2.value * (E.rowscale.value e.1 * E.colscale.value j)) := by
  intro j hj e he
  have hi := h.target.layout.row_lt j hj e he
  rw [eq_finite_value (h.target.finite_A j hj e he),
    hE.positive_rowscale.entry_eq (hE.size_rowscale.symm ▸ hi),
    hE.positive_colscale.entry_eq (hE.size_colscale.symm ▸ hj), finite_mul_finite,
    finite_mul_finite, value_finite]

theorem col_ne_applyFactors {j : Nat} (hj : j < P.numVar) : d j * E.colscale.value j ≠ 0 :=
  mul_ne_zero (h.col_ne j hj) (hE.positive_colscale.value_pos (colscale_lt h hE hj)).ne'

theorem exact_applyFactors : ((S.applyFactors E).program P).Exact := by
  have hrows : E.matrix.rows = P.numConstr := hE.mapped.rows_eq.trans h.numConstr_eq
  have hcols : E.matrix.cols = P.numVar := hE.mapped.cols_eq.trans h.numVar_eq
  obtain ⟨hobj, hrhs, hlb, hub⟩ := sizes_applyFactors h hE
  have hbounds := fun j (hj : j < P.numVar) =>
    bounds_div (h.source.lower j hj) (h.source.upper j hj) (col_ne_applyFactors h hE hj)
  exact {
    layout := hE.mapped.layout h.target.layout
    finite_A := hE.mapped.finite_of fun j hj e he =>
      column_applyFactors h hE j hj e he ▸ isFinite_finite _
    size_types := h.source.size_types.trans hrows.symm
    size_rhs := hrhs.trans hrows.symm
    size_obj := hobj.trans hcols.symm
    size_lb := hlb.trans hcols.symm
    size_ub := hub.trans hcols.symm
    finite_rhs := Vec.isFinite_of_entry fun i hi => entry_rhs_applyFactors h hE (hrhs ▸ hi)
    finite_obj := Vec.isFinite_of_entry fun j hj => entry_obj_applyFactors h hE (hobj ▸ hj)
    lower := fun j hj => by
      have hj : j < P.numVar := hcols ▸ hj
      rw [program, entry_lb_applyFactors h hE hj]
      exact (hbounds j hj).1
    upper := fun j hj => by
      have hj : j < P.numVar := hcols ▸ hj
      rw [program, entry_ub_applyFactors h hE hj]
      exact (hbounds j hj).2 }

/-- The factors of the equilibration are multiplied into those of the image. -/
theorem image_applyFactors :
    Program.Image P ((S.applyFactors E).program P) (fun i => r i * E.rowscale.value i)
      fun j => d j * E.colscale.value j where
  source := h.source
  target := exact_applyFactors h hE
  numConstr_eq := hE.mapped.rows_eq.trans h.numConstr_eq
  numVar_eq := hE.mapped.cols_eq.trans h.numVar_eq
  types_eq := rfl
  offset_eq := rfl
  row_pos i hi :=
    mul_pos (h.row_pos i hi) (hE.positive_rowscale.value_pos (rowscale_lt h hE hi))
  col_ne _ hj := col_ne_applyFactors h hE hj
  value i hi j hj := by
    have hv := hE.mapped.value_eq h.target.finite_A
      (g := fun i j => E.rowscale.value i * E.colscale.value j) (column_applyFactors h hE) i
      (h.numVar_eq.symm ▸ hj)
    rw [program, applyFactors, hv, show S.A.value i j = _ from h.value i hi j hj]
    ring
  obj _ hj := Vec.value_of_entry (entry_obj_applyFactors h hE hj)
  rhs _ hi := Vec.value_of_entry (entry_rhs_applyFactors h hE hi)
  lb _ hj := entry_lb_applyFactors h hE hj
  ub _ hj := entry_ub_applyFactors h hE hj

end Factors

/-- Factors that are positive rationals, if there are any. -/
theorem image_of_ofProgram? (hP : P.Valid) {settings : Settings}
    (hS : ofProgram? P settings = some S) :
    Program.Image P (S.program P) S.scaling.rowFactor S.scaling.signedFactor ∧
      S.scaling.colscale.Positive ∧ S.scaling.rowscale.Positive := by
  obtain ⟨B, hB, hmap⟩ := flip?_eq_some hP
  obtain ⟨S₀, hS₀, hcases⟩ := ofProgram?_cases hS
  obtain rfl : flipped P B = S₀ := Option.some_inj.1 (hB.symm.trans hS₀)
  have himage := image_flipped hP hmap
  rcases hcases with rfl | ⟨E, hE, rfl⟩
  · refine ⟨himage.congr (fun i _ => ?_) fun j _ => ?_, fun i hi => ?_, fun i hi => ?_⟩
    · simp [Scaling.rowFactor, Scaling.factorAt, flipped, Scaling.identity]
    · rw [Scaling.signedFactor, Scaling.factorAt, flipSign]
      exact mul_one _
    · simp [flipped, Scaling.identity] at hi
    · simp [flipped, Scaling.identity] at hi
  · have hbal := Csc.balances_of_equilibrate? himage.target.layout himage.target.finite_A hE
    have hcopy := copies_of_ofProgram? hP hS
    have hempty : ∀ {factors : Vec Extended} {n k : Nat}, factors.size = n → k < n →
        ¬ factors.isEmpty = true := fun hs hk he => by
      rw [Array.isEmpty_iff_size_eq_zero, hs] at he
      omega
    refine ⟨(image_applyFactors himage hbal).congr (fun i hi => ?_) fun j hj => ?_,
      hbal.positive_colscale, hbal.positive_rowscale⟩
    · have hs : E.rowscale.size = P.numConstr := hbal.size_rowscale.trans himage.numConstr_eq
      have he : ¬ ((flipped P B).applyFactors E).scaling.rowscale.isEmpty = true := hempty hs hi
      rw [Scaling.rowFactor, Scaling.factorAt, if_neg he, one_mul]
      rfl
    · have hs : E.colscale.size = P.numVar := hbal.size_colscale.trans himage.numVar_eq
      have he : ¬ ((flipped P B).applyFactors E).scaling.colscale.isEmpty = true := hempty hs hj
      rw [Scaling.signedFactor, Scaling.factorAt, if_neg he, flipSign]
      rfl

end ScaledProgram

/-! ### Points -/

namespace UserPoint

/-- All entries are rationals. -/
@[mk_iff]
structure Finite (p : UserPoint Extended) : Prop where
  x : p.x.isFinite = true
  slack : p.slack.isFinite = true
  y : p.y.isFinite = true
  z : p.z.isFinite = true

instance (p : UserPoint Extended) : Decidable p.Finite :=
  decidable_of_iff _ p.finite_iff.symm

/-- The entries of `p` are those of the scaled point `q`, finite or not, times or over the factors. -/
structure Unscaled (p q : UserPoint Extended) (n m : Nat) (r d : Nat → Rat) : Prop where
  x : ∀ j < n, p.x.entry j = q.x.entry j * finite (d j)
  slack : ∀ i < m, p.slack.entry i = q.slack.entry i / finite (r i)
  y : ∀ i < m, p.y.entry i = q.y.entry i * finite (r i)
  z : ∀ j < n, p.z.entry j = q.z.entry j / finite (d j)

/-- The point `q` of an image program that stands for `p`. -/
structure Image (p q : UserPoint Extended) (n m : Nat) (r d : Nat → Rat) : Prop where
  x : ∀ j < n, q.x.value j * d j = p.x.value j
  slack : ∀ i < m, q.slack.value i = r i * p.slack.value i
  y : ∀ i < m, r i * q.y.value i = p.y.value i
  z : ∀ j < n, q.z.value j = p.z.value j * d j

end UserPoint

namespace Scaling

variable {S : Scaling Extended} {n m : Nat} {p : UserPoint Extended}

/-- The factors of the variables and constraints that a vector has entries for. -/
theorem signedFactor_eq {j : Nat} :
    S.signedFactor j = if j ∈ S.flipped.indices then -factorAt S.colscale j
      else factorAt S.colscale j := by
  rw [signedFactor]
  split_ifs <;> ring

theorem entry_negate_finite (hS : S.Suits n m) {v : Vec Extended} {j : Nat} (hj : j < v.size)
    {q : Rat} (hv : v.entry j = finite q) :
    (S.flipped.negate v).entry j = finite (if j ∈ S.flipped.indices then -q else q) := by
  rw [Flips.entry_negate hS.nodup v hj, hv]
  split_ifs <;> simp

theorem image_scalePoint (hS : S.Suits n m) (hc : S.colscale.Positive) (hr : S.rowscale.Positive)
    (hp : p.Sized n m) (hf : p.Finite) :
    (S.scalePoint p).Finite ∧ p.Image (S.scalePoint p) n m S.rowFactor S.signedFactor := by
  have hsized := sized_scalePoint hS hp
  have hx : ∀ j < n, (S.scalePoint p).x.entry j = finite
      (if j ∈ S.flipped.indices then -(p.x.value j / factorAt S.colscale j)
        else p.x.value j / factorAt S.colscale j) := fun j hj => by
    have hcol := hp.size_x.symm ▸ hS.col
    exact entry_negate_finite hS (by rw [size_divBy hcol, hp.size_x]; exact hj)
      (entry_divBy_finite hcol hc (hp.size_x.symm ▸ hj) (Vec.entry_eq_finite hf.x j))
  have hz : ∀ j < n, (S.scalePoint p).z.entry j = finite
      (if j ∈ S.flipped.indices then -(p.z.value j * factorAt S.colscale j)
        else p.z.value j * factorAt S.colscale j) := fun j hj => by
    have hcol := hp.size_z.symm ▸ hS.col
    exact entry_negate_finite hS (by rw [size_mulBy hcol, hp.size_z]; exact hj)
      (entry_mulBy_finite hcol hc (hp.size_z.symm ▸ hj) (Vec.entry_eq_finite hf.z j))
  have hslack : ∀ i < m, (S.scalePoint p).slack.entry i =
      finite (p.slack.value i * factorAt S.rowscale i) := fun i hi =>
    entry_mulBy_finite (hp.size_slack.symm ▸ hS.row) hr (hp.size_slack.symm ▸ hi)
      (Vec.entry_eq_finite hf.slack i)
  have hy : ∀ i < m, (S.scalePoint p).y.entry i =
      finite (p.y.value i / factorAt S.rowscale i) := fun i hi =>
    entry_divBy_finite (hp.size_y.symm ▸ hS.row) hr (hp.size_y.symm ▸ hi)
      (Vec.entry_eq_finite hf.y i)
  have hcpos := fun j (hj : j < n) => (factorAt_pos hS.col hc hj).ne'
  have hrpos := fun i (hi : i < m) => (factorAt_pos hS.row hr hi).ne'
  refine ⟨⟨Vec.isFinite_of_entry fun j hj => hx j (hsized.size_x ▸ hj),
    Vec.isFinite_of_entry fun i hi => hslack i (hsized.size_slack ▸ hi),
    Vec.isFinite_of_entry fun i hi => hy i (hsized.size_y ▸ hi),
    Vec.isFinite_of_entry fun j hj => hz j (hsized.size_z ▸ hj)⟩,
    fun j hj => ?_, fun i hi => ?_, fun i hi => ?_, fun j hj => ?_⟩
  · rw [Vec.value_of_entry (hx j hj), signedFactor_eq]
    have := hcpos j hj
    split_ifs <;> field_simp
  · rw [Vec.value_of_entry (hslack i hi), rowFactor, mul_comm]
  · rw [Vec.value_of_entry (hy i hi), rowFactor, mul_div_cancel₀ _ (hrpos i hi)]
  · rw [Vec.value_of_entry (hz j hj), signedFactor_eq]
    split_ifs <;> ring

theorem sized_unscalePoint (hS : S.Suits n m) (hp : p.Sized n m) :
    (S.unscalePoint p).Sized n m := by
  have hx : (S.flipped.negate p.x).size = n := (Flips.size_negate _ _).trans hp.size_x
  have hz : (S.flipped.negate p.z).size = n := (Flips.size_negate _ _).trans hp.size_z
  exact ⟨(size_mulBy (hx.symm ▸ hS.col)).trans hx,
    (size_divBy (hp.size_slack.symm ▸ hS.row)).trans hp.size_slack,
    (size_mulBy (hp.size_y.symm ▸ hS.row)).trans hp.size_y,
    (size_divBy (hz.symm ▸ hS.col)).trans hz⟩

theorem image_unscalePoint (hS : S.Suits n m) (hc : S.colscale.Positive)
    (hr : S.rowscale.Positive) (hp : p.Sized n m) (hf : p.Finite) :
    (S.unscalePoint p).Finite ∧
      (S.unscalePoint p).Image p n m S.rowFactor S.signedFactor := by
  have hsized := sized_unscalePoint hS hp
  have hsx : (S.flipped.negate p.x).size = n := (Flips.size_negate _ _).trans hp.size_x
  have hsz : (S.flipped.negate p.z).size = n := (Flips.size_negate _ _).trans hp.size_z
  have hx : ∀ j < n, (S.unscalePoint p).x.entry j = finite
      ((if j ∈ S.flipped.indices then -p.x.value j else p.x.value j) *
        factorAt S.colscale j) := fun j hj =>
    entry_mulBy_finite (hsx.symm ▸ hS.col) hc (hsx.symm ▸ hj)
      (entry_negate_finite hS (hp.size_x.symm ▸ hj) (Vec.entry_eq_finite hf.x j))
  have hz : ∀ j < n, (S.unscalePoint p).z.entry j = finite
      ((if j ∈ S.flipped.indices then -p.z.value j else p.z.value j) /
        factorAt S.colscale j) := fun j hj =>
    entry_divBy_finite (hsz.symm ▸ hS.col) hc (hsz.symm ▸ hj)
      (entry_negate_finite hS (hp.size_z.symm ▸ hj) (Vec.entry_eq_finite hf.z j))
  have hslack : ∀ i < m, (S.unscalePoint p).slack.entry i =
      finite (p.slack.value i / factorAt S.rowscale i) := fun i hi =>
    entry_divBy_finite (hp.size_slack.symm ▸ hS.row) hr (hp.size_slack.symm ▸ hi)
      (Vec.entry_eq_finite hf.slack i)
  have hy : ∀ i < m, (S.unscalePoint p).y.entry i =
      finite (p.y.value i * factorAt S.rowscale i) := fun i hi =>
    entry_mulBy_finite (hp.size_y.symm ▸ hS.row) hr (hp.size_y.symm ▸ hi)
      (Vec.entry_eq_finite hf.y i)
  have hcpos := fun j (hj : j < n) => (factorAt_pos hS.col hc hj).ne'
  have hrpos := fun i (hi : i < m) => (factorAt_pos hS.row hr hi).ne'
  refine ⟨⟨Vec.isFinite_of_entry fun j hj => hx j (hsized.size_x ▸ hj),
    Vec.isFinite_of_entry fun i hi => hslack i (hsized.size_slack ▸ hi),
    Vec.isFinite_of_entry fun i hi => hy i (hsized.size_y ▸ hi),
    Vec.isFinite_of_entry fun j hj => hz j (hsized.size_z ▸ hj)⟩,
    fun j hj => ?_, fun i hi => ?_, fun i hi => ?_, fun j hj => ?_⟩
  · rw [Vec.value_of_entry (hx j hj), signedFactor_eq]
    split_ifs <;> ring
  · rw [Vec.value_of_entry (hslack i hi), rowFactor, mul_div_cancel₀ _ (hrpos i hi)]
  · rw [Vec.value_of_entry (hy i hi), rowFactor, mul_comm]
  · rw [Vec.value_of_entry (hz j hj), signedFactor_eq]
    have := hcpos j hj
    split_ifs <;> field_simp

theorem unscaled_unscalePoint (hS : S.Suits n m) (hc : S.colscale.Positive)
    (hr : S.rowscale.Positive) (hp : p.Sized n m) :
    (S.unscalePoint p).Unscaled p n m S.rowFactor S.signedFactor := by
  have hsx : (S.flipped.negate p.x).size = n := (Flips.size_negate _ _).trans hp.size_x
  have hsz : (S.flipped.negate p.z).size = n := (Flips.size_negate _ _).trans hp.size_z
  refine ⟨fun j hj => ?_, fun i hi => ?_, fun i hi => ?_, fun j hj => ?_⟩
  · refine (entry_mulBy_factorAt (hsx.symm ▸ hS.col) hc (hsx.symm ▸ hj)).trans ?_
    rw [Flips.mirrorPoint, Flips.entry_negate hS.nodup _ (hp.size_x.symm ▸ hj), signedFactor_eq]
    split_ifs
    · exact neg_mul_finite _ _
    · rfl
  · exact entry_divBy_factorAt (hp.size_slack.symm ▸ hS.row) hr (hp.size_slack.symm ▸ hi)
  · exact entry_mulBy_factorAt (hp.size_y.symm ▸ hS.row) hr (hp.size_y.symm ▸ hi)
  · refine (entry_divBy_factorAt (hsz.symm ▸ hS.col) hc (hsz.symm ▸ hj)).trans ?_
    rw [Flips.mirrorPoint, Flips.entry_negate hS.nodup _ (hp.size_z.symm ▸ hj), signedFactor_eq]
    split_ifs
    · exact neg_div_finite _ (factorAt_pos hS.col hc hj).ne'
    · rfl

end Scaling

/-! ### Loaded models -/

namespace Model

/-- The scaled copy of the program of a model, as a program. -/
def scaledProgram (M : Model Extended) : Program Extended := M.scaled.program M.program

/-- What loading guarantees in exact arithmetic. -/
structure Exact (M : Model Extended) : Prop where
  regular : M.Regular
  image : Program.Image M.program M.scaledProgram M.scaling.rowFactor M.scaling.signedFactor
  positive_colscale : M.scaling.colscale.Positive
  positive_rowscale : M.scaling.rowscale.Positive

theorem Loaded.exact {M : Model Extended} (h : M.Loaded) : M.Exact := by
  obtain ⟨hvalid, hM⟩ := h.ofProgram?
  obtain ⟨-, -, hS, -⟩ := ofProgram?_eq_some_iff.1 hM
  obtain ⟨himage, hc, hr⟩ := ScaledProgram.image_of_ofProgram? hvalid hS
  exact ⟨h.regular, himage, hc, hr⟩

namespace Exact

variable {M : Model Extended}

theorem suits (hM : M.Exact) : M.scaling.Suits M.program.numVar M.program.numConstr :=
  hM.regular.copies.suits hM.regular.valid

theorem mem_flipped_iff (hM : M.Exact) {j : Nat} (hj : j < M.program.numVar) :
    j ∈ M.scaling.flipped.indices ↔
      Scalar.isFinite (M.program.ub.entry j) = true ∧ M.program.lb.entry j = bottom := by
  have hvalid := hM.regular.valid
  rw [scaling, hM.regular.copies.flipped_eq,
    ScaledProgram.mem_flips hvalid.size_lb hvalid.size_ub, and_iff_right hj,
    ScaledProgram.upperOnly_iff (hvalid.exact.lower j hj)]

theorem signedFactor_neg_iff_flipped (hM : M.Exact) {j : Nat} (hj : j < M.program.numVar) :
    M.scaling.signedFactor j < 0 ↔ j ∈ M.scaling.flipped.indices := by
  have hpos := Scaling.factorAt_pos hM.suits.col hM.positive_colscale hj
  rw [Scaling.signedFactor_eq]
  split_ifs with h
  · exact iff_of_true (neg_lt_zero.2 hpos) h
  · exact iff_of_false (not_lt.2 hpos.le) h

theorem signedFactor_neg_iff (hM : M.Exact) {j : Nat} (hj : j < M.program.numVar) :
    M.scaling.signedFactor j < 0 ↔
      Scalar.isFinite (M.program.ub.entry j) = true ∧ M.program.lb.entry j = bottom :=
  (hM.signedFactor_neg_iff_flipped hj).trans (hM.mem_flipped_iff hj)

/-- In the scaled program exactly the boxed variables have a finite upper bound. -/
theorem isFinite_upper_iff (hM : M.Exact) {j : Nat} (hj : j < M.program.numVar) :
    Scalar.isFinite (M.scaled.ub.entry j) = true ↔ j ∈ M.program.boxed := by
  have hvalid := hM.regular.valid
  have hd := hM.image.col_ne j hj
  have hub : M.scaled.ub.entry j = _ := hM.image.ub j hj
  rw [hub, isFinite_div hd, Program.mem_boxed hvalid.size_lb hvalid.size_ub, and_iff_right hj]
  by_cases hpos : 0 < M.scaling.signedFactor j
  · rw [if_pos hpos]
    refine ⟨fun hu => ⟨?_, hu⟩, And.right⟩
    apply (hvalid.exact.lower j hj).resolve_right
    intro hl
    exact absurd ((hM.signedFactor_neg_iff hj).2 ⟨hu, hl⟩) (not_lt.2 hpos.le)
  · rw [if_neg hpos]
    have hneg := lt_of_le_of_ne (not_lt.1 hpos) hd
    have hl := ((hM.signedFactor_neg_iff hj).1 hneg).2
    rw [hl]
    exact iff_of_false (by simp) fun h => absurd h.1 (by simp)

/-- In the scaled program exactly the variables with a bound have a finite lower bound. -/
theorem isFinite_lower_iff (hM : M.Exact) {j : Nat} (hj : j < M.program.numVar) :
    Scalar.isFinite (M.scaled.lb.entry j) = true ↔
      ¬ (M.program.lb.entry j = bottom ∧ M.program.ub.entry j = top) := by
  have hvalid := hM.regular.valid
  have hd := hM.image.col_ne j hj
  have hneg := hM.signedFactor_neg_iff hj
  have hlb : M.scaled.lb.entry j = _ := hM.image.lb j hj
  rw [hlb, isFinite_div hd]
  split_ifs with hpos
  · constructor
    · rintro hl ⟨hbottom, -⟩
      rw [hbottom] at hl
      exact Bool.noConfusion hl
    · intro hfree
      apply (hvalid.exact.lower j hj).resolve_right
      intro hl
      -- a variable with an upper bound only is flipped
      have hu := (hvalid.exact.upper j hj).resolve_right fun hu => hfree ⟨hl, hu⟩
      exact absurd (hneg.2 ⟨hu, hl⟩) (not_lt.2 hpos.le)
  · have hu := (hneg.1 (lt_of_le_of_ne (not_lt.1 hpos) hd)).1
    refine iff_of_true hu fun hfree => ?_
    rw [hfree.2] at hu
    exact Bool.noConfusion hu

end Exact

end Model

end LpPresolve
