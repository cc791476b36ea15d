import LpPresolve.Proofs.Exact.Classes
import LpPresolve.Proofs.Interior.Scaling
import LpPresolve.Proofs.Scaling.Inverse
import LpPresolve.Transfer.Interior

/-! Acceptable interior points. The distances, multipliers and signs that the check asks for are
conditions on single entries, and a positive factor changes none of them. Flipping a variable
exchanges its bounds together with their distances and multipliers, so the check of the scaled point
against the scaled program is the same condition on the user's point and program. -/

namespace LpPresolve

open Extended

/-! ### Single entries -/

namespace Extended

/-- The distance `d` to a bound is nonnegative, and infinite exactly if the bound is. -/
@[mk_iff]
structure IsDistance (unbounded : Prop) (d : Extended) : Prop where
  nonneg : 0 ≤ d
  eq_top : d = top ↔ unbounded

/-- The multiplier `z` of a bound is finite and nonnegative, and zero if the bound is infinite. -/
@[mk_iff]
structure IsMultiplier (unbounded : Prop) (z : Extended) : Prop where
  nonneg : 0 ≤ z
  lt_top : z < top
  eq_zero : unbounded → z = 0

instance (p : Prop) [Decidable p] (d : Extended) : Decidable (IsDistance p d) :=
  decidable_of_iff _ (isDistance_iff p d).symm

instance (p : Prop) [Decidable p] (z : Extended) : Decidable (IsMultiplier p z) :=
  decidable_of_iff _ (isMultiplier_iff p z).symm

section Factor

variable {p : Prop} {c : Rat}

theorem nonneg_div_iff (hc : 0 < c) (a : Extended) : 0 ≤ a / finite c ↔ 0 ≤ a := by
  rw [zero_eq, finite_le_div_iff_of_pos hc, zero_mul]

theorem div_eq_top_iff (hc : 0 < c) (a : Extended) : a / finite c = top ↔ a = top := by
  cases a with
  | finite q => simp [finite_div_finite q hc.ne']
  | undefined => rfl
  | bottom => rw [bottom_div_finite_of_pos hc]
  | top => rw [top_div_finite_of_pos hc]

theorem div_lt_top_iff (hc : 0 < c) (a : Extended) : a / finite c < top ↔ a < top := by
  cases a with
  | finite q => simp [finite_div_finite q hc.ne']
  | undefined => rfl
  | bottom => rw [bottom_div_finite_of_pos hc]
  | top => rw [top_div_finite_of_pos hc]

theorem div_finite_eq_zero_iff (hc : 0 < c) (a : Extended) : a / finite c = 0 ↔ a = 0 := by
  rw [zero_eq, div_eq_finite_iff hc.ne', zero_mul]

theorem isDistance_div_iff (hc : 0 < c) (d : Extended) :
    IsDistance p (d / finite c) ↔ IsDistance p d := by
  rw [isDistance_iff, isDistance_iff, nonneg_div_iff hc, div_eq_top_iff hc]

theorem isMultiplier_mul_iff (hc : 0 < c) (z : Extended) :
    IsMultiplier p (z * finite c) ↔ IsMultiplier p z := by
  have hc' := inv_pos.2 hc
  rw [mul_finite_eq_div hc.ne', isMultiplier_iff, isMultiplier_iff, nonneg_div_iff hc',
    div_lt_top_iff hc', div_finite_eq_zero_iff hc']

end Factor

end Extended

namespace ConstraintType

/-- A finite slack with the sign of the constraint. -/
def IsSlack (t : ConstraintType) (s : Extended) : Prop :=
  Scalar.isFinite s = true ∧ t.SlackSign s.value

/-- A finite multiplier with the sign of the constraint. -/
def IsMultiplier (t : ConstraintType) (y : Extended) : Prop :=
  Scalar.isFinite y = true ∧ t.MultiplierSign y.value

instance (t : ConstraintType) (s : Extended) : Decidable (t.IsSlack s) :=
  inferInstanceAs (Decidable (_ ∧ _))

instance (t : ConstraintType) (y : Extended) : Decidable (t.IsMultiplier y) :=
  inferInstanceAs (Decidable (_ ∧ _))

theorem isSlack_mul_iff {r : Rat} (hr : 0 < r) (t : ConstraintType) (s : Extended) :
    t.IsSlack (s * finite r) ↔ t.IsSlack s := by
  rw [IsSlack, IsSlack, isFinite_mul hr.ne', value_mul_finite, mul_comm, slackSign_mul_iff hr]

theorem isMultiplier_div_iff {r : Rat} (hr : 0 < r) (t : ConstraintType) (y : Extended) :
    t.IsMultiplier (y / finite r) ↔ t.IsMultiplier y := by
  rw [IsMultiplier, IsMultiplier, isFinite_div hr.ne', value_div hr.ne', div_eq_inv_mul,
    multiplierSign_mul_iff (inv_pos.2 hr)]

end ConstraintType

/-! ### Points -/

namespace UserInterior

/-- The point is compatible with the bounds and constraints of the program. -/
@[mk_iff]
structure Admissible (u : UserInterior Extended) (P : Program Extended) : Prop where
  x : ∀ j < P.numVar, Scalar.isFinite (u.x.entry j) = true
  xl : ∀ j < P.numVar, IsDistance (P.lb.entry j = bottom) (u.xl.entry j)
  xu : ∀ j < P.numVar, IsDistance (P.ub.entry j = top) (u.xu.entry j)
  slack : ∀ i < P.numConstr, ∀ t ∈ P.types[i]?, t.IsSlack (u.slack.entry i)
  y : ∀ i < P.numConstr, ∀ t ∈ P.types[i]?, t.IsMultiplier (u.y.entry i)
  zl : ∀ j < P.numVar, IsMultiplier (P.lb.entry j = bottom) (u.zl.entry j)
  zu : ∀ j < P.numVar, IsMultiplier (P.ub.entry j = top) (u.zu.entry j)

instance (u : UserInterior Extended) (P : Program Extended) : Decidable (u.Admissible P) :=
  decidable_of_iff _ (u.admissible_iff P).symm

/-- The entries of `q` are those of `p`, finite or not, over or times the factors of an image. A
negative factor exchanges the distances and the multipliers of the two bounds. -/
structure Scaled (q p : UserInterior Extended) (n m : Nat) (r d : Nat → Rat) : Prop where
  x : ∀ j < n, q.x.entry j = p.x.entry j / finite (d j)
  xl : ∀ j < n, q.xl.entry j = (if 0 < d j then p.xl.entry j else p.xu.entry j) / finite |d j|
  xu : ∀ j < n, q.xu.entry j = (if 0 < d j then p.xu.entry j else p.xl.entry j) / finite |d j|
  slack : ∀ i < m, q.slack.entry i = p.slack.entry i * finite (r i)
  y : ∀ i < m, q.y.entry i = p.y.entry i / finite (r i)
  zl : ∀ j < n, q.zl.entry j = (if 0 < d j then p.zl.entry j else p.zu.entry j) * finite |d j|
  zu : ∀ j < n, q.zu.entry j = (if 0 < d j then p.zu.entry j else p.zl.entry j) * finite |d j|

end UserInterior

/-- Conditions that change places wherever `c` does not hold are the same taken together. -/
theorem forall_exchange {n : Nat} {c A B A' B' : Nat → Prop} [DecidablePred c]
    (hA : ∀ j < n, (A j ↔ if c j then A' j else B' j))
    (hB : ∀ j < n, (B j ↔ if c j then B' j else A' j)) :
    ((∀ j < n, A j) ∧ ∀ j < n, B j) ↔ (∀ j < n, A' j) ∧ ∀ j < n, B' j := by
  rw [← forall₂_and, ← forall₂_and]
  apply forall₂_congr
  intro j hj
  rw [hA j hj, hB j hj]
  split_ifs
  · rfl
  · exact and_comm

namespace Program.Image

variable {P Q : Program Extended} {r d : Nat → Rat} {p q : UserInterior Extended}

/-- A lower bound of an image is infinite where the bound that it comes from is. -/
theorem lb_eq_bottom_iff (h : P.Image Q r d) {j : Nat} (hj : j < P.numVar) :
    Q.lb.entry j = bottom ↔ if 0 < d j then P.lb.entry j = bottom else P.ub.entry j = top := by
  rw [h.target.lower_eq_bottom_iff (h.numVar_eq.symm ▸ hj), h.isFinite_lb hj]
  split_ifs
  · rw [h.source.lower_eq_bottom_iff hj]
  · rw [h.source.upper_eq_top_iff hj]

theorem ub_eq_top_iff (h : P.Image Q r d) {j : Nat} (hj : j < P.numVar) :
    Q.ub.entry j = top ↔ if 0 < d j then P.ub.entry j = top else P.lb.entry j = bottom := by
  rw [h.target.upper_eq_top_iff (h.numVar_eq.symm ▸ hj), h.isFinite_ub hj]
  split_ifs
  · rw [h.source.upper_eq_top_iff hj]
  · rw [h.source.lower_eq_bottom_iff hj]

/-- A point is compatible with a program if and only if its image is with the image program. -/
theorem admissible_iff (h : P.Image Q r d) (hq : q.Scaled p P.numVar P.numConstr r d) :
    q.Admissible Q ↔ p.Admissible P := by
  have habs : ∀ j < P.numVar, 0 < |d j| := fun j hj => abs_pos.2 (h.col_ne j hj)
  have hx : (∀ j < P.numVar, Scalar.isFinite (q.x.entry j) = true) ↔
      ∀ j < P.numVar, Scalar.isFinite (p.x.entry j) = true :=
    forall₂_congr fun j hj => by rw [hq.x j hj, isFinite_div (h.col_ne j hj)]
  have hdist : ((∀ j < P.numVar, IsDistance (Q.lb.entry j = bottom) (q.xl.entry j)) ∧
      ∀ j < P.numVar, IsDistance (Q.ub.entry j = top) (q.xu.entry j)) ↔
        (∀ j < P.numVar, IsDistance (P.lb.entry j = bottom) (p.xl.entry j)) ∧
          ∀ j < P.numVar, IsDistance (P.ub.entry j = top) (p.xu.entry j) := by
    apply forall_exchange (c := fun j => 0 < d j) <;> intro j hj
    · rw [hq.xl j hj, isDistance_div_iff (habs j hj), h.lb_eq_bottom_iff hj]
      split_ifs <;> rfl
    · rw [hq.xu j hj, isDistance_div_iff (habs j hj), h.ub_eq_top_iff hj]
      split_ifs <;> rfl
  have hmult : ((∀ j < P.numVar, IsMultiplier (Q.lb.entry j = bottom) (q.zl.entry j)) ∧
      ∀ j < P.numVar, IsMultiplier (Q.ub.entry j = top) (q.zu.entry j)) ↔
        (∀ j < P.numVar, IsMultiplier (P.lb.entry j = bottom) (p.zl.entry j)) ∧
          ∀ j < P.numVar, IsMultiplier (P.ub.entry j = top) (p.zu.entry j) := by
    apply forall_exchange (c := fun j => 0 < d j) <;> intro j hj
    · rw [hq.zl j hj, isMultiplier_mul_iff (habs j hj), h.lb_eq_bottom_iff hj]
      split_ifs <;> rfl
    · rw [hq.zu j hj, isMultiplier_mul_iff (habs j hj), h.ub_eq_top_iff hj]
      split_ifs <;> rfl
  have hslack : (∀ i < P.numConstr, ∀ t ∈ P.types[i]?, t.IsSlack (q.slack.entry i)) ↔
      ∀ i < P.numConstr, ∀ t ∈ P.types[i]?, t.IsSlack (p.slack.entry i) :=
    forall₂_congr fun i hi => forall₂_congr fun t _ => by
      rw [hq.slack i hi, t.isSlack_mul_iff (h.row_pos i hi)]
  have hy : (∀ i < P.numConstr, ∀ t ∈ P.types[i]?, t.IsMultiplier (q.y.entry i)) ↔
      ∀ i < P.numConstr, ∀ t ∈ P.types[i]?, t.IsMultiplier (p.y.entry i) :=
    forall₂_congr fun i hi => forall₂_congr fun t _ => by
      rw [hq.y i hi, t.isMultiplier_div_iff (h.row_pos i hi)]
  rw [UserInterior.admissible_iff, UserInterior.admissible_iff, h.numVar_eq, h.numConstr_eq,
    h.types_eq, hx, hslack, hy]
  constructor
  · rintro ⟨hx, hxl, hxu, hslack, hy, hzl, hzu⟩
    obtain ⟨hxl, hxu⟩ := hdist.1 ⟨hxl, hxu⟩
    obtain ⟨hzl, hzu⟩ := hmult.1 ⟨hzl, hzu⟩
    exact ⟨hx, hxl, hxu, hslack, hy, hzl, hzu⟩
  · rintro ⟨hx, hxl, hxu, hslack, hy, hzl, hzu⟩
    obtain ⟨hxl, hxu⟩ := hdist.2 ⟨hxl, hxu⟩
    obtain ⟨hzl, hzu⟩ := hmult.2 ⟨hzl, hzu⟩
    exact ⟨hx, hxl, hxu, hslack, hy, hzl, hzu⟩

end Program.Image

/-! ### Scaling -/

theorem Vec.Positive.usable {factors : Vec Extended} (h : factors.Positive) : factors.Usable := by
  intro i hi
  rw [h.entry_eq hi]
  exact ⟨rfl, fun h₀ => (h.value_pos hi).ne' (finite.inj h₀)⟩

namespace Scaling

variable {S : Scaling Extended} {n m : Nat} {p : UserInterior Extended}

theorem scaleInterior_eq (S : Scaling Extended) (p : UserInterior Extended) :
    S.scaleInterior p =
      { x := S.flipped.negate (divBy S.colscale p.x)
        xl := (S.flipped.exchange id (divBy S.colscale p.xl) (divBy S.colscale p.xu)).1
        xu := (S.flipped.exchange id (divBy S.colscale p.xl) (divBy S.colscale p.xu)).2
        slack := mulBy S.rowscale p.slack
        y := divBy S.rowscale p.y
        zl := (S.flipped.exchange id (mulBy S.colscale p.zl) (mulBy S.colscale p.zu)).1
        zu := (S.flipped.exchange id (mulBy S.colscale p.zl) (mulBy S.colscale p.zu)).2 } := rfl

theorem sized_scaleInterior (hS : S.Suits n m) (hp : p.Sized n m) :
    (S.scaleInterior p).Sized n m := by
  have hdist := Flips.size_exchange S.flipped id (divBy S.colscale p.xl) (divBy S.colscale p.xu)
  have hmult := Flips.size_exchange S.flipped id (mulBy S.colscale p.zl) (mulBy S.colscale p.zu)
  rw [size_divBy (hp.size_xl.symm ▸ hS.col), size_divBy (hp.size_xu.symm ▸ hS.col), hp.size_xl,
    hp.size_xu] at hdist
  rw [size_mulBy (hp.size_zl.symm ▸ hS.col), size_mulBy (hp.size_zu.symm ▸ hS.col), hp.size_zl,
    hp.size_zu] at hmult
  exact {
    size_x := (Flips.size_negate _ _).trans
      ((size_divBy (hp.size_x.symm ▸ hS.col)).trans hp.size_x)
    size_xl := hdist.1
    size_xu := hdist.2
    size_slack := (size_mulBy (hp.size_slack.symm ▸ hS.row)).trans hp.size_slack
    size_y := (size_divBy (hp.size_y.symm ▸ hS.row)).trans hp.size_y
    size_zl := hmult.1
    size_zu := hmult.2 }

theorem entry_divBy_abs (hS : S.Suits n m) (hc : S.colscale.Positive) {v : Vec Extended}
    (hv : v.size = n) {j : Nat} (hj : j < n) :
    (divBy S.colscale v).entry j = v.entry j / finite |S.signedFactor j| := by
  rw [entry_divBy_factorAt (hv.symm ▸ hS.col) hc (hv.symm ▸ hj),
    abs_signedFactor (factorAt_pos hS.col hc hj)]

theorem entry_mulBy_abs (hS : S.Suits n m) (hc : S.colscale.Positive) {v : Vec Extended}
    (hv : v.size = n) {j : Nat} (hj : j < n) :
    (mulBy S.colscale v).entry j = v.entry j * finite |S.signedFactor j| := by
  rw [entry_mulBy_factorAt (hv.symm ▸ hS.col) hc (hv.symm ▸ hj),
    abs_signedFactor (factorAt_pos hS.col hc hj)]

/-- The entries of a flipped variable change places under whatever is done to both vectors. -/
theorem entry_exchange_signed (hS : S.Suits n m) (hc : S.colscale.Positive) {l u : Vec Extended}
    (hl : l.size = n) (hu : u.size = n) {j : Nat} (hj : j < n) {f : Extended → Extended}
    {a b : Extended} (ha : l.entry j = f a) (hb : u.entry j = f b) :
    (S.flipped.exchange id l u).1.entry j = f (if 0 < S.signedFactor j then a else b) ∧
      (S.flipped.exchange id l u).2.entry j = f (if 0 < S.signedFactor j then b else a) := by
  obtain ⟨h₁, h₂⟩ := Flips.entry_exchange hS.nodup id (hl.trans hu.symm) (hl.symm ▸ hj)
  rw [h₁, h₂, ha, hb]
  simp only [signedFactor_pos_iff (factorAt_pos hS.col hc hj)]
  split_ifs <;> exact ⟨rfl, rfl⟩

theorem scaled_scaleInterior (hS : S.Suits n m) (hc : S.colscale.Positive)
    (hr : S.rowscale.Positive) (hp : p.Sized n m) :
    (S.scaleInterior p).Scaled p n m S.rowFactor S.signedFactor := by
  have hdiv : ∀ {v : Vec Extended}, v.size = n → (divBy S.colscale v).size = n := fun hv =>
    (size_divBy (hv.symm ▸ hS.col)).trans hv
  have hmul : ∀ {v : Vec Extended}, v.size = n → (mulBy S.colscale v).size = n := fun hv =>
    (size_mulBy (hv.symm ▸ hS.col)).trans hv
  have hdist := fun j (hj : j < n) => entry_exchange_signed hS hc (hdiv hp.size_xl)
    (hdiv hp.size_xu) hj (f := (· / finite |S.signedFactor j|))
    (entry_divBy_abs hS hc hp.size_xl hj) (entry_divBy_abs hS hc hp.size_xu hj)
  have hmult := fun j (hj : j < n) => entry_exchange_signed hS hc (hmul hp.size_zl)
    (hmul hp.size_zu) hj (f := (· * finite |S.signedFactor j|))
    (entry_mulBy_abs hS hc hp.size_zl hj) (entry_mulBy_abs hS hc hp.size_zu hj)
  rw [scaleInterior_eq]
  refine ⟨fun j hj => ?_, fun j hj => (hdist j hj).1, fun j hj => (hdist j hj).2,
    fun i hi => entry_mulBy_factorAt (hp.size_slack.symm ▸ hS.row) hr (hp.size_slack.symm ▸ hi),
    fun i hi => entry_divBy_factorAt (hp.size_y.symm ▸ hS.row) hr (hp.size_y.symm ▸ hi),
    fun j hj => (hmult j hj).1, fun j hj => (hmult j hj).2⟩
  rw [Flips.entry_negate hS.nodup _ ((hdiv hp.size_x).symm ▸ hj),
    entry_divBy_factorAt (hp.size_x.symm ▸ hS.col) hc (hp.size_x.symm ▸ hj), signedFactor_eq]
  split_ifs
  · exact (div_neg_finite _ (factorAt_pos hS.col hc hj).ne').symm
  · rfl

theorem Suits.fitsInterior (hS : S.Suits n m) (hp : p.Sized n m) : S.FitsInterior p := by
  unfold FitsInterior
  rw [hp.size_x, hp.size_xl, hp.size_xu, hp.size_slack, hp.size_y, hp.size_zl, hp.size_zu]
  exact ⟨⟨hS.col, hS.col, hS.col, hS.col, hS.col, hS.row, hS.row⟩, hS.within, hS.within, hS.within,
    hS.within, hS.within⟩

/-- Unscaling takes a scaled point back. -/
theorem unscaleInterior_scaleInterior (hS : S.Suits n m) (hc : S.colscale.Positive)
    (hr : S.rowscale.Positive) (hp : p.Sized n m) :
    S.unscaleInterior (S.scaleInterior p) = p :=
  unscaleInterior_scaleInterior_of_fits (hS.fitsInterior hp)
    (restoresInterior_of_usable hc.usable hr.usable p) (S.flipped.recovers_neg _)

/-- Scaling takes an unscaled point back. -/
theorem scaleInterior_unscaleInterior (hS : S.Suits n m) (hc : S.colscale.Positive)
    (hr : S.rowscale.Positive) (hp : p.Sized n m) :
    S.scaleInterior (S.unscaleInterior p) = p :=
  scaleInterior_unscaleInterior_of_fits (hS.fitsInterior hp) (S.flipped.recovers_neg p.x)
    (restoresInterior_of_usable hc.usable hr.usable _)

end Scaling

end LpPresolve
