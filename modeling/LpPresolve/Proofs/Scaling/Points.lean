import LpPresolve.Proofs.Scaling.Mirror
import Mathlib.Tactic.MkIffOfInductiveProp

/-! Scaled points. Factors are applied entry by entry and keep the sizes, and a vector comes back from the
product and the quotient with the same factors if each of its entries does. -/

namespace LpPresolve

variable {α : Type} [Scalar α]

namespace Scaling

/-! ### One vector -/

omit [Scalar α] in
theorem Applies.size_eq {factors : Vec α} {n : Nat} (h : Applies factors n)
    (he : ¬ factors.isEmpty = true) : n = factors.size :=
  h.resolve_left fun h₀ => he (Array.isEmpty_iff_size_eq_zero.2 h₀)

/-- The entries combined with their factors, if there are any: `mulBy` and `divBy`. -/
def combineBy (op : α → α → α) (factors v : Vec α) : Vec α :=
  if factors.isEmpty then v else Array.zipWith op v factors

section Combined

variable {op undo : α → α → α} {factors v : Vec α}

omit [Scalar α] in
theorem size_combineBy (h : Applies factors v.size) : (combineBy op factors v).size = v.size := by
  unfold combineBy
  split_ifs with he
  · rfl
  · simp [h.size_eq he]

theorem entry_combineBy (h : Applies factors v.size) {i : Nat} (hi : i < v.size) :
    (combineBy op factors v).entry i =
      if factors.isEmpty then v.entry i else op (v.entry i) (factors.entry i) := by
  unfold combineBy
  split_ifs with he
  · rfl
  · exact Vec.entry_zipWith op v factors (v.getElem?_eq_some_entry hi) (h.size_eq he ▸ hi)

theorem combineBy_combineBy (h : Applies factors v.size)
    (hlaw : ∀ i < factors.size,
      undo (op (v.entry i) (factors.entry i)) (factors.entry i) = v.entry i) :
    combineBy undo factors (combineBy op factors v) = v := by
  have hs : (combineBy op factors v).size = v.size := size_combineBy h
  have h' : Applies factors (combineBy op factors v).size := hs.symm ▸ h
  apply Vec.ext_entry ((size_combineBy h').trans hs)
  intro i hi
  have hi : i < v.size := by rwa [size_combineBy h', hs] at hi
  rw [entry_combineBy h' (hs.symm ▸ hi), entry_combineBy h hi]
  split_ifs with he
  · rfl
  · exact hlaw i (h.size_eq he ▸ hi)

end Combined

variable {factors v : Vec α}

theorem size_mulBy (h : Applies factors v.size) : (mulBy factors v).size = v.size :=
  size_combineBy h

theorem size_divBy (h : Applies factors v.size) : (divBy factors v).size = v.size :=
  size_combineBy h

theorem entry_mulBy (h : Applies factors v.size) {i : Nat} (hi : i < v.size) :
    (mulBy factors v).entry i =
      if factors.isEmpty then v.entry i else v.entry i * factors.entry i :=
  entry_combineBy h hi

theorem entry_divBy (h : Applies factors v.size) {i : Nat} (hi : i < v.size) :
    (divBy factors v).entry i =
      if factors.isEmpty then v.entry i else v.entry i / factors.entry i :=
  entry_combineBy h hi

theorem mulBy_divBy (h : Applies factors v.size)
    (hlaw : ∀ i < factors.size, v.entry i / factors.entry i * factors.entry i = v.entry i) :
    mulBy factors (divBy factors v) = v :=
  combineBy_combineBy h hlaw

theorem divBy_mulBy (h : Applies factors v.size)
    (hlaw : ∀ i < factors.size, v.entry i * factors.entry i / factors.entry i = v.entry i) :
    divBy factors (mulBy factors v) = v :=
  combineBy_combineBy h hlaw

/-! ### Points -/

/-- The factors apply to all points with `n` variables and `m` constraints, and the flipped
variables are `n` variables without repetitions. -/
structure Suits (S : Scaling α) (n m : Nat) : Prop where
  col : Applies S.colscale n
  row : Applies S.rowscale m
  within : S.flipped.Within n
  nodup : S.flipped.indices.Nodup

/-- Every entry of the point survives the factor of its variable or constraint: it comes back
unchanged from scaling and unscaling. -/
@[mk_iff]
structure Keeps (S : Scaling α) (p : UserPoint α) : Prop where
  x : ∀ j < S.colscale.size, p.x.entry j / S.colscale.entry j * S.colscale.entry j = p.x.entry j
  slack : ∀ i < S.rowscale.size,
    p.slack.entry i * S.rowscale.entry i / S.rowscale.entry i = p.slack.entry i
  y : ∀ i < S.rowscale.size, p.y.entry i / S.rowscale.entry i * S.rowscale.entry i = p.y.entry i
  z : ∀ j < S.colscale.size, p.z.entry j * S.colscale.entry j / S.colscale.entry j = p.z.entry j

end Scaling

/-- The lengths of a point with `n` variables and `m` constraints. -/
structure UserPoint.Sized (p : UserPoint α) (n m : Nat) : Prop where
  size_x : p.x.size = n
  size_slack : p.slack.size = m
  size_y : p.y.size = m
  size_z : p.z.size = n

namespace Scaling

variable {S : Scaling α} {p : UserPoint α} {n m : Nat}

theorem sized_scalePoint (hS : S.Suits n m) (hp : p.Sized n m) : (S.scalePoint p).Sized n m where
  size_x := by
    simp [scalePoint, Flips.mirrorPoint, size_divBy (hp.size_x.symm ▸ hS.col), hp.size_x]
  size_slack := by
    simp [scalePoint, Flips.mirrorPoint, size_mulBy (hp.size_slack.symm ▸ hS.row), hp.size_slack]
  size_y := by
    simp [scalePoint, Flips.mirrorPoint, size_divBy (hp.size_y.symm ▸ hS.row), hp.size_y]
  size_z := by
    simp [scalePoint, Flips.mirrorPoint, size_mulBy (hp.size_z.symm ▸ hS.col), hp.size_z]

end Scaling

end LpPresolve
