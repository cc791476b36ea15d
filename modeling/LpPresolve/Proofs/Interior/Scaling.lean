import LpPresolve.Proofs.Interior.Measures

/-! Unscaled interior points and residuals. Unscaling takes a point of the scaled program to one it is
the image of, and the residuals of the scaled program to those of the user's. -/

namespace LpPresolve

open Extended

/-! ### Values under negation and factors -/

namespace Extended

theorem value_neg (a : Extended) : (-a).value = -a.value := by
  cases a with
  | finite q => rfl
  | undefined | bottom | top => exact neg_zero.symm

theorem value_mul_finite (a : Extended) (c : Rat) : (a * finite c).value = a.value * c := by
  have hinfinite : ∀ s : Int, (infinite s).value = 0 := fun s => by
    rw [infinite]
    split_ifs <;> rfl
  cases a with
  | finite q => rfl
  | undefined | bottom | top => exact (hinfinite _).trans (zero_mul c).symm

end Extended

namespace Flips

variable {F : Flips} {v l u : Vec Extended} {j : Nat}

theorem value_negate (hF : F.indices.Nodup) (hj : j < v.size) :
    (F.negate v).value j = if j ∈ F.indices then -v.value j else v.value j := by
  rw [Vec.value, entry_negate hF v hj]
  split_ifs
  · exact value_neg _
  · rfl

theorem value_exchange (hF : F.indices.Nodup) (hs : l.size = u.size) (hj : j < l.size) :
    (F.exchange id l u).1.value j = (if j ∈ F.indices then u.value j else l.value j) ∧
      (F.exchange id l u).2.value j = if j ∈ F.indices then l.value j else u.value j := by
  obtain ⟨h₁, h₂⟩ := entry_exchange hF id hs hj
  constructor
  · rw [Vec.value, h₁]
    split_ifs <;> rfl
  · rw [Vec.value, h₂]
    split_ifs <;> rfl

end Flips

namespace Scaling

variable {factors v : Vec Extended} {i j : Nat}

theorem value_mulBy (h : Applies factors v.size) (hpos : factors.Positive) (hi : i < v.size) :
    (mulBy factors v).value i = v.value i * factorAt factors i := by
  rw [Vec.value, entry_mulBy h hi, factorAt]
  split_ifs with he
  · rw [mul_one]
    rfl
  · rw [hpos.entry_eq (h.size_eq he ▸ hi), value_mul_finite]
    rfl

theorem value_divBy (h : Applies factors v.size) (hpos : factors.Positive) (hi : i < v.size) :
    (divBy factors v).value i = v.value i / factorAt factors i := by
  rw [Vec.value, entry_divBy h hi, factorAt]
  split_ifs with he
  · rw [div_one]
    rfl
  · have hi' := h.size_eq he ▸ hi
    rw [hpos.entry_eq hi', value_div (hpos.value_pos hi').ne']
    rfl

theorem isFinite_entry_mulBy (h : Applies factors v.size) (hpos : factors.Positive)
    (hi : i < v.size) (hv : Scalar.isFinite (v.entry i) = true) :
    Scalar.isFinite ((mulBy factors v).entry i) = true := by
  rw [entry_mulBy_finite h hpos hi (eq_finite_value hv)]
  exact isFinite_finite _

theorem isFinite_mulBy (h : Applies factors v.size) (hpos : factors.Positive)
    (hv : v.isFinite = true) : (mulBy factors v).isFinite = true :=
  Vec.isFinite_of_entry fun _ hi =>
    entry_mulBy_finite h hpos (size_mulBy h ▸ hi) (Vec.entry_eq_finite hv _)

theorem isFinite_divBy (h : Applies factors v.size) (hpos : factors.Positive)
    (hv : v.isFinite = true) : (divBy factors v).isFinite = true :=
  Vec.isFinite_of_entry fun _ hi =>
    entry_divBy_finite h hpos (size_divBy h ▸ hi) (Vec.entry_eq_finite hv _)

/-! ### Signs of the factors -/

variable {S : Scaling Extended} {n m : Nat}

theorem abs_signedFactor (hpos : 0 < factorAt S.colscale j) :
    |S.signedFactor j| = factorAt S.colscale j := by
  rw [signedFactor_eq]
  split_ifs
  · rw [abs_neg, abs_of_pos hpos]
  · exact abs_of_pos hpos

theorem signedFactor_pos_iff (hpos : 0 < factorAt S.colscale j) :
    0 < S.signedFactor j ↔ j ∉ S.flipped.indices := by
  rw [signedFactor_eq]
  split_ifs with h
  · exact iff_of_false (not_lt.2 (neg_nonpos.2 hpos.le)) (not_not.2 h)
  · exact iff_of_true hpos h

/-! ### Vectors of the two bounds -/

/-- What becomes of the values of a vector becomes of those of two exchanged vectors. -/
theorem value_map_exchange (hS : S.Suits n m) {f : Vec Extended → Vec Extended}
    {g : Rat → Rat} (hf : ∀ v : Vec Extended, v.size = n → (f v).value j = g (v.value j))
    {l u : Vec Extended} (hl : l.size = n) (hu : u.size = n) (hj : j < n) :
    (f (S.flipped.exchange id l u).1).value j =
        g (if j ∈ S.flipped.indices then u.value j else l.value j) ∧
      (f (S.flipped.exchange id l u).2).value j =
        g (if j ∈ S.flipped.indices then l.value j else u.value j) := by
  obtain ⟨h₁, h₂⟩ := Flips.value_exchange hS.nodup (hl.trans hu.symm) (hl.symm ▸ hj)
  obtain ⟨hs₁, hs₂⟩ := Flips.size_exchange S.flipped id l u
  rw [hf _ (hs₁.trans hl), hf _ (hs₂.trans hu), h₁, h₂]
  exact ⟨rfl, rfl⟩

/-- Exchanged residuals change sign. -/
theorem entry_mulBy_exchange (hS : S.Suits n m) (hc : S.colscale.Positive) {l u : Vec Extended}
    (hl : l.size = n) (hu : u.size = n) (hj : j < n) {a b : Rat} (ha : l.entry j = finite a)
    (hb : u.entry j = finite b) :
    (mulBy S.colscale (S.flipped.exchange (-·) l u).1).entry j =
        finite ((if j ∈ S.flipped.indices then -b else a) * factorAt S.colscale j) ∧
      (mulBy S.colscale (S.flipped.exchange (-·) l u).2).entry j =
        finite ((if j ∈ S.flipped.indices then -a else b) * factorAt S.colscale j) := by
  obtain ⟨h₁, h₂⟩ := Flips.entry_exchange hS.nodup (-·) (hl.trans hu.symm) (hl.symm ▸ hj)
  obtain ⟨hs₁, hs₂⟩ := Flips.size_exchange S.flipped (-·) l u
  rw [ha, hb] at h₁ h₂
  constructor
  · refine entry_mulBy_finite (by rw [hs₁, hl]; exact hS.col) hc (by rwa [hs₁, hl]) ?_
    rw [h₁]
    split_ifs <;> rfl
  · refine entry_mulBy_finite (by rw [hs₂, hu]; exact hS.col) hc (by rwa [hs₂, hu]) ?_
    rw [h₂]
    split_ifs <;> rfl

/-! ### Points -/

variable {q : UserInterior Extended}

theorem unscaleInterior_eq (S : Scaling Extended) (q : UserInterior Extended) :
    S.unscaleInterior q =
      { x := mulBy S.colscale (S.flipped.negate q.x)
        xl := mulBy S.colscale (S.flipped.exchange id q.xl q.xu).1
        xu := mulBy S.colscale (S.flipped.exchange id q.xl q.xu).2
        slack := divBy S.rowscale q.slack
        y := mulBy S.rowscale q.y
        zl := divBy S.colscale (S.flipped.exchange id q.zl q.zu).1
        zu := divBy S.colscale (S.flipped.exchange id q.zl q.zu).2 } := rfl

theorem sized_unscaleInterior (hS : S.Suits n m) (hq : q.Sized n m) :
    (S.unscaleInterior q).Sized n m := by
  have hx : (S.flipped.negate q.x).size = n := (Flips.size_negate _ _).trans hq.size_x
  have hdist := Flips.size_exchange S.flipped id q.xl q.xu
  have hmult := Flips.size_exchange S.flipped id q.zl q.zu
  rw [hq.size_xl, hq.size_xu] at hdist
  rw [hq.size_zl, hq.size_zu] at hmult
  exact {
    size_x := (size_mulBy (hx.symm ▸ hS.col)).trans hx
    size_xl := (size_mulBy (hdist.1.symm ▸ hS.col)).trans hdist.1
    size_xu := (size_mulBy (hdist.2.symm ▸ hS.col)).trans hdist.2
    size_slack := (size_divBy (hq.size_slack.symm ▸ hS.row)).trans hq.size_slack
    size_y := (size_mulBy (hq.size_y.symm ▸ hS.row)).trans hq.size_y
    size_zl := (size_divBy (hmult.1.symm ▸ hS.col)).trans hmult.1
    size_zu := (size_divBy (hmult.2.symm ▸ hS.col)).trans hmult.2 }

theorem image_unscaleInterior (hS : S.Suits n m) (hc : S.colscale.Positive)
    (hr : S.rowscale.Positive) (hq : q.Sized n m) :
    (S.unscaleInterior q).Image q n m S.rowFactor S.signedFactor := by
  have hx : (S.flipped.negate q.x).size = n := (Flips.size_negate _ _).trans hq.size_x
  have hcpos := fun j (hj : j < n) => factorAt_pos hS.col hc hj
  have hrpos := fun i (hi : i < m) => factorAt_pos hS.row hr hi
  have hdist := fun j (hj : j < n) => value_map_exchange hS
    (f := mulBy S.colscale) (g := (· * factorAt S.colscale j))
    (fun _ hv => value_mulBy (hv.symm ▸ hS.col) hc (hv.symm ▸ hj)) hq.size_xl hq.size_xu hj
  have hmult := fun j (hj : j < n) => value_map_exchange hS
    (f := divBy S.colscale) (g := (· / factorAt S.colscale j))
    (fun _ hv => value_divBy (hv.symm ▸ hS.col) hc (hv.symm ▸ hj)) hq.size_zl hq.size_zu hj
  rw [unscaleInterior_eq]
  refine ⟨fun j hj => ?_, fun i hi => ?_, fun i hi => ?_, fun j hj => ?_, fun j hj => ?_,
    fun j hj => ?_, fun j hj => ?_⟩ <;> simp only
  · rw [value_mulBy (hx.symm ▸ hS.col) hc (hx.symm ▸ hj),
      Flips.value_negate hS.nodup (hq.size_x.symm ▸ hj), signedFactor_eq]
    split_ifs <;> ring
  · rw [value_divBy (hq.size_slack.symm ▸ hS.row) hr (hq.size_slack.symm ▸ hi), rowFactor,
      mul_div_cancel₀ _ (hrpos i hi).ne']
  · rw [value_mulBy (hq.size_y.symm ▸ hS.row) hr (hq.size_y.symm ▸ hi), rowFactor, mul_comm]
  · simp only [signedFactor_pos_iff (hcpos j hj), abs_signedFactor (hcpos j hj), hdist j hj]
    split_ifs <;> rfl
  · simp only [signedFactor_pos_iff (hcpos j hj), abs_signedFactor (hcpos j hj), hdist j hj]
    split_ifs <;> rfl
  · simp only [signedFactor_pos_iff (hcpos j hj), abs_signedFactor (hcpos j hj), hmult j hj]
    split_ifs <;> exact (div_mul_cancel₀ _ (hcpos j hj).ne').symm
  · simp only [signedFactor_pos_iff (hcpos j hj), abs_signedFactor (hcpos j hj), hmult j hj]
    split_ifs <;> exact (div_mul_cancel₀ _ (hcpos j hj).ne').symm

theorem isFinite_exchange (hS : S.Suits n m) {l u : Vec Extended} (hl : l.size = n)
    (hu : u.size = n) (hlf : l.isFinite = true) (huf : u.isFinite = true) :
    (S.flipped.exchange id l u).1.isFinite = true ∧
      (S.flipped.exchange id l u).2.isFinite = true := by
  obtain ⟨hs₁, hs₂⟩ := Flips.size_exchange S.flipped id l u
  have hentry := fun j (hj : j < n) =>
    Flips.entry_exchange hS.nodup id (hl.trans hu.symm) (hl.symm ▸ hj)
  rw [Vec.isFinite_iff, Vec.isFinite_iff, hs₁, hs₂, hl, hu]
  constructor <;> intro j hj
  · rw [(hentry j hj).1, Vec.entry_eq_finite hlf, Vec.entry_eq_finite huf]
    split_ifs <;> rfl
  · rw [(hentry j hj).2, Vec.entry_eq_finite hlf, Vec.entry_eq_finite huf]
    split_ifs <;> rfl

theorem unscaleResiduals_eq (S : Scaling Extended) (R : Residuals Extended) :
    S.unscaleResiduals R =
      { rb := divBy S.rowscale R.rb
        rc := divBy S.colscale (S.flipped.negate R.rc)
        rl := mulBy S.colscale (S.flipped.exchange (-·) R.rl R.ru).1
        ru := mulBy S.colscale (S.flipped.exchange (-·) R.rl R.ru).2 } := rfl

section Image

variable {P Q : Program Extended} (hS : S.Suits P.numVar P.numConstr)
  (hc : S.colscale.Positive) (hr : S.rowscale.Positive)
  (h : P.Image Q S.rowFactor S.signedFactor)

include hS hc h

include hr in
theorem finite_unscaleInterior (hq : q.Sized P.numVar P.numConstr) (hf : q.Finite Q) :
    (S.unscaleInterior q).Finite P := by
  have hx : (S.flipped.negate q.x).size = P.numVar := (Flips.size_negate _ _).trans hq.size_x
  obtain ⟨hs₁, hs₂⟩ := Flips.size_exchange S.flipped id q.xl q.xu
  obtain ⟨hm₁, hm₂⟩ := Flips.size_exchange S.flipped id q.zl q.zu
  obtain ⟨hz₁, hz₂⟩ := isFinite_exchange hS hq.size_zl hq.size_zu hf.zl hf.zu
  have hn := h.numVar_eq
  have hdist := fun j (hj : j < P.numVar) => Flips.entry_exchange hS.nodup id
    (hq.size_xl.trans hq.size_xu.symm) (hq.size_xl.symm ▸ hj)
  have hsign := fun j (hj : j < P.numVar) => signedFactor_pos_iff (factorAt_pos hS.col hc hj)
  rw [unscaleInterior_eq]
  refine ⟨isFinite_mulBy (hx.symm ▸ hS.col) hc ?_, isFinite_divBy (hq.size_slack.symm ▸ hS.row) hr
    hf.slack, isFinite_mulBy (hq.size_y.symm ▸ hS.row) hr hf.y,
    isFinite_divBy (by rw [hm₁, hq.size_zl]; exact hS.col) hc hz₁,
    isFinite_divBy (by rw [hm₂, hq.size_zu]; exact hS.col) hc hz₂, fun j hj hl => ?_,
    fun j hj hu => ?_⟩
  · apply Vec.isFinite_iff.2
    intro j hj
    have hj : j < q.x.size := by rwa [Flips.size_negate] at hj
    rw [entry_negate_finite hS hj (Vec.entry_eq_finite hf.x j)]
    exact isFinite_finite _
  · refine isFinite_entry_mulBy (by rw [hs₁, hq.size_xl]; exact hS.col) hc
      (by rwa [hs₁, hq.size_xl]) ?_
    rw [(hdist j hj).1]
    split_ifs with hflip
    · refine hf.xu j (hn ▸ hj) ?_
      rw [h.isFinite_ub hj, if_neg fun hd => (hsign j hj).1 hd hflip]
      exact hl
    · refine hf.xl j (hn ▸ hj) ?_
      rw [h.isFinite_lb hj, if_pos ((hsign j hj).2 hflip)]
      exact hl
  · refine isFinite_entry_mulBy (by rw [hs₂, hq.size_xu]; exact hS.col) hc
      (by rwa [hs₂, hq.size_xu]) ?_
    rw [(hdist j hj).2]
    split_ifs with hflip
    · refine hf.xl j (hn ▸ hj) ?_
      rw [h.isFinite_lb hj, if_neg fun hd => (hsign j hj).1 hd hflip]
      exact hu
    · refine hf.xu j (hn ▸ hj) ?_
      rw [h.isFinite_ub hj, if_pos ((hsign j hj).2 hflip)]
      exact hu

/-! ### Residuals -/

include hr in
/-- Unscaling turns the residuals of the image into those of the point. -/
theorem residuals_unscaleResiduals {p : UserInterior Extended}
    (hpq : p.Image q P.numVar P.numConstr S.rowFactor S.signedFactor) {R : Residuals Extended}
    (hR : Q.HasResiduals q R) : P.HasResiduals p (S.unscaleResiduals R) := by
  have hrb : R.rb.size = P.numConstr := hR.size_rb.trans h.numConstr_eq
  have hrc : R.rc.size = P.numVar := hR.size_rc.trans h.numVar_eq
  have hrl : R.rl.size = P.numVar := hR.size_rl.trans h.numVar_eq
  have hru : R.ru.size = P.numVar := hR.size_ru.trans h.numVar_eq
  have hn : ∀ {j}, j < P.numVar → j < Q.numVar := fun hj => h.numVar_eq.symm ▸ hj
  have hneg : (S.flipped.negate R.rc).size = P.numVar := (Flips.size_negate _ _).trans hrc
  obtain ⟨hs₁, hs₂⟩ := Flips.size_exchange S.flipped (-·) R.rl R.ru
  have hl : Applies S.colscale (S.flipped.exchange (-·) R.rl R.ru).1.size := by
    rw [hs₁, hrl]
    exact hS.col
  have hu : Applies S.colscale (S.flipped.exchange (-·) R.rl R.ru).2.size := by
    rw [hs₂, hru]
    exact hS.col
  have hcpos := fun j (hj : j < P.numVar) => factorAt_pos hS.col hc hj
  have hrpos := fun i (hi : i < P.numConstr) => factorAt_pos hS.row hr hi
  have hbounds := fun j (hj : j < P.numVar) =>
    entry_mulBy_exchange hS hc hrl hru hj (hR.rl j (hn hj)) (hR.ru j (hn hj))
  have hresid : ∀ j < P.numVar,
      Q.lowerResidual q j * factorAt S.colscale j =
        (if j ∈ S.flipped.indices then -P.upperResidual p j else P.lowerResidual p j) ∧
      Q.upperResidual q j * factorAt S.colscale j =
        (if j ∈ S.flipped.indices then -P.lowerResidual p j else P.upperResidual p j) :=
    fun j hj => by
      have hlower := h.lowerResidual_eq hpq hj
      have hupper := h.upperResidual_eq hpq hj
      simp only [abs_signedFactor (hcpos j hj), signedFactor_pos_iff (hcpos j hj), ite_not]
        at hlower hupper
      exact ⟨hlower, hupper⟩
  rw [unscaleResiduals_eq]
  refine ⟨(size_divBy (hrb.symm ▸ hS.row)).trans hrb, (size_divBy (hneg.symm ▸ hS.col)).trans hneg,
    ((size_mulBy hl).trans hs₁).trans hrl, ((size_mulBy hu).trans hs₂).trans hru,
    fun i hi => ?_, fun j hj => ?_, fun j hj => ?_, fun j hj => ?_⟩ <;> simp only
  · rw [entry_divBy_finite (hrb.symm ▸ hS.row) hr (hrb.symm ▸ hi)
      (hR.rb i (h.numConstr_eq.symm ▸ hi)), h.rowResidual_eq hpq hi, rowFactor,
      mul_div_cancel_left₀ _ (hrpos i hi).ne']
  · rw [entry_divBy_finite (hneg.symm ▸ hS.col) hc (hneg.symm ▸ hj)
      (entry_negate_finite hS (hrc.symm ▸ hj) (hR.rc j (hn hj))), h.columnResidual_eq hpq hj,
      signedFactor_eq]
    have hne := (hcpos j hj).ne'
    split_ifs
    · rw [mul_neg, neg_neg, mul_div_cancel_right₀ _ hne]
    · rw [mul_div_cancel_right₀ _ hne]
  · rw [(hbounds j hj).1, ite_mul, neg_mul, (hresid j hj).1, (hresid j hj).2]
    split_ifs
    · rw [neg_neg]
    · rfl
  · rw [(hbounds j hj).2, ite_mul, neg_mul, (hresid j hj).1, (hresid j hj).2]
    split_ifs
    · rw [neg_neg]
    · rfl

end Image

end Scaling

end LpPresolve
