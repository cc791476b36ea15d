import LpPresolve.Proofs.Exact.Arithmetic
import LpPresolve.Proofs.Scaling.Points

/-! Scaling and unscaling undo each other. Scaling applies the factors and then mirrors, unscaling mirrors
and then takes the factors back, so everything comes down to the two halves: single entries survive their
factor in either order, and mirroring is an involution, whatever the list of flips. In exact arithmetic
every entry, finite or not, survives a finite factor other than zero. -/

namespace LpPresolve

/-- The operation takes `a` to something related to it by `R`, and that back to `a`. -/
def InvolutiveAt {β : Type} (f? : β → Option β) (R : β → β → Prop) (a : β) : Prop :=
  ∃ b, f? a = some b ∧ R a b ∧ f? b = some a

/-! ### Mirroring -/

namespace Flips

section Listed

variable {β : Type}

/-- In `w` every listed entry of `v` is changed by `f`, once for every time that it is listed. -/
structure Applied (F : Flips) (f : β → β) (v w : Array β) : Prop where
  kept : ∀ j ∉ F.indices, w[j]? = v[j]?
  listed : ∀ j ∈ F.indices, w[j]? = (Option.map f)^[F.indices.count j] v[j]?

/-- In the vectors `q` every listed pair of entries of `p` is exchanged and changed by `f`, once for
every time that it is listed. -/
structure Exchanged (F : Flips) (f : β → β) (p q : Vec β × Vec β) : Prop where
  kept : ∀ j ∉ F.indices, q.1[j]? = p.1[j]? ∧ q.2[j]? = p.2[j]?
  listed : ∀ j ∈ F.indices,
    (q.1[j]?, q.2[j]?) = (swapped f)^[F.indices.count j] (p.1[j]?, p.2[j]?)

theorem applied_foldl_modify (F : Flips) (f : β → β) (v : Array β) :
    F.Applied f v (F.indices.foldl (fun v k => v.modify k f) v) where
  kept j hj := by rw [getElem?_foldl_modify, List.count_eq_zero_of_not_mem hj]; rfl
  listed j _ := getElem?_foldl_modify f F.indices v j

theorem exchanged_exchange {F : Flips} (f : β → β) {l u : Vec β} (hl : F.Within l.size)
    (hu : F.Within u.size) : F.Exchanged f (l, u) (F.exchange f l u) where
  kept j hj := by
    have h := getElem?_exchange F f l u fun hmem => absurd hmem hj
    rw [List.count_eq_zero_of_not_mem hj] at h
    exact ⟨congrArg Prod.fst h, congrArg Prod.snd h⟩
  listed j hj := getElem?_exchange F f l u fun _ => ⟨hl j hj, hu j hj⟩

end Listed

variable {α : Type} [Neg α] {F : Flips}

structure MirroredPoint (F : Flips) (p q : UserPoint α) : Prop where
  x : F.Applied (-·) p.x q.x
  z : F.Applied (-·) p.z q.z
  slack_eq : q.slack = p.slack
  y_eq : q.y = p.y

structure MirroredInterior (F : Flips) (p q : UserInterior α) : Prop where
  x : F.Applied (-·) p.x q.x
  distances : F.Exchanged id (p.xl, p.xu) (q.xl, q.xu)
  multipliers : F.Exchanged id (p.zl, p.zu) (q.zl, q.zu)
  slack_eq : q.slack = p.slack
  y_eq : q.y = p.y

structure MirroredResiduals (F : Flips) (r s : Residuals α) : Prop where
  rc : F.Applied (-·) r.rc s.rc
  bounds : F.Exchanged (-·) (r.rl, r.ru) (s.rl, s.ru)
  rb_eq : s.rb = r.rb

/-- The listed entries of `x` and `z` come back when they are negated twice. -/
structure RecoversPoint (F : Flips) (p : UserPoint α) : Prop where
  x : F.Recovers (-·) p.x
  z : F.Recovers (-·) p.z

structure RecoversResiduals (F : Flips) (r : Residuals α) : Prop where
  rc : F.Recovers (-·) r.rc
  rl : F.Recovers (-·) r.rl
  ru : F.Recovers (-·) r.ru

theorem recovers_id {β : Type} (v : Array β) : F.Recovers id v := fun _ _ _ _ => rfl

theorem mirrorPoint_mirrorPoint {p : UserPoint α} (h : F.RecoversPoint p) :
    F.mirrorPoint (F.mirrorPoint p) = p := by
  have hx : F.negate (F.negate p.x) = p.x := foldl_modify_foldl_modify h.x
  have hz : F.negate (F.negate p.z) = p.z := foldl_modify_foldl_modify h.z
  simp only [mirrorPoint, hx, hz]

theorem mirrorInterior_mirrorInterior {p : UserInterior α} (hxl : F.Within p.xl.size)
    (hxu : F.Within p.xu.size) (hzl : F.Within p.zl.size) (hzu : F.Within p.zu.size)
    (h : F.Recovers (-·) p.x) : F.mirrorInterior (F.mirrorInterior p) = p := by
  have hx : F.negate (F.negate p.x) = p.x := foldl_modify_foldl_modify h
  have hdist := exchange_exchange hxl hxu (recovers_id p.xl) (recovers_id p.xu)
  have hmult := exchange_exchange hzl hzu (recovers_id p.zl) (recovers_id p.zu)
  simp only [mirrorInterior, hx, hdist, hmult]

theorem mirrorResiduals_mirrorResiduals {r : Residuals α} (hl : F.Within r.rl.size)
    (hu : F.Within r.ru.size) (h : F.RecoversResiduals r) :
    F.mirrorResiduals (F.mirrorResiduals r) = r := by
  have hc : F.negate (F.negate r.rc) = r.rc := foldl_modify_foldl_modify h.rc
  have hbounds := exchange_exchange hl hu h.rl h.ru
  simp only [mirrorResiduals, hc, hbounds]

theorem involutiveAt_mirrorPoint? {p : UserPoint α}
    (hw : F.Within p.x.size ∧ F.Within p.z.size) (h : F.RecoversPoint p) :
    InvolutiveAt F.mirrorPoint? F.MirroredPoint p := by
  refine ⟨F.mirrorPoint p, if_pos hw, ⟨applied_foldl_modify F _ _, applied_foldl_modify F _ _, rfl,
    rfl⟩, ?_⟩
  rw [mirrorPoint?, if_pos (by simpa [mirrorPoint] using hw), mirrorPoint_mirrorPoint h]

theorem involutiveAt_mirrorInterior? {p : UserInterior α}
    (hw : F.Within p.x.size ∧ F.Within p.xl.size ∧ F.Within p.xu.size ∧ F.Within p.zl.size ∧
      F.Within p.zu.size) (h : F.Recovers (-·) p.x) :
    InvolutiveAt F.mirrorInterior? F.MirroredInterior p := by
  obtain ⟨-, hxl, hxu, hzl, hzu⟩ := id hw
  obtain ⟨hsl, hsu⟩ := size_exchange F id p.xl p.xu
  obtain ⟨hml, hmu⟩ := size_exchange F id p.zl p.zu
  refine ⟨F.mirrorInterior p, if_pos hw, ⟨applied_foldl_modify F _ _,
    exchanged_exchange id hxl hxu, exchanged_exchange id hzl hzu, rfl, rfl⟩, ?_⟩
  rw [mirrorInterior?, if_pos (by simpa [mirrorInterior, hsl, hsu, hml, hmu] using hw),
    mirrorInterior_mirrorInterior hxl hxu hzl hzu h]

theorem involutiveAt_mirrorResiduals? {r : Residuals α}
    (hw : F.Within r.rc.size ∧ F.Within r.rl.size ∧ F.Within r.ru.size)
    (h : F.RecoversResiduals r) : InvolutiveAt F.mirrorResiduals? F.MirroredResiduals r := by
  obtain ⟨-, hl, hu⟩ := id hw
  obtain ⟨hsl, hsu⟩ := size_exchange F (-·) r.rl r.ru
  refine ⟨F.mirrorResiduals r, if_pos hw, ⟨applied_foldl_modify F _ _,
    exchanged_exchange (-·) hl hu, rfl⟩, ?_⟩
  rw [mirrorResiduals?, if_pos (by simpa [mirrorResiduals, hsl, hsu] using hw),
    mirrorResiduals_mirrorResiduals hl hu h]

theorem involutiveAt_mirrorStatus? {F : Flips} {status : Array BasisStatus}
    (hw : F.Within status.size) :
    InvolutiveAt F.mirrorStatus? (F.Applied BasisStatus.mirrored) status := by
  have hback : F.mirrorStatus (F.mirrorStatus status) = status :=
    foldl_modify_foldl_modify fun _ _ s _ => s.mirrored_mirrored
  refine ⟨F.mirrorStatus status, if_pos hw, applied_foldl_modify F _ _, ?_⟩
  rw [mirrorStatus?, if_pos (by simpa using hw), hback]

end Flips

/-! ### Factors -/

namespace Scaling

variable {α : Type} [Scalar α]

/-- Divided and multiplied by its factor, in either order, every entry comes back. -/
def Restores (factors v : Vec α) : Prop :=
  ∀ i < factors.size, v.entry i / factors.entry i * factors.entry i = v.entry i ∧
    v.entry i * factors.entry i / factors.entry i = v.entry i

structure RestoresPoint (S : Scaling α) (p : UserPoint α) : Prop where
  x : Restores S.colscale p.x
  slack : Restores S.rowscale p.slack
  y : Restores S.rowscale p.y
  z : Restores S.colscale p.z

structure RestoresInterior (S : Scaling α) (p : UserInterior α) : Prop where
  x : Restores S.colscale p.x
  xl : Restores S.colscale p.xl
  xu : Restores S.colscale p.xu
  slack : Restores S.rowscale p.slack
  y : Restores S.rowscale p.y
  zl : Restores S.colscale p.zl
  zu : Restores S.colscale p.zu

theorem Restores.mulBy_divBy {factors v : Vec α} (h : Restores factors v)
    (ha : Applies factors v.size) : mulBy factors (divBy factors v) = v :=
  Scaling.mulBy_divBy ha fun i hi => (h i hi).1

theorem Restores.divBy_mulBy {factors v : Vec α} (h : Restores factors v)
    (ha : Applies factors v.size) : divBy factors (mulBy factors v) = v :=
  Scaling.divBy_mulBy ha fun i hi => (h i hi).2

/-- The factors alone. -/
def unflipped (S : Scaling α) : Scaling α := { S with flipped := ⟨[]⟩ }

variable {S : Scaling α}

/-! ### Points -/

section Point

variable {p q : UserPoint α}

theorem scalePoint_eq_mirrorPoint (S : Scaling α) (p : UserPoint α) :
    S.scalePoint p = S.flipped.mirrorPoint (S.unflipped.scalePoint p) := rfl

theorem unscalePoint_eq_unflipped (S : Scaling α) (p : UserPoint α) :
    S.unscalePoint p = S.unflipped.unscalePoint (S.flipped.mirrorPoint p) := rfl

theorem RestoresPoint.keeps (h : S.RestoresPoint p) : S.Keeps p where
  x i hi := (h.x i hi).1
  slack i hi := (h.slack i hi).2
  y i hi := (h.y i hi).1
  z i hi := (h.z i hi).2

theorem unflipped_unscalePoint_scalePoint (hp : S.FitsPoint p) (h : S.Keeps p) :
    S.unflipped.unscalePoint (S.unflipped.scalePoint p) = p := by
  obtain ⟨⟨hx, hz, hy, hslack⟩, -⟩ := hp
  simp only [unscalePoint, scalePoint, unflipped, Flips.mirrorPoint, Flips.negate, List.foldl_nil,
    mulBy_divBy hx h.x, divBy_mulBy hslack h.slack, mulBy_divBy hy h.y, divBy_mulBy hz h.z]

theorem unflipped_scalePoint_unscalePoint (hp : S.FitsPoint p) (h : S.RestoresPoint p) :
    S.unflipped.scalePoint (S.unflipped.unscalePoint p) = p := by
  obtain ⟨⟨hx, hz, hy, hslack⟩, -⟩ := hp
  simp only [unscalePoint, scalePoint, unflipped, Flips.mirrorPoint, Flips.negate, List.foldl_nil,
    h.x.divBy_mulBy hx, h.slack.mulBy_divBy hslack, h.y.divBy_mulBy hy, h.z.mulBy_divBy hz]

theorem unscalePoint_scalePoint_of_fits (hp : S.FitsPoint p) (h : S.Keeps p)
    (hF : S.flipped.RecoversPoint (S.unflipped.scalePoint p)) :
    S.unscalePoint (S.scalePoint p) = p := by
  rw [unscalePoint_eq_unflipped, scalePoint_eq_mirrorPoint, Flips.mirrorPoint_mirrorPoint hF,
    unflipped_unscalePoint_scalePoint hp h]

theorem scalePoint_unscalePoint_of_fits (hp : S.FitsPoint (S.flipped.mirrorPoint p))
    (hF : S.flipped.RecoversPoint p) (h : S.RestoresPoint (S.flipped.mirrorPoint p)) :
    S.scalePoint (S.unscalePoint p) = p := by
  rw [scalePoint_eq_mirrorPoint, unscalePoint_eq_unflipped,
    unflipped_scalePoint_unscalePoint hp h, Flips.mirrorPoint_mirrorPoint hF]

omit [Scalar α] in
theorem FitsPoint.of_sizes (h : S.FitsPoint p) (hx : q.x.size = p.x.size)
    (hslack : q.slack.size = p.slack.size) (hy : q.y.size = p.y.size)
    (hz : q.z.size = p.z.size) : S.FitsPoint q := by
  unfold FitsPoint
  rwa [hx, hslack, hy, hz]

theorem FitsPoint.mirrorPoint (h : S.FitsPoint p) : S.FitsPoint (S.flipped.mirrorPoint p) :=
  h.of_sizes (Flips.size_negate _ _) rfl rfl (Flips.size_negate _ _)

theorem FitsPoint.scalePoint (h : S.FitsPoint p) : S.FitsPoint (S.scalePoint p) := by
  obtain ⟨⟨hx, hz, hy, hslack⟩, -⟩ := id h
  have hfactors : S.FitsPoint (S.unflipped.scalePoint p) :=
    h.of_sizes (size_divBy hx) (size_mulBy hslack) (size_divBy hy) (size_mulBy hz)
  exact hfactors.mirrorPoint

theorem FitsPoint.unscalePoint (h : S.FitsPoint p) : S.FitsPoint (S.unscalePoint p) := by
  obtain ⟨⟨hx, hz, hy, hslack⟩, -⟩ := h.mirrorPoint
  exact h.mirrorPoint.of_sizes (size_mulBy hx) (size_divBy hslack) (size_mulBy hy) (size_divBy hz)

theorem unscalePoint?_scalePoint? (hp : S.FitsPoint p) (h : S.RestoresPoint p)
    (hF : S.flipped.RecoversPoint (S.unflipped.scalePoint p)) :
    (S.scalePoint? p).bind S.unscalePoint? = some p := by
  rw [scalePoint?, if_pos hp, Option.bind_some, unscalePoint?, if_pos hp.scalePoint,
    unscalePoint_scalePoint_of_fits hp h.keeps hF]

theorem scalePoint?_unscalePoint? (hp : S.FitsPoint p) (hF : S.flipped.RecoversPoint p)
    (h : S.RestoresPoint (S.flipped.mirrorPoint p)) :
    (S.unscalePoint? p).bind S.scalePoint? = some p := by
  rw [unscalePoint?, if_pos hp, Option.bind_some, scalePoint?, if_pos hp.unscalePoint,
    scalePoint_unscalePoint_of_fits hp.mirrorPoint hF h]

omit [Scalar α] in
theorem Suits.fitsPoint {n m : Nat} (hS : S.Suits n m) (hp : p.Sized n m) : S.FitsPoint p := by
  unfold FitsPoint
  rw [hp.size_x, hp.size_slack, hp.size_y, hp.size_z]
  exact ⟨⟨hS.col, hS.col, hS.row, hS.row⟩, hS.within, hS.within⟩

/-- Unscaling a scaled point gives it back if every entry survives the product and the quotient with its
own factor. -/
theorem unscalePoint_scalePoint {n m : Nat} (hS : S.Suits n m) (hp : p.Sized n m)
    (hneg : ∀ a : α, - -a = a) (hkeep : S.Keeps p) : S.unscalePoint (S.scalePoint p) = p :=
  unscalePoint_scalePoint_of_fits (hS.fitsPoint hp) hkeep
    ⟨fun _ _ a _ => hneg a, fun _ _ a _ => hneg a⟩

end Point

/-! ### Interior points -/

section Interior

variable {p q : UserInterior α}

theorem scaleInterior_eq_mirrorInterior (S : Scaling α) (p : UserInterior α) :
    S.scaleInterior p = S.flipped.mirrorInterior (S.unflipped.scaleInterior p) := rfl

theorem unscaleInterior_eq_unflipped (S : Scaling α) (p : UserInterior α) :
    S.unscaleInterior p = S.unflipped.unscaleInterior (S.flipped.mirrorInterior p) := rfl

theorem unflipped_unscaleInterior_scaleInterior (hp : S.FitsInterior p) (h : S.RestoresInterior p) :
    S.unflipped.unscaleInterior (S.unflipped.scaleInterior p) = p := by
  obtain ⟨⟨hx, hxl, hxu, hzl, hzu, hy, hslack⟩, -⟩ := hp
  simp only [unscaleInterior, scaleInterior, unflipped, Flips.mirrorInterior, Flips.negate,
    Flips.exchange, List.foldl_nil, h.x.mulBy_divBy hx, h.xl.mulBy_divBy hxl, h.xu.mulBy_divBy hxu,
    h.slack.divBy_mulBy hslack, h.y.mulBy_divBy hy, h.zl.divBy_mulBy hzl, h.zu.divBy_mulBy hzu]

theorem unflipped_scaleInterior_unscaleInterior (hp : S.FitsInterior p) (h : S.RestoresInterior p) :
    S.unflipped.scaleInterior (S.unflipped.unscaleInterior p) = p := by
  obtain ⟨⟨hx, hxl, hxu, hzl, hzu, hy, hslack⟩, -⟩ := hp
  simp only [unscaleInterior, scaleInterior, unflipped, Flips.mirrorInterior, Flips.negate,
    Flips.exchange, List.foldl_nil, h.x.divBy_mulBy hx, h.xl.divBy_mulBy hxl, h.xu.divBy_mulBy hxu,
    h.slack.mulBy_divBy hslack, h.y.divBy_mulBy hy, h.zl.mulBy_divBy hzl, h.zu.mulBy_divBy hzu]

omit [Scalar α] in
theorem FitsInterior.of_sizes (h : S.FitsInterior p) (hx : q.x.size = p.x.size)
    (hxl : q.xl.size = p.xl.size) (hxu : q.xu.size = p.xu.size)
    (hslack : q.slack.size = p.slack.size) (hy : q.y.size = p.y.size)
    (hzl : q.zl.size = p.zl.size) (hzu : q.zu.size = p.zu.size) : S.FitsInterior q := by
  unfold FitsInterior
  rwa [hx, hxl, hxu, hslack, hy, hzl, hzu]

theorem FitsInterior.mirrorInterior (h : S.FitsInterior p) :
    S.FitsInterior (S.flipped.mirrorInterior p) := by
  obtain ⟨hxl, hxu⟩ := Flips.size_exchange S.flipped id p.xl p.xu
  obtain ⟨hzl, hzu⟩ := Flips.size_exchange S.flipped id p.zl p.zu
  exact h.of_sizes (Flips.size_negate _ _) hxl hxu rfl rfl hzl hzu

theorem FitsInterior.unflipped_scaleInterior (h : S.FitsInterior p) :
    S.FitsInterior (S.unflipped.scaleInterior p) := by
  obtain ⟨⟨hx, hxl, hxu, hzl, hzu, hy, hslack⟩, -⟩ := id h
  exact h.of_sizes (size_divBy hx) (size_divBy hxl) (size_divBy hxu) (size_mulBy hslack)
    (size_divBy hy) (size_mulBy hzl) (size_mulBy hzu)

theorem FitsInterior.unscaleInterior (h : S.FitsInterior p) :
    S.FitsInterior (S.unscaleInterior p) := by
  obtain ⟨⟨hx, hxl, hxu, hzl, hzu, hy, hslack⟩, -⟩ := h.mirrorInterior
  exact h.mirrorInterior.of_sizes (size_mulBy hx) (size_mulBy hxl) (size_mulBy hxu)
    (size_divBy hslack) (size_mulBy hy) (size_divBy hzl) (size_divBy hzu)

theorem FitsInterior.mirrorInterior_mirrorInterior (h : S.FitsInterior p)
    (hF : S.flipped.Recovers (-·) p.x) :
    S.flipped.mirrorInterior (S.flipped.mirrorInterior p) = p := by
  obtain ⟨-, -, hxl, hxu, hzl, hzu⟩ := h
  exact Flips.mirrorInterior_mirrorInterior hxl hxu hzl hzu hF

theorem unscaleInterior_scaleInterior_of_fits (hp : S.FitsInterior p) (h : S.RestoresInterior p)
    (hF : S.flipped.Recovers (-·) (S.unflipped.scaleInterior p).x) :
    S.unscaleInterior (S.scaleInterior p) = p := by
  rw [unscaleInterior_eq_unflipped, scaleInterior_eq_mirrorInterior,
    hp.unflipped_scaleInterior.mirrorInterior_mirrorInterior hF,
    unflipped_unscaleInterior_scaleInterior hp h]

theorem scaleInterior_unscaleInterior_of_fits (hp : S.FitsInterior p)
    (hF : S.flipped.Recovers (-·) p.x) (h : S.RestoresInterior (S.flipped.mirrorInterior p)) :
    S.scaleInterior (S.unscaleInterior p) = p := by
  rw [scaleInterior_eq_mirrorInterior, unscaleInterior_eq_unflipped,
    unflipped_scaleInterior_unscaleInterior hp.mirrorInterior h,
    hp.mirrorInterior_mirrorInterior hF]

theorem unscaleInterior?_scaleInterior? (hp : S.FitsInterior p) (h : S.RestoresInterior p)
    (hF : S.flipped.Recovers (-·) (S.unflipped.scaleInterior p).x) :
    (S.scaleInterior? p).bind S.unscaleInterior? = some p := by
  have hq : S.FitsInterior (S.scaleInterior p) := hp.unflipped_scaleInterior.mirrorInterior
  rw [scaleInterior?, if_pos hp, Option.bind_some, unscaleInterior?, if_pos hq,
    unscaleInterior_scaleInterior_of_fits hp h hF]

theorem scaleInterior?_unscaleInterior? (hp : S.FitsInterior p)
    (hF : S.flipped.Recovers (-·) p.x) (h : S.RestoresInterior (S.flipped.mirrorInterior p)) :
    (S.unscaleInterior? p).bind S.scaleInterior? = some p := by
  rw [unscaleInterior?, if_pos hp, Option.bind_some, scaleInterior?, if_pos hp.unscaleInterior,
    scaleInterior_unscaleInterior_of_fits hp hF h]

end Interior

/-! ### Scaling and mirroring -/

/-- Where the entries survive their factors and two changes of sign, scaling and unscaling are inverse to
each other, in both orders and on all vectors that the factors and flips fit. Mirroring along any list of
flips is an involution that changes what is listed and nothing else. -/
theorem mutually_inverse (S : Scaling α) (F : Flips) :
    (∀ p : UserPoint α, S.FitsPoint p →
      (S.RestoresPoint p → S.flipped.RecoversPoint (S.unflipped.scalePoint p) →
        (S.scalePoint? p).bind S.unscalePoint? = some p) ∧
      (S.flipped.RecoversPoint p → S.RestoresPoint (S.flipped.mirrorPoint p) →
        (S.unscalePoint? p).bind S.scalePoint? = some p)) ∧
    (∀ p : UserInterior α, S.FitsInterior p →
      (S.RestoresInterior p → S.flipped.Recovers (-·) (S.unflipped.scaleInterior p).x →
        (S.scaleInterior? p).bind S.unscaleInterior? = some p) ∧
      (S.flipped.Recovers (-·) p.x → S.RestoresInterior (S.flipped.mirrorInterior p) →
        (S.unscaleInterior? p).bind S.scaleInterior? = some p)) ∧
    (∀ p : UserPoint α, F.Within p.x.size ∧ F.Within p.z.size → F.RecoversPoint p →
      InvolutiveAt F.mirrorPoint? F.MirroredPoint p) ∧
    (∀ p : UserInterior α, F.Within p.x.size ∧ F.Within p.xl.size ∧ F.Within p.xu.size ∧
        F.Within p.zl.size ∧ F.Within p.zu.size → F.Recovers (-·) p.x →
      InvolutiveAt F.mirrorInterior? F.MirroredInterior p) ∧
    (∀ r : Residuals α, F.Within r.rc.size ∧ F.Within r.rl.size ∧ F.Within r.ru.size →
      F.RecoversResiduals r → InvolutiveAt F.mirrorResiduals? F.MirroredResiduals r) ∧
    ∀ status : Array BasisStatus, F.Within status.size →
      InvolutiveAt F.mirrorStatus? (F.Applied BasisStatus.mirrored) status := by
  refine ⟨fun p hp => ⟨?_, ?_⟩, fun p hp => ⟨?_, ?_⟩, fun _ => Flips.involutiveAt_mirrorPoint?,
    fun _ => Flips.involutiveAt_mirrorInterior?, fun _ => Flips.involutiveAt_mirrorResiduals?,
    fun _ => Flips.involutiveAt_mirrorStatus?⟩
  · exact unscalePoint?_scalePoint? hp
  · exact scalePoint?_unscalePoint? hp
  · exact unscaleInterior?_scaleInterior? hp
  · exact scaleInterior?_unscaleInterior? hp

end Scaling

/-! ### Exact arithmetic -/

open Extended

/-- Finite factors other than zero. -/
def Vec.Usable (factors : Vec Extended) : Prop :=
  ∀ i < factors.size, Scalar.isFinite (factors.entry i) = true ∧ factors.entry i ≠ 0

instance (factors : Vec Extended) : Decidable factors.Usable :=
  inferInstanceAs (Decidable (∀ i < factors.size, _))

namespace Scaling

variable {S : Scaling Extended}

theorem restores_of_usable {factors : Vec Extended} (h : factors.Usable) (v : Vec Extended) :
    Restores factors v := by
  intro i hi
  obtain ⟨hfinite, hne⟩ := h i hi
  obtain ⟨d, hd⟩ := exists_eq_finite hfinite
  rw [hd] at hne ⊢
  have hd : d ≠ 0 := fun h => hne (congrArg finite h)
  exact ⟨div_mul_finite hd _, mul_div_finite hd _⟩

theorem restoresPoint_of_usable (hc : S.colscale.Usable) (hr : S.rowscale.Usable)
    (p : UserPoint Extended) : S.RestoresPoint p where
  x := restores_of_usable hc p.x
  slack := restores_of_usable hr p.slack
  y := restores_of_usable hr p.y
  z := restores_of_usable hc p.z

theorem restoresInterior_of_usable (hc : S.colscale.Usable) (hr : S.rowscale.Usable)
    (p : UserInterior Extended) : S.RestoresInterior p where
  x := restores_of_usable hc p.x
  xl := restores_of_usable hc p.xl
  xu := restores_of_usable hc p.xu
  slack := restores_of_usable hr p.slack
  y := restores_of_usable hr p.y
  zl := restores_of_usable hc p.zl
  zu := restores_of_usable hc p.zu

end Scaling

theorem Flips.recovers_neg (F : Flips) (v : Vec Extended) : F.Recovers (-·) v :=
  fun _ _ a _ => Extended.neg_neg a

namespace Scaling

/-- One variable is listed three times, one twice and one once. -/
def uneven : Scaling Extended where
  colscale := #[finite 4, finite (1 / 2), finite 3]
  rowscale := #[finite (1 / 8), finite 6]
  flipped := ⟨[2, 0, 2, 1, 2, 1]⟩

def unevenPoint : UserPoint Extended where
  x := #[finite 3, finite (-5), finite (1 / 7)]
  slack := #[finite 0, finite 2]
  y := #[finite (-1), finite 9]
  z := #[finite 6, finite 0, finite (-2)]

/-- Two of the distances are infinite. -/
def unevenInterior : UserInterior Extended where
  x := #[finite 3, finite (-5), finite (1 / 7)]
  xl := #[finite 1, top, finite 2]
  xu := #[top, finite 4, finite 8]
  slack := #[finite 0, finite 2]
  y := #[finite (-1), finite 9]
  zl := #[finite 5, finite 0, finite 1]
  zu := #[finite 0, finite 7, finite (1 / 3)]

def unevenResiduals : Residuals Extended where
  rb := #[finite 1, finite (-1)]
  rc := #[finite 2, finite 0, finite (-3)]
  rl := #[finite 4, finite (1 / 2), finite 0]
  ru := #[finite (-6), finite 0, finite 5]

theorem mutually_inverse_uneven :
    ((uneven.scalePoint? unevenPoint).bind uneven.unscalePoint? = some unevenPoint ∧
      (uneven.unscalePoint? unevenPoint).bind uneven.scalePoint? = some unevenPoint) ∧
    ((uneven.scaleInterior? unevenInterior).bind uneven.unscaleInterior? = some unevenInterior ∧
      (uneven.unscaleInterior? unevenInterior).bind uneven.scaleInterior? = some unevenInterior) ∧
    InvolutiveAt uneven.flipped.mirrorPoint? uneven.flipped.MirroredPoint unevenPoint ∧
    InvolutiveAt uneven.flipped.mirrorInterior? uneven.flipped.MirroredInterior unevenInterior ∧
    InvolutiveAt uneven.flipped.mirrorResiduals? uneven.flipped.MirroredResiduals
      unevenResiduals ∧
    InvolutiveAt uneven.flipped.mirrorStatus? (uneven.flipped.Applied BasisStatus.mirrored)
      #[.basic, .nonbasicUpper, .nonbasicLower, .superbasic] := by
  have hc : uneven.colscale.Usable := by decide +kernel
  have hr : uneven.rowscale.Usable := by decide +kernel
  have hneg := uneven.flipped.recovers_neg
  obtain ⟨hpoint, hinterior, hmp, hmi, hmr, hms⟩ := mutually_inverse uneven uneven.flipped
  obtain ⟨hscale, hunscale⟩ := hpoint unevenPoint (by decide)
  obtain ⟨hscale', hunscale'⟩ := hinterior unevenInterior (by decide)
  refine ⟨⟨hscale (restoresPoint_of_usable hc hr _) ⟨hneg _, hneg _⟩,
      hunscale ⟨hneg _, hneg _⟩ (restoresPoint_of_usable hc hr _)⟩,
    ⟨hscale' (restoresInterior_of_usable hc hr _) (hneg _),
      hunscale' (hneg _) (restoresInterior_of_usable hc hr _)⟩,
    hmp _ (by decide) ⟨hneg _, hneg _⟩, hmi _ (by decide) (hneg _),
    hmr _ (by decide) ⟨hneg _, hneg _, hneg _⟩, hms _ (by decide)⟩

end Scaling

end LpPresolve
