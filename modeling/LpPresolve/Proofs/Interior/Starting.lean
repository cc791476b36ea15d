import LpPresolve.Proofs.Exact.Forms
import LpPresolve.Proofs.Interior.Admissible
import LpPresolve.Proofs.Interior.Solver
import LpPresolve.Proofs.Transfer.RoundTrip

/-! Interior starting points. A point is refused for its first missing vector, then for the dual form,
then for its first vector of a wrong length, and at last by the check of the scaled point. The check
asks for the conditions on the entries one after the other, so it passes if and only if all of them
hold, which is to say that the point is compatible with the user's program. -/

namespace LpPresolve

open Extended

/-! ### Missing vectors and wrong lengths -/

namespace PartialInterior

variable {α : Type}

/-- The name of the first vector that is not given. -/
def firstMissing (p : PartialInterior α) : Option String :=
  [("x", p.x), ("xl", p.xl), ("xu", p.xu), ("slack", p.slack), ("y", p.y), ("zl", p.zl),
    ("zu", p.zu)].findSome? fun (name, v) => if v.isNone then some name else none

/-- The name of a vector, if it is given and does not have the length that it should have. -/
def misfit : String × Nat × Option (Vec α) → Option String :=
  fun (name, k, v) => if v.any (·.size ≠ k) then some name else none

/-- The name of the first given vector whose length is not that of a point with `n` variables and
`m` constraints. -/
def firstMisfit (p : PartialInterior α) (n m : Nat) : Option String :=
  [("x", n, p.x), ("xl", n, p.xl), ("xu", n, p.xu), ("slack", m, p.slack), ("y", m, p.y),
    ("zl", n, p.zl), ("zu", n, p.zu)].findSome? misfit

theorem exists_toPartial {p : PartialInterior α} (h : p.firstMissing = none) :
    ∃ u : UserInterior α, p = u.toPartial := by
  simp only [firstMissing, List.findSome?_eq_none_iff, List.forall_mem_cons, List.not_mem_nil,
    ite_eq_right_iff, reduceCtorEq, imp_false, Bool.not_eq_true, Option.isNone_eq_false_iff,
    Option.isSome_iff_exists, false_implies, implies_true, and_true] at h
  obtain ⟨⟨x, hx⟩, ⟨xl, hxl⟩, ⟨xu, hxu⟩, ⟨slack, hslack⟩, ⟨y, hy⟩, ⟨zl, hzl⟩, ⟨zu, hzu⟩⟩ := h
  refine ⟨⟨x, xl, xu, slack, y, zl, zu⟩, ?_⟩
  obtain ⟨⟩ := p
  simp only at hx hxl hxu hslack hy hzl hzu
  rw [hx, hxl, hxu, hslack, hy, hzl, hzu]
  rfl

end PartialInterior

theorem UserInterior.toPartial_injective {α : Type} :
    Function.Injective (toPartial : UserInterior α → PartialInterior α) := by
  rintro ⟨⟩ ⟨⟩ h
  simpa [toPartial] using h

theorem UserInterior.firstMisfit_eq_none_iff {u : UserInterior Extended} {n m : Nat} :
    u.toPartial.firstMisfit n m = none ↔ u.Sized n m := by
  simp only [PartialInterior.firstMisfit, PartialInterior.misfit, toPartial,
    List.findSome?_eq_none_iff, List.forall_mem_cons, List.not_mem_nil, ite_eq_right_iff,
    reduceCtorEq, imp_false, Option.any_some, decide_eq_true_eq, ne_eq, not_not, false_implies,
    implies_true, and_true]
  exact ⟨fun ⟨hx, hxl, hxu, hslack, hy, hzl, hzu⟩ => ⟨hx, hxl, hxu, hslack, hy, hzl, hzu⟩,
    fun ⟨hx, hxl, hxu, hslack, hy, hzl, hzu⟩ => ⟨hx, hxl, hxu, hslack, hy, hzl, hzu⟩⟩

namespace Model

/-! ### The check of a scaled point -/

theorem distanceOk_iff {b noBound : Extended} (h : noBound ≠ undefined) (d : Extended) :
    distanceOk b noBound d = true ↔ IsDistance (b = noBound) d := by
  have htop : (Scalar.infinity : Extended) ≠ undefined := Extended.noConfusion
  rw [distanceOk, Bool.and_eq_true, decide_eq_true_eq, beq_iff_eq, Bool.eq_iff_iff,
    beq_iff_of_ne h, beq_iff_of_ne htop, isDistance_iff, iff_comm (a := b = noBound)]
  rfl

theorem multiplierOk_iff {b noBound : Extended} (h : noBound ≠ undefined) (z : Extended) :
    multiplierOk b noBound z = true ↔ IsMultiplier (b = noBound) z := by
  have hzero : (0 : Extended) ≠ undefined := Extended.noConfusion
  have himp : ∀ a b : Bool, (!(a && !b)) = true ↔ (a = true → b = true) := by decide
  rw [multiplierOk, Bool.and_eq_true, Bool.and_eq_true, decide_eq_true_eq, decide_eq_true_eq,
    himp, beq_iff_of_ne h, beq_iff_of_ne hzero, isMultiplier_iff, and_assoc]
  rfl

theorem slackOk_iff (t : ConstraintType) (s : Extended) : slackOk t s = true ↔ t.IsSlack s := by
  unfold slackOk
  rw [Bool.and_eq_true, ConstraintType.IsSlack]
  apply and_congr_right
  intro hs
  obtain ⟨q, rfl⟩ := exists_eq_finite hs
  cases t with
  | equal => simp [ConstraintType.SlackSign, zero_eq]
  | lessEqual => simp [ConstraintType.SlackSign, zero_eq]
  | greaterEqual => simp [ConstraintType.SlackSign, zero_eq]

theorem constraintMultiplierOk_iff (t : ConstraintType) (y : Extended) :
    constraintMultiplierOk t y = true ↔ t.IsMultiplier y := by
  unfold constraintMultiplierOk
  rw [Bool.and_eq_true, ConstraintType.IsMultiplier]
  apply and_congr_right
  intro hy
  obtain ⟨q, rfl⟩ := exists_eq_finite hy
  cases t with
  | equal => simp [ConstraintType.MultiplierSign]
  | lessEqual => simp [ConstraintType.MultiplierSign, zero_eq]
  | greaterEqual => simp [ConstraintType.MultiplierSign, zero_eq]

section Zip

variable {β : Type} {w : Vec Extended} {n : Nat}

theorem all_zip_iff {v : Array β} (hv : v.size = n) (hw : w.size = n) {f : β × Extended → Bool}
    {p : β → Extended → Prop} (hf : ∀ b a, f (b, a) = true ↔ p b a) :
    (v.zip w).all f = true ↔ ∀ i < n, ∀ b ∈ v[i]?, p b (w.entry i) := by
  subst hv
  have hs : (v.zip w).size = v.size := by rw [Array.size_zip, hw, min_self]
  rw [Array.all_eq_true]
  constructor
  · intro h i hi b hb
    have hi' : i < w.size := hw.symm ▸ hi
    obtain rfl := Option.some.inj ((Array.getElem?_eq_getElem hi).symm.trans hb)
    have hpair := h i (hs.symm ▸ hi)
    rwa [Array.getElem_zip, hf, ← Vec.entry_eq_getElem w hi'] at hpair
  · intro h i hi
    have hv : i < v.size := hs ▸ hi
    have hi' : i < w.size := hw.symm ▸ hv
    rw [Array.getElem_zip, hf, ← Vec.entry_eq_getElem w hi']
    exact h i hv _ (Array.getElem?_eq_getElem hv)

theorem all_zip_entries_iff {v : Vec Extended} (hv : v.size = n) (hw : w.size = n)
    {f : Extended × Extended → Bool} {p : Extended → Extended → Prop}
    (hf : ∀ b a, f (b, a) = true ↔ p b a) :
    (v.zip w).all f = true ↔ ∀ i < n, p (v.entry i) (w.entry i) := by
  rw [all_zip_iff hv hw hf]
  exact forall₂_congr fun i hi => by
    rw [v.getElem?_eq_some_entry (hv.symm ▸ hi)]
    simp

end Zip

variable {M : Model Extended} {u : UserInterior Extended}

/-- The conditions on a scaled point, in the order of the check. -/
def interiorChecks (M : Model Extended) (u : UserInterior Extended) : List (String × Bool) :=
  [("x", u.x.isFinite),
    ("xl", (M.scaled.lb.zip u.xl).all fun (l, d) => distanceOk l (-Scalar.infinity) d),
    ("xu", (M.scaled.ub.zip u.xu).all fun (b, d) => distanceOk b Scalar.infinity d),
    ("slack", (M.program.types.zip u.slack).all fun (t, s) => slackOk t s),
    ("y", (M.program.types.zip u.y).all fun (t, y) => constraintMultiplierOk t y),
    ("zl", (M.scaled.lb.zip u.zl).all fun (l, z) => multiplierOk l (-Scalar.infinity) z),
    ("zu", (M.scaled.ub.zip u.zu).all fun (b, z) => multiplierOk b Scalar.infinity z)]

/-- Conditions demanded one after the other. -/
def demandAll : List (String × Bool) → Except ModelError Unit
  | [] => pure ()
  | (name, ok) :: r =>
    (if ok then .ok () else .error (.invalidVector name)) >>= fun _ => demandAll r

theorem demandAll_eq (checks : List (String × Bool)) :
    demandAll checks =
      match checks.find? (!·.2) with
      | some c => .error (.invalidVector c.1)
      | none => .ok () := by
  induction checks with
  | nil => rfl
  | cons c r ih =>
    obtain ⟨name, ok⟩ := c
    cases ok with
    | false => rfl
    | true => exact ih

theorem demandAll_eq_ok_iff {checks : List (String × Bool)} :
    demandAll checks = .ok () ↔ ∀ c ∈ checks, c.2 = true := by
  have hnone : checks.find? (!·.2) = none ↔ ∀ c ∈ checks, c.2 = true := by
    simp
  rw [demandAll_eq, ← hnone]
  cases checks.find? (!·.2) with
  | none => exact iff_of_true rfl rfl
  | some c => exact iff_of_false nofun nofun

theorem exists_demandAll_eq_error {checks : List (String × Bool)}
    (h : demandAll checks ≠ .ok ()) :
    ∃ name ∈ checks.map Prod.fst, demandAll checks = .error (.invalidVector name) := by
  rw [demandAll_eq] at h ⊢
  cases hc : checks.find? (!·.2) with
  | none => simp [hc] at h
  | some c => exact ⟨c.1, List.mem_map_of_mem (List.mem_of_find?_eq_some hc), rfl⟩

theorem checkInterior_eq (M : Model Extended) (u : UserInterior Extended) :
    M.checkInterior u = demandAll (M.interiorChecks u) := by
  simp only [interiorChecks, demandAll, bind_pure_unit]
  rfl

/-- The check accepts exactly the points that are compatible with the scaled program. -/
theorem checkInterior_eq_ok_iff (hM : M.Exact)
    (hu : u.Sized M.program.numVar M.program.numConstr) :
    M.checkInterior u = .ok () ↔ u.Admissible M.scaledProgram := by
  have hcopies := hM.regular.copies
  have htypes := hM.regular.valid.size_types
  have hbottom : (-Scalar.infinity : Extended) ≠ undefined := Extended.noConfusion
  have htop : (Scalar.infinity : Extended) ≠ undefined := Extended.noConfusion
  have hxl := all_zip_entries_iff hcopies.size_lb hu.size_xl
    (f := fun (l, d) => distanceOk l (-Scalar.infinity) d) fun l d => distanceOk_iff hbottom d
  have hxu := all_zip_entries_iff hcopies.size_ub hu.size_xu
    (f := fun (b, d) => distanceOk b Scalar.infinity d) fun b d => distanceOk_iff htop d
  have hslack := all_zip_iff htypes hu.size_slack (f := fun (t, s) => slackOk t s) slackOk_iff
  have hy := all_zip_iff htypes hu.size_y (f := fun (t, y) => constraintMultiplierOk t y)
    constraintMultiplierOk_iff
  have hzl := all_zip_entries_iff hcopies.size_lb hu.size_zl
    (f := fun (l, z) => multiplierOk l (-Scalar.infinity) z) fun l z => multiplierOk_iff hbottom z
  have hzu := all_zip_entries_iff hcopies.size_ub hu.size_zu
    (f := fun (b, z) => multiplierOk b Scalar.infinity z) fun b z => multiplierOk_iff htop z
  rw [checkInterior_eq, demandAll_eq_ok_iff, UserInterior.admissible_iff, hM.image.numVar_eq,
    hM.image.numConstr_eq, hM.image.types_eq]
  simp only [interiorChecks, List.forall_mem_cons, List.not_mem_nil, false_implies, implies_true,
    and_true, Vec.isFinite_iff, hu.size_x]
  exact and_congr_right' (and_congr hxl (and_congr hxu (and_congr hslack (and_congr hy
    (and_congr hzl hzu)))))

/-! ### Outcomes -/

theorem presolveInterior_of_missing {p : PartialInterior Extended} {name : String}
    (h : p.firstMissing = some name) : M.presolveInterior p = .error (.argumentNull name) := by
  obtain ⟨x, xl, xu, slack, y, zl, zu⟩ := p
  have hrefuse : ∀ {n : String}, some n = some name →
      (.error (.argumentNull n) : Except ModelError (SolverInterior Extended)) =
        .error (.argumentNull name) := fun h => by rw [Option.some.inj h]
  cases x
  · exact hrefuse h
  cases xl
  · exact hrefuse h
  cases xu
  · exact hrefuse h
  cases slack
  · exact hrefuse h
  cases y
  · exact hrefuse h
  cases zl
  · exact hrefuse h
  cases zu
  · exact hrefuse h
  · exact absurd h (Option.some_ne_none name).symm

/-- One more vector whose length is looked at before all others. -/
theorem supplied_bind {β : Type} {name : String} {k : Nat} {v : Vec Extended}
    {f : Vec Extended → Except ModelError β} {rest : List (String × Nat × Option (Vec Extended))}
    {r : Except ModelError β}
    (h : f v = match rest.findSome? PartialInterior.misfit with
      | some name => .error (.invalidDimension name)
      | none => r) :
    (supplied name k (some v) >>= f) =
      match ((name, k, some v) :: rest).findSome? PartialInterior.misfit with
      | some name => .error (.invalidDimension name)
      | none => r := by
  rw [supplied_eq, List.findSome?_cons, PartialInterior.misfit]
  cases (some v).any fun w => decide (w.size ≠ k)
  · exact h
  · rfl

/-- A complete point, by its lengths and the check of the scaled point. -/
theorem presolveInterior_toPartial (M : Model Extended) (u : UserInterior Extended) :
    M.presolveInterior u.toPartial =
      if M.dualized then .error (.notImplemented "interior starting point for a dualized model")
      else
        match u.toPartial.firstMisfit M.program.numVar M.program.numConstr with
        | some name => .error (.invalidDimension name)
        | none => M.checkInterior (M.scaling.scaleInterior u) >>= fun _ =>
            .ok (M.solverInterior (M.scaling.scaleInterior u)) := by
  unfold presolveInterior
  simp only [UserInterior.toPartial, required]
  by_cases hdual : M.dualized = true
  · simp only [if_pos hdual]
    rfl
  · simp only [if_neg hdual]
    exact supplied_bind (supplied_bind (supplied_bind (supplied_bind (supplied_bind
      (supplied_bind (supplied_bind rfl))))))

/-- The vectors of an interior point, in the order in which they are looked at. -/
def vectorNames : List String := ["x", "xl", "xu", "slack", "y", "zl", "zu"]

/-- A starting point is refused for its first missing vector, for the dual form, for its first vector
of a wrong length, or because it is not compatible with the program, in this order, and accepted
otherwise. -/
theorem presolveInterior_outcome (hM : M.Loaded) (p : PartialInterior Extended) :
    (∀ name, p.firstMissing = some name →
      M.presolveInterior p = .error (.argumentNull name)) ∧
    (p.firstMissing = none → M.dualized = true → M.presolveInterior p =
      .error (.notImplemented "interior starting point for a dualized model")) ∧
    (p.firstMissing = none → M.dualized = false →
      (∀ name, p.firstMisfit M.program.numVar M.program.numConstr = some name →
        M.presolveInterior p = .error (.invalidDimension name)) ∧
      (p.firstMisfit M.program.numVar M.program.numConstr = none →
        ∃ u : UserInterior Extended, p = u.toPartial ∧
          (u.Admissible M.program → ∃ s, M.presolveInterior p = .ok s) ∧
          (¬ u.Admissible M.program → ∃ name ∈ vectorNames,
            M.presolveInterior p = .error (.invalidVector name)))) := by
  have hE := hM.exact
  refine ⟨fun name => presolveInterior_of_missing, fun hgiven hdual => ?_,
    fun hgiven hprimal => ?_⟩
  · obtain ⟨u, rfl⟩ := PartialInterior.exists_toPartial hgiven
    rw [presolveInterior_toPartial, if_pos hdual]
  obtain ⟨u, rfl⟩ := PartialInterior.exists_toPartial hgiven
  have hprimal : ¬ M.dualized = true := Bool.eq_false_iff.1 hprimal
  rw [presolveInterior_toPartial, if_neg hprimal]
  refine ⟨fun name hname => by rw [hname], fun hfits => ⟨u, rfl, ?_⟩⟩
  have hu := UserInterior.firstMisfit_eq_none_iff.1 hfits
  have hcheck := checkInterior_eq_ok_iff hE (Scaling.sized_scaleInterior hE.suits hu)
  rw [hE.image.admissible_iff (Scaling.scaled_scaleInterior hE.suits hE.positive_colscale
    hE.positive_rowscale hu)] at hcheck
  rw [hfits]
  refine ⟨fun hadm => ?_, fun hadm => ?_⟩
  · rw [hcheck.2 hadm]
    exact ⟨_, rfl⟩
  · rw [← hcheck, checkInterior_eq] at hadm
    obtain ⟨name, hname, herr⟩ := exists_demandAll_eq_error hadm
    rw [checkInterior_eq, herr]
    exact ⟨name, hname, rfl⟩

/-- A point compatible with `Program.mixed`, whose third variable has an upper bound only. -/
def mixedStart : UserInterior Extended where
  x := #[finite 1, finite (-5), finite 3, finite 2]
  xl := #[finite 2, top, top, finite 2]
  xu := #[finite 1, top, finite 4, top]
  slack := #[finite 3, finite (-1)]
  y := #[finite (-2), finite 0]
  zl := #[finite 1, finite 0, finite 0, finite 3]
  zu := #[finite 0, finite 0, finite 5, finite 0]

/-- The point itself, the point with the distances to the two bounds exchanged, and the point with a
short vector and without two others. -/
theorem presolveInterior_outcome_mixed :
    ∃ M : Model Extended, M.Loaded ∧ M.program = Program.mixed ∧
      (∃ s, M.presolveInterior mixedStart.toPartial = .ok s) ∧
      (∃ name ∈ vectorNames, M.presolveInterior
        { mixedStart with xl := mixedStart.xu, xu := mixedStart.xl }.toPartial =
          .error (.invalidVector name)) ∧
      M.presolveInterior { mixedStart with slack := #[undefined] }.toPartial =
        .error (.invalidDimension "slack") ∧
      M.presolveInterior { mixedStart.toPartial with xu := none, y := none } =
        .error (.argumentNull "xu") := by
  obtain ⟨M, hM, hP, hprimal⟩ := exists_loaded { dualize := .never } Program.valid_mixed
    (p := fun M => !M.dualized) (by decide +kernel)
  have hprimal : M.dualized = false := by simpa using hprimal
  have hcomplete : ∀ u : UserInterior Extended, u.toPartial.firstMissing = none := fun _ => rfl
  obtain ⟨u, hu, haccept, -⟩ := ((presolveInterior_outcome hM mixedStart.toPartial).2.2
    (hcomplete _) hprimal).2 (by rw [hP]; decide)
  obtain ⟨v, hv, -, hrefuse⟩ := ((presolveInterior_outcome hM
    { mixedStart with xl := mixedStart.xu, xu := mixedStart.xl }.toPartial).2.2
    (hcomplete _) hprimal).2 (by rw [hP]; decide)
  have hshort := ((presolveInterior_outcome hM
    { mixedStart with slack := #[undefined] }.toPartial).2.2 (hcomplete _) hprimal).1
  refine ⟨M, hM, hP, haccept ?_, hrefuse ?_, hshort _ (by rw [hP]; decide),
    (presolveInterior_outcome hM _).1 _ (by decide)⟩
  · obtain rfl := UserInterior.toPartial_injective hu
    rw [hP]
    decide +kernel
  · obtain rfl := UserInterior.toPartial_injective hv
    rw [hP]
    decide +kernel

end Model

end LpPresolve
