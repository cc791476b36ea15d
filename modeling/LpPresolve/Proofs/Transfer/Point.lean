import LpPresolve.Proofs.Model
import LpPresolve.Proofs.Scaling.Points
import LpPresolve.Transfer.Point

/-! Scaled points across the computational form. The solver's point for a scaled point fits the form,
and coming back from it restores the scaled point. In the dual form the reduced cost of a boxed
variable is cut into two nonnegative parts, one of them zero, and put together again. -/

namespace LpPresolve

variable {α : Type} [Scalar α]

namespace Model

variable {M : Model α} {u : UserPoint α}

theorem size_identityCosts (M : Model α) (y : Vec α) : (M.identityCosts y).size = M.rows := by
  simp [identityCosts]

/-! ### The parts of a reduced cost -/

/-- The reduced costs of the lower bounds, with no negative part for boxed variables. -/
def lowerCosts (M : Model α) (z : Vec α) : Vec α :=
  M.program.boxed.foldl (fun z j => z.modify j fun a => if a < 0 then 0 else a) z

/-- The reduced costs of the upper bounds of boxed variables. -/
def upperCosts (M : Model α) (z : Vec α) : Vec α :=
  (M.program.boxed.map fun j => if z.entry j < 0 then -z.entry j else 0).toArray

/-- The reduced costs with those of the upper bounds, from position `k` of `w` on, taken off. -/
def mergeCosts (M : Model α) (w : Vec α) (start : Nat) (z : Vec α) : Vec α :=
  M.program.boxed.zipIdx.foldl (fun z p => z.modify p.1 (· - w.entry (start + p.2))) z

@[simp] theorem size_lowerCosts (M : Model α) (z : Vec α) : (M.lowerCosts z).size = z.size := by
  unfold lowerCosts
  induction M.program.boxed generalizing z with
  | nil => rfl
  | cons j r ih => rw [List.foldl_cons, ih, Array.size_modify]

@[simp] theorem size_upperCosts (M : Model α) (z : Vec α) :
    (M.upperCosts z).size = M.program.boxed.length := by
  simp [upperCosts]

@[simp] theorem size_mergeCosts (M : Model α) (w : Vec α) (start : Nat) (z : Vec α) :
    (M.mergeCosts w start z).size = z.size :=
  Vec.size_foldl_zipIdx (g := fun z j k => z.modify j (· - w.entry (start + k)))
    (fun _ _ _ => Array.size_modify) _ 0 z

theorem entry_lowerCosts (hM : M.program.Valid) (z : Vec α) {j : Nat} (hj : j < z.size) :
    (M.lowerCosts z).entry j =
      if j ∈ M.program.boxed then (if z.entry j < 0 then 0 else z.entry j) else z.entry j :=
  Flips.entry_foldl_modify (fun a : α => if a < 0 then 0 else a)
    hM.nodup_boxed z hj

theorem entry_mergeCosts (hM : M.program.Valid) (w : Vec α) (start : Nat) (z : Vec α) {j : Nat}
    (hj : j < z.size) : (M.mergeCosts w start z).entry j =
      if j ∈ M.program.boxed then z.entry j - w.entry (start + M.program.boxed.idxOf j)
      else z.entry j := by
  have h := Vec.entry_foldl_zipIdx (f := fun k a => a - w.entry (start + k))
    (g := fun z j k => z.modify j (· - w.entry (start + k))) (fun _ _ _ => Array.size_modify)
    (fun v j k i hi => Vec.entry_modify v j _ hi)
    hM.nodup_boxed 0 z hj
  rw [Nat.zero_add] at h
  exact h

/-- The parts of the reduced costs add up to them. -/
theorem mergeCosts_lowerCosts (hM : M.program.Valid) (hzero : ∀ a : α, a < 0 → 0 - -a = a)
    (hsub : ∀ a : α, a - 0 = a) {w : Vec α} {start : Nat} {z : Vec α}
    (hw : ∀ k < M.program.boxed.length, w.entry (start + k) = (M.upperCosts z).entry k) :
    M.mergeCosts w start (M.lowerCosts z) = z := by
  apply Vec.ext_entry (by simp)
  intro j hj
  have hj : j < z.size := by simpa using hj
  rw [entry_mergeCosts hM _ _ _ (by simpa using hj), entry_lowerCosts hM _ hj]
  split_ifs with hb hneg
  · rw [hw _ (List.idxOf_lt_length_of_mem hb), upperCosts, Vec.entry_map_idxOf hb, if_pos hneg,
      hzero _ hneg]
  · rw [hw _ (List.idxOf_lt_length_of_mem hb), upperCosts, Vec.entry_map_idxOf hb, if_neg hneg,
      hsub]
  · rfl

/-! ### There and back -/

theorem solverPoint_primal (hk : M.form.kind = .primal) (u : UserPoint α) :
    M.solverPoint u = ⟨u.x ++ u.slack, u.y, u.z ++ M.identityCosts u.y⟩ := by
  simp only [solverPoint, hk]

theorem solverPoint_dual (hk : M.form.kind = .dual) (u : UserPoint α) :
    M.solverPoint u =
      { x := u.y ++ M.upperCosts u.z ++ M.lowerCosts u.z
        y := u.x.negate
        z := u.slack.negate ++ (M.program.boxed.zipIdx.map fun (j, k) =>
          M.form.c.entry (M.program.numConstr + k) + u.x.negate.entry j).toArray ++
            M.identityCosts u.x.negate } := by
  simp only [solverPoint, hk]
  rfl

theorem userPoint_primal (hk : M.form.kind = .primal) (s : SolverPoint α) :
    M.userPoint s =
      { x := s.x.extract 0 M.program.numVar
        slack := s.x.extract M.program.numVar s.x.size
        y := s.y
        z := s.z.extract 0 M.program.numVar } := by
  simp only [userPoint, hk]

theorem userPoint_dual (hk : M.form.kind = .dual) (s : SolverPoint α) :
    M.userPoint s =
      { x := s.y.negate
        slack := Vec.negate (s.z.extract 0 M.program.numConstr)
        y := s.x.extract 0 M.program.numConstr
        z := M.mergeCosts s.x M.program.numConstr (s.x.extract M.cols s.x.size) } := by
  simp only [userPoint, hk]
  rfl

theorem Regular.fits_solverPoint (hM : M.Regular)
    (hu : u.Sized M.program.numVar M.program.numConstr) :
    (M.solverPoint u).Fits M.rows M.cols := by
  obtain ⟨hx, hslack, hy, hz⟩ := hu
  rcases hM.form with hF | hF
  · rw [solverPoint_primal hF.kind_eq]
    simp [SolverPoint.Fits, size_identityCosts, hx, hslack, hy, hz, rows, cols, hF.rows_eq,
      hF.cols_eq]
  · rw [solverPoint_dual hF.kind_eq]
    simp [SolverPoint.Fits, size_identityCosts, hx, hslack, hy, hz, rows, cols, hF.rows_eq,
      hF.cols_eq, Nat.add_assoc]

theorem Regular.userPoint_solverPoint (hM : M.Regular)
    (hu : u.Sized M.program.numVar M.program.numConstr) (hneg : ∀ a : α, - -a = a)
    (hzero : ∀ a : α, a < 0 → 0 - -a = a) (hsub : ∀ a : α, a - 0 = a) :
    M.userPoint (M.solverPoint u) = u := by
  obtain ⟨hx, hslack, hy, hz⟩ := hu
  rcases hM.form with hF | hF
  · rw [solverPoint_primal hF.kind_eq, userPoint_primal hF.kind_eq]
    simp only [Vec.extract_append_left _ _ hx, Vec.extract_append_right _ _ hx,
      Vec.extract_append_left _ _ hz]
  · have hcols : (u.y ++ M.upperCosts u.z).size = M.cols := by
      simp [cols, hF.cols_eq, hy]
    have hupper : ∀ k < M.program.boxed.length,
        Vec.entry (u.y ++ M.upperCosts u.z ++ M.lowerCosts u.z) (M.program.numConstr + k) =
          (M.upperCosts u.z).entry k := by
      intro k hk
      rw [← hy, Vec.entry_append_left _ _ (by simpa using hk), Vec.entry_append_right]
    rw [solverPoint_dual hF.kind_eq, userPoint_dual hF.kind_eq]
    simp only [Vec.negate_negate hneg, Vec.extract_append_right _ _ hcols,
      mergeCosts_lowerCosts hM.valid hzero hsub hupper]
    simp only [Array.append_assoc, Vec.extract_append_left _ _ hy, Vec.negate_negate hneg,
      Vec.extract_append_left u.slack.negate _ ((Vec.size_negate u.slack).trans hslack)]

end Model

end LpPresolve
