import LpPresolve.Proofs.Model
import LpPresolve.Transfer.Basis
import Mathlib.Tactic.MkIffOfInductiveProp

/-! Bases across the computational form. A basis is refused if a column of the identity block is
superbasic or both columns of a boxed variable are basic. In the primal form a constraint or variable is
basic if its column is, in the dual form if none of its columns is, and this settles the number of basic
constraints and variables. -/

namespace LpPresolve

open BasisStatus

/-- The status in position `j` is basic. -/
def BasicAt (status : Array BasisStatus) (j : Nat) : Prop := status[j]? = some basic

instance (status : Array BasisStatus) (j : Nat) : Decidable (BasicAt status j) :=
  inferInstanceAs (Decidable (_ = _))

theorem BasicAt.lt_size {status : Array BasisStatus} {j : Nat} (h : BasicAt status j) :
    j < status.size :=
  (Array.getElem?_eq_some_iff.1 h).1

theorem isBasic_getD_iff {status : Array BasisStatus} {j : Nat} :
    (status.getD j nonbasicLower).isBasic = true ↔ BasicAt status j := by
  rw [Array.getD_eq_getD_getElem?, BasicAt]
  rcases status[j]? with _ | b
  · simp [isBasic]
  · simp [isBasic]

/-! ### Mirroring -/

theorem basicAt_modify_mirrored {status : Array BasisStatus} {j k : Nat} :
    BasicAt (status.modify k mirrored) j ↔ BasicAt status j := by
  rw [BasicAt, BasicAt, Array.getElem?_modify]
  split_ifs
  · rcases status[j]? with _ | b
    · simp
    · cases b <;> simp [mirrored]
  · rfl

theorem Flips.getElem?_mirrorStatus {F : Flips} (hF : F.indices.Nodup)
    (status : Array BasisStatus) (j : Nat) : (F.mirrorStatus status)[j]? =
      if j ∈ F.indices then status[j]?.map mirrored else status[j]? := by
  rw [mirrorStatus, getElem?_foldl_modify, hF.count]
  split_ifs <;> rfl

theorem Flips.basicAt_mirrorStatus (F : Flips) {status : Array BasisStatus} {j : Nat} :
    BasicAt (F.mirrorStatus status) j ↔ BasicAt status j := by
  unfold mirrorStatus
  induction F.indices generalizing status with
  | nil => rfl
  | cons k r ih => rw [List.foldl_cons, ih, basicAt_modify_mirrored]

/-! ### Upper bounds -/

namespace Model

theorem takeUpper?_eq (m : Nat) (basis status : Array BasisStatus) (j k : Nat) :
    takeUpper? m basis status j k =
      if BasicAt basis (m + k) then
        if BasicAt status j then some (status.setIfInBounds j nonbasicUpper) else none
      else some status := by
  simp only [takeUpper?, isBasic_getD_iff]

/-- The variables `js` whose upper bound has a basic column are moved there, for columns from
position `m + s` on. -/
def atUpper (m : Nat) (basis : Array BasisStatus) (js : List Nat) (s : Nat)
    (status : Array BasisStatus) : Array BasisStatus :=
  status.mapIdx fun j b =>
    if j ∈ js ∧ BasicAt basis (m + (s + js.idxOf j)) then nonbasicUpper else b

theorem getElem?_atUpper (m : Nat) (basis : Array BasisStatus) (js : List Nat) (s : Nat)
    (status : Array BasisStatus) (j : Nat) : (atUpper m basis js s status)[j]? =
      if j ∈ js ∧ BasicAt basis (m + (s + js.idxOf j)) then status[j]?.map fun _ => nonbasicUpper
      else status[j]? := by
  rw [atUpper, Array.getElem?_mapIdx]
  split_ifs
  · rfl
  · simp

theorem getElem?_atUpper_cons_of_ne (m : Nat) (basis : Array BasisStatus) {j i : Nat} (h : j ≠ i)
    (r : List Nat) (s : Nat) (status : Array BasisStatus) :
    (atUpper m basis (j :: r) s status)[i]? = (atUpper m basis r (s + 1) status)[i]? := by
  have hidx : (j :: r).idxOf i = r.idxOf i + 1 := by
    rw [List.idxOf_cons, beq_false_of_ne h, cond_false]
  have hpos : m + (s + (r.idxOf i + 1)) = m + (s + 1 + r.idxOf i) := by omega
  rw [getElem?_atUpper, getElem?_atUpper, hidx, hpos]
  simp [Ne.symm h]

theorem atUpper_cons_of_not_basicAt {m : Nat} {basis : Array BasisStatus} {j : Nat} {r : List Nat}
    (hj : j ∉ r) {s : Nat} (hb : ¬ BasicAt basis (m + s)) (status : Array BasisStatus) :
    atUpper m basis (j :: r) s status = atUpper m basis r (s + 1) status := by
  apply Array.ext_getElem?
  intro i
  by_cases h : j = i
  · subst h
    simp [getElem?_atUpper, hj, hb]
  · exact getElem?_atUpper_cons_of_ne m basis h r s status

theorem atUpper_cons_of_basicAt {m : Nat} {basis : Array BasisStatus} {j : Nat} {r : List Nat}
    (hj : j ∉ r) {s : Nat} (hb : BasicAt basis (m + s)) (status : Array BasisStatus) :
    atUpper m basis (j :: r) s status =
      atUpper m basis r (s + 1) (status.setIfInBounds j nonbasicUpper) := by
  apply Array.ext_getElem?
  intro i
  by_cases h : j = i
  · subst h
    by_cases hlt : j < status.size <;> simp [getElem?_atUpper, hj, hb, hlt]
  · rw [getElem?_atUpper_cons_of_ne m basis h, getElem?_atUpper, getElem?_atUpper,
      Array.getElem?_setIfInBounds_ne h]

/-- The loop over the boxed variables fails if and only if some variable that is to move to its upper
bound is not basic. -/
theorem foldlM_takeUpper? (m : Nat) (basis : Array BasisStatus) {js : List Nat} (hn : js.Nodup)
    (s : Nat) (status : Array BasisStatus) :
    (js.zipIdx s).foldlM (fun v p => takeUpper? m basis v p.1 p.2) status =
      if ∀ p ∈ js.zipIdx s, BasicAt basis (m + p.2) → BasicAt status p.1 then
        some (atUpper m basis js s status)
      else none := by
  induction js generalizing s status with
  | nil =>
    have hid : status.mapIdx (fun _ b => b) = status := by
      apply Array.ext_getElem?
      simp
    simp [atUpper, hid]
  | cons j r ih =>
    obtain ⟨hj, hr⟩ := List.nodup_cons.1 hn
    rw [List.zipIdx_cons, List.foldlM_cons, takeUpper?_eq]
    simp only [List.forall_mem_cons]
    by_cases hb : BasicAt basis (m + s)
    · by_cases hv : BasicAt status j
      · -- the variable is not among the rest, whose statuses are the same
        have hset : ∀ p ∈ r.zipIdx (s + 1),
            (BasicAt (status.setIfInBounds j nonbasicUpper) p.1 ↔ BasicAt status p.1) := by
          intro p hp
          have hne : j ≠ p.1 := fun h => hj (h ▸ List.fst_mem_of_mem_zipIdx hp)
          rw [BasicAt, BasicAt, Array.getElem?_setIfInBounds_ne hne]
        have hrest : (∀ p ∈ r.zipIdx (s + 1), BasicAt basis (m + p.2) →
            BasicAt (status.setIfInBounds j nonbasicUpper) p.1) ↔
              ∀ p ∈ r.zipIdx (s + 1), BasicAt basis (m + p.2) → BasicAt status p.1 :=
          forall₂_congr fun p hp => by rw [hset p hp]
        rw [if_pos hb, if_pos hv, Option.bind_eq_bind, Option.bind_some, ih hr,
          atUpper_cons_of_basicAt hj hb]
        exact if_congr (hrest.trans (and_iff_right fun _ => hv).symm) rfl rfl
      · simp [hb, hv]
    · rw [if_neg hb, Option.bind_eq_bind, Option.bind_some, ih hr,
        atUpper_cons_of_not_basicAt hj hb]
      exact if_congr (and_iff_right fun h => absurd h hb).symm rfl rfl

/-! ### Accepted bases -/

variable {α : Type} [Scalar α] {M : Model α} {basis : Array BasisStatus}

/-- A basis has one status for each column, none in the identity block is superbasic, and in the
dual form no boxed variable has two basic columns. -/
@[mk_iff]
structure Accepts (M : Model α) (basis : Array BasisStatus) : Prop where
  size : basis.size = M.cols + M.rows
  identity : ∀ k < M.rows, basis[M.cols + k]? ≠ some superbasic
  bounds : M.dualized = true → ∀ p ∈ M.program.boxed.zipIdx,
    BasicAt basis (M.program.numConstr + p.2) → ¬ BasicAt basis (M.cols + p.1)

instance (M : Model α) (basis : Array BasisStatus) : Decidable (M.Accepts basis) :=
  decidable_of_iff _ (accepts_iff M basis).symm

/-- The basis of the scaled program, for one that is accepted. -/
def userBasis (M : Model α) (basis : Array BasisStatus) : Basis :=
  let identity := basis.extract M.cols basis.size
  match M.form.kind with
  | .primal => {
      constrStatus := identity.map fun b => if b.isBasic then .basic else .nonbasic
      varStatus := basis.extract 0 M.program.numVar }
  | .dual => {
      constrStatus := (basis.extract 0 M.program.numConstr).map fun b =>
        if b.isBasic then .nonbasic else .basic
      varStatus := atUpper M.program.numConstr basis M.program.boxed 0
        (identity.mapIdx M.lowerStatus) }

omit [Scalar α] in
theorem getElem?_identity (hs : basis.size = M.cols + M.rows) {k : Nat} (hk : k < M.rows) :
    (basis.extract M.cols basis.size)[k]? = basis[M.cols + k]? := by
  rw [Array.getElem?_extract, if_pos (by omega)]

omit [Scalar α] in
theorem contains_superbasic_iff (hs : basis.size = M.cols + M.rows) :
    (basis.extract M.cols basis.size).contains superbasic = true ↔
      ¬ ∀ k < M.rows, basis[M.cols + k]? ≠ some superbasic := by
  rw [Array.contains_iff_mem, Array.mem_iff_getElem?]
  push Not
  constructor
  · rintro ⟨k, hk⟩
    have hlt := (Array.getElem?_eq_some_iff.1 hk).1
    have hk' : k < M.rows := by
      rw [Array.size_extract] at hlt
      omega
    exact ⟨k, hk', getElem?_identity hs hk' ▸ hk⟩
  · rintro ⟨k, hk, h⟩
    exact ⟨k, (getElem?_identity hs hk).trans h⟩

theorem basicAt_lowerStatus (hs : basis.size = M.cols + M.rows) {j : Nat} (hj : j < M.rows) :
    BasicAt ((basis.extract M.cols basis.size).mapIdx M.lowerStatus) j ↔
      ¬ BasicAt basis (M.cols + j) := by
  have hlt : M.cols + j < basis.size := by omega
  rw [BasicAt, BasicAt, Array.getElem?_mapIdx, getElem?_identity hs hj,
    Array.getElem?_eq_getElem hlt, Option.map_some, Option.some_inj, Option.some_inj, lowerStatus,
    isBasic]
  by_cases hb : basis[M.cols + j] = basic
  · rw [hb, if_pos (by rfl)]
    split_ifs <;> simp
  · rw [if_neg (by simpa using hb)]
    simp [hb]

theorem userBasis?_primal (hk : M.form.kind = .primal)
    (hid : (basis.extract M.cols basis.size).contains superbasic = false) :
    M.userBasis? basis = some (M.userBasis basis) := by
  unfold userBasis? userBasis
  simp only [hid, hk]
  rfl

/-- In the dual form the loop over the boxed variables asks that no other column of theirs is
basic. -/
theorem userBasis?_dual (hF : Form.IsDual M.program M.scaled M.form) (hM : M.program.Valid)
    (hs : basis.size = M.cols + M.rows)
    (hid : (basis.extract M.cols basis.size).contains superbasic = false) :
    M.userBasis? basis = if ∀ p ∈ M.program.boxed.zipIdx,
        BasicAt basis (M.program.numConstr + p.2) → ¬ BasicAt basis (M.cols + p.1) then
      some (M.userBasis basis) else none := by
  have hrows : M.rows = M.program.numVar := hF.rows_eq
  have hboxed : ∀ p ∈ M.program.boxed.zipIdx,
      (BasicAt ((basis.extract M.cols basis.size).mapIdx M.lowerStatus) p.1 ↔
        ¬ BasicAt basis (M.cols + p.1)) := fun p hp =>
    basicAt_lowerStatus hs (hrows.symm ▸ hM.lt_of_mem_boxed (List.fst_mem_of_mem_zipIdx hp))
  have hloop := foldlM_takeUpper? M.program.numConstr basis hM.nodup_boxed 0
    ((basis.extract M.cols basis.size).mapIdx M.lowerStatus)
  unfold userBasis? userBasis
  simp only [hid, hF.kind_eq]
  refine (congrArg (· >>= _) hloop).trans ?_
  by_cases hb : ∀ p ∈ M.program.boxed.zipIdx,
      BasicAt basis (M.program.numConstr + p.2) → ¬ BasicAt basis (M.cols + p.1)
  · rw [if_pos hb, if_pos fun p hp h => (hboxed p hp).2 (hb p hp h)]
    rfl
  · rw [if_neg hb, if_neg fun h => hb fun p hp hup => (hboxed p hp).1 (h p hp hup)]
    rfl

/-- Among the bases with one status for each column exactly the accepted ones have a basis of the
scaled program. -/
theorem Regular.userBasis?_eq (hM : M.Regular) (hs : basis.size = M.cols + M.rows) :
    M.userBasis? basis = if M.Accepts basis then some (M.userBasis basis) else none := by
  by_cases hid : ∀ k < M.rows, basis[M.cols + k]? ≠ some superbasic
  · have hcontains : (basis.extract M.cols basis.size).contains superbasic = false :=
      Bool.eq_false_iff.2 fun h => (contains_superbasic_iff hs).1 h hid
    rcases hM.form with hF | hF
    · have hkind := dualized_of_isPrimal hF
      have hacc : M.Accepts basis := ⟨hs, hid, fun h => Bool.noConfusion (hkind.symm.trans h)⟩
      rw [userBasis?_primal hF.kind_eq hcontains, if_pos hacc]
    · have hkind := dualized_of_isDual hF
      rw [userBasis?_dual hF hM.valid hs hcontains]
      exact if_congr ⟨fun hb => ⟨hs, hid, fun _ => hb⟩, fun h => h.bounds hkind⟩ rfl rfl
  · have hcontains := (contains_superbasic_iff hs).2 hid
    rw [if_neg fun h : M.Accepts basis => hid h.identity, userBasis?, if_pos hcontains]

/-- Postsolving a basis fails exactly if the basis is not accepted. -/
theorem Regular.postsolveBasis?_eq (hM : M.Regular) (basis : Array BasisStatus) :
    M.postsolveBasis? basis =
      if M.Accepts basis then some (M.scaling.unscaleBasis (M.userBasis basis)) else none := by
  rw [postsolveBasis?]
  by_cases hs : basis.size = M.cols + M.rows
  · rw [if_pos hs, hM.userBasis?_eq hs]
    by_cases h : M.Accepts basis
    · rw [if_pos h, if_pos h]
      rfl
    · rw [if_neg h, if_neg h]
      rfl
  · rw [if_neg hs, if_neg fun h : M.Accepts basis => hs h.size]

/-! ### Basic constraints and variables -/

theorem Accepts.size_userBasis (hM : M.Regular) (h : M.Accepts basis) :
    (M.userBasis basis).constrStatus.size = M.program.numConstr ∧
      (M.userBasis basis).varStatus.size = M.program.numVar := by
  have hs := h.size
  rw [cols, rows] at hs
  unfold userBasis
  rcases hM.form with hF | hF
  · rw [hF.cols_eq, hF.rows_eq] at hs
    simp only [hF.kind_eq]
    simp [cols, hF.cols_eq, hs]
  · rw [hF.cols_eq, hF.rows_eq] at hs
    simp only [hF.kind_eq]
    simp [atUpper, cols, hF.cols_eq, hs]
    omega

/-- In the primal form constraints and variables are basic where their columns are. -/
theorem Accepts.basicAt_primal (hF : Form.IsPrimal M.program M.scaled M.form)
    (h : M.Accepts basis) :
    (∀ i < M.program.numConstr, (M.userBasis basis).constrStatus[i]? = some .basic ↔
      BasicAt basis (M.program.numVar + i)) ∧
    ∀ j < M.program.numVar, BasicAt (M.userBasis basis).varStatus j ↔ BasicAt basis j := by
  have hs := h.size
  have hcols : M.cols = M.program.numVar := hF.cols_eq
  have hrows : M.rows = M.program.numConstr := hF.rows_eq
  unfold userBasis
  simp only [hF.kind_eq]
  refine ⟨fun i hi => ?_, fun j hj => ?_⟩
  · have hi' : i < M.rows := hrows.symm ▸ hi
    rw [Array.getElem?_map, getElem?_identity hs hi', hcols, BasicAt]
    rcases basis[M.program.numVar + i]? with _ | b
    · simp
    · cases b <;> simp [isBasic]
  · rw [BasicAt, BasicAt, Array.getElem?_extract, if_pos (by omega), Nat.zero_add]

/-- In the dual form they are basic where none of their columns is. -/
theorem Accepts.basicAt_dual (hF : Form.IsDual M.program M.scaled M.form) (h : M.Accepts basis) :
    (∀ i < M.program.numConstr, (M.userBasis basis).constrStatus[i]? = some .basic ↔
      ¬ BasicAt basis i) ∧
    ∀ j < M.program.numVar, BasicAt (M.userBasis basis).varStatus j ↔
      ¬ BasicAt basis (M.cols + j) ∧ ¬ (j ∈ M.program.boxed ∧
        BasicAt basis (M.program.numConstr + M.program.boxed.idxOf j)) := by
  have hs := h.size
  have hcols : M.cols = M.program.numConstr + M.program.boxed.length := hF.cols_eq
  have hrows : M.rows = M.program.numVar := hF.rows_eq
  unfold userBasis
  simp only [hF.kind_eq]
  refine ⟨fun i hi => ?_, fun j hj => ?_⟩
  · rw [Array.getElem?_map, Array.getElem?_extract, if_pos (by omega), Nat.zero_add, BasicAt,
      Array.getElem?_eq_getElem (by omega)]
    cases basis[i] <;> simp [isBasic]
  · have hlower := basicAt_lowerStatus hs (j := j) (hrows.symm ▸ hj)
    rw [BasicAt, getElem?_atUpper, Nat.zero_add]
    split_ifs with hup
    · refine iff_of_false (fun hmap => ?_) fun hnot => hnot.2 hup
      obtain ⟨b, -, hb⟩ := Option.map_eq_some_iff.1 hmap
      exact BasisStatus.noConfusion hb
    · rw [and_iff_left hup]
      exact hlower

theorem lowerStatus_ne_nonbasicUpper (j : Nat) (b : BasisStatus) :
    M.lowerStatus j b ≠ nonbasicUpper := by
  unfold lowerStatus
  split_ifs <;> exact BasisStatus.noConfusion

theorem lowerStatus_eq_nonbasicLower {j : Nat} {b : BasisStatus}
    (h : M.lowerStatus j b = nonbasicLower) :
    b = basic ∧ Scalar.isFinite (M.scaled.lb.entry j) = true := by
  unfold lowerStatus at h
  split_ifs at h with hb hfin
  exact ⟨beq_iff_eq.1 hb, hfin⟩

/-- In the dual form a variable is at a bound only if the column of that bound is basic. -/
theorem basicAt_of_varStatus (hF : Form.IsDual M.program M.scaled M.form) {j : Nat} :
    ((M.userBasis basis).varStatus[j]? = some nonbasicLower →
      BasicAt basis (M.cols + j) ∧ Scalar.isFinite (M.scaled.lb.entry j) = true) ∧
    ((M.userBasis basis).varStatus[j]? = some nonbasicUpper →
      j ∈ M.program.boxed ∧ BasicAt basis (M.program.numConstr + M.program.boxed.idxOf j)) := by
  unfold userBasis
  simp only [hF.kind_eq]
  rw [getElem?_atUpper, Array.getElem?_mapIdx, Nat.zero_add]
  split_ifs with hup
  · refine ⟨fun hst => ?_, fun _ => hup⟩
    obtain ⟨b, -, hb⟩ := Option.map_eq_some_iff.1 hst
    exact BasisStatus.noConfusion hb
  · refine ⟨fun hst => ?_, fun hst => ?_⟩
    · obtain ⟨b, hget, hb⟩ := Option.map_eq_some_iff.1 hst
      obtain ⟨rfl, hfin⟩ := lowerStatus_eq_nonbasicLower hb
      rw [Array.getElem?_extract] at hget
      split_ifs at hget
      exact ⟨hget, hfin⟩
    · obtain ⟨b, -, hb⟩ := Option.map_eq_some_iff.1 hst
      exact absurd hb (lowerStatus_ne_nonbasicUpper j b)

end Model

/-! ### Numbers of basic members -/

/-- The number of basic constraints and variables. -/
def Basis.numBasic (B : Basis) : Nat := B.constrStatus.count .basic + B.varStatus.count .basic

theorem count_eq_sum {β : Type} [DecidableEq β] (v : Array β) (a : β) :
    v.count a = ∑ i ∈ Finset.range v.size, if v[i]? = some a then 1 else 0 := by
  obtain ⟨l⟩ := v
  simp only [List.count_toArray, List.size_toArray, List.getElem?_toArray]
  induction l with
  | nil => rfl
  | cons b r ih =>
    rw [List.count_cons, ih, List.length_cons, Finset.sum_range_succ']
    simp

theorem count_basic_eq_sum (status : Array BasisStatus) :
    status.count basic = ∑ j ∈ Finset.range status.size, if BasicAt status j then 1 else 0 :=
  count_eq_sum status basic

theorem Scaling.numBasic_unscaleBasis {α : Type} [Scalar α] (S : Scaling α) (B : Basis) :
    (S.unscaleBasis B).numBasic = B.numBasic := by
  unfold Basis.numBasic Scaling.unscaleBasis
  rw [count_basic_eq_sum, count_basic_eq_sum, Flips.size_mirrorStatus]
  simp only [Flips.basicAt_mirrorStatus]

namespace Model

variable {α : Type} [Scalar α] {M : Model α} {basis : Array BasisStatus}

theorem Accepts.numBasic_primal (hM : M.Regular) (hF : Form.IsPrimal M.program M.scaled M.form)
    (h : M.Accepts basis) : (M.userBasis basis).numBasic = basis.count basic := by
  have hs : basis.size = M.program.numVar + M.program.numConstr := by
    rw [h.size, cols, rows, hF.cols_eq, hF.rows_eq]
  obtain ⟨hm, hn⟩ := h.size_userBasis hM
  obtain ⟨hconstr, hvar⟩ := h.basicAt_primal hF
  rw [Basis.numBasic, count_eq_sum, count_basic_eq_sum, count_basic_eq_sum, hm, hn, hs,
    Finset.sum_range_add, add_comm]
  congr 1
  · apply Finset.sum_congr rfl
    intro j hj
    rw [if_congr (hvar j (Finset.mem_range.1 hj)) rfl rfl]
  · apply Finset.sum_congr rfl
    intro i hi
    rw [if_congr (hconstr i (Finset.mem_range.1 hi)) rfl rfl]

/-- Each constraint or variable is basic, or exactly one of its columns is. -/
theorem Accepts.numBasic_dual (hM : M.Regular) (hF : Form.IsDual M.program M.scaled M.form)
    (h : M.Accepts basis) : (M.userBasis basis).numBasic + basis.count basic =
      M.program.numConstr + M.program.numVar := by
  have hcols : M.cols = M.program.numConstr + M.program.boxed.length := hF.cols_eq
  have hs : basis.size = M.program.numConstr + M.program.boxed.length + M.program.numVar := by
    rw [h.size, cols, rows, hF.cols_eq, hF.rows_eq]
  have hkind := dualized_of_isDual hF
  obtain ⟨hm, hn⟩ := h.size_userBasis hM
  obtain ⟨hconstr, hvar⟩ := h.basicAt_dual hF
  have hrows : ∑ i ∈ Finset.range M.program.numConstr,
        (if (M.userBasis basis).constrStatus[i]? = some .basic then 1 else 0) +
      ∑ i ∈ Finset.range M.program.numConstr, (if BasicAt basis i then 1 else 0) =
        M.program.numConstr := by
    rw [← Finset.sum_add_distrib]
    refine (Finset.sum_congr rfl fun i hi => ?_).trans (Finset.sum_const 1 |>.trans (by simp))
    rw [if_congr (hconstr i (Finset.mem_range.1 hi)) rfl rfl]
    split_ifs <;> rfl
  have hcolumns : ∑ j ∈ Finset.range M.program.numVar,
        (if BasicAt (M.userBasis basis).varStatus j then 1 else 0) +
      (∑ j ∈ Finset.range M.program.numVar, (if BasicAt basis (M.cols + j) then 1 else 0) +
        ∑ k ∈ Finset.range M.program.boxed.length,
          (if BasicAt basis (M.program.numConstr + k) then 1 else 0)) = M.program.numVar := by
    rw [← hM.valid.sum_boxed, ← Finset.sum_add_distrib, ← Finset.sum_add_distrib]
    refine (Finset.sum_congr rfl fun j hj => ?_).trans (Finset.sum_const 1 |>.trans (by simp))
    -- at most one column of the variable is basic
    have hboth : j ∈ M.program.boxed ∧
        BasicAt basis (M.program.numConstr + M.program.boxed.idxOf j) →
          ¬ BasicAt basis (M.cols + j) := by
      rintro ⟨hb, hup⟩
      have hk := hM.valid.getElem?_boxed_iff.2 ⟨hb, rfl⟩
      exact h.bounds hkind _ (List.mk_mem_zipIdx_iff_getElem?.2 hk) hup
    rw [if_congr (hvar j (Finset.mem_range.1 hj)) rfl rfl, ← ite_and]
    by_cases hup : j ∈ M.program.boxed ∧
        BasicAt basis (M.program.numConstr + M.program.boxed.idxOf j)
    · simp [hboth hup, hup]
    · by_cases hlow : BasicAt basis (M.cols + j) <;> simp [hlow, hup]
  rw [Basis.numBasic, count_eq_sum, count_basic_eq_sum, count_basic_eq_sum, hm, hn, hs,
    Finset.sum_range_add, Finset.sum_range_add, ← hcols]
  omega

theorem not_accepts_iff : ¬ M.Accepts basis ↔
    basis.size ≠ M.cols + M.rows ∨ (∃ k < M.rows, basis[M.cols + k]? = some superbasic) ∨
      M.dualized = true ∧ ∃ j k, M.program.boxed[k]? = some j ∧
        BasicAt basis (M.program.numConstr + k) ∧ BasicAt basis (M.cols + j) := by
  have hboth : (∀ p ∈ M.program.boxed.zipIdx, BasicAt basis (M.program.numConstr + p.2) →
      ¬ BasicAt basis (M.cols + p.1)) ↔ ¬ ∃ j k, M.program.boxed[k]? = some j ∧
        BasicAt basis (M.program.numConstr + k) ∧ BasicAt basis (M.cols + j) := by
    simp only [Prod.forall, List.mk_mem_zipIdx_iff_getElem?, not_exists, not_and]
  have hidentity : (∀ k < M.rows, basis[M.cols + k]? ≠ some superbasic) ↔
      ¬ ∃ k < M.rows, basis[M.cols + k]? = some superbasic := by
    simp only [ne_eq, not_exists, not_and]
  rw [accepts_iff, hboth, hidentity, not_and_or, not_and_or, not_not, Classical.not_imp, not_not]

/-- Postsolving a basis fails in three cases only. Otherwise the primal form keeps the number of basic
members, and the dual form complements it, whatever that number is. -/
theorem postsolveBasis?_numBasic (hM : M.Loaded) (basis : Array BasisStatus) :
    (M.postsolveBasis? basis = none ↔
      basis.size ≠ M.cols + M.rows ∨ (∃ k < M.rows, basis[M.cols + k]? = some superbasic) ∨
        M.dualized = true ∧ ∃ j k, M.program.boxed[k]? = some j ∧
          BasicAt basis (M.program.numConstr + k) ∧ BasicAt basis (M.cols + j)) ∧
    ∀ B, M.postsolveBasis? basis = some B →
      B.constrStatus.size = M.program.numConstr ∧ B.varStatus.size = M.program.numVar ∧
      (M.dualized = false → B.numBasic = basis.count basic) ∧
      (M.dualized = true →
        B.numBasic + basis.count basic = M.program.numConstr + M.program.numVar) := by
  have hreg := hM.regular
  rw [hreg.postsolveBasis?_eq, ← not_accepts_iff]
  by_cases hacc : M.Accepts basis
  · rw [if_pos hacc]
    refine ⟨iff_of_false nofun fun h => h hacc, fun B hB => ?_⟩
    obtain rfl := Option.some.inj hB
    obtain ⟨hconstr, hvar⟩ := hacc.size_userBasis hreg
    refine ⟨hconstr, (Flips.size_mirrorStatus _ _).trans hvar, fun hkind => ?_, fun hkind => ?_⟩
    · rw [M.scaling.numBasic_unscaleBasis, hacc.numBasic_primal hreg (hreg.isPrimal hkind)]
    · rw [M.scaling.numBasic_unscaleBasis, hacc.numBasic_dual hreg (hreg.isDual hkind)]
  · rw [if_neg hacc]
    exact ⟨iff_of_true rfl hacc, nofun⟩

/-- Three basic columns, one fewer than the dual form has rows, leave three basic members. Both columns
of the boxed variable cannot be basic. -/
theorem postsolveBasis?_numBasic_mixed :
    ∃ M : Model Extended, M.Loaded ∧ M.program = Program.mixed ∧
      (∃ B, M.postsolveBasis? #[nonbasicLower, basic, basic, nonbasicLower, nonbasicUpper,
        nonbasicLower, basic] = some B ∧ B.numBasic + 3 = 6) ∧
      M.postsolveBasis? #[nonbasicLower, basic, basic, basic, nonbasicUpper, nonbasicLower,
        basic] = none := by
  obtain ⟨M, hM, hP, hp⟩ := exists_loaded { dualize := .always } Program.valid_mixed
    (p := fun M => decide (M.dualized = true ∧ (M.postsolveBasis? #[nonbasicLower, basic, basic,
      nonbasicLower, nonbasicUpper, nonbasicLower, basic]).isSome = true ∧ M.cols = 3))
    (by decide +kernel)
  obtain ⟨hdual, hsome, hcols⟩ := of_decide_eq_true hp
  obtain ⟨B, hB⟩ := Option.isSome_iff_exists.1 hsome
  obtain ⟨-, -, -, hcount⟩ := (postsolveBasis?_numBasic hM _).2 B hB
  refine ⟨M, hM, hP, ⟨B, hB, ?_⟩, (postsolveBasis?_numBasic hM _).1.2 (.inr (.inr
    ⟨hdual, 0, 0, ?_, ?_, ?_⟩))⟩
  · rw [hP] at hcount
    exact hcount hdual
  · rw [hP]
    decide
  · rw [hP]
    decide
  · rw [hcols]
    decide

end Model

end LpPresolve
