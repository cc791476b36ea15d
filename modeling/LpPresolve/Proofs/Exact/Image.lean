import LpPresolve.Proofs.Exact.Equilibration
import LpPresolve.Proofs.Model
import LpPresolve.Proofs.Scaling.Points

/-! The scaled program as an image of the user's. Constraint `i` is multiplied by a positive factor
`r i` and variable `j` divided by a nonzero one `d j`, whose sign tells whether the variable is
flipped; a negative factor exchanges the bounds. Flipping gives such an image, and the factors of the
equilibration are multiplied into it. -/

namespace LpPresolve

open Extended

namespace Program

/-! ### Programs with finite data -/

/-- All data are finite, except for bounds that are infinite on their own side. -/
structure Exact (P : Program Extended) : Prop where
  layout : P.A.Layout
  finite_A : P.A.Finite
  size_types : P.types.size = P.numConstr
  size_rhs : P.rhs.size = P.numConstr
  size_obj : P.obj.size = P.numVar
  size_lb : P.lb.size = P.numVar
  size_ub : P.ub.size = P.numVar
  finite_rhs : P.rhs.isFinite = true
  finite_obj : P.obj.isFinite = true
  lower : ∀ j < P.numVar, Scalar.isFinite (P.lb.entry j) = true ∨ P.lb.entry j = bottom
  upper : ∀ j < P.numVar, Scalar.isFinite (P.ub.entry j) = true ∨ P.ub.entry j = top

theorem bounds_of_checkBound {l u : Extended} (h : checkBound l u = .ok ()) :
    (Scalar.isFinite l = true ∨ l = bottom) ∧ (Scalar.isFinite u = true ∨ u = top) := by
  rw [checkBound, ite_error_eq_ok_iff, ite_error_eq_ok_iff] at h
  obtain ⟨hl, hu, -⟩ := h
  constructor
  · cases l with
    | finite q => exact .inl rfl
    | bottom => exact .inr rfl
    | undefined | top => exact absurd rfl hl
  · cases u with
    | finite q => exact .inl rfl
    | top => exact .inr rfl
    | undefined | bottom => exact absurd rfl hu

theorem not_upper_lt_lower_of_checkBound {l u : Extended} (h : checkBound l u = .ok ()) :
    ¬ u < l := by
  rw [checkBound, ite_error_eq_ok_iff, ite_error_eq_ok_iff, ite_error_eq_ok_iff] at h
  exact h.2.2.1

theorem Valid.exact {P : Program Extended} (h : P.Valid) : P.Exact where
  layout := h.wellFormed.layout
  finite_A := h.wellFormed.finite_column
  size_types := h.size_types
  size_rhs := h.size_rhs
  size_obj := h.size_obj
  size_lb := h.size_lb
  size_ub := h.size_ub
  finite_rhs := h.finite_rhs
  finite_obj := h.finite_obj
  lower j hj := (bounds_of_checkBound (h.bound j hj)).1
  upper j hj := (bounds_of_checkBound (h.bound j hj)).2

/-! ### Images -/

/-- The program `Q` is `P` with constraint `i` times `r i` and variable `j` over `d j`. -/
structure Image (P Q : Program Extended) (r d : Nat → Rat) : Prop where
  source : P.Exact
  target : Q.Exact
  numConstr_eq : Q.numConstr = P.numConstr
  numVar_eq : Q.numVar = P.numVar
  types_eq : Q.types = P.types
  offset_eq : Q.offset = P.offset
  row_pos : ∀ i < P.numConstr, 0 < r i
  col_ne : ∀ j < P.numVar, d j ≠ 0
  value : ∀ i < P.numConstr, ∀ j < P.numVar, Q.A.value i j = r i * P.A.value i j * d j
  obj : ∀ j < P.numVar, Q.obj.value j = P.obj.value j * d j
  rhs : ∀ i < P.numConstr, Q.rhs.value i = r i * P.rhs.value i
  lb : ∀ j < P.numVar,
    Q.lb.entry j = (if 0 < d j then P.lb.entry j else P.ub.entry j) / finite (d j)
  ub : ∀ j < P.numVar,
    Q.ub.entry j = (if 0 < d j then P.ub.entry j else P.lb.entry j) / finite (d j)

namespace Image

variable {P Q : Program Extended} {r d : Nat → Rat}

theorem congr (h : Image P Q r d) {r' d' : Nat → Rat} (hr : ∀ i < P.numConstr, r' i = r i)
    (hd : ∀ j < P.numVar, d' j = d j) : Image P Q r' d' :=
  { h with
    row_pos := fun i hi => hr i hi ▸ h.row_pos i hi
    col_ne := fun j hj => hd j hj ▸ h.col_ne j hj
    value := fun i hi j hj => by rw [hr i hi, hd j hj, h.value i hi j hj]
    obj := fun j hj => by rw [hd j hj, h.obj j hj]
    rhs := fun i hi => by rw [hr i hi, h.rhs i hi]
    lb := fun j hj => by rw [hd j hj, h.lb j hj]
    ub := fun j hj => by rw [hd j hj, h.ub j hj] }

theorem rowDot_eq (h : Image P Q r d) {i : Nat} (hi : i < P.numConstr) {x x' : Nat → Rat}
    (hx : ∀ j < P.numVar, x' j * d j = x j) : Q.A.rowDot i x' = r i * P.A.rowDot i x := by
  have hcols : Q.A.cols = P.A.cols := h.numVar_eq
  unfold Csc.rowDot
  rw [hcols, Finset.mul_sum]
  apply Finset.sum_congr rfl
  intro j hj
  have hj : j < P.numVar := Finset.mem_range.1 hj
  rw [h.value i hi j hj, ← hx j hj]
  ring

theorem colDot_eq (h : Image P Q r d) {j : Nat} (hj : j < P.numVar) {y y' : Nat → Rat}
    (hy : ∀ i < P.numConstr, r i * y' i = y i) : Q.A.colDot j y' = P.A.colDot j y * d j := by
  have hrows : Q.A.rows = P.A.rows := h.numConstr_eq
  unfold Csc.colDot
  rw [hrows, Finset.sum_mul]
  apply Finset.sum_congr rfl
  intro i hi
  have hi : i < P.numConstr := Finset.mem_range.1 hi
  rw [h.value i hi j hj, ← hy i hi]
  ring

theorem upper_lt_lower_iff {l u : Extended} (hl : Scalar.isFinite l = true ∨ l = bottom)
    (hu : Scalar.isFinite u = true ∨ u = top) :
    u < l ↔ ∃ a b, l = finite a ∧ u = finite b ∧ b < a := by
  rcases hl with hl | rfl
  · obtain ⟨a, rfl⟩ : ∃ a, l = finite a := ⟨_, eq_finite_value hl⟩
    rcases hu with hu | rfl
    · obtain ⟨b, rfl⟩ : ∃ b, u = finite b := ⟨_, eq_finite_value hu⟩
      simp
    · simp
  · rcases hu with hu | rfl
    · obtain ⟨b, rfl⟩ : ∃ b, u = finite b := ⟨_, eq_finite_value hu⟩
      simp
    · exact iff_of_false Bool.false_ne_true (by simp)

/-- Bounds in order are in order in the image. -/
theorem not_upper_lt_lower (h : P.Image Q r d) {j : Nat} (hj : j < P.numVar)
    (hP : ¬ P.ub.entry j < P.lb.entry j) : ¬ Q.ub.entry j < Q.lb.entry j := by
  have hj' : j < Q.numVar := h.numVar_eq.symm ▸ hj
  have hne := h.col_ne j hj
  rw [upper_lt_lower_iff (h.target.lower j hj') (h.target.upper j hj')]
  rintro ⟨a, b, ha, hb, hlt⟩
  rw [h.lb j hj, div_eq_finite_iff hne] at ha
  rw [h.ub j hj, div_eq_finite_iff hne] at hb
  apply hP
  split_ifs at ha hb with hd
  · rw [ha, hb, finite_lt_finite]
    exact mul_lt_mul_of_pos_right hlt hd
  · rw [ha, hb, finite_lt_finite]
    exact mul_lt_mul_of_neg_right hlt (lt_of_le_of_ne (not_lt.1 hd) hne)

end Image

end Program

/-! ### The scaled program -/

/-- A scaled copy as a program. -/
def ScaledProgram.program (P : Program Extended) (S : ScaledProgram Extended) :
    Program Extended :=
  { P with A := S.A, obj := S.obj, rhs := S.rhs, lb := S.lb, ub := S.ub }

namespace ScaledProgram

variable {P : Program Extended}

theorem upperOnly_iff {l u : Extended} (hl : Scalar.isFinite l = true ∨ l = bottom) :
    upperOnly l u = true ↔ Scalar.isFinite u = true ∧ l = bottom := by
  rw [upperOnly, Bool.and_eq_true]
  rcases hl with h | rfl
  · rw [eq_finite_value h]
    exact ⟨fun hu => absurd hu.2 Bool.false_ne_true, fun hu => absurd hu.2 (by simp)⟩
  · exact ⟨fun hu => ⟨hu.1, rfl⟩, fun hu => ⟨hu.1, rfl⟩⟩

/-- The factor of a variable of the flipped program. -/
def flipSign (P : Program Extended) (j : Nat) : Rat :=
  if j ∈ (flips P).indices then -1 else 1

theorem lb_flipped (hP : P.Valid) (B : Csc Extended) {j : Nat} (hj : j < P.numVar) :
    (flipped P B).lb.entry j =
      (if 0 < flipSign P j then P.lb.entry j else P.ub.entry j) / finite (flipSign P j) := by
  have hlb := hP.exact.lower j hj
  have hmem := mem_flips hP.size_lb hP.size_ub (j := j)
  rw [flipped, Vec.entry_zipWith _ _ _ (P.lb.getElem?_eq_some_entry (hP.size_lb.symm ▸ hj))
    (hP.size_ub.symm ▸ hj)]
  by_cases h : upperOnly (P.lb.entry j) (P.ub.entry j) = true
  · have hu := ((upperOnly_iff hlb).1 h).1
    have hd : flipSign P j = -1 := if_pos (hmem.2 ⟨hj, h⟩)
    rw [if_pos h, hd, if_neg (by norm_num), eq_finite_value hu,
      finite_div_finite _ (by norm_num), neg_finite, div_neg, div_one]
  · have hd : flipSign P j = 1 := if_neg fun hm => h (hmem.1 hm).2
    rw [if_neg h, hd, if_pos one_pos]
    rcases hlb with hl | hl
    · rw [eq_finite_value hl, finite_div_finite _ one_ne_zero, div_one]
    · rw [hl, bottom_div_finite_of_pos one_pos]

theorem ub_flipped (hP : P.Valid) (B : Csc Extended) {j : Nat} (hj : j < P.numVar) :
    (flipped P B).ub.entry j =
      (if 0 < flipSign P j then P.ub.entry j else P.lb.entry j) / finite (flipSign P j) := by
  have hlb := hP.exact.lower j hj
  have hmem := mem_flips hP.size_lb hP.size_ub (j := j)
  rw [flipped, Vec.entry_zipWith _ _ _ (P.lb.getElem?_eq_some_entry (hP.size_lb.symm ▸ hj))
    (hP.size_ub.symm ▸ hj)]
  by_cases h : upperOnly (P.lb.entry j) (P.ub.entry j) = true
  · have hl := ((upperOnly_iff hlb).1 h).2
    have hd : flipSign P j = -1 := if_pos (hmem.2 ⟨hj, h⟩)
    rw [if_pos h, hd, if_neg (by norm_num), hl, bottom_div_finite (by norm_num)]
    rfl
  · have hd : flipSign P j = 1 := if_neg fun hm => h (hmem.1 hm).2
    rw [if_neg h, hd, if_pos one_pos]
    rcases hP.exact.upper j hj with hu | hu
    · rw [eq_finite_value hu, finite_div_finite _ one_ne_zero, div_one]
    · rw [hu, top_div_finite_of_pos one_pos]

/-- A bound over a factor of a variable is finite or infinite on its own side. -/
theorem bounds_div {l u : Extended} (hl : Scalar.isFinite l = true ∨ l = bottom)
    (hu : Scalar.isFinite u = true ∨ u = top) {d : Rat} (hd : d ≠ 0) :
    (Scalar.isFinite ((if 0 < d then l else u) / finite d) = true ∨
      (if 0 < d then l else u) / finite d = bottom) ∧
    (Scalar.isFinite ((if 0 < d then u else l) / finite d) = true ∨
      (if 0 < d then u else l) / finite d = top) := by
  rw [isFinite_div hd, isFinite_div hd]
  by_cases h : 0 < d
  · rw [if_pos h, if_pos h]
    exact ⟨hl.imp_right fun hl => by rw [hl, bottom_div_finite_of_pos h],
      hu.imp_right fun hu => by rw [hu, top_div_finite_of_pos h]⟩
  · have hneg : d < 0 := lt_of_le_of_ne (not_lt.1 h) hd
    rw [if_neg h, if_neg h]
    exact ⟨hu.imp_right fun hu => by rw [hu, top_div_finite hneg],
      hl.imp_right fun hl => by rw [hl, bottom_div_finite hneg]⟩

theorem image_flipped (hP : P.Valid) {B : Csc Extended}
    (hB : P.A.Mapped B fun _ j a => if j ∈ (flips P).indices then a * -1 else a) :
    Program.Image P ((flipped P B).program P) (fun _ => 1) (flipSign P) := by
  have hne : ∀ j, flipSign P j ≠ 0 := fun j => by
    rw [flipSign]
    split_ifs <;> norm_num
  have hneg : (-1 : Extended) = finite (-1) := rfl
  have hval : ∀ j < P.A.cols, ∀ e ∈ P.A.column j,
      (if j ∈ (flips P).indices then e.2 * -1 else e.2) = finite (e.2.value * flipSign P j) := by
    intro j hj e he
    have hfin := eq_finite_value (hP.exact.finite_A j hj e he)
    by_cases h : j ∈ (flips P).indices
    · rw [if_pos h, flipSign, if_pos h, hfin, hneg, finite_mul_finite, value_finite]
    · rw [if_neg h, flipSign, if_neg h, mul_one, ← hfin]
  have hobj : ∀ j < P.numVar,
      ((flips P).negate P.obj).entry j = finite (P.obj.value j * flipSign P j) := by
    intro j hj
    rw [Flips.entry_negate ((flips_sorted hP.size_lb hP.size_ub).imp Nat.ne_of_lt) _
      (hP.size_obj.symm ▸ hj), Vec.entry_eq_finite hP.finite_obj, flipSign]
    split_ifs <;> simp
  have hcopy := copies_flipped hP hB
  have hbounds := fun j (hj : j < P.numVar) =>
    bounds_div (hP.exact.lower j hj) (hP.exact.upper j hj) (hne j)
  exact {
    source := hP.exact
    target := {
      layout := hB.layout hP.exact.layout
      finite_A := hB.finite_of fun j hj e he => hval j hj e he ▸ isFinite_finite _
      size_types := hP.size_types.trans hcopy.rows_eq.symm
      size_rhs := hcopy.size_rhs.trans hcopy.rows_eq.symm
      size_obj := hcopy.size_obj.trans hcopy.cols_eq.symm
      size_lb := hcopy.size_lb.trans hcopy.cols_eq.symm
      size_ub := hcopy.size_ub.trans hcopy.cols_eq.symm
      finite_rhs := hP.finite_rhs
      finite_obj := Vec.isFinite_of_entry fun j hj => hobj j (hcopy.size_obj ▸ hj)
      lower := fun j hj => by
        have hj : j < P.numVar := hcopy.cols_eq ▸ hj
        rw [program, lb_flipped hP B hj]
        exact (hbounds j hj).1
      upper := fun j hj => by
        have hj : j < P.numVar := hcopy.cols_eq ▸ hj
        rw [program, ub_flipped hP B hj]
        exact (hbounds j hj).2 }
    numConstr_eq := hcopy.rows_eq
    numVar_eq := hcopy.cols_eq
    types_eq := rfl
    offset_eq := rfl
    row_pos := fun _ _ => one_pos
    col_ne := fun j _ => hne j
    value := fun i _ j hj => by
      rw [program, one_mul]
      exact hB.value_eq hP.exact.finite_A (g := fun _ j => flipSign P j) hval i hj
    obj := fun j hj => Vec.value_of_entry (hobj j hj)
    rhs := fun i _ => (one_mul _).symm
    lb := fun j hj => lb_flipped hP B hj
    ub := fun j hj => ub_flipped hP B hj }

end ScaledProgram

end LpPresolve
