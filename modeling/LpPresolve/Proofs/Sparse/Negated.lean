import LpPresolve.Proofs.ScaledProgram
import LpPresolve.Proofs.Signs
import LpPresolve.Proofs.Sparse.Rearranged

/-! Matrices with some columns negated. The pattern stays, and so do all magnitudes: the norms of rows and
columns are those of the matrix. Scaling acts on the negated values as it does on the values. Multiplying
the columns by `-1`, one after another, negates them. -/

namespace LpPresolve.Csc

variable {α : Type} [Scalar α] {A B : Csc α}

open Scalar

omit [Scalar α] in
/-- No slot belongs to two columns. -/
theorem Layout.eq_of_slot (h : A.Layout) {j j' k : Nat} (hj : j < A.cols) (hk : A.start j ≤ k)
    (hk' : k < A.start (j + 1)) (h₁ : A.start j' ≤ k) (h₂ : k < A.start (j' + 1)) : j' = j := by
  have hj' : j' < A.cols := by
    by_contra hle
    have hsize := h.size_colptr
    simp [start, Array.getD_eq_getD_getElem?, show A.colptr.size ≤ j' + 1 by omega] at h₂
  rcases Nat.lt_trichotomy j' j with hlt | rfl | hgt
  · have := h.start_mono (show j' + 1 ≤ j from hlt) (Nat.le_of_lt hj)
    omega
  · rfl
  · have := h.start_mono (show j + 1 ≤ j' from hgt) (Nat.le_of_lt hj')
    omega

/-- One change of the values leads to one matrix. -/
theorem Mapped.unique {A' : Csc α} {f : Nat → Nat → α → α} (h : A.Mapped B f) (h' : A.Mapped A' f)
    (hA : A.Layout) : A' = B := by
  refine (h.layout hA).ext (h'.layout hA) ?_ ?_ fun j hj => ?_
  · rw [h.rows_eq, h'.rows_eq]
  · rw [h.cols_eq, h'.cols_eq]
  · have hj := h.cols_eq ▸ hj
    rw [h.column j hj, h'.column j hj]

/-- The matrix with the columns in `J` negated. -/
def negateColumns (A : Csc α) (J : Finset Nat) : Csc α :=
  { A with
    nzval := A.nzval.mapIdx fun k a =>
      if ∃ j ∈ J, A.start j ≤ k ∧ k < A.start (j + 1) then -a else a }

theorem Layout.mapped_negateColumns (h : A.Layout) (J : Finset Nat) :
    A.Mapped (A.negateColumns J) fun _ j a => if j ∈ J then -a else a := by
  have hsize : (A.negateColumns J).nzval.size = A.nzval.size := Array.size_mapIdx
  refine ⟨rfl, rfl, rfl, rfl, hsize, fun j hj => ?_⟩
  have hend := h.start_le_size (j := j + 1) hj
  rw [h.column_eq hj, column_eq_slots (A.negateColumns J)
    (show A.start (j + 1) ≤ A.rowval.size from h.size_rowval ▸ hend)
    (show A.start (j + 1) ≤ _ from hsize.symm ▸ hend), slots, slots, List.map_map]
  apply List.map_congr_left
  intro k hk
  have hk : A.start j ≤ k ∧ k < A.start j + (A.start (j + 1) - A.start j) := List.mem_range'_1.1 hk
  have hmem : (∃ j' ∈ J, A.start j' ≤ k ∧ k < A.start (j' + 1)) ↔ j ∈ J := by
    constructor
    · rintro ⟨j', hj', h₁, h₂⟩
      exact h.eq_of_slot hj hk.1 (by omega) h₁ h₂ ▸ hj'
    · exact fun hj' => ⟨j, hj', hk.1, by omega⟩
  refine Prod.ext rfl ((Vec.entry_mapIdx _ _ (A.nzval.getElem?_eq_some_entry (by omega))).trans ?_)
  simp only [hmem]
  rfl

/-- Multiplying columns by `-1` negates them. -/
theorem Layout.foldlM_scaleCol?_neg_one (h : A.Layout) [LawfulMul α]
    (hone : ∀ a ∈ A.nzval, a * 1 = a) {js : List Nat} (hn : js.Nodup) (hj : ∀ j ∈ js, j < A.cols) :
    js.foldlM (fun A j => A.scaleCol? j (-1)) A = some (A.negateColumns js.toFinset) := by
  obtain ⟨B, hB, hmap⟩ := foldlM_scaleCol?_eq h hn hj (-1)
  have hmap' := h.mapped_negateColumns js.toFinset
  simp only [List.mem_toFinset] at hmap'
  have hneg : A.Mapped B fun _ j a => if j ∈ js then -a else a := hmap.congr fun j hj e he => by
    rw [LawfulMul.mul_neg_one (hone _ (h.mem_nzval_of_column hj he))]
  rw [hB, hneg.unique hmap' h]

/-! ### Magnitudes -/

variable [LawfulMul α]

theorem largest_map_neg {β : Type} (es : List β) (f : β → α) (p : β → Prop) [DecidablePred p] :
    largest (es.map fun e => if p e then -f e else f e) = largest (es.map f) := by
  rw [largest, largest, List.foldl_map, List.foldl_map]
  congr 1
  funext m e
  split_ifs
  · rw [LawfulMul.magnitude_neg]
  · rfl

theorem Layout.colNorms?_negateColumns (h : A.Layout) (J : Finset Nat) :
    (A.negateColumns J).colNorms? A.cols = A.colNorms? A.cols := by
  have hmap := h.mapped_negateColumns J
  have hcol := (hmap.layout h).colNorms?_eq
  rw [hmap.cols_eq] at hcol
  rw [hcol, h.colNorms?_eq]
  congr 2
  apply List.map_congr_left
  intro j hj
  rw [hmap.column j (List.mem_range.1 hj), List.map_map]
  exact largest_map_neg (A.column j) (·.2) fun _ => j ∈ J

theorem Layout.rowNorms?_negateColumns (h : A.Layout) (J : Finset Nat) :
    (A.negateColumns J).rowNorms? A.rows = A.rowNorms? A.rows := by
  have hmap := h.mapped_negateColumns J
  have hrow := (hmap.layout h).rowNorms?_eq
  rw [hmap.rows_eq] at hrow
  rw [hrow, h.rowNorms?_eq]
  congr 2
  apply List.map_congr_left
  intro i hi
  rw [hmap.row, List.map_map]
  exact largest_map_neg (A.row i) (·.2) fun e => e.1 ∈ J

omit [LawfulMul α] in
theorem all_negateColumns (A : Csc α) (J : Finset Nat) {p : α → Bool} (hp : ∀ a, p (-a) = p a) :
    (A.negateColumns J).nzval.all p = A.nzval.all p := by
  have hite : ∀ (c : Prop) [Decidable c] (a : α), p (if c then -a else a) = p a := by
    intro c _ a
    split_ifs
    · exact hp a
    · rfl
  rw [Bool.eq_iff_iff, Array.all_eq_true, Array.all_eq_true]
  simp [negateColumns, hite]

/-! ### Scaling -/

theorem Layout.lrscale?_negateColumns (h : A.Layout) (J : Finset Nat) {l r : Vec α}
    (hl : l.size = A.rows) (hr : r.size = A.cols) (hB : A.lrscale? l r = some B) :
    (A.negateColumns J).lrscale? l r = some (B.negateColumns J) := by
  have hneg := h.mapped_negateColumns J
  obtain ⟨B', hB', hmap⟩ := lrscale?_eq h hl hr
  obtain rfl : B' = B := Option.some_inj.1 (hB'.symm.trans hB)
  obtain ⟨C, hC, hmap'⟩ := lrscale?_eq (hneg.layout h) (hl.trans hneg.rows_eq.symm)
    (hr.trans hneg.cols_eq.symm)
  -- both ways round, the values of the columns in `J` are scaled and negated
  have hboth : A.Mapped C fun i j a =>
      if j ∈ J then -(a * (l.entry i * r.entry j)) else a * (l.entry i * r.entry j) := by
    refine (hneg.trans hmap').congr fun j _ e _ => ?_
    by_cases hj : j ∈ J
    · simp only [if_pos hj, LawfulMul.neg_mul]
    · simp only [if_neg hj]
  rw [hC, (hmap.trans ((hmap.layout h).mapped_negateColumns J)).unique hboth h]

end LpPresolve.Csc
