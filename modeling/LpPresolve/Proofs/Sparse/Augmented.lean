import LpPresolve.Proofs.Program.Validity
import LpPresolve.Proofs.Sparse.Concatenation
import LpPresolve.Proofs.Sums

/-! Two matrices side by side. A row of `[A | B]` is the row of `A` and then that of `B`, with the
columns of `B` counted on from those of `A`. So a product with `[A | B]` goes on with `B` where a
product with `A` ends. -/

namespace LpPresolve.Csc

variable {α : Type} {A B C : Csc α}

/-- The columns of `C` are those of `A` and then those of `B`. -/
structure Joined (A B C : Csc α) : Prop where
  rows_eq : C.rows = A.rows
  cols_eq : C.cols = A.cols + B.cols
  left : ∀ j < A.cols, C.column j = A.column j
  right : ∀ j < B.cols, C.column (A.cols + j) = B.column j

namespace Joined

theorem column (h : Joined A B C) {j : Nat} (hj : j < A.cols + B.cols) :
    C.column j = if j < A.cols then A.column j else B.column (j - A.cols) := by
  split_ifs with hlt
  · exact h.left j hlt
  · have hright := h.right (j - A.cols) (by omega)
    rwa [Nat.add_sub_cancel' (by omega)] at hright

theorem row_eq (h : Joined A B C) (i : Nat) :
    C.row i = A.row i ++ (B.row i).map fun e => (A.cols + e.1, e.2) := by
  rw [row, h.cols_eq, List.range_add, List.flatMap_append, List.flatMap_map, row, row,
    List.map_flatMap]
  congr 1
  · exact List.flatMap_congr fun j hj => by rw [h.left j (List.mem_range.1 hj)]
  · refine List.flatMap_congr fun j hj => ?_
    rw [h.right j (List.mem_range.1 hj), List.map_map]
    rfl

variable [Scalar α]

theorem wellFormed (h : Joined A B C) (hC : C.Layout) (hA : A.WellFormed) (hB : B.WellFormed) :
    C.WellFormed := by
  refine hC.wellFormed fun a ha => ?_
  obtain ⟨j, hj, e, he, rfl⟩ := hC.mem_nzval_iff.1 ha
  rw [h.cols_eq] at hj
  rw [h.column hj] at he
  split_ifs at he with hlt
  · exact hA.finite _ (hA.layout.mem_nzval_of_column hlt he)
  · exact hB.finite _ (hB.layout.mem_nzval_of_column (by omega) he)

/-- A row of both adds what that of `B` does to what that of `A` does. -/
theorem addLine_row (h : Joined A B C) {u : Vec α} (hu : u.size = A.cols) (v : Vec α) (a s : α)
    (i : Nat) : addLine a (u ++ v) s (C.row i) = addLine a v (addLine a u s (A.row i)) (B.row i) := by
  have hleft : ∀ e ∈ A.row i, Vec.entry (u ++ v) e.1 = u.entry e.1 := fun e he =>
    Vec.entry_append_left u v (hu.symm ▸ (mem_row.1 he).1)
  have hright : ∀ e ∈ B.row i, Vec.entry (u ++ v) (A.cols + e.1) = v.entry e.1 := fun e _ =>
    hu ▸ Vec.entry_append_right u v e.1
  rw [h.row_eq, addLine_append, addLine_congr hleft, addLine_map (A.cols + ·) hright]

/-- In exact arithmetic the two products can be added afterwards. -/
theorem gemv?_append [ExactAdd α] (h : Joined A B C) (hA : A.Layout) (hB : B.Layout) (hC : C.Layout)
    (hrows : A.rows = B.rows) (a b : α) {u v y z : Vec α} (hu : u.size = A.cols)
    (hv : v.size = B.cols) (hy : y.size = A.rows) (hz : z.size = B.rows) :
    ∃ r p q, C.gemv? .normal a (u ++ v) b y = some r ∧ A.gemv? .normal a u b y = some p ∧
      B.gemv? .normal a v 0 z = some q ∧ r = Array.zipWith (· + ·) p q := by
  have huv : (u ++ v).size = C.inner .normal := by
    rw [Array.size_append, hu, hv]
    exact h.cols_eq.symm
  obtain ⟨r, hr, hrs, hre⟩ := hC.gemv?_entries .normal a huv b (hy.trans h.rows_eq.symm)
  obtain ⟨p, hp, hps, hpe⟩ := hA.gemv?_entries .normal a hu b hy
  obtain ⟨q, hq, hqs, hqe⟩ := hB.gemv?_entries .normal a hv 0 hz
  have hps : p.size = A.rows := hps
  have hrs : r.size = A.rows := hrs.trans h.rows_eq
  have hqs : q.size = A.rows := hqs.trans hrows.symm
  refine ⟨r, p, q, hr, hp, hq, Vec.ext_entry (by simp [hrs, hps, hqs]) fun i hi => ?_⟩
  have hi : i < A.rows := hrs ▸ hi
  have hzero : (scaleTarget 0 z).entry i = 0 := by
    rw [scaleTarget, if_pos ExactAdd.zero_beq_zero, Vec.fill]
    exact Vec.entry_map _ z (z.getElem?_eq_some_entry (hz ▸ hrows ▸ hi))
  rw [Vec.entry_zipWith _ _ _ (p.getElem?_eq_some_entry (hps.symm ▸ hi)) (hqs.symm ▸ hi),
    hre i (Nat.lt_of_lt_of_eq hi h.rows_eq.symm), hpe i hi, hqe i (Nat.lt_of_lt_of_eq hi hrows),
    hzero]
  exact (h.addLine_row hu v a _ i).trans (addLine_eq_add a v _ _)

end Joined

variable [Scalar α]

/-- Accepted matrices with as many rows have an accepted matrix with the columns of both as they are
stored. In exact arithmetic a product with it is the sum of the products with the two. -/
theorem hcat?_concatenates (hA : A.checkFormat = .ok ()) (hB : B.checkFormat = .ok ())
    (h : A.rows = B.rows) :
    ∃ C, A.hcat? B = some C ∧ C.checkFormat = .ok () ∧ C.rows = A.rows ∧
      C.cols = A.cols + B.cols ∧
      (∀ j < A.cols + B.cols,
        C.column j = if j < A.cols then A.column j else B.column (j - A.cols)) ∧
      ∀ [ExactAdd α] (a b : α) {u v y z : Vec α}, u.size = A.cols → v.size = B.cols →
        y.size = A.rows → z.size = B.rows → ∃ r p q, C.gemv? .normal a (u ++ v) b y = some r ∧
          A.gemv? .normal a u b y = some p ∧ B.gemv? .normal a v 0 z = some q ∧
          r = Array.zipWith (· + ·) p q := by
  have hA := A.checkFormat_eq_ok_iff.1 hA
  have hB := B.checkFormat_eq_ok_iff.1 hB
  obtain ⟨C, hC, hlayout, hrows, hcols, -, hleft, hright⟩ := hcat?_eq_some hA.layout hB.layout h
  have hjoined : Joined A B C := ⟨hrows, hcols, hleft, hright⟩
  exact ⟨C, hC, C.checkFormat_eq_ok_iff.2 (hjoined.wellFormed hlayout hA hB), hrows, hcols,
    fun j hj => hjoined.column hj,
    fun a b _ _ _ _ => hjoined.gemv?_append hA.layout hB.layout hlayout h a b⟩

/-- A column out of order with an explicit zero, and an empty one behind it. -/
def trailing : Csc Extended := ⟨2, 2, #[0, 2, 2], #[1, 0], #[.finite 3, 0]⟩

def single : Csc Extended := ⟨2, 1, #[0, 1], #[1], #[.finite (-2)]⟩

theorem hcat?_concatenates_trailing :
    trailing.checkFormat = .ok () ∧ single.checkFormat = .ok () ∧
      ∃ C, trailing.hcat? single = some C ∧ C.checkFormat = .ok () ∧ C.cols = 3 ∧
        C.column 0 = [(1, .finite 3), (0, 0)] ∧ C.column 1 = [] ∧
        C.column 2 = [(1, .finite (-2))] ∧
        trailing.gemv? .normal (-1) #[1, .top] (-1) #[1, 1] = some #[-1, .finite (-4)] ∧
        single.gemv? .normal (-1) #[.finite 5] 0 #[.top, 1] = some #[0, .finite 10] ∧
        C.gemv? .normal (-1) #[1, .top, .finite 5] (-1) #[1, 1] = some #[-1, .finite 6] := by
  have htrailing : trailing.checkFormat = .ok () :=
    trailing.checkFormat_eq_ok_iff.2 (by decide +kernel)
  have hsingle : single.checkFormat = .ok () := single.checkFormat_eq_ok_iff.2 (by decide +kernel)
  have hleft : trailing.gemv? .normal (-1) #[1, .top] (-1) #[1, 1] = some #[-1, .finite (-4)] := by
    decide +kernel
  have hright : single.gemv? .normal (-1) #[.finite 5] 0 #[.top, 1] = some #[0, .finite 10] := by
    decide +kernel
  obtain ⟨C, hC, hformat, -, hcols, hcolumn, hgemv⟩ := hcat?_concatenates htrailing hsingle rfl
  obtain ⟨r, p, q, hr, hp, hq, rfl⟩ := hgemv (-1) (-1) (u := #[1, .top]) (v := #[.finite 5])
    (y := #[1, 1]) (z := #[.top, 1]) rfl rfl rfl rfl
  obtain rfl := Option.some_inj.1 (hleft.symm.trans hp)
  obtain rfl := Option.some_inj.1 (hright.symm.trans hq)
  have hsum : Array.zipWith (· + ·) #[-1, .finite (-4)] #[0, .finite 10] =
      #[(-1 : Extended), .finite 6] := by decide +kernel
  rw [hsum] at hr
  refine ⟨htrailing, hsingle, C, hC, hformat, hcols, ?_, ?_, ?_, hleft, hright, hr⟩
  · rw [hcolumn 0 (by decide)]
    decide
  · rw [hcolumn 1 (by decide)]
    decide
  · rw [hcolumn 2 (by decide)]
    decide

end LpPresolve.Csc
