import LpPresolve.Proofs.Folds
import LpPresolve.Proofs.Sparse.Layout
import LpPresolve.Sparse.Norms
import Mathlib.Tactic.SplitIfs

/-! Scaling keeps the pattern of a matrix and changes its values entry by entry (`Mapped`). Scaling
one column changes the slots of that column only, and scaling by columns and rows does so for one
column after another. -/

namespace LpPresolve.Csc

variable {α : Type}

/-! ### Changes of the values -/

/-- `B` is `A` with every value `a` in row `i` and column `j` replaced by `f i j a`. -/
structure Mapped (A B : Csc α) (f : Nat → Nat → α → α) : Prop where
  rows_eq : B.rows = A.rows
  cols_eq : B.cols = A.cols
  colptr_eq : B.colptr = A.colptr
  rowval_eq : B.rowval = A.rowval
  size_nzval : B.nzval.size = A.nzval.size
  column : ∀ j < A.cols, B.column j = (A.column j).map fun e => (e.1, f e.1 j e.2)

namespace Mapped

variable {A B C : Csc α} {f g : Nat → Nat → α → α}

theorem refl (A : Csc α) (h : ∀ j < A.cols, ∀ i a, f i j a = a) : A.Mapped A f :=
  ⟨rfl, rfl, rfl, rfl, rfl, fun j hj => by simp [h j hj]⟩

theorem trans (h : A.Mapped B f) (h' : B.Mapped C g) :
    A.Mapped C fun i j a => g i j (f i j a) where
  rows_eq := h'.rows_eq.trans h.rows_eq
  cols_eq := h'.cols_eq.trans h.cols_eq
  colptr_eq := h'.colptr_eq.trans h.colptr_eq
  rowval_eq := h'.rowval_eq.trans h.rowval_eq
  size_nzval := h'.size_nzval.trans h.size_nzval
  column j hj := by
    rw [h'.column j (h.cols_eq ▸ hj), h.column j hj, List.map_map]
    rfl

/-- Only the values at the stored entries matter. -/
theorem congr (h : A.Mapped B f)
    (hfg : ∀ j < A.cols, ∀ e ∈ A.column j, f e.1 j e.2 = g e.1 j e.2) : A.Mapped B g :=
  { h with
    column := fun j hj => by
      rw [h.column j hj]
      exact List.map_congr_left fun e he => by rw [hfg j hj e he] }

theorem start_eq (h : A.Mapped B f) (j : Nat) : B.start j = A.start j := by
  rw [start, h.colptr_eq, start]

theorem layout (h : A.Mapped B f) (hA : A.Layout) : B.Layout where
  size_rowval := by rw [h.rowval_eq, h.size_nzval, hA.size_rowval]
  size_colptr := by rw [h.colptr_eq, h.cols_eq, hA.size_colptr]
  start_zero := by rw [h.start_eq, hA.start_zero]
  start_le_succ j hj := by
    rw [h.start_eq, h.start_eq]
    exact hA.start_le_succ j (h.cols_eq ▸ hj)
  start_cols := by rw [h.start_eq, h.cols_eq, h.size_nzval, hA.start_cols]
  row_lt j hj e he := by
    have hj := h.cols_eq ▸ hj
    rw [h.column j hj] at he
    obtain ⟨d, hd, rfl⟩ := List.mem_map.1 he
    exact h.rows_eq ▸ hA.row_lt j hj d hd
  nodup j hj := by
    have hj := h.cols_eq ▸ hj
    rw [h.column j hj, List.map_map]
    exact hA.nodup j hj

/-- The values by position. -/
theorem entry_nzval [Scalar α] (h : A.Mapped B f) (hA : A.Layout) {j k : Nat} (hj : j < A.cols)
    (hk : A.start j ≤ k) (hk' : k < A.start (j + 1)) :
    B.nzval.entry k = f (A.rowval.getD k 0) j (A.nzval.entry k) := by
  have hcolumn := h.column j hj
  rw [(h.layout hA).column_eq (h.cols_eq.symm ▸ hj), hA.column_eq hj, h.start_eq, h.start_eq, slots,
    slots, List.map_map, List.map_inj_left] at hcolumn
  have hmem : k ∈ List.range' (A.start j) (A.start (j + 1) - A.start j) := by
    rw [List.mem_range'_1]
    omega
  exact congrArg Prod.snd (hcolumn k hmem)

end Mapped

/-! ### One column -/

variable [Scalar α]

theorem entry_foldl_modify (f : Nat → α → α) (v : Vec α) (p n k : Nat) (hk : k < v.size) :
    Vec.entry ((List.range' p n).foldl (fun v k => v.modify k (f k)) v) k =
      if p ≤ k ∧ k < p + n then f k (v.entry k) else v.entry k := by
  induction n generalizing p v with
  | zero => simp [show ¬ (p ≤ k ∧ k < p) by omega]
  | succ n ih =>
    rw [List.range'_succ, List.foldl_cons, ih _ _ (by simpa using hk), Vec.entry_modify _ _ _ hk]
    by_cases hp : p = k
    · rw [if_pos hp, if_neg (by omega), if_pos (by omega), hp]
    · rw [if_neg hp]
      simp only [show (p + 1 ≤ k ∧ k < p + 1 + n) ↔ (p ≤ k ∧ k < p + (n + 1)) by omega]

/-- A change of the slots of column `j` that depends on row and value only. -/
theorem mapped_mapSpan {A : Csc α} (h : A.Layout) {j : Nat} (hj : j < A.cols) {f : Nat → α → α}
    (g : Nat → α → α) (hf : ∀ k a, f k a = g (A.rowval.getD k 0) a) :
    A.Mapped (A.mapSpan (A.start j) (A.start (j + 1)) f)
      fun i k a => if k = j then g i a else a := by
  have hsize : (A.mapSpan (A.start j) (A.start (j + 1)) f).nzval.size = A.nzval.size :=
    Vec.size_foldl_modify id (fun a k => f k a) _ A.nzval
  refine ⟨rfl, rfl, rfl, rfl, hsize, fun k hk => ?_⟩
  have hend := h.start_le_size (j := k + 1) hk
  rw [h.column_eq hk, column_eq_slots (A.mapSpan _ _ f)
    (show A.start (k + 1) ≤ A.rowval.size from h.size_rowval ▸ hend)
    (show A.start (k + 1) ≤ _ from hsize.symm ▸ hend), slots, slots, List.map_map]
  apply List.map_congr_left
  intro q hq
  have hq' : A.start k ≤ q ∧ q < A.start k + (A.start (k + 1) - A.start k) :=
    List.mem_range'_1.1 hq
  have hle := h.start_le_succ j hj
  have hentry := entry_foldl_modify f A.nzval (A.start j) (A.start (j + 1) - A.start j) q (by omega)
  refine Prod.ext rfl (hentry.trans ?_)
  by_cases hkj : k = j
  · subst hkj
    rw [if_pos hq', hf]
    simp [slot]
  · have hout : ¬ (A.start j ≤ q ∧ q < A.start j + (A.start (j + 1) - A.start j)) := by
      rcases Nat.lt_or_gt_of_ne hkj with hlt | hgt
      · have := h.start_mono (show k + 1 ≤ j from hlt) (Nat.le_of_lt hj)
        omega
      · have := h.start_mono (show j + 1 ≤ k from hgt) (Nat.le_of_lt hk)
        omega
    rw [if_neg hout]
    simp [slot, hkj]

theorem scaleCol?_eq {A : Csc α} (h : A.Layout) {j : Nat} (hj : j < A.cols) (c : α) :
    ∃ B, A.scaleCol? j c = some B ∧ A.Mapped B fun _ k a => if k = j then a * c else a := by
  refine ⟨_, ?_, mapped_mapSpan h hj (fun _ a => a * c) fun _ _ => rfl⟩
  simp only [scaleCol?, h.span?_eq hj, h.slice?_eq hj _ rfl, Option.bind_eq_bind, Option.bind_some]
  rfl

/-! ### Columns and rows -/

theorem lrscale?_eq {A : Csc α} (h : A.Layout) {l r : Vec α} (hl : l.size = A.rows)
    (hr : r.size = A.cols) :
    ∃ B, A.lrscale? l r = some B ∧ A.Mapped B fun i j a => a * (l.entry i * r.entry j) := by
  have hlen : r.toList.zipIdx.length = A.cols := by simp [hr]
  have hrun := exists_foldlM_eq_some r.toList.zipIdx
    (f := fun A (x : α × Nat) => do
      let s ← A.span? x.2
      discard <| slice? A.nzval s.1 s.2
      if (← slice? A.rowval s.1 s.2).all (· < l.size) then
        return A.mapSpan s.1 s.2 fun k v => v * (l.entry (A.rowval.getD k 0) * x.1)
      else none)
    (fun done B => A.Mapped B fun i j a =>
      if j < done.length then a * (l.entry i * r.entry j) else a)
    (fun done x rest hd B hB => ?_) (Mapped.refl A fun _ _ _ _ => by simp)
  · obtain ⟨B, hB, hmap⟩ := hrun
    refine ⟨B, ?_, hmap.congr fun j hj e _ => by rw [hlen, if_pos hj]⟩
    rw [lrscale?, if_neg (by simp [h.nnz?_eq])]
    exact hB
  · -- the pair at hand is the factor of the next column
    have hx : r.toList.zipIdx[done.length]? = some x := by simp [hd]
    have hlt : done.length < A.cols := by
      rw [← hlen, hd]
      simp
    have hxe : x = (r.entry done.length, done.length) := by
      rw [List.getElem?_zipIdx, Array.getElem?_toList,
        Vec.getElem?_eq_some_entry _ (hr.symm ▸ hlt)] at hx
      simpa using hx.symm
    have hBl := hB.layout h
    have hj : done.length < B.cols := hB.cols_eq.symm ▸ hlt
    have hall : (B.rowval.extract (B.start done.length) (B.start (done.length + 1))).all
        (· < l.size) = true := by
      rw [Array.all_eq_true_iff_forall_mem]
      intro i hi
      rw [← Array.mem_toList_iff, ← hBl.map_fst_column] at hi
      obtain ⟨e, he, rfl⟩ := List.mem_map.1 hi
      have := hBl.row_lt _ hj e he
      rw [hB.rows_eq] at this
      simpa [hl] using this
    refine ⟨_, ?_, (hB.trans (mapped_mapSpan hBl hj
      (fun i a => a * (l.entry i * r.entry done.length)) fun _ _ => rfl)).congr ?_⟩
    · rw [hxe]
      simp only [hBl.span?_eq hj, hBl.slice?_eq hj _ rfl, hBl.slice?_eq hj _ hBl.size_rowval,
        Option.bind_eq_bind, Option.bind_some, hall, if_true]
      rfl
    · intro k hk e _
      by_cases hkd : k = done.length
      · subst hkd
        simp
      · simp [hkd, show k < done.length + 1 ↔ k < done.length by omega]

end LpPresolve.Csc
