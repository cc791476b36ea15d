import LpPresolve.Program
import LpPresolve.Proofs.Entries
import LpPresolve.Proofs.Folds
import Mathlib.Data.List.Chain

/-! Accepted data. The format check passes exactly the well-formed matrices, and a program that was
accepted has vectors of the right lengths, finite costs and right hand sides, bounds that are finite
or infinite on their own side, and a well-formed matrix. -/

namespace LpPresolve

variable {α : Type} [Scalar α]

namespace Csc

theorem checkArrays_eq_ok_iff (A : Csc α) :
    A.checkArrays = .ok () ↔
      A.rowval.size = A.nzval.size ∧ A.colptr.size = A.cols + 1 ∧ A.colptr[0]? = some 0 ∧
        A.colptr.toList.Pairwise (· ≤ ·) ∧ A.colptr[A.cols]? = some A.rowval.size ∧
        ∀ a ∈ A.nzval, Scalar.isFinite a = true := by
  simp only [checkArrays, ite_error_eq_ok_iff, ← nondecreasing_iff_pairwise, Vec.isFinite,
    ← Array.all_eq_true_iff_forall_mem]
  simp [and_assoc]

omit [Scalar α] in
theorem checkColumns_eq_ok_iff (A : Csc α) :
    A.checkColumns = .ok () ↔ ∀ j < A.cols,
      (∀ e ∈ A.column j, e.1 < A.rows) ∧ ((A.column j).map (·.1)).Nodup := by
  rw [checkColumns, List.forM_eq_forM, forM_eq_ok_iff]
  simp [checkRows_eq_ok_iff]

omit [Scalar α] in
/-- Adjacent pointers are in order if the pointers are. -/
theorem colptr_mono_iff (A : Csc α) (hs : A.colptr.size = A.cols + 1) :
    A.colptr.toList.Pairwise (· ≤ ·) ↔
      ∀ j < A.cols, A.colptr.getD j 0 ≤ A.colptr.getD (j + 1) 0 := by
  rw [← List.isChain_iff_pairwise, List.isChain_iff_getElem]
  constructor
  · intro h j hj
    have := h j (by simp [hs]; omega)
    simpa [Array.getD_eq_getD_getElem?, show j < A.colptr.size by omega,
      show j + 1 < A.colptr.size by omega] using this
  · intro h j hj
    have hj : j + 1 < A.colptr.size := by simpa using hj
    have := h j (by omega)
    simpa [Array.getD_eq_getD_getElem?, show j < A.colptr.size by omega, hj] using this

theorem checkFormat_eq_ok_iff (A : Csc α) : A.checkFormat = .ok () ↔ A.WellFormed := by
  have hbind : A.checkFormat = .ok () ↔ A.checkArrays = .ok () ∧ A.checkColumns = .ok () := by
    rw [checkFormat]
    cases A.checkArrays <;> simp [bind, Except.bind]
  rw [hbind, checkArrays_eq_ok_iff, checkColumns_eq_ok_iff]
  constructor
  · rintro ⟨⟨hr, hs, hz, hm, hl, hf⟩, hc⟩
    exact ⟨hr, hs, hz, (A.colptr_mono_iff hs).1 hm, hl, hf, fun j hj => (hc j hj).1,
      fun j hj => (hc j hj).2⟩
  · intro h
    exact ⟨⟨h.size_rowval, h.size_colptr, h.colptr_zero,
      (A.colptr_mono_iff h.size_colptr).2 h.colptr_mono, h.colptr_last, h.finite⟩,
      fun j hj => ⟨h.row_lt j hj, h.nodup j hj⟩⟩

end Csc

namespace Program

structure Valid (P : Program α) : Prop where
  numVar_pos : 0 < P.numVar
  size_rhs : P.rhs.size = P.numConstr
  size_types : P.types.size = P.numConstr
  size_obj : P.obj.size = P.numVar
  size_lb : P.lb.size = P.numVar
  size_ub : P.ub.size = P.numVar
  finite_rhs : P.rhs.isFinite = true
  finite_obj : P.obj.isFinite = true
  bound : ∀ j < P.numVar, checkBound (P.lb.entry j) (P.ub.entry j) = .ok ()
  wellFormed : P.A.WellFormed

theorem checkSize_eq_ok_iff {name : String} {size expected : Nat} :
    checkSize name size expected = .ok () ↔ size = expected := by
  by_cases h : size = expected <;> simp [checkSize, h]

/-- The bounds variable by variable. -/
theorem zip_toList_eq {lb ub : Vec α} {n : Nat} (hl : lb.size = n) (hu : ub.size = n) :
    lb.toList.zip ub.toList = (List.range n).map fun j => (lb.entry j, ub.entry j) := by
  apply List.ext_getElem
  · simp [hl, hu]
  · intro j hj _
    have hj : j < n := by simpa [hl, hu] using hj
    simp [Vec.entry_eq_getElem lb (hl.symm ▸ hj), Vec.entry_eq_getElem ub (hu.symm ▸ hj)]

theorem forM_checkBound_eq_ok_iff {lb ub : Vec α} {n : Nat} (hl : lb.size = n) (hu : ub.size = n) :
    forM (lb.toList.zip ub.toList) (fun b => checkBound b.1 b.2) = .ok () ↔
      ∀ j < n, checkBound (lb.entry j) (ub.entry j) = .ok () := by
  rw [zip_toList_eq hl hu, forM_eq_ok_iff]
  simp only [List.forall_mem_map, List.mem_range]

/-- The data of a valid program is accepted, and no other. -/
theorem ofData_eq_ok_iff {A : Csc α} {rhs obj lb ub : Vec α} {types : Array Char} {offset : α}
    {P : Program α} : ofData A rhs types offset obj lb ub = .ok P ↔
      P = { P with A, rhs, offset, obj, lb, ub } ∧
        types.toList.map ConstraintType.ofChar = P.types.toList.map .ok ∧ P.Valid := by
  simp only [ofData, throw, throwThe, MonadExceptOf.throw, error_bind, ite_error_eq_ok_iff,
    ite_else_error_eq_ok_iff, Except.bind_eq_ok_iff, array_mapM_eq_ok_iff, mapError_eq_ok_iff,
    List.forM_eq_forM]
  constructor
  · rintro ⟨hn, ⟨⟩, hrhs, ⟨⟩, htypes, ⟨⟩, hobj, ⟨⟩, hlb, ⟨⟩, hub, hfr, hfo, ⟨⟩, hbounds, types', hmap,
      ⟨⟩, hformat, hP⟩
    cases hP
    rw [checkSize_eq_ok_iff] at hrhs htypes hobj hlb hub
    have hsize : types'.size = types.size := by simpa using (congrArg List.length hmap).symm
    exact ⟨rfl, hmap, {
      numVar_pos := Nat.pos_of_ne_zero hn
      size_rhs := hrhs
      size_types := hsize.trans htypes
      size_obj := hobj
      size_lb := hlb
      size_ub := hub
      finite_rhs := hfr
      finite_obj := hfo
      bound := (forM_checkBound_eq_ok_iff hlb hub).1 hbounds
      wellFormed := A.checkFormat_eq_ok_iff.1 hformat }⟩
  · rintro ⟨hP, hmap, h⟩
    cases P
    cases hP
    have hsize := congrArg List.length hmap
    rw [List.length_map, List.length_map] at hsize
    exact ⟨Nat.pos_iff_ne_zero.1 h.numVar_pos, (), checkSize_eq_ok_iff.2 h.size_rhs, (),
      checkSize_eq_ok_iff.2 (hsize.trans h.size_types), (), checkSize_eq_ok_iff.2 h.size_obj, (),
      checkSize_eq_ok_iff.2 h.size_lb, (), checkSize_eq_ok_iff.2 h.size_ub, h.finite_rhs,
      h.finite_obj, (), (forM_checkBound_eq_ok_iff h.size_lb h.size_ub).2 h.bound, _, hmap, (),
      (Csc.checkFormat_eq_ok_iff _).2 h.wellFormed, rfl⟩

theorem Valid.ofData_eq_ok {P : Program α} (h : P.Valid) :
    ofData P.A P.rhs (P.types.map ConstraintType.toChar) P.offset P.obj P.lb P.ub = .ok P :=
  ofData_eq_ok_iff.2 ⟨rfl, by simp [ConstraintType.ofChar_toChar], h⟩

end Program

end LpPresolve
