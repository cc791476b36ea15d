import LpPresolve.Proofs.Program.Validity
import LpPresolve.ScaledProgram
import Mathlib.Algebra.BigOperators.Group.Finset.Basic
import Mathlib.Data.List.GetD

/-! The boxed and the flipped variables. Both lists are the variables whose two bounds pass a test, in
increasing order. -/

namespace LpPresolve

variable {α : Type} [Scalar α]

namespace Program

/-- The variables whose bounds pass a test. -/
def variablesWhere (P : Program α) (p : α → α → Bool) : List Nat :=
  (P.bounds.filter fun b => p b.1.1 b.1.2).map (·.2)

theorem bounds_eq {P : Program α} (hl : P.lb.size = P.numVar) (hu : P.ub.size = P.numVar) :
    P.bounds = (List.range P.numVar).map fun j => ((P.lb.entry j, P.ub.entry j), j) := by
  have hidx : (List.range P.numVar).zipIdx = (List.range P.numVar).map fun j => (j, j) :=
    List.ext_getElem (by simp) fun j _ _ => by simp
  rw [bounds, zip_toList_eq hl hu, List.zipIdx_map, hidx, List.map_map]
  rfl

theorem mem_bounds_iff {P : Program α} (hl : P.lb.size = P.numVar) (hu : P.ub.size = P.numVar)
    {b : (α × α) × Nat} :
    b ∈ P.bounds ↔ b.2 < P.numVar ∧ b.1 = (P.lb.entry b.2, P.ub.entry b.2) := by
  rw [bounds_eq hl hu, List.mem_map]
  constructor
  · rintro ⟨j, hj, rfl⟩
    exact ⟨List.mem_range.1 hj, rfl⟩
  · rintro ⟨hj, hb⟩
    exact ⟨b.2, List.mem_range.2 hj, by rw [← hb]⟩

theorem mem_variablesWhere {P : Program α} (hl : P.lb.size = P.numVar)
    (hu : P.ub.size = P.numVar) {p : α → α → Bool} {j : Nat} :
    j ∈ P.variablesWhere p ↔ j < P.numVar ∧ p (P.lb.entry j) (P.ub.entry j) = true := by
  simp only [variablesWhere, List.mem_map, List.mem_filter, mem_bounds_iff hl hu]
  constructor
  · rintro ⟨b, ⟨⟨hj, hb⟩, ht⟩, rfl⟩
    rw [hb] at ht
    exact ⟨hj, ht⟩
  · rintro ⟨hj, ht⟩
    exact ⟨((P.lb.entry j, P.ub.entry j), j), ⟨⟨hj, rfl⟩, ht⟩, rfl⟩

theorem variablesWhere_sorted {P : Program α} (hl : P.lb.size = P.numVar)
    (hu : P.ub.size = P.numVar) (p : α → α → Bool) :
    (P.variablesWhere p).Pairwise (· < ·) := by
  have hr : (P.bounds.map (·.2)).Pairwise (· < ·) := by
    rw [bounds_eq hl hu, List.map_map]
    exact (List.map_id _).symm ▸ List.pairwise_lt_range
  exact hr.sublist (List.filter_sublist.map _)

theorem mem_boxed {P : Program α} (hl : P.lb.size = P.numVar) (hu : P.ub.size = P.numVar)
    {j : Nat} : j ∈ P.boxed ↔ j < P.numVar ∧ Scalar.isFinite (P.lb.entry j) = true ∧
      Scalar.isFinite (P.ub.entry j) = true := by
  rw [← Bool.and_eq_true]
  exact mem_variablesWhere hl hu (p := fun l u => Scalar.isFinite l && Scalar.isFinite u)

theorem boxed_sorted {P : Program α} (hl : P.lb.size = P.numVar) (hu : P.ub.size = P.numVar) :
    P.boxed.Pairwise (· < ·) :=
  variablesWhere_sorted hl hu fun l u => Scalar.isFinite l && Scalar.isFinite u

theorem Valid.nodup_boxed {P : Program α} (h : P.Valid) : P.boxed.Nodup :=
  (boxed_sorted h.size_lb h.size_ub).imp Nat.ne_of_lt

theorem Valid.lt_of_mem_boxed {P : Program α} (h : P.Valid) {j : Nat} (hj : j ∈ P.boxed) :
    j < P.numVar :=
  ((mem_boxed h.size_lb h.size_ub).1 hj).1

theorem Valid.getElem?_boxed_iff {P : Program α} (h : P.Valid) {j k : Nat} :
    P.boxed[k]? = some j ↔ j ∈ P.boxed ∧ P.boxed.idxOf j = k := by
  constructor
  · intro hk
    obtain ⟨hlt, rfl⟩ := List.getElem?_eq_some_iff.1 hk
    exact ⟨List.getElem_mem hlt, h.nodup_boxed.idxOf_getElem k hlt⟩
  · rintro ⟨hj, rfl⟩
    have hlt := List.idxOf_lt_length_of_mem hj
    rw [List.getElem?_eq_getElem hlt, List.getElem_idxOf]

/-- A sum over the boxed variables in their order. -/
theorem Valid.sum_boxed {β : Type} [AddCommMonoid β] {P : Program α} (h : P.Valid) (g : Nat → β) :
    ∑ j ∈ Finset.range P.numVar, (if j ∈ P.boxed then g (P.boxed.idxOf j) else 0) =
      ∑ k ∈ Finset.range P.boxed.length, g k := by
  rw [← Finset.sum_filter]
  refine Finset.sum_nbij' P.boxed.idxOf (P.boxed.getD · 0) ?_ ?_ ?_ ?_ fun _ _ => rfl
  · intro j hj
    exact Finset.mem_range.2 (List.idxOf_lt_length_of_mem (Finset.mem_filter.1 hj).2)
  · intro k hk
    have hk := Finset.mem_range.1 hk
    rw [List.getD_eq_getElem _ _ hk]
    exact Finset.mem_filter.2
      ⟨Finset.mem_range.2 (h.lt_of_mem_boxed (List.getElem_mem hk)), List.getElem_mem hk⟩
  · intro j hj
    have hk := List.idxOf_lt_length_of_mem (Finset.mem_filter.1 hj).2
    rw [List.getD_eq_getElem _ _ hk, List.getElem_idxOf]
  · intro k hk
    have hk := Finset.mem_range.1 hk
    rw [List.getD_eq_getElem _ _ hk, h.nodup_boxed.idxOf_getElem k hk]

end Program

namespace ScaledProgram

theorem mem_flips {P : Program α} (hl : P.lb.size = P.numVar) (hu : P.ub.size = P.numVar)
    {j : Nat} : j ∈ (flips P).indices ↔
      j < P.numVar ∧ upperOnly (P.lb.entry j) (P.ub.entry j) = true :=
  Program.mem_variablesWhere hl hu (p := upperOnly)

theorem flips_sorted {P : Program α} (hl : P.lb.size = P.numVar) (hu : P.ub.size = P.numVar) :
    (flips P).indices.Pairwise (· < ·) :=
  Program.variablesWhere_sorted hl hu upperOnly

end ScaledProgram

end LpPresolve
