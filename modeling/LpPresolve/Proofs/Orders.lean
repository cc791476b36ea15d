import LpPresolve.Proofs.Maxima
import Mathlib.Order.Bounds.Defs

/-! Comparisons. Values that are numbers are in order one way round or the other, and no comparison holds
of a value that is none. A running maximum of magnitudes is then the greatest of them. -/

namespace LpPresolve

open Scalar

/-- A scalar type whose comparisons are those of numbers, with one infinity of either sign. -/
class LawfulOrder (α : Type) [Scalar α] : Prop where
  not_lt {a b : α} : isNaN a = false → isNaN b = false → (¬ a < b ↔ b ≤ a)
  le_trans {a b c : α} : a ≤ b → b ≤ c → a ≤ c
  le_of_lt {a b : α} : a < b → a ≤ b
  lt_irrefl (a : α) : ¬ a < a
  isNaN_of_lt {a b : α} : a < b → isNaN a = false
  isNaN_of_beq {a b : α} : (a == b) = true → isNaN a = false
  beq_of_lt {a b : α} : a < b → (a == b) = false
  isNaN_zero : isNaN (0 : α) = false
  isNaN_magnitude (a : α) : isNaN (magnitude a) = isNaN a
  isInfinite_iff (a : α) : isInfinite a = true ↔ (a == infinity) = true ∨ (a == -infinity) = true

/-- The magnitudes of some values, and 0. -/
def magnitudes {α : Type} [Scalar α] (s : Set α) : Set α := insert 0 (magnitude '' s)

theorem magnitudes_union {α : Type} [Scalar α] (s t : Set α) :
    magnitudes s ∪ magnitudes t = magnitudes (s ∪ t) := by
  rw [magnitudes, magnitudes, magnitudes, Set.image_union, Set.insert_union_distrib]

namespace LawfulOrder

variable {α : Type} [Scalar α] [LawfulOrder α] {a b m : α}

theorem le_refl (h : isNaN a = false) : a ≤ a := (not_lt h h).1 (lt_irrefl a)

theorem isNaN_of_isFinite (h : isFinite a = true) : isNaN a = false := by
  rw [← isNaN_magnitude]
  exact isNaN_of_lt (of_decide_eq_true h)

theorem isInfinite_of_isFinite (h : isFinite a = true) : isInfinite a = false :=
  beq_of_lt (of_decide_eq_true h)

/-- The infinity that a value may be is of one sign. -/
theorem isInfinite_iff_beq (hb : (a == b) = true → isInfinite a = true)
    (h : isFinite a = true ∨ (a == b) = true) : isInfinite a = true ↔ (a == b) = true := by
  refine ⟨fun hinf => h.resolve_left fun hfin => ?_, hb⟩
  rw [isInfinite_of_isFinite hfin] at hinf
  exact Bool.false_ne_true hinf

/-! ### Maxima -/

theorem isGreatest_maxNum {s t : Set α} (ha : IsGreatest s a) (hb : IsGreatest t b)
    (hna : isNaN a = false) (hnb : isNaN b = false) : IsGreatest (s ∪ t) (maxNum a b) := by
  by_cases hab : a < b
  · rw [maxNum_of_lt hab hna]
    refine ⟨.inr hb.1, ?_⟩
    rintro x (hx | hx)
    · exact le_trans (ha.2 hx) (le_of_lt hab)
    · exact hb.2 hx
  · rw [maxNum_of_not_lt hab hna]
    have hle : b ≤ a := (not_lt hna hnb).1 hab
    refine ⟨.inl ha.1, ?_⟩
    rintro x (hx | hx)
    · exact ha.2 hx
    · exact le_trans (hb.2 hx) hle

theorem isNaN_of_mem_magnitudes {s : Set α} (hs : ∀ a ∈ s, isNaN a = false)
    (h : m ∈ magnitudes s) : isNaN m = false := by
  obtain rfl | ⟨a, ha, rfl⟩ := h
  · exact isNaN_zero
  · rw [isNaN_magnitude, hs a ha]

theorem isGreatest_largest (as : List α) (h : ∀ a ∈ as, isNaN a = false) :
    IsGreatest (magnitudes {a | a ∈ as}) (largest as) := by
  induction as using List.reverseRecOn with
  | nil =>
    refine ⟨.inl rfl, ?_⟩
    rintro x (rfl | ⟨a, ha, -⟩)
    · exact le_refl isNaN_zero
    · exact absurd ha List.not_mem_nil
  | append_singleton as a ih =>
    have has : ∀ b ∈ as, isNaN b = false := fun b hb => h b (List.mem_append_left _ hb)
    have ha : isNaN (magnitude a) = false := by
      rw [isNaN_magnitude, h a (List.mem_append_right _ List.mem_cons_self)]
    have hself : IsGreatest {magnitude a} (magnitude a) := by
      refine ⟨rfl, ?_⟩
      rintro x rfl
      exact le_refl ha
    have hset : magnitudes {b | b ∈ as ++ [a]} = magnitudes {b | b ∈ as} ∪ {magnitude a} := by
      ext x
      simp only [magnitudes, Set.mem_union, Set.mem_insert_iff, Set.mem_image, Set.mem_ofPred_eq,
        List.mem_append, List.mem_singleton, Set.mem_singleton_iff, or_and_right, exists_or,
        exists_eq_left, or_assoc, @eq_comm _ x (magnitude a)]
    have hfold : largest (as ++ [a]) = maxNum (largest as) (magnitude a) := by
      rw [largest, List.foldl_append]
      rfl
    rw [hset, hfold]
    exact isGreatest_maxNum (ih has) hself (isNaN_of_mem_magnitudes has (ih has).1) ha

/-- Without values that are no number, the norm of a vector is its greatest magnitude. -/
theorem normInf_eq_largest {v : Vec α} (h : ∀ a ∈ v, isNaN a = false) :
    v.normInf = largest v.toList := by
  have hfind : v.find? isNaN = none := by
    rw [Array.find?_eq_none]
    simpa using h
  have hloop : ∀ (as : List α) (m : α), (∀ a ∈ as, isNaN a = false) → isNaN m = false →
      as.foldl (fun m a => if m < magnitude a then magnitude a else m) m =
        as.foldl (fun m a => maxNum m (magnitude a)) m := by
    intro as
    induction as with
    | nil => exact fun _ _ _ => rfl
    | cons a r ih =>
      intro m has hm
      have ha : isNaN (magnitude a) = false := by
        rw [isNaN_magnitude, has a List.mem_cons_self]
      rw [List.foldl_cons, List.foldl_cons, maxNum, hm, if_neg Bool.false_ne_true]
      refine ih _ (fun b hb => has b (List.mem_cons_of_mem a hb)) ?_
      split_ifs
      exacts [ha, hm]
  rw [Vec.normInf, hfind, ← Array.foldl_toList, largest]
  exact hloop _ _ (by simpa using h) isNaN_zero

theorem isGreatest_normInf {v : Vec α} (h : v.isFinite = true) :
    IsGreatest (magnitudes {a | a ∈ v}) v.normInf := by
  have hnan : ∀ a ∈ v, isNaN a = false := fun a ha =>
    isNaN_of_isFinite (Array.all_eq_true_iff_forall_mem.1 h a ha)
  rw [normInf_eq_largest hnan]
  simpa using isGreatest_largest v.toList (by simpa using hnan)

theorem isGreatest_normInfFinite (v : Vec α) :
    IsGreatest (magnitudes {a | a ∈ v ∧ isFinite a = true}) v.normInfFinite := by
  have hfilter : v.normInfFinite = largest (v.filter isFinite).toList := by
    rw [Vec.normInfFinite, ← Array.foldl_toList, largest]
  rw [hfilter]
  have hset : {a | a ∈ v ∧ isFinite a = true} = {a | a ∈ (v.filter isFinite).toList} := by
    ext a
    simp
  rw [hset]
  refine isGreatest_largest _ fun a ha => isNaN_of_isFinite ?_
  simp only [Array.toList_filter, List.mem_filter] at ha
  exact ha.2

end LawfulOrder

/-! ### Exact arithmetic -/

instance : LawfulOrder Extended where
  not_lt ha hb := Extended.not_lt (by rintro rfl; cases ha) (by rintro rfl; cases hb)
  le_trans := Extended.le_trans
  le_of_lt := Extended.le_of_lt
  lt_irrefl := Extended.lt_irrefl
  isNaN_of_lt h := Bool.eq_false_iff.2 fun hnan =>
    (Extended.ne_undefined_of_lt h).1 (Extended.isNaN_iff.1 hnan)
  isNaN_of_beq h := Bool.eq_false_iff.2 fun hnan =>
    (Extended.beq_iff.1 h).1 (Extended.isNaN_iff.1 hnan)
  beq_of_lt h := Bool.eq_false_iff.2 fun hbeq =>
    Extended.lt_irrefl _ ((Extended.beq_iff.1 hbeq).2 ▸ h)
  isNaN_zero := rfl
  isNaN_magnitude a := by
    cases a with
    | undefined | bottom | top => rfl
    | finite q => rw [Extended.magnitude_finite, Extended.isNaN_finite, Extended.isNaN_finite]
  isInfinite_iff a := by
    cases a with
    | undefined | bottom | top => decide
    | finite q => exact iff_of_false nofun (by rintro (h | h) <;> cases h)

end LpPresolve
