import LpPresolve.Proofs.Entries
import LpPresolve.Proofs.Exact.Arithmetic
import Mathlib.Data.Finset.Fold
import Mathlib.Data.Finset.Lattice.Fold
import Mathlib.Order.Bounds.Basic

/-! Vectors of finite values. Such a vector is read as a function to the rationals that is zero
beyond its end; products and norms are those of the functions. -/

namespace LpPresolve.Vec

open Extended

/-- The rational in entry `i`, and 0 for an infinite one or beyond the end. -/
def value (v : Vec Extended) (i : Nat) : Rat := (v.entry i).value

theorem isFinite_iff {v : Vec Extended} :
    v.isFinite = true ↔ ∀ i < v.size, Scalar.isFinite (v.entry i) = true := by
  rw [isFinite, Array.all_eq_true]
  constructor
  · intro h i hi
    rw [entry_eq_getElem v hi]
    exact h i hi
  · intro h i hi
    rw [← entry_eq_getElem v hi]
    exact h i hi

theorem entry_eq_finite {v : Vec Extended} (h : v.isFinite = true) (i : Nat) :
    v.entry i = finite (v.value i) := by
  by_cases hi : i < v.size
  · exact eq_finite_value (isFinite_iff.1 h i hi)
  · rw [value, entry_of_size_le v (Nat.not_lt.1 hi)]
    rfl

theorem isFinite_entry {v : Vec Extended} (h : v.isFinite = true) (i : Nat) :
    Scalar.isFinite (v.entry i) = true :=
  entry_eq_finite h i ▸ isFinite_finite _

theorem value_of_entry {v : Vec Extended} {i : Nat} {q : Rat} (h : v.entry i = finite q) :
    v.value i = q := by
  rw [value, h, value_finite]

/-- A vector whose entries are known rationals. -/
theorem isFinite_of_entry {v : Vec Extended} {f : Nat → Rat}
    (h : ∀ i < v.size, v.entry i = finite (f i)) : v.isFinite = true :=
  isFinite_iff.2 fun i hi => h i hi ▸ isFinite_finite (f i)

theorem isFinite_zeros (n : Nat) : (zeros n : Vec Extended).isFinite = true :=
  isFinite_of_entry (f := fun _ => 0) fun i _ => entry_zeros n i

theorem toList_eq_map_range (v : Vec Extended) : v.toList = (List.range v.size).map v.entry :=
  toList_eq_map_getD v 0

theorem dot_eq {v w : Vec Extended} {n : Nat} (hv : v.isFinite = true) (hw : w.isFinite = true)
    (hvs : v.size = n) (hws : w.size = n) :
    v.dot w = finite (∑ j ∈ Finset.range n, v.value j * w.value j) := by
  have hentries : (mul v w).toList =
      (List.range n).map fun j => finite (v.value j * w.value j) := by
    rw [toList_eq_map_range, size_mul, hvs, hws, Nat.min_self]
    apply List.map_congr_left
    intro j hj
    have hj := List.mem_range.1 hj
    rw [entry_mul v w (hvs ▸ hj) (hws ▸ hj), entry_eq_finite hv, entry_eq_finite hw,
      finite_mul_finite]
  rw [dot, ← Array.foldl_toList, hentries, List.foldl_map, zero_eq,
    foldl_add_finite (List.range n) (fun j => v.value j * w.value j), zero_add, sum_map_range]

/-! ### Parts of finite vectors -/

theorem isFinite_append {v w : Vec Extended} (hv : v.isFinite = true) (hw : w.isFinite = true) :
    Vec.isFinite (v ++ w) = true := by
  rw [isFinite, Array.all_append]
  exact Bool.and_eq_true_iff.2 ⟨hv, hw⟩

theorem isFinite_negate {v : Vec Extended} (hv : v.isFinite = true) :
    v.negate.isFinite = true :=
  isFinite_of_entry (f := fun i => -v.value i) fun i hi => by
    rw [entry_negate v (by simpa using hi), entry_eq_finite hv, neg_finite]

theorem isFinite_extract {v : Vec Extended} (hv : v.isFinite = true) {start stop : Nat}
    (hs : stop ≤ v.size) : Vec.isFinite (v.extract start stop) = true :=
  isFinite_of_entry (f := fun i => v.value (start + i)) fun i hi => by
    have hi : start + i < stop := by
      rw [Array.size_extract] at hi
      omega
    rw [entry_extract v hi hs, entry_eq_finite hv]

theorem value_negate {v : Vec Extended} {i : Nat} (hi : i < v.size) (hv : v.isFinite = true) :
    v.negate.value i = -v.value i := by
  rw [value, entry_negate v hi, entry_eq_finite hv, neg_finite, value_finite]

theorem value_extract (v : Vec Extended) {start stop i : Nat} (h : start + i < stop)
    (hs : stop ≤ v.size) : Vec.value (v.extract start stop) i = v.value (start + i) := by
  rw [value, entry_extract v h hs, value]

theorem value_append_left (v w : Vec Extended) {i : Nat} (h : i < v.size) :
    Vec.value (v ++ w) i = v.value i := by
  rw [value, entry_append_left v w h, value]

theorem value_append_right (v w : Vec Extended) (i : Nat) :
    Vec.value (v ++ w) (v.size + i) = w.value i := by
  rw [value, entry_append_right v w, value]

/-! ### Norms -/

/-- The largest of the first `n` magnitudes. -/
def absMax (n : Nat) (f : Nat → Rat) : Rat := (Finset.range n).fold max 0 fun j => |f j|

theorem absMax_succ (n : Nat) (f : Nat → Rat) : absMax (n + 1) f = max |f n| (absMax n f) := by
  rw [absMax, Finset.range_add_one, Finset.fold_insert Finset.notMem_range_self]
  rfl

theorem absMax_congr {n : Nat} {f g : Nat → Rat} (h : ∀ j < n, f j = g j) :
    absMax n f = absMax n g :=
  Finset.fold_congr fun j hj => by rw [h j (Finset.mem_range.1 hj)]

theorem absMax_nonneg (n : Nat) (f : Nat → Rat) : 0 ≤ absMax n f := by
  induction n with
  | zero => simp [absMax]
  | succ n ih => exact absMax_succ n f ▸ le_max_of_le_right ih

theorem absMax_eq_zero_iff {n : Nat} {f : Nat → Rat} : absMax n f = 0 ↔ ∀ j < n, f j = 0 := by
  induction n with
  | zero => simp [absMax]
  | succ n ih =>
    have hmax : max |f n| (absMax n f) = 0 ↔ f n = 0 ∧ absMax n f = 0 := by
      have hf := abs_nonneg (f n)
      have ha := absMax_nonneg n f
      constructor
      · intro h
        exact ⟨abs_eq_zero.1 (le_antisymm (h ▸ le_max_left _ _) hf),
          le_antisymm (h ▸ le_max_right _ _) ha⟩
      · rintro ⟨h₁, h₂⟩
        rw [h₁, h₂, abs_zero, max_self]
    rw [absMax_succ, hmax, ih, Nat.forall_lt_succ_right, and_comm]

theorem abs_le_absMax {n : Nat} (f : Nat → Rat) {j : Nat} (hj : j < n) : |f j| ≤ absMax n f := by
  induction n with
  | zero => omega
  | succ n ih =>
    rw [absMax_succ]
    rcases Nat.lt_succ_iff_lt_or_eq.1 hj with h | rfl
    · exact le_max_of_le_right (ih h)
    · exact le_max_left _ _

theorem absMax_attained (n : Nat) (f : Nat → Rat) :
    absMax n f = 0 ∨ ∃ j < n, |f j| = absMax n f := by
  induction n with
  | zero => exact .inl (by simp [absMax])
  | succ n ih =>
    rw [absMax_succ]
    rcases max_choice |f n| (absMax n f) with h | h
    · exact .inr ⟨n, n.lt_succ_self, h.symm⟩
    · rw [h]
      exact ih.imp_right fun ⟨j, hj, heq⟩ => ⟨j, Nat.lt_succ_of_lt hj, heq⟩

/-- The largest magnitude is the greatest of the positive ones, or 0 if there are none. -/
theorem isGreatest_absMax (n : Nat) (f : Nat → Rat) :
    IsGreatest (insert 0 {v | 0 < v ∧ ∃ j < n, |f j| = v}) (absMax n f) := by
  refine ⟨?_, ?_⟩
  · rcases absMax_attained n f with h | h
    · exact .inl h
    · rcases (absMax_nonneg n f).eq_or_lt with h₀ | hpos
      · exact .inl h₀.symm
      · exact .inr ⟨hpos, h⟩
  · rintro v (rfl | ⟨-, j, hj, rfl⟩)
    · exact absMax_nonneg n f
    · exact abs_le_absMax f hj

theorem normInf_eq {v : Vec Extended} (h : v.isFinite = true) :
    v.normInf = finite (absMax v.size v.value) := by
  have hnone : v.find? Scalar.isNaN = none := by
    rw [Array.find?_eq_none]
    intro a ha
    obtain ⟨i, hi, rfl⟩ := Array.mem_iff_getElem.1 ha
    rw [← entry_eq_getElem v hi, entry_eq_finite h, isNaN_finite]
    exact Bool.false_ne_true
  have hfold : ∀ n, (List.range n).foldl (fun m j => if m < Scalar.magnitude (v.entry j)
      then Scalar.magnitude (v.entry j) else m) 0 = finite (absMax n v.value) := by
    intro n
    induction n with
    | zero => rfl
    | succ n ih =>
      rw [List.range_succ, List.foldl_append, ih, List.foldl_cons, List.foldl_nil,
        entry_eq_finite h, magnitude_finite, absMax_succ]
      by_cases hlt : absMax n v.value < |v.value n|
      · rw [if_pos (finite_lt_finite.2 hlt), max_eq_left hlt.le]
      · rw [if_neg (finite_lt_finite.not.2 hlt), max_eq_right (not_lt.1 hlt)]
  rw [normInf, hnone]
  simp only
  rw [← Array.foldl_toList, toList_eq_map_range, List.foldl_map]
  exact hfold v.size

theorem isGreatest_maxNum_normInf {a b : Vec Extended} (ha : a.isFinite = true)
    (hb : b.isFinite = true) : ∃ v, Scalar.maxNum a.normInf b.normInf = finite v ∧
      IsGreatest (insert 0 {v | 0 < v ∧
        ((∃ j < a.size, |a.value j| = v) ∨ ∃ i < b.size, |b.value i| = v)}) v := by
  refine ⟨_, by rw [normInf_eq ha, normInf_eq hb, maxNum_finite], ?_⟩
  have hsplit : {v : Rat | 0 < v ∧
      ((∃ j < a.size, |a.value j| = v) ∨ ∃ i < b.size, |b.value i| = v)} =
        {v | 0 < v ∧ ∃ j < a.size, |a.value j| = v} ∪
          {v | 0 < v ∧ ∃ i < b.size, |b.value i| = v} := Set.ext fun _ => and_or_left
  rw [hsplit, Set.insert_union_distrib]
  exact (isGreatest_absMax a.size a.value).union (isGreatest_absMax b.size b.value)

end LpPresolve.Vec
