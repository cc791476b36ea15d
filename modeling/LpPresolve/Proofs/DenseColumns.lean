import LpPresolve.Limits
import LpPresolve.Proofs.Model
import Mathlib.Data.List.Sort
import Mathlib.Order.Bounds.Basic

/-! The dense columns without sorting. A count is a gap if it is large and much larger than the largest
count below it. The dense columns are those from the least gap on, and in the sorted list of the counts
these are the suffix that starts at the first gap between neighbours. -/

namespace LpPresolve

namespace DenseColumns

variable {settings : Settings} {counts : List Nat} {t : Nat}

/-- Some counts are below `t`, and `t` is large compared with the largest of them. -/
def IsGap (settings : Settings) (counts : List Nat) (t : Nat) : Prop :=
  t ∈ counts ∧ ∃ w, IsGreatest {c | c ∈ counts ∧ c < t} w ∧
    max settings.denseMinNnz (settings.denseRatio * w) < t

theorem isGap_congr {counts' : List Nat} (h : ∀ c, c ∈ counts ↔ c ∈ counts') :
    IsGap settings counts t ↔ IsGap settings counts' t := by
  simp only [IsGap, h]

/-! ### Sorted counts -/

theorem not_isGap_singleton (a : Nat) : ¬ IsGap settings [a] t := by
  rintro ⟨ht, w, hw, -⟩
  have hlt := hw.1.2
  rw [List.mem_singleton.1 ht, List.mem_singleton.1 hw.1.1] at hlt
  exact Nat.lt_irrefl a hlt

section

variable {a b : Nat} {r : List Nat} (hs : (a :: b :: r).Pairwise (· ≤ ·))

include hs

theorem head_le : ∀ c ∈ a :: b :: r, a ≤ c := by
  simpa using (List.pairwise_cons.1 hs).1

theorem second_le : ∀ c ∈ b :: r, b ≤ c := by
  simpa using (List.pairwise_cons.1 (List.pairwise_cons.1 hs).2).1

/-- The first count is no gap. -/
theorem mem_tail_of_isGap (h : IsGap settings (a :: b :: r) t) : t ∈ b :: r := by
  obtain ⟨ht, w, hw, -⟩ := h
  refine (List.mem_cons.1 ht).resolve_left ?_
  rintro rfl
  exact absurd hw.1.2 (Nat.not_lt.2 (head_le hs w hw.1.1))

/-- A gap at the second count is the least one. -/
theorem isLeast_isGap_cons (hab : a < b)
    (hgap : max settings.denseMinNnz (settings.denseRatio * a) < b) :
    IsLeast {t | IsGap settings (a :: b :: r) t} b := by
  refine ⟨⟨by simp, a, ⟨⟨by simp, hab⟩, ?_⟩, hgap⟩, fun t ht =>
    second_le hs t (mem_tail_of_isGap hs ht)⟩
  rintro c ⟨hc, hcb⟩
  rcases List.mem_cons.1 hc with rfl | hc
  · exact Nat.le_refl c
  · exact absurd hcb (Nat.not_lt.2 (second_le hs c hc))

/-- Without a gap between the first two counts, the gaps are those of the others. -/
theorem isGap_cons_iff (hgap : ¬ max settings.denseMinNnz (settings.denseRatio * a) < b) :
    IsGap settings (a :: b :: r) t ↔ IsGap settings (b :: r) t := by
  have hab : a ≤ b := head_le hs b (by simp)
  constructor
  · intro h
    have ht := mem_tail_of_isGap hs h
    obtain ⟨-, w, hw, hgap'⟩ := h
    by_cases hwb : w ∈ b :: r
    · exact ⟨ht, w, ⟨⟨hwb, hw.1.2⟩, fun c hc => hw.2 ⟨List.mem_cons_of_mem a hc.1, hc.2⟩⟩, hgap'⟩
    · -- then only the first count is below `t`, so `t` is the second one
      obtain rfl : w = a := (List.mem_cons.1 hw.1.1).resolve_right hwb
      have hbt : ¬ b < t := fun hbt => hwb <| by
        rw [Nat.le_antisymm hab (hw.2 ⟨by simp, hbt⟩)]
        exact List.mem_cons_self
      obtain rfl : b = t := Nat.le_antisymm (second_le hs t ht) (Nat.not_lt.1 hbt)
      exact absurd hgap' hgap
  · rintro ⟨ht, w, hw, hgap'⟩
    refine ⟨List.mem_cons_of_mem a ht, w, ⟨⟨List.mem_cons_of_mem a hw.1.1, hw.1.2⟩, ?_⟩, hgap'⟩
    rintro c ⟨hc, hct⟩
    rcases List.mem_cons.1 hc with rfl | hc
    · exact hab.trans (second_le hs w hw.1.1)
    · exact hw.2 ⟨hc, hct⟩

end

/-- The suffix starts at the least gap and holds the counts that are not below it. -/
theorem suffix_spec (hratio : 1 ≤ settings.denseRatio) (hs : counts.Pairwise (· ≤ ·)) :
    (∀ t, ¬ IsGap settings counts t) ∧ suffix settings counts = [] ∨
      ∃ t, IsLeast {t | IsGap settings counts t} t ∧
        (∃ r, suffix settings counts = t :: r) ∧
          suffix settings counts = counts.filter (t ≤ ·) := by
  fun_induction suffix settings counts with
  | case1 a b r hgap =>
    have hab : a < b :=
      (Nat.le_mul_of_pos_left a hratio).trans_lt ((le_max_right _ _).trans_lt hgap)
    refine .inr ⟨b, isLeast_isGap_cons hs hab hgap, ⟨r, rfl⟩, ?_⟩
    rw [List.filter_cons_of_neg (by simpa using hab), List.filter_eq_self.2]
    simpa using second_le hs
  | case2 a b r hgap ih =>
    simp only [isGap_cons_iff hs hgap]
    refine (ih (List.pairwise_cons.1 hs).2).imp_right ?_
    rintro ⟨t, hleast, hcons, hfilter⟩
    obtain ⟨-, w, hw, -⟩ := hleast.1
    have hat : a < t := (head_le hs w (List.mem_cons_of_mem a hw.1.1)).trans_lt hw.1.2
    refine ⟨t, hleast, hcons, hfilter.trans ?_⟩
    rw [List.filter_cons_of_neg (a := a) (by simpa using hat)]
  | case3 counts h =>
    refine .inl ⟨fun t ht => ?_, rfl⟩
    rcases counts with _ | ⟨a, _ | ⟨b, r⟩⟩
    · exact absurd ht.1 List.not_mem_nil
    · exact not_isGap_singleton a ht
    · exact h a b r rfl

/-! ### Counts in any order -/

/-- The counts from the least gap on are dense, if there is a gap and they are not too many. -/
theorem ofCounts_spec (hratio : 1 ≤ settings.denseRatio) (rows : Nat) (counts : List Nat) :
    (∃ t, IsLeast {t | IsGap settings counts t} t ∧
        counts.countP (t ≤ ·) ≤ settings.denseMaxCols ∧
        ofCounts settings rows counts = ⟨counts.countP (t ≤ ·), t⟩) ∨
      (∀ t, IsLeast {t | IsGap settings counts t} t →
        settings.denseMaxCols < counts.countP (t ≤ ·)) ∧
        ofCounts settings rows counts = none rows := by
  have hmem : ∀ c, c ∈ counts.mergeSort (· ≤ ·) ↔ c ∈ counts := fun c => List.mem_mergeSort
  have hspec := suffix_spec hratio (List.pairwise_mergeSort' (· ≤ ·) counts)
  simp only [isGap_congr hmem] at hspec
  rcases hspec with ⟨hnone, hnil⟩ | ⟨t, hleast, ⟨r, hcons⟩, hfilter⟩
  · exact .inr ⟨fun t ht => absurd ht.1 (hnone t), by rw [ofCounts, hnil]⟩
  · have hlength : r.length + 1 = counts.countP (t ≤ ·) := by
      rw [← (List.mergeSort_perm counts (· ≤ ·)).countP_eq, List.countP_eq_length_filter, ← hfilter,
        hcons, List.length_cons]
    rw [ofCounts, hcons]
    simp only [hlength]
    by_cases hmax : counts.countP (t ≤ ·) ≤ settings.denseMaxCols
    · exact .inl ⟨t, hleast, hmax, if_pos hmax⟩
    · refine .inr ⟨fun t' ht' => ?_, if_neg hmax⟩
      rw [ht'.unique hleast]
      exact Nat.not_le.1 hmax

/-- A column with a smaller count is not dense. -/
theorem countP_lt_length_of_isGap (h : IsGap settings counts t) :
    counts.countP (t ≤ ·) < counts.length := by
  obtain ⟨-, w, hw, -⟩ := h
  rw [List.countP_lt_length_iff]
  exact ⟨w, hw.1.1, by simpa using hw.1.2⟩

end DenseColumns

/-! ### Counts of columns -/

variable {α : Type} [Scalar α]

namespace Csc

variable {A : Csc α}

omit [Scalar α] in
theorem Layout.length_column_le_rows (h : A.Layout) {j : Nat} (hj : j < A.cols) :
    (A.column j).length ≤ A.rows := by
  have hsub : (A.column j).map (·.1) ⊆ List.range A.rows := fun i hi => by
    obtain ⟨e, he, rfl⟩ := List.mem_map.1 hi
    exact List.mem_range.2 (h.row_lt j hj e he)
  simpa using (List.subperm_of_subset (h.nodup j hj) hsub).length_le

end Csc

namespace Limited

variable {settings : Settings} {A : Csc α}

/-- A product beyond the words is larger than every count. -/
theorem denseSuffix_eq {counts : List Nat} (h : ∀ c ∈ counts, c < wordSize) :
    denseSuffix settings counts = DenseColumns.suffix settings counts := by
  fun_induction denseSuffix settings counts with
  | case1 a b r hgap =>
    have hb := h b (by simp)
    rw [DenseColumns.suffix, if_pos (by omega)]
  | case2 a b r hgap ih =>
    have hb := h b (by simp)
    rw [DenseColumns.suffix, if_neg (by omega), ih fun c hc => h c (List.mem_cons_of_mem a hc)]
  | case3 counts hshort =>
    rcases counts with _ | ⟨a, _ | ⟨b, r⟩⟩
    · rfl
    · rfl
    · exact (hshort a b r rfl).elim

theorem denseColumns?_eq (hA : A.Layout) {rows cols : Nat} (hc : cols ≤ A.cols)
    (hrows : rows + 1 < wordSize) (hcounts : ∀ j < cols, (A.column j).length < wordSize) :
    denseColumns? settings A rows cols = DenseColumns.ofMatrix? settings A rows cols := by
  have hcolumns : A.HasColumns cols := .inr (by rw [hA.size_colptr]; omega)
  have hword : ∀ c ∈ ((List.range cols).map fun j => (A.column j).length).mergeSort (· ≤ ·),
      c < wordSize := by
    intro c hc
    obtain ⟨j, hj, rfl⟩ := List.mem_map.1 (List.mem_mergeSort.1 hc)
    exact hcounts j (List.mem_range.1 hj)
  rw [denseColumns?, if_pos hcolumns, DenseColumns.ofMatrix?, mapM_eq_some_map fun j hj =>
    hA.colNnz?_eq (Nat.lt_of_lt_of_le (List.mem_range.1 hj) hc)]
  simp only [Option.bind_eq_bind, Option.bind_some, Option.pure_def, DenseColumns.ofCounts,
    denseSuffix_eq hword, DenseColumns.none, Nat.mod_eq_of_lt hrows]
  generalize DenseColumns.suffix settings _ = s
  cases s <;> rfl

end Limited

/-! ### Loaded models -/

namespace Form

variable {F : Form α}

/-- The counts of the structural columns. -/
def counts (F : Form α) : List Nat := (List.range F.cols).map fun j => (F.AI.column j).length

/-- The structural columns with at least `t` entries. -/
def columnsFrom (F : Form α) (t : Nat) : List Nat :=
  (List.range F.cols).filter fun j => t ≤ (F.AI.column j).length

omit [Scalar α] in
theorem length_columnsFrom (F : Form α) (t : Nat) :
    (F.columnsFrom t).length = F.counts.countP (t ≤ ·) := by
  rw [columnsFrom, counts, List.countP_map, List.countP_eq_length_filter]
  rfl

theorem denseColumnIndices_eq (h : F.AI.Layout) (hc : F.cols ≤ F.AI.cols) :
    F.denseColumnIndices = F.columnsFrom F.dense.nzDense := by
  refine List.filter_congr fun j hj => ?_
  rw [h.colNnz?_eq (Nat.lt_of_lt_of_le (List.mem_range.1 hj) hc)]
  rfl

omit [Scalar α] in
/-- No column is as long as the threshold that stands for none. -/
theorem columnsFrom_rows_succ (h : F.AI.Layout) (hr : F.AI.rows = F.rows) (hc : F.cols ≤ F.AI.cols) :
    F.columnsFrom (F.rows + 1) = [] := by
  refine List.filter_eq_nil_iff.2 fun j hj => ?_
  have hle := h.length_column_le_rows (Nat.lt_of_lt_of_le (List.mem_range.1 hj) hc)
  simpa using by omega

end Form

namespace Model

open DenseColumns

variable {M : Model α}

theorem Regular.layout_form (hM : M.Regular) :
    M.form.AI.Layout ∧ M.form.AI.rows = M.form.rows ∧ M.form.cols ≤ M.form.AI.cols := by
  rcases hM.form with h | h
  · exact ⟨h.layout, h.rows_AI.trans h.rows_eq.symm, by rw [h.cols_eq, h.cols_AI]; omega⟩
  · exact ⟨h.layout, h.rows_AI.trans h.rows_eq.symm, by rw [h.cols_eq, h.cols_AI]; omega⟩

theorem Loaded.dense_eq (hM : M.Loaded) :
    M.form.dense = ofCounts M.settings M.form.rows M.form.counts := by
  obtain ⟨hlayout, -, hcols⟩ := hM.regular.layout_form
  obtain ⟨-, -, -, hF⟩ := ofProgram?_eq_some_iff.1 hM.ofProgram?.2
  have hdense := (Form.completed_of_ofScaled? hF).2
  rw [ofMatrix?_eq M.settings hlayout M.form.rows hcols, Option.some_inj] at hdense
  exact hdense.symm

/-- The dense columns start at the least gap of the counts, or there are none. -/
theorem Loaded.dense_cases (hM : M.Loaded) (hratio : 1 ≤ M.settings.denseRatio) :
    (∃ t, IsLeast {t | IsGap M.settings M.form.counts t} t ∧
        (M.form.columnsFrom t).length ≤ M.settings.denseMaxCols ∧
        M.form.dense = ⟨(M.form.columnsFrom t).length, t⟩ ∧
        M.form.denseColumnIndices = M.form.columnsFrom t) ∨
      (∀ t, IsLeast {t | IsGap M.settings M.form.counts t} t →
        M.settings.denseMaxCols < (M.form.columnsFrom t).length) ∧
        M.form.dense = ⟨0, M.rows + 1⟩ ∧ M.form.denseColumnIndices = [] := by
  obtain ⟨hlayout, hrows, hcols⟩ := hM.regular.layout_form
  have hindices := Form.denseColumnIndices_eq hlayout hcols
  have hspec := ofCounts_spec hratio M.form.rows M.form.counts
  simp only [← Form.length_columnsFrom, ← hM.dense_eq] at hspec
  rcases hspec with ⟨t, hleast, hmax, heq⟩ | ⟨hmany, heq⟩
  · rw [heq] at hindices
    exact .inl ⟨t, hleast, hmax, heq, hindices⟩
  · rw [heq, DenseColumns.none, Form.columnsFrom_rows_succ hlayout hrows hcols] at hindices
    exact .inr ⟨hmany, heq, hindices⟩

theorem Loaded.limitedDenseColumns?_eq (hM : M.Loaded) (hword : M.rows + 1 < wordSize) :
    Limited.denseColumns? M.settings M.form.AI M.rows M.cols = some M.form.dense := by
  obtain ⟨hlayout, hrows, hcols⟩ := hM.regular.layout_form
  have hcounts : ∀ j < M.cols, (M.form.AI.column j).length < wordSize := fun j hj =>
    (hrows ▸ hlayout.length_column_le_rows (hj.trans_le hcols)).trans_lt (Nat.lt_of_succ_lt hword)
  exact (Limited.denseColumns?_eq hlayout hcols hword hcounts).trans
    ((ofMatrix?_eq M.settings hlayout M.rows hcols).trans (congrArg some hM.dense_eq.symm))

/-- The dense columns of a loaded model are those with at least as many entries as the least gap of the
counts, unless they are too many or there is no gap: then no column is dense. They are never all columns,
and products that stop at the last word make no difference. -/
theorem dense_columns (hM : M.Loaded) (hratio : 1 ≤ M.settings.denseRatio) :
    (∀ t, IsLeast {t | IsGap M.settings M.form.counts t} t →
      (M.form.columnsFrom t).length ≤ M.settings.denseMaxCols →
        M.form.dense.nzDense = t ∧ M.form.denseColumnIndices = M.form.columnsFrom t) ∧
      ((¬ ∃ t, IsLeast {t | IsGap M.settings M.form.counts t} t ∧
        (M.form.columnsFrom t).length ≤ M.settings.denseMaxCols) →
        M.form.dense = ⟨0, M.rows + 1⟩ ∧ M.form.denseColumnIndices = []) ∧
      M.form.dense.numDense = M.form.denseColumnIndices.length ∧
      M.form.dense.numDense ≤ M.settings.denseMaxCols ∧
      (0 < M.cols → M.form.dense.numDense < M.cols) ∧
      (M.rows + 1 < wordSize →
        Limited.denseColumns? M.settings M.form.AI M.rows M.cols = some M.form.dense) := by
  rcases hM.dense_cases hratio with ⟨t, hleast, hmax, hdense, hindices⟩ | ⟨hmany, hdense, hindices⟩
  · have hlt := countP_lt_length_of_isGap hleast.1
    rw [← Form.length_columnsFrom, Form.counts, List.length_map, List.length_range] at hlt
    rw [hdense, hindices]
    refine ⟨fun t' ht' _ => ?_, fun h => absurd ⟨t, hleast, hmax⟩ h, rfl, hmax, fun _ => hlt,
      fun hword => hdense ▸ hM.limitedDenseColumns?_eq hword⟩
    rw [ht'.unique hleast]
    exact ⟨rfl, rfl⟩
  · rw [hdense, hindices]
    exact ⟨fun t ht hmax => absurd hmax (Nat.not_le.2 (hmany t ht)), fun _ => ⟨rfl, rfl⟩, rfl,
      Nat.zero_le _, id, fun hword => hdense ▸ hM.limitedDenseColumns?_eq hword⟩

/-- Of the columns of `mixed`, two have one entry and two have two, which is enough for a gap if the
thresholds are low. -/
theorem dense_columns_mixed :
    ∃ M : Model Extended, M.Loaded ∧ M.program = Program.mixed ∧ M.form.counts = [1, 2, 2, 1] ∧
      M.form.dense.nzDense = 2 ∧ M.form.denseColumnIndices = [1, 2] ∧ M.form.dense.numDense < 4 ∧
      Limited.denseColumns? M.settings M.form.AI M.rows M.cols = some M.form.dense := by
  obtain ⟨M, hM, hprogram, hrun⟩ := exists_loaded { denseMinNnz := 1, denseRatio := 1 }
    Program.valid_mixed (p := fun M : Model Extended => decide (M.settings.denseMinNnz = 1 ∧
      M.settings.denseRatio = 1 ∧ 2 ≤ M.settings.denseMaxCols ∧ M.form.counts = [1, 2, 2, 1] ∧
      M.form.columnsFrom 2 = [1, 2] ∧ M.rows = 2 ∧ M.cols = 4)) (by decide +kernel)
  obtain ⟨hmin, hratio, hmax, hcounts, hfrom, hrows, hcols⟩ := of_decide_eq_true hrun
  have hleast : IsLeast {t | IsGap M.settings M.form.counts t} 2 := by
    rw [hcounts]
    refine ⟨⟨by decide, 1, ⟨by decide, fun c hc => Nat.le_of_lt_succ hc.2⟩, by simp [hmin, hratio]⟩, ?_⟩
    rintro t ⟨-, w, ⟨⟨hw, hwt⟩, -⟩, -⟩
    have hpos : 1 ≤ w := by simp at hw; omega
    omega
  obtain ⟨hdense, -, -, -, hlt, hwords⟩ := dense_columns hM hratio.ge
  obtain ⟨hnz, hindices⟩ := hdense 2 hleast (by rw [hfrom]; exact hmax)
  exact ⟨M, hM, hprogram, hcounts, hnz, hindices.trans hfrom, hcols ▸ hlt (by omega),
    hwords (by rw [hrows]; decide)⟩

end Model

end LpPresolve
