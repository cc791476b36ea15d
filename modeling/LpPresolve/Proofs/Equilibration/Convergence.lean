import LpPresolve.Proofs.Equilibration.Factors

/-! How fast equilibration settles, in exact arithmetic. No exponent is above the window after a round,
however far the exponents were from it, because a value is moved by the halves of two norms that are
both at least as large as the value. A first round may in return push a norm below the window. From then
on no factor is less than 1, and a deficit that is left is halved, so that the number of rounds is
logarithmic in the largest exponent. -/

namespace LpPresolve

open Extended Scalar

namespace Equilibration

/-! ### Corrections -/

theorem halfway_eq_zero_iff {e : Int} : halfway e = 0 ↔ 0 ≤ e ∧ e ≤ 3 := by
  rw [halfway]
  split_ifs <;> omega

theorem halfway_nonneg {e : Int} (h : e ≤ 3) : 0 ≤ halfway e := by
  rw [halfway]
  split_ifs <;> omega

/-- Half of the deficit of a line is left, and what the factor of a line across it takes away. -/
theorem neg_le_add_halfway {u d : Nat} {R C : Int} (hR : -d ≤ R) (hC : C ≤ u) :
    -((d / 2 + (u - 2) / 2 : Nat) : Int) ≤ R + (halfway R + halfway C) := by
  rw [halfway, halfway]
  split_ifs <;> omega

theorem forall_eq_one_iff {v : Vec Extended} {n : Nat} {k : Nat → Int} (hn : v.size = n)
    (h : ∀ i < n, v.entry i = finite (2 ^ k i)) : (∀ s ∈ v, s = 1) ↔ ∀ i < n, k i = 0 := by
  subst hn
  rw [Array.forall_mem_iff_forall_getElem]
  refine forall₂_congr fun i hi => ?_
  rw [← Vec.entry_eq_getElem, h i hi, one_eq, finite.injEq,
    zpow_eq_one_iff_right₀ (by norm_num) (by norm_num)]

end Equilibration

namespace Csc

open Equilibration

variable {A : Csc Extended} {E : Equilibration Extended} {n : Nat}

/-! ### Norms and values -/

section Norms

variable (hA : A.Layout)
include hA

/-- What holds of 0 and of all exponents of values holds of those of norms. -/
theorem Layout.rowExponent_of {P : Int → Prop} (hzero : P 0)
    (h : ∀ a ∈ A.nzval, P (binaryExponent a)) (i : Nat) : P (A.rowExponent i) :=
  binaryExponent_largest hzero (List.forall_mem_map.2 fun _ he => h _ (hA.mem_nzval_of_row he))

theorem Layout.colExponent_of {P : Int → Prop} (hzero : P 0)
    (h : ∀ a ∈ A.nzval, P (binaryExponent a)) {j : Nat} (hj : j < A.cols) : P (A.colExponent j) :=
  binaryExponent_largest hzero (List.forall_mem_map.2 fun _ he => h _ (hA.mem_nzval_of_column hj he))

theorem Layout.rowShift_nonneg (h : ∀ a ∈ A.nzval, binaryExponent a ≤ 3) (i : Nat) :
    0 ≤ halfway (A.rowExponent i) :=
  halfway_nonneg (hA.rowExponent_of (P := (· ≤ 3)) (by norm_num) h i)

theorem Layout.colShift_nonneg (h : ∀ a ∈ A.nzval, binaryExponent a ≤ 3) {j : Nat}
    (hj : j < A.cols) : 0 ≤ halfway (A.colExponent j) :=
  halfway_nonneg (hA.colExponent_of (P := (· ≤ 3)) (by norm_num) h hj)

/-- A matrix is settled if all norms lie in the window. -/
theorem Layout.settled_iff : A.Settled ↔ (∀ i < A.rows, halfway (A.rowExponent i) = 0) ∧
    ∀ j < A.cols, halfway (A.colExponent j) = 0 := by
  have hiff : ∀ c r, A.colNorms? A.cols = some c → A.rowNorms? A.rows = some r →
      (((factors r).all (· == 1) && (factors c).all (· == 1)) = true ↔
        (∀ i < A.rows, halfway (A.rowExponent i) = 0) ∧
          ∀ j < A.cols, halfway (A.colExponent j) = 0) := by
    intro c r hc hr
    have hone : ∀ v : Vec Extended, v.all (· == 1) = true ↔ ∀ s ∈ v, s = 1 := fun v => by
      simp only [Array.all_eq_true_iff_forall_mem, beq_iff, one_eq]
      exact forall₂_congr fun s _ => and_iff_right_of_imp fun h => h ▸ Extended.noConfusion
    rw [Bool.and_eq_true, hone, hone,
      forall_eq_one_iff (by rw [factors, Array.size_map, size_of_rowNorms? hr])
        fun i hi => entry_rowFactors hA hr hi,
      forall_eq_one_iff (by rw [factors, Array.size_map, size_of_colNorms? hc])
        fun j hj => entry_colFactors hA hc hj]
  constructor
  · rintro ⟨c, r, hc, hr, hall⟩
    exact (hiff c r hc hr).1 hall
  · exact fun h => ⟨_, _, hA.colNorms?_eq, hA.rowNorms?_eq,
      (hiff _ _ hA.colNorms?_eq hA.rowNorms?_eq).2 h⟩

end Norms

section Values

variable (hf : A.Finite)
include hf

theorem Finite.isFinite_row (i : Nat) : ∀ e ∈ A.row i, isFinite e.2 = true := fun _ he =>
  hf _ (mem_row.1 he).1 (i, _) (mem_row.1 he).2

variable {i j : Nat} {q : Rat} (hq : q ≠ 0) (hj : j < A.cols) (he : (i, finite q) ∈ A.column j)
include hq hj he

theorem Finite.le_rowExponent : binaryExponentOfRat q ≤ A.rowExponent i :=
  binaryExponentOfRat_le_largest (List.forall_mem_map.2 (hf.isFinite_row i)) hq
    (List.mem_map.2 ⟨(j, finite q), mem_row.2 ⟨hj, he⟩, rfl⟩)

theorem Finite.le_colExponent : binaryExponentOfRat q ≤ A.colExponent j :=
  binaryExponentOfRat_le_largest (List.forall_mem_map.2 (hf j hj)) hq (List.mem_map_of_mem he)

end Values

/-! ### Settled matrices -/

/-- The largest of some values lies in the window, if they are not all 0. -/
def LargestInWindow (es : List (Nat × Extended)) : Prop :=
  (∃ e ∈ es, e.2 ≠ 0) → ∃ e ∈ es, (∀ d ∈ es, Scalar.magnitude d.2 ≤ Scalar.magnitude e.2) ∧
    0 ≤ binaryExponent e.2 ∧ binaryExponent e.2 ≤ 3

theorem largestInWindow_of {es : List (Nat × Extended)} (hf : ∀ e ∈ es, isFinite e.2 = true)
    (h : halfway (binaryExponent (largest (es.map (·.2)))) = 0) : LargestInWindow es := by
  rintro ⟨e, he, hne⟩
  rcases largest_cases_of_finite (List.forall_mem_map.2 hf) with
    ⟨-, hzero⟩ | ⟨q, -, hmem, hlargest, hle⟩
  · exact absurd (hzero e.2 (List.mem_map_of_mem he)) hne
  · obtain ⟨m, hm, heq⟩ := List.mem_map.1 hmem
    refine ⟨m, hm, fun d hd => ?_, ?_⟩
    · obtain ⟨p, hp⟩ := exists_eq_finite (hf d hd)
      rw [heq, hp, magnitude_finite, magnitude_finite, finite_le_finite]
      exact hle p (hp ▸ List.mem_map_of_mem hd)
    · rw [hlargest, binaryExponent_finite, binaryExponentOfRat_abs, halfway_eq_zero_iff] at h
      rwa [heq]

theorem Settled.largestInWindow (h : A.Settled) (hA : A.Layout) (hf : A.Finite) :
    (∀ i < A.rows, LargestInWindow (A.row i)) ∧ ∀ j < A.cols, LargestInWindow (A.column j) :=
  ⟨fun i hi => largestInWindow_of (hf.isFinite_row i) ((hA.settled_iff.1 h).1 i hi),
    fun j hj => largestInWindow_of (hf j hj) ((hA.settled_iff.1 h).2 j hj)⟩

/-- No exponent is above `u`, and none of a norm below `-d`. -/
structure Confined (A : Csc Extended) (u d : Nat) : Prop where
  le : ∀ a ∈ A.nzval, binaryExponent a ≤ u
  row : ∀ i < A.rows, -d ≤ A.rowExponent i
  col : ∀ j < A.cols, -d ≤ A.colExponent j

theorem Confined.settled (h : A.Confined 3 0) (hA : A.Layout) : A.Settled :=
  hA.settled_iff.2
    ⟨fun i hi => halfway_eq_zero_iff.2
        ⟨h.row i hi, hA.rowExponent_of (P := (· ≤ 3)) (by norm_num) h.le i⟩,
      fun j hj => halfway_eq_zero_iff.2
        ⟨h.col j hj, hA.colExponent_of (P := (· ≤ 3)) (by norm_num) h.le hj⟩⟩

theorem Layout.confined (hA : A.Layout) {u d : Nat}
    (h : ∀ a ∈ A.nzval, -d ≤ binaryExponent a ∧ binaryExponent a ≤ u) : A.Confined u d where
  le a ha := (h a ha).2
  row i _ := hA.rowExponent_of (P := (-(d : Int) ≤ ·)) (by omega) (fun a ha => (h a ha).1) i
  col j hj := hA.colExponent_of (P := (-(d : Int) ≤ ·)) (by omega) (fun a ha => (h a ha).1) hj

end Csc

namespace Equilibration

variable {E E₁ E' : Equilibration Extended} {n : Nat}

/-! ### A round -/

/-- No exponent is above the window after a round. -/
theorem Round.exponent_le (h : Round E E₁) (hE : Proper E) :
    ∀ a ∈ E₁.matrix.nzval, binaryExponent a ≤ 3 := by
  have hshifts := h.shifts hE
  intro a ha
  obtain ⟨j, hj, e', he', rfl⟩ := (hshifts.proper hE).layout.mem_nzval_iff.1 ha
  replace hj : j < E.matrix.cols := hshifts.mapped.cols_eq ▸ hj
  rw [hshifts.mapped.column j hj] at he'
  obtain ⟨⟨i, a⟩, he, rfl⟩ := List.mem_map.1 he'
  obtain ⟨q, rfl⟩ : ∃ q, a = finite q := exists_eq_finite (hE.finite j hj _ he)
  by_cases hq : q = 0
  · rw [hq, finite_mul_finite, zero_mul]
    exact (by decide : binaryExponent (finite 0) ≤ 3)
  · rw [finite_mul_finite, binaryExponent_finite, binaryExponentOfRat_mul_two_zpow _ hq]
    exact add_halfway_le (h := (binaryExponentOfRat q).toNat) (by omega)
      (.inr (hE.finite.le_rowExponent hq hj he))
      (.inr (hE.finite.le_colExponent hq hj he))

theorem Round.confined {u d : Nat} (h : Round E E₁) (hE : Proper E)
    (hb : E.matrix.Confined u d) : E₁.matrix.Confined 3 (d / 2 + (u - 2) / 2) := by
  have hshifts := h.shifts hE
  have hmapped := hshifts.mapped
  have hR := hE.layout.rowExponent_of (P := (· ≤ (u : Int))) (by omega) hb.le
  have hC := fun j hj => hE.layout.colExponent_of (j := j) (P := (· ≤ (u : Int))) (by omega) hb.le hj
  refine ⟨h.exponent_le hE, fun i hi => ?_, fun j hj => ?_⟩
  · replace hi : i < E.matrix.rows := hmapped.rows_eq ▸ hi
    rw [Csc.rowExponent, hmapped.row i, List.map_map]
    exact le_binaryExponent_largest_mul (hE.finite.isFinite_row i)
      (fun j => halfway (E.matrix.rowExponent i) + halfway (E.matrix.colExponent j)) (by omega)
      fun e he => neg_le_add_halfway (hb.row i hi) (hC _ (Csc.mem_row.1 he).1)
  · replace hj : j < E.matrix.cols := hmapped.cols_eq ▸ hj
    rw [Csc.colExponent, hmapped.column j hj, List.map_map]
    refine le_binaryExponent_largest_mul (hE.finite j hj)
      (fun i => halfway (E.matrix.rowExponent i) + halfway (E.matrix.colExponent j)) (by omega)
      fun e he => ?_
    rw [add_comm (halfway _)]
    exact neg_le_add_halfway (hb.col j hj) (hR e.1)

/-! ### A run -/

/-- A deficit below `2 ^ t` takes `t` rounds, once no exponent is above the window. -/
theorem rounds_le_of_run? {d t : Nat} (hE : Proper E) (hb : E.matrix.Confined 3 d) (hd : d < 2 ^ t)
    (hrun : run? n E = some E') :
    E'.rounds ≤ E.rounds + t ∧ (t ≤ n → E'.matrix.Settled) := by
  induction n generalizing E d t with
  | zero =>
    rw [run?, Option.some_inj] at hrun
    subst hrun
    refine ⟨Nat.le_add_right _ _, fun ht => ?_⟩
    rw [Nat.le_zero.1 ht, pow_zero] at hd
    obtain rfl : d = 0 := by omega
    exact hb.settled hE.layout
  | succ n ih =>
    rcases run?_succ_eq_some_iff.1 hrun with ⟨hsettled, rfl⟩ | ⟨E₁, hround, hrun⟩
    · exact ⟨Nat.le_add_right _ _, fun _ => hsettled⟩
    · cases t with
      | zero =>
        obtain rfl : d = 0 := by omega
        exact absurd (hb.settled hE.layout) hround.not_settled
      | succ t =>
        -- the deficit is halved, and no exponent is above the window to push it down again
        have hb₁ := hround.confined hE hb
        have hE₁ := (hround.shifts hE).proper hE
        have hd₁ : d / 2 + (3 - 2) / 2 < 2 ^ t := by omega
        obtain ⟨hle, hsettled⟩ := ih hE₁ hb₁ hd₁ hrun
        have hrounds := hround.rounds_eq
        exact ⟨by omega, fun ht => hsettled (by omega)⟩

theorem exponent_le_of_run? (hE : Proper E) (h : ∀ a ∈ E.matrix.nzval, binaryExponent a ≤ 3)
    (hrun : run? n E = some E') : ∀ a ∈ E'.matrix.nzval, binaryExponent a ≤ 3 :=
  (run?_keeps (P := fun E' => Proper E' ∧ ∀ a ∈ E'.matrix.nzval, binaryExponent a ≤ 3)
    (fun hround ⟨hE, _⟩ => ⟨(hround.shifts hE).proper hE, hround.exponent_le hE⟩) ⟨hE, h⟩ hrun).2

/-- No factor is less than 1 if no exponent is above the window. -/
theorem exists_nonneg_shifts_of_run? (hE : Proper E)
    (h : ∀ a ∈ E.matrix.nzval, binaryExponent a ≤ 3) (hrun : run? n E = some E') :
    ∃ r c, Shifts E E' r c ∧ (∀ i, 0 ≤ r i) ∧ ∀ j < E.matrix.cols, 0 ≤ c j := by
  refine (run?_keeps (P := fun E' => (∀ a ∈ E'.matrix.nzval, binaryExponent a ≤ 3) ∧ ∃ r c,
    Shifts E E' r c ∧ (∀ i, 0 ≤ r i) ∧ ∀ j < E.matrix.cols, 0 ≤ c j) ?_ ⟨h, _, _, .refl E,
      fun _ => le_rfl, fun _ _ => le_rfl⟩ hrun).2
  rintro E₁ E₂ hround ⟨hle, r, c, hshifts, hr, hc⟩
  have hE₁ := hshifts.proper hE
  refine ⟨hround.exponent_le hE₁, _, _, hshifts.trans (hround.shifts hE₁), fun i => ?_,
    fun j hj => ?_⟩
  · exact add_nonneg (hr i) (hE₁.layout.rowShift_nonneg hle i)
  · exact add_nonneg (hc j hj)
      (hE₁.layout.colShift_nonneg hle (hshifts.mapped.cols_eq.symm ▸ hj))

/-- Shifts by 0 change no value. -/
theorem Shifts.mem_nzval {r c : Nat → Int} (h : Shifts E E' r c) (hE : E.matrix.Layout)
    (hr : ∀ i < E.matrix.rows, r i = 0) (hc : ∀ j < E.matrix.cols, c j = 0) {a : Extended}
    (ha : a ∈ E.matrix.nzval) : a ∈ E'.matrix.nzval := by
  obtain ⟨j, hj, e, he, rfl⟩ := hE.mem_nzval_iff.1 ha
  have he' : e ∈ E'.matrix.column j := by
    rw [h.mapped.column j hj]
    refine List.mem_map.2 ⟨e, he, ?_⟩
    rw [hr e.1 (hE.row_lt j hj e he), hc j hj, add_zero, zpow_zero, mul_one_finite]
  exact (h.mapped.layout hE).mem_nzval_of_column (h.mapped.cols_eq.symm ▸ hj) he'

/-- Some factor is not 1 after a run that does something: if the factors of all rounds cancelled, then
no exponent of the matrix would be above the window, and no factor of any round less than 1. -/
theorem Round.not_all_one {A : Csc Extended} (hA : A.Layout) (hf : A.Finite)
    (h : Round (start A) E₁) (hrun : run? n E₁ = some E) :
    ¬ ((∀ s ∈ E.colscale, s = 1) ∧ ∀ s ∈ E.rowscale, s = 1) := by
  rintro ⟨hcol, hrow⟩
  have hstart := proper_start hA hf
  have hfirst := h.shifts hstart
  have hE₁ := hfirst.proper hstart
  obtain ⟨r, c, hlater, hr, hc⟩ := exists_nonneg_shifts_of_run? hE₁ (h.exponent_le hstart) hrun
  have htotal := hfirst.trans hlater
  rw [forall_eq_one_iff (htotal.size_colscale.trans Array.size_replicate)
    fun j hj => htotal.colscale_start hj] at hcol
  rw [forall_eq_one_iff (htotal.size_rowscale.trans Array.size_replicate)
    fun i hi => htotal.rowscale_start hi] at hrow
  have hle : ∀ a ∈ A.nzval, binaryExponent a ≤ 3 := fun a ha =>
    exponent_le_of_run? hE₁ (h.exponent_le hstart) hrun a (htotal.mem_nzval hA hrow hcol ha)
  refine h.not_settled (hA.settled_iff.2 ⟨fun i hi => ?_, fun j hj => ?_⟩)
  · have hR := hA.rowShift_nonneg hle i
    have hsum : halfway (A.rowExponent i) + r i = 0 := hrow i hi
    have hlater := hr i
    omega
  · have hC := hA.colShift_nonneg hle hj
    have hsum : halfway (A.colExponent j) + c j = 0 := hcol j hj
    have hlater := hc j (hfirst.mapped.cols_eq.symm ▸ hj)
    omega

end Equilibration

namespace Csc

variable {A : Csc Extended} {E : Equilibration Extended} {n : Nat}

open Equilibration in
theorem Layout.equilibrate?_cases (hA : A.Layout) (h : A.equilibrate? n = some E) :
    (E = Equilibration.start A ∧ (n = 0 ∨ A.Settled)) ∨ ∃ m E₁, n = m + 1 ∧
      Round (Equilibration.start A) E₁ ∧ run? m E₁ = some E := by
  rw [equilibrate?_eq_some_iff] at h
  split_ifs at h with hwindow
  · refine .inl ⟨h.symm, .inr ((hA.confined fun a ha => ?_).settled hA)⟩
    simpa [inWindow] using Array.all_eq_true_iff_forall_mem.1 hwindow a ha
  · cases n with
    | zero => exact .inl ⟨(Option.some_inj.1 h).symm, .inl rfl⟩
    | succ m =>
      rcases run?_succ_eq_some_iff.1 h with ⟨hsettled, rfl⟩ | ⟨E₁, hround, hrun⟩
      · exact .inl ⟨rfl, .inr hsettled⟩
      · exact .inr ⟨m, E₁, rfl, hround, hrun⟩

/-- If no exponent is larger than `D`, then `2 + log2 D` rounds are enough. -/
theorem equilibrate?_converges (hA : A.WellFormed) {D : Nat}
    (hD : ∀ a ∈ A.nzval, a ≠ 0 → (binaryExponent a).natAbs ≤ D) (n : Nat) :
    ∃ E, A.equilibrate? n = some E ∧ E.rounds ≤ 2 + D.log2 ∧
      (0 < E.rounds → ∀ a ∈ E.matrix.nzval, binaryExponent a ≤ 3) ∧
      (2 + D.log2 ≤ n → (∀ i < A.rows, LargestInWindow (E.matrix.row i)) ∧
        ∀ j < A.cols, LargestInWindow (E.matrix.column j)) ∧
      (E.rounds = 0 ↔ (∀ s ∈ E.colscale, s = 1) ∧ ∀ s ∈ E.rowscale, s = 1) := by
  obtain ⟨E, hE⟩ := A.exists_equilibrate?_eq_some hA.layout n
  refine ⟨E, hE, ?_⟩
  have hlayout := hA.layout
  have hf := hA.finite_column
  have hstart := Equilibration.proper_start hlayout hf
  have hexp : A.Confined D D := hlayout.confined fun a ha => by
    by_cases hzero : a = 0
    · have h : binaryExponent a = 0 := by rw [hzero]; rfl
      omega
    · have h := hD a ha hzero
      omega
  rcases hlayout.equilibrate?_cases hE with ⟨rfl, hend⟩ | ⟨m, E₁, rfl, hround, hrun⟩
  · refine ⟨Nat.zero_le _, fun h => absurd h (Nat.lt_irrefl 0), fun hn => ?_, ?_⟩
    · exact (hend.resolve_left (by omega)).largestInWindow hlayout hf
    · exact iff_of_true rfl ⟨fun s hs => Array.eq_of_mem_replicate hs,
        fun s hs => Array.eq_of_mem_replicate hs⟩
  · have hshifts := hround.shifts hstart
    have hE₁ := hshifts.proper hstart
    -- after the first round the deficit is below the bound
    have hdeficit : D / 2 + (D - 2) / 2 < 2 ^ (D.log2 + 1) := by
      have h := Nat.lt_log2_self (n := D)
      omega
    have hrounds : E₁.rounds = 1 := hround.rounds_eq
    obtain ⟨hle, hsettled⟩ :=
      Equilibration.rounds_le_of_run? hE₁ (hround.confined hstart hexp) hdeficit hrun
    obtain ⟨r, c, hall⟩ := exists_shifts_of_equilibrate? hlayout hf hE
    have hproper := hall.proper hstart
    refine ⟨by omega, fun _ =>
      Equilibration.exponent_le_of_run? hE₁ (hround.exponent_le hstart) hrun, fun hn => ?_, ?_⟩
    · have hwindow := (hsettled (by omega)).largestInWindow hproper.layout hproper.finite
      rwa [hall.mapped.rows_eq, hall.mapped.cols_eq] at hwindow
    · have hpos := Equilibration.le_rounds_of_run? hrun
      exact iff_of_false (by omega) (hround.not_all_one hlayout hf hrun)

/-- The exponents go from -17 to 14, so six rounds are enough. -/
theorem equilibrate?_converges_badlyScaled :
    ∃ E, badlyScaled.equilibrate? 6 = some E ∧ 0 < E.rounds ∧ E.rounds ≤ 6 ∧
      (∀ a ∈ E.matrix.nzval, binaryExponent a ≤ 3) ∧
      ((∀ i < 2, LargestInWindow (E.matrix.row i)) ∧
        ∀ j < 2, LargestInWindow (E.matrix.column j)) ∧
      ¬ ((∀ s ∈ E.colscale, s = 1) ∧ ∀ s ∈ E.rowscale, s = 1) := by
  have hD : ∀ a ∈ badlyScaled.nzval, a ≠ 0 → (binaryExponent a).natAbs ≤ 17 := by decide +kernel
  have hrun : (badlyScaled.equilibrate? 6).any (fun E => 0 < E.rounds) = true := by decide +kernel
  obtain ⟨E, hE, hrounds, hle, hwindow, hone⟩ :=
    equilibrate?_converges wellFormed_badlyScaled hD 6
  rw [hE, Option.any_some, decide_eq_true_eq] at hrun
  have hlog : 2 + Nat.log2 17 = 6 := by decide +kernel
  rw [hlog] at hrounds hwindow
  exact ⟨E, hE, hrun, hrounds, hle hrun, hwindow le_rfl, fun h => hrun.ne' (hone.2 h)⟩

end Csc

end LpPresolve
