import LpPresolve.Equilibration
import LpPresolve.Proofs.Sparse.Magnitudes

/-! Rounds of equilibration. A round scales the matrix by the factors that the row and column norms
ask for, and multiplies them into the factors so far. A run ends at a matrix whose norms ask for no
correction, and goes on from the state after the next round otherwise. What a round keeps, a run keeps.
No round fails on a matrix with a layout, whatever the values become. -/

namespace LpPresolve

variable {α : Type} [Scalar α]

/-! ### Lengths of norms -/

namespace Csc

theorem size_of_colNorms? {A : Csc α} {n : Nat} {v : Vec α} (h : A.colNorms? n = some v) :
    v.size = n := by
  unfold colNorms? at h
  split at h
  · simp at h
  · simp only [Option.bind_eq_bind, Option.bind_eq_some_iff, Option.pure_def,
      Option.some_inj] at h
    obtain ⟨norms, hm, rfl⟩ := h
    simpa using length_eq_of_mapM_eq_some hm

theorem size_of_rowNorms? {A : Csc α} {n : Nat} {v : Vec α} (h : A.rowNorms? n = some v) :
    v.size = n := by
  unfold rowNorms? at h
  split at h
  · simp at h
  · rw [← Array.foldlM_toList] at h
    refine foldlM_invariant (fun w : Vec α => w.size = n) (fun x _ w w' hw hstep => ?_)
      (Vec.size_zeros n) h
    obtain ⟨_, rfl⟩ := modify?_eq_some_iff.1 hstep
    simpa using hw

end Csc

open Equilibration in
/-- The norms of all rows and columns ask for the factor 1. -/
def Csc.Settled (A : Csc α) : Prop :=
  ∃ c r, A.colNorms? A.cols = some c ∧ A.rowNorms? A.rows = some r ∧
    ((factors r).all (· == 1) && (factors c).all (· == 1)) = true

namespace Equilibration

/-! ### Factors -/

/-- The exponent of the factor for a magnitude of exponent `e`. -/
def halfway (e : Int) : Int :=
  if e < 0 then (1 - e) / 2 else if 3 < e then -((e - 2) / 2) else 0

theorem halfway_ge {h e : Int} (hh : 0 ≤ h) (he : e ≤ 2 * h + 3) : -h ≤ halfway e := by
  rw [halfway]
  split_ifs <;> omega

/-- The factors for the row and column of a value together move it to exponents of at most 3. -/
theorem add_halfway_le {h e R C : Int} (he : e ≤ 2 * h + 3) (hR : (R = 0 ∧ h = 0) ∨ e ≤ R)
    (hC : (C = 0 ∧ h = 0) ∨ e ≤ C) : e + (halfway R + halfway C) ≤ 3 := by
  rw [halfway, halfway]
  split_ifs <;> omega

theorem entry_factors {norms : Vec α} {i : Nat} (hi : i < norms.size) :
    (factors norms).entry i = factor (Scalar.binaryExponent (norms.entry i)) := by
  rw [factors, Vec.entry_map _ _ (norms.getElem?_eq_some_entry hi)]

theorem entry_combine_eq (s f : Vec α) {i : Nat} (hi : i < s.size) (hi' : i < f.size) :
    (combine s f).entry i =
      if f.entry i == 1 then s.entry i else s.entry i * f.entry i := by
  rw [combine, Vec.entry_zipWith _ _ _ (s.getElem?_eq_some_entry hi) hi']

/-! ### Rounds -/

/-- The state after a round with the factors `c` and `r` that gives the matrix `B`. -/
def next (E : Equilibration α) (B : Csc α) (c r : Vec α) : Equilibration α :=
  ⟨B, combine E.colscale c, combine E.rowscale r, E.rounds + 1⟩

/-- One round, which has something to correct. -/
inductive Round (E : Equilibration α) : Equilibration α → Prop
  | scaled {B : Csc α} {c r : Vec α} (hc : E.matrix.colNorms? E.matrix.cols = some c)
      (hr : E.matrix.rowNorms? E.matrix.rows = some r)
      (hne : ¬ ((factors r).all (· == 1) && (factors c).all (· == 1)) = true)
      (hB : E.matrix.lrscale? (factors r) (factors c) = some B) :
      Round E (E.next B (factors c) (factors r))

section Run

variable {E E₁ E' : Equilibration α} {n : Nat}

theorem Round.not_settled (h : Round E E₁) : ¬ E.matrix.Settled := by
  rintro ⟨c, r, hc, hr, hall⟩
  cases h with
  | scaled hc' hr' hne =>
    rw [hc, Option.some_inj] at hc'
    rw [hr, Option.some_inj] at hr'
    subst hc' hr'
    exact hne hall

/-- A round does not fail. -/
theorem exists_round (hE : E.matrix.Layout) (h : ¬ E.matrix.Settled) : ∃ E₁, Round E E₁ := by
  have hc := hE.colNorms?_eq
  have hr := hE.rowNorms?_eq
  obtain ⟨B, hB, -⟩ := Csc.lrscale?_eq hE
    ((Array.size_map ..).trans (Csc.size_of_rowNorms? hr))
    ((Array.size_map ..).trans (Csc.size_of_colNorms? hc))
  exact ⟨_, .scaled hc hr (fun hone => h ⟨_, _, hc, hr, hone⟩) hB⟩

/-- What a round does. -/
theorem Round.exists_factors (h : Round E E₁) (hE : E.matrix.Layout) : ∃ c r,
    E.matrix.colNorms? E.matrix.cols = some c ∧ E.matrix.rowNorms? E.matrix.rows = some r ∧
    (factors c).size = E.matrix.cols ∧ (factors r).size = E.matrix.rows ∧
    E₁.colscale = combine E.colscale (factors c) ∧ E₁.rowscale = combine E.rowscale (factors r) ∧
    E.matrix.Mapped E₁.matrix fun i j a => a * ((factors r).entry i * (factors c).entry j) := by
  cases h with
  | @scaled B c r hc hr _ hB =>
    have hcs : (factors c).size = E.matrix.cols := by simp [factors, Csc.size_of_colNorms? hc]
    have hrs : (factors r).size = E.matrix.rows := by simp [factors, Csc.size_of_rowNorms? hr]
    obtain ⟨B', hB', hmap⟩ := Csc.lrscale?_eq hE hrs hcs
    obtain rfl : B' = B := Option.some_inj.1 (hB'.symm.trans hB)
    exact ⟨c, r, hc, hr, hcs, hrs, rfl, rfl, hmap⟩

/-- What a run does first. -/
theorem run?_succ_eq_some_iff : run? (n + 1) E = some E' ↔
    (E.matrix.Settled ∧ E' = E) ∨ ∃ E₁, Round E E₁ ∧ run? n E₁ = some E' := by
  simp only [run?, Option.bind_eq_bind, Option.bind_eq_some_iff]
  constructor
  · rintro ⟨c, hc, r, hr, hrun⟩
    split at hrun
    · next hone => exact .inl ⟨⟨c, r, hc, hr, hone⟩, (Option.some_inj.1 hrun).symm⟩
    · next hone =>
      obtain ⟨B, hB, hrun⟩ := Option.bind_eq_some_iff.1 hrun
      exact .inr ⟨_, .scaled hc hr hone hB, hrun⟩
  · rintro (⟨⟨c, r, hc, hr, hone⟩, rfl⟩ | ⟨_, ⟨hc, hr, hone, hB⟩, hrun⟩)
    · exact ⟨c, hc, r, hr, if_pos hone⟩
    · exact ⟨_, hc, _, hr, by rw [if_neg hone, hB]; exact hrun⟩

/-- What every round keeps holds after a run. -/
theorem run?_keeps {P : Equilibration α → Prop} (h : ∀ {E E₁}, Round E E₁ → P E → P E₁)
    (hE : P E) (hrun : run? n E = some E') : P E' := by
  induction n generalizing E with
  | zero =>
    rw [run?, Option.some_inj] at hrun
    exact hrun ▸ hE
  | succ n ih =>
    rcases run?_succ_eq_some_iff.1 hrun with ⟨-, rfl⟩ | ⟨E₁, hround, hrun⟩
    · exact hE
    · exact ih (h hround hE) hrun

end Run

/-- The state after some rounds on `A`: a matrix with the pattern of `A`, and a factor for every
column and row. -/
structure Reaches (A : Csc α) (E : Equilibration α) : Prop where
  mapped : ∃ f, A.Mapped E.matrix f
  size_colscale : E.colscale.size = A.cols
  size_rowscale : E.rowscale.size = A.rows

theorem reaches_start (A : Csc α) : Reaches A (start A) where
  mapped := ⟨fun _ _ a => a, .refl A fun _ _ _ _ => rfl⟩
  size_colscale := by simp [start]
  size_rowscale := by simp [start]

theorem Reaches.next {A : Csc α} (hA : A.Layout) {E E₁ : Equilibration α} (h : Reaches A E)
    (hround : Round E E₁) : Reaches A E₁ := by
  obtain ⟨f, hf⟩ := h.mapped
  obtain ⟨c, r, -, -, hcs, hrs, hcol, hrow, hmap⟩ := hround.exists_factors (hf.layout hA)
  refine ⟨⟨_, hf.trans hmap⟩, ?_, ?_⟩
  · simp [hcol, combine, hcs, hf.cols_eq, h.size_colscale]
  · simp [hrow, combine, hrs, hf.rows_eq, h.size_rowscale]

theorem reaches_of_run? {A : Csc α} (hA : A.Layout) {n : Nat} {E : Equilibration α}
    (h : run? n (start A) = some E) : Reaches A E :=
  run?_keeps (fun hround hE => hE.next hA hround) (reaches_start A) h

/-- No round fails: a matrix that was reached keeps its layout. -/
theorem Reaches.exists_run?_eq_some {A : Csc α} (hA : A.Layout) (n : Nat) {E : Equilibration α}
    (h : Reaches A E) : ∃ E', run? n E = some E' := by
  induction n generalizing E with
  | zero => exact ⟨E, rfl⟩
  | succ n ih =>
    obtain ⟨f, hf⟩ := h.mapped
    by_cases hsettled : E.matrix.Settled
    · exact ⟨E, run?_succ_eq_some_iff.2 (.inl ⟨hsettled, rfl⟩)⟩
    · obtain ⟨E₁, hround⟩ := exists_round (hf.layout hA) hsettled
      obtain ⟨E', hE'⟩ := ih (h.next hA hround)
      exact ⟨E', run?_succ_eq_some_iff.2 (.inr ⟨E₁, hround, hE'⟩)⟩

end Equilibration

theorem Csc.reaches_of_equilibrate? {A : Csc α} (hA : A.Layout) {n : Nat} {E : Equilibration α}
    (h : A.equilibrate? n = some E) : Equilibration.Reaches A E := by
  unfold equilibrate? at h
  split at h
  · exact Option.some_inj.1 h ▸ Equilibration.reaches_start A
  · exact Equilibration.reaches_of_run? hA h

theorem Csc.exists_equilibrate?_eq_some {A : Csc α} (hA : A.Layout) (n : Nat) :
    ∃ E, A.equilibrate? n = some E := by
  unfold equilibrate?
  split
  · exact ⟨_, rfl⟩
  · exact (Equilibration.reaches_start A).exists_run?_eq_some hA n

end LpPresolve
