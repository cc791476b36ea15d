import LpPresolve.Proofs.Equilibration
import LpPresolve.Proofs.Program.Variables
import LpPresolve.Proofs.Scaling.Points

/-! The scaled copy of a valid program. Negating the flipped variables negates their columns, one
after another; the factors of the equilibration are then applied, unless it has nothing to do. The
copy has the pattern and the lengths of the program, whatever the arithmetic. -/

namespace LpPresolve

variable {α : Type} [Scalar α]

/-! ### Negated columns -/

theorem Csc.foldlM_scaleCol?_eq {A : Csc α} (hA : A.Layout) {js : List Nat} (hn : js.Nodup)
    (hj : ∀ j ∈ js, j < A.cols) (c : α) :
    ∃ B, js.foldlM (fun A j => A.scaleCol? j c) A = some B ∧
      A.Mapped B fun _ j a => if j ∈ js then a * c else a := by
  refine exists_foldlM_eq_some _
    (fun done B => A.Mapped B fun _ j a => if j ∈ done then a * c else a)
    (fun done k rest hd B hB => ?_) (.refl A fun _ _ _ _ => by simp)
  obtain ⟨B', hB', hmap⟩ := scaleCol?_eq (hB.layout hA) (hB.cols_eq.symm ▸ hj k (by simp [hd])) c
  -- the column at hand was not scaled before
  have hk : k ∉ done := by
    rw [hd, List.nodup_append] at hn
    exact fun hmem => hn.2.2 k hmem k List.mem_cons_self rfl
  refine ⟨B', hB', (hB.trans hmap).congr fun j _ e _ => ?_⟩
  by_cases hjk : j = k
  · subst hjk
    simp [hk]
  · simp [hjk]

namespace ScaledProgram

/-! ### Flipping -/

/-- The program with its flipped variables negated, given its matrix. -/
def flipped (P : Program α) (B : Csc α) : ScaledProgram α where
  A := B
  obj := (flips P).negate P.obj
  rhs := P.rhs
  lb := Array.zipWith (fun l u => if upperOnly l u then -u else l) P.lb P.ub
  ub := Array.zipWith (fun l u => if upperOnly l u then Scalar.infinity else u) P.lb P.ub
  scaling := { Scaling.identity with flipped := flips P }

theorem flip?_eq_some {P : Program α} (h : P.Valid) :
    ∃ B, flip? P = some (flipped P B) ∧
      P.A.Mapped B fun _ j a => if j ∈ (flips P).indices then a * -1 else a := by
  obtain ⟨B, hB, hmap⟩ := Csc.foldlM_scaleCol?_eq h.wellFormed.layout
    ((flips_sorted h.size_lb h.size_ub).imp Nat.ne_of_lt)
    (fun j hj => ((mem_flips h.size_lb h.size_ub).1 hj).1) (-1)
  exact ⟨B, by simp [flip?, hB, flipped], hmap⟩

/-! ### Scaling -/

theorem ofProgram?_cases {P : Program α} {settings : Settings} {S : ScaledProgram α}
    (h : ofProgram? P settings = some S) :
    ∃ S₀, flip? P = some S₀ ∧ (S = S₀ ∨
      ∃ E, S₀.A.equilibrate? settings.equilibrateMaxIter = some E ∧ S = S₀.applyFactors E) := by
  simp only [ofProgram?, Option.bind_eq_bind, Option.bind_eq_some_iff] at h
  obtain ⟨S₀, hS₀, h⟩ := h
  refine ⟨S₀, hS₀, ?_⟩
  split at h
  · rw [Option.bind_eq_some_iff] at h
    obtain ⟨E, hE, h⟩ := h
    have hS := Option.some_inj.1 h
    split at hS
    · exact .inl hS.symm
    · exact .inr ⟨E, hE, hS.symm⟩
  · exact .inl (Option.some_inj.1 h).symm

theorem exists_ofProgram?_eq_some {P : Program α} (h : P.Valid) (settings : Settings) :
    ∃ S, ofProgram? P settings = some S := by
  obtain ⟨B, hB, hmap⟩ := flip?_eq_some h
  obtain ⟨E, hE⟩ := Csc.exists_equilibrate?_eq_some (hmap.layout h.wellFormed.layout)
    settings.equilibrateMaxIter
  have hE : (flipped P B).A.equilibrate? settings.equilibrateMaxIter = some E := hE
  simp only [ofProgram?, hB, hE, Option.bind_eq_bind, Option.bind_some]
  split <;> exact ⟨_, rfl⟩

/-- The lengths of a scaled copy and the pattern of its matrix. -/
structure Copies (P : Program α) (S : ScaledProgram α) : Prop where
  mapped : ∃ f, P.A.Mapped S.A f
  size_obj : S.obj.size = P.numVar
  size_rhs : S.rhs.size = P.numConstr
  size_lb : S.lb.size = P.numVar
  size_ub : S.ub.size = P.numVar
  flipped_eq : S.scaling.flipped = flips P
  factors : S.scaling.colscale = #[] ∧ S.scaling.rowscale = #[] ∨
    S.scaling.colscale.size = P.numVar ∧ S.scaling.rowscale.size = P.numConstr

theorem copies_flipped {P : Program α} (h : P.Valid) {B : Csc α} {f : Nat → Nat → α → α}
    (hB : P.A.Mapped B f) : Copies P (flipped P B) where
  mapped := ⟨f, hB⟩
  size_obj := by simp [flipped, h.size_obj]
  size_rhs := h.size_rhs
  size_lb := by simp [flipped, h.size_lb, h.size_ub]
  size_ub := by simp [flipped, h.size_lb, h.size_ub]
  flipped_eq := rfl
  factors := .inl ⟨rfl, rfl⟩

theorem Copies.layout {P : Program α} {S : ScaledProgram α} (h : Copies P S) (hP : P.Valid) :
    S.A.Layout :=
  h.mapped.elim fun _ hm => hm.layout hP.wellFormed.layout

theorem Copies.rows_eq {P : Program α} {S : ScaledProgram α} (h : Copies P S) :
    S.A.rows = P.numConstr :=
  h.mapped.elim fun _ hm => hm.rows_eq

theorem Copies.cols_eq {P : Program α} {S : ScaledProgram α} (h : Copies P S) :
    S.A.cols = P.numVar :=
  h.mapped.elim fun _ hm => hm.cols_eq

theorem Copies.applyFactors {P : Program α} {S : ScaledProgram α} (h : Copies P S)
    {E : Equilibration α} (hE : Equilibration.Reaches S.A E) : Copies P (S.applyFactors E) where
  mapped := by
    obtain ⟨f, hf⟩ := h.mapped
    obtain ⟨g, hg⟩ := hE.mapped
    exact ⟨_, hf.trans hg⟩
  size_obj := by simp [ScaledProgram.applyFactors, h.size_obj, hE.size_colscale, h.cols_eq]
  size_rhs := by simp [ScaledProgram.applyFactors, h.size_rhs, hE.size_rowscale, h.rows_eq]
  size_lb := by simp [ScaledProgram.applyFactors, h.size_lb, hE.size_colscale, h.cols_eq]
  size_ub := by simp [ScaledProgram.applyFactors, h.size_ub, hE.size_colscale, h.cols_eq]
  flipped_eq := h.flipped_eq
  factors := .inr ⟨hE.size_colscale.trans h.cols_eq, hE.size_rowscale.trans h.rows_eq⟩

theorem copies_of_ofProgram? {P : Program α} (h : P.Valid) {settings : Settings}
    {S : ScaledProgram α} (hS : ofProgram? P settings = some S) : Copies P S := by
  obtain ⟨B, hB, hmap⟩ := flip?_eq_some h
  obtain ⟨S₀, hS₀, hcases⟩ := ofProgram?_cases hS
  obtain rfl : flipped P B = S₀ := Option.some_inj.1 (hB.symm.trans hS₀)
  have hcopy := copies_flipped h hmap
  rcases hcases with rfl | ⟨E, hE, rfl⟩
  · exact hcopy
  · exact hcopy.applyFactors (Csc.reaches_of_equilibrate? (hcopy.layout h) hE)

theorem Copies.suits {P : Program α} {S : ScaledProgram α} (h : Copies P S)
    (hP : P.Valid) : S.scaling.Suits P.numVar P.numConstr where
  col := by
    rcases h.factors with ⟨hc, -⟩ | ⟨hc, -⟩
    · exact .inl (by simp [hc])
    · exact .inr hc.symm
  row := by
    rcases h.factors with ⟨-, hr⟩ | ⟨-, hr⟩
    · exact .inl (by simp [hr])
    · exact .inr hr.symm
  within := by
    rw [h.flipped_eq]
    exact fun j hj => ((mem_flips hP.size_lb hP.size_ub).1 hj).1
  nodup := by
    rw [h.flipped_eq]
    exact (flips_sorted hP.size_lb hP.size_ub).imp Nat.ne_of_lt

end ScaledProgram

end LpPresolve
