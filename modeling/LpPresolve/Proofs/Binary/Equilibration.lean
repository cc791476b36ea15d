import LpPresolve.Proofs.Binary.Magnitudes
import LpPresolve.Proofs.Equilibration
import LpPresolve.Proofs.Program.Validity

/-! Equilibration in a binary format. Every factor stands for a power of two. Its exponent is bounded
by the exponents of the values at the start: the first round moves them below 4, and from then on no
factor falls. -/

namespace LpPresolve

open Scalar

namespace BinaryScalar

open Equilibration (factor halfway)

variable {α : Type} [Scalar α] [BinaryScalar α]

theorem binaryExponent_bounds (a : α) :
    (format α).minExponent < binaryExponent a ∧
      binaryExponent a ≤ (format α).exponentBias + 1 := by
  have hzero : (format α).minExponent < 0 ∧ (0 : Int) ≤ (format α).exponentBias + 1 := by
    have := Binary.minExponent_eq (format α)
    have := three_le_bias (α := α)
    omega
  rw [binaryExponent_eq_read]
  cases h : read a with
  | undefined | bottom | top => exact hzero
  | finite q =>
    by_cases hq : q = 0
    · exact hq ▸ hzero
    · exact exponent_bounds hq h

protected theorem Stands.factor {e : Int} (he : e ≤ (format α).exponentBias + 1) :
    Stands (factor e : α) (halfway e) := by
  have hbias := three_le_bias (α := α)
  rw [factor, halfway]
  split_ifs
  · exact .exp2 (by omega)
  · exact .exp2 (by omega)
  · exact .one

/-- The exponents that the factors of a round have. -/
theorem halfway_bounds (a : α) : 1 - ((format α).exponentBias : Int) ≤ 2 * halfway (binaryExponent a) ∧
    halfway (binaryExponent a) ≤ (format α).exponentBias := by
  obtain ⟨hlow, hhigh⟩ := binaryExponent_bounds a
  have hbias := three_le_bias (α := α)
  have hfraction := fraction_le_bias (α := α)
  rw [Binary.minExponent_eq] at hlow
  rw [halfway]
  split_ifs <;> omega

theorem Stands.combine {s t : α} {k l : Int} (hs : Stands s k) (ht : Stands t l)
    (hkl : 1 - (format α).exponentBias ≤ k + l)
    (hk : (format α).exponentBias < k → 0 ≤ l) (hl : l ≤ (format α).exponentBias) :
    Stands (if t == 1 then s else s * t) (k + l) := by
  split_ifs with h
  · have hone : read t = read (1 : α) := by
      rw [beq_eq_read] at h
      exact (Extended.beq_iff.1 h).2
    rw [read, read, ht, Stands.one, Binary.saturate_power, Binary.saturate_power, if_pos hl,
      if_pos (Int.natCast_nonneg _), Binary.value_power, Binary.value_power,
      Extended.finite.injEq] at hone
    have hl := (zpow_right_injective₀ (by norm_num) (by norm_num)) hone
    simpa [hl] using hs
  · exact hs.mul ht hkl hk fun h => absurd h (not_lt.2 hl)

/-! ### Factors of a row or column -/

/-- What the rounds so far say of the factor `s` of a row or column whose norm has exponent `R`. The
exponents of the values are `2 * h + 3` at most, and `h` is positive before the first round only. -/
structure Tracks (h l c R : Int) (s : α) (k : Int) : Prop where
  stands : Stands s k
  lower : -l ≤ k
  upper : k ≤ c
  upper_norm : k - R ≤ c
  first : h = 0 ∨ k = 0
  normal : 1 - ((format α).exponentBias : Int) ≤ k

theorem Tracks.next {h l c R k : Int} {s t : α} (hs : Tracks h l c R s k) (hh : 0 ≤ h)
    {a : α} (ha : binaryExponent a = R) (hR : R ≤ 2 * h + 3) (ht : Stands t (halfway R)) {R' : Int}
    (hR' : min 0 (R + halfway R - h) ≤ R') :
    Tracks 0 (l + h) (c + h) R' (if t == 1 then s else s * t) (k + halfway R) := by
  obtain ⟨hstands, hlower, hupper, hnorm, hfirst, hnormal⟩ := hs
  have hbounds := halfway_bounds a
  rw [ha] at hbounds
  have hhalf : -h ≤ halfway R ∧ (R < 0 → 0 ≤ halfway R ∧ R + halfway R ≤ 0) ∧
      (0 ≤ R → halfway R ≤ 0 ∧ 0 ≤ R + halfway R) := by
    rw [halfway]
    split_ifs <;> omega
  have hbias := three_le_bias (α := α)
  exact
    { stands := hstands.combine ht (by omega) (by omega) hbounds.2
      lower := by omega
      upper := by omega
      upper_norm := by omega
      first := .inl rfl
      normal := by omega }

/-- The exponent of the norm of the values of a row or column. -/
def lineExponent (es : List (Nat × α)) : Int := binaryExponent (largest (es.map (·.2)))

theorem lineExponent_eq (es : List (Nat × α)) :
    lineExponent es = binaryExponent (largest (es.map fun e => read e.2)) := by
  rw [lineExponent, binaryExponent_eq_read, read_largest, List.map_map]
  rfl

theorem lineExponent_eq_or (es : List (Nat × α)) :
    lineExponent es = 0 ∨ ∃ e ∈ es, lineExponent es = binaryExponent e.2 := by
  rw [lineExponent_eq]
  rcases largest_cases (es.map fun e => read e.2) with h | ⟨h, -⟩ | ⟨q, hq, hmem, h⟩
  · exact .inl (h ▸ rfl)
  · exact .inl (h ▸ rfl)
  · obtain ⟨e, he, heq⟩ := List.mem_map.1 hmem
    refine .inr ⟨e, he, ?_⟩
    rw [h, binaryExponent_finite, binaryExponentOfRat_abs, binaryExponent_eq_read, heq,
      binaryExponent_finite]

/-- Unless the norm is infinite, it has the largest exponent. -/
theorem le_lineExponent {es : List (Nat × α)} {e : Nat × α} (he : e ∈ es) {q : Rat} (hq : q ≠ 0)
    (h : read e.2 = .finite q) :
    (lineExponent es = 0 ∧ ∃ e' ∈ es, isFinite e'.2 = false) ∨
      binaryExponentOfRat q ≤ lineExponent es := by
  rw [lineExponent_eq]
  have hmem : Extended.finite q ∈ es.map fun e => read e.2 := List.mem_map.2 ⟨e, he, h⟩
  rcases le_binaryExponent_largest hq hmem with htop | ⟨p, hp, h', hle⟩
  · rcases largest_cases (es.map fun e => read e.2) with h' | ⟨-, a, ha, hinf⟩ | ⟨p, -, -, h'⟩
    · exact Extended.noConfusion (h'.symm.trans htop)
    · obtain ⟨e', he', rfl⟩ := List.mem_map.1 ha
      refine .inl ⟨htop ▸ rfl, e', he', ?_⟩
      rw [isFinite_eq_read, isFinite, hinf]
      rfl
    · exact Extended.noConfusion (h'.symm.trans htop)
  · exact .inr (h' ▸ hle)

theorem binaryExponent_mul_le {s : α} {k b : Int} (hs : Stands s k) (a : α) (hb : 0 ≤ b)
    (h : ∀ q ≠ 0, read a = .finite q → binaryExponentOfRat q + k ≤ b) :
    binaryExponent (a * s) ≤ b := by
  rw [binaryExponent_eq_read]
  cases hread : read (a * s) with
  | undefined | bottom | top => exact hb
  | finite v =>
    by_cases hv : v = 0
    · exact hv ▸ hb
    · obtain ⟨q, hq, ha, -, hle⟩ := (hs.movedBy_mul a).nonzero v hv hread
      exact hle.trans (max_le hb (h q hq ha))

/-- The exponent of a norm after a round. -/
theorem le_lineExponent_map (es : List (Nat × α)) {f : Nat → α} {k : Nat → Int} {d : Int}
    (hf : ∀ e ∈ es, Stands (f e.1) (k e.1)) (hd : ∀ e ∈ es, d ≤ k e.1) :
    min 0 (lineExponent es + d) ≤ lineExponent (es.map fun e => (e.1, e.2 * f e.1)) := by
  rw [lineExponent_eq, lineExponent_eq, List.map_map]
  exact Binary.le_binaryExponent_largest_of_movedBy (fun e he => (hf e he).movedBy_mul e.2)
    (fun e _ v hv hread => (exponent_bounds hv hread).1) hd

end BinaryScalar

namespace Equilibration

open BinaryScalar

variable {α : Type} [Scalar α] [BinaryScalar α]

/-! ### The factors of a round -/

section Round

variable {A : Csc α} {cn rn : Vec α}

theorem stands_colFactor (hA : A.Layout) (hc : A.colNorms? A.cols = some cn) {j : Nat}
    (hj : j < A.cols) : Stands ((factors cn).entry j) (halfway (lineExponent (A.column j))) := by
  have hcn : cn.entry j = largest ((A.column j).map (·.2)) := by
    rw [← Option.some_inj.1 (hA.colNorms?_eq.symm.trans hc), Vec.entry_range _ _ hj]
  rw [entry_factors (hj.trans_eq (Csc.size_of_colNorms? hc).symm), hcn]
  exact .factor (binaryExponent_bounds _).2

theorem stands_rowFactor (hA : A.Layout) (hr : A.rowNorms? A.rows = some rn) {i : Nat}
    (hi : i < A.rows) : Stands ((factors rn).entry i) (halfway (lineExponent (A.row i))) := by
  have hrn : rn.entry i = largest ((A.row i).map (·.2)) := by
    rw [← Option.some_inj.1 (hA.rowNorms?_eq.symm.trans hr), Vec.entry_range _ _ hi]
  rw [entry_factors (hi.trans_eq (Csc.size_of_rowNorms? hr).symm), hrn]
  exact .factor (binaryExponent_bounds _).2

/-- What the value in row `i` and column `j` is multiplied by. -/
theorem stands_mul_factor (hA : A.Layout) (hc : A.colNorms? A.cols = some cn)
    (hr : A.rowNorms? A.rows = some rn) {i j : Nat} (hi : i < A.rows) (hj : j < A.cols) :
    Stands ((factors rn).entry i * (factors cn).entry j)
      (halfway (lineExponent (A.row i)) + halfway (lineExponent (A.column j))) := by
  have hR : _ ≤ 2 * halfway (lineExponent (A.row i)) ∧ halfway (lineExponent (A.row i)) ≤ _ :=
    halfway_bounds _
  have hC : _ ≤ 2 * halfway (lineExponent (A.column j)) ∧ halfway (lineExponent (A.column j)) ≤ _ :=
    halfway_bounds _
  exact (stands_rowFactor hA hr hi).mul (stands_colFactor hA hc hj) (by omega) (by omega) (by omega)

end Round

/-! ### States -/

/-- What the rounds so far say of a state, see `Tracks`. -/
structure Leveled (h l c : Int) (E : Equilibration α) : Prop where
  layout : E.matrix.Layout
  size_colscale : E.colscale.size = E.matrix.cols
  size_rowscale : E.rowscale.size = E.matrix.rows
  exponent_le : ∀ a ∈ E.matrix.nzval, binaryExponent a ≤ 2 * h + 3
  first : h = 0 ∨ ∀ a ∈ E.matrix.nzval, isFinite a = true
  col : ∀ j < E.matrix.cols, ∃ k,
    Tracks h l c (lineExponent (E.matrix.column j)) (E.colscale.entry j) k
  row : ∀ i < E.matrix.rows, ∃ k,
    Tracks h l c (lineExponent (E.matrix.row i)) (E.rowscale.entry i) k

namespace Leveled

variable {h l c : Int} {E : Equilibration α}

theorem lineExponent_le (hE : Leveled h l c E) (hh : 0 ≤ h) {es : List (Nat × α)}
    (hes : ∀ e ∈ es, e.2 ∈ E.matrix.nzval) : lineExponent es ≤ 2 * h + 3 := by
  rcases lineExponent_eq_or es with h | ⟨e, he, h⟩
  · omega
  · exact h ▸ hE.exponent_le e.2 (hes e he)

/-- A norm is no smaller than a value, or it is infinite, but not before the first round. -/
theorem le_lineExponent (hE : Leveled h l c E) {es : List (Nat × α)}
    (hes : ∀ e ∈ es, e.2 ∈ E.matrix.nzval) {e : Nat × α} (he : e ∈ es) {q : Rat} (hq : q ≠ 0)
    (hread : read e.2 = .finite q) :
    (lineExponent es = 0 ∧ h = 0) ∨ binaryExponentOfRat q ≤ lineExponent es := by
  refine (BinaryScalar.le_lineExponent he hq hread).imp_left fun ⟨hzero, d, hd, hinf⟩ => ⟨hzero, ?_⟩
  refine hE.first.resolve_right fun hfinite => ?_
  rw [hfinite d.2 (hes d hd)] at hinf
  exact Bool.noConfusion hinf

theorem next (hE : Leveled h l c E) (hh : 0 ≤ h) {E₁ : Equilibration α} (hround : Round E E₁) :
    Leveled 0 (l + h) (c + h) E₁ := by
  have hA := hE.layout
  obtain ⟨cn, rn, hc, hr, hcsize, hrsize, hcol, hrow, hmap⟩ := hround.exists_factors hA
  have hC : ∀ j < E.matrix.cols, lineExponent (E.matrix.column j) ≤ 2 * h + 3 := fun j hj =>
    hE.lineExponent_le hh fun _ => hE.layout.mem_nzval_of_column hj
  have hR : ∀ i, lineExponent (E.matrix.row i) ≤ 2 * h + 3 := fun i =>
    hE.lineExponent_le hh fun _ => hE.layout.mem_nzval_of_row
  refine ⟨hmap.layout hA, ?_, ?_, fun a ha => ?_, .inl rfl, fun j hj => ?_, fun i hi => ?_⟩
  · simp [hcol, combine, hcsize, hE.size_colscale, hmap.cols_eq]
  · simp [hrow, combine, hrsize, hE.size_rowscale, hmap.rows_eq]
  · obtain ⟨j, hj, e', he', rfl⟩ := (hmap.layout hA).mem_nzval_iff.1 ha
    replace hj : j < E.matrix.cols := hmap.cols_eq ▸ hj
    obtain ⟨e, he, rfl⟩ := List.mem_map.1 (hmap.column j hj ▸ he')
    have hi := hA.row_lt j hj e he
    refine binaryExponent_mul_le (stands_mul_factor hA hc hr hi hj) e.2 (by omega)
      fun q hq hread => ?_
    have hexp := hE.exponent_le e.2 (hE.layout.mem_nzval_of_column hj he)
    rw [binaryExponent_eq_read, hread] at hexp
    refine add_halfway_le hexp ?_ ?_
    · exact hE.le_lineExponent (fun _ => hE.layout.mem_nzval_of_row) (e := (j, e.2))
        (Csc.mem_row.2 ⟨hj, he⟩) hq hread
    · exact hE.le_lineExponent (fun _ => hE.layout.mem_nzval_of_column hj) he hq hread
  · replace hj : j < E.matrix.cols := hmap.cols_eq ▸ hj
    obtain ⟨k, hk⟩ := hE.col j hj
    refine ⟨k + halfway (lineExponent (E.matrix.column j)), ?_⟩
    rw [hcol, entry_combine_eq _ _ (hE.size_colscale.symm ▸ hj) (hcsize.symm ▸ hj),
      hmap.column j hj]
    refine hk.next hh rfl (hC j hj) (stands_colFactor hA hc hj) ?_
    rw [Int.add_sub_assoc]
    refine le_lineExponent_map _ (f := fun i => (factors rn).entry i * (factors cn).entry j)
      (k := fun i => halfway (lineExponent (E.matrix.row i)) +
        halfway (lineExponent (E.matrix.column j)))
      (fun e he => stands_mul_factor hA hc hr (hA.row_lt j hj e he) hj) fun e _ => ?_
    have := halfway_ge hh (hR e.1)
    omega
  · replace hi : i < E.matrix.rows := hmap.rows_eq ▸ hi
    obtain ⟨k, hk⟩ := hE.row i hi
    refine ⟨k + halfway (lineExponent (E.matrix.row i)), ?_⟩
    rw [hrow, entry_combine_eq _ _ (hE.size_rowscale.symm ▸ hi) (hrsize.symm ▸ hi),
      hmap.row i]
    refine hk.next hh rfl (hR i) (stands_rowFactor hA hr hi) ?_
    rw [Int.add_sub_assoc]
    refine le_lineExponent_map _ (f := fun j => (factors rn).entry i * (factors cn).entry j)
      (k := fun j => halfway (lineExponent (E.matrix.row i)) +
        halfway (lineExponent (E.matrix.column j)))
      (fun e he => stands_mul_factor hA hc hr hi (Csc.mem_row.1 he).1) fun e he => ?_
    have := halfway_ge hh (hC e.1 (Csc.mem_row.1 he).1)
    omega

/-- The state before the first round. -/
theorem start {A : Csc α} (hA : A.WellFormed) {u w : Nat}
    (hexp : ∀ a ∈ A.nzval, -u ≤ binaryExponent a ∧ binaryExponent a ≤ 2 * w + 3) :
    Leveled w 0 u (start A) := by
  have hlayout := hA.layout
  have hline : ∀ {es : List (Nat × α)} {s : α}, (∀ e ∈ es, e.2 ∈ A.nzval) → s = 1 →
      Tracks w 0 u (lineExponent es) s 0 := by
    rintro es s hes rfl
    have hle : -u ≤ lineExponent es := by
      rcases lineExponent_eq_or es with h | ⟨e, he, h⟩
      · omega
      · exact h ▸ (hexp e.2 (hes e he)).1
    have hbias := three_le_bias (α := α)
    exact ⟨.one, by omega, by omega, by omega, .inr rfl, by omega⟩
  refine ⟨hlayout, by simp [Equilibration.start], by simp [Equilibration.start],
    fun a ha => (hexp a ha).2, .inr hA.finite, fun j hj => ⟨0, hline (fun e he => ?_) ?_⟩,
    fun i hi => ⟨0, hline (fun e he => ?_) ?_⟩⟩
  · exact hlayout.mem_nzval_of_column hj he
  · exact Vec.entry_replicate 1 hj
  · exact hlayout.mem_nzval_of_row he
  · exact Vec.entry_replicate 1 hi

end Leveled

/-- `s` is `2 ^ k` with `k` from `low` to `high`, or infinite if `k` is above `greatest`. -/
def IsPower (greatest low high : Int) (s : α) : Prop :=
  ∃ k, low ≤ k ∧ k ≤ high ∧
    if k ≤ greatest then toRat? s = some (2 ^ k) else (s == infinity) = true

/-- There is a power of two for every column and row. -/
structure HasPowers (E : Equilibration α) (A : Csc α) (greatest low high : Int) : Prop where
  size_colscale : E.colscale.size = A.cols
  size_rowscale : E.rowscale.size = A.rows
  colscale : ∀ s ∈ E.colscale, IsPower greatest low high s
  rowscale : ∀ s ∈ E.rowscale, IsPower greatest low high s

theorem IsPower.of_tracks {h l c R k : Int} {s : α} (hs : Tracks h l c R s k) (hh : 0 ≤ h) :
    IsPower (format α).exponentBias (-(l + h)) (c + h) s := by
  refine ⟨k, by have := hs.lower; omega, by have := hs.upper; omega, ?_⟩
  split_ifs with hk
  · exact hs.stands.toRat?_eq hk
  · exact hs.stands.beq_infinity (not_le.1 hk)

theorem Leveled.hasPowers {h l c : Int} {E : Equilibration α} (hE : Leveled h l c E) (hh : 0 ≤ h)
    {A : Csc α} (hA : Reaches A E) :
    E.HasPowers A (format α).exponentBias (-(l + h)) (c + h) where
  size_colscale := hA.size_colscale
  size_rowscale := hA.size_rowscale
  colscale s hs := by
    obtain ⟨j, hj, rfl⟩ := Array.mem_iff_getElem.1 hs
    obtain ⟨k, hk⟩ := hE.col j (hE.size_colscale ▸ hj)
    rw [← Vec.entry_eq_getElem _ hj]
    exact .of_tracks hk hh
  rowscale s hs := by
    obtain ⟨i, hi, rfl⟩ := Array.mem_iff_getElem.1 hs
    obtain ⟨k, hk⟩ := hE.row i (hE.size_rowscale ▸ hi)
    rw [← Vec.entry_eq_getElem _ hi]
    exact .of_tracks hk hh

/-- What the exponents of the values promise is kept by every round. -/
theorem leveled_of_run? {E E' : Equilibration α} {h l c : Int} (hE : Leveled h l c E) (hh : 0 ≤ h)
    {n : Nat} (hrun : run? n E = some E') :
    ∃ h' l' c', 0 ≤ h' ∧ l' + h' = l + h ∧ c' + h' = c + h ∧ Leveled h' l' c' E' := by
  refine run?_keeps (P := fun E' => ∃ h' l' c', 0 ≤ h' ∧ l' + h' = l + h ∧
    c' + h' = c + h ∧ Leveled h' l' c' E') ?_ ⟨h, l, c, hh, rfl, rfl, hE⟩ hrun
  rintro E E₁ hround ⟨h', l', c', hh', hl, hc, hE⟩
  exact ⟨0, l' + h', c' + h', le_rfl, by omega, by omega, hE.next hh' hround⟩

end Equilibration

open Equilibration BinaryScalar in
theorem Csc.WellFormed.exists_hasPowers {α : Type} [Scalar α] [BinaryScalar α] {A : Csc α}
    (hA : A.WellFormed) {u w : Nat}
    (hexp : ∀ a ∈ A.nzval, -u ≤ binaryExponent a ∧ binaryExponent a ≤ 2 * w + 3) (n : Nat) :
    ∃ E, A.equilibrate? n = some E ∧ E.HasPowers A (format α).exponentBias (-w) (u + w) := by
  obtain ⟨E, hE⟩ := A.exists_equilibrate?_eq_some hA.layout n
  have hreach := A.reaches_of_equilibrate? hA.layout hE
  refine ⟨E, hE, ?_⟩
  have hstart := Leveled.start hA hexp
  have hw : (0 : Int) ≤ w := Int.natCast_nonneg w
  unfold equilibrate? at hE
  split at hE
  · have h := (Option.some_inj.1 hE ▸ hstart).hasPowers hw hreach
    rwa [zero_add] at h
  · obtain ⟨h', l', c', hh', hl, hc, hlev⟩ := leveled_of_run? hstart hw hE
    have h := hlev.hasPowers hh' hreach
    rwa [hl, hc, zero_add] at h

/-! ### Double and single precision -/

/-- The factors of every matrix are powers of two, and all finite if `u + w` is an exponent of the
type. -/
theorem Csc.equilibrate?_powers (u w n : Nat) :
    (∀ A : Csc Float, A.checkFormat = .ok () →
      (∀ a ∈ A.nzval, -u ≤ binaryExponent a ∧ binaryExponent a ≤ 2 * w + 3) →
      ∃ E, A.equilibrate? n = some E ∧ E.HasPowers A 1023 (-w) (u + w)) ∧
    ∀ A : Csc Float32, A.checkFormat = .ok () →
      (∀ a ∈ A.nzval, -u ≤ binaryExponent a ∧ binaryExponent a ≤ 2 * w + 3) →
      ∃ E, A.equilibrate? n = some E ∧ E.HasPowers A 127 (-w) (u + w) :=
  ⟨fun A hA hexp => (A.checkFormat_eq_ok_iff.1 hA).exists_hasPowers hexp n,
    fun A hA hexp => (A.checkFormat_eq_ok_iff.1 hA).exists_hasPowers hexp n⟩

/-- A column of two values that no power of two brings together. -/
def Csc.lopsided {α : Type} (small large : α) : Csc α := ⟨2, 1, #[0, 2], #[0, 1], #[small, large]⟩

theorem Csc.checkFormat_lopsided {α : Type} [Scalar α] {small large : α}
    (hs : isFinite small = true) (hl : isFinite large = true) :
    (lopsided small large).checkFormat = .ok () := by
  have hzero : ∀ j < (lopsided small large).cols, j = 0 := fun j hj => by
    simpa [lopsided] using hj
  refine (checkFormat_eq_ok_iff _).2 ⟨rfl, rfl, rfl, ?_, rfl, by simp [lopsided, hs, hl], ?_, ?_⟩
  all_goals
    intro j hj
    rw [hzero j hj]
    simp [column, lopsided]

theorem Csc.equilibrate?_powers_lopsided :
    (∃ E, (lopsided (.ofBits 0x0170000000000000) (.ofBits 0x7e70000000000000) : Csc Float).equilibrate?
      3 = some E ∧ E.HasPowers (lopsided (.ofBits 0x0170000000000000) (.ofBits 0x7e70000000000000))
        1023 (-499) (999 + 499)) ∧
    ∃ E, (lopsided (.ofBits 0x0d800000) (.ofBits 0x71800000) : Csc Float32).equilibrate? 3 = some E ∧
      E.HasPowers (lopsided (.ofBits 0x0d800000) (.ofBits 0x71800000)) 127 (-49) (99 + 49) :=
  ⟨(equilibrate?_powers 999 499 3).1 _
      (checkFormat_lopsided (by decide +kernel) (by decide +kernel)) (by decide +kernel),
    (equilibrate?_powers 99 49 3).2 _
      (checkFormat_lopsided (by decide +kernel) (by decide +kernel)) (by decide +kernel)⟩

/-- A factor overflows in three rounds. -/
theorem Csc.equilibrate?_overflows :
    ∃ (A : Csc Float) (E : Equilibration Float), A.checkFormat = .ok () ∧
      A.equilibrate? 3 = some E ∧ toRat? (E.rowscale.entry 0) = none := by
  have hrun : ((lopsided (.ofBits 0x0170000000000000) (.ofBits 0x7e70000000000000) :
      Csc Float).equilibrate? 3).any (fun E => (toRat? (E.rowscale.entry 0)).isNone) = true := by
    decide +kernel
  obtain ⟨E, hE, hnone⟩ := Option.any_eq_true _ _ |>.1 hrun
  exact ⟨_, E, checkFormat_lopsided (by decide +kernel) (by decide +kernel), hE,
    Option.isNone_iff_eq_none.1 hnone⟩

end LpPresolve
