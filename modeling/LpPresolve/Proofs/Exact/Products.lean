import LpPresolve.Proofs.Exact.Matrices
import LpPresolve.Proofs.Program.Validity

/-! Sparse products of finite values. Each factor of 0, 1 or -1 has its own way through a product.
In exact arithmetic all of them lead to the same result as the way for other factors, and what they
compute is the product with the matrix or its transpose. -/

namespace LpPresolve.Csc

open Extended

/-- The sum `b y + a A x`, or that for the transpose, with no exception for any factor. -/
def generalProduct {α : Type} [Scalar α] (A : Csc α) (shape : Orientation) (a : α) (x : Vec α)
    (b : α) (y : Vec α) : Vec α :=
  A.triples.foldl (fun r t => r.setIfInBounds (shape.target t)
    (r.entry (shape.target t) + a * t.2.2 * x.entry (shape.source t))) (y.scale b)

@[simp] theorem size_generalProduct {α : Type} [Scalar α] (A : Csc α) (shape : Orientation)
    (a : α) (x : Vec α) (b : α) (y : Vec α) : (A.generalProduct shape a x b y).size = y.size := by
  rw [generalProduct, Vec.size_foldl_setIfInBounds shape.target
    (fun s t => s + a * t.2.2 * x.entry (shape.source t)), Vec.scale, Array.size_map]

variable {A : Csc Extended}

theorem entry_generalProduct (hA : A.Layout) (hf : A.Finite) (shape : Orientation) (a : Rat)
    {x : Vec Extended} (hx : x.isFinite = true) (b : Rat) {y : Vec Extended}
    (hy : y.isFinite = true) (hys : y.size = A.outer shape) {i : Nat} (hi : i < A.outer shape) :
    (A.generalProduct shape (finite a) x (finite b) y).entry i =
      finite (b * y.value i + a * A.dotAt shape i x.value) := by
  have hstart : (y.scale (finite b)).entry i = finite (b * y.value i) := by
    rw [Vec.scale, Vec.entry_map _ _ (y.getElem?_eq_some_entry (hys ▸ hi)), Vec.entry_eq_finite hy,
      finite_mul_finite, mul_comm]
  have hline : (A.line shape i).foldl (fun s e => s + finite a * e.2 * x.entry e.1)
      (finite (b * y.value i)) = finite (b * y.value i + a * A.dotAt shape i x.value) := by
    rw [← sum_line hA hf shape hi]
    refine foldl_line_finite (fun e he s => ?_) _
    rw [eq_finite_value (hf.isFinite_line shape hi e he), Vec.entry_eq_finite hx,
      finite_mul_finite, finite_mul_finite, finite_add_finite, mul_assoc]
    rfl
  rw [generalProduct, Vec.entry_foldl_setIfInBounds shape.target
    (fun s t => s + finite a * t.2.2 * x.entry (shape.source t)) _ _ (by simp [Vec.scale, hys, hi]),
    hstart, ← hline, ← A.map_filter_target shape hi, List.foldl_map]

/-- A product on its own, with nothing to add it to. -/
theorem gemv?_zeros (hA : A.Layout) (hf : A.Finite) (shape : Orientation) {n : Nat}
    (hn : A.outer shape = n) {x : Vec Extended} (hx : x.isFinite = true)
    (hxs : x.size = A.inner shape) :
    ∃ p, A.gemv? shape 1 x 0 (Vec.zeros n) = some p ∧ p.isFinite = true ∧ p.size = n ∧
      ∀ i < n, p.value i = A.dotAt shape i x.value := by
  subst hn
  obtain ⟨p, hp, hps, hentry⟩ :=
    gemv?_finite hA hf shape 1 hx hxs 0 (Vec.isFinite_zeros _) (Vec.size_zeros _)
  have hvalue : ∀ i < A.outer shape, p.entry i = finite (A.dotAt shape i x.value) := fun i hi => by
    rw [hentry i hi, zero_mul, zero_add, one_mul]
  exact ⟨p, hp, Vec.isFinite_of_entry fun i hi => hvalue i (hps ▸ hi), hps,
    fun i hi => Vec.value_of_entry (hvalue i hi)⟩

/-- The products with the matrix and with its transpose are adjoint. -/
theorem dot?_gemv?_comm (hA : A.Layout) (hf : A.Finite) {x w : Vec Extended}
    (hx : x.isFinite = true) (hxs : x.size = A.cols) (hw : w.isFinite = true)
    (hws : w.size = A.rows) :
    ∃ p q d, A.gemv? .normal 1 x 0 (Vec.zeros A.rows) = some p ∧
      A.gemv? .transposed 1 w 0 (Vec.zeros A.cols) = some q ∧ w.dot? p = some d ∧
      x.dot? q = some d := by
  obtain ⟨p, hp, hpf, hps, hpv⟩ := gemv?_zeros hA hf .normal rfl hx hxs
  obtain ⟨q, hq, hqf, hqs, hqv⟩ := gemv?_zeros hA hf .transposed rfl hw hws
  refine ⟨p, q, w.dot p, hp, hq, if_pos (hws.trans hps.symm), ?_⟩
  rw [Vec.dot?, Vec.ifSameSize, if_pos (hxs.trans hqs.symm), Vec.dot_eq hw hpf hws hps,
    Vec.dot_eq hx hqf hxs hqs]
  congr 2
  calc ∑ j ∈ Finset.range A.cols, x.value j * q.value j
      = ∑ j ∈ Finset.range A.cols, A.colDot j w.value * x.value j :=
        Finset.sum_congr rfl fun j hj => by
          rw [hqv j (Finset.mem_range.1 hj), mul_comm]
          rfl
    _ = ∑ i ∈ Finset.range A.rows, A.rowDot i x.value * w.value i := A.sum_colDot_mul _ _
    _ = ∑ i ∈ Finset.range A.rows, w.value i * p.value i :=
        Finset.sum_congr rfl fun i hi => by
          rw [hpv i (Finset.mem_range.1 hi), mul_comm]
          rfl

/-- Whatever the factors, products with an accepted matrix and with its transpose are those of its
entries and what the way for general factors leads to, and the two are adjoint. -/
theorem gemv?_exact (hA : A.checkFormat = .ok ()) :
    (∀ (shape : Orientation) (a b : Rat) {x y : Vec Extended}, x.isFinite = true →
      y.isFinite = true → x.size = A.inner shape → y.size = A.outer shape →
      ∃ r, A.gemv? shape (finite a) x (finite b) y = some r ∧
        r = A.generalProduct shape (finite a) x (finite b) y ∧ r.size = A.outer shape ∧
        ∀ i < A.outer shape, r.entry i = finite (b * y.value i + a * A.dotAt shape i x.value)) ∧
    ∀ {x w : Vec Extended}, x.isFinite = true → w.isFinite = true → x.size = A.cols →
      w.size = A.rows → ∃ p q d, A.gemv? .normal 1 x 0 (Vec.zeros A.rows) = some p ∧
        A.gemv? .transposed 1 w 0 (Vec.zeros A.cols) = some q ∧ w.dot? p = some d ∧
        x.dot? q = some d := by
  have hformat := A.checkFormat_eq_ok_iff.1 hA
  have hlayout := hformat.layout
  have hfinite := hformat.finite_column
  refine ⟨fun shape a b x y hx hy hxs hys => ?_,
    fun hx hw hxs hws => dot?_gemv?_comm hlayout hfinite hx hxs hw hws⟩
  obtain ⟨r, hr, hrs, hentry⟩ := gemv?_finite hlayout hfinite shape a hx hxs b hy hys
  refine ⟨r, hr, Vec.ext_entry (by simp [hrs, hys]) fun i hi => ?_, hrs, hentry⟩
  have hi := hrs ▸ hi
  rw [hentry i hi, entry_generalProduct hlayout hfinite shape a hx b hy hys hi]

/-- A column out of order with an explicit zero in it, and a row that only the second one has. -/
def tall : Csc Extended := ⟨3, 2, #[0, 2, 4], #[2, 0, 2, 1], #[finite 3, 0, finite (1 / 2), -1]⟩

theorem gemv?_exact_tall :
    tall.checkFormat = .ok () ∧
    (∃ r, tall.gemv? .normal (-1) #[1, finite 4] 1 #[1, 0, finite 5] = some r ∧
      r = tall.generalProduct .normal (-1) #[1, finite 4] 1 #[1, 0, finite 5] ∧ r.entry 2 = 0) ∧
    (∃ r, tall.gemv? .transposed (finite 2) #[-1, 1, 1] 0 #[1, 1] = some r ∧
      r = tall.generalProduct .transposed (finite 2) #[-1, 1, 1] 0 #[1, 1] ∧ r.entry 1 = -1) ∧
    ∃ p q d, tall.gemv? .normal 1 #[1, finite 4] 0 (Vec.zeros 3) = some p ∧
      tall.gemv? .transposed 1 #[-1, 1, 1] 0 (Vec.zeros 2) = some q ∧
      Vec.dot? #[-1, 1, 1] p = some d ∧ Vec.dot? #[1, finite 4] q = some d := by
  have htall : tall.checkFormat = .ok () := tall.checkFormat_eq_ok_iff.2 (by decide +kernel)
  obtain ⟨hproduct, hadjoint⟩ := gemv?_exact htall
  obtain ⟨r, hr, hgeneral, -, hentry⟩ := hproduct .normal (-1) 1 (x := #[1, finite 4])
    (y := #[1, 0, finite 5]) (by decide +kernel) (by decide +kernel) rfl rfl
  obtain ⟨s, hs, hgeneral', -, hentry'⟩ := hproduct .transposed 2 0 (x := #[-1, 1, 1])
    (y := #[1, 1]) (by decide +kernel) (by decide +kernel) rfl rfl
  refine ⟨htall, ⟨r, hr, hgeneral, (hentry 2 (by decide)).trans ?_⟩,
    ⟨s, hs, hgeneral', (hentry' 1 (by decide)).trans ?_⟩,
    hadjoint (by decide +kernel) (by decide +kernel) rfl rfl⟩
  · decide +kernel
  · decide +kernel

end LpPresolve.Csc
