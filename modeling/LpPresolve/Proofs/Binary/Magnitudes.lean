import LpPresolve.Proofs.Binary.Scalars
import LpPresolve.Proofs.Exact.Magnitudes

/-! Norms in a binary format. The exponent of the norm of a row or column is at least that of each of
its values, and products with powers of two lower it no more than the exponents of these do. -/

namespace LpPresolve

open Extended Scalar

/-- Moving every value of a line moves its norm down no further than one of the values. -/
theorem Binary.le_binaryExponent_largest_of_movedBy {β : Type} {xs : List β} {a b : β → Extended}
    {k : β → Int} {least d : Int} (hmoved : ∀ x ∈ xs, MovedBy least (k x) (a x) (b x))
    (hleast : ∀ x ∈ xs, ∀ v ≠ 0, b x = finite v → least < binaryExponentOfRat v)
    (hd : ∀ x ∈ xs, d ≤ k x) :
    min 0 (binaryExponent (largest (xs.map a)) + d) ≤ binaryExponent (largest (xs.map b)) := by
  rcases largest_cases (xs.map b) with h | ⟨h, -⟩ | ⟨v, hv, hmem, h⟩
  · exact h ▸ min_le_left _ _
  · exact h ▸ min_le_left _ _
  have htop : largest (xs.map b) ≠ top := h ▸ Extended.noConfusion
  obtain ⟨y, hy, hby⟩ := List.mem_map.1 hmem
  rcases largest_cases (xs.map a) with h' | ⟨-, a', ha', hinf⟩ | ⟨q, hq, hmem', h'⟩
  · -- all values of the line are zero or undefined, and so is what becomes of them
    obtain ⟨q, hq, hay, -⟩ := (hmoved y hy).nonzero v hv hby
    rcases le_binaryExponent_largest hq (List.mem_map.2 ⟨y, hy, hay⟩) with h | ⟨p, hp, h, -⟩
    · exact Extended.noConfusion (h'.symm.trans h)
    · exact absurd (Extended.finite.inj (h'.symm.trans h)).symm hp
  · obtain ⟨x, hx, rfl⟩ := List.mem_map.1 ha'
    exact absurd (largest_eq_top (List.mem_map_of_mem hx) ((hmoved x hx).infinite hinf)) htop
  · obtain ⟨x, hx, hax⟩ := List.mem_map.1 hmem'
    have hmx := hmoved x hx
    have hbx : b x ∈ xs.map b := List.mem_map_of_mem hx
    have hdx := hd x hx
    rw [h, h', binaryExponent_finite, binaryExponent_finite, binaryExponentOfRat_abs,
      binaryExponentOfRat_abs]
    have hvy := hleast y hy v hv hby
    cases hb : b x with
    | undefined => exact absurd hb (hmx.defined q hq hax)
    | bottom | top => exact absurd (largest_eq_top hbx (by rw [hb]; rfl)) htop
    | finite w =>
      by_cases hw : w = 0
      · have := hmx.underflow q hq hax (hw ▸ hb)
        omega
      · obtain ⟨q', -, hax', hlow, -⟩ := hmx.nonzero w hw hb
        obtain rfl : q' = q := Extended.finite.inj (hax'.symm.trans hax)
        rcases le_binaryExponent_largest hw (hb ▸ hbx) with h' | ⟨p, -, h', hp⟩
        · exact absurd h' htop
        · obtain rfl : p = |v| := Extended.finite.inj (h'.symm.trans h)
          rw [binaryExponentOfRat_abs] at hp
          omega

namespace BinaryScalar

variable {α : Type} [Scalar α] [BinaryScalar α]

theorem read_largest (as : List α) : read (largest as) = largest (as.map read) := by
  have hloop : ∀ m : α, read (as.foldl (fun m a => maxNum m (Scalar.magnitude a)) m) =
      (as.map read).foldl (fun m a => maxNum m (Scalar.magnitude a)) (read m) := by
    induction as with
    | nil => exact fun m => rfl
    | cons a r ih =>
      intro m
      rw [List.foldl_cons, ih, read_maxNum, read_magnitude, List.map_cons, List.foldl_cons]
  rw [largest, hloop, read_zero, largest]

end BinaryScalar

end LpPresolve
