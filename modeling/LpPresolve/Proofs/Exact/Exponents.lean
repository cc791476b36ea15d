import LpPresolve.Scalar
import Mathlib.Algebra.Order.Field.Power
import Mathlib.Algebra.Order.Field.Rat
import Mathlib.Data.Rat.Lemmas
import Mathlib.Tactic.Positivity

/-! The exponent of a rational: a nonzero one of exponent `e` has a magnitude in
`[2 ^ (e - 1), 2 ^ e)`. -/

namespace LpPresolve

theorem two_zpow_pos (e : Int) : (0 : Rat) < 2 ^ e := zpow_pos (by norm_num) e

theorem two_zpow_le {e f : Int} : (2 : Rat) ^ e ≤ 2 ^ f ↔ e ≤ f :=
  zpow_le_zpow_iff_right₀ (by norm_num)

theorem two_zpow_lt {e f : Int} : (2 : Rat) ^ e < 2 ^ f ↔ e < f :=
  zpow_lt_zpow_iff_right₀ (by norm_num)

theorem two_zpow_add (e f : Int) : (2 : Rat) ^ (e + f) = 2 ^ e * 2 ^ f :=
  zpow_add₀ (by norm_num) e f

theorem natCast_two_pow_mul (n : Nat) (e : Int) : ((2 ^ n : Nat) : Rat) * 2 ^ e = 2 ^ (n + e) := by
  rw [two_zpow_add, zpow_natCast, Nat.cast_pow, Nat.cast_two]

/-- Shifts to either side compare a fraction with a power of two. -/
theorem shiftLeft_lt_shiftLeft_iff {n d : Nat} (hd : 0 < d) (e : Int) :
    n <<< (-e).toNat < d <<< e.toNat ↔ (n : Rat) / d < 2 ^ e := by
  have hd : (0 : Rat) < d := by exact_mod_cast hd
  have he : (2 : Rat) ^ e * 2 ^ (-e).toNat = 2 ^ e.toNat := by
    rw [← zpow_natCast, ← zpow_natCast, ← two_zpow_add]
    congr 1
    omega
  rw [Nat.shiftLeft_eq, Nat.shiftLeft_eq, ← Nat.cast_lt (α := Rat), div_lt_iff₀ hd]
  push_cast
  rw [← he, mul_left_comm, ← mul_assoc]
  exact mul_lt_mul_iff_left₀ (by positivity)

theorem binaryExponentOfRat_neg (q : Rat) : binaryExponentOfRat (-q) = binaryExponentOfRat q := by
  simp [binaryExponentOfRat]

theorem binaryExponentOfRat_abs (q : Rat) : binaryExponentOfRat |q| = binaryExponentOfRat q := by
  rcases abs_choice q with h | h <;> rw [h]
  exact binaryExponentOfRat_neg q

theorem binaryExponentOfRat_spec {q : Rat} (hq : q ≠ 0) :
    2 ^ (binaryExponentOfRat q - 1) ≤ |q| ∧ |q| < 2 ^ binaryExponentOfRat q := by
  have hn : q.num.natAbs ≠ 0 := Int.natAbs_ne_zero.2 (Rat.num_ne_zero.2 hq)
  have hd := q.den_ne_zero
  have habs : |q| = (q.num.natAbs : Rat) / q.den := by
    rw [Nat.cast_natAbs, Int.cast_abs, ← Nat.abs_cast q.den, ← abs_div, Rat.num_div_den]
  -- the logarithms leave two exponents, and the comparison picks one
  set n := q.num.natAbs
  set d := q.den
  have hnlog : (2 : Rat) ^ n.log2 ≤ n ∧ (n : Rat) < 2 ^ (n.log2 + 1) :=
    ⟨by exact_mod_cast Nat.log2_self_le hn, by exact_mod_cast Nat.lt_log2_self⟩
  have hdlog : (2 : Rat) ^ d.log2 ≤ d ∧ (d : Rat) < 2 ^ (d.log2 + 1) :=
    ⟨by exact_mod_cast Nat.log2_self_le hd, by exact_mod_cast Nat.lt_log2_self⟩
  have hdpos : (0 : Rat) < d := by exact_mod_cast Nat.pos_of_ne_zero hd
  have hlow : (2 : Rat) ^ ((n.log2 : Int) - d.log2 - 1) ≤ |q| := by
    rw [habs, le_div_iff₀ hdpos]
    calc (2 : Rat) ^ ((n.log2 : Int) - d.log2 - 1) * d
        ≤ 2 ^ ((n.log2 : Int) - d.log2 - 1) * 2 ^ (d.log2 + 1) := by gcongr; exact hdlog.2.le
      _ = 2 ^ n.log2 := by
        rw [← zpow_natCast, ← zpow_natCast, ← two_zpow_add]
        congr 1
        omega
      _ ≤ n := hnlog.1
  have hhigh : |q| < 2 ^ ((n.log2 : Int) - d.log2 + 1) := by
    rw [habs, div_lt_iff₀ hdpos]
    calc (n : Rat) < 2 ^ (n.log2 + 1) := hnlog.2
      _ = 2 ^ ((n.log2 : Int) - d.log2 + 1) * 2 ^ d.log2 := by
        rw [← zpow_natCast, ← zpow_natCast, ← two_zpow_add]
        congr 1
        omega
      _ ≤ 2 ^ ((n.log2 : Int) - d.log2 + 1) * d := by gcongr; exact hdlog.1
  have hcmp := shiftLeft_lt_shiftLeft_iff (n := n) (Nat.pos_of_ne_zero hd) (n.log2 - d.log2)
  rw [← habs] at hcmp
  have hexp : binaryExponentOfRat q = if n <<< (-((n.log2 : Int) - d.log2)).toNat <
      d <<< ((n.log2 : Int) - d.log2).toNat then (n.log2 : Int) - d.log2
      else (n.log2 : Int) - d.log2 + 1 := if_neg (Rat.num_ne_zero.2 hq)
  rw [hexp]
  split_ifs with h
  · exact ⟨hlow, hcmp.1 h⟩
  · rw [add_sub_cancel_right]
    exact ⟨not_lt.1 (mt hcmp.2 h), hhigh⟩

variable {q : Rat} (hq : q ≠ 0) (e : Int)
include hq

theorem binaryExponentOfRat_le_iff : binaryExponentOfRat q ≤ e ↔ |q| < 2 ^ e := by
  obtain ⟨hlow, hhigh⟩ := binaryExponentOfRat_spec hq
  refine ⟨fun h => hhigh.trans_le (two_zpow_le.2 h), fun h => ?_⟩
  have := two_zpow_lt.1 (hlow.trans_lt h)
  omega

theorem le_binaryExponentOfRat_iff : e ≤ binaryExponentOfRat q ↔ 2 ^ (e - 1) ≤ |q| := by
  rw [← not_lt, ← not_lt, ← Int.le_sub_one_iff, binaryExponentOfRat_le_iff hq]

theorem binaryExponentOfRat_eq (h : 2 ^ (e - 1) ≤ |q|) (h' : |q| < 2 ^ e) :
    binaryExponentOfRat q = e :=
  le_antisymm ((binaryExponentOfRat_le_iff hq e).2 h') ((le_binaryExponentOfRat_iff hq e).2 h)

omit e in
theorem binaryExponentOfRat_mono {p : Rat} (h : |q| ≤ |p|) :
    binaryExponentOfRat q ≤ binaryExponentOfRat p := by
  have hp : p ≠ 0 := abs_pos.1 ((abs_pos.2 hq).trans_le h)
  exact (le_binaryExponentOfRat_iff hp _).2 ((binaryExponentOfRat_spec hq).1.trans h)

omit hq in
/-- A product with a power of two moves the exponent. -/
theorem binaryExponentOfRat_mul_two_zpow (hq : q ≠ 0) :
    binaryExponentOfRat (q * 2 ^ e) = binaryExponentOfRat q + e := by
  obtain ⟨hlow, hhigh⟩ := binaryExponentOfRat_spec hq
  have he := two_zpow_pos e
  refine binaryExponentOfRat_eq (mul_ne_zero hq he.ne') _ ?_ ?_
  · rw [abs_mul, abs_of_pos he, add_sub_right_comm, two_zpow_add]
    gcongr
  · rw [abs_mul, abs_of_pos he, two_zpow_add]
    gcongr

omit hq in
theorem binaryExponentOfRat_two_zpow : binaryExponentOfRat (2 ^ e) = e + 1 := by
  have h := binaryExponentOfRat_mul_two_zpow e one_ne_zero
  rw [one_mul] at h
  rw [h, show binaryExponentOfRat 1 = 1 by decide, add_comm]

end LpPresolve
