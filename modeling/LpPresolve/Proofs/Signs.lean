import LpPresolve.Proofs.Exact.Exponents
import LpPresolve.Proofs.Exact.Arithmetic

/-! Products and signs. Whatever a format rounds, the factors of a product may be exchanged, a sign passes
through a product, and it counts neither for a magnitude nor for a binary exponent. -/

namespace LpPresolve

open Scalar

/-- A scalar type whose products commute and carry the signs of their factors. -/
class LawfulMul (α : Type) [Scalar α] : Prop where
  mul_comm (a b : α) : a * b = b * a
  neg_mul (a b : α) : -a * b = -(a * b)
  magnitude_neg (a : α) : magnitude (-a) = magnitude a
  binaryExponent_magnitude (a : α) : binaryExponent (magnitude a) = binaryExponent a

namespace LawfulMul

variable {α : Type} [Scalar α] [LawfulMul α]

theorem binaryExponent_neg (a : α) : binaryExponent (-a) = binaryExponent a := by
  rw [← binaryExponent_magnitude, magnitude_neg, binaryExponent_magnitude]

theorem mul_neg_one {a : α} (h : a * 1 = a) : a * -1 = -a := by
  rw [mul_comm, neg_mul, mul_comm, h]

end LawfulMul

namespace Extended

theorem sign_neg (a : Extended) : (-a).sign = -a.sign := by
  cases a with
  | undefined | bottom | top => rfl
  | finite q => exact (congrArg Int.sign (Rat.num_neg_eq_neg_num q)).trans (Int.sign_neg _)

theorem infinite_neg (s : Int) : infinite (-s) = -infinite s := by
  rcases Int.lt_trichotomy s 0 with h | rfl | h
  · rw [infinite, infinite, if_neg (by omega), if_pos (by omega), if_pos h]
    rfl
  · rfl
  · rw [infinite, infinite, if_pos (by omega), if_neg (by omega), if_pos h]
    rfl

theorem mul_eq_infinite {a b : Extended} (h : ∀ p q, a = finite p → b ≠ finite q) :
    a * b = infinite (a.sign * b.sign) := by
  cases a with
  | undefined | bottom | top => rfl
  | finite p => cases b with
    | undefined | bottom | top => rfl
    | finite q => exact absurd rfl (h p q rfl)

protected theorem neg_mul (a b : Extended) : -a * b = -(a * b) := by
  by_cases h : ∃ p q, a = finite p ∧ b = finite q
  · obtain ⟨p, q, rfl, rfl⟩ := h
    exact congrArg finite (neg_mul p q)
  · push Not at h
    have h' : ∀ p q, -a = finite p → b ≠ finite q := by
      intro p q ha
      exact h (-p) q (by rw [← Extended.neg_neg a, ha, neg_finite])
    rw [mul_eq_infinite h, mul_eq_infinite h', sign_neg, Int.neg_mul, infinite_neg]

instance : LawfulMul Extended where
  mul_comm := Extended.mul_comm
  neg_mul := Extended.neg_mul
  magnitude_neg a := by
    cases a with
    | undefined | bottom | top => rfl
    | finite q => rw [neg_finite, magnitude_finite, magnitude_finite, abs_neg]
  binaryExponent_magnitude a := by
    cases a with
    | undefined | bottom | top => rfl
    | finite q =>
      rw [magnitude_finite]
      exact binaryExponentOfRat_abs q

end Extended

end LpPresolve
