import LpPresolve.Equilibration
import LpPresolve.Proofs.Binary.Powers

/-! Scalars that are held in a binary interchange format. The operations act on unpacked numbers and
pack the rounded result. -/

namespace LpPresolve

open Float.Model (Format UnpackedFloat)
open Float.Model.UnpackedFloat (pack unpack)
open Scalar

/-- A scalar type whose values are the encodings of a binary format. -/
class BinaryScalar (α : Type) [Scalar α] where
  format : Format
  bits : α → BitVec format.numBits
  three_le_bias : 3 ≤ format.exponentBias
  fraction_le_bias : format.mantissaBitsWithoutImplicit ≤ format.exponentBias
  bits_zero : bits 0 = pack format (.zero .positive)
  bits_one : bits 1 = pack format (Binary.power format 0)
  bits_two : bits two = pack format (Binary.power format 1)
  bits_infinity : bits infinity = pack format (.infinity .positive)
  bits_mul (a b : α) : bits (a * b) = pack format (.mul format (unpack format (bits a))
    (unpack format (bits b)))
  bits_div (a b : α) : bits (a / b) = pack format (.div format (unpack format (bits a))
    (unpack format (bits b)))
  bits_magnitude (a : α) : bits (magnitude a) = pack format (.abs (unpack format (bits a)))
  lt_iff (a b : α) : a < b ↔ UnpackedFloat.lt (unpack format (bits a)) (unpack format (bits b)) = true
  beq_eq (a b : α) : (a == b) = UnpackedFloat.beq (unpack format (bits a)) (unpack format (bits b))
  toRat?_eq (a : α) : toRat? a = (Binary.encoding format).decode? (bits a).toNat

instance : BinaryScalar Float where
  format := .binary64
  bits a := a.toBits.toBitVec
  three_le_bias := by decide
  fraction_le_bias := by decide
  bits_zero := by decide +kernel
  bits_one := by decide +kernel
  bits_two := by decide +kernel
  bits_infinity := by decide +kernel
  bits_mul _ _ := rfl
  bits_div _ _ := rfl
  bits_magnitude _ := rfl
  lt_iff _ _ := decide_eq_true_iff
  beq_eq _ _ := rfl
  toRat?_eq _ := rfl

instance : BinaryScalar Float32 where
  format := .binary32
  bits a := a.toBits.toBitVec
  three_le_bias := by decide
  fraction_le_bias := by decide
  bits_zero := by decide +kernel
  bits_one := by decide +kernel
  bits_two := by decide +kernel
  bits_infinity := by decide +kernel
  bits_mul _ _ := rfl
  bits_div _ _ := rfl
  bits_magnitude _ := rfl
  lt_iff _ _ := decide_eq_true_iff
  beq_eq _ _ := rfl
  toRat?_eq _ := rfl

namespace BinaryScalar

variable {α : Type} [Scalar α] [BinaryScalar α]

/-! ### Values -/

/-- The number that a value encodes. -/
def number (a : α) : UnpackedFloat := unpack (format α) (bits a)

/-- A value as an extended rational. -/
def read (a : α) : Extended := Binary.value (number a)

theorem held_number (a : α) : Binary.Held (format α) (number a) :=
  Binary.held_unpack (by have := three_le_bias (α := α); omega) _

theorem rounded_number (a : α) : Binary.Rounded (format α) (number a) := (held_number a).rounded

theorem number_of_bits {a : α} {u : UnpackedFloat} (h : bits a = pack (format α) u)
    (hu : Binary.Rounded (format α) u) : number a = Binary.saturate (format α) u := by
  rw [number, h, Binary.unpack_pack hu]

theorem read_zero : read (0 : α) = 0 := by
  rw [read, number_of_bits bits_zero trivial]
  rfl

theorem read_infinity : read (infinity : α) = .top := by
  rw [read, number_of_bits bits_infinity trivial]
  rfl

theorem lt_iff_read (a b : α) : a < b ↔ read a < read b :=
  (lt_iff a b).trans (Binary.lt_eq_true_iff (rounded_number a) (rounded_number b))

theorem beq_eq_read (a b : α) : (a == b) = (read a == read b) :=
  (beq_eq a b).trans (Binary.beq_eq (rounded_number a) (rounded_number b))

theorem toRat?_eq_read (a : α) : toRat? a = toRat? (read a) :=
  (toRat?_eq a).trans (Binary.decode?_eq _)

theorem binaryExponent_eq_read (a : α) : binaryExponent a = binaryExponent (read a) := by
  rw [binaryExponent, toRat?_eq_read, binaryExponent]

theorem read_magnitude (a : α) : read (magnitude a) = magnitude (read a) := by
  have habs := (held_number a).abs
  rw [read, number_of_bits (bits_magnitude a) habs.rounded]
  exact (congrArg Binary.value habs.saturate_eq).trans (Binary.value_abs _)

theorem isFinite_eq_read (a : α) : isFinite a = isFinite (read a) := by
  rw [isFinite, isFinite, Bool.decide_congr (lt_iff_read _ _), read_magnitude, read_infinity]
  rfl

theorem isNaN_eq_read (a : α) : isNaN a = isNaN (read a) := by
  rw [isNaN, isNaN, beq_eq_read]

theorem read_maxNum (a b : α) : read (maxNum a b) = maxNum (read a) (read b) := by
  rw [maxNum, maxNum, isNaN_eq_read, if_congr (Iff.rfl) rfl (if_congr (lt_iff_read a b) rfl rfl)]
  split_ifs <;> rfl

/-- The exponents of nonzero numbers. -/
theorem exponent_bounds {a : α} {q : Rat} (hq : q ≠ 0) (h : read a = .finite q) :
    (format α).minExponent < binaryExponentOfRat q ∧
      binaryExponentOfRat q ≤ (format α).exponentBias + 1 :=
  (held_number a).exponent_bounds hq h

/-! ### Powers of two -/

open Binary (power saturate)

/-- The value is `2 ^ k`, or infinite if that is too large. -/
def Stands (s : α) (k : Int) : Prop := number s = saturate (format α) (power (format α) k)

namespace Stands

variable {s t : α} {k l : Int}

theorem of_bits (h : bits s = pack (format α) (power (format α) k))
    (hk : 1 - (format α).exponentBias ≤ k) : Stands s k :=
  number_of_bits h (Binary.rounded_power hk)

theorem toRat?_eq (h : Stands s k) (hk : k ≤ (format α).exponentBias) : toRat? s = some (2 ^ k) := by
  rw [toRat?_eq_read, read, h, Binary.saturate_power, if_pos hk, Binary.value_power]
  rfl

theorem beq_infinity (h : Stands s k) (hk : (format α).exponentBias < k) :
    (s == infinity) = true := by
  rw [beq_eq_read, read_infinity, read, h, Binary.saturate_power, if_neg (not_le.2 hk)]
  rfl

protected theorem one : Stands (1 : α) 0 :=
  .of_bits bits_one (by have := three_le_bias (α := α); omega)

protected theorem two : Stands (two : α) 1 := .of_bits bits_two (by omega)

/-- An infinite factor must not meet one below 1. -/
protected theorem mul (hs : Stands s k) (ht : Stands t l) (hkl : 1 - (format α).exponentBias ≤ k + l)
    (hk : (format α).exponentBias < k → 0 ≤ l) (hl : (format α).exponentBias < l → 0 ≤ k) :
    Stands (s * t) (k + l) := by
  have hbias := three_le_bias (α := α)
  rw [Stands, Binary.saturate_power] at hs ht
  by_cases hk' : k ≤ (format α).exponentBias
  · rw [if_pos hk'] at hs
    by_cases hl' : l ≤ (format α).exponentBias
    · rw [if_pos hl'] at ht
      refine .of_bits ?_ hkl
      rw [bits_mul, ← number, ← number, hs, ht, Binary.mul_power hkl]
    · rw [if_neg hl'] at ht
      have hbits := bits_mul s t
      rw [← number, ← number, hs, ht] at hbits
      rw [Stands, Binary.saturate_power, if_neg (by omega), number_of_bits hbits trivial]
      rfl
  · rw [if_neg hk'] at hs
    have hbits := bits_mul s t
    have hmul : UnpackedFloat.mul (format α) (.infinity .positive) (number t) =
        .infinity .positive := by
      rw [ht]
      split_ifs <;> rfl
    rw [← number, ← number, hs, hmul] at hbits
    rw [Stands, Binary.saturate_power, if_neg (by omega), number_of_bits hbits trivial]
    rfl

/-- A power of a power that is not below 1. -/
protected theorem pow (n : Nat) : ∀ {s : α} {k : Int}, 0 ≤ k → Stands s k →
    Stands (pow s n) (n * k) := by
  induction n using Nat.strongRecOn with
  | ind n ih =>
    intro s k hk hs
    have hbias := three_le_bias (α := α)
    rw [Scalar.pow]
    by_cases h₀ : n = 0
    · simpa [h₀] using Stands.one
    rw [if_neg h₀]
    have hsq := ih (n / 2) (by omega) (Int.add_nonneg hk hk)
      (hs.mul hs (by omega) (fun _ => hk) fun _ => hk)
    have hhalf : 0 ≤ ((n / 2 : Nat) : Int) * (k + k) := mul_nonneg (Nat.cast_nonneg _) (by omega)
    have hdiv : n = 2 * (n / 2) + n % 2 := (Nat.div_add_mod n 2).symm
    rcases Nat.mod_two_eq_zero_or_one n with h | h
    · have hn : (n : Int) * k = (n / 2 : Nat) * (k + k) := by
        conv_lhs => rw [hdiv, h]
        push_cast
        ring
      simpa [h, hn] using hsq
    · have hn : (n : Int) * k = (n / 2 : Nat) * (k + k) + k := by
        conv_lhs => rw [hdiv, h]
        push_cast
        ring
      simpa [h, hn] using hsq.mul hs (by omega) (fun _ => hk) fun _ => hhalf

protected theorem exp2 {k : Int} (hk : 2 - (format α).exponentBias ≤ k) :
    Stands (exp2 k : α) k := by
  have hbias := three_le_bias (α := α)
  have hpow (n : Nat) : Stands (pow two n : α) n := by
    simpa using Stands.two.pow (α := α) n Int.one_nonneg
  rw [Scalar.exp2]
  split_ifs with h
  · simpa [Int.toNat_of_nonneg h] using hpow k.toNat
  · have hn := hpow (-k).toNat
    rw [Stands, Binary.saturate_power, if_pos (by omega)] at hn
    have hone := Stands.one (α := α)
    rw [Stands, Binary.saturate_power, if_pos (by omega)] at hone
    refine .of_bits ?_ (by omega)
    rw [bits_div, ← number, ← number, hone, hn, Binary.div_power (by omega)]
    congr 2
    omega

theorem movedBy_mul (hs : Stands s k) (a : α) :
    Binary.MovedBy (format α).minExponent k (read a) (read (a * s)) := by
  have hF : 2 ≤ (format α).exponentBias := le_trans (by omega) (three_le_bias (α := α))
  obtain ⟨hround, hmoved⟩ := Binary.movedBy_mul_power hF (rounded_number a) k
  rw [← hs] at hround hmoved
  rwa [read, read, number_of_bits (bits_mul a s) hround]

end Stands

end BinaryScalar

end LpPresolve
