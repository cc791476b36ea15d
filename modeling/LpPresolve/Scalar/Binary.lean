import LpPresolve.Scalar

/-! Double and single precision as scalars. The value of a finite number is read off its
interchange encoding: sign, biased exponent and fraction, in this order from the top bit. -/

namespace LpPresolve

/-- Widths of the two lower fields of a binary interchange format. -/
structure BinaryFormat where
  exponentBits : Nat
  fractionBits : Nat

namespace BinaryFormat

def double : BinaryFormat := ⟨11, 52⟩

def single : BinaryFormat := ⟨8, 23⟩

/-- Exponent of the last place of a subnormal number. -/
def minExponent (f : BinaryFormat) : Int :=
  2 - (1 <<< (f.exponentBits - 1) : Nat) - f.fractionBits

/-- The largest biased exponent marks infinities and values that are no number. A biased exponent
of 0 marks subnormal numbers, which have no hidden bit. -/
def decode? (f : BinaryFormat) (bits : Nat) : Option Rat :=
  let hidden := 1 <<< f.fractionBits
  let exponents := 1 <<< f.exponentBits
  let fraction := bits % hidden
  let exponent := bits / hidden % exponents
  if exponent = exponents - 1 then none
  else
    let significand := if exponent = 0 then fraction else hidden + fraction
    let place := f.minExponent + (exponent - 1 : Nat)
    let size := mkRat (significand <<< place.toNat : Nat) (1 <<< (-place).toNat)
    some (if bits < hidden * exponents then size else -size)

end BinaryFormat

instance : Scalar Float where
  zero := 0
  one := 1
  decLt := Float.decLt
  decLe := Float.decLe
  magnitude := Float.abs
  infinity := 1 / 0
  toRat? a := BinaryFormat.double.decode? a.toBits.toNat

instance : Scalar Float32 where
  zero := 0
  one := 1
  decLt := Float32.decLt
  decLe := Float32.decLe
  magnitude := Float32.abs
  infinity := 1 / 0
  toRat? a := BinaryFormat.single.decode? a.toBits.toNat

end LpPresolve
