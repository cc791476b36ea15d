/-! The arithmetic the library is generic in. A scalar type has the field operations, an
ordering, one infinity and, for each of its finite values, the rational it stands for. No law is
assumed: a rounded format and the exact extended rationals are both scalars, and a theorem names
the laws it needs. -/

namespace LpPresolve

class Scalar (α : Type) extends
    Zero α, One α, Neg α, Add α, Sub α, Mul α, Div α, LT α, LE α, BEq α where
  decLt : DecidableLT α
  decLe : DecidableLE α
  magnitude : α → α
  infinity : α
  /-- The value as a rational, if it is finite. -/
  toRat? : α → Option Rat

attribute [reducible, instance] Scalar.decLt Scalar.decLe

/-- The `e` with `2 ^ (e - 1) ≤ |q| < 2 ^ e`, and 0 for zero. -/
def binaryExponentOfRat (q : Rat) : Int :=
  if q.num = 0 then 0
  else
    let e : Int := q.num.natAbs.log2 - q.den.log2
    if q.num.natAbs <<< (-e).toNat < q.den <<< e.toNat then e else e + 1

namespace Scalar

variable {α : Type} [Scalar α]

/-! ### Classification -/

def isFinite (a : α) : Bool := decide (magnitude a < infinity)

def isInfinite (a : α) : Bool := magnitude a == infinity

/-- A value that is no number differs from itself. -/
def isNaN (a : α) : Bool := !(a == a)

/-! ### Order -/

/-- The larger value, or the other one if an argument is no number. Of equal values the first. -/
def maxNum (a b : α) : α :=
  if isNaN a then b else if a < b then b else a

/-- The smaller value, or the other one if an argument is no number. Of equal values the first. -/
def minNum (a b : α) : α :=
  if isNaN a then b else if b < a then b else a

/-! ### Powers of two -/

def two : α := 1 + 1

def half : α := 1 / two

/-- Repeated squaring. -/
def pow (a : α) (n : Nat) : α :=
  if n = 0 then 1
  else
    let r := pow (a * a) (n / 2)
    if n % 2 = 1 then r * a else r
termination_by n
decreasing_by omega

/-- The power `2 ^ k`. A negative one is the reciprocal of a positive one, so in a rounded format
it is 0 as soon as that one overflows. -/
def exp2 (k : Int) : α :=
  if 0 ≤ k then pow two k.toNat else 1 / pow two (-k).toNat

/-- The `e` with `2 ^ (e - 1) ≤ |a| < 2 ^ e`, and 0 for zero and for values that are not finite. -/
def binaryExponent (a : α) : Int :=
  (toRat? a).elim 0 binaryExponentOfRat

end Scalar

end LpPresolve
