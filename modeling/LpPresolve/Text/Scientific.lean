import LpPresolve.Scalar

/-! Scientific notation with a given number of significant digits. The exact value is rounded, a
half to the even neighbour. The exponent has a sign and at least two digits. -/

namespace LpPresolve.Text

/-- The integer nearest to `n / d`, of two the even one. -/
def roundDiv (n d : Nat) : Nat :=
  let q := n / d
  let r := n % d
  if 2 * r < d ∨ 2 * r = d ∧ q % 2 = 0 then q else q + 1

/-- The number of decimal digits after the first. -/
def decimalLog (n : Nat) : Nat := (Nat.toDigits 10 n).length - 1

/-- The `k` with `10 ^ k ≤ n / d < 10 ^ (k + 1)`, for positive `n` and `d`. -/
def decimalExponent (n d : Nat) : Int :=
  if d ≤ n then decimalLog (n / d)
  else
    let k := decimalLog (d / n)
    if n * Nat.pow 10 k = d then -k else -(k + 1 : Nat)

/-- The first `digits` significant digits of `n / d`, as an integer, and the exponent of the
first of them. Rounding up to a power of ten moves the exponent. -/
def significant (digits n d : Nat) : Nat × Int :=
  let k := decimalExponent n d
  let shift := digits - 1 - k
  let s := roundDiv (n * Nat.pow 10 shift.toNat) (d * Nat.pow 10 (-shift).toNat)
  if s = Nat.pow 10 digits then (Nat.pow 10 (digits - 1), k + 1) else (s, k)

/-- A sign and at least two digits. -/
def exponentText (k : Int) : String :=
  let digits := toString k.natAbs
  (if k < 0 then "-" else "+") ++ (if digits.length < 2 then "0" ++ digits else digits)

/-- A point follows the first digit unless it is the only one. -/
def mantissaText : List Char → String
  | c :: d :: r => String.ofList (c :: '.' :: d :: r)
  | cs => String.ofList cs

def scientificRat (digits : Nat) (q : Rat) : String :=
  if q.num = 0 then mantissaText (List.replicate digits '0') ++ "e+00"
  else
    let (s, k) := significant digits q.num.natAbs q.den
    (if q < 0 then "-" else "") ++ mantissaText (Nat.toDigits 10 s) ++ "e" ++ exponentText k

/-- Infinite values and values that are no number have names. -/
def scientific {α : Type} [Scalar α] (digits : Nat) (a : α) : String :=
  match Scalar.toRat? a with
  | some q => scientificRat digits q
  | none => if Scalar.isNaN a then "NaN" else if a < 0 then "-inf" else "inf"

end LpPresolve.Text
