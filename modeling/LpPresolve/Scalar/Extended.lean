import LpPresolve.Scalar

/-! The rationals with two infinities and one undefined value, as a scalar: the arithmetic of a
format with unbounded precision and range. Zero has no sign. -/

namespace LpPresolve

inductive Extended where
  | undefined
  | bottom
  | finite (q : Rat)
  | top
  deriving DecidableEq, Inhabited

namespace Extended

def sign : Extended → Int
  | undefined => 0
  | bottom => -1
  | finite q => q.num.sign
  | top => 1

/-- The infinity of the given sign, undefined at 0. -/
def infinite (s : Int) : Extended :=
  if s < 0 then bottom else if 0 < s then top else undefined

def neg : Extended → Extended
  | undefined => undefined
  | bottom => top
  | finite q => finite (-q)
  | top => bottom

def magnitude : Extended → Extended
  | undefined => undefined
  | finite q => finite q.abs
  | bottom | top => top

def add : Extended → Extended → Extended
  | undefined, _ | _, undefined | top, bottom | bottom, top => undefined
  | top, _ | _, top => top
  | bottom, _ | _, bottom => bottom
  | finite p, finite q => finite (p + q)

def mul : Extended → Extended → Extended
  | finite p, finite q => finite (p * q)
  | a, b => infinite (a.sign * b.sign)

/-- A nonzero value over zero is the infinity of its sign. -/
def div : Extended → Extended → Extended
  | undefined, _ | _, undefined => undefined
  | finite p, finite q => if q = 0 then infinite p.num.sign else finite (p / q)
  | finite _, _ => finite 0
  | a, finite q => infinite (if q < 0 then -a.sign else a.sign)
  | _, _ => undefined

/-- Comparisons with the undefined value are false. -/
def less : Extended → Extended → Bool
  | undefined, _ | _, undefined => false
  | finite p, finite q => p < q
  | bottom, b => b != bottom
  | a, top => a != top
  | _, _ => false

def same : Extended → Extended → Bool
  | undefined, _ => false
  | a, b => a == b

instance : Scalar Extended where
  zero := finite 0
  one := finite 1
  neg := neg
  add := add
  sub a b := add a (neg b)
  mul := mul
  div := div
  lt a b := less a b
  le a b := less a b || same a b
  beq := same
  decLt a b := inferInstanceAs (Decidable (less a b = true))
  decLe a b := inferInstanceAs (Decidable ((less a b || same a b) = true))
  magnitude := magnitude
  infinity := top
  toRat?
    | finite q => some q
    | _ => none

/-! ### Finite values -/

@[simp] theorem neg_finite (p : Rat) : -finite p = finite (-p) := rfl

@[simp] theorem finite_add_finite (p q : Rat) : finite p + finite q = finite (p + q) := rfl

@[simp] theorem finite_sub_finite (p q : Rat) : finite p - finite q = finite (p - q) :=
  congrArg finite (Rat.sub_eq_add_neg p q).symm

@[simp] theorem finite_mul_finite (p q : Rat) : finite p * finite q = finite (p * q) := rfl

theorem finite_div_finite (p : Rat) {q : Rat} (h : q ≠ 0) :
    finite p / finite q = finite (p / q) := by
  show div _ _ = _
  simp [div, h]

@[simp] theorem finite_lt_finite {p q : Rat} : finite p < finite q ↔ p < q := by
  show less _ _ = true ↔ _
  simp [less]

@[simp] theorem isFinite_finite (p : Rat) : Scalar.isFinite (finite p) = true := rfl

/-! ### Laws without exceptions -/

protected theorem neg_neg : ∀ a : Extended, - -a = a
  | undefined | bottom | top => rfl
  | finite p => congrArg finite (Rat.neg_neg p)

protected theorem sub_zero : ∀ a : Extended, a - 0 = a
  | undefined | bottom | top => rfl
  | finite p => (finite_sub_finite p 0).trans (congrArg finite (by grind))

protected theorem zero_sub_neg : ∀ a : Extended, 0 - -a = a
  | undefined | bottom | top => rfl
  | finite p => (finite_sub_finite 0 (-p)).trans (congrArg finite (by grind))

protected theorem add_comm : ∀ a b : Extended, a + b = b + a
  | finite p, finite q => congrArg finite (Rat.add_comm p q)
  | undefined, b | bottom, b | top, b => by cases b <;> rfl
  | finite _, undefined | finite _, bottom | finite _, top => rfl

protected theorem mul_comm (a b : Extended) : a * b = b * a := by
  show mul a b = mul b a
  cases a <;> cases b <;> simp [mul, Rat.mul_comm, Int.mul_comm]

end Extended

end LpPresolve
