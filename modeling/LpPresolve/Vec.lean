import LpPresolve.Scalar

/-! Vectors of scalars. Sums and maxima run in index order, so that a rounded format gives the
same digits everywhere. The entrywise operations on two vectors go up to the shorter one; those
ending in a question mark want equal lengths. -/

namespace LpPresolve

abbrev Vec (α : Type) := Array α

namespace Vec

variable {α : Type} [Scalar α]

open Scalar

def zeros (n : Nat) : Vec α := Array.replicate n 0

/-- Entry `i`, and 0 beyond the end. -/
def entry (v : Vec α) (i : Nat) : α := v.getD i 0

/-- The result `r`, if the two vectors have one length. -/
def ifSameSize {β : Type} (v w : Vec α) (r : β) : Option β :=
  if v.size = w.size then some r else none

/-! ### Entrywise operations -/

def fill (v : Vec α) (c : α) : Vec α := v.map fun _ => c

def scale (v : Vec α) (c : α) : Vec α := v.map (· * c)

def negate (v : Vec α) : Vec α := v.map (-·)

def mul (v w : Vec α) : Vec α := Array.zipWith (· * ·) v w

def div (v w : Vec α) : Vec α := Array.zipWith (· / ·) v w

/-- The sum `a x + b v`. -/
def axpby (a : α) (x : Vec α) (b : α) (v : Vec α) : Vec α :=
  Array.zipWith (fun xi vi => a * xi + b * vi) x v

/-- The vector `w` in place of `v`. -/
def copy? (v w : Vec α) : Option (Vec α) := ifSameSize v w w

/-- The leading entries become `f` of those of `w`; the entries beyond `w` are kept. -/
def mapFrom (f : α → α) (w v : Vec α) : Vec α :=
  v.mapIdx fun i a => (w[i]?).elim a f

def mul? (v w : Vec α) : Option (Vec α) := ifSameSize v w (mul v w)

def div? (v w : Vec α) : Option (Vec α) := ifSameSize v w (div v w)

def axpby? (a : α) (x : Vec α) (b : α) (v : Vec α) : Option (Vec α) :=
  ifSameSize v x (axpby a x b v)

/-! ### Sums and norms -/

def dot (v w : Vec α) : α := (mul v w).foldl (· + ·) 0

def dot? (v w : Vec α) : Option α := ifSameSize v w (dot v w)

/-- The largest magnitude, or no number if some entry is none. -/
def normInf (v : Vec α) : α :=
  match v.find? isNaN with
  | some a => a
  | none => v.foldl (fun m a => if m < magnitude a then magnitude a else m) 0

/-- The largest magnitude over the finite entries. -/
def normInfFinite (v : Vec α) : α :=
  (v.filter isFinite).foldl (fun m a => maxNum m (magnitude a)) 0

def isFinite (v : Vec α) : Bool := v.all Scalar.isFinite

/-! ### Lengths and entries -/

@[simp] theorem size_zeros (n : Nat) : (zeros n : Vec α).size = n := Array.size_replicate

omit [Scalar α] in
@[simp] theorem size_fill (v : Vec α) (c : α) : (v.fill c).size = v.size := Array.size_map

@[simp] theorem size_scale (v : Vec α) (c : α) : (v.scale c).size = v.size := Array.size_map

@[simp] theorem size_negate (v : Vec α) : v.negate.size = v.size := Array.size_map

@[simp] theorem size_mul (v w : Vec α) : (mul v w).size = min v.size w.size := Array.size_zipWith

@[simp] theorem size_div (v w : Vec α) : (div v w).size = min v.size w.size := Array.size_zipWith

@[simp] theorem size_axpby (a : α) (x : Vec α) (b : α) (v : Vec α) :
    (axpby a x b v).size = min x.size v.size := Array.size_zipWith

omit [Scalar α] in
@[simp] theorem size_mapFrom (f : α → α) (w v : Vec α) : (mapFrom f w v).size = v.size :=
  Array.size_mapIdx

omit [Scalar α] in
theorem ifSameSize_eq_some_iff {β : Type} {v w : Vec α} {r s : β} :
    ifSameSize v w r = some s ↔ v.size = w.size ∧ r = s := by
  by_cases h : v.size = w.size <;> simp [ifSameSize, h]

theorem entry_eq_getElem (v : Vec α) {i : Nat} (h : i < v.size) : v.entry i = v[i] := by
  simp [entry, Array.getD, h]

theorem entry_of_size_le (v : Vec α) {i : Nat} (h : v.size ≤ i) : v.entry i = 0 := by
  simp [entry, Array.getD, Nat.not_lt.2 h]

end Vec

end LpPresolve
