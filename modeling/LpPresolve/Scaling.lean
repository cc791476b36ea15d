import LpPresolve.Basis
import LpPresolve.Point

/-! Scale factors and sign changes, and their action on points, residuals and bases. A scaled
variable is the user's over its column factor, with the opposite sign if it is flipped; a scaled
constraint is the user's times its row factor. Negating a variable exchanges the roles of its
bounds. -/

namespace LpPresolve

variable {α : Type}

/-- The variables whose sign is inverted. -/
structure Flips where
  indices : List Nat
  deriving DecidableEq, Inhabited

namespace Flips

/-! ### Mirroring single vectors -/

def negate [Neg α] (F : Flips) (v : Vec α) : Vec α :=
  F.indices.foldl (fun v j => v.modify j (-·)) v

/-- The entries at position `j` of two vectors exchanged, with `f` applied to each. -/
def exchangeAt (f : α → α) (p : Vec α × Vec α) (j : Nat) : Vec α × Vec α :=
  match p.1[j]?, p.2[j]? with
  | some a, some b => (p.1.setIfInBounds j (f b), p.2.setIfInBounds j (f a))
  | _, _ => p

/-- The two entries of every flipped variable exchanged. -/
def exchange (F : Flips) (f : α → α) (l u : Vec α) : Vec α × Vec α :=
  F.indices.foldl (exchangeAt f) (l, u)

def mirrorStatus (F : Flips) (status : Array BasisStatus) : Array BasisStatus :=
  F.indices.foldl (fun v j => v.modify j BasisStatus.mirrored) status

@[simp] theorem size_negate [Neg α] (F : Flips) (v : Vec α) : (F.negate v).size = v.size := by
  unfold negate
  induction F.indices generalizing v with
  | nil => rfl
  | cons j r ih => rw [List.foldl_cons, ih, Array.size_modify]

@[simp] theorem size_mirrorStatus (F : Flips) (status : Array BasisStatus) :
    (F.mirrorStatus status).size = status.size := by
  unfold mirrorStatus
  induction F.indices generalizing status with
  | nil => rfl
  | cons j r ih => rw [List.foldl_cons, ih, Array.size_modify]

@[simp] theorem size_exchangeAt_fst (f : α → α) (p : Vec α × Vec α) (j : Nat) :
    (exchangeAt f p j).1.size = p.1.size := by
  unfold exchangeAt
  split <;> simp

@[simp] theorem size_exchangeAt_snd (f : α → α) (p : Vec α × Vec α) (j : Nat) :
    (exchangeAt f p j).2.size = p.2.size := by
  unfold exchangeAt
  split <;> simp

theorem size_exchange (F : Flips) (f : α → α) (l u : Vec α) :
    (F.exchange f l u).1.size = l.size ∧ (F.exchange f l u).2.size = u.size := by
  suffices h : ∀ (js : List Nat) (p : Vec α × Vec α),
      (js.foldl (exchangeAt f) p).1.size = p.1.size ∧
        (js.foldl (exchangeAt f) p).2.size = p.2.size from h F.indices (l, u)
  intro js
  induction js with
  | nil => exact fun _ => ⟨rfl, rfl⟩
  | cons j r ih => simp [ih]

/-- Every flipped variable has an entry in a vector of length `n`. -/
def Within (F : Flips) (n : Nat) : Prop := ∀ j ∈ F.indices, j < n

instance (F : Flips) (n : Nat) : Decidable (F.Within n) :=
  inferInstanceAs (Decidable (∀ j ∈ F.indices, j < n))

/-! ### Mirroring points, residuals and bases -/

def mirrorPoint [Neg α] (F : Flips) (p : UserPoint α) : UserPoint α :=
  { p with x := F.negate p.x, z := F.negate p.z }

def mirrorInterior [Neg α] (F : Flips) (p : UserInterior α) : UserInterior α :=
  let (xl, xu) := F.exchange id p.xl p.xu
  let (zl, zu) := F.exchange id p.zl p.zu
  { p with x := F.negate p.x, xl, xu, zl, zu }

def mirrorPoint? [Neg α] (F : Flips) (p : UserPoint α) : Option (UserPoint α) :=
  if F.Within p.x.size ∧ F.Within p.z.size then some (F.mirrorPoint p) else none

def mirrorInterior? [Neg α] (F : Flips) (p : UserInterior α) : Option (UserInterior α) :=
  if F.Within p.x.size ∧ F.Within p.xl.size ∧ F.Within p.xu.size ∧ F.Within p.zl.size ∧
      F.Within p.zu.size then
    some (F.mirrorInterior p)
  else none

def mirrorStatus? (F : Flips) (status : Array BasisStatus) : Option (Array BasisStatus) :=
  if F.Within status.size then some (F.mirrorStatus status) else none

end Flips

/-- Residuals of the rows `rhs - slack - A x`, of the columns `obj - zl + zu - A' y`, and of the
bounds `lb - x + xl` and `ub - x - xu`. -/
structure Residuals (α : Type) where
  rb : Vec α
  rc : Vec α
  rl : Vec α
  ru : Vec α

/-- Negates the column residuals, and exchanges and negates the bound residuals. -/
def Flips.mirrorResiduals [Neg α] (F : Flips) (r : Residuals α) : Residuals α :=
  let (rl, ru) := F.exchange (-·) r.rl r.ru
  { r with rc := F.negate r.rc, rl, ru }

def Flips.mirrorResiduals? [Neg α] (F : Flips) (r : Residuals α) : Option (Residuals α) :=
  if F.Within r.rc.size ∧ F.Within r.rl.size ∧ F.Within r.ru.size then some (F.mirrorResiduals r)
  else none

/-- An empty vector of factors stands for no scaling. -/
structure Scaling (α : Type) where
  colscale : Vec α
  rowscale : Vec α
  flipped : Flips

namespace Scaling

variable [Scalar α]

open Scalar

def identity : Scaling α := ⟨#[], #[], ⟨[]⟩⟩

def isUnscaled (S : Scaling α) : Bool := S.colscale.isEmpty && S.rowscale.isEmpty

/-- The smallest and the largest factor. -/
def factorRange (S : Scaling α) : α × α :=
  let range := (S.colscale ++ S.rowscale).foldl (fun (lo, hi) s => (minNum lo s, maxNum hi s))
    (infinity, 0)
  if isInfinite range.1 then (1, 1) else range

/-! ### One vector -/

def mulBy (factors v : Vec α) : Vec α := if factors.isEmpty then v else v.mul factors

def divBy (factors v : Vec α) : Vec α := if factors.isEmpty then v else v.div factors

/-- The factors can be applied to a vector of length `n`. -/
def Applies (factors : Vec α) (n : Nat) : Prop := factors.size = 0 ∨ n = factors.size

instance (factors : Vec α) (n : Nat) : Decidable (Applies factors n) :=
  inferInstanceAs (Decidable (_ ∨ _))

/-! ### Points and residuals -/

def scalePoint (S : Scaling α) (p : UserPoint α) : UserPoint α :=
  S.flipped.mirrorPoint
    { x := divBy S.colscale p.x
      slack := mulBy S.rowscale p.slack
      y := divBy S.rowscale p.y
      z := mulBy S.colscale p.z }

def unscalePoint (S : Scaling α) (p : UserPoint α) : UserPoint α :=
  let p := S.flipped.mirrorPoint p
  { x := mulBy S.colscale p.x
    slack := divBy S.rowscale p.slack
    y := mulBy S.rowscale p.y
    z := divBy S.colscale p.z }

def scaleInterior (S : Scaling α) (p : UserInterior α) : UserInterior α :=
  S.flipped.mirrorInterior
    { x := divBy S.colscale p.x
      xl := divBy S.colscale p.xl
      xu := divBy S.colscale p.xu
      slack := mulBy S.rowscale p.slack
      y := divBy S.rowscale p.y
      zl := mulBy S.colscale p.zl
      zu := mulBy S.colscale p.zu }

def unscaleInterior (S : Scaling α) (p : UserInterior α) : UserInterior α :=
  let p := S.flipped.mirrorInterior p
  { x := mulBy S.colscale p.x
    xl := mulBy S.colscale p.xl
    xu := mulBy S.colscale p.xu
    slack := divBy S.rowscale p.slack
    y := mulBy S.rowscale p.y
    zl := divBy S.colscale p.zl
    zu := divBy S.colscale p.zu }

def unscaleResiduals (S : Scaling α) (r : Residuals α) : Residuals α :=
  let r := S.flipped.mirrorResiduals r
  { rb := divBy S.rowscale r.rb
    rc := divBy S.colscale r.rc
    rl := mulBy S.colscale r.rl
    ru := mulBy S.colscale r.ru }

def unscaleBasis (S : Scaling α) (B : Basis) : Basis :=
  { B with varStatus := S.flipped.mirrorStatus B.varStatus }

/-! ### Fitting lengths -/

/-- The factors and flips can be applied to a point. -/
def FitsPoint (S : Scaling α) (p : UserPoint α) : Prop :=
  (Applies S.colscale p.x.size ∧ Applies S.colscale p.z.size ∧
    Applies S.rowscale p.y.size ∧ Applies S.rowscale p.slack.size) ∧
    S.flipped.Within p.x.size ∧ S.flipped.Within p.z.size

instance (S : Scaling α) (p : UserPoint α) : Decidable (S.FitsPoint p) :=
  inferInstanceAs (Decidable (_ ∧ _))

def FitsInterior (S : Scaling α) (p : UserInterior α) : Prop :=
  (Applies S.colscale p.x.size ∧ Applies S.colscale p.xl.size ∧ Applies S.colscale p.xu.size ∧
    Applies S.colscale p.zl.size ∧ Applies S.colscale p.zu.size ∧
    Applies S.rowscale p.y.size ∧ Applies S.rowscale p.slack.size) ∧
    S.flipped.Within p.x.size ∧ S.flipped.Within p.xl.size ∧ S.flipped.Within p.xu.size ∧
    S.flipped.Within p.zl.size ∧ S.flipped.Within p.zu.size

instance (S : Scaling α) (p : UserInterior α) : Decidable (S.FitsInterior p) :=
  inferInstanceAs (Decidable (_ ∧ _))

def FitsResiduals (S : Scaling α) (r : Residuals α) : Prop :=
  (Applies S.rowscale r.rb.size ∧ Applies S.colscale r.rc.size ∧ Applies S.colscale r.rl.size ∧
    Applies S.colscale r.ru.size) ∧
    S.flipped.Within r.rc.size ∧ S.flipped.Within r.rl.size ∧ S.flipped.Within r.ru.size

instance (S : Scaling α) (r : Residuals α) : Decidable (S.FitsResiduals r) :=
  inferInstanceAs (Decidable (_ ∧ _))

def scalePoint? (S : Scaling α) (p : UserPoint α) : Option (UserPoint α) :=
  if S.FitsPoint p then some (S.scalePoint p) else none

def unscalePoint? (S : Scaling α) (p : UserPoint α) : Option (UserPoint α) :=
  if S.FitsPoint p then some (S.unscalePoint p) else none

def scaleInterior? (S : Scaling α) (p : UserInterior α) : Option (UserInterior α) :=
  if S.FitsInterior p then some (S.scaleInterior p) else none

def unscaleInterior? (S : Scaling α) (p : UserInterior α) : Option (UserInterior α) :=
  if S.FitsInterior p then some (S.unscaleInterior p) else none

def unscaleResiduals? (S : Scaling α) (r : Residuals α) : Option (Residuals α) :=
  if S.FitsResiduals r then some (S.unscaleResiduals r) else none

def unscaleBasis? (S : Scaling α) (B : Basis) : Option Basis :=
  if S.flipped.Within B.varStatus.size then some (S.unscaleBasis B) else none

end Scaling

end LpPresolve
