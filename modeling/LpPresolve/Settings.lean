/-! Settings of the preprocessing, their defaults and their validity. -/

namespace LpPresolve

/-- When to build the dual form instead of the primal one. -/
inductive DualizePolicy
  | auto | never | always
  deriving DecidableEq, Inhabited

/-- Left to itself, the dual form is for more than twice as many constraints as variables. -/
def DualizePolicy.dualizes (numConstr numVar : Nat) : DualizePolicy → Bool
  | auto => 2 * numVar < numConstr
  | never => false
  | always => true

/-- A column is dense if it has more than `denseMinNnz` entries and more than `denseRatio` times
as many as the next column with fewer. More than `denseMaxCols` dense columns are too many to be
told apart. -/
structure Settings where
  verbose : Bool := false
  scale : Bool := true
  equilibrateMaxIter : Nat := 10
  dualize : DualizePolicy := .auto
  denseMinNnz : Nat := 40
  denseRatio : Nat := 10
  denseMaxCols : Nat := 1000
  deriving DecidableEq, Inhabited

/-- A setting with a value out of range. -/
structure SettingsError where
  field : String
  deriving DecidableEq

def SettingsError.message (e : SettingsError) : String :=
  "Bad value for field \"" ++ e.field ++ "\""

namespace Settings

/-- With a ratio of 0 every column after the first one that is not empty would be dense. -/
def validate (s : Settings) : Except SettingsError Unit :=
  if s.denseRatio = 0 then .error ⟨"dense_ratio"⟩ else .ok ()

theorem validate_eq_ok_iff (s : Settings) : s.validate = .ok () ↔ s.denseRatio ≠ 0 := by
  by_cases h : s.denseRatio = 0 <;> simp [validate, h]

end Settings

/-- One setting given by hand. -/
inductive Setting
  | verbose (b : Bool)
  | scale (b : Bool)
  | equilibrateMaxIter (n : Nat)
  | dualize (p : DualizePolicy)
  | denseMinNnz (n : Nat)
  | denseRatio (n : Nat)
  | denseMaxCols (n : Nat)

namespace Settings

def set (s : Settings) : Setting → Settings
  | .verbose b => { s with verbose := b }
  | .scale b => { s with scale := b }
  | .equilibrateMaxIter n => { s with equilibrateMaxIter := n }
  | .dualize p => { s with dualize := p }
  | .denseMinNnz n => { s with denseMinNnz := n }
  | .denseRatio n => { s with denseRatio := n }
  | .denseMaxCols n => { s with denseMaxCols := n }

/-- The defaults changed by the given settings, of which a later one counts. -/
def build (given : List Setting) : Except SettingsError Settings := do
  let s := given.foldl set {}
  s.validate
  return s

end Settings

end LpPresolve
