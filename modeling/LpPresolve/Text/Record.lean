import LpPresolve.Basis
import LpPresolve.Model
import LpPresolve.Text.Json

/-! Settings, bases and sizes as JSON. A record is written compactly, with its fields in a fixed
order; it is read from an object with the fields in any order and unknown ones ignored, or from an
array of the leading fields. -/

namespace LpPresolve

namespace Json

/-! ### Writing -/

def quote (s : String) : String := "\"" ++ s ++ "\""

def writeObject (members : List (String × String)) : String :=
  "\x7b" ++ String.intercalate "," (members.map fun (k, v) => quote k ++ ":" ++ v) ++ "\x7d"

def writeArray (items : List String) : String := "[" ++ String.intercalate "," items ++ "]"

/-! ### Reading -/

/-- The value of the field `name`, if it is there; no result if it is repeated. -/
def member? (members : List (String × Json)) (name : String) : Option (Option Json) :=
  match members.filter (·.1 == name) with
  | [] => some none
  | [(_, v)] => some (some v)
  | _ => none

/-- The values of the named fields, where present. -/
def fields? (names : List String) : Json → Option (List (Option Json))
  | object members => do
    let members ← members.mapM fun (k, v) => k.map (·, v)
    names.mapM (member? members)
  | array items =>
    if names.length < items.length then none
    else some (items.map some ++ List.replicate (names.length - items.length) none)
  | _ => none

/-- A field with a default is only read where present. -/
def orDefault {β : Type} (default : β) (read : Json → Option β) : Option Json → Option β
  | none => some default
  | some v => read v

def required {β : Type} (read : Json → Option β) (v : Option Json) : Option β := v.bind read

def bool? : Json → Option Bool
  | bool b => some b
  | _ => none

/-- A natural number that fits in a word of the given size. -/
def word? (bits : Nat) : Json → Option Nat
  | number (some n) => if n < 1 <<< bits then some n else none
  | _ => none

/-- One of the named values, as its name or as an object with the name for its only key and
nothing for its value. -/
def oneOf? {β : Type} (table : List (String × β)) : Json → Option β
  | string (some s) | object [(some s, null)] => table.lookup s
  | _ => none

def arrayOf? {β : Type} (read : Json → Option β) : Json → Option (Array β)
  | array items => (items.mapM read).map List.toArray
  | _ => none

end Json

open Json

/-- A record of a fixed list of fields. -/
def Json.parseRecord? (names : List String) (text : String) : Option (List (Option Json)) :=
  (parse? text).bind (fields? names)

/-! ### Settings -/

namespace DualizePolicy

def name : DualizePolicy → String
  | auto => "Auto"
  | never => "Never"
  | always => "Always"

def table : List (String × DualizePolicy) := [auto, never, always].map fun p => (p.name, p)

theorem lookup_name (p : DualizePolicy) : table.lookup p.name = some p := by cases p <;> rfl

end DualizePolicy

namespace Settings

def toJson (s : Settings) : String :=
  writeObject [
    ("verbose", toString s.verbose),
    ("scale", toString s.scale),
    ("equilibrate_max_iter", toString s.equilibrateMaxIter),
    ("dualize", quote s.dualize.name),
    ("dense_min_nnz", toString s.denseMinNnz),
    ("dense_ratio", toString s.denseRatio),
    ("dense_max_cols", toString s.denseMaxCols)]

def fieldNames : List String :=
  ["verbose", "scale", "equilibrate_max_iter", "dualize", "dense_min_nnz", "dense_ratio",
    "dense_max_cols"]

/-- Missing fields have their defaults. The settings are not validated. -/
def ofJson? (text : String) : Option Settings := do
  let d : Settings := {}
  match ← parseRecord? fieldNames text with
  | [verbose, scale, maxIter, dualize, minNnz, ratio, maxCols] =>
    return {
      verbose := ← orDefault d.verbose bool? verbose
      scale := ← orDefault d.scale bool? scale
      equilibrateMaxIter := ← orDefault d.equilibrateMaxIter (word? 32) maxIter
      dualize := ← orDefault d.dualize (oneOf? DualizePolicy.table) dualize
      denseMinNnz := ← orDefault d.denseMinNnz (word? 64) minNnz
      denseRatio := ← orDefault d.denseRatio (word? 64) ratio
      denseMaxCols := ← orDefault d.denseMaxCols (word? 64) maxCols }
  | _ => none

end Settings

/-! ### Bases -/

namespace BasisStatus

def name : BasisStatus → String
  | basic => "Basic"
  | nonbasicLower => "NonbasicLower"
  | nonbasicUpper => "NonbasicUpper"
  | superbasic => "Superbasic"

def table : List (String × BasisStatus) :=
  [basic, nonbasicLower, nonbasicUpper, superbasic].map fun s => (s.name, s)

theorem lookup_name (s : BasisStatus) : table.lookup s.name = some s := by cases s <;> rfl

end BasisStatus

namespace ConstraintStatus

def name : ConstraintStatus → String
  | basic => "Basic"
  | nonbasic => "Nonbasic"

def table : List (String × ConstraintStatus) := [basic, nonbasic].map fun s => (s.name, s)

theorem lookup_name (s : ConstraintStatus) : table.lookup s.name = some s := by cases s <;> rfl

end ConstraintStatus

namespace Basis

def toJson (B : Basis) : String :=
  writeObject [
    ("constraints", writeArray (B.constrStatus.toList.map fun s => quote s.name)),
    ("variables", writeArray (B.varStatus.toList.map fun s => quote s.name))]

def ofJson? (text : String) : Option Basis := do
  match ← parseRecord? ["constraints", "variables"] text with
  | [constrs, vars] =>
    return {
      constrStatus := ← required (arrayOf? (oneOf? ConstraintStatus.table)) constrs
      varStatus := ← required (arrayOf? (oneOf? BasisStatus.table)) vars }
  | _ => none

end Basis

/-! ### Constraint types -/

namespace ConstraintType

def name : ConstraintType → String
  | equal => "Equal"
  | lessEqual => "LessEqual"
  | greaterEqual => "GreaterEqual"

def listToJson (types : Array ConstraintType) : String :=
  writeArray (types.toList.map fun t => quote t.name)

end ConstraintType

/-! ### Sizes -/

namespace ModelInfo

def toJson (i : ModelInfo) : String :=
  writeObject [
    ("num_var", toString i.numVar),
    ("num_constr", toString i.numConstr),
    ("num_entries", toString i.numEntries),
    ("num_rows_solver", toString i.numRowsSolver),
    ("num_cols_solver", toString i.numColsSolver),
    ("num_entries_solver", toString i.numEntriesSolver),
    ("dualized", toString i.dualized),
    ("dense_cols", toString i.denseCols)]

def fieldNames : List String :=
  ["num_var", "num_constr", "num_entries", "num_rows_solver", "num_cols_solver",
    "num_entries_solver", "dualized", "dense_cols"]

def ofJson? (text : String) : Option ModelInfo := do
  let count := required (word? 64)
  match ← parseRecord? fieldNames text with
  | [numVar, numConstr, numEntries, rowsSolver, colsSolver, entriesSolver, dualized, denseCols] =>
    return {
      numVar := ← count numVar
      numConstr := ← count numConstr
      numEntries := ← count numEntries
      numRowsSolver := ← count rowsSolver
      numColsSolver := ← count colsSolver
      numEntriesSolver := ← count entriesSolver
      dualized := ← required bool? dualized
      denseCols := ← count denseCols }
  | _ => none

end ModelInfo

end LpPresolve
