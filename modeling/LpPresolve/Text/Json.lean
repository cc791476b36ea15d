/-! Strict JSON. A text is split into tokens, and the tokens run a stack machine that holds the
open arrays and objects. Objects keep the order and the repetitions of their members. What an
escape sequence stands for is kept apart from the syntax: a text that names half of a surrogate
pair is well formed, but has no value. -/

namespace LpPresolve

inductive Json
  | null
  | bool (b : Bool)
  /-- The value, if it is a natural number without sign, fraction and exponent. -/
  | number (value? : Option Nat)
  | string (text? : Option String)
  | array (items : List Json)
  | object (members : List (Option String × Json))

namespace Json

inductive Token
  | openArray | closeArray | openObject | closeObject | comma | colon
  | scalar (value : Json)

namespace Token

/-! ### Strings -/

def hexDigit? (c : Char) : Option Nat :=
  if c.isDigit then some (c.toNat - '0'.toNat)
  else if 'a' ≤ c ∧ c ≤ 'f' then some (c.toNat - 'a'.toNat + 10)
  else if 'A' ≤ c ∧ c ≤ 'F' then some (c.toNat - 'A'.toNat + 10)
  else none

def hexValue? (cs : List Char) : Option Nat :=
  cs.foldlM (fun n c => (hexDigit? c).map (16 * n + ·)) 0

/-- The character that a letter after a backslash stands for. -/
def escape? : Char → Option Char
  | '"' => some '"'
  | '\\' => some '\\'
  | '/' => some '/'
  | 'b' => some '\x08'
  | 'f' => some '\x0c'
  | 'n' => some '\n'
  | 'r' => some '\r'
  | 't' => some '\t'
  | _ => none

/-- The code units of a string up to its closing quote, and what follows it. Control characters
must be escaped. -/
def scanString : List Char → Option (List Nat × List Char)
  | [] => none
  | '"' :: r => some ([], r)
  | '\\' :: 'u' :: a :: b :: c :: d :: r => do
    let unit ← hexValue? [a, b, c, d]
    let (units, r) ← scanString r
    return (unit :: units, r)
  | '\\' :: e :: r => do
    let c ← escape? e
    let (units, r) ← scanString r
    return (c.toNat :: units, r)
  | c :: r =>
    if c < ' ' then none
    else do
      let (units, r) ← scanString r
      return (c.toNat :: units, r)

/-- Joins the halves of surrogate pairs; a half on its own is no character. -/
def characters? : List Nat → Option (List Char)
  | [] => some []
  | high :: low :: r =>
    if 0xD800 ≤ high ∧ high < 0xDC00 ∧ 0xDC00 ≤ low ∧ low < 0xE000 then do
      let c := Char.ofNat (0x10000 + (high - 0xD800) * 0x400 + (low - 0xDC00))
      return c :: (← characters? r)
    else if 0xD800 ≤ high ∧ high < 0xE000 then none
    else do return Char.ofNat high :: (← characters? (low :: r))
  | [unit] => if 0xD800 ≤ unit ∧ unit < 0xE000 then none else some [Char.ofNat unit]

/-! ### Numbers -/

/-- The leading digits, of which there must be one, and what follows them. -/
def scanDigits (cs : List Char) : Option (List Char × List Char) :=
  match cs.takeWhile Char.isDigit with
  | [] => none
  | ds => some (ds, cs.dropWhile Char.isDigit)

/-- What follows an optional fraction; `none` if it has no digits. -/
def skipFraction? : List Char → Option (List Char)
  | '.' :: r => (scanDigits r).map (·.2)
  | r => some r

/-- What follows an optional exponent; `none` if it has no digits. -/
def skipExponent? : List Char → Option (List Char)
  | c :: r =>
    if c = 'e' ∨ c = 'E' then
      match r with
      | s :: r' => (scanDigits (if s = '+' ∨ s = '-' then r' else r)).map (·.2)
      | [] => none
    else some (c :: r)
  | [] => some []

def decimalValue (ds : List Char) : Nat :=
  ds.foldl (fun n c => 10 * n + (c.toNat - '0'.toNat)) 0

/-- The value of a number, if it is a plain natural one, and what follows it. A zero is not
followed by digits. -/
def scanNumber (cs : List Char) : Option (Option Nat × List Char) := do
  let negative := cs.head? = some '-'
  let (ds, r) ← scanDigits (if negative then cs.drop 1 else cs)
  if ds.head? = some '0' ∧ 1 < ds.length then none
  else
    let r' ← skipExponent? (← skipFraction? r)
    return (if negative ∨ r'.length ≠ r.length then none else some (decimalValue ds), r')

/-! ### Tokens -/

def isBlank (c : Char) : Bool := c == ' ' || c == '\n' || c == '\t' || c == '\r'

/-- The first token of a text that does not start with a blank, and what follows it. -/
def next? : List Char → Option (Token × List Char)
  | '[' :: r => some (openArray, r)
  | ']' :: r => some (closeArray, r)
  | '\x7b' :: r => some (openObject, r)
  | '\x7d' :: r => some (closeObject, r)
  | ',' :: r => some (comma, r)
  | ':' :: r => some (colon, r)
  | '"' :: r => do
    let (units, r) ← scanString r
    return (scalar (.string ((characters? units).map String.ofList)), r)
  | 't' :: 'r' :: 'u' :: 'e' :: r => some (scalar (.bool true), r)
  | 'f' :: 'a' :: 'l' :: 's' :: 'e' :: r => some (scalar (.bool false), r)
  | 'n' :: 'u' :: 'l' :: 'l' :: r => some (scalar .null, r)
  | cs => do
    let (value?, r) ← scanNumber cs
    return (scalar (.number value?), r)

/-- At most `fuel` tokens. Each has at least one character. -/
def scan : Nat → List Char → Option (List Token)
  | fuel, cs =>
    match cs.dropWhile isBlank, fuel with
    | [], _ => some []
    | _, 0 => none
    | cs, fuel + 1 => do
      let (t, r) ← next? cs
      return t :: (← scan fuel r)

end Token

/-! ### Values -/

/-- An array or object that is still open, with the items before the current one, last first, and
in an object the key of the current one. -/
inductive Frame
  | array (items : List Json)
  | object (members : List (Option String × Json)) (key : Option String)

/-- What the machine waits for: a value, possibly the end of an array just opened, the first or a
further key of an object, the colon after a key, or what may follow a complete value. -/
inductive Mode
  | value
  | firstItem
  | firstKey
  | key (members : List (Option String × Json))
  | colon (members : List (Option String × Json)) (key : Option String)
  | complete (value : Json)

/-- The start of a value. -/
def Mode.begin? (stack : List Frame) : Token → Option (List Frame × Mode)
  | .openArray => some (stack, .firstItem)
  | .openObject => some (stack, .firstKey)
  | .scalar v => some (stack, .complete v)
  | _ => none

/-- One token. -/
def Mode.step? : List Frame × Mode → Token → Option (List Frame × Mode)
  | (stack, .value), t => begin? stack t
  | (stack, .firstItem), .closeArray => some (stack, .complete (.array []))
  | (stack, .firstItem), t => begin? (.array [] :: stack) t
  | (stack, .firstKey), .closeObject => some (stack, .complete (.object []))
  | (stack, .firstKey), .scalar (.string k) => some (stack, .colon [] k)
  | (stack, .key ms), .scalar (.string k) => some (stack, .colon ms k)
  | (stack, .colon ms k), .colon => some (.object ms k :: stack, .value)
  | (.array vs :: stack, .complete v), .comma => some (.array (v :: vs) :: stack, .value)
  | (.array vs :: stack, .complete v), .closeArray =>
    some (stack, .complete (.array (v :: vs).reverse))
  | (.object ms k :: stack, .complete v), .comma => some (stack, .key ((k, v) :: ms))
  | (.object ms k :: stack, .complete v), .closeObject =>
    some (stack, .complete (.object ((k, v) :: ms).reverse))
  | _, _ => none

def ofTokens? (ts : List Token) : Option Json :=
  match ts.foldlM Mode.step? ([], .value) with
  | some ([], .complete v) => some v
  | _ => none

/-- The value that a whole text stands for. -/
def parse? (text : String) : Option Json := do
  ofTokens? (← Token.scan text.length text.toList)

end Json

end LpPresolve
