import UriTemplate.Name

/-!
# Variable specifications

What stands between the commas of an expression: a name, and a modifier that
explodes the value (`*`) or keeps its first characters (`:N`).  A specification
is read in two steps.  `RawVarSpec.take?` takes what has the form of one from the
front of a text, and `RawVarSpec.resolve` decides whether its limit is in range, so
that a limit out of range is told apart from a text that is no specification at all.
-/

namespace UriTemplate

/-! ## Modifiers -/

/-- The largest number of characters that a modifier can keep. -/
def maxLimit : Nat := 9999

/-- How many characters of a value a modifier keeps. -/
structure Limit where
  val : Nat
  /-- At least one character is kept. -/
  one_le : 1 ≤ val
  /-- No more than the largest limit. -/
  le_max : val ≤ maxLimit
deriving DecidableEq

/-- The limit with a given number, when there is one. -/
def Limit.ofInt (n : Int) : Except Error Limit :=
  if h : 1 ≤ n.toNat ∧ n.toNat ≤ maxLimit then .ok ⟨n.toNat, h.1, h.2⟩
  else .error (.invalidLimit n)

/-- What an expression does to the value of a variable. -/
inductive Modifier where
  | none
  /-- Writes the members of a value one by one. -/
  | explode
  /-- Keeps the first characters of each text. -/
  | upTo (limit : Limit)
deriving DecidableEq

namespace Modifier

/-- The modifier as it stands after a name. -/
def suffix : Modifier → Text
  | none => []
  | explode => ['*']
  | upTo limit => ':' :: Text.ofNat limit.val

/-- The part of a text that the modifier keeps. -/
def truncate : Modifier → Text → Text
  | upTo limit, t => t.take limit.val
  | _, t => t

end Modifier

/-! ## Specifications -/

/-- A variable with its modifier. -/
structure VarSpec where
  name : Name
  /-- What is done to its value. -/
  modifier : Modifier
deriving DecidableEq

/-- The specification as it is written. -/
def VarSpec.text (spec : VarSpec) : Text :=
  spec.name.text ++ spec.modifier.suffix

/-! ## Reading -/

/-- A modifier as written, its limit still in digits. -/
inductive RawModifier where
  | none
  /-- `*` -/
  | explode
  /-- `:` and digits. -/
  | limit (digits : Text)
deriving DecidableEq

/-- A specification as written. -/
structure RawVarSpec where
  name : Name
  modifier : RawModifier
deriving DecidableEq

/-- Digits that can stand for a limit: `0` itself or no leading zero. -/
def isLimitText (digits : Text) : Bool :=
  digits.all Char.isDigit && match digits with
    | [] => false
    | ['0'] => true
    | c :: _ => c != '0'

/-- The largest number that an error about a limit reports. -/
def largestReported : Nat := Nat.pow 2 63 - 1

namespace RawModifier

/-- Takes a modifier from the front of a text.  Nothing is taken where none stands, and
a `:` without a limit after it is none. -/
def take : Text → RawModifier × Text
  | '*' :: rest => (.explode, rest)
  | ':' :: rest =>
    if isLimitText (rest.takeWhile Char.isDigit) then
      (.limit (rest.takeWhile Char.isDigit), rest.dropWhile Char.isDigit)
    else (.none, ':' :: rest)
  | t => (.none, t)

/-- The modifier, unless its limit is out of range.  A number too large to
report is reported as the largest one. -/
def resolve : RawModifier → Except Error Modifier
  | .none => .ok .none
  | .explode => .ok .explode
  | .limit digits => do
    return .upTo (← Limit.ofInt (min (Text.toNat digits) largestReported))

end RawModifier

namespace RawVarSpec

/-- Takes a name and a modifier from the front of a text. -/
def take? (t : Text) : Option (RawVarSpec × Text) :=
  if h : isName (t.takeWhile isNameChar) = true then
    let (modifier, rest) := RawModifier.take (t.dropWhile isNameChar)
    some (⟨⟨_, h⟩, modifier⟩, rest)
  else none

/-- Takes at most `n` further specifications from the front of a text, each after a
comma.  A comma with none after it is not taken. -/
def takeMore : Nat → Text → List RawVarSpec × Text
  | n + 1, ',' :: t =>
    match take? t with
    | some (raw, rest) =>
      let (raws, rest) := takeMore n rest
      (raw :: raws, rest)
    | none => ([], ',' :: t)
  | _, t => ([], t)

/-- Reads a name and a modifier, taking the whole text. -/
def read? (t : Text) : Option RawVarSpec :=
  match take? t with
  | some (raw, []) => some raw
  | _ => none

/-- The specification, unless its limit is out of range. -/
def resolve (raw : RawVarSpec) : Except Error VarSpec := do
  return ⟨raw.name, ← raw.modifier.resolve⟩

end RawVarSpec

/-- Reads a specification that stands alone. -/
def VarSpec.parse (t : Text) : Except Error VarSpec :=
  match RawVarSpec.read? t with
  | none => .error (.unrecognizedExpression t)
  | some raw => raw.resolve

end UriTemplate
