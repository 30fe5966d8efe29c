import UriTemplate.Operator
import UriTemplate.VarSpec

/-!
# Expressions

What stands between braces in a template.  An expression that is read from text
is a member (one variable) or a composite (several).  A single and a multi are
the plain forms that a program can build directly; they write variables without
modifiers.
-/

namespace UriTemplate

/-- One variable without a modifier, as in `{x}` or `{+x}`. -/
structure Single where
  name : Name
  /-- The characters that its value keeps. -/
  charClass : CharClass
deriving DecidableEq

/-- Variables without modifiers under one operator. -/
structure Multi where
  op : Operator
  names : List Name
deriving DecidableEq

/-- One variable with its modifier under an operator. -/
structure Member where
  op : Operator
  spec : VarSpec
deriving DecidableEq

/-- Variables with their modifiers under one operator. -/
structure Composite where
  op : Operator
  first : VarSpec
  rest : List VarSpec
deriving DecidableEq

/-- An expression of a template. -/
inductive Expression where
  | single (e : Single)
  | multi (e : Multi)
  | member (e : Member)
  | composite (e : Composite)
deriving DecidableEq

/-- The form that every expression is written in. -/
def braced (op : Operator) (specs : List Text) : Text :=
  '{' :: (op.symbol ++ List.intercalate [','] specs ++ ['}'])

namespace Single

/-- The expression as it is written. -/
def text (e : Single) : Text :=
  match e.charClass with
  | .unreserved => braced .simple [e.name.text]
  | .extended => braced .reserved [e.name.text]

end Single

namespace Multi

/-- The plain variables that the expression writes. -/
def values (e : Multi) : List Single :=
  e.names.map fun name => ⟨name, e.op.charClass⟩

/-- The expression as it is written. -/
def text (e : Multi) : Text :=
  braced e.op (e.names.map Name.text)

end Multi

namespace Member

/-- The variable. -/
def name (e : Member) : Name :=
  e.spec.name

/-- The variable as a plain one. -/
def value (e : Member) : Single :=
  ⟨e.name, e.op.charClass⟩

/-- What stands between the members of a value. -/
def separator (e : Member) : Char :=
  match e.spec.modifier with
  | .explode => e.op.separator
  | .none | .upTo _ => ','

/-- The expression as it is written. -/
def text (e : Member) : Text :=
  braced e.op [e.spec.text]

end Member

namespace Composite

/-- The specifications in order. -/
def specs (e : Composite) : List VarSpec :=
  e.first :: e.rest

/-- The variables, each as an expression of its own. -/
def members (e : Composite) : List Member :=
  e.specs.map fun spec => ⟨e.op, spec⟩

/-- Adds a variable that has yet to be read. -/
def add (e : Composite) (spec : Text) : Except Error Composite := do
  return { e with rest := e.rest ++ [← VarSpec.parse spec] }

/-- What begins the second and later members.  Fragments have only one `#`. -/
def continuationLead (e : Composite) : Text :=
  match e.op with
  | .fragment => []
  | op => op.continuation.lead

/-- What stands between members that have no lead of their own. -/
def groupSeparator (e : Composite) : Text :=
  match e.op with
  | .simple | .reserved | .fragment => [',']
  | _ => []

/-- The expression as it is written. -/
def text (e : Composite) : Text :=
  braced e.op (e.specs.map VarSpec.text)

end Composite

namespace Expression

/-- The expression as it is written. -/
def text : Expression → Text
  | single e => e.text
  | multi e => e.text
  | member e => e.text
  | composite e => e.text

/-- The variables in the order in which they are written. -/
def names : Expression → List Name
  | single e => [e.name]
  | multi e => e.names
  | member e => [e.name]
  | composite e => e.specs.map VarSpec.name

end Expression

end UriTemplate
