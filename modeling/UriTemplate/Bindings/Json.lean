import UriTemplate.Bindings
import UriTemplate.Json.Writer

/-!
# Bindings as JSON

Bindings are written as an object with a member for each variable.  An absent
value is `null`, a scalar a text, a list an array of texts, and an associative
list an object.  Read from JSON, a non-empty array of two-item arrays is an
associative list as well, which can then hold a key twice.
-/

namespace UriTemplate

namespace Value

/-- A member of a value as a text: texts as they are, `null` empty, and
everything else as it is written in JSON. -/
def memberText : Json → Text
  | .string t => t
  | .null => []
  | json => json.text

/-- A pair of texts, from an array with two items. -/
def pair? : Json → Option (Text × Text)
  | .array [k, v] => some (memberText k, memberText v)
  | _ => none

/-- The value that a JSON value stands for. -/
def ofJson : Json → Value
  | .null => absent
  | .string t => scalar t
  | .bool b => scalar (Json.boolText b)
  | .number n => scalar n.text
  | .object members => assoc (members.map fun (k, v) => (k, memberText v))
  | .array items =>
    match items.mapM pair? with
    | some (pair :: pairs) => assoc (pair :: pairs)
    | _ => list (items.map memberText)

/-- The JSON value for a value; a repeated key is written once. -/
def toJson : Value → Json
  | absent => .null
  | scalar t => .string t
  | list items => .array (items.map .string)
  | assoc pairs => .ofMembers (pairs.map fun (k, v) => (k, .string v))

end Value

namespace Bindings

/-- Binds the keys of members in order.  Each has to be a variable name. -/
def setAll (b : Bindings) : List (Text × Json) → Except Error Bindings
  | [] => .ok b
  | (key, json) :: rest => do
    setAll (← b.set key (.ofJson json)) rest

/-- The bindings that the members of an object stand for.  Any other JSON value
stands for no bindings. -/
def ofJson (json : Json) : Except Error Bindings :=
  match json with
  | .object members => setAll ∅ members
  | _ => .ok ∅

/-- The object for bindings, members in the order of the names. -/
def toJson (b : Bindings) : Json :=
  .object (b.entries.map fun e => (e.1.text, e.2.toJson))

end Bindings

end UriTemplate
