import UriTemplate.Binary64.Shortest

/-!
# JSON values

A number is a whole one in the range of 64-bit words, signed or not, and
otherwise a double.  An object keeps its members in the order in which their
keys first came, and each key once: a later member with the same key changes
the value where it stands.
-/

namespace UriTemplate

/-- A number of a JSON text. -/
inductive Json.Number where
  /-- A whole number from `-2^63` to below `2^64`. -/
  | int (n : Int)
  /-- Any other number. -/
  | float (x : Binary64)
deriving DecidableEq

/-- A JSON value. -/
inductive Json where
  | null
  | bool (b : Bool)
  | number (n : Json.Number)
  | string (t : Text)
  | array (items : List Json)
  /-- Values under keys, in order. -/
  | object (members : List (Text × Json))

namespace Json

/-- The members with a key set: where it stands, or else at the end. -/
def insertMember {α : Type} (key : Text) (value : α) : List (Text × α) → List (Text × α)
  | [] => [(key, value)]
  | (k, v) :: rest =>
    if k = key then (k, value) :: rest else (k, v) :: insertMember key value rest

/-- The members after setting keys one by one. -/
def dedup {α : Type} (members : List (Text × α)) : List (Text × α) :=
  members.foldl (fun done m => insertMember m.1 m.2 done) []

/-- The object that members written one after another make. -/
def ofMembers (members : List (Text × Json)) : Json :=
  .object (dedup members)

/-- The members of an object. -/
def members? : Json → Option (List (Text × Json))
  | object members => some members
  | _ => none

/-- The items of an array. -/
def items? : Json → Option (List Json)
  | array items => some items
  | _ => none

/-- A text. -/
def string? : Json → Option Text
  | string t => some t
  | _ => none

/-- A whole number that is not negative. -/
def nat? : Json → Option Nat
  | number (.int (.ofNat n)) => some n
  | _ => none

end Json

end UriTemplate
