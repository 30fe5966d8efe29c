import UriTemplate.Text

/-!
# Values

What a variable of a template can be bound to.
-/

namespace UriTemplate

/-- The value of a variable. -/
inductive Value where
  | absent
  | scalar (text : Text)
  | list (items : List Text)
  /-- Pairs of a key and a text in order; keys may repeat. -/
  | assoc (pairs : List (Text × Text))
deriving DecidableEq

namespace Value

/-- Whether an expansion skips the value: it is absent or has no members. -/
def isUndefined : Value → Bool
  | absent => true
  | scalar _ => false
  | list items => items.isEmpty
  | assoc pairs => pairs.isEmpty

/-- The text of a scalar. -/
def scalar? : Value → Option Text
  | scalar text => some text
  | _ => none

@[simp] theorem scalar?_eq_some {v : Value} {t : Text} : v.scalar? = some t ↔ v = scalar t := by
  cases v <;> simp [scalar?]

end Value

end UriTemplate
