import UriTemplate.Text

/-!
# Character classes

The characters that a value may keep as they are.  `%` is in neither class, so
a `%` in an encoded value always starts a triplet.
-/

namespace UriTemplate

/-- The characters left as they are when a value is percent-encoded. -/
inductive CharClass where
  /-- Letters, digits and `-`, `.`, `_`, `~`. -/
  | unreserved
  /-- The unreserved characters and the delimiters of URLs. -/
  | extended
deriving DecidableEq, Repr

/-- A character that URLs use for nothing but itself. -/
def isUnreserved (c : Char) : Bool :=
  c.isAlphanum || c == '-' || c == '.' || c == '_' || c == '~'

/-- A character that may delimit the parts of a URL. -/
def isReserved (c : Char) : Bool :=
  [':', '/', '?', '#', '[', ']', '@', '!', '$', '&', '\'', '(', ')', '*', '+', ',', ';', '='].contains c

namespace CharClass

/-- Whether the class leaves `c` as it is. -/
def contains : CharClass → Char → Bool
  | unreserved, c => isUnreserved c
  | extended, c => isUnreserved c || isReserved c

@[simp] theorem not_contains_percent (cls : CharClass) : cls.contains '%' = false := by
  cases cls <;> decide

theorem ne_percent_of_contains {cls : CharClass} {c : Char} (h : cls.contains c = true) :
    c ≠ '%' := by
  rintro rfl
  simp at h

end CharClass

end UriTemplate
