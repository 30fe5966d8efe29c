import UriTemplate.Error

/-!
# Variable names

A name is one or more ASCII letters, digits and underscores.  The condition is
part of the type, so every name that a template or a set of bindings holds is a
valid one.
-/

namespace UriTemplate

/-- A character that a variable name may hold. -/
def isNameChar (c : Char) : Bool :=
  c.isAlphanum || c == '_'

/-- Whether a text is a variable name. -/
def isName (t : Text) : Bool :=
  !t.isEmpty && t.all isNameChar

/-- The name of a variable. -/
structure Name where
  text : Text
  /-- The name is not empty and holds name characters only. -/
  valid : isName text = true
deriving DecidableEq

namespace Name

@[ext] theorem ext {m n : Name} (h : m.text = n.text) : m = n := by
  cases m; cases n; cases h; rfl

/-- Reads a name, refusing any text that is not one. -/
def parse (raw : Text) : Except Error Name :=
  if h : isName raw = true then .ok ⟨raw, h⟩ else .error (.invalidName raw)

@[simp] theorem parse_text (n : Name) : parse n.text = .ok n := by
  simp [parse, n.valid]

theorem text_of_parse {raw : Text} {n : Name} (h : parse raw = .ok n) : n.text = raw := by
  unfold parse at h
  split at h
  · cases h; rfl
  · cases h

theorem text_ne_nil (n : Name) : n.text ≠ [] := by
  intro h
  have := n.valid
  simp [isName, h] at this

theorem isNameChar_of_mem (n : Name) {c : Char} (h : c ∈ n.text) : isNameChar c = true := by
  have := n.valid
  simp only [isName, Bool.and_eq_true, List.all_eq_true] at this
  exact this.2 c h

end Name

end UriTemplate
