import UriTemplate.Percent

/-!
# Atoms

An encoded value is a row of atoms: characters that its class keeps, and
triplets.  No class keeps `%`, so a text begins with at most one atom, and
`takeAtom?` takes it off.
-/

namespace UriTemplate.Percent

/-- A hexadecimal digit of either case. -/
def isHexDigit (c : Char) : Bool :=
  (hexValue? c).isSome

/-- An atom, and the text after it. -/
def takeAtom? (cls : CharClass) : Text → Option (Text × Text)
  | [] => none
  | c :: rest =>
    if cls.contains c then some ([c], rest)
    else match rest with
      | a :: b :: rest =>
        if c = '%' ∧ isHexDigit a ∧ isHexDigit b then some ([c, a, b], rest) else none
      | _ => none

theorem eq_append_of_takeAtom? {cls : CharClass} {s atom rest : Text}
    (h : takeAtom? cls s = some (atom, rest)) : s = atom ++ rest ∧ atom ≠ [] := by
  unfold takeAtom? at h
  split at h
  · simp at h
  · split at h
    · grind
    · split at h <;> grind

/-- A number of atoms, and the text after them. -/
def takeAtoms? (cls : CharClass) : Nat → Text → Option (Text × Text)
  | 0, s => some ([], s)
  | n + 1, s => do
    let (atom, s) ← takeAtom? cls s
    let (atoms, rest) ← takeAtoms? cls n s
    return (atom ++ atoms, rest)

end UriTemplate.Percent
