/-!
# Text

Templates, values and URLs are read and written character by character, so a
text is a list of characters.  This module holds the few operations on texts
that the rest of the library shares: decimal numbers and the search for one
text inside another.
-/

namespace UriTemplate

/-- A text, character by character. -/
abbrev Text := List Char

namespace Text

/-! ## Decimal numbers -/

/-- The decimal digits of `n`, without leading zeros. -/
def ofNat (n : Nat) : Text :=
  Nat.toDigits 10 n

/-- The decimal digits of `n`, after a `-` when it is negative. -/
def ofInt : Int → Text
  | .ofNat n => ofNat n
  | .negSucc n => '-' :: ofNat (n + 1)

/-- The value of one decimal digit. -/
def digitValue (c : Char) : Nat :=
  c.toNat - '0'.toNat

/-- The number that decimal digits spell. -/
def toNat (digits : Text) : Nat :=
  digits.foldl (fun n c => 10 * n + digitValue c) 0

@[simp] theorem toNat_nil : toNat [] = 0 := rfl

theorem toNat_append_digit (digits : Text) (c : Char) :
    toNat (digits ++ [c]) = 10 * toNat digits + digitValue c := by
  simp [toNat]

/-! ## Search -/

/-- Whether `part` stands somewhere in the text. -/
def occursIn (part : Text) : Text → Bool
  | [] => part.isEmpty
  | c :: rest => part.isPrefixOf (c :: rest) || occursIn part rest

theorem occursIn_iff (part t : Text) : occursIn part t = true ↔ part <:+: t := by
  induction t with
  | nil => simp [occursIn]
  | cons c rest ih =>
    rw [occursIn, Bool.or_eq_true, ih, List.isPrefixOf_iff_prefix, List.infix_cons_iff]

/-- The text after `front`, if it begins with that. -/
def stripFront : Text → Text → Option Text
  | [], t => some t
  | _ :: _, [] => none
  | c :: front, d :: t => if c = d then stripFront front t else none

theorem stripFront_eq_some {front t rest : Text} :
    stripFront front t = some rest ↔ t = front ++ rest := by
  induction front generalizing t with
  | nil => simp [stripFront, eq_comm]
  | cons c front ih =>
    cases t with
    | nil => simp [stripFront]
    | cons d t =>
      by_cases h : c = d
      · subst h
        simp [stripFront, ih]
      · simp [stripFront, h, Ne.symm h]

/-- Splits at the first `c`: the text before it and the text after it. -/
def splitOnce (c : Char) : Text → Option (Text × Text)
  | [] => none
  | d :: rest =>
    if d = c then some ([], rest)
    else (splitOnce c rest).map fun (before, after) => (d :: before, after)

theorem append_of_splitOnce {c : Char} {t before after : Text}
    (h : splitOnce c t = some (before, after)) : t = before ++ c :: after := by
  induction t generalizing before with
  | nil => simp [splitOnce] at h
  | cons d rest ih =>
    rw [splitOnce] at h
    split at h
    · simp_all
    · simp only [Option.map_eq_some_iff, Prod.exists, Prod.mk.injEq] at h
      obtain ⟨b, a, hba, rfl, rfl⟩ := h
      simp [ih hba]

/-- Splits at the last `c`: the text before it and the text after it. -/
def splitLast (c : Char) (t : Text) : Option (Text × Text) :=
  (splitOnce c t.reverse).map fun (after, before) => (before.reverse, after.reverse)

/-- The parts of the text between occurrences of `sep`; always at least one. -/
def fields (sep : Char) : Text → List Text
  | [] => [[]]
  | c :: rest =>
    if c = sep then [] :: fields sep rest
    else match fields sep rest with
      | [] => [[c]]
      | part :: parts => (c :: part) :: parts

theorem fields_ne_nil (sep : Char) (t : Text) : fields sep t ≠ [] := by
  cases t with
  | nil => simp [fields]
  | cons c rest =>
    rw [fields]
    split
    · simp
    · split <;> simp

/-- Joining the parts by the separator gives the text back. -/
theorem intercalate_fields (sep : Char) (t : Text) :
    List.intercalate [sep] (fields sep t) = t := by
  induction t with
  | nil => rfl
  | cons c rest ih =>
    rw [fields]
    have hne := fields_ne_nil sep rest
    split
    · rename_i h
      subst h
      cases hf : fields c rest with
      | nil => exact absurd hf hne
      | cons p ps =>
        rw [hf] at ih
        simp [List.intercalate_cons_cons, ih]
    · cases hf : fields sep rest with
      | nil => exact absurd hf hne
      | cons p ps =>
        rw [hf] at ih
        cases ps with
        | nil => simp_all [List.intercalate]
        | cons q qs =>
          simp only [List.intercalate_cons_cons] at ih ⊢
          simp [ih]

end Text

end UriTemplate
