import UriTemplate.Text

/-!
# Differences of texts

The characters of two texts are aligned so that as many as possible are kept.
`Change.before?` and `Change.after?` read the two texts off an alignment, and
`before_changes` and `after_changes` say that the alignment of two texts spells
both.  A report shows each side as runs of changed and unchanged characters.
-/

namespace UriTemplate.Diff

/-- One character of an alignment. -/
inductive Change where
  /-- The character is in both texts. -/
  | kept (c : Char)
  /-- The character is in the first text only. -/
  | removed (c : Char)
  /-- The character is in the second text only. -/
  | added (c : Char)
deriving DecidableEq

/-! ## Lengths -/

/-- How many characters can be kept of a text that begins with `a`, against each
suffix of `new`.  `below` holds these numbers for the text after `a`. -/
def row (a : Char) : Text → List Nat → List Nat
  | b :: new, diagonal :: below =>
    let right := row a new below
    (if a = b then below.headD 0 + 1 else max diagonal (right.headD 0)) :: right
  | _, _ => [0]

/-- The rows of the suffixes of `old`, the longest suffix first. -/
def table (old new : Text) : List (List Nat) :=
  old.foldr (fun a rows => row a new (rows.headD []) :: rows) [List.replicate (new.length + 1) 0]

/-! ## Alignment -/

/-- Aligns two texts.  `rows` holds the lengths for their suffixes.  Equal
characters are kept; otherwise one is removed or added so that more can be kept
after it, and in a tie removed. -/
def align : Text → Text → List (List Nat) → List Change
  | [], new, _ => new.map .added
  | old, [], _ => old.map .removed
  | a :: old, b :: new, rows =>
    if a = b then .kept a :: align old new (rows.tail.map List.tail)
    else
      let ifRemoved := (rows.tail.headD []).headD 0
      let ifAdded := (rows.headD []).tail.headD 0
      if ifAdded ≤ ifRemoved then .removed a :: align old (b :: new) rows.tail
      else .added b :: align (a :: old) new (rows.map List.tail)
termination_by old new => old.length + new.length

/-- An alignment of two texts, by the lengths above.  It stands for the alignment of
any differ.  Where several keep as many characters, another differ may choose another
one, and the coloured runs of a report may then begin and end elsewhere.  That both
texts are shown in full (`diff_in_full`) needs of an alignment only that it spells
them, `Spells`, as `before_changes` and `after_changes` say of this one. -/
def changes (old new : Text) : List Change :=
  align old new (table old new)

namespace Change

/-- The character in the first text. -/
def before? : Change → Option Char
  | kept c | removed c => some c
  | added _ => none

/-- The character in the second text. -/
def after? : Change → Option Char
  | kept c | added c => some c
  | removed _ => none

/-- Whether the character is in one text only. -/
def isChanged : Change → Bool
  | kept _ => false
  | _ => true

end Change

theorem before_align (old new : Text) (rows : List (List Nat)) :
    (align old new rows).filterMap Change.before? = old := by
  fun_induction align old new rows with
  | case1 new => simp [List.filterMap_map, Function.comp_def, Change.before?]
  | case2 old => simp [List.filterMap_map, Function.comp_def, Change.before?]
  | case3 _ _ _ _ ih => simpa [Change.before?] using ih
  | case4 _ _ _ _ _ _ _ _ _ ih => simpa [Change.before?] using ih
  | case5 _ _ _ _ _ _ _ _ _ ih => simpa [Change.before?, List.filterMap_cons] using ih

theorem after_align (old new : Text) (rows : List (List Nat)) :
    (align old new rows).filterMap Change.after? = new := by
  fun_induction align old new rows with
  | case1 new => simp [List.filterMap_map, Function.comp_def, Change.after?]
  | case2 old => simp [List.filterMap_map, Function.comp_def, Change.after?]
  | case3 _ _ _ _ ih => simpa [Change.after?] using ih
  | case4 _ _ _ _ _ _ _ _ _ ih => simpa [Change.after?, List.filterMap_cons] using ih
  | case5 _ _ _ _ _ _ _ _ _ ih => simpa [Change.after?] using ih

/-- An alignment spells the first text. -/
theorem before_changes (old new : Text) : (changes old new).filterMap Change.before? = old :=
  before_align old new _

/-- An alignment spells the second text. -/
theorem after_changes (old new : Text) : (changes old new).filterMap Change.after? = new :=
  after_align old new _

/-! ## Runs -/

/-- One side of an alignment. -/
inductive Side where
  /-- The first text. -/
  | before
  /-- The second text. -/
  | after
deriving DecidableEq

/-- The character of a change on one side. -/
def Side.char? : Side → Change → Option Char
  | before, c => c.before?
  | after, c => c.after?

/-- Neighbouring characters that are all changed or all unchanged. -/
structure Run where
  /-- Whether they are changed. -/
  changed : Bool
  text : Text
deriving DecidableEq

/-- Puts a character before runs, in the first one if that is of its kind. -/
def extend (changed : Bool) (c : Char) : List Run → List Run
  | [] => [⟨changed, [c]⟩]
  | r :: rest =>
    if r.changed = changed then ⟨changed, c :: r.text⟩ :: rest else ⟨changed, [c]⟩ :: r :: rest

/-- One side of an alignment in runs. -/
def runs (side : Side) : List Change → List Run
  | [] => []
  | change :: rest =>
    match side.char? change with
    | some c => extend change.isChanged c (runs side rest)
    | none => runs side rest

end UriTemplate.Diff
