import UriTemplate.Name
import UriTemplate.Percent.Atom

/-!
# Regexes

The regular expressions that templates are matched with, and their text.  Such a
regex is a row of fixed texts and slots.  A slot takes the atoms of an encoded
value and remembers them as a named group.
-/

namespace UriTemplate

/-- How many atoms a slot takes. -/
inductive Count where
  /-- As many as it can. -/
  | any
  | exactly (n : Nat)
deriving DecidableEq

/-- A place for the encoded value of a variable. -/
structure Slot where
  group : Text
  name : Name
  /-- The characters that the value keeps. -/
  charClass : CharClass
  /-- How many atoms the value has. -/
  count : Count
deriving DecidableEq

namespace Regex

/-- A part of a regex. -/
inductive Item where
  | literal (t : Text)
  | slot (x : Slot)
  /-- A value after `=`, or nothing. -/
  | assigned (x : Slot)
deriving DecidableEq

end Regex

/-- A regular expression. -/
abbrev Regex := List Regex.Item

/-! ## Text -/

/-- A character that regexes use for something other than itself. -/
def isMeta (c : Char) : Bool :=
  ['\\', '.', '+', '*', '?', '(', ')', '|', '[', ']', '{', '}', '^', '$', '#', '&', '-', '~'].contains c

namespace Regex

/-- Fixed text, with a backslash before each character that needs one. -/
def escape (t : Text) : Text :=
  t.flatMap fun c => if isMeta c then ['\\', c] else [c]

@[simp] theorem escape_nil : escape [] = [] := rfl

@[simp] theorem escape_append (s t : Text) : escape (s ++ t) = escape s ++ escape t :=
  List.flatMap_append

end Regex

/-- The set of the characters of a class. -/
def CharClass.setText : CharClass → Text
  | unreserved => "[A-Za-z0-9\\-._~]".toList
  | extended => "[A-Za-z0-9\\-._~:/?#\\[\\]@!$&'()*+,;=]".toList

/-- One atom of a class. -/
def CharClass.atomText (cls : CharClass) : Text :=
  "(?:".toList ++ cls.setText ++ "|%[0-9A-Fa-f]\x7b2\x7d)".toList

/-- The mark of repetition for a count. -/
def Count.text : Count → Text
  | any => ['*']
  | exactly n => '{' :: (Text.ofNat n ++ ['}'])

/-- The named group of a slot. -/
def Slot.text (x : Slot) : Text :=
  "(?P<".toList ++ x.group ++ '>' :: (x.charClass.atomText ++ x.count.text ++ [')'])

namespace Regex

/-- The part as it is written. -/
def Item.text : Item → Text
  | literal t => escape t
  | slot x => x.text
  | assigned x => "(?:=".toList ++ x.text ++ ")?".toList

/-- The regex as it is written. -/
def text (r : Regex) : Text :=
  r.flatMap Item.text

/-- The slot of a part. -/
def Item.slot? : Item → Option Slot
  | literal _ => none
  | slot x | assigned x => some x

/-- The slots from left to right. -/
def slots (r : Regex) : List Slot :=
  r.filterMap Item.slot?

end Regex

end UriTemplate
