import UriTemplate.Json

/-!
# Writing JSON

`text` writes a value without any blanks, `pretty` with one item on each line.
-/

namespace UriTemplate.Json

/-- The lower-case hexadecimal digit of a number below sixteen. -/
def hexDigit (n : Nat) : Char :=
  if n < 10 then Char.ofNat ('0'.toNat + n) else Char.ofNat ('a'.toNat + (n - 10))

/-- One character of a text between quotes. -/
def escapeChar : Char → Text
  | '"' => ['\\', '"']
  | '\\' => ['\\', '\\']
  | '\n' => ['\\', 'n']
  | '\r' => ['\\', 'r']
  | '\t' => ['\\', 't']
  | '\x08' => ['\\', 'b']
  | '\x0c' => ['\\', 'f']
  | c =>
    if c.toNat < 0x20 then ['\\', 'u', '0', '0', hexDigit (c.toNat / 16), hexDigit (c.toNat % 16)]
    else [c]

/-- A text between quotes. -/
def quote (t : Text) : Text :=
  '"' :: (t.flatMap escapeChar ++ ['"'])

/-- A number as it is written. -/
def Number.text : Number → Text
  | int n => Text.ofInt n
  | float x => x.text

/-- A truth value as it is written. -/
def boolText (b : Bool) : Text :=
  if b then "true".toList else "false".toList

mutual

/-- A value without blanks. -/
def text : Json → Text
  | null => "null".toList
  | bool b => boolText b
  | number n => n.text
  | string t => quote t
  | array items => '[' :: (List.intercalate [','] (itemTexts items) ++ [']'])
  | object members => '{' :: (List.intercalate [','] (memberTexts members) ++ ['}'])

/-- The items of an array without blanks. -/
def itemTexts : List Json → List Text
  | [] => []
  | item :: rest => item.text :: itemTexts rest

/-- The members of an object without blanks. -/
def memberTexts : List (Text × Json) → List Text
  | [] => []
  | (key, value) :: rest => (quote key ++ ':' :: value.text) :: memberTexts rest

end

/-- A new line with an indentation. -/
def newline (depth : Nat) : Text :=
  '\n' :: List.replicate (2 * depth) ' '

/-- Lines between brackets, or the brackets alone. -/
def enclose (opening closing : Char) (depth : Nat) (lines : List Text) : Text :=
  if lines.isEmpty then [opening, closing]
  else opening :: (newline (depth + 1) ++
    List.intercalate (',' :: newline (depth + 1)) lines ++ newline depth ++ [closing])

mutual

/-- A value with each item on a line of its own, at an indentation. -/
def pretty (depth : Nat) : Json → Text
  | null => "null".toList
  | bool b => boolText b
  | number n => n.text
  | string t => quote t
  | array items => enclose '[' ']' depth (prettyItems (depth + 1) items)
  | object members => enclose '{' '}' depth (prettyMembers (depth + 1) members)

/-- The items of an array, each at an indentation. -/
def prettyItems (depth : Nat) : List Json → List Text
  | [] => []
  | item :: rest => item.pretty depth :: prettyItems depth rest

/-- The members of an object, each at an indentation. -/
def prettyMembers (depth : Nat) : List (Text × Json) → List Text
  | [] => []
  | (key, value) :: rest =>
    (quote key ++ ':' :: ' ' :: value.pretty depth) :: prettyMembers depth rest

end

end UriTemplate.Json
