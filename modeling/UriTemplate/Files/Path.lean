import UriTemplate.Text.Utf8

/-!
# Paths

A path is a row of bytes whose parts stand between slashes.  The bytes need not be
the UTF-8 form of a text, as a name can hold any byte but a slash; where a path is
shown, `Path.display` reads it as far as it is one.  Empty parts and `.` name no
further place, so they are passed over, but a path is otherwise kept as it is
written.
-/

namespace UriTemplate.Files

/-- The name of a file or folder, in bytes. -/
abbrev FileName := List UInt8

/-- A path as it is written, in bytes. -/
abbrev Path := List UInt8

namespace Path

/-- The path that a text writes. -/
def ofText (t : Text) : Path :=
  Utf8.encode t

/-- The path as it is shown. -/
def display (p : Path) : Text :=
  Utf8.decodeLossy p

/-- What stands between the parts of a path. -/
def slash : UInt8 := 0x2F

/-- What stands before the extension of a name. -/
def dot : UInt8 := 0x2E

/-- Whether the path starts at the root. -/
def isAbsolute (p : Path) : Bool :=
  p.head? == some slash

/-- A part that names no further place. -/
def isIdle (part : FileName) : Bool :=
  part.isEmpty || part == [dot]

/-- The part that names the place above. -/
def up : FileName := [dot, dot]

/-- The parts between slashes, idle ones too. -/
def fields (p : Path) : List FileName :=
  p.splitOn slash

/-- The path with the given parts. -/
def ofFields (parts : List FileName) : Path :=
  List.intercalate [slash] parts

/-- The path `p` seen from `base`. -/
def join (base p : Path) : Path :=
  if p.isAbsolute ∨ base.isEmpty then p
  else if base.getLast? = some slash then base ++ p
  else base ++ slash :: p

/-- The parts without idle ones at the end. -/
def dropIdleEnd (parts : List FileName) : List FileName :=
  (parts.reverse.dropWhile isIdle).reverse

/-- What a path starts from. -/
inductive Start where
  | root
  /-- The current place, written `.`. -/
  | here
  /-- The current place, not written. -/
  | implied
deriving DecidableEq

/-- The start of a path and the parts after it. -/
def start (p : Path) : Start × List FileName :=
  match p.fields with
  | [] => (.implied, [])
  | first :: rest =>
    if p.isAbsolute then (.root, rest)
    else if first = [dot] then (.here, rest)
    else (.implied, first :: rest)

/-- The path without idle parts at the end. -/
def trimmed (p : Path) : Path :=
  match p.start with
  | (.root, parts) => slash :: ofFields (dropIdleEnd parts)
  | (.here, parts) => ofFields ([dot] :: dropIdleEnd parts)
  | (.implied, parts) => ofFields (dropIdleEnd parts)

/-- What is left of `parts` after the given names. -/
def dropNames : List FileName → List FileName → Option (List FileName)
  | [], parts => some parts
  | name :: names, parts =>
    match parts.dropWhile isIdle with
    | part :: parts => if part = name then dropNames names parts else none
    | [] => none

/-- What is left of the path `p` below `base`. -/
def below? (base p : Path) : Option Path :=
  let (from', names) := base.start
  let names := names.filter (!isIdle ·)
  let (start, parts) := p.start
  if from' = .implied ∧ names.isEmpty then
    some p.trimmed
  else if from' = start then
    (dropNames names parts).map fun rest => ofFields (dropIdleEnd (rest.dropWhile isIdle))
  else none

/-- The last name of the path. -/
def name? (p : Path) : Option FileName :=
  match (p.start.2.filter (!isIdle ·)).getLast? with
  | some name => if name = up then none else some name
  | none => none

/-- Splits a name at its last dot.  A name with no other dot than the first byte has
no extension. -/
def splitName (name : FileName) : FileName × Option FileName :=
  let parts := name.splitOn dot
  let before := List.intercalate [dot] parts.dropLast
  if before.isEmpty then (name, none) else (before, parts.getLast?)

/-- The last name without its extension. -/
def stem? (p : Path) : Option FileName :=
  p.name?.map fun name => (splitName name).1

/-- What stands after the last dot of the last name. -/
def extension? (p : Path) : Option FileName :=
  p.name?.bind fun name => (splitName name).2

/-- The path with its last name cut before the extension.  The dot stays if what
is left would name no place. -/
def withoutExtension (p : Path) : Path :=
  match p.stem? with
  | none => p
  | some stem =>
    let name := if isIdle stem then stem ++ [dot] else stem
    ofFields ((dropIdleEnd p.fields).dropLast ++ [name])

end Path

end UriTemplate.Files
