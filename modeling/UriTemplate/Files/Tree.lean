import UriTemplate.Files.Path

/-!
# File trees

Files, folders and links as they are at one moment.  A place in the tree is the
list of names from the root down to it, with no link on the way; `resolve`
follows a path to its place.
-/

namespace UriTemplate.Files

/-- Why a path cannot be followed or a file not be read. -/
inductive Fault where
  /-- There is nothing under a name. -/
  | notFound
  /-- A path goes on below a file. -/
  | notFolder
  | isFolder
  | tooManyLinks
  | notText
deriving DecidableEq, Repr

/-- The words for a fault. -/
def Fault.message : Fault → Text
  | notFound => "No such file or directory (os error 2)".toList
  | notFolder => "Not a directory (os error 20)".toList
  | isFolder => "Is a directory (os error 21)".toList
  | tooManyLinks => "Too many levels of symbolic links (os error 40)".toList
  | notText => "stream did not contain valid UTF-8".toList

/-- What a name in a folder stands for. -/
inductive Node where
  | file (content : List UInt8)
  | folder (entries : List (FileName × Node))
  | link (target : Path)

/-- The names from the root down to a node. -/
abbrev Place := List FileName

namespace Node

/-- The folder without entries. -/
def empty : Node := .folder []

/-- The node under a name. -/
def child? (name : FileName) : Node → Option Node
  | folder entries => entries.lookup name
  | _ => none

/-- The node at a place. -/
def at? (tree : Node) (place : Place) : Option Node :=
  place.foldlM (fun node name => node.child? name) tree

/-- The entries with a name set: where it stands, or else at the end. -/
def setEntry (name : FileName) (node : Node) :
    List (FileName × Node) → List (FileName × Node)
  | [] => [(name, node)]
  | (other, old) :: rest =>
    if other = name then (name, node) :: rest else (other, old) :: setEntry name node rest

/-- The tree with a node put at a place, in folders that are made for it. -/
def put (tree : Node) (node : Node) : Place → Node
  | [] => node
  | name :: rest =>
    let entries := match tree with
      | folder entries => entries
      | _ => []
    let inner := ((entries.lookup name).getD empty).put node rest
    folder (setEntry name inner entries)

end Node

/-- How many links a path may lead through. -/
def maxLinks : Nat := 40

/-- Follows parts of a path from a place. -/
def follow (tree : Node) (links : Nat) (place : Place) : List FileName → Except Fault Place
  | [] => .ok place
  | part :: rest =>
    match tree.at? place with
    | some (.folder entries) =>
      if Path.isIdle part then follow tree links place rest
      else if part = Path.up then follow tree links place.dropLast rest
      else
        match entries.lookup part with
        | none => .error .notFound
        | some (.link target) =>
          match links with
          | 0 => .error .tooManyLinks
          | links + 1 =>
            follow tree links (if target.isAbsolute then [] else place) (target.fields ++ rest)
        | some _ => follow tree links (place ++ [part]) rest
    | _ => .error .notFolder
termination_by parts => (links, parts.length)

/-- A tree with the place that relative paths start from. -/
structure World where
  tree : Node
  /-- Where relative paths start. -/
  here : Place

namespace World

/-- The place that a path leads to. -/
def resolve (w : World) (p : Path) : Except Fault Place :=
  if p.isEmpty then .error .notFound
  else follow w.tree maxLinks (if p.isAbsolute then [] else w.here) p.fields

/-- The path of a place from the root. -/
def pathOf (place : Place) : Path :=
  if place.isEmpty then [Path.slash] else place.flatMap (Path.slash :: ·)

/-- The path without links, or the path as it is when it leads nowhere. -/
def canonical (w : World) (p : Path) : Path :=
  match w.resolve p with
  | .ok place => pathOf place
  | .error _ => p

/-- The bytes of a file. -/
def read (w : World) (p : Path) : Except Fault (List UInt8) := do
  let place ← w.resolve p
  match w.tree.at? place with
  | some (.file content) => return content
  | _ => throw .isFolder

end World

end UriTemplate.Files
