import UriTemplate.Files.Tree

/-!
# Discovery

Fixture files below a folder.  Links are followed; a link that leads back to a
folder on the way to it is refused.  A file is a fixture when its extension is
`json` and its name starts with neither `_` nor `.`.  It gives its name to a
suite, which is called by the path below the folder without the extension.  The
name of a suite is a text, and stands for the path as far as that is one.
-/

namespace UriTemplate

open Files

/-- A fixture file with the name of its suite. -/
structure Suite where
  path : Path
  name : Text
deriving DecidableEq

namespace Suite

/-- The suite of a file that was found below `base`. -/
def ofPath (path base : Path) : Suite :=
  let named : Path := match Path.below? base path with
    | some (b :: rest) => Path.withoutExtension (b :: rest)
    | _ => path.stem?.getD path
  ⟨path, named.display⟩

end Suite

/-- Whether a file with this path is a fixture. -/
def isFixture (p : Path) : Bool :=
  p.extension? == some (Path.ofText "json".toList) &&
    !p.name?.any fun name => (Utf8.decodeLossy name).head?.any fun c => c == '_' || c == '.'

/-! ## Walking a tree -/

/-- Why a walk stops. -/
inductive WalkFault where
  /-- A path cannot be followed. -/
  | unreachable (path : Path) (fault : Fault)
  /-- A link leads back to a folder on the way to it. -/
  | loop (path ancestor : Path)
deriving DecidableEq

namespace WalkFault

/-- The words for a fault. -/
def message : WalkFault → Text
  | unreachable path fault =>
    "IO error for operation on ".toList ++ path.display ++ ": ".toList ++ fault.message
  | loop path ancestor =>
    "File system loop found: ".toList ++ path.display ++ " points to an ancestor ".toList ++
      ancestor.display

/-- The words for the cause of a fault. -/
def causes : WalkFault → List Text
  | unreachable _ fault => [fault.message]
  | loop .. => []

end WalkFault

/-- A folder on the way, with the path that led to it. -/
abbrev Ancestor := Place × Path

/-- The node that a path leads to after all links, with its place. -/
def target (w : World) (p : Path) : Except WalkFault (Place × Node) :=
  match w.resolve p with
  | .error fault => .error (.unreachable p fault)
  | .ok place =>
    match w.tree.at? place with
    | some node => .ok (place, node)
    | none => .error (.unreachable p .notFound)

/-- The link at a path leads to a folder only if that is not on the way. -/
def checkLoop (ancestors : List Ancestor) (place : Place) (path : Path) : Except WalkFault Unit :=
  match ancestors.find? fun a => a.1 == place with
  | some a => .error (.loop path a.2)
  | none => .ok ()

mutual

/-- The files at and below a node.  `depth` bounds how many links to folders are
followed one below another. -/
def walk (w : World) (depth : Nat) (ancestors : List Ancestor) (place : Place) (path : Path) :
    Node → Except WalkFault (List Path)
  | .file _ => .ok [path]
  | .folder entries => walkEntries w depth ((place, path) :: ancestors) place path entries
  | .link _ => do
    let (place, node) ← target w path
    match node with
    | .folder entries =>
      checkLoop ancestors place path
      match depth with
      | 0 => throw (.unreachable path .tooManyLinks)
      | depth + 1 => walkEntries w depth ((place, path) :: ancestors) place path entries
    | _ => return [path]
termination_by node => (depth, sizeOf node)

/-- The files at and below the entries of a folder. -/
def walkEntries (w : World) (depth : Nat) (ancestors : List Ancestor) (place : Place)
    (path : Path) : List (FileName × Node) → Except WalkFault (List Path)
  | [] => .ok []
  | (name, node) :: rest => do
    let first ← walk w depth ancestors (place ++ [name]) (path.join name) node
    return first ++ (← walkEntries w depth ancestors place path rest)
termination_by entries => (depth, sizeOf entries)

end

/-- The number of folders in a tree, which bounds how many of them can be on one
way. -/
def folderCount : Node → Nat
  | .folder entries => 1 + countEntries entries
  | _ => 0
where
  /-- The number of folders in the entries of a folder. -/
  countEntries : List (FileName × Node) → Nat
    | [] => 0
    | (_, node) :: rest => folderCount node + countEntries rest

/-- The suites of the fixture files at or below a path, in the order of their
names. -/
def discover (w : World) (root : Path) : Except WalkFault (List Suite) := do
  let (place, node) ← target w root
  let files ← walk w (folderCount w.tree) [] place root node
  let suites := (files.filter isFixture).map fun p => Suite.ofPath p root
  return suites.mergeSort fun a b => !decide (b.name < a.name)

end UriTemplate
