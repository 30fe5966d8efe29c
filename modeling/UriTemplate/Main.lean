import UriTemplate.Command.Arguments

/-!
# Command line

Reads the arguments and the files that a check needs, runs the command, and
writes what it answers.  Names of files come from the system as texts here, so that
each of them is a path in UTF-8.
-/

namespace UriTemplate.Files

/-- The place of an absolute path without links. -/
def placeOf (path : String) : Place :=
  (Path.ofText path.toList).fields.filter (!Path.isIdle ·)

/-- A path that no file has. -/
def nowhere : Path := [Path.slash, 0]

/-- Where a link leads after all links.  One that leads nowhere or back to itself
is answered with a target that does so too. -/
def targetOf (entry : IO.FS.DirEntry) : IO (Except Path String) := do
  try
    let _ ← entry.path.metadata
    return .ok (← IO.FS.realPath entry.path).toString
  catch
    | .noFileOrDirectory .. => return .error nowhere
    | _ => return .error (.ofText entry.fileName.toList)

/-- Adds to a tree what is at a path without links, and what the links below it
lead to.  The places that have been added are kept beside the tree. -/
partial def snapshot (path : String) (seen : Node × List Place) : IO (Node × List Place) := do
  let place := placeOf path
  if seen.2.contains place then return seen
  let p ← IO.FS.realPath path
  match (← p.symlinkMetadata).type with
  | .dir =>
    let tree := if (seen.1.at? place).isSome then seen.1 else seen.1.put .empty place
    (← p.readDir).foldlM
      (fun seen entry => do
        match (← entry.path.symlinkMetadata).type with
        | .symlink =>
          let there := placeOf entry.path.toString
          match ← targetOf entry with
          | .ok target =>
            snapshot target (seen.1.put (.link (.ofText target.toList)) there, seen.2)
          | .error target => return (seen.1.put (.link target) there, seen.2)
        | _ => snapshot entry.path.toString seen)
      (tree, place :: seen.2)
  | _ =>
    return (seen.1.put (.file (← IO.FS.readBinFile p).toList) place, place :: seen.2)

/-- The files that a command may read. -/
def worldFor : Command → IO World
  | .check c => do
    let here ← IO.currentDir
    let place := placeOf here.toString
    try
      let root ← IO.FS.realPath (String.ofList c.root.display)
      let (tree, _) ← snapshot root.toString (.empty, [])
      return ⟨if (tree.at? place).isSome then tree else tree.put .empty place, place⟩
    catch _ => return ⟨Node.empty.put .empty place, place⟩
  | _ => return ⟨.empty, []⟩

end UriTemplate.Files

namespace UriTemplate

/-- Whether the terminal has colours and the environment does not rule them out. -/
def hasColors : IO Bool := do
  let plain := (← IO.getEnv "NO_COLOR").isSome || (← IO.getEnv "TERM").getD "dumb" == "dumb"
  return !plain && (← (← IO.getStdout).isTty)

/-- The outcome of the command that arguments ask for. -/
def outcomeOf (words : List String) : IO Command.Outcome := do
  match Arguments.read (words.map String.toList) with
  | .error stop => return stop.outcome
  | .ok ⟨command, colors⟩ =>
    return command.run (← Files.worldFor command) (colors && (← hasColors))

end UriTemplate

/-- Runs the command that the arguments ask for and writes its outcome. -/
def main (args : List String) : IO UInt32 := do
  let outcome ← UriTemplate.outcomeOf args
  IO.print (String.ofList outcome.output)
  IO.eprint (String.ofList outcome.errors)
  return outcome.status.toUInt32
