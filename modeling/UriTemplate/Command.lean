import UriTemplate.Listing
import UriTemplate.Report
import UriTemplate.Template.Extraction

/-!
# Commands

What the program can be asked for: the expansion of a template, the variables of
a URL, and a check of fixture files.  A command answers with what it writes and
with an exit status, which is zero exactly when it did what it was asked for.
-/

namespace UriTemplate

/-- Where the variables of an expansion come from. -/
inductive Variables where
  /-- The text of a JSON object. -/
  | json (text : Text)
  /-- Texts of the form `NAME=VALUE`. -/
  | assignments (items : List Text)
deriving DecidableEq

/-- Which fixtures are checked, and what is shown of them. -/
structure Check where
  /-- A fixture file or a folder of them. -/
  root : Files.Path
  /-- The part of a group's name or of a template that selects cases. -/
  pattern : Option Text
  /-- Whether the cases are listed instead of tried. -/
  list : Bool
  /-- Whether each case has a line of its own in the progress. -/
  verbose : Bool
deriving DecidableEq

/-- A command. -/
inductive Command where
  /-- Writes the expansion of a template, which has to be a URL if `url` is set. -/
  | expand (template : Text) (given : Variables) (url : Bool)
  /-- Writes the variables that a URL is an expansion for. -/
  | extract (template url : Text)
  | check (options : Check)
deriving DecidableEq

namespace Command

/-! ## Failures -/

/-- Why a command does nothing. -/
inductive Failure where
  /-- The template, the variables or the URL is refused. -/
  | refused (cause : Error)
  | notJson (cause : Json.Fault)
  | notObject
  | noAssignment (text : Text)
  /-- The fixture files are not found. -/
  | notFound (cause : WalkFault)
  /-- A fixture file is not loaded. -/
  | notListed (fault : Listing.Fault)
deriving DecidableEq

namespace Failure

/-- The words for a failure. -/
def message : Failure → Text
  | refused cause => cause.message
  | notJson _ => "--vars is not valid JSON".toList
  | notObject => "--vars must be a JSON object".toList
  | noAssignment text => "expected NAME=VALUE, got '".toList ++ text ++ "'".toList
  | notFound cause => "Walkdir error: ".toList ++ cause.message
  | notListed fault => "failed to read ".toList ++ fault.path.display

/-- The words for the causes of a failure, the nearest first. -/
def causes : Failure → List Text
  | refused cause => cause.causes
  | notJson cause => [cause.message]
  | notObject => []
  | noAssignment _ => []
  | notFound cause => cause.message :: cause.causes
  | notListed fault => fault.cause.message :: fault.cause.causes

/-- A text whose lines are set in by a number of blanks from the second on. -/
def indent (width : Nat) (t : Text) : Text :=
  List.intercalate ('\n' :: List.replicate width ' ') (Text.fields '\n' t)

/-- The line for the cause at `index` of several. -/
def numbered (index : Nat) : List Text → Text
  | [] => []
  | cause :: rest =>
    List.replicate 4 ' ' ++ Text.ofNat index ++ ": ".toList ++ indent 7 cause ++ ['\n'] ++
      numbered (index + 1) rest

/-- The lines for causes. -/
def causeLines : List Text → Text
  | [] => []
  | [cause] => "\nCaused by:\n    ".toList ++ indent 4 cause ++ ['\n']
  | causes => "\nCaused by:\n".toList ++ numbered 0 causes

/-- What is written about a failure. -/
def report (f : Failure) : Text :=
  "Error: ".toList ++ f.message ++ '\n' :: causeLines f.causes

end Failure

/-- What a command leaves behind. -/
structure Outcome where
  status : Nat
  output : Text
  errors : Text
deriving DecidableEq

/-- The outcome of a command that succeeds with an output or fails. -/
def Outcome.ofExcept : Except Failure Text → Outcome
  | .ok output => ⟨0, output, []⟩
  | .error failure => ⟨1, [], failure.report⟩

/-! ## Expansion and extraction -/

/-- Binds the variables of assignments in order.  A value starts after the first
`=`. -/
def assign (b : Bindings) : List Text → Except Failure Bindings
  | [] => .ok b
  | item :: rest =>
    match item.splitOnce '=' with
    | none => .error (.noAssignment item)
    | some (name, value) =>
      match b.set name (.scalar value) with
      | .error cause => .error (.refused cause)
      | .ok b => assign b rest

/-- The bindings that variables stand for. -/
def bindings : Variables → Except Failure Bindings
  | .json text =>
    match Json.parse text with
    | .error cause => .error (.notJson cause)
    | .ok json =>
      match json.members? with
      | none => .error .notObject
      | some _ => (Bindings.ofJson json).mapError .refused
  | .assignments items => assign ∅ items

/-- The line for the expansion of a template. -/
def expansion (template : Text) (given : Variables) (url : Bool) : Except Failure Text := do
  let t ← (Template.parse template).mapError .refused
  let b ← bindings given
  if url then
    return (← (t.expandUrl b).mapError .refused).text ++ ['\n']
  else
    return t.expand b ++ ['\n']

/-- The lines for the variables of a URL. -/
def extraction (template url : Text) : Except Failure Text := do
  let t ← (Template.parse template).mapError .refused
  let b ← (t.extract url).mapError .refused
  return b.toJson.pretty 0 ++ ['\n']

/-! ## Checks -/

/-- Runs suites one after another. -/
def runAll (w : Files.World) (pattern : Option Text) :
    List Suite → List SuiteResult × List Event
  | [] => ([], [])
  | s :: rest =>
    let (result, events) := s.run w pattern
    let (others, later) := runAll w pattern rest
    (result :: others, events ++ later)

/-- The listing of suites. -/
def listing (w : Files.World) (colored : Bool) (pattern : Option Text) (suites : List Suite) :
    Except Failure Text := do
  let listed ← (Listing.ofSuites w pattern suites).mapError .notListed
  return Terminal.render colored (Report.listing listed)

/-- The outcome of trying the cases of suites. -/
def trial (w : Files.World) (colored : Bool) (c : Check) (suites : List Suite) : Outcome :=
  let (results, events) := runAll w c.pattern suites
  let (marks, column) := Report.progressAll c.verbose 0 events
  { status := if results.all SuiteResult.passed then 0 else 1
    output := Terminal.render colored
      (marks ++ Report.finish column ++ Report.results results 0)
    errors := [] }

/-- The outcome of a check. -/
def checked (w : Files.World) (colored : Bool) (c : Check) : Outcome :=
  match discover w (w.canonical c.root) with
  | .error cause => .ofExcept (.error (.notFound cause))
  | .ok suites =>
    if c.list then .ofExcept (listing w colored c.pattern suites)
    else if suites.isEmpty then ⟨1, [], "No fixture files found\n".toList⟩
    else trial w colored c suites

/-- The outcome of a command.  `colored` says whether the output may be
coloured. -/
def run (w : Files.World) (colored : Bool) : Command → Outcome
  | expand template given url => .ofExcept (expansion template given url)
  | extract template url => .ofExcept (extraction template url)
  | check options => checked w colored options

end Command

end UriTemplate
