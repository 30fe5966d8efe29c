import UriTemplate.Bindings.Json
import UriTemplate.Files.Tree
import UriTemplate.Json.Reader
import UriTemplate.Text.Utf8

/-!
# Fixtures

A fixture is a JSON object of groups.  Each group binds variables and lists test
cases; a case is a template with what it should expand to:

    { "Level 1": {
        "level": 1,
        "variables": { "var": "value" },
        "testcases": [ ["...", "value"], ["...", ["a", "b"]], ["...", false] ] } }

Entries of `variables` whose keys are no variable names are left out.
-/

namespace UriTemplate

/-- What a test case expects of its template. -/
inductive Expectation where
  | exact (text : Text)
  | anyOf (options : List Text)
  /-- That the template is refused. -/
  | refusal
deriving DecidableEq

namespace Expectation

/-- Whether an expansion is as expected. -/
def accepts : Expectation → Text → Bool
  | exact text, actual => text == actual
  | anyOf options, actual => options.contains actual
  | refusal, _ => false

/-- The expansion that a report shows as the expected one. -/
def primary? : Expectation → Option Text
  | exact text => some text
  | anyOf options => options.head?
  | refusal => none

end Expectation

/-- A template with what is expected of it. -/
structure TestCase where
  template : Text
  expected : Expectation
  /-- The position in the group, from zero. -/
  index : Nat
deriving DecidableEq

/-- Test cases that share their variables. -/
structure Group where
  name : Text
  /-- The level of the standard that the group is about. -/
  level : Option Nat
  /-- The variables of all cases. -/
  bindings : Bindings
  cases : List TestCase

namespace Fixture

/-! ## Faults -/

/-- How JSON differs from the form of a fixture. -/
inductive FormFault where
  | noGroups
  | noObject
  | noCases
  /-- A case is not an array of a template and an expectation. -/
  | badCase (index : Nat)
  /-- An array of expansions holds something else. -/
  | badOptions (index : Nat)
  /-- An expectation is none that a case can have. -/
  | badExpectation (index : Nat) (json : Text)
deriving DecidableEq

/-- The words for a fault of form. -/
def FormFault.message : FormFault → Text
  | noGroups => "top level must be an object of groups".toList
  | noObject => "expected an object".toList
  | noCases => "missing 'testcases' array".toList
  | badCase index =>
    "test case ".toList ++ Text.ofNat index ++ " must be [template, expected]".toList
  | badOptions index =>
    "test case ".toList ++ Text.ofNat index ++ ": options must be strings".toList
  | badExpectation index json =>
    "test case ".toList ++ Text.ofNat index ++ ": unsupported expectation ".toList ++ json

/-- Why a fixture cannot be loaded. -/
inductive LoadFault where
  | unreadable (fault : Files.Fault)
  | notJson (fault : Json.Fault)
  /-- The JSON has not the form of a fixture; the group is named. -/
  | malformed (group : Text) (fault : FormFault)
deriving DecidableEq

namespace LoadFault

/-- The words for a fault. -/
def message : LoadFault → Text
  | unreadable fault => "IO error: ".toList ++ fault.message
  | notJson fault => "invalid JSON: ".toList ++ fault.message
  | malformed group fault => "group '".toList ++ group ++ "': ".toList ++ fault.message

/-- The words for the cause of a fault. -/
def causes : LoadFault → List Text
  | unreadable fault => [fault.message]
  | notJson fault => [fault.message]
  | malformed .. => []

end LoadFault

/-! ## Reading -/

/-- The expectation of the case at `index`. -/
def expectation (index : Nat) : Json → Except FormFault Expectation
  | .string t => .ok (.exact t)
  | .bool false => .ok .refusal
  | .array options =>
    match options.mapM Json.string? with
    | some options => .ok (.anyOf options)
    | none => .error (.badOptions index)
  | json => .error (.badExpectation index json.text)

/-- The case at `index`. -/
def testCase (index : Nat) : Json → Except FormFault TestCase
  | .array [.string template, expected] => do
    return ⟨template, ← expectation index expected, index⟩
  | _ => .error (.badCase index)

/-- The cases from `index` on. -/
def testCases (index : Nat) : List Json → Except FormFault (List TestCase)
  | [] => .ok []
  | json :: rest => do
    let first ← testCase index json
    return first :: (← testCases (index + 1) rest)

/-- The bindings of the members whose keys are variable names. -/
def bindings (members : List (Text × Json)) : Bindings :=
  members.foldl
    (fun b (key, json) =>
      match Name.parse key with
      | .ok n => b.insert n (.ofJson json)
      | .error _ => b)
    ∅

/-- One group. -/
def group (name : Text) (json : Json) : Except FormFault Group :=
  match json.members? with
  | none => .error .noObject
  | some members =>
    match (members.lookup "testcases".toList).bind Json.items? with
    | none => .error .noCases
    | some items => do
      let cases ← testCases 0 items
      let bound := ((members.lookup "variables".toList).bind Json.members?).getD []
      return {
        name
        level := (members.lookup "level".toList).bind Json.nat?
        bindings := bindings bound
        cases }

/-- The groups of an object in order. -/
def groups : List (Text × Json) → Except LoadFault (List Group)
  | [] => .ok []
  | (name, json) :: rest => do
    let first ← (group name json).mapError (LoadFault.malformed name)
    return first :: (← groups rest)

/-- The groups of a fixture that has been read as JSON. -/
def ofJson (json : Json) : Except LoadFault (List Group) :=
  match json.members? with
  | some members => groups members
  | none => .error (.malformed [] .noGroups)

/-- The groups of a fixture. -/
def parse (content : Text) : Except LoadFault (List Group) :=
  match Json.parse content with
  | .ok json => ofJson json
  | .error fault => .error (.notJson fault)

/-- The groups of a fixture file with the given bytes. -/
def ofBytes (bytes : List UInt8) : Except LoadFault (List Group) :=
  match Utf8.decode bytes with
  | some content => parse content
  | none => .error (.unreadable .notText)

/-- The groups of the fixture file at a path. -/
def load (w : Files.World) (p : Files.Path) : Except LoadFault (List Group) :=
  match w.read p with
  | .ok bytes => ofBytes bytes
  | .error fault => .error (.unreadable fault)

end Fixture

end UriTemplate
