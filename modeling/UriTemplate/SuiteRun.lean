import UriTemplate.Discovery
import UriTemplate.Fixture
import UriTemplate.Template

/-!
# Running suites

Every case of a fixture is tried: its template is read and expanded under the
variables of its group.  A pattern selects the cases whose group or template
contains it.  A run answers with the results of the selected cases and with the
events of its progress.
-/

namespace UriTemplate

/-- What came of one case. -/
structure CaseResult where
  suite : Text
  group : Text
  tested : TestCase
  /-- Whether the template did as expected. -/
  passed : Bool
  /-- The expansion, if the template could be read. -/
  actual : Option Text
  /-- What went wrong other than an unexpected expansion. -/
  failure : Option Text
  /-- How long it took, in nanoseconds; whoever keeps a clock sets it. -/
  elapsed : Nat

/-- The results of a group. -/
structure GroupResult where
  name : Text
  /-- The results of its selected cases, in order. -/
  results : List CaseResult

/-- Whether every case of the group passed. -/
def GroupResult.passed (g : GroupResult) : Bool :=
  g.results.all CaseResult.passed

/-- What came of one suite. -/
structure SuiteResult where
  suite : Suite
  /-- The results of the groups that have any, unless the fixture was not
  loaded. -/
  outcome : Except Fixture.LoadFault (List GroupResult)
  /-- How long it took, in nanoseconds; whoever keeps a clock sets it. -/
  elapsed : Nat

namespace SuiteResult

/-- The results of the groups; none if the fixture was not loaded. -/
def groups (s : SuiteResult) : List GroupResult :=
  match s.outcome with
  | .ok groups => groups
  | .error _ => []

/-- The results of all cases. -/
def results (s : SuiteResult) : List CaseResult :=
  s.groups.flatMap GroupResult.results

/-- Why the fixture was not loaded. -/
def loadFault? (s : SuiteResult) : Option Fixture.LoadFault :=
  match s.outcome with
  | .ok _ => none
  | .error fault => some fault

/-- Whether the fixture was loaded and every case passed. -/
def passed (s : SuiteResult) : Bool :=
  s.loadFault?.isNone && s.groups.all GroupResult.passed

/-- The number of cases. -/
def totalCases (s : SuiteResult) : Nat :=
  s.groups.foldl (fun n g => n + g.results.length) 0

/-- The number of cases that passed. -/
def passedCases (s : SuiteResult) : Nat :=
  (s.results.filter CaseResult.passed).length

end SuiteResult

/-- A step in the progress of a run. -/
inductive Event where
  | tried (result : CaseResult)
  | skipped (suite reason : Text)

/-- Tries a case. -/
def runCase (suite group : Text) (b : Bindings) (c : TestCase) : CaseResult :=
  let result (passed : Bool) (actual failure : Option Text) : CaseResult :=
    { suite, group, tested := c, passed, actual, failure, elapsed := 0 }
  match Template.parse c.template, c.expected with
  | .error _, .refusal => result true none none
  | .error e, _ => result false none (some e.message)
  | .ok t, .refusal =>
    result false (some (t.expand b))
      (some ("expected '".toList ++ c.template ++ "' to be rejected".toList))
  | .ok t, expected =>
    let actual := t.expand b
    result (expected.accepts actual) (some actual) none

/-- Whether a pattern selects a case of a group. -/
def isSelected (pattern : Option Text) (g : Group) (c : TestCase) : Bool :=
  match pattern with
  | none => true
  | some part => part.occursIn g.name || part.occursIn c.template

/-- Tries the selected cases of a group, in order. -/
def runCases (suite : Text) (pattern : Option Text) (g : Group) :
    List TestCase → List CaseResult × List Event
  | [] => ([], [])
  | c :: rest =>
    let (results, events) := runCases suite pattern g rest
    if isSelected pattern g c then
      let result := runCase suite g.name g.bindings c
      (result :: results, .tried result :: events)
    else (results, events)

/-- Tries the selected cases of groups.  A group without any is left out. -/
def runGroups (suite : Text) (pattern : Option Text) :
    List Group → List GroupResult × List Event
  | [] => ([], [])
  | g :: rest =>
    let (results, events) := runCases suite pattern g g.cases
    let (others, later) := runGroups suite pattern rest
    (if results.isEmpty then others else ⟨g.name, results⟩ :: others, events ++ later)

/-- Runs a suite whose fixture has been loaded, or has not. -/
def Suite.runLoaded (s : Suite) (pattern : Option Text) :
    Except Fixture.LoadFault (List Group) → SuiteResult × List Event
  | .error fault => (⟨s, .error fault, 0⟩, [.skipped s.name fault.message])
  | .ok groups =>
    let (results, events) := runGroups s.name pattern groups
    (⟨s, .ok results, 0⟩, events)

/-- Runs a suite from its file. -/
def Suite.run (s : Suite) (w : Files.World) (pattern : Option Text) : SuiteResult × List Event :=
  s.runLoaded pattern (Fixture.load w s.path)

end UriTemplate
