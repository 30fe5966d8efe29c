import UriTemplate.Binary64.Fixed
import UriTemplate.Diff
import UriTemplate.SuiteRun
import UriTemplate.Terminal

/-!
# Reports

What is shown of a run: a mark or a line for each event while it goes on, and
then the suites, the failures with the difference between what was expected and
what came out, and a summary.
-/

namespace UriTemplate.Report

open Terminal

/-! ## Times -/

/-- A number of nanoseconds in seconds. -/
def seconds (nanoseconds : Nat) : Binary64 :=
  (do
    let whole ← Binary64.ofRatio? (nanoseconds / Nat.pow 10 9) 1
    let rest ← Binary64.ofRatio? (nanoseconds % Nat.pow 10 9) 1
    whole.plus? (← rest.over? (← Binary64.tenTo? 9))).getD .zero

/-- A time in seconds with two places. -/
def secondsText (nanoseconds : Nat) : Text :=
  (seconds nanoseconds).fixed 2 ++ ['s']

/-- A time in milliseconds with three places. -/
def millisecondsText (nanoseconds : Nat) : Text :=
  (((Binary64.tenTo? 3).bind (seconds nanoseconds).times?).getD .zero).fixed 3 ++ "ms".toList

/-! ## Progress -/

/-- A line end. -/
def newline : Span := .text ['\n']

/-- The sign for what passed or failed. -/
def sign (passed : Bool) : List Span :=
  if passed then [.style (.colored .green), .text ['✓'], .reset]
  else [.style (.colored .red), .text ['✗'], .reset]

/-- How many marks fit on a line. -/
def lineWidth : Nat := 80

/-- A mark for one event. -/
def mark : Event → List Span
  | .tried result =>
    if result.passed then [.style (.colored .green), .text ['.'], .reset]
    else [.style (.colored .red), .text ['F'], .reset]
  | .skipped .. => [.style (.colored .yellow), .text ['S'], .reset]

/-- Moves on by one mark from a column.  Answers with the line end that this
takes and the new column. -/
def advance (column : Nat) : List Span × Nat :=
  if lineWidth ≤ column + 1 then ([newline], 0) else ([], column + 1)

/-- The line for one event. -/
def line : Event → List Span
  | .tried result =>
    sign result.passed ++
      [.text (' ' :: (result.suite ++ '/' :: result.group ++ ": ".toList ++
        result.tested.template ++ [' '])),
      .style .faint, .text (millisecondsText result.elapsed ++ ['\n']), .reset]
  | .skipped suite reason =>
    mark (.skipped suite reason) ++ [.text (' ' :: (suite ++ ": ".toList ++ reason ++ ['\n']))]

/-- What is shown of an event at a column, and the column after it. -/
def progress (verbose : Bool) (column : Nat) (event : Event) : List Span × Nat :=
  if verbose then (line event, column)
  else
    let (ending, column) := advance column
    (mark event ++ ending, column)

/-- What is shown of events one after another, and the column after them. -/
def progressAll (verbose : Bool) (column : Nat) : List Event → List Span × Nat
  | [] => ([], column)
  | event :: rest =>
    let (first, column) := progress verbose column event
    let (others, column) := progressAll verbose column rest
    (first ++ others, column)

/-- What is shown when no more events come. -/
def finish (column : Nat) : List Span :=
  if 0 < column then [newline, newline] else [newline]

/-! ## Failures -/

/-- A run of one side of a difference. -/
def runSpans (color : Color) (r : Diff.Run) : List Span :=
  if r.changed then [.style (.boldColored color), .text r.text, .reset]
  else [.text r.text, .reset]

/-- One side of a difference. -/
def diffLine (start : Char) (color : Color) (runs : List Diff.Run) : List Span :=
  [.text [' ', ' ', start]] ++ runs.flatMap (runSpans color) ++ [newline]

/-- What was expected above what came out. -/
def diff (expected actual : Text) : List Span :=
  let changes := Diff.changes expected actual
  diffLine '-' .red (Diff.runs .before changes) ++ diffLine '+' .green (Diff.runs .after changes)

/-- The expansions that a case accepts, if they are several. -/
def accepted : Expectation → List Span
  | .anyOf options =>
    [.text ("  Accepted: ".toList ++ List.intercalate " | ".toList options ++ ['\n'])]
  | _ => []

/-- A case that failed. -/
def failure (r : CaseResult) : List Span :=
  sign false ++
    [.text (' ' :: (r.suite ++ '/' :: r.group ++ " #".toList ++ Text.ofNat r.tested.index ++
      ": ".toList ++ r.tested.template ++ ['\n']))] ++
    (match r.failure with
    | some reason => [.text ("  Error: ".toList ++ reason ++ ['\n'])]
    | none => []) ++
    match r.tested.expected.primary?, r.actual with
    | some expected, some actual =>
      accepted r.tested.expected ++ [newline] ++ diff expected actual
    | _, _ => []

/-! ## Results -/

/-- The line for a suite. -/
def suiteLine (s : SuiteResult) : List Span :=
  match s.loadFault? with
  | some fault =>
    [.style (.colored .yellow), .text ('⊘' :: ' ' :: s.suite.name), .reset,
      .text (": ".toList ++ fault.message ++ ['\n'])]
  | none =>
    sign s.passed ++
      [.text (' ' :: (s.suite.name ++ ": ".toList ++ Text.ofNat s.passedCases ++ '/' ::
        Text.ofNat s.totalCases ++ " cases passed in ".toList ++ secondsText s.elapsed ++ ['\n']))]

/-- The suites in the order of their names. -/
def byName (results : List SuiteResult) : List SuiteResult :=
  results.mergeSort fun a b => !decide (b.suite.name < a.suite.name)

/-- The numbers of a summary. -/
structure Tally where
  passed : Nat
  failed : Nat
  /-- Suites that were not loaded. -/
  skipped : Nat
deriving DecidableEq

/-- Counts one more suite. -/
def Tally.add (t : Tally) (s : SuiteResult) : Tally :=
  match s.loadFault? with
  | some _ => { t with skipped := t.skipped + 1 }
  | none =>
    { t with
      passed := t.passed + s.passedCases
      failed := t.failed + (s.totalCases - s.passedCases) }

/-- Counts suites. -/
def tally (results : List SuiteResult) : Tally :=
  results.foldl Tally.add ⟨0, 0, 0⟩

/-- Whether nothing failed and nothing was passed over. -/
def Tally.isClean (t : Tally) : Bool :=
  t.failed == 0 && t.skipped == 0

/-- The cases that failed. -/
def failedCases (results : List SuiteResult) : List CaseResult :=
  (results.flatMap SuiteResult.results).filter (!·.passed)

/-- The failures under their heading, if there are any. -/
def failures (failed : List CaseResult) : List Span :=
  if failed.isEmpty then []
  else
    [newline, .style (.colored .red), .style .strong, .text "Failures:\n".toList, .reset] ++
      failed.flatMap fun r => newline :: failure r

/-- The summary. -/
def summary (t : Tally) (elapsed : Nat) : List Span :=
  let time := " in ".toList ++ secondsText elapsed ++ ['\n']
  if t.isClean then
    [.style (.colored .green), .style .strong,
      .text ("All ".toList ++ Text.ofNat t.passed ++ " cases passed".toList), .reset, .text time]
  else
    [.style .strong, .text "Summary:".toList, .reset,
      .text (' ' :: (Text.ofNat t.passed ++ " passed, ".toList ++ Text.ofNat t.failed ++
        " failed, ".toList ++ Text.ofNat t.skipped ++ " skipped".toList ++ time))]

/-- What is shown of the results of suites. -/
def results (rs : List SuiteResult) (elapsed : Nat) : List Span :=
  let rs := byName rs
  rs.flatMap suiteLine ++ failures (failedCases rs) ++ [newline] ++ summary (tally rs) elapsed

/-! ## Lists of cases -/

/-- The line for a group, and a line for each of its cases. -/
def groupLines (g : Group) : List Span :=
  let level := match g.level with
    | some level => " [level ".toList ++ Text.ofNat level ++ [']']
    | none => []
  .text (' ' :: ' ' :: (g.name ++ level ++ ": ".toList ++ Text.ofNat g.cases.length ++
      " case(s)\n".toList)) ::
    g.cases.map fun c => .text ("    - ".toList ++ c.template ++ ['\n'])

/-- The suites with their groups. -/
def listing (suites : List (Suite × List Group)) : List Span :=
  suites.flatMap fun (suite, groups) =>
    [newline, .style .strong, .text suite.name, .reset, newline] ++ groups.flatMap groupLines

end UriTemplate.Report
