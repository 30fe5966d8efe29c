import Mathlib.Data.List.Forall2
import UriTemplate.Proofs.FixtureForm
import UriTemplate.SuiteRun

/-!
# The results of suites

What a run of a suite tells about its fixture.  The cases that a pattern asks for are
named without the loops, and the loops over cases and over groups are shown to answer
with one result for each of them, to send the same results as events and to leave no
group without results.  The counts of a suite are the lengths of its results, so they
agree just when every case passed.

* `runCase_judges`: what a result says of its case.
* `runCases_eq`, `runGroups_covers`: the loops, by induction on cases and on groups.
* `SuiteResult.passed_iff`: a loaded suite passes when its counts agree.
* `Suite.run_reports`: a run of a suite.
-/

namespace UriTemplate

/-! ## Results of cases -/

/-- Whether a result is a true one for a case of a group. -/
structure CaseResult.Judges (r : CaseResult) (suite : Text) (g : Group) (c : TestCase) : Prop where
  suite_eq : r.suite = suite
  group_eq : r.group = g.name
  tested_eq : r.tested = c
  /-- A case passes when a template that has to be refused is refused, or another one
  expands to what is accepted. -/
  passed_iff : r.passed = true ↔
    (c.expected = .refusal ∧ ∀ t, Template.parse c.template ≠ .ok t) ∨
      ∃ t, Template.parse c.template = .ok t ∧ c.expected ≠ .refusal ∧
        c.expected.accepts (t.expand g.bindings) = true
  /-- The expansion is there when the template is read. -/
  actual_iff : ∀ text, r.actual = some text ↔
    ∃ t, Template.parse c.template = .ok t ∧ text = t.expand g.bindings

/-- There is a case for each answer of the parser and each expectation. -/
theorem runCase_judges (suite : Text) (g : Group) (c : TestCase) :
    (runCase suite g.name g.bindings c).Judges suite g c := by
  obtain ⟨template, expected, index⟩ := c
  unfold runCase
  cases hparse : Template.parse template with
  | error e =>
    cases expected with
    | refusal => constructor <;> simp [hparse]
    | exact text => constructor <;> simp [hparse]
    | anyOf options => constructor <;> simp [hparse]
  | ok t =>
    have hexpansion (text : Text) : t.expand g.bindings = text ↔ text = t.expand g.bindings :=
      eq_comm
    cases expected with
    | refusal => constructor <;> simp [hparse, hexpansion]
    | exact text => constructor <;> simp [hparse, hexpansion]
    | anyOf options => constructor <;> simp [hparse, hexpansion]

/-! ## Selected cases -/

/-- Whether a pattern asks for a case of a group. -/
def Group.Selects (g : Group) (pattern : Option Text) (c : TestCase) : Prop :=
  ∀ part, pattern = some part → part <:+: g.name ∨ part <:+: c.template

theorem isSelected_iff {pattern : Option Text} {g : Group} {c : TestCase} :
    isSelected pattern g c = true ↔ g.Selects pattern c := by
  cases pattern with
  | none => simp [isSelected, Group.Selects]
  | some part => simp [isSelected, Group.Selects, Text.occursIn_iff]

instance (g : Group) (pattern : Option Text) (c : TestCase) : Decidable (g.Selects pattern c) :=
  decidable_of_iff _ isSelected_iff

/-- The cases that a pattern asks for, each with its group. -/
def selectedCases (pattern : Option Text) (groups : List Group) : List (Group × TestCase) :=
  groups.flatMap fun g => (g.cases.filter fun c => decide (g.Selects pattern c)).map (g, ·)

/-! ## Loops -/

/-- The loop over cases is a filter, and its events are its results. -/
theorem runCases_eq (suite : Text) (pattern : Option Text) (g : Group) (cases : List TestCase) :
    runCases suite pattern g cases =
      let results := (cases.filter fun c => decide (g.Selects pattern c)).map
        (runCase suite g.name g.bindings)
      (results, results.map .tried) := by
  induction cases with
  | nil => rfl
  | cons c cases ih =>
    rw [runCases, ih]
    by_cases hselected : g.Selects pattern c
    · simp [isSelected_iff.2 hselected, hselected]
    · have hskipped : isSelected pattern g c = false := by
        rw [Bool.eq_false_iff]
        exact fun h => hselected (isSelected_iff.1 h)
      simp [hskipped, hselected]

/-- Whether the loop over groups has tried the selected cases of groups. -/
structure Covers (suite : Text) (pattern : Option Text) (groups : List Group)
    (answer : List GroupResult × List Event) : Prop where
  results_eq : answer.1.flatMap GroupResult.results =
    (selectedCases pattern groups).map fun p => runCase suite p.1.name p.1.bindings p.2
  events_eq : answer.2 = (answer.1.flatMap GroupResult.results).map .tried
  ne_nil : ∀ g ∈ answer.1, g.results ≠ []

theorem runGroups_covers (suite : Text) (pattern : Option Text) (groups : List Group) :
    Covers suite pattern groups (runGroups suite pattern groups) := by
  induction groups with
  | nil => exact ⟨rfl, rfl, by simp [runGroups]⟩
  | cons g groups ih =>
    obtain ⟨hresults, hevents, hne⟩ := ih
    rw [runGroups, runCases_eq]
    have hsplit : selectedCases pattern (g :: groups) =
        (g.cases.filter fun c => decide (g.Selects pattern c)).map (g, ·) ++
          selectedCases pattern groups := List.flatMap_cons
    -- a group without selected cases has no results, and is left out
    cases hcases : g.cases.filter fun c => decide (g.Selects pattern c) with
    | nil =>
      constructor
      · simp [hsplit, hcases, hresults]
      · simp [hevents]
      · simpa using hne
    | cons c cases =>
      constructor
      · simp [hsplit, hcases, hresults]
      · simp [hevents]
      · simpa using hne

/-! ## Counts -/

namespace SuiteResult

variable {r : SuiteResult}

theorem totalCases_eq (r : SuiteResult) : r.totalCases = r.results.length := by
  have hsum (gs : List GroupResult) (n : Nat) :
      gs.foldl (fun n g => n + g.results.length) n =
        n + (gs.flatMap GroupResult.results).length := by
    induction gs generalizing n with
    | nil => simp
    | cons g gs ih => simp [ih, Nat.add_assoc]
  rw [totalCases, hsum, Nat.zero_add]
  rfl

/-- The groups are passed when their results are. -/
theorem all_passed_iff :
    r.groups.all GroupResult.passed = true ↔ r.passedCases = r.totalCases := by
  rw [totalCases_eq, passedCases, List.length_filter_eq_length_iff]
  simp only [results, List.all_eq_true, GroupResult.passed, List.mem_flatMap, forall_exists_index,
    and_imp]
  exact ⟨fun h c g hg hc => h g hg c hc, fun h g hg c hc => h c g hg hc⟩

/-- A loaded suite passes when its counts agree. -/
theorem passed_iff (h : r.loadFault? = none) :
    r.passed = true ↔ r.passedCases = r.totalCases := by
  rw [passed, h, ← all_passed_iff]
  simp

end SuiteResult

/-! ## Runs of a suite -/

namespace Suite

/-- Whether a run of a suite has tried the cases of groups. -/
structure Tries (s : Suite) (pattern : Option Text) (groups : List Group)
    (run : SuiteResult × List Event) : Prop where
  /-- There is one result for each case that the pattern asks for, in order. -/
  results_eq : run.1.results =
    (selectedCases pattern groups).map fun p => runCase s.name p.1.name p.1.bindings p.2
  judges : List.Forall₂ (fun p r => r.Judges s.name p.1 p.2) (selectedCases pattern groups)
    run.1.results
  events_eq : run.2 = run.1.results.map .tried
  ne_nil : ∀ g ∈ run.1.groups, g.results ≠ []
  loaded : run.1.loadFault? = none
  passed_iff : run.1.passed = true ↔ run.1.passedCases = run.1.totalCases

/-- Whether a run of a suite has passed over its fixture for a fault. -/
structure Skips (s : Suite) (fault : Fixture.LoadFault) (run : SuiteResult × List Event) :
    Prop where
  results_eq : run.1.results = []
  events_eq : run.2 = [.skipped s.name fault.message]
  not_loaded : run.1.loadFault? = some fault
  not_passed : run.1.passed = false

theorem runLoaded_tries (s : Suite) (pattern : Option Text) (groups : List Group) :
    s.Tries pattern groups (s.runLoaded pattern (.ok groups)) := by
  obtain ⟨hresults, hevents, hne⟩ := runGroups_covers s.name pattern groups
  have hrun : s.runLoaded pattern (.ok groups) =
      (⟨s, .ok (runGroups s.name pattern groups).1, 0⟩, (runGroups s.name pattern groups).2) :=
    rfl
  rw [hrun]
  refine ⟨hresults, ?_, hevents, hne, rfl, SuiteResult.passed_iff rfl⟩
  rw [SuiteResult.results]
  show List.Forall₂ _ _ ((runGroups s.name pattern groups).1.flatMap GroupResult.results)
  rw [hresults, List.forall₂_map_right_iff, List.forall₂_same]
  intro p _
  exact runCase_judges s.name p.1 p.2

theorem runLoaded_skips (s : Suite) (pattern : Option Text) (fault : Fixture.LoadFault) :
    s.Skips fault (s.runLoaded pattern (.error fault)) :=
  ⟨rfl, rfl, rfl, rfl⟩

/-- A run tries the cases of a fixture that is loaded, and passes over any other. -/
theorem run_reports (s : Suite) (w : Files.World) (pattern : Option Text) :
    (∀ groups, Fixture.load w s.path = .ok groups → s.Tries pattern groups (s.run w pattern)) ∧
      ∀ fault, Fixture.load w s.path = .error fault → s.Skips fault (s.run w pattern) := by
  constructor
  · intro groups hload
    rw [run, hload]
    exact runLoaded_tries s pattern groups
  · intro fault hload
    rw [run, hload]
    exact runLoaded_skips s pattern fault

/-- The pattern asks for the second case only, and there is no second file. -/
theorem run_reports_brace_pattern :
    ∃ w groups, Fixture.load w (.ofText "/a".toList) = .ok groups ∧
      Fixture.load w (.ofText "/b".toList) = .error (.unreadable .notFound) ∧
      (selectedCases (some ['\x7b']) groups).map (·.2.index) = [1] ∧
      Tries ⟨.ofText "/a".toList, ['a']⟩ (some ['\x7b']) groups
        (run ⟨.ofText "/a".toList, ['a']⟩ w (some ['\x7b'])) ∧
      Skips ⟨.ofText "/b".toList, ['b']⟩ (.unreadable .notFound)
        (run ⟨.ofText "/b".toList, ['b']⟩ w (some ['\x7b'])) := by
  let content : Text :=
    "\x7b\"g\": \x7b\"testcases\": [[\"b\", \"\"], [\"\x7b\", false]]\x7d\x7d".toList
  let w : Files.World := ⟨.folder [(Files.Path.ofText ['a'], .file (Utf8.encode content))], []⟩
  let g : Group := ⟨['g'], none, ∅, [⟨['b'], .exact [], 0⟩, ⟨['\x7b'], .refusal, 1⟩]⟩
  have hload : Fixture.load w (.ofText "/a".toList) = .ok [g] := by
    have hparse : Fixture.load w (.ofText "/a".toList) = Fixture.parse content :=
      Fixture.load_of_lookup (by decide) [] rfl
    rw [hparse]
    rfl
  have hmissing : Fixture.load w (.ofText "/b".toList) = .error (.unreadable .notFound) :=
    Fixture.load_of_lookup_eq_none (by decide) [] rfl
  exact ⟨w, [g], hload, hmissing, rfl, (run_reports ⟨.ofText "/a".toList, ['a']⟩ w _).1 _ hload,
    (run_reports ⟨.ofText "/b".toList, ['b']⟩ w _).2 _ hmissing⟩

end Suite

end UriTemplate
