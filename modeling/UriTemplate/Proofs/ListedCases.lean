import UriTemplate.Proofs.FixtureDiscovery
import UriTemplate.Proofs.ReportVerdict

/-!
# Cases that are listed and cases that are tried

A check either lists the cases of its fixtures or tries them, and a pattern selects
cases both times.  A listing narrows each group first and then leaves out the groups
without cases, and the suites without groups; a run asks for each case by itself.
What is left out has no cases, so both come to the cases that the pattern selects, in
the order of the files.

* `Listing.flatMap_labels_narrow`: the groups of one fixture, by induction on them.
* `Listing.exists_ofSuites`: the suites of a listing, by induction on them.
* `Report.shows_listing`: what a printed listing shows, read line by line.
* `Command.runAll_events`: the suites of a run, by induction on them.
* `Command.checked_lists_tried`: a check that lists and the check that tries.
-/

namespace UriTemplate

/-! ## Labels -/

/-- A case as a listing shows it: the names of its suite and of its group, and its
template. -/
structure CaseLabel where
  suite : Text
  group : Text
  template : Text
deriving DecidableEq

/-- The cases of a group of a suite. -/
def Group.labels (suite : Text) (g : Group) : List CaseLabel :=
  g.cases.map fun c => ⟨suite, g.name, c.template⟩

/-- The cases that are listed, in order. -/
def Listing.labels (listed : List (Suite × List Group)) : List CaseLabel :=
  listed.flatMap fun (s, groups) => groups.flatMap (Group.labels s.name)

/-- The case that a result is of. -/
def CaseResult.label (r : CaseResult) : CaseLabel :=
  ⟨r.suite, r.group, r.tested.template⟩

theorem label_runCase (suite : Text) (g : Group) (c : TestCase) :
    (runCase suite g.name g.bindings c).label = ⟨suite, g.name, c.template⟩ := by
  have hjudges := runCase_judges suite g c
  rw [CaseResult.label, hjudges.suite_eq, hjudges.group_eq, hjudges.tested_eq]

/-! ## Listings -/

/-- A group is narrowed to the cases that the pattern selects, and keeps its name. -/
theorem Group.labels_narrow (suite part : Text) (g : Group) :
    (g.narrow part).labels suite =
      (g.cases.filter fun c => decide (g.Selects (some part) c)).map
        fun c => ⟨suite, g.name, c.template⟩ := by
  have hselects (c : TestCase) : decide (g.Selects (some part) c) =
      (part.occursIn g.name || part.occursIn c.template) := by
    rw [Bool.eq_iff_iff, decide_eq_true_iff, ← isSelected_iff]
    rfl
  simp only [hselects, Group.narrow]
  split
  · rename_i hname
    simp [Group.labels, hname]
  · rename_i hname
    simp [Group.labels, hname]

namespace Listing

/-- The groups that are left out have no cases. -/
theorem flatMap_labels_filter (suite : Text) (groups : List Group) :
    (groups.filter fun g => !g.cases.isEmpty).flatMap (Group.labels suite) =
      groups.flatMap (Group.labels suite) := by
  induction groups with
  | nil => rfl
  | cons g groups ih =>
    by_cases hcases : g.cases = []
    · simp [ih, hcases, Group.labels]
    · simp [ih, hcases]

/-- The groups that are listed hold the cases that the pattern selects. -/
theorem flatMap_labels_narrow (suite : Text) (pattern : Option Text) (groups : List Group) :
    (narrow pattern groups).flatMap (Group.labels suite) =
      (selectedCases pattern groups).map fun p => ⟨suite, p.1.name, p.2.template⟩ := by
  rw [selectedCases, List.map_flatMap]
  cases pattern with
  | none =>
    simp only [narrow, Group.Selects, reduceCtorEq, false_implies, implies_true, decide_true,
      List.filter_true, List.map_map]
    rfl
  | some part =>
    rw [narrow, flatMap_labels_filter, List.flatMap_map]
    simp only [Group.labels_narrow, List.map_map, Function.comp_def]

end Listing

/-! ## Printed listings -/

namespace Report

open Terminal

/-- How the heading of a group names its level. -/
def levelText : Option Nat → Text
  | some level => " [level ".toList ++ Text.ofNat level ++ [']']
  | none => []

theorem groupLines_eq (g : Group) :
    groupLines g = .text (' ' :: ' ' :: (g.name ++ levelText g.level ++ ": ".toList ++
        Text.ofNat g.cases.length ++ " case(s)\n".toList)) ::
      g.cases.map fun c => .text ("    - ".toList ++ c.template ++ ['\n']) := rfl

/-- Whether the lines of a listing show cases below the headings of a suite and of a
group, if there are such headings already. -/
inductive Shows : Option Text → Option Text → List Span → List CaseLabel → Prop where
  | nil {suite group : Option Text} : Shows suite group [] []
  /-- The heading of a suite is in bold, and no group comes before it. -/
  | suite {suite group : Option Text} {name : Text} {spans : List Span} {labels : List CaseLabel}
    (h : Shows (some name) none spans labels) :
    Shows suite group
      ([newline, .style .strong, .text name, .reset, newline] ++ spans) labels
  /-- The heading of a group has its level and the number of its cases. -/
  | group {suite name : Text} {level : Option Nat} {group : Option Text} {n : Nat}
    {spans : List Span} {labels : List CaseLabel}
    (h : Shows (some suite) (some name) spans labels) :
    Shows (some suite) group
      (.text (' ' :: ' ' :: (name ++ levelText level ++ ": ".toList ++ Text.ofNat n ++
        " case(s)\n".toList)) :: spans) labels
  | case {suite group template : Text} {spans : List Span} {labels : List CaseLabel}
    (h : Shows (some suite) (some group) spans labels) :
    Shows (some suite) (some group)
      (.text ("    - ".toList ++ template ++ ['\n']) :: spans) (⟨suite, group, template⟩ :: labels)

variable {spans : List Span} {labels : List CaseLabel}

theorem shows_cases {suite group : Text} (cases : List TestCase)
    (h : Shows (some suite) (some group) spans labels) :
    Shows (some suite) (some group)
      (cases.map (fun c => .text ("    - ".toList ++ c.template ++ ['\n'])) ++ spans)
      (cases.map (fun c => ⟨suite, group, c.template⟩) ++ labels) := by
  induction cases with
  | nil => exact h
  | cons c cases ih => exact .case ih

theorem shows_groups {suite : Text} (groups : List Group)
    (h : ∀ group, Shows (some suite) group spans labels) (group : Option Text) :
    Shows (some suite) group (groups.flatMap groupLines ++ spans)
      (groups.flatMap (Group.labels suite) ++ labels) := by
  induction groups generalizing group with
  | nil => exact h group
  | cons g groups ih =>
    rw [List.flatMap_cons, List.append_assoc, List.flatMap_cons, List.append_assoc, groupLines_eq]
    exact .group (shows_cases g.cases (ih (some g.name)))

/-- A printed listing shows the cases that are listed. -/
theorem shows_listing (listed : List (Suite × List Group)) (suite group : Option Text) :
    Shows suite group (listing listed) (Listing.labels listed) := by
  induction listed generalizing suite group with
  | nil => exact .nil
  | cons entry listed ih =>
    obtain ⟨s, groups⟩ := entry
    have hspans : listing ((s, groups) :: listed) =
        [newline, .style .strong, .text s.name, .reset, newline] ++
          (groups.flatMap groupLines ++ listing listed) := by
      simp [listing]
    have hlabels : Listing.labels ((s, groups) :: listed) =
        groups.flatMap (Group.labels s.name) ++ Listing.labels listed := List.flatMap_cons
    rw [hspans, hlabels]
    exact .suite (shows_groups groups (fun group => ih (some s.name) group) none)

end Report

/-! ## Suites -/

section Suites

variable {w : Files.World} {suites : List Suite}

theorem Suite.labels_resultsIn {s : Suite} {groups : List Group}
    (hload : Fixture.load w s.path = .ok groups) (pattern : Option Text) :
    (s.resultsIn w pattern).map CaseResult.label =
      (Listing.narrow pattern groups).flatMap (Group.labels s.name) := by
  rw [Listing.flatMap_labels_narrow, Suite.resultsIn, hload]
  simp only [List.map_map, Function.comp_def, label_runCase]

variable (hload : ∀ s ∈ suites, ∃ groups, Fixture.load w s.path = .ok groups)
include hload

/-- A suite that is left out of a listing has no groups, so no cases are lost with it. -/
theorem Listing.exists_ofSuites (pattern : Option Text) :
    ∃ listed, ofSuites w pattern suites = .ok listed ∧
      labels listed = (suites.flatMap (·.resultsIn w pattern)).map CaseResult.label := by
  induction suites with
  | nil => exact ⟨[], rfl, rfl⟩
  | cons s suites ih =>
    obtain ⟨⟨groups, hgroups⟩, hrest⟩ := List.forall_mem_cons.1 hload
    obtain ⟨others, hothers, hlabels⟩ := ih hrest
    rw [List.flatMap_cons, List.map_append, Suite.labels_resultsIn hgroups, ← hlabels]
    simp only [ofSuites, hgroups, hothers, bind, Except.bind, pure, Except.pure]
    by_cases hempty : narrow pattern groups = []
    · cases pattern with
      | none => exact ⟨_, rfl, by simp [labels]⟩
      | some part => exact ⟨others, by simp [hempty], by simp [hempty]⟩
    · exact ⟨(s, narrow pattern groups) :: others, by simp [hempty], by simp [labels]⟩

/-- A run sends an event for each case of the suites, and no others. -/
theorem Command.runAll_events (pattern : Option Text) :
    (runAll w pattern suites).2 = (suites.flatMap (·.resultsIn w pattern)).map .tried := by
  induction suites with
  | nil => rfl
  | cons s suites ih =>
    obtain ⟨⟨groups, hgroups⟩, hrest⟩ := List.forall_mem_cons.1 hload
    have hrun : s.run w pattern = s.runLoaded pattern (.ok groups) := by rw [Suite.run, hgroups]
    have hfirst : (s.run w pattern).2 = (s.resultsIn w pattern).map .tried := by
      rw [← Suite.results_run, hrun, (Suite.runLoaded_tries s pattern groups).events_eq]
    have hevents : (runAll w pattern (s :: suites)).2 =
        (s.run w pattern).2 ++ (runAll w pattern suites).2 := rfl
    rw [hevents, hfirst, ih hrest, List.flatMap_cons, List.map_append]

end Suites

/-! ## Checks -/

namespace Command

open Report Terminal

/-- Whether a check lists the cases with the given results, and tries them in the same
order. -/
structure ListsTried (w : Files.World) (colored : Bool) (c : Check) (suites : List Suite)
    (listed : List (Suite × List Group)) (rs : List CaseResult) : Prop where
  listing_eq : checked w colored { c with list := true } =
    ⟨0, render colored (Report.listing listed), []⟩
  shows_labels : Shows none none (Report.listing listed) (rs.map CaseResult.label)
  labels_eq : Listing.labels listed = rs.map CaseResult.label
  results_eq : (runAll w c.pattern suites).1.flatMap SuiteResult.results = rs
  events_eq : (runAll w c.pattern suites).2 = rs.map .tried
  /-- The output of the check that tries the cases begins with their progress. -/
  progress : render colored (progressAll c.verbose 0 (rs.map .tried)).1 <+:
    (checked w colored { c with list := false }).output

theorem output_trial (w : Files.World) (colored : Bool) (c : Check) (suites : List Suite) :
    (trial w colored c suites).output =
      render colored ((progressAll c.verbose 0 (runAll w c.pattern suites).2).1 ++
        finish (progressAll c.verbose 0 (runAll w c.pattern suites).2).2 ++
        results (runAll w c.pattern suites).1 0) := rfl

/-- The output of a check begins with the progress of its run. -/
theorem progress_isPrefix_output {w : Files.World} {colored : Bool} {c : Check}
    {suites : List Suite} (hfound : discover w (w.canonical c.root) = .ok suites)
    (hlist : c.list = false) :
    render colored (progressAll c.verbose 0 (runAll w c.pattern suites).2).1 <+:
      (checked w colored c).output := by
  simp only [checked, hfound, hlist]
  cases suites with
  | nil => exact List.nil_prefix
  | cons s suites =>
    show _ <+: (trial w colored c (s :: suites)).output
    rw [output_trial, List.append_assoc, render_append]
    exact List.prefix_append _ _

/-- A check lists just the cases that it tries, whatever the pattern is. -/
theorem checked_lists_tried {w : Files.World} {colored : Bool} {c : Check} {suites : List Suite}
    (hfound : discover w (w.canonical c.root) = .ok suites)
    (hload : ∀ s ∈ suites, ∃ groups, Fixture.load w s.path = .ok groups) :
    ∃ listed rs, ListsTried w colored c suites listed rs := by
  obtain ⟨listed, hlisted, hlabels⟩ := Listing.exists_ofSuites hload c.pattern
  have hevents := runAll_events hload c.pattern
  refine ⟨listed, suites.flatMap (·.resultsIn w c.pattern), ?_, ?_, hlabels, ?_, hevents, ?_⟩
  · simp only [checked, hfound, listing, hlisted]
    rfl
  · rw [← hlabels]
    exact shows_listing listed none none
  · rw [runAll_results, List.flatMap_map]
    simp only [Suite.results_run]
  · rw [← hevents]
    exact progress_isPrefix_output (c := { c with list := false }) hfound rfl

/-- The pattern asks for a whole group of one file and for one case of the other, and
leaves a group out. -/
theorem checked_lists_tried_two_files :
    ∃ w suites listed rs, discover w (w.canonical (.ofText ['/'])) = .ok suites ∧
      suites.map Suite.name = [['a'], ['b']] ∧
      (∀ s ∈ suites, ∃ groups, Fixture.load w s.path = .ok groups) ∧
      ListsTried w false ⟨.ofText ['/'], some ['x'], false, true⟩ suites listed rs ∧
      rs.map CaseResult.label = [⟨['a'], ['x'], ['u']⟩, ⟨['a'], ['x'], ['v']⟩,
        ⟨['b'], ['g'], "\x7bx\x7d".toList⟩] := by
  let first : Text :=
    "\x7b\"x\": \x7b\"testcases\": [[\"u\", \"\"], [\"v\", false]]\x7d\x7d".toList
  let second : Text :=
    ("\x7b\"e\": \x7b\"testcases\": [[\"u\", \"\"]]\x7d, ".toList ++
      "\"g\": \x7b\"testcases\": [[\"u\", \"\"], [\"\x7bx\x7d\", \"\"]]\x7d\x7d".toList)
  let entries : List (Files.FileName × Files.Node) :=
    [(Files.Path.ofText "a.json".toList, .file (Utf8.encode first)),
      (Files.Path.ofText "_a.json".toList, .file []),
      (Files.Path.ofText "b.json".toList, .file (Utf8.encode second))]
  let w : Files.World := ⟨.folder entries, []⟩
  let suites : List Suite :=
    [⟨.ofText "/a.json".toList, ['a']⟩, ⟨.ofText "/b.json".toList, ['b']⟩]
  have hfound : discover w (w.canonical (.ofText ['/'])) = .ok suites := by
    have hplain : (Files.Node.folder entries).Plain :=
      .folder (by decide) (by decide) (by simp [entries, Files.Node.Plain.file])
    show discover w (w.canonical [Files.Path.slash]) = _
    rw [canonical_root]
    exact discover_eq_of_pairwise (target_root _ _) hplain (by decide +kernel) (by decide)
  have hfirst : Fixture.load w (.ofText "/a.json".toList) =
      .ok [⟨['x'], none, ∅, [⟨['u'], .exact [], 0⟩, ⟨['v'], .refusal, 1⟩]⟩] := by
    have hparse : Fixture.load w (.ofText "/a.json".toList) = Fixture.parse first :=
      Fixture.load_of_lookup (by decide) [] rfl
    rw [hparse]
    rfl
  have hsecond : Fixture.load w (.ofText "/b.json".toList) =
      .ok [⟨['e'], none, ∅, [⟨['u'], .exact [], 0⟩]⟩,
        ⟨['g'], none, ∅, [⟨['u'], .exact [], 0⟩, ⟨"\x7bx\x7d".toList, .exact [], 1⟩]⟩] := by
    have hpath : Files.Path.ofText "/b.json".toList =
        Files.Path.slash :: Files.Path.ofText "b.json".toList := by decide
    have hlookup : entries.lookup (Files.Path.ofText "b.json".toList) =
        some (.file (Utf8.encode second)) :=
      (Json.lookup_eq_some_iff (by decide)).2 (by simp [entries])
    rw [hpath, Fixture.load_of_lookup (by decide) [] hlookup]
    rfl
  have hload : ∀ s ∈ suites, ∃ groups, Fixture.load w s.path = .ok groups :=
    List.forall_mem_cons.2 ⟨⟨_, hfirst⟩, List.forall_mem_singleton.2 ⟨_, hsecond⟩⟩
  obtain ⟨listed, rs, h⟩ :
      ∃ listed rs, ListsTried w false ⟨.ofText ['/'], some ['x'], false, true⟩ suites listed rs :=
    checked_lists_tried hfound hload
  refine ⟨w, suites, listed, rs, hfound, rfl, hload, h, ?_⟩
  have hresults : rs = suites.flatMap (·.resultsIn w (some ['x'])) := by
    rw [← h.results_eq, runAll_results, List.flatMap_map]
    simp only [Suite.results_run]
  rw [hresults]
  simp only [suites, List.flatMap_cons, Suite.resultsIn, hfirst, hsecond]
  rfl

end Command

end UriTemplate
