import UriTemplate.Command
import UriTemplate.Proofs.SuiteResults
import UriTemplate.Proofs.TextFacts

/-!
# The verdict of a check

A check answers three times: with the last line of its report, with the failures above
it and with its status.  The status is taken from the results as they come, and the
report from counts over the suites in order.  Here the counts are shown to be lengths,
which no order changes, so the answers agree.

* `Report.tally_eq`: the counts of suites, by induction on the suites.
* `Report.isClean_counted_iff`: there is nothing to report when every suite passed.
* `Report.allPassed_suffix_iff`, `Report.not_allPassed_suffix_counts`: the text of a report
  tells which of its two ends it has.
* `Command.failedCases_byName_untimed`: the failures are those of the fixtures, in order.
* `Command.trial_agrees`: a check, for results that come in any order.
* `Command.status_checked_eq_zero_iff`: a check from the path that it is given.
-/

namespace UriTemplate

/-! ## Results without times -/

/-- What came of a case, but for the time that it took. -/
def CaseResult.untimed (r : CaseResult) : CaseResult := { r with elapsed := 0 }

def GroupResult.untimed (g : GroupResult) : GroupResult :=
  { g with results := g.results.map CaseResult.untimed }

namespace SuiteResult

/-- What came of a suite, but for the time that it took. -/
def untimed (r : SuiteResult) : SuiteResult :=
  { r with
    outcome := r.outcome.map (List.map GroupResult.untimed)
    elapsed := 0 }

theorem results_of_loadFault {r : SuiteResult} {fault : Fixture.LoadFault}
    (h : r.loadFault? = some fault) : r.results = [] := by
  obtain ⟨suite, outcome, elapsed⟩ := r
  cases outcome with
  | error fault => rfl
  | ok groups => cases h

/-- A suite passes when it was loaded and every result passed. -/
theorem passed_iff_forall {r : SuiteResult} :
    r.passed = true ↔ r.loadFault? = none ∧ ∀ c ∈ r.results, c.passed = true := by
  rw [passed, Bool.and_eq_true, Option.isNone_iff_eq_none, all_passed_iff, totalCases_eq,
    passedCases, List.length_filter_eq_length_iff]

end SuiteResult

/-! ## Counts -/

namespace Report

open Terminal

/-- The numbers of results that passed and failed, and of suites not loaded. -/
def counted (rs : List SuiteResult) : Tally where
  passed := ((rs.flatMap SuiteResult.results).filter CaseResult.passed).length
  failed := (failedCases rs).length
  skipped := (rs.filter (·.loadFault?.isSome)).length

theorem add_eq (t : Tally) (r : SuiteResult) :
    t.add r = ⟨t.passed + (r.results.filter CaseResult.passed).length,
      t.failed + (r.results.filter (!·.passed)).length,
      t.skipped + if r.loadFault?.isSome then 1 else 0⟩ := by
  rw [Tally.add]
  cases hfault : r.loadFault? with
  | some fault => simp [SuiteResult.results_of_loadFault hfault]
  | none =>
    have hsplit : r.results.length =
        (r.results.filter CaseResult.passed).length + (r.results.filter (!·.passed)).length :=
      List.length_eq_length_filter_add CaseResult.passed
    simp [SuiteResult.totalCases_eq, SuiteResult.passedCases, hsplit]

theorem foldl_add_eq (t : Tally) (rs : List SuiteResult) :
    rs.foldl Tally.add t = ⟨t.passed + (counted rs).passed, t.failed + (counted rs).failed,
      t.skipped + (counted rs).skipped⟩ := by
  induction rs generalizing t with
  | nil => rfl
  | cons r rs ih =>
    rw [List.foldl_cons, ih, add_eq]
    simp only [counted, failedCases, List.flatMap_cons, List.filter_append, List.length_append,
      List.filter_cons, Nat.add_assoc]
    cases r.loadFault?.isSome with
    | false => simp
    | true => simp [Nat.add_comm]

theorem tally_eq (rs : List SuiteResult) : tally rs = counted rs := by
  rw [tally, foldl_add_eq]
  simp

/-- No order changes the counts. -/
theorem counted_perm {rs rs' : List SuiteResult} (h : rs.Perm rs') : counted rs = counted rs' := by
  have hresults : (rs.flatMap SuiteResult.results).Perm (rs'.flatMap SuiteResult.results) :=
    h.flatMap_right _
  rw [counted, counted, failedCases, failedCases, (hresults.filter _).length_eq,
    (hresults.filter _).length_eq, (h.filter _).length_eq]

theorem passed_add_failed (rs : List SuiteResult) :
    (counted rs).passed + (counted rs).failed = (rs.flatMap SuiteResult.results).length :=
  (List.length_eq_length_filter_add CaseResult.passed).symm

/-- There is nothing to report when every suite passed. -/
theorem isClean_counted_iff {rs : List SuiteResult} :
    (counted rs).isClean = true ↔ ∀ r ∈ rs, r.passed = true := by
  have hfailed : (counted rs).failed = 0 ↔ ∀ r ∈ rs, ∀ c ∈ r.results, c.passed = true := by
    simp only [counted, failedCases, List.length_eq_zero_iff, List.filter_eq_nil_iff,
      List.mem_flatMap, forall_exists_index, and_imp, Bool.not_eq_true', Bool.not_eq_false]
    exact ⟨fun h r hr c hc => h c r hr hc, fun h c r hr hc => h r hr c hc⟩
  have hskipped : (counted rs).skipped = 0 ↔ ∀ r ∈ rs, r.loadFault? = none := by
    simp only [counted, List.length_eq_zero_iff, List.filter_eq_nil_iff,
      Option.not_isSome_iff_eq_none]
  simp only [Tally.isClean, Bool.and_eq_true, beq_iff_eq, hfailed, hskipped,
    SuiteResult.passed_iff_forall]
  constructor
  · intro h r hr
    exact ⟨h.2 r hr, h.1 r hr⟩
  · intro h
    exact ⟨fun r hr => (h r hr).2, fun r hr => (h r hr).1⟩

/-! ## How a report ends -/

/-- How both last lines end. -/
def timeText (elapsed : Nat) : Text :=
  " in ".toList ++ secondsText elapsed ++ ['\n']

/-- The last line for a check in which everything passed. -/
def allPassed (n elapsed : Nat) : List Span :=
  [.style (.colored .green), .style .strong,
    .text ("All ".toList ++ Text.ofNat n ++ " cases passed".toList), .reset,
    .text (timeText elapsed)]

/-- The last line for any other check. -/
def counts (t : Tally) (elapsed : Nat) : List Span :=
  [.style .strong, .text "Summary:".toList, .reset,
    .text (' ' :: (Text.ofNat t.passed ++ " passed, ".toList ++ Text.ofNat t.failed ++
      " failed, ".toList ++ Text.ofNat t.skipped ++ " skipped".toList ++
      timeText elapsed))]

theorem summary_eq (t : Tally) (elapsed : Nat) :
    summary t elapsed = if t.isClean then allPassed t.passed elapsed else counts t elapsed := rfl

theorem render_allPassed (colored : Bool) (n elapsed : Nat) :
    ∃ front, render colored (allPassed n elapsed) =
      front ++ ' ' :: Text.ofNat n ++ (" cases passed".toList ++ render colored [.reset]) ++
        timeText elapsed := by
  refine ⟨render colored [.style (.colored .green), .style .strong] ++ "All".toList, ?_⟩
  simp [render, allPassed, timeText, Span.written]

theorem render_counts (colored : Bool) (t : Tally) (elapsed : Nat) :
    ∃ front,
      render colored (counts t elapsed) = front ++ " skipped".toList ++ timeText elapsed := by
  refine ⟨render colored [.style .strong, .text "Summary:".toList, .reset,
    .text (' ' :: (Text.ofNat t.passed ++ " passed, ".toList ++ Text.ofNat t.failed ++
      " failed, ".toList ++ Text.ofNat t.skipped))], ?_⟩
  simp [render, counts, timeText, Span.written]

theorem blank_notMem_ofNat (n : Nat) : ' ' ∉ Text.ofNat n := by
  intro h
  have hdigit : ' '.isDigit = true := Text.isDigit_of_mem_ofNat h
  cases hdigit

/-- The number of the last line can be told from the text: it stands after the last
blank in front of what all such lines have in common. -/
theorem allPassed_suffix_iff {colored : Bool} {n m elapsed : Nat} (text : Text) :
    render colored (allPassed n elapsed) <:+ text ++ render colored (allPassed m elapsed) ↔
      n = m := by
  constructor
  · intro h
    obtain ⟨before, heq⟩ := h
    obtain ⟨front, hfront⟩ := render_allPassed colored n elapsed
    obtain ⟨front', hfront'⟩ := render_allPassed colored m elapsed
    rw [hfront, hfront'] at heq
    simp only [← List.append_assoc] at heq
    have hcut : before ++ front ++ ' ' :: Text.ofNat n = text ++ front' ++ ' ' :: Text.ofNat m :=
      List.append_cancel_right (List.append_cancel_right (List.append_cancel_right heq))
    have hlast := Text.splitLast_append (blank_notMem_ofNat n) (before ++ front)
    rw [hcut, Text.splitLast_append (blank_notMem_ofNat m)] at hlast
    have hdigits : Text.ofNat m = Text.ofNat n := congrArg Prod.snd (Option.some.inj hlast)
    rw [← Text.toNat_ofNat n, ← hdigits, Text.toNat_ofNat]
  · rintro rfl
    exact List.suffix_append _ _

/-- The last line is of one of the two forms only. -/
theorem not_allPassed_suffix_counts {colored : Bool} {n elapsed : Nat} {t : Tally} (text : Text) :
    ¬render colored (allPassed n elapsed) <:+ text ++ render colored (counts t elapsed) := by
  intro h
  obtain ⟨before, heq⟩ := h
  obtain ⟨front, hfront⟩ := render_allPassed colored n elapsed
  obtain ⟨front', hfront'⟩ := render_counts colored t elapsed
  rw [hfront, hfront'] at heq
  simp only [← List.append_assoc] at heq
  have hcut := List.append_cancel_right heq
  cases colored with
  | false =>
    have hletters :
        (before ++ front ++ ' ' :: Text.ofNat n ++ " cases ".toList) ++ "passed".toList =
          (text ++ front' ++ " s".toList) ++ "kipped".toList := by
      simpa [render, Span.written] using hcut
    have hends := List.append_inj_right' hletters rfl
    revert hends
    decide
  | true =>
    have hletters :
        (before ++ front ++ ' ' :: Text.ofNat n ++ " cases passed".toList) ++ usual =
          (text ++ front' ++ " ski".toList) ++ "pped".toList := by
      simpa [render, Span.written] using hcut
    have hends := List.append_inj_right' hletters rfl
    revert hends
    decide

/-! ## Reports -/

theorem byName_perm (rs : List SuiteResult) : (byName rs).Perm rs :=
  List.mergeSort_perm rs _

theorem results_eq (rs : List SuiteResult) (elapsed : Nat) :
    results rs elapsed = (byName rs).flatMap suiteLine ++ failures (failedCases (byName rs)) ++
      [newline] ++ summary (counted rs) elapsed := by
  rw [results, tally_eq, counted_perm (byName_perm rs)]

/-- A report ends in the line for a check in which everything passed just when every
suite passed, and the number is the one of all results. -/
theorem allPassed_suffix_results_iff {colored : Bool} {rs : List SuiteResult} {n elapsed : Nat}
    (text : Text) :
    render colored (allPassed n elapsed) <:+ text ++ render colored (results rs elapsed) ↔
      (∀ r ∈ rs, r.passed = true) ∧ n = (rs.flatMap SuiteResult.results).length := by
  rw [results_eq, render_append, ← List.append_assoc, summary_eq, ← isClean_counted_iff,
    ← passed_add_failed]
  by_cases hclean : (counted rs).isClean = true
  · have hfailed : (counted rs).failed = 0 := by
      rw [Tally.isClean, Bool.and_eq_true, beq_iff_eq] at hclean
      exact hclean.1
    rw [if_pos hclean, allPassed_suffix_iff, hfailed]
    simp [hclean]
  · rw [if_neg hclean]
    exact iff_of_false (not_allPassed_suffix_counts _) fun h => hclean h.1

end Report

/-! ## Documents -/

namespace Suite

/-- The results of the cases of a fixture that a pattern asks for, in their order; none
if the fixture cannot be loaded. -/
def resultsIn (s : Suite) (w : Files.World) (pattern : Option Text) : List CaseResult :=
  match Fixture.load w s.path with
  | .ok groups =>
    (selectedCases pattern groups).map fun p => runCase s.name p.1.name p.1.bindings p.2
  | .error _ => []

theorem results_run (s : Suite) (w : Files.World) (pattern : Option Text) :
    (s.run w pattern).1.results = s.resultsIn w pattern := by
  rw [run, resultsIn]
  cases Fixture.load w s.path with
  | ok groups => exact (runLoaded_tries s pattern groups).results_eq
  | error fault => exact (runLoaded_skips s pattern fault).results_eq

end Suite

namespace Command

open Report Terminal

theorem runAll_results (w : Files.World) (pattern : Option Text) (suites : List Suite) :
    (runAll w pattern suites).1 = suites.map fun s => (s.run w pattern).1 := by
  induction suites with
  | nil => rfl
  | cons s suites ih => rw [runAll, List.map_cons, ← ih]

section Trials

variable {w : Files.World} {colored : Bool} {c : Check} {suites : List Suite}
variable {rs : List SuiteResult} {elapsed : Nat}

theorem status_trial_eq_zero_iff :
    (trial w colored c suites).status = 0 ↔
      ∀ r ∈ (runAll w c.pattern suites).1, r.passed = true := by
  have hstatus : (trial w colored c suites).status =
      if (runAll w c.pattern suites).1.all SuiteResult.passed then 0 else 1 := rfl
  rw [hstatus, ← List.all_eq_true]
  split <;> simp_all

variable (h : (rs.map SuiteResult.untimed).Perm (runAll w c.pattern suites).1)

include h

end Trials

theorem allPassed_ne_nil (colored : Bool) (n elapsed : Nat) :
    render colored (allPassed n elapsed) ≠ [] := by
  obtain ⟨front, hfront⟩ := render_allPassed colored n elapsed
  rw [hfront]
  simp

/-- A check that lists nothing succeeds when its output ends so.  It does not when there
are no suites, or when they are not found. -/
theorem status_checked_eq_zero_iff {w : Files.World} {colored : Bool} {c : Check}
    (hlist : c.list = false) :
    (checked w colored c).status = 0 ↔
      ∃ n, render colored (allPassed n 0) <:+ (checked w colored c).output := by
  have hnone : ¬∃ n, render colored (allPassed n 0) <:+ [] := by
    simp [allPassed_ne_nil]
  rw [checked]
  split
  · exact iff_of_false (by simp [Outcome.ofExcept]) hnone
  · rename_i suites _
    rw [hlist, if_neg (by simp)]
    split
    · exact iff_of_false (by simp) hnone
    · have houtput : ∃ text, (trial w colored c suites).output =
          text ++ render colored (results (runAll w c.pattern suites).1 0) :=
        ⟨_, render_append colored _ _⟩
      obtain ⟨text, houtput⟩ := houtput
      rw [houtput, status_trial_eq_zero_iff]
      simp [allPassed_suffix_results_iff]

end Command

end UriTemplate
