import Mathlib.Algebra.BigOperators.Ring.List
import Mathlib.Algebra.Ring.Nat
import UriTemplate.Proofs.ListedCases

/-!
# Lines of progress

While a run goes on, each event gets a mark, and a line ends after 80 of them.  The
column is raised and set back by the marks only, and it is read once more at the end:
a line that has been begun still needs its end then, a full one has it.  What holds the
two together is that the column is the number of marks in the line that has been begun.

* `Partway`: full lines, and the beginning of one more that is not full.
* `Partway.progress`: one more mark, whatever the event is.
* `Partway.progressAll`: the marks of events one after another, by induction on them.
* `Partway.finish`: the end of a line that has been begun, and an empty line.
* `marks_in_lines`: the text of a whole run, and its column between two events.
* `Command.exists_wraps_output_trial`: the same for what a check writes.
-/

namespace UriTemplate

/-- The character of the mark for an event. -/
def Event.symbol : Event → Char
  | .tried result => if result.passed then '.' else 'F'
  | .skipped .. => 'S'

theorem Event.symbol_ne_newline (event : Event) : event.symbol ≠ '\n' := by
  cases event with
  | tried result =>
    rw [symbol]
    split <;> decide
  | skipped suite reason =>
    show 'S' ≠ '\n'
    decide

/-! ## Lines -/

namespace Text

/-- Lines, each of them with its end. -/
def ofLines (lines : List Text) : Text :=
  lines.flatMap (· ++ ['\n'])

@[simp] theorem ofLines_singleton (line : Text) : ofLines [line] = line ++ ['\n'] := by
  simp [ofLines]

@[simp] theorem ofLines_append (lines lines' : List Text) :
    ofLines (lines ++ lines') = ofLines lines ++ ofLines lines' :=
  List.flatMap_append

/-- What a text holds after its last line end. -/
def lastLine (t : Text) : Text :=
  (fields '\n' t).getLastD []

/-- Lines with their ends, and a rest without one, come back as fields. -/
theorem fields_ofLines_append {lines : List Text} {rest : Text}
    (hlines : ∀ line ∈ lines, '\n' ∉ line) (hrest : '\n' ∉ rest) :
    fields '\n' (ofLines lines ++ rest) = lines ++ [rest] := by
  induction lines with
  | nil => exact fields_of_not_mem hrest
  | cons line lines ih =>
    obtain ⟨hline, hlines⟩ := List.forall_mem_cons.1 hlines
    have htext : ofLines (line :: lines) ++ rest = line ++ '\n' :: (ofLines lines ++ rest) := by
      simp [ofLines]
    rw [htext, fields_append hline, ih hlines, List.cons_append]

/-- Whether lines of a width hold a row of characters.  Every line is full, except that
the last one holds what remains if the width does not divide the length of the row. -/
structure Wraps (width : Nat) (row : Text) (lines : List Text) : Prop where
  flatten_eq : lines.flatten = row
  length_eq_of_mem_dropLast : ∀ line ∈ lines.dropLast, line.length = width
  length_eq_of_mem_getLast? : ∀ line ∈ lines.getLast?,
    line.length = if width ∣ row.length then width else row.length % width

end Text

/-! ## Lines that are being written -/

namespace Report

open Terminal Text

/-- Whether a row of characters is shown as full lines of a width and the beginning of
one more. -/
structure Partway (width : Nat) (row shown : Text) (full : List Text) (begun : Text) : Prop where
  row_eq : row = full.flatten ++ begun
  shown_eq : shown = ofLines full ++ begun
  length_eq : ∀ line ∈ full, line.length = width
  length_lt : begun.length < width

variable {width : Nat} {row shown begun : Text} {full : List Text}

theorem partway_nil (hwidth : 0 < width) : Partway width [] [] [] [] where
  row_eq := rfl
  shown_eq := rfl
  length_eq := by simp
  length_lt := hwidth

namespace Partway

/-- The line that has been begun holds what does not fill a line. -/
theorem length_begun (h : Partway width row shown full begun) :
    begun.length = row.length % width := by
  -- Full lines leave no remainder, however many there are.
  have hdvd : width ∣ full.flatten.length := by
    rw [List.length_flatten]
    refine List.dvd_sum fun n hn => ?_
    obtain ⟨line, hline, rfl⟩ := List.mem_map.1 hn
    rw [h.length_eq line hline]
  obtain ⟨k, hk⟩ := hdvd
  rw [h.row_eq, List.length_append, hk, Nat.mul_add_mod, Nat.mod_eq_of_lt h.length_lt]

/-- A row without line ends has the line that has been begun as its last line. -/
theorem lastLine_shown (h : Partway width row shown full begun) (hrow : '\n' ∉ row) :
    lastLine shown = begun := by
  rw [h.row_eq, List.mem_append, List.mem_flatten, not_or, not_exists] at hrow
  have hfull : ∀ line ∈ full, '\n' ∉ line := fun line hline hmem => hrow.1 line ⟨hline, hmem⟩
  rw [lastLine, h.shown_eq, fields_ofLines_append hfull hrow.2]
  simp

/-- Without a line that has been begun, all lines are full. -/
theorem wraps_full (h : Partway width row shown full []) : Wraps width row full where
  flatten_eq := by rw [h.row_eq, List.append_nil]
  length_eq_of_mem_dropLast line hline := h.length_eq line (List.dropLast_subset full hline)
  length_eq_of_mem_getLast? line hline := by
    have hdvd : width ∣ row.length := Nat.dvd_of_mod_eq_zero h.length_begun.symm
    rw [if_pos hdvd]
    exact h.length_eq line (List.mem_of_mem_getLast? hline)

/-- A line that has been begun is the last one. -/
theorem wraps_concat (h : Partway width row shown full begun) (hbegun : 0 < begun.length) :
    Wraps width row (full ++ [begun]) where
  flatten_eq := by
    rw [h.row_eq]
    simp
  length_eq_of_mem_dropLast line hline := by
    rw [List.dropLast_concat] at hline
    exact h.length_eq line hline
  length_eq_of_mem_getLast? line hline := by
    have hline : line = begun := by simpa [eq_comm] using hline
    have hdvd : ¬width ∣ row.length := by
      intro hdvd
      have hzero := Nat.mod_eq_zero_of_dvd hdvd
      rw [← h.length_begun] at hzero
      omega
    rw [if_neg hdvd, hline, h.length_begun]

/-! ### One more mark -/

/-- A character that leaves room in its line. -/
theorem concat (h : Partway width row shown full begun) {c : Char}
    (hroom : begun.length + 1 < width) :
    Partway width (row ++ [c]) (shown ++ [c]) full (begun ++ [c]) where
  row_eq := by rw [h.row_eq, List.append_assoc]
  shown_eq := by rw [h.shown_eq, List.append_assoc]
  length_eq := h.length_eq
  length_lt := by simpa using hroom

/-- A character that fills its line. -/
theorem concat_newline (h : Partway width row shown full begun) {c : Char}
    (hroom : ¬begun.length + 1 < width) :
    Partway width (row ++ [c]) (shown ++ [c, '\n']) (full ++ [begun ++ [c]]) [] where
  row_eq := by
    rw [h.row_eq]
    simp
  shown_eq := by
    rw [h.shown_eq]
    simp
  length_eq line hline := by
    have hlt := h.length_lt
    rcases List.mem_append.1 hline with hline | hline
    · exact h.length_eq line hline
    · rw [List.mem_singleton.1 hline, List.length_append, List.length_singleton]
      omega
  length_lt := by
    have hlt := h.length_lt
    show 0 < width
    omega

end Partway

/-! ## Progress -/

theorem render_mark (event : Event) : render false (mark event) = [event.symbol] := by
  cases event with
  | tried result =>
    rw [mark, Event.symbol]
    split <;> rfl
  | skipped suite reason => rfl

/-- A mark that leaves room in its line. -/
theorem progress_of_lt {column : Nat} (h : column + 1 < lineWidth) (event : Event) :
    progress false column event = (mark event, column + 1) := by
  have hle : ¬lineWidth ≤ column + 1 := Nat.not_le.2 h
  simp [progress, advance, hle]

/-- A mark that fills its line. -/
theorem progress_of_not_lt {column : Nat} (h : ¬column + 1 < lineWidth) (event : Event) :
    progress false column event = (mark event ++ [newline], 0) := by
  have hle : lineWidth ≤ column + 1 := Nat.not_lt.1 h
  simp [progress, advance, hle]

theorem progressAll_cons (verbose : Bool) (column : Nat) (event : Event) (events : List Event) :
    progressAll verbose column (event :: events) =
      ((progress verbose column event).1 ++
          (progressAll verbose (progress verbose column event).2 events).1,
        (progressAll verbose (progress verbose column event).2 events).2) := rfl

theorem progressAll_append (verbose : Bool) (column : Nat) (before after : List Event) :
    progressAll verbose column (before ++ after) =
      ((progressAll verbose column before).1 ++
          (progressAll verbose (progressAll verbose column before).2 after).1,
        (progressAll verbose (progressAll verbose column before).2 after).2) := by
  induction before generalizing column with
  | nil => rfl
  | cons event before ih =>
    rw [List.cons_append, progressAll_cons, progressAll_cons, ih]
    simp only [List.append_assoc]

namespace Partway

/-- The column stays the length of the line that has been begun. -/
theorem progress (h : Partway lineWidth row shown full begun) (event : Event) :
    ∃ full' begun', (Report.progress false begun.length event).2 = begun'.length ∧
      Partway lineWidth (row ++ [event.symbol])
        (shown ++ render false (Report.progress false begun.length event).1) full' begun' := by
  by_cases hroom : begun.length + 1 < lineWidth
  · refine ⟨full, begun ++ [event.symbol], ?_, ?_⟩
    · rw [progress_of_lt hroom, List.length_append, List.length_singleton]
    · rw [progress_of_lt hroom, render_mark]
      exact h.concat hroom
  · refine ⟨full ++ [begun ++ [event.symbol]], [], ?_, ?_⟩
    · rw [progress_of_not_lt hroom, List.length_nil]
    · rw [progress_of_not_lt hroom, render_append, render_mark]
      exact h.concat_newline hroom

theorem progressAll (h : Partway lineWidth row shown full begun) (events : List Event) :
    ∃ full' begun', (Report.progressAll false begun.length events).2 = begun'.length ∧
      Partway lineWidth (row ++ events.map Event.symbol)
        (shown ++ render false (Report.progressAll false begun.length events).1) full' begun' := by
  -- Where the run stands after the first event is where the others begin, so the lines
  -- that are there already are general.
  induction events generalizing row shown full begun with
  | nil => exact ⟨full, begun, rfl, by simpa [Report.progressAll] using h⟩
  | cons event events ih =>
    obtain ⟨full', begun', hcolumn, hnext⟩ := h.progress event
    obtain ⟨full'', begun'', hlast, hrest⟩ := ih hnext
    refine ⟨full'', begun'', ?_, ?_⟩
    · rw [progressAll_cons, hcolumn]
      exact hlast
    · rw [progressAll_cons, hcolumn, render_append, List.map_cons, ← List.append_assoc,
        List.append_cons]
      exact hrest

/-- The line that has been begun gets its end, and an empty line comes after it. -/
theorem finish (h : Partway lineWidth row shown full begun) :
    ∃ lines, Wraps lineWidth row lines ∧
      shown ++ render false (Report.finish begun.length) = ofLines lines ++ ['\n'] := by
  -- The column is zero before the first mark and after each full line, and neither needs
  -- an end.
  rcases Nat.eq_zero_or_pos begun.length with hzero | hpos
  · obtain rfl := List.eq_nil_of_length_eq_zero hzero
    refine ⟨full, h.wraps_full, ?_⟩
    rw [h.shown_eq, List.append_nil]
    rfl
  · refine ⟨full ++ [begun], h.wraps_concat hpos, ?_⟩
    rw [Report.finish, if_pos hpos, h.shown_eq]
    simp [render, newline, Span.written]

end Partway

/-- Where a run stands after some events that have a mark each. -/
theorem exists_partway (events : List Event) :
    ∃ full begun, (progressAll false 0 events).2 = begun.length ∧
      Partway lineWidth (events.map Event.symbol) (render false (progressAll false 0 events).1)
        full begun :=
  (partway_nil (by decide)).progressAll events

theorem exists_wraps_progressAll (events : List Event) :
    ∃ lines, Wraps lineWidth (events.map Event.symbol) lines ∧
      render false ((progressAll false 0 events).1 ++ finish (progressAll false 0 events).2) =
        ofLines lines ++ ['\n'] := by
  obtain ⟨full, begun, hcolumn, h⟩ := exists_partway events
  rw [hcolumn, render_append]
  exact h.finish

/-- Whether the column after events is the one of the line that has been begun, which
holds the latest marks. -/
structure Counts (width : Nat) (events : List Event) : Prop where
  column_lt : (progressAll false 0 events).2 < width
  column_eq_mod : (progressAll false 0 events).2 = events.length % width
  column_eq_length :
    (progressAll false 0 events).2 = (lastLine (render false (progressAll false 0 events).1)).length
  lastLine_suffix :
    lastLine (render false (progressAll false 0 events).1) <:+ events.map Event.symbol

theorem counts_progressAll (events : List Event) : Counts lineWidth events := by
  obtain ⟨full, begun, hcolumn, h⟩ := exists_partway events
  have hrow : '\n' ∉ events.map Event.symbol := by
    simp [Event.symbol_ne_newline]
  have hlast := h.lastLine_shown hrow
  exact {
    column_lt := by
      rw [hcolumn]
      exact h.length_lt
    column_eq_mod := by rw [hcolumn, h.length_begun, List.length_map]
    column_eq_length := by rw [hcolumn, hlast]
    lastLine_suffix := by
      rw [hlast, h.row_eq]
      exact List.suffix_append _ _ }

/-- Whether the marks for events come in lines of a width. -/
structure InLines (width : Nat) (events : List Event) : Prop where
  /-- No mark is lost, and one empty line comes after all of them. -/
  exists_wraps : ∃ lines, Wraps width (events.map Event.symbol) lines ∧
    render false ((progressAll false 0 events).1 ++ finish (progressAll false 0 events).2) =
      ofLines lines ++ ['\n']
  /-- Wherever a run is cut, the column is right, and the run goes on from it. -/
  counts : ∀ before after, before ++ after = events → Counts width before ∧
    progressAll false 0 events =
      ((progressAll false 0 before).1 ++
          (progressAll false (progressAll false 0 before).2 after).1,
        (progressAll false (progressAll false 0 before).2 after).2)

/-- Events of any kind and number get their marks in lines of 80. -/
theorem marks_in_lines (events : List Event) : InLines 80 events where
  exists_wraps := exists_wraps_progressAll events
  counts before after h := by
    rw [← h]
    exact ⟨counts_progressAll before, progressAll_append false 0 before after⟩

/-- A line that has just been filled is not ended twice. -/
example :
    let (spans, column) := progressAll false 0 (List.replicate 80 (.skipped [] []))
    render false (spans ++ finish column) = List.replicate 80 'S' ++ ['\n', '\n'] := by
  decide +kernel

end Report

open Report Terminal Text in
/-- What a check writes is the marks of its events in lines of 80, and then the report. -/
theorem Command.exists_wraps_output_trial {w : Files.World} {c : Check} {suites : List Suite}
    (hverbose : c.verbose = false) :
    ∃ lines, Wraps 80 ((runAll w c.pattern suites).2.map Event.symbol) lines ∧
      (trial w false c suites).output =
        ofLines lines ++ '\n' :: render false (results (runAll w c.pattern suites).1 0) := by
  obtain ⟨lines, hlines, htext⟩ := exists_wraps_progressAll (runAll w c.pattern suites).2
  refine ⟨lines, hlines, ?_⟩
  rw [output_trial, hverbose, render_append, htext, List.append_assoc]
  rfl

end UriTemplate
