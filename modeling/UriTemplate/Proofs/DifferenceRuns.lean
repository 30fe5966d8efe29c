import Mathlib.Data.List.Chain
import UriTemplate.Report

/-!
# Runs of a difference

A difference shows each text in runs, which are taken from an alignment of both texts:
what is in the other text only is left out, and what is left is joined while it is of
one kind.  An alignment can come character by character or in hunks of any length, and
runs can be made from its end or from its start.  It comes to the same, as neighbouring
runs differ in kind and so are determined by the marks of their characters.

* `marks_extend` and `Alternating.extend`: one more character in front.
* `marks_push` and `Alternating.push`: one more hunk at the end.
* `Alternating.foldr_extend_marks`: runs come back from the marks of their characters.
* `highlight_eq_runs`: hunks give the runs of their characters.
* `inFull_runs`: the runs of both sides, for every alignment.
* `diff_in_full`: what a difference shows, and what it writes without colour.
-/

namespace UriTemplate.Diff

/-! ## Marked characters -/

/-- The characters of runs, each with whether it is changed. -/
def marks (rs : List Run) : List (Bool × Char) :=
  rs.flatMap fun r => r.text.map (r.changed, ·)

@[simp] theorem marks_nil : marks [] = [] := rfl

@[simp] theorem marks_cons (r : Run) (rs : List Run) :
    marks (r :: rs) = r.text.map (r.changed, ·) ++ marks rs := rfl

@[simp] theorem marks_append (rs rs' : List Run) : marks (rs ++ rs') = marks rs ++ marks rs' :=
  List.flatMap_append

/-- Whether no run is empty and neighbouring runs are of different kinds. -/
structure Alternating (rs : List Run) : Prop where
  ne_nil : ∀ r ∈ rs, r.text ≠ []
  chain : rs.IsChain fun r r' => r.changed ≠ r'.changed

theorem Alternating.nil : Alternating [] :=
  ⟨by simp, .nil⟩

theorem alternating_cons {r : Run} {rs : List Run} :
    Alternating (r :: rs) ↔
      r.text ≠ [] ∧ (∀ r' ∈ rs.head?, r.changed ≠ r'.changed) ∧ Alternating rs := by
  constructor
  · rintro ⟨hne, hchain⟩
    obtain ⟨hfirst, hrest⟩ := List.forall_mem_cons.1 hne
    obtain ⟨hhead, htail⟩ := List.isChain_cons.1 hchain
    exact ⟨hfirst, hhead, hrest, htail⟩
  · rintro ⟨hfirst, hhead, hrest, htail⟩
    exact ⟨List.forall_mem_cons.2 ⟨hfirst, hrest⟩, List.isChain_cons.2 ⟨hhead, htail⟩⟩

theorem alternating_concat {r : Run} {rs : List Run} :
    Alternating (rs ++ [r]) ↔
      r.text ≠ [] ∧ (∀ r' ∈ rs.getLast?, r'.changed ≠ r.changed) ∧ Alternating rs := by
  constructor
  · rintro ⟨hne, hchain⟩
    obtain ⟨hrest, hlast⟩ := List.forall_mem_append.1 hne
    obtain ⟨hfront, -, hjoin⟩ := List.isChain_append.1 hchain
    exact ⟨hlast r List.mem_cons_self, fun r' hr' => hjoin r' hr' r rfl, hrest, hfront⟩
  · rintro ⟨hlast, hjoin, hrest, hfront⟩
    refine ⟨List.forall_mem_append.2 ⟨hrest, by simpa using hlast⟩, ?_⟩
    refine List.isChain_append.2 ⟨hfront, .singleton r, fun r' hr' r'' hr'' => ?_⟩
    obtain rfl : r = r'' := by simpa using hr''
    exact hjoin r' hr'

/-! ## Runs from characters -/

theorem marks_extend (changed : Bool) (c : Char) (rs : List Run) :
    marks (extend changed c rs) = (changed, c) :: marks rs := by
  cases rs with
  | nil => rfl
  | cons r rs =>
    rw [extend]
    split
    · rename_i hkind
      simp [hkind]
    · simp

theorem Alternating.extend {rs : List Run} (h : Alternating rs) (changed : Bool) (c : Char) :
    Alternating (extend changed c rs) := by
  cases rs with
  | nil => exact alternating_cons.2 ⟨by simp, by simp, h⟩
  | cons r rs =>
    obtain ⟨hfirst, hhead, hrest⟩ := alternating_cons.1 h
    rw [Diff.extend]
    split
    · rename_i hkind
      exact alternating_cons.2 ⟨by simp, hkind ▸ hhead, hrest⟩
    · rename_i hkind
      exact alternating_cons.2 ⟨by simp, by simpa using Ne.symm hkind, h⟩

/-- The character of a change on one side, with whether it is changed. -/
def Side.mark? (side : Side) (change : Change) : Option (Bool × Char) :=
  (side.char? change).map (change.isChanged, ·)

theorem runs_eq_foldr (side : Side) (changes : List Change) :
    runs side changes =
      (changes.filterMap side.mark?).foldr (fun m rs => extend m.1 m.2 rs) [] := by
  induction changes with
  | nil => rfl
  | cons change changes ih =>
    rw [runs, List.filterMap_cons, Side.mark?, ih]
    cases side.char? change <;> rfl

theorem marks_runs (side : Side) (changes : List Change) :
    marks (runs side changes) = changes.filterMap side.mark? := by
  rw [runs_eq_foldr]
  induction changes.filterMap side.mark? with
  | nil => rfl
  | cons m ms ih => rw [List.foldr_cons, marks_extend, ih]

theorem alternating_runs (side : Side) (changes : List Change) :
    Alternating (runs side changes) := by
  rw [runs_eq_foldr]
  induction changes.filterMap side.mark? with
  | nil => exact .nil
  | cons m ms ih => exact ih.extend m.1 m.2

/-- The characters of one kind come together in one run. -/
theorem foldr_extend_text {t : Text} {changed : Bool} {rs : List Run} (hne : t ≠ [])
    (hhead : ∀ r ∈ rs.head?, changed ≠ r.changed) :
    (t.map (changed, ·)).foldr (fun m rs => extend m.1 m.2 rs) rs = ⟨changed, t⟩ :: rs := by
  induction t with
  | nil => exact absurd rfl hne
  | cons c t ih =>
    rw [List.map_cons, List.foldr_cons]
    by_cases ht : t = []
    · subst ht
      cases rs with
      | nil => rfl
      | cons r rs => exact if_neg (Ne.symm (hhead r rfl))
    · rw [ih ht, extend, if_pos rfl]

/-- Runs come back from the marks of their characters. -/
theorem Alternating.foldr_extend_marks {rs : List Run} (h : Alternating rs) :
    (marks rs).foldr (fun m rs => Diff.extend m.1 m.2 rs) [] = rs := by
  induction rs with
  | nil => rfl
  | cons r rs ih =>
    obtain ⟨hfirst, hhead, hrest⟩ := alternating_cons.1 h
    rw [marks_cons, List.foldr_append, ih hrest, foldr_extend_text hfirst hhead]

theorem Alternating.eq_of_marks_eq {rs rs' : List Run} (h : Alternating rs)
    (h' : Alternating rs') (hmarks : marks rs = marks rs') : rs = rs' := by
  rw [← h.foldr_extend_marks, hmarks, h'.foldr_extend_marks]

/-! ## Runs from hunks -/

/-- A piece of an alignment, which has any number of characters. -/
inductive Hunk where
  /-- It is in both texts. -/
  | kept (t : Text)
  /-- It is in the first text only. -/
  | removed (t : Text)
  /-- It is in the second text only. -/
  | added (t : Text)
deriving DecidableEq

namespace Hunk

def text : Hunk → Text
  | kept t | removed t | added t => t

/-- Whether the hunk is in one text only. -/
def isChanged : Hunk → Bool
  | kept _ => false
  | _ => true

/-- The changes of its characters. -/
def changes : Hunk → List Change
  | kept t => t.map .kept
  | removed t => t.map .removed
  | added t => t.map .added

end Hunk

/-- The text of a hunk on one side. -/
def Side.text? : Side → Hunk → Option Text
  | before, .kept t | before, .removed t => some t
  | after, .kept t | after, .added t => some t
  | _, _ => none

/-- Puts a text after runs, in the last one if that is of its kind. -/
def push (changed : Bool) (t : Text) (rs : List Run) : List Run :=
  match rs.getLast? with
  | some last =>
    if last.changed = changed then rs.dropLast ++ [⟨changed, last.text ++ t⟩]
    else rs ++ [⟨changed, t⟩]
  | none => [⟨changed, t⟩]

/-- Puts the text of a hunk after runs, unless it is on the other side only. -/
def pushHunk (side : Side) (rs : List Run) (p : Hunk) : List Run :=
  match side.text? p with
  | some t => push p.isChanged t rs
  | none => rs

/-- One side of hunks in runs. -/
def highlight (side : Side) (hunks : List Hunk) : List Run :=
  hunks.foldl (pushHunk side) []

theorem push_concat (changed : Bool) (t : Text) (rs : List Run) (last : Run) :
    push changed t (rs ++ [last]) =
      if last.changed = changed then rs ++ [⟨changed, last.text ++ t⟩]
      else rs ++ [last] ++ [⟨changed, t⟩] := by
  rw [push, List.getLast?_concat, List.dropLast_concat]

theorem marks_push (changed : Bool) (t : Text) (rs : List Run) :
    marks (push changed t rs) = marks rs ++ t.map (changed, ·) := by
  rcases List.eq_nil_or_concat rs with rfl | ⟨rs, last, rfl⟩
  · simp [push]
  · rw [List.concat_eq_append, push_concat]
    split
    · rename_i hkind
      simp [hkind]
    · simp

theorem Alternating.push {rs : List Run} (h : Alternating rs) (changed : Bool) {t : Text}
    (ht : t ≠ []) : Alternating (push changed t rs) := by
  rcases List.eq_nil_or_concat rs with rfl | ⟨rs, last, rfl⟩
  · exact alternating_cons.2 ⟨ht, by simp, h⟩
  · rw [List.concat_eq_append] at h ⊢
    obtain ⟨-, hjoin, hfront⟩ := alternating_concat.1 h
    rw [push_concat]
    split
    · rename_i hkind
      exact alternating_concat.2 ⟨by simp [ht], hkind ▸ hjoin, hfront⟩
    · rename_i hkind
      exact alternating_concat.2 ⟨ht, by simpa using hkind, h⟩

theorem filterMap_mark?_changes (side : Side) (p : Hunk) :
    p.changes.filterMap side.mark? = ((side.text? p).getD []).map (p.isChanged, ·) := by
  cases side <;> cases p <;>
    simp [Hunk.changes, Hunk.isChanged, Side.text?, Side.mark?, Side.char?, Change.before?,
      Change.after?, Change.isChanged, List.filterMap_map, Function.comp_def]

theorem marks_pushHunk (side : Side) (rs : List Run) (p : Hunk) :
    marks (pushHunk side rs p) = marks rs ++ p.changes.filterMap side.mark? := by
  rw [filterMap_mark?_changes, pushHunk]
  cases side.text? p with
  | none => simp
  | some t => exact marks_push p.isChanged t rs

theorem text_eq_of_text? {side : Side} {p : Hunk} {t : Text} (h : side.text? p = some t) :
    p.text = t := by
  cases side <;> cases p <;> simp_all [Side.text?, Hunk.text]

theorem Alternating.pushHunk {rs : List Run} (h : Alternating rs) (side : Side) {p : Hunk}
    (hp : p.text ≠ []) : Alternating (pushHunk side rs p) := by
  rw [Diff.pushHunk]
  cases ht : side.text? p with
  | none => exact h
  | some t => exact h.push p.isChanged (text_eq_of_text? ht ▸ hp)

theorem marks_highlight (side : Side) (hunks : List Hunk) :
    marks (highlight side hunks) = (hunks.flatMap Hunk.changes).filterMap side.mark? := by
  induction hunks using List.reverseRecOn with
  | nil => rfl
  | append_singleton hunks p ih =>
    rw [highlight, List.foldl_concat, ← highlight, marks_pushHunk, ih, List.flatMap_append,
      List.flatMap_singleton, List.filterMap_append]

theorem alternating_highlight (side : Side) {hunks : List Hunk}
    (hne : ∀ p ∈ hunks, p.text ≠ []) : Alternating (highlight side hunks) := by
  induction hunks using List.reverseRecOn with
  | nil => exact .nil
  | append_singleton hunks p ih =>
    obtain ⟨hfront, hlast⟩ := List.forall_mem_append.1 hne
    rw [highlight, List.foldl_concat, ← highlight]
    exact (ih hfront).pushHunk side (hlast p List.mem_cons_self)

/-- Hunks are shown in the runs of their characters. -/
theorem highlight_eq_runs (side : Side) {hunks : List Hunk} (hne : ∀ p ∈ hunks, p.text ≠ []) :
    highlight side hunks = runs side (hunks.flatMap Hunk.changes) :=
  (alternating_highlight side hne).eq_of_marks_eq (alternating_runs side _)
    ((marks_highlight side hunks).trans (marks_runs side _).symm)

/-! ## Both texts -/

/-- The text of the runs that are unchanged. -/
def unchanged (rs : List Run) : Text :=
  (rs.filter (!·.changed)).flatMap Run.text

theorem map_snd_marks (rs : List Run) : (marks rs).map Prod.snd = rs.flatMap Run.text := by
  simp [marks, List.map_flatMap, Function.comp_def]

theorem unchanged_eq (rs : List Run) :
    unchanged rs = ((marks rs).filter (!·.1)).map Prod.snd := by
  induction rs with
  | nil => rfl
  | cons r rs ih =>
    rw [unchanged, marks_cons, List.filter_append, List.map_append, ← ih, unchanged]
    cases hkind : r.changed <;> simp [hkind, List.filter_map, Function.comp_def]

/-- The character of a change that is in both texts. -/
def Change.kept? : Change → Option Char
  | kept c => some c
  | _ => none

theorem map_snd_filterMap_mark? (side : Side) (changes : List Change) :
    (changes.filterMap side.mark?).map Prod.snd = changes.filterMap side.char? := by
  rw [List.map_filterMap]
  congr 1
  funext change
  simp [Side.mark?, Function.comp_def]

theorem map_snd_filter_filterMap_mark? (side : Side) (changes : List Change) :
    ((changes.filterMap side.mark?).filter (!·.1)).map Prod.snd =
      changes.filterMap Change.kept? := by
  rw [List.filter_filterMap, List.map_filterMap]
  congr 1
  funext change
  cases side <;> cases change <;> rfl

/-- Whether the runs of two sides show two texts in full, with `kept` as what is
unchanged in both. -/
structure InFull (expected actual kept : Text) (removed added : List Run) : Prop where
  expected_eq : removed.flatMap Run.text = expected
  actual_eq : added.flatMap Run.text = actual
  alternating_removed : Alternating removed
  alternating_added : Alternating added
  unchanged_removed : unchanged removed = kept
  unchanged_added : unchanged added = kept

theorem unchanged_runs (side : Side) (changes : List Change) :
    unchanged (runs side changes) = changes.filterMap Change.kept? := by
  rw [unchanged_eq, marks_runs, map_snd_filter_filterMap_mark?]

/-- The runs of every alignment show the texts that it spells. -/
theorem inFull_runs (changes : List Change) :
    InFull (changes.filterMap Change.before?) (changes.filterMap Change.after?)
      (changes.filterMap Change.kept?) (runs .before changes) (runs .after changes) where
  expected_eq := by
    rw [← map_snd_marks, marks_runs, map_snd_filterMap_mark?]
    rfl
  actual_eq := by
    rw [← map_snd_marks, marks_runs, map_snd_filterMap_mark?]
    rfl
  alternating_removed := alternating_runs _ _
  alternating_added := alternating_runs _ _
  unchanged_removed := unchanged_runs _ _
  unchanged_added := unchanged_runs _ _

/-- Whether hunks are an alignment of two texts, and none is empty. -/
structure Spells (hunks : List Hunk) (expected actual : Text) : Prop where
  ne_nil : ∀ p ∈ hunks, p.text ≠ []
  expected_eq : (hunks.filterMap Side.before.text?).flatten = expected
  actual_eq : (hunks.filterMap Side.after.text?).flatten = actual

theorem filterMap_char?_changes (side : Side) (hunks : List Hunk) :
    (hunks.flatMap Hunk.changes).filterMap side.char? =
      (hunks.filterMap side.text?).flatten := by
  induction hunks with
  | nil => rfl
  | cons p hunks ih =>
    rw [List.flatMap_cons, List.filterMap_append, ih, List.filterMap_cons,
      ← map_snd_filterMap_mark?, filterMap_mark?_changes]
    cases side.text? p <;> simp [Function.comp_def]

/-- The text of a hunk that is in both texts. -/
def Hunk.kept? : Hunk → Option Text
  | kept t => some t
  | _ => none

theorem filterMap_kept?_changes (hunks : List Hunk) :
    (hunks.flatMap Hunk.changes).filterMap Change.kept? =
      (hunks.filterMap Hunk.kept?).flatten := by
  induction hunks with
  | nil => rfl
  | cons p hunks ih =>
    rw [List.flatMap_cons, List.filterMap_append, ih, List.filterMap_cons]
    cases p <;>
      simp [Hunk.changes, Hunk.kept?, Change.kept?, List.filterMap_map, Function.comp_def]

theorem Spells.inFull {hunks : List Hunk} {expected actual : Text}
    (h : Spells hunks expected actual) :
    InFull expected actual (hunks.filterMap Hunk.kept?).flatten (highlight .before hunks)
      (highlight .after hunks) := by
  have hfull := inFull_runs (hunks.flatMap Hunk.changes)
  have hexpected : (hunks.flatMap Hunk.changes).filterMap Change.before? = expected :=
    (filterMap_char?_changes .before hunks).trans h.expected_eq
  have hactual : (hunks.flatMap Hunk.changes).filterMap Change.after? = actual :=
    (filterMap_char?_changes .after hunks).trans h.actual_eq
  rwa [hexpected, hactual, filterMap_kept?_changes, ← highlight_eq_runs _ h.ne_nil,
    ← highlight_eq_runs _ h.ne_nil] at hfull

end Diff

/-! ## Printed differences -/

namespace Report

open Diff Terminal

theorem render_diffLine (start : Char) (color : Color) (rs : List Run) :
    render false (diffLine start color rs) =
      ' ' :: ' ' :: start :: (rs.flatMap Run.text ++ ['\n']) := by
  have hrun (r : Run) : render false (runSpans color r) = r.text := by
    rw [runSpans]
    split <;> simp [render, Span.written]
  have hruns : render false (rs.flatMap (runSpans color)) = rs.flatMap Run.text := by
    rw [render, List.flatMap_assoc]
    exact congrArg (rs.flatMap ·) (funext hrun)
  rw [diffLine, render_append, render_append, hruns]
  rfl

/-- Sides that are shown in full are the texts. -/
theorem render_diffLines {expected actual kept : Text} {removed added : List Run}
    (h : InFull expected actual kept removed added) :
    render false (diffLine '-' .red removed ++ diffLine '+' .green added) =
      "  -".toList ++ expected ++ "\n  +".toList ++ actual ++ ['\n'] := by
  rw [render_append, render_diffLine, render_diffLine, h.expected_eq, h.actual_eq]
  simp

/-- A difference shows both texts in full, and is the two texts when nothing is coloured.
The same is true when an alignment comes in hunks. -/
theorem diff_in_full {expected actual : Text} {hunks : List Hunk}
    (h : Spells hunks expected actual) :
    InFull expected actual ((changes expected actual).filterMap Change.kept?)
        (runs .before (changes expected actual)) (runs .after (changes expected actual)) ∧
      render false (diff expected actual) =
        "  -".toList ++ expected ++ "\n  +".toList ++ actual ++ ['\n'] ∧
      InFull expected actual (hunks.filterMap Hunk.kept?).flatten (highlight .before hunks)
        (highlight .after hunks) ∧
      render false (diffLine '-' .red (highlight .before hunks) ++
          diffLine '+' .green (highlight .after hunks)) =
        "  -".toList ++ expected ++ "\n  +".toList ++ actual ++ ['\n'] := by
  have hfull : InFull expected actual ((changes expected actual).filterMap Change.kept?)
      (runs .before (changes expected actual)) (runs .after (changes expected actual)) := by
    simpa only [before_changes, after_changes] using inFull_runs (changes expected actual)
  exact ⟨hfull, render_diffLines hfull, h.inFull, render_diffLines h.inFull⟩

/-- What is removed does not break a run of the second text, and what is added does not
break one of the first. -/
theorem diff_in_full_passed_over :
    let hunks : List Hunk := [.kept "ab".toList, .removed ['x'], .kept ['c'],
      .added "yz".toList, .removed ['u'], .added ['w'], .removed ['v']]
    highlight .before hunks =
        [⟨false, "ab".toList⟩, ⟨true, ['x']⟩, ⟨false, ['c']⟩, ⟨true, "uv".toList⟩] ∧
      highlight .after hunks = [⟨false, "abc".toList⟩, ⟨true, "yzw".toList⟩] ∧
      InFull "abxcuv".toList "abcyzw".toList "abc".toList (highlight .before hunks)
        (highlight .after hunks) ∧
      render false (diff "abxcuv".toList "abcyzw".toList) =
        "  -abxcuv\n  +abcyzw\n".toList := by
  intro hunks
  have hspells : Spells hunks "abxcuv".toList "abcyzw".toList := ⟨by decide, rfl, rfl⟩
  obtain ⟨-, hprinted, hfull, -⟩ := diff_in_full hspells
  exact ⟨by decide, by decide, hfull, hprinted⟩

end Report

end UriTemplate
