import UriTemplate.Proofs.DelimitedExtraction

/-!
# Texts that are matched

A slot takes as many atoms as it can, and gives up the last ones when nothing
after it matches otherwise.  It tries every number of atoms in this way, so a
text is matched as soon as it splits along the layout at all, in whatever way.
With `Layout.exists_split_of_run` this makes `Layout.exists_run_iff`: the texts
that a layout matches are the ones that split along it.

The match that is found need not be the split that one had in mind.  For
`x` and `y` with nothing between them, `x` takes all that both could take.

* `Written.exists_run_item`: a part is matched where its share stands.
* `Template.mem_layout_specs`: the values of a layout are the variables of the
  expressions.
* `Template.exists_match_expand`: a template without modifiers matches its own
  expansions.
-/

namespace UriTemplate

open Percent

/-! ## Layouts -/

/-- A part is matched where its share stands, if the text after it is. -/
theorem Written.exists_run_item {w : Written} {seen : Seen} {next : Text → Option Regex.Captures}
    {rest : Text} {later : Regex.Captures} (hshaped : w.Shaped) (hnext : next rest = some later) :
    ∃ captures, (w.part.item seen).run next (w.text ++ rest) = some captures := by
  cases w with
  | fixed t =>
    have hstrip : Text.stripFront t (t ++ rest) = some rest := Text.stripFront_eq_some.2 rfl
    rw [text, part, Part.item, Regex.Item.run, hstrip, Option.bind_some]
    exact ⟨later, hnext⟩
  | value op spec piece =>
    obtain ⟨n, hrow, hcount⟩ := hshaped
    obtain ⟨taken, hrun⟩ : ∃ taken,
        (Part.slot op spec seen).run next (piece ++ rest) = some taken :=
      Slot.exists_run_append hrow hcount hnext
    rw [text, part, Part.item]
    split
    · rw [Regex.Item.run, List.cons_append, Text.stripFront, if_pos rfl, Text.stripFront,
        Option.bind_some, hrun]
      exact ⟨_, rfl⟩
    · rw [Regex.Item.run, hrun]
      exact ⟨_, rfl⟩
  | bare op spec =>
    have hop : op.dropsEmptyEquals = true := hshaped
    rw [text, part, Part.item, if_pos hop, Regex.Item.run, List.nil_append, hnext]
    -- If the slot can be taken it is, and otherwise it is passed over.
    cases (Text.stripFront ['='] rest).bind fun rest =>
        ((Part.slot op spec seen).run next rest).map (Regex.capture (Part.slot op spec seen)) with
    | none => exact ⟨_, rfl⟩
    | some captures => exact ⟨captures, rfl⟩

namespace Layout

theorem exists_run_flatMap_text {split : Split} (hshaped : ∀ w ∈ split, w.Shaped) (seen : Seen) :
    ∃ captures, (regex seen (split.map Written.part)).run (split.flatMap Written.text) =
      some captures := by
  induction split generalizing seen with
  | nil => exact ⟨[], rfl⟩
  | cons w split ih =>
    have hw : w.Shaped := hshaped w List.mem_cons_self
    have hsplit : ∀ w ∈ split, w.Shaped := fun w hw => hshaped w (List.mem_cons_of_mem _ hw)
    obtain ⟨later, hlater⟩ := ih hsplit (seen ++ w.part.names)
    rw [List.map_cons, regex, List.flatMap_cons, Regex.run]
    exact Written.exists_run_item hw hlater

/-- The texts that a row matches are the ones that split along it. -/
theorem exists_run_iff {parts : Layout} {seen : Seen} {s : Text} :
    (∃ captures, (regex seen parts).run s = some captures) ↔
      ∃ split : Split, split.map Written.part = parts ∧ split.flatMap Written.text = s ∧
        ∀ w ∈ split, w.Shaped := by
  constructor
  · rintro ⟨captures, hrun⟩
    obtain ⟨split, hparts, htext, hshaped, -⟩ := exists_split_of_run hrun
    exact ⟨split, hparts, htext, hshaped⟩
  · rintro ⟨split, rfl, rfl, hshaped⟩
    exact exists_run_flatMap_text hshaped seen

end Layout

/-! ## Templates without modifiers -/

namespace Template

theorem mem_layout_specs {t : Template} {spec : VarSpec} :
    spec ∈ t.layout.specs ↔ ∃ e, Segment.expression e ∈ t.segments ∧ spec ∈ e.specs := by
  rw [layout]
  induction t.segments with
  | nil => simp [Layout.specs]
  | cons segment segments ih =>
    rw [List.flatMap_cons, Layout.specs_append, List.mem_append, ih]
    cases segment with
    | literal l =>
      have hnone : Layout.specs (Segment.literal l).layout = [] := rfl
      simp [hnone]
    | expression e =>
      rw [Segment.layout, Layout.specs_ofSpecs]
      simp only [List.mem_cons, Segment.expression.injEq]
      constructor
      · rintro (hspec | ⟨e', he', hspec⟩)
        · exact ⟨e, .inl rfl, hspec⟩
        · exact ⟨e', .inr he', hspec⟩
      · rintro ⟨e', rfl | he', hspec⟩
        · exact .inl hspec
        · exact .inr ⟨e', he', hspec⟩

/-- Whether no variable has a modifier. -/
def Plain (t : Template) : Prop :=
  ∀ e, Segment.expression e ∈ t.segments → ∀ spec ∈ e.specs, spec.modifier = .none

theorem plain_iff {t : Template} :
    t.Plain ↔ ∀ spec ∈ t.layout.specs, spec.modifier = .none := by
  constructor
  · intro h spec hspec
    obtain ⟨e, he, hspec⟩ := mem_layout_specs.1 hspec
    exact h e he spec hspec
  · intro h e he spec hspec
    exact h spec (mem_layout_specs.2 ⟨e, he, hspec⟩)

instance (t : Template) : Decidable t.Plain :=
  decidable_of_iff _ plain_iff.symm

/-- A template without modifiers matches its own expansions, with one capture for
each place of a variable. -/
theorem exists_match_expand {s : Text} {t : Template} {b : Bindings} (hparse : parse s = .ok t)
    (hplain : t.Plain) (hb : ∀ n ∈ t.names, ∃ text, b.find? n = some (.scalar text)) :
    ∃ r captures, t.regex = .ok r ∧ r.match? (t.expand b) = some captures ∧
      captures.map (fun taken => taken.1.name) = t.occurrences := by
  obtain ⟨r, hr⟩ : ∃ r, t.regex = .ok r := by
    apply exists_regex
    intro spec hspec
    rw [plain_iff.1 hplain spec hspec]
    simp
  have hshaped : ∀ w ∈ t.layout.map (Part.write b), w.Shaped := by
    intro w hw
    have hfits : w.Fits b := fits_of_mem_write_of_plain (plain_iff.1 hplain) hb hw
    exact ((Written.fits_iff []).1 hfits).1
  obtain ⟨captures, hrun⟩ := Layout.exists_run_flatMap_text hshaped []
  rw [Layout.map_part_write, ← expand_eq_flatMap_write hparse hb] at hrun
  refine ⟨r, captures, hr, ?_, ?_⟩
  · rw [match?_eq_run hr, hrun]
  · obtain ⟨split, hsplit, -, -, rfl⟩ := Layout.exists_split_of_run hrun
    rw [Split.map_name_captures, hsplit, map_name_specs_layout]

end Template

end UriTemplate
