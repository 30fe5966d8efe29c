import Mathlib.Data.List.Basic
import UriTemplate.Proofs.Layout
import UriTemplate.Proofs.PercentCoding
import UriTemplate.Proofs.TemplateReading

/-!
# Splits

A text of a template is split along the layout: each part of the row has its
share of the text.  The share of a value is a row of atoms, in any of the
spellings that decode to the value.  Expansion writes one split of these, the
one with canonical spellings.

* `Written.canonical_eq_write`: the canonical spelling of a share is what
  expansion writes in its place.  A prefix loses nothing by being cut again, as
  `N` atoms are at most `N` characters.
* `Template.expand_eq_flatMap_write`: an expansion is the row with each part
  written in its place.
-/

namespace UriTemplate

open Percent

/-! ## Shares of a text -/

/-- Whether so many atoms are what is asked for. -/
def Count.Allows : Count → Nat → Prop
  | any, _ => True
  | exactly n, m => m = n

/-- A row of atoms of the operator's class, as many as the variable asks for. -/
def IsPiece (op : Operator) (spec : VarSpec) (piece : Text) : Prop :=
  ∃ n, AtomRow op.profile.allow n piece ∧ spec.modifier.count.Allows n

/-- The class of the pieces of a part.  Fixed text has no pieces, and any class would do. -/
def Part.charClass : Part → CharClass
  | fixed _ => .unreserved
  | value op _ => op.profile.allow

/-- A part of a row with its share of a text. -/
inductive Written where
  | fixed (t : Text)
  | value (op : Operator) (spec : VarSpec) (piece : Text)
  /-- A name without `=`, which stands for the empty value. -/
  | bare (op : Operator) (spec : VarSpec)
deriving DecidableEq

/-- The parts of a row with their shares of a text. -/
abbrev Split := List Written

namespace Written

/-- The part. -/
def part : Written → Part
  | fixed t => .fixed t
  | value op spec _ | bare op spec => .value op spec

/-- The encoded value. -/
def piece : Written → Text
  | fixed _ | bare _ _ => []
  | value _ _ piece => piece

/-- The share. -/
def text : Written → Text
  | fixed t => t
  | value op _ piece => if op.dropsEmptyEquals then '=' :: piece else piece
  | bare _ _ => []

/-- What stands in the share before the encoded value. -/
def lead : Written → Text
  | fixed t => t
  | value op _ _ => if op.dropsEmptyEquals then ['='] else []
  | bare _ _ => []

theorem text_eq (w : Written) : w.text = w.lead ++ w.piece := by
  cases w with
  | fixed t => exact (List.append_nil t).symm
  | value op spec piece =>
    rw [text, lead]
    split <;> rfl
  | bare op spec => rfl

/-- Whether the share has the form that its part asks for. -/
def Shaped : Written → Prop
  | fixed _ => True
  | value op spec piece => IsPiece op spec piece
  | bare op _ => op.dropsEmptyEquals = true

/-- Whether the share spells the value of its variable. -/
def Fits (b : Bindings) : Written → Prop
  | fixed _ => True
  | value op spec piece =>
    IsPiece op spec piece ∧ ∃ t, decode piece = some t ∧ b.find? spec.name = some (.scalar t)
  | bare op spec => op.dropsEmptyEquals = true ∧ b.find? spec.name = some (.scalar [])

/-- A value in its place.  Nothing follows the name of an empty one if the
operator drops its `=`. -/
def ofPiece (op : Operator) (spec : VarSpec) (piece : Text) : Written :=
  if op.dropsEmptyEquals ∧ piece = [] then bare op spec else value op spec piece

/-- The share in the spelling of expansions. -/
def canonical : Written → Written
  | value op spec piece =>
    ofPiece op spec (encode op.profile.allow ((decode piece).getD []))
  | w => w

end Written

/-- The piece of a share is a row of atoms. -/
theorem Written.Shaped.exists_atomRow {w : Written} (h : w.Shaped) :
    ∃ n, AtomRow w.part.charClass n w.piece := by
  cases w with
  | fixed t => exact ⟨0, .nil⟩
  | value op spec piece =>
    obtain ⟨n, hrow, -⟩ := h
    exact ⟨n, hrow⟩
  | bare op spec => exact ⟨0, .nil⟩

/-- The text of a value, cut as the variable asks for and encoded. -/
def encodedValue (b : Bindings) (op : Operator) (spec : VarSpec) : Text :=
  op.profile.enc (spec.modifier.truncate ((b.get spec.name).scalar?.getD []))

/-- The part with what an expansion writes in its place. -/
def Part.write (b : Bindings) : Part → Written
  | fixed t => .fixed t
  | value op spec => .ofPiece op spec (encodedValue b op spec)

/-! ## Canonical spellings -/

theorem Modifier.truncate_eq_self {m : Modifier} {n : Nat} {t : Text} (hn : m.count.Allows n)
    (ht : t.length ≤ n) : m.truncate t = t := by
  cases m with
  | none => rfl
  | explode => rfl
  | upTo limit =>
    obtain rfl : n = limit.val := hn
    exact List.take_of_length_le ht

theorem Bindings.get_of_find? {b : Bindings} {n : Name} {v : Value} (h : b.find? n = some v) :
    b.get n = v := by
  rw [get, h]
  rfl

namespace Written

@[simp] theorem part_ofPiece (op : Operator) (spec : VarSpec) (piece : Text) :
    (ofPiece op spec piece).part = .value op spec := by
  unfold ofPiece
  split <;> rfl

/-- The canonical spelling of a share is what expansion writes in its place. -/
theorem canonical_eq_write {b : Bindings} {w : Written} (h : w.Fits b) :
    w.canonical = w.part.write b := by
  cases w with
  | fixed t => rfl
  | value op spec piece =>
    obtain ⟨⟨n, hrow, hcount⟩, t, hdecode, hfind⟩ := h
    have htruncate := Modifier.truncate_eq_self hcount (hrow.length_decode_le hdecode)
    have hencoded : encodedValue b op spec = encode op.profile.allow t := by
      rw [encodedValue, Bindings.get_of_find? hfind, Value.scalar?, Option.getD_some, htruncate,
        Profile.enc]
    rw [canonical, part, Part.write, hencoded, hdecode, Option.getD_some]
  | bare op spec =>
    obtain ⟨hop, hfind⟩ := h
    have hencoded : encodedValue b op spec = [] := by
      rw [encodedValue, Bindings.get_of_find? hfind, Value.scalar?, Option.getD_some]
      cases spec.modifier <;> simp [Modifier.truncate, Profile.enc]
    rw [canonical, part, Part.write, hencoded, ofPiece, if_pos ⟨hop, rfl⟩]
    simp

end Written

/-! ## Expansions -/

@[simp] theorem Part.part_write (b : Bindings) (part : Part) : (part.write b).part = part := by
  cases part with
  | fixed t => rfl
  | value op spec => exact Written.part_ofPiece op spec _

theorem Layout.map_part_write (b : Bindings) (parts : Layout) :
    (parts.map (Part.write b)).map Written.part = parts := by
  simp [Function.comp_def]

theorem flatMap_intercalate {α β : Type} (f : α → List β) (sep : α) (rows : List (List α)) :
    (List.intercalate [sep] rows).flatMap f =
      List.intercalate (f sep) (rows.map fun row => row.flatMap f) := by
  induction rows with
  | nil => rfl
  | cons row rows ih =>
    cases rows with
    | nil => simp
    | cons next rows =>
      rw [List.map_cons] at ih
      rw [List.intercalate_cons_cons, List.flatMap_append, List.flatMap_append, ih, List.map_cons,
        List.map_cons, List.intercalate_cons_cons]
      simp

/-- The text that expansion writes for a part. -/
def Part.expand (b : Bindings) (part : Part) : Text :=
  (part.write b).text

namespace Layout

/-- A variable after its name is the piece of it. -/
theorem flatMap_expand_ofSpec (b : Bindings) (op : Operator) (spec : VarSpec) :
    (ofSpec op spec).flatMap (Part.expand b) =
      op.profile.labelled spec.name.text (encodedValue b op spec) := by
  by_cases hempty : encodedValue b op spec = [] <;>
    cases op <;> simp [ofSpec, Part.expand, Part.write, Written.ofPiece, Written.text,
      Operator.profile, Operator.dropsEmptyEquals, Profile.labelled, Profile.attach, hempty]

/-- Variables that are bound to scalars write their row. -/
theorem flatMap_expand_ofSpecs {b : Bindings} {op : Operator} {specs : List VarSpec}
    (hne : specs ≠ []) (h : ∀ spec ∈ specs, ∃ t, b.find? spec.name = some (.scalar t)) :
    (ofSpecs op specs).flatMap (Part.expand b) = op.profile.expand specs b := by
  have hpieces : op.profile.pieces specs b =
      specs.map fun spec => op.profile.labelled spec.name.text (encodedValue b op spec) := by
    refine List.filterMap_eq_map_iff_forall_eq_some.2 fun spec hspec => ?_
    obtain ⟨t, ht⟩ := h spec hspec
    rw [encodedValue, Bindings.get_of_find? ht]
    rfl
  rw [ofSpecs, List.flatMap_cons, flatMap_intercalate, List.map_map, Profile.expand, hpieces]
  obtain ⟨first, rest, rfl⟩ := List.exists_cons_of_ne_nil hne
  simp [Function.comp_def, flatMap_expand_ofSpec, Part.expand, Part.write, Written.text]

end Layout

/-- A template that is read from text has a variable in each expression. -/
theorem Template.specs_ne_nil_of_parse {source : Text} {t : Template}
    (h : Template.parse source = .ok t) {e : Expression} (he : Segment.expression e ∈ t.segments) :
    e.specs ≠ [] := by
  obtain ⟨front, back, hsegments⟩ := List.append_of_mem he
  obtain ⟨body, -, -, hparse, -⟩ := (spells_of_parse h).token front e back hsegments
  exact Expression.specs_ne_nil_of_parse hparse

/-- An expansion is the row with each part written in its place. -/
theorem Template.expand_eq_flatMap_expand {source : Text} {t : Template}
    (h : Template.parse source = .ok t) {b : Bindings}
    (hb : ∀ n ∈ t.names, ∃ text, b.find? n = some (.scalar text)) :
    t.expand b = t.layout.flatMap (Part.expand b) := by
  have hsegment : ∀ segment ∈ t.segments,
      segment.expand b = segment.layout.flatMap (Part.expand b) := by
    intro segment hsegment
    cases segment with
    | literal l => simp [Segment.expand, Segment.layout, Part.expand, Part.write, Written.text]
    | expression e =>
      rw [Segment.expand, Expression.expand_eq_flat, Segment.layout,
        Layout.flatMap_expand_ofSpecs (specs_ne_nil_of_parse h hsegment)]
      intro spec hspec
      refine hb spec.name (mem_names.2 (List.mem_flatMap.2 ⟨_, hsegment, ?_⟩))
      rw [Segment.names, Expression.names_eq]
      exact List.mem_map_of_mem hspec
  rw [expand, layout, List.flatMap_assoc]
  exact List.flatMap_congr hsegment

theorem Template.expand_eq_flatMap_write {source : Text} {t : Template}
    (h : Template.parse source = .ok t) {b : Bindings}
    (hb : ∀ n ∈ t.names, ∃ text, b.find? n = some (.scalar text)) :
    t.expand b = (t.layout.map (Part.write b)).flatMap Written.text := by
  rw [expand_eq_flatMap_expand h hb, List.flatMap_map]
  rfl

/-- Expansion writes the canonical spelling of every split that spells the same
values. -/
theorem Template.expand_eq_canonical {source : Text} {t : Template}
    (h : Template.parse source = .ok t) {b : Bindings}
    (hb : ∀ n ∈ t.names, ∃ text, b.find? n = some (.scalar text)) {split : Split}
    (hparts : split.map Written.part = t.layout) (hfits : ∀ w ∈ split, w.Fits b) :
    t.expand b = (split.map Written.canonical).flatMap Written.text := by
  rw [expand_eq_flatMap_expand h hb, ← hparts, List.flatMap_map, List.flatMap_map]
  refine List.flatMap_congr fun w hw => ?_
  rw [Written.canonical_eq_write (hfits w hw), Part.expand]

end UriTemplate
