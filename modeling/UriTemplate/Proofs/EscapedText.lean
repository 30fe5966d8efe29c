import UriTemplate.Proofs.Layout
import UriTemplate.Proofs.TemplateReading

/-!
# Text that stands for itself

Every text can stand in a template as it is: a backslash goes before each brace and
before each backslash, and all else keeps its own meaning.  The reader takes these
backslashes off again, whatever comes after them, and the template is fixed text
only.  What such a template matches is what it expands to and nothing else, and there
is nothing to bind.

* `Piece.reads_raw`: glyphs that mean themselves before any text are read as they
  are, by induction on the glyphs.
* `Literal.raw_ofText` and `Literal.text_ofText`: the escaped text is a row of such
  glyphs, and they mean the text.
* `Template.extract_of_literals`: extraction with a template of fixed text.
* `Template.parse_escape`: the three together.
-/

namespace UriTemplate

/-! ## Escaped text -/

/-- Whether a character needs a backslash to stand for itself in a template. -/
def Text.IsGuarded (c : Char) : Prop :=
  c = '{' ∨ c = '}' ∨ c = '\\'

instance (c : Char) : Decidable (Text.IsGuarded c) :=
  inferInstanceAs (Decidable (_ ∨ _))

/-- The text with a backslash before each brace and each backslash. -/
def Text.escape (s : Text) : Text :=
  s.flatMap fun c => if IsGuarded c then ['\\', c] else [c]

/-- The glyph that means a character before any text. -/
def Glyph.ofChar (c : Char) : Glyph :=
  if Text.IsGuarded c then .escaped c else .plain c

theorem Glyph.char_ofChar (c : Char) : (ofChar c).char = c := by
  unfold ofChar
  split <;> rfl

theorem Glyph.raw_ofChar (c : Char) :
    (ofChar c).raw = if Text.IsGuarded c then ['\\', c] else [c] := by
  unfold ofChar
  split <;> rfl

theorem Glyph.before_ofChar (c : Char) (s : Text) : (ofChar c).Before s := by
  unfold ofChar
  split
  · rename_i hguarded
    rcases hguarded with rfl | rfl | rfl <;> rfl
  · rename_i hplain
    simp only [Text.IsGuarded, not_or] at hplain
    obtain ⟨hopen, hclose, hslash⟩ := hplain
    simp [Before, hslash, hopen, hclose]

namespace Literal

/-- The run that means a text, whatever comes after it. -/
def ofText (s : Text) : Literal :=
  s.map Glyph.ofChar

theorem text_ofText (s : Text) : (ofText s).text = s := by
  rw [text, ofText, List.map_map]
  exact List.map_id'' Glyph.char_ofChar s

theorem raw_ofText (s : Text) : (ofText s).raw = s.escape := by
  simp only [raw, ofText, List.flatMap_map, Text.escape, Glyph.raw_ofChar]

end Literal

/-- Glyphs that mean themselves before any text are read one after another. -/
theorem Piece.reads_raw {l : Literal} (h : ∀ g ∈ l, ∀ s, g.Before s) :
    Reads l.raw (l.map .glyph) := by
  induction l with
  | nil => exact .nil
  | cons g l ih =>
    obtain ⟨hg, hl⟩ := List.forall_mem_cons.1 h
    exact .glyph (hg _) (ih hl)

namespace Segment

theorem expression_notMem_ofPieces_map_glyph (l : Literal) (e : Expression) :
    expression e ∉ ofPieces (l.map .glyph) := by
  induction l with
  | nil => exact List.not_mem_nil
  | cons g l ih => rwa [List.map_cons, ofPieces, expression_mem_prepend]

theorem flatMap_expand_prepend (b : Bindings) (g : Glyph) (segments : List Segment) :
    (prepend g segments).flatMap (expand b) = g.char :: segments.flatMap (expand b) := by
  unfold prepend
  split <;> simp [expand, Literal.text]

/-- Glyphs expand to what they mean. -/
theorem flatMap_expand_ofPieces_map_glyph (b : Bindings) (l : Literal) :
    (ofPieces (l.map .glyph)).flatMap (expand b) = l.text := by
  induction l with
  | nil => rfl
  | cons g l ih =>
    rw [List.map_cons, ofPieces, flatMap_expand_prepend, ih]
    rfl

end Segment

/-! ## Extraction with fixed text -/

/-- Fixed text in front of a regex takes itself off. -/
theorem Regex.run_literal_cons {t back u : Text} {r : Regex}
    (h : ∀ u, r.run u = if u = back then some [] else none) :
    Regex.run (.literal t :: r) u = if u = t ++ back then some [] else none := by
  rw [run, Item.run]
  cases hfront : Text.stripFront t u with
  | some rest =>
    obtain rfl := Text.stripFront_eq_some.1 hfront
    simp [h]
  | none =>
    have hne : u ≠ t ++ back := by
      rintro rfl
      rw [Text.stripFront_eq_some.2 rfl] at hfront
      cases hfront
    rw [if_neg hne]
    rfl

namespace Template

/-- Segments of fixed text have a regex that matches their expansion only. -/
theorem exists_regexFrom_of_literals {segments : List Segment}
    (h : ∀ e, Segment.expression e ∉ segments) (b : Bindings) (source : Text) (seen : Seen) :
    ∃ r, regexFrom source seen segments = .ok r ∧
      ∀ u, r.run u = if u = segments.flatMap (Segment.expand b) then some [] else none := by
  induction segments with
  | nil => exact ⟨[], rfl, fun u => by cases u <;> rfl⟩
  | cons segment segments ih =>
    cases segment with
    | literal l =>
      obtain ⟨r, hr, hrun⟩ := ih fun e he => h e (List.mem_cons_of_mem _ he)
      refine ⟨.literal l.text :: r, ?_, fun u => Regex.run_literal_cons hrun⟩
      rw [regexFrom, hr]
      rfl
    | expression e => exact absurd List.mem_cons_self (h e)

/-- A template of fixed text is matched by its expansion only, and binds nothing. -/
theorem extract_of_literals {t : Template} (h : ∀ e, Segment.expression e ∉ t.segments)
    (b : Bindings) (u : Text) :
    t.extract u = if u = t.expand b then .ok ∅ else .error (.mismatch u) := by
  obtain ⟨r, hr, hrun⟩ := exists_regexFrom_of_literals h b t.source []
  have hmatch : r.match? u = if u = t.expand b then some [] else none := by
    rw [Regex.match?_eq, hrun]
    rfl
  by_cases hu : u = t.expand b
  · rw [if_pos hu] at hmatch ⊢
    exact extract_of_match?_eq_some hr hmatch
  · rw [if_neg hu] at hmatch ⊢
    exact extract_of_match?_eq_none hr hmatch

/-- An escaped text is a template that stands for the text and for no other. -/
theorem parse_escape (s : Text) :
    ∃ t, parse s.escape = .ok t ∧ (∀ b, t.expand b = s) ∧
      ∀ u, t.extract u = if u = s then .ok ∅ else .error (.mismatch u) := by
  have hreads : Piece.Reads s.escape ((Literal.ofText s).map .glyph) := by
    rw [← Literal.raw_ofText]
    refine Piece.reads_raw fun g hg rest => ?_
    obtain ⟨c, -, rfl⟩ := List.mem_map.1 hg
    exact Glyph.before_ofChar c rest
  have hexpand (b : Bindings) : expand ⟨s.escape, Segment.ofPieces
      ((Literal.ofText s).map .glyph)⟩ b = s := by
    rw [expand, Segment.flatMap_expand_ofPieces_map_glyph, Literal.text_ofText]
  refine ⟨_, ?_, hexpand, fun u => ?_⟩
  · rw [parse, Piece.readAll_eq_ok.2 hreads]
    rfl
  · rw [extract_of_literals (Segment.expression_notMem_ofPieces_map_glyph _) ∅, hexpand]

-- The first backslash takes the second one, and the plus sign is on its own.
example : (parse (Text.escape "\\+\x7b".toList)).map segments =
    .ok [.literal [.escaped '\\', .plain '+', .escaped '\x7b']] :=
  rfl

end Template

end UriTemplate
