import Mathlib.Algebra.Group.Nat.Even
import Mathlib.Data.List.DropRight
import UriTemplate.Proofs.Layout
import UriTemplate.Proofs.TemplateReading

/-!
# Templates one after another

The reader carries nothing over from what it has read: a token ends at its brace, and
a glyph is told from the character after it at most.  Only a backslash at the end of
a text looks at what comes next, and it stands for itself just when nothing takes it,
which is when the backslashes at the end are odd in number.  Where they are even, the
pieces of a text stay the same whatever is written after it, and the segments of two
texts meet in at most one run of glyphs.

* `Piece.Reads.not_endsInBackslash`: even backslashes at the end take each other.  The
  invariant is that their number is even before each piece.
* `Piece.Reads.append`: pieces of texts one after another.
* `Segment.ofPieces_append`: their segments, in which runs that meet are one.
* `foldl_unless_contains`: names that are not yet there come after those that are.
* `Template.parse_append`: the template of two texts.
-/

namespace UriTemplate

/-! ## Backslashes at the end -/

namespace Text

/-- The number of backslashes that a text ends in. -/
def trailingBackslashes (s : Text) : Nat :=
  (s.rtakeWhile (· == '\\')).length

theorem trailingBackslashes_concat (s : Text) (c : Char) :
    trailingBackslashes (s ++ [c]) = if c = '\\' then s.trailingBackslashes + 1 else 0 := by
  rw [trailingBackslashes, List.rtakeWhile_concat]
  by_cases hc : c = '\\'
  · simp [hc, trailingBackslashes]
  · simp [hc]

/-- What stands before another character is not at the end. -/
theorem trailingBackslashes_append_cons {c : Char} (hc : c ≠ '\\') (front s : Text) :
    trailingBackslashes (front ++ c :: s) = trailingBackslashes (c :: s) := by
  induction s using List.reverseRecOn with
  | nil =>
    rw [trailingBackslashes_concat, ← List.nil_append [c], trailingBackslashes_concat, if_neg hc,
      if_neg hc]
  | append_singleton s d ih =>
    rw [← List.cons_append, ← List.append_assoc, trailingBackslashes_concat, ih,
      trailingBackslashes_concat]

end Text

theorem Glyph.even_trailingBackslashes_append_raw {g : Glyph} (hg : g ≠ .plain '\\') {front : Text}
    (h : Even front.trailingBackslashes) : Even (front ++ g.raw).trailingBackslashes := by
  cases g with
  | plain c =>
    have hc : c ≠ '\\' := fun heq => hg (heq ▸ rfl)
    rw [raw, Text.trailingBackslashes_concat, if_neg hc]
    exact Even.zero
  | escaped c =>
    rw [raw, List.append_cons, Text.trailingBackslashes_concat]
    split
    · rw [Text.trailingBackslashes_concat, if_pos rfl, Nat.add_assoc]
      exact h.add (by decide)
    · exact Even.zero

/-- Only a backslash at the end of a text looks at what comes after the text. -/
theorem Glyph.Before.append {g : Glyph} {s : Text} (h : g.Before s)
    (hend : s = [] → g ≠ .plain '\\') (t : Text) : g.Before (s ++ t) := by
  cases g with
  | escaped c => exact h
  | plain c =>
    cases s with
    | cons d s => exact h
    | nil =>
      have hc : c ≠ '\\' := fun heq => hend rfl (heq ▸ rfl)
      simp only [Before, if_neg hc] at h ⊢
      exact h

/-! ## Pieces -/

namespace Piece

/-- Whether pieces end in a backslash that stands for itself. -/
def EndsInBackslash (ps : List Piece) : Prop :=
  ps.getLast? = some (.glyph (.plain '\\'))

theorem endsInBackslash_cons {p : Piece} {ps : List Piece} :
    EndsInBackslash (p :: ps) ↔ EndsInBackslash ps ∨ ps = [] ∧ p = .glyph (.plain '\\') := by
  cases ps with
  | nil => simp [EndsInBackslash]
  | cons q ps => simp [EndsInBackslash, List.getLast?_cons]

/-- Backslashes that are even in number take each other from any place on that has an
even number of them before it. -/
theorem Reads.not_endsInBackslash {s : Text} {ps : List Piece} (h : Reads s ps) {front : Text}
    (hfront : Even front.trailingBackslashes) (heven : Even (front ++ s).trailingBackslashes) :
    ¬EndsInBackslash ps := by
  induction h generalizing front with
  | nil => simp [EndsInBackslash]
  | @glyph g s ps hbefore hrest ih =>
    rw [endsInBackslash_cons, not_or]
    by_cases hg : g = .plain '\\'
    · -- The backslash is the last character, or the count starts again after it.
      subst hg
      cases s with
      | nil =>
        rw [Glyph.raw, List.append_nil, Text.trailingBackslashes_concat, if_pos rfl,
          Nat.even_add_one] at heven
        exact absurd hfront heven
      | cons d s =>
        have hd : d ≠ '\\' := by
          rintro rfl
          have hescapable : isEscapable '\\' = false := hbefore '\\' rfl
          cases hescapable
        rw [← List.append_assoc, Text.trailingBackslashes_append_cons hd] at heven
        have hnone : Even (Text.trailingBackslashes []) := Even.zero
        refine ⟨ih hnone heven, ?_⟩
        rintro ⟨rfl, -⟩
        cases hrest.flatMap_raw
    · rw [← List.append_assoc] at heven
      refine ⟨ih (Glyph.even_trailingBackslashes_append_raw hg hfront) heven, ?_⟩
      rintro ⟨-, heq⟩
      exact hg (Piece.glyph.inj heq)
  | @expression body s e ps _ _ _ ih =>
    have hclosed : Even (front ++ '{' :: body ++ ['}']).trailingBackslashes := by
      rw [Text.trailingBackslashes_concat, if_neg (by decide)]
      exact Even.zero
    rw [endsInBackslash_cons, not_or]
    refine ⟨ih hclosed (by simpa using heven), ?_⟩
    rintro ⟨-, heq⟩
    cases heq

theorem Reads.eq_nil {ps : List Piece} (h : Reads [] ps) : ps = [] := by
  have hread := readAll_eq_ok.2 h
  rw [readAll] at hread
  exact (Except.ok.inj hread).symm

/-- What is read from two texts is read from them one after the other, unless a
backslash at the joint could take what comes next. -/
theorem Reads.append {s t : Text} {ps qs : List Piece} (h : Reads s ps) (h' : Reads t qs)
    (hend : ¬EndsInBackslash ps) : Reads (s ++ t) (ps ++ qs) := by
  induction h with
  | nil => exact h'
  | @glyph g s ps hbefore hrest ih =>
    rw [endsInBackslash_cons, not_or] at hend
    obtain ⟨hend, hlast⟩ := hend
    rw [List.append_assoc]
    refine .glyph (hbefore.append ?_ t) (ih hend)
    rintro rfl rfl
    exact hlast ⟨hrest.eq_nil, rfl⟩
  | @expression body s e ps hbody he _ ih =>
    rw [endsInBackslash_cons, not_or] at hend
    rw [List.append_assoc, List.cons_append]
    exact .expression hbody he (ih hend.1)

end Piece

/-! ## Segments -/

namespace Segment

/-- Segments one after another; the runs that meet at the joint are one. -/
def join : List Segment → List Segment → List Segment
  | [], right => right
  | [.literal l], .literal l' :: right => .literal (l ++ l') :: right
  | segment :: left, right => segment :: join left right

theorem join_prepend (g : Glyph) (left right : List Segment) :
    join (prepend g left) right = prepend g (join left right) := by
  cases left with
  | nil =>
    cases right with
    | nil => rfl
    | cons segment right => cases segment <;> rfl
  | cons segment left =>
    cases segment with
    | expression e => rfl
    | literal l =>
      cases left with
      | cons next left => rfl
      | nil =>
        cases right with
        | nil => rfl
        | cons segment right => cases segment <;> rfl

/-- Runs are gathered on either side of a joint and meet there. -/
theorem ofPieces_append (ps qs : List Piece) :
    ofPieces (ps ++ qs) = join (ofPieces ps) (ofPieces qs) := by
  induction ps with
  | nil => rfl
  | cons p ps ih =>
    cases p with
    | glyph g => rw [List.cons_append, ofPieces, ih, ofPieces, join_prepend]
    | expression e =>
      rw [List.cons_append, ofPieces, ih, ofPieces]
      rfl

/-- What is taken from runs glyph by glyph is the same before and after they meet. -/
theorem flatMap_join {α : Type} {f : Segment → List α}
    (hf : ∀ l l', f (.literal (l ++ l')) = f (.literal l) ++ f (.literal l'))
    (left right : List Segment) :
    (join left right).flatMap f = left.flatMap f ++ right.flatMap f := by
  fun_induction join left right with
  | case1 right => rfl
  | case2 l l' right => simp [hf]
  | case3 segment left right _ ih => rw [List.flatMap_cons, ih, List.flatMap_cons, List.append_assoc]

/-- The expression of a segment. -/
def expression? : Segment → Option Expression
  | literal _ => none
  | expression e => some e

end Segment

/-! ## Templates -/

/-- Names that are not yet there come after those that are. -/
theorem foldl_unless_contains (names seen : List Name) :
    names.foldl (fun seen n => if seen.contains n then seen else seen ++ [n]) seen =
      seen ++ (names.foldl (fun seen n => if seen.contains n then seen else seen ++ [n]) []).filter
        fun n => decide (n ∉ seen) := by
  induction names using List.reverseRecOn with
  | nil => simp
  | append_singleton names n ih =>
    have hmem := mem_foldl_unless_contains (n := n) names
    simp only [List.contains_iff_mem] at hmem ih ⊢
    simp only [List.foldl_append, List.foldl_cons, List.foldl_nil, hmem, List.not_mem_nil, false_or]
    by_cases hnames : n ∈ names
    · simpa [hnames] using ih
    by_cases hseen : n ∈ seen
    · simpa [hnames, hseen] using ih
    · simp [hnames, hseen, ih]

namespace Template

/-- The expressions from left to right. -/
def expressions (t : Template) : List Expression :=
  t.segments.filterMap Segment.expression?

/-- Whether a template is made of two others, one after the other. -/
structure Joins (t t₁ t₂ : Template) : Prop where
  segments : t.segments = Segment.join t₁.segments t₂.segments
  expressions : t.expressions = t₁.expressions ++ t₂.expressions
  expand : ∀ b, t.expand b = t₁.expand b ++ t₂.expand b
  /-- The variables of the second come after those of the first, if they are new. -/
  names : t.names = t₁.names ++ t₂.names.filter fun n => decide (n ∉ t₁.names)

theorem joins_of_segments {t t₁ t₂ : Template}
    (h : t.segments = Segment.join t₁.segments t₂.segments) : t.Joins t₁ t₂ where
  segments := h
  expressions := by
    simp only [Template.expressions, List.filterMap_eq_flatMap_toList, h]
    exact Segment.flatMap_join (fun _ _ => rfl) _ _
  expand b := by
    rw [Template.expand, h]
    refine Segment.flatMap_join (fun l l' => ?_) _ _
    exact List.map_append
  names := by
    have hoccurrences : t.occurrences = t₁.occurrences ++ t₂.occurrences := by
      rw [occurrences, h]
      exact Segment.flatMap_join (fun _ _ => rfl) _ _
    rw [Template.names, hoccurrences, List.foldl_append, foldl_unless_contains]
    rfl

/-- Two texts that are templates make one together, if the first does not end in an
odd number of backslashes. -/
theorem parse_append {s u : Text} {t₁ t₂ : Template} (h₁ : parse s = .ok t₁)
    (h₂ : parse u = .ok t₂) (heven : Even s.trailingBackslashes) :
    ∃ t, parse (s ++ u) = .ok t ∧ t.Joins t₁ t₂ := by
  obtain ⟨ps, hps, hleft⟩ := reads_of_parse h₁
  obtain ⟨qs, hqs, hright⟩ := reads_of_parse h₂
  have hnone : Even (Text.trailingBackslashes []) := Even.zero
  have hend : ¬Piece.EndsInBackslash ps := hps.not_endsInBackslash hnone heven
  have hreads := hps.append hqs hend
  refine ⟨⟨s ++ u, Segment.ofPieces (ps ++ qs)⟩, ?_, joins_of_segments ?_⟩
  · rw [parse, Piece.readAll_eq_ok.2 hreads]
    rfl
  · rw [hleft, hright, ← Segment.ofPieces_append]

/-- Two backslashes meet a third one, which takes the brace after it. -/
theorem parse_append_three_backslashes :
    ∃ t₁ t₂ t, parse "\x7by\x7d\x7bx\x7d\\\\".toList = .ok t₁ ∧
      parse "\\\x7b\x7b?x,z:2\x7d".toList = .ok t₂ ∧
      Even (Text.trailingBackslashes "\x7by\x7d\x7bx\x7d\\\\".toList) ∧
      parse ("\x7by\x7d\x7bx\x7d\\\\".toList ++ "\\\x7b\x7b?x,z:2\x7d".toList) = .ok t ∧
      t.Joins t₁ t₂ ∧ t.names.map Name.text = [['y'], ['x'], ['z']] := by
  have heven : Even (Text.trailingBackslashes "\x7by\x7d\x7bx\x7d\\\\".toList) := by decide
  obtain ⟨t, ht, hjoins⟩ := parse_append (s := "\x7by\x7d\x7bx\x7d\\\\".toList)
    (u := "\\\x7b\x7b?x,z:2\x7d".toList) rfl rfl heven
  exact ⟨_, _, t, rfl, rfl, heven, ht, hjoins, by rw [hjoins.names]; rfl⟩

-- A single backslash takes the brace of the text after it.
example : parse ("\\".toList ++ "\x7bx\x7d".toList) =
    .error (.unrecognizedExpression "\x7d".toList) :=
  rfl

end Template

end UriTemplate
