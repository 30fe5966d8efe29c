import UriTemplate.Proofs.ExpressionReading
import UriTemplate.Template

/-!
# Reading templates and writing them

A template is read from left to right.  `Piece.Reads` says what is read from a
text without saying how: the text is a row of glyphs and of expressions in
braces, and each glyph is one that the text after it leaves as it is.
`Piece.readAll_eq_ok` says that the reader finds exactly these rows.

What a template keeps of its text follows by induction on the row.

* `Piece.Reads.flatMap_raw` and `Segment.flatMap_raw_ofPieces`: no character is
  lost, so the parts written one after another are the text.
* `Segment.ofPieces_alternate`: neighbouring glyphs are in one run.
* `Literal.text_eq_unescape`: a run means what its own text means.
* `Template.spells_of_parse`: the three together, for the parts of a template.
-/

namespace UriTemplate

/-! ## What is read -/

/-- Whether a glyph is read as such before a text.  A backslash stands for itself
only if the text after it does not begin with a character that it takes. -/
def Glyph.Before (s : Text) : Glyph → Prop
  | .escaped c => isEscapable c = true
  | .plain c =>
    if c = '\\' then ∀ d, s.head? = some d → isEscapable d = false else c ≠ '{' ∧ c ≠ '}'

/-- Less of the text after it changes nothing for a glyph. -/
theorem Glyph.Before.of_append {g : Glyph} {s rest : Text} (h : g.Before (s ++ rest)) :
    g.Before s := by
  cases g with
  | escaped c => exact h
  | plain c =>
    cases s with
    | nil =>
      simp only [Glyph.Before] at h ⊢
      split
      · simp
      · rename_i hslash
        rwa [if_neg hslash] at h
    | cons d s => exact h

namespace Piece

/-- The piece as it is written. -/
def raw : Piece → Text
  | glyph g => g.raw
  | expression e => e.text

/-- The pieces that a text is read as. -/
inductive Reads : Text → List Piece → Prop where
  | nil : Reads [] []
  /-- A glyph before the pieces of the text after it. -/
  | glyph {g : Glyph} {s : Text} {ps : List Piece} (hbefore : g.Before s) (hrest : Reads s ps) :
    Reads (g.raw ++ s) (.glyph g :: ps)
  /-- A token runs from an opening brace to the next closing one. -/
  | expression {body s : Text} {e : Expression} {ps : List Piece} (hbody : '}' ∉ body)
    (he : Expression.parse ('{' :: body ++ ['}']) = .ok e) (hrest : Reads s ps) :
    Reads ('{' :: body ++ '}' :: s) (.expression e :: ps)

/-! ## The reader, case by case -/

/-- Every text begins with a glyph, with a brace, or not at all. -/
theorem readAll_cases (s : Text) :
    s = [] ∨ (∃ (g : Glyph) (rest : Text), s = g.raw ++ rest ∧ g.Before rest) ∨
      (∃ rest, s = '{' :: rest) ∨ (∃ rest, s = '}' :: rest) := by
  cases s with
  | nil => exact .inl rfl
  | cons c rest =>
    by_cases hopen : c = '{'
    · exact .inr (.inr (.inl ⟨rest, by rw [hopen]⟩))
    by_cases hclose : c = '}'
    · exact .inr (.inr (.inr ⟨rest, by rw [hclose]⟩))
    refine .inr (.inl ?_)
    by_cases hslash : c = '\\'
    · subst hslash
      cases rest with
      | nil => exact ⟨.plain '\\', [], rfl, by simp [Glyph.Before]⟩
      | cons d rest =>
        by_cases hd : isEscapable d = true
        · exact ⟨.escaped d, rest, rfl, hd⟩
        · exact ⟨.plain '\\', d :: rest, rfl, by simpa [Glyph.Before] using hd⟩
    · exact ⟨.plain c, rest, rfl, by simp [Glyph.Before, hslash, hopen, hclose]⟩

/-- A glyph is taken off by itself. -/
theorem readAll_raw_append {g : Glyph} {s : Text} (h : g.Before s) :
    readAll (g.raw ++ s) = do return .glyph g :: (← readAll s) := by
  cases g with
  | escaped c =>
    have hc : isEscapable c = true := h
    rw [Glyph.raw, List.cons_append, List.cons_append, List.nil_append, readAll, if_pos hc]
  | plain c =>
    by_cases hslash : c = '\\'
    · subst hslash
      cases s with
      | nil => rfl
      | cons d s =>
        have hd : isEscapable d = false := by simpa [Glyph.Before] using h
        rw [Glyph.raw, List.cons_append, List.nil_append, readAll, if_neg (by simp [hd])]
    · have hbrace : c ≠ '{' ∧ c ≠ '}' := by simpa [Glyph.Before, hslash] using h
      rw [Glyph.raw, List.cons_append, List.nil_append, readAll]
      · exact fun d rest hc _ => hslash hc
      · exact hbrace.1
      · exact hbrace.2

/-- A token that is closed ends at the first closing brace. -/
theorem readToken_append {body : Text} (h : '}' ∉ body) (opened token rest : Text) :
    readToken opened token (body ++ '}' :: rest) = do
      let e ← Expression.parse (token ++ body ++ ['}'])
      return .expression e :: (← readAll rest) := by
  induction body generalizing token with
  | nil => rw [List.nil_append, readToken, List.append_nil]
  | cons c body ih =>
    have hc : c ≠ '}' := fun heq => h (by simp [heq])
    have hbody : '}' ∉ body := fun hmem => h (by simp [hmem])
    rw [List.cons_append, readToken, ih hbody, List.append_assoc token, List.singleton_append]
    exact hc

theorem readToken_of_not_mem {s : Text} (h : '}' ∉ s) (opened token : Text) :
    readToken opened token s = .error (.unrecognizedExpression opened) := by
  induction s generalizing token with
  | nil => rw [readToken]
  | cons c s ih =>
    have hc : c ≠ '}' := fun heq => h (by simp [heq])
    have hs : '}' ∉ s := fun hmem => h (by simp [hmem])
    rw [readToken, ih hs]
    exact hc

/-- The reader finds exactly the rows of pieces that the text is made of. -/
theorem readAll_eq_ok {s : Text} {ps : List Piece} : readAll s = .ok ps ↔ Reads s ps := by
  constructor
  · intro h
    induction hlen : s.length using Nat.strongRecOn generalizing s ps with
    | ind n ih =>
      subst hlen
      rcases readAll_cases s with rfl | ⟨g, rest, rfl, hbefore⟩ | ⟨rest, rfl⟩ | ⟨rest, rfl⟩
      · rw [readAll] at h
        cases h
        exact .nil
      · rw [readAll_raw_append hbefore] at h
        simp only [bind_eq_ok_iff, pure_eq_ok_iff] at h
        obtain ⟨qs, hqs, rfl⟩ := h
        refine .glyph hbefore (ih rest.length ?_ hqs rfl)
        cases g with
        | plain c =>
          simp only [Glyph.raw, List.length_append, List.length_cons, List.length_nil]
          omega
        | escaped c =>
          simp only [Glyph.raw, List.length_append, List.length_cons, List.length_nil]
          omega
      · rw [readAll] at h
        cases hsplit : Text.splitOnce '}' rest with
        | none =>
          rw [readToken_of_not_mem (Text.splitOnce_eq_none.1 hsplit)] at h
          cases h
        | some split =>
          obtain ⟨body, after⟩ := split
          obtain ⟨rfl, hbody⟩ := Text.splitOnce_eq_some.1 hsplit
          rw [readToken_append hbody] at h
          simp only [bind_eq_ok_iff, pure_eq_ok_iff] at h
          obtain ⟨e, he, qs, hqs, rfl⟩ := h
          refine .expression hbody he (ih after.length ?_ hqs rfl)
          simp only [List.length_append, List.length_cons]
          omega
      · rw [readAll] at h
        cases h
  · intro h
    induction h with
    | nil => rw [readAll]
    | glyph hbefore _ ih =>
      rw [readAll_raw_append hbefore, ih]
      rfl
    | expression hbody he _ ih =>
      rw [List.cons_append, readAll, readToken_append hbody]
      rw [List.cons_append] at he
      rw [List.cons_append, List.nil_append, List.cons_append, he, ih]
      rfl

/-- The pieces written one after another are the text. -/
theorem Reads.flatMap_raw {s : Text} {ps : List Piece} (h : Reads s ps) :
    ps.flatMap raw = s := by
  induction h with
  | nil => rfl
  | glyph _ _ ih => rw [List.flatMap_cons, ih, raw]
  | expression _ he _ ih =>
    rw [List.flatMap_cons, ih, raw, Expression.text_of_parse he]
    simp

end Piece

/-! ## Runs of glyphs -/

namespace Segment

theorem flatMap_raw_prepend (g : Glyph) (segments : List Segment) :
    (prepend g segments).flatMap raw = g.raw ++ segments.flatMap raw := by
  unfold prepend
  split <;> simp [raw, Literal.raw]

theorem expression_mem_prepend {g : Glyph} {segments : List Segment} {e : Expression} :
    expression e ∈ prepend g segments ↔ expression e ∈ segments := by
  unfold prepend
  split <;> simp

/-- Gathering glyphs in runs loses nothing. -/
theorem flatMap_raw_ofPieces (ps : List Piece) :
    (ofPieces ps).flatMap raw = ps.flatMap Piece.raw := by
  induction ps with
  | nil => rfl
  | cons p ps ih =>
    cases p with
    | glyph g => rw [ofPieces, flatMap_raw_prepend, ih, List.flatMap_cons, Piece.raw]
    | expression e => rw [ofPieces, List.flatMap_cons, ih, List.flatMap_cons, raw, Piece.raw]

/-- Fixed text is in runs that are not empty, with an expression between each two
of them. -/
inductive Alternate : List Segment → Prop where
  | nil : Alternate []
  | last {l : Literal} (hne : l ≠ []) : Alternate [.literal l]
  /-- A run before an expression. -/
  | literal {l : Literal} {e : Expression} {rest : List Segment} (hne : l ≠ [])
    (hrest : Alternate (.expression e :: rest)) : Alternate (.literal l :: .expression e :: rest)
  /-- An expression before anything. -/
  | expression {e : Expression} {rest : List Segment} (hrest : Alternate rest) :
    Alternate (.expression e :: rest)

theorem Alternate.prepend {segments : List Segment} (h : Alternate segments) (g : Glyph) :
    Alternate (Segment.prepend g segments) := by
  cases h with
  | nil => exact .last (by simp)
  | last hne => exact .last (by simp)
  | literal hne hrest => exact .literal (by simp) hrest
  | expression hrest => exact .literal (by simp) (.expression hrest)

theorem ofPieces_alternate (ps : List Piece) : Alternate (ofPieces ps) := by
  induction ps with
  | nil => exact .nil
  | cons p ps ih =>
    cases p with
    | glyph g => exact ih.prepend g
    | expression e => exact .expression ih

theorem Alternate.ne_nil {segments : List Segment} (h : Alternate segments) {l : Literal}
    (hl : Segment.literal l ∈ segments) : l ≠ [] := by
  induction h with
  | nil => cases hl
  | last hne =>
    obtain rfl : l = _ := by simpa using hl
    exact hne
  | literal hne _ ih =>
    rcases List.mem_cons.1 hl with heq | hl
    · obtain rfl : l = _ := by simpa using heq
      exact hne
    · exact ih hl
  | expression _ ih => exact ih (by simpa using hl)

theorem Alternate.not_adjacent {segments : List Segment} (h : Alternate segments)
    (front back : List Segment) (l l' : Literal) :
    segments ≠ front ++ .literal l :: .literal l' :: back := by
  induction h generalizing front with
  | nil => simp
  | last _ => cases front <;> simp
  | literal _ _ ih =>
    cases front with
    | nil => simp
    | cons p front => simpa using fun _ => ih front
  | expression _ ih =>
    cases front with
    | nil => simp
    | cons p front => simpa using fun _ => ih front

end Segment

/-! ## The meaning of a run -/

/-- The text with each backslash before a character that it takes left out. -/
def Text.unescape : Text → Text
  | '\\' :: c :: rest =>
    if isEscapable c then c :: unescape rest else '\\' :: unescape (c :: rest)
  | c :: rest => c :: unescape rest
  | [] => []

/-- What a glyph means is what its writing means. -/
theorem Text.unescape_raw_append {g : Glyph} {s : Text} (h : g.Before s) :
    unescape (g.raw ++ s) = g.char :: unescape s := by
  cases g with
  | escaped c =>
    have hc : isEscapable c = true := h
    rw [Glyph.raw, List.cons_append, List.cons_append, List.nil_append, unescape, if_pos hc]
    rfl
  | plain c =>
    by_cases hslash : c = '\\'
    · subst hslash
      cases s with
      | nil => rfl
      | cons d s =>
        have hd : isEscapable d = false := by simpa [Glyph.Before] using h
        rw [Glyph.raw, List.cons_append, List.nil_append, unescape, if_neg (by simp [hd])]
        rfl
    · rw [Glyph.raw, List.cons_append, List.nil_append, unescape]
      · rfl
      · exact fun d rest hc _ => hslash hc

namespace Literal

theorem raw_ne_nil {l : Literal} (h : l ≠ []) : l.raw ≠ [] := by
  cases l with
  | nil => exact absurd rfl h
  | cons g l => cases g <;> simp [Literal.raw, Glyph.raw]

/-- A glyph goes on meaning itself in front of a run. -/
theorem text_cons_eq_unescape {g : Glyph} {run : Literal} {rest : Text}
    (hbefore : g.Before (raw run ++ rest)) (hrun : text run = Text.unescape (raw run)) :
    text (g :: run) = Text.unescape (raw (g :: run)) :=
  calc text (g :: run) = g.char :: text run := rfl
    _ = g.char :: Text.unescape (raw run) := by rw [hrun]
    _ = Text.unescape (g.raw ++ raw run) := (Text.unescape_raw_append hbefore.of_append).symm
    _ = Text.unescape (raw (g :: run)) := rfl

/-- A run that is read means what its text means.  Only the text up to the next
expression counts: a backslash at the end of a run takes nothing. -/
theorem text_eq_unescape {s : Text} {ps : List Piece} (h : Piece.Reads s ps) {l : Literal}
    (hl : Segment.literal l ∈ Segment.ofPieces ps) : l.text = Text.unescape l.raw := by
  induction h generalizing l with
  | nil => cases hl
  | expression _ _ _ ih => exact ih (by simpa [Segment.ofPieces] using hl)
  | @glyph g s ps hbefore hrest ih =>
    have hraw : (Segment.ofPieces ps).flatMap Segment.raw = s := by
      rw [Segment.flatMap_raw_ofPieces, hrest.flatMap_raw]
    rw [Segment.ofPieces] at hl
    unfold Segment.prepend at hl
    split at hl
    · rename_i run rest hsegments
      rcases List.mem_cons.1 hl with heq | hl
      · obtain rfl : l = g :: run := by simpa using heq
        rw [hsegments, List.flatMap_cons, Segment.raw] at hraw
        rw [← hraw] at hbefore
        exact text_cons_eq_unescape hbefore (ih (by rw [hsegments]; exact List.mem_cons_self))
      · exact ih (by rw [hsegments]; exact List.mem_cons_of_mem _ hl)
    · rcases List.mem_cons.1 hl with heq | hl
      · obtain rfl : l = [g] := by simpa using heq
        exact @text_cons_eq_unescape g [] s hbefore rfl
      · exact ih hl

end Literal

/-! ## Expressions in their places -/

/-- An expression that is read is the one of the token in its place. -/
theorem Piece.Reads.token {s : Text} {ps : List Piece} (h : Piece.Reads s ps) {e : Expression}
    (he : Segment.expression e ∈ Segment.ofPieces ps) :
    ∃ body, '}' ∉ body ∧ e.text = '{' :: body ++ ['}'] ∧ Expression.parse e.text = .ok e := by
  induction h with
  | nil => cases he
  | glyph _ _ ih =>
    rw [Segment.ofPieces, Segment.expression_mem_prepend] at he
    exact ih he
  | expression hbody hparse _ ih =>
    rw [Segment.ofPieces] at he
    rcases List.mem_cons.1 he with heq | he
    · obtain rfl : e = _ := by simpa using heq
      have htext := Expression.text_of_parse hparse
      exact ⟨_, hbody, htext, by rw [htext, hparse]⟩
    · exact ih he

namespace Template

/-- What a template keeps of the text that it is read from. -/
structure Spells (t : Template) (s : Text) : Prop where
  text : t.text = s
  literal_ne_nil : ∀ l, Segment.literal l ∈ t.segments → l.raw ≠ []
  not_adjacent : ∀ front back l l',
    t.segments ≠ front ++ .literal l :: .literal l' :: back
  /-- A run means its own text with the backslashes that take a character left
  out. -/
  literal_text : ∀ l, Segment.literal l ∈ t.segments → l.text = l.raw.unescape
  /-- Each expression is written as the token in its place and read from it. -/
  token : ∀ front e back, t.segments = front ++ .expression e :: back →
    ∃ body, '}' ∉ body ∧ e.text = '{' :: body ++ ['}'] ∧ Expression.parse e.text = .ok e ∧
      s = front.flatMap Segment.raw ++ e.text ++ back.flatMap Segment.raw

theorem source_of_parse {s : Text} {t : Template} (h : parse s = .ok t) : t.source = s := by
  simp only [parse, bind_eq_ok_iff, pure_eq_ok_iff] at h
  obtain ⟨ps, -, rfl⟩ := h
  rfl

/-- The segments of a template that is read are those of its pieces. -/
theorem reads_of_parse {s : Text} {t : Template} (h : parse s = .ok t) :
    ∃ ps, Piece.Reads s ps ∧ t.segments = Segment.ofPieces ps := by
  simp only [parse, bind_eq_ok_iff, pure_eq_ok_iff] at h
  obtain ⟨ps, hps, rfl⟩ := h
  exact ⟨ps, Piece.readAll_eq_ok.1 hps, rfl⟩

theorem text_of_parse {s : Text} {t : Template} (h : parse s = .ok t) : t.text = s := by
  obtain ⟨ps, hps, hsegments⟩ := reads_of_parse h
  rw [text, hsegments, Segment.flatMap_raw_ofPieces, hps.flatMap_raw]

theorem spells_of_parse {s : Text} {t : Template} (h : parse s = .ok t) : t.Spells s := by
  obtain ⟨ps, hps, hsegments⟩ := reads_of_parse h
  have htext := text_of_parse h
  have halternate : Segment.Alternate t.segments := by
    rw [hsegments]
    exact Segment.ofPieces_alternate ps
  refine ⟨htext, ?_, halternate.not_adjacent, ?_, ?_⟩
  · intro l hl
    exact Literal.raw_ne_nil (halternate.ne_nil hl)
  · intro l hl
    rw [hsegments] at hl
    exact Literal.text_eq_unescape hps hl
  · intro front e back hplace
    have he : Segment.expression e ∈ Segment.ofPieces ps := by
      rw [← hsegments, hplace]
      simp
    obtain ⟨body, hbody, hwritten, hread⟩ := hps.token he
    refine ⟨body, hbody, hwritten, hread, ?_⟩
    rw [← htext, text, hplace]
    simp [Segment.raw]

/-- A template that is read is written as it was, and determined by what is
written: reading it again gives an equal template, and two templates are equal
when their segments are, and when their texts are. -/
theorem parse_round_trip {s : Text} {t : Template} (h : parse s = .ok t) :
    t.Spells s ∧ parse t.text = .ok t ∧
      ∀ s' t', parse s' = .ok t' →
        (t = t' ↔ t.segments = t'.segments) ∧
        (t = t' ↔ t.segments.map Segment.raw = t'.segments.map Segment.raw) ∧
        (t = t' ↔ t.source = t'.source) := by
  have hspells := spells_of_parse h
  have hagain : parse t.text = .ok t := by rw [hspells.text, h]
  refine ⟨hspells, hagain, ?_⟩
  intro s' t' h'
  have hspells' := spells_of_parse h'
  have of_raw (hraw : t.segments.map Segment.raw = t'.segments.map Segment.raw) : t = t' := by
    have htext : t.text = t'.text := by
      rw [text, text, List.flatMap_def, List.flatMap_def, hraw]
    have hagain' : parse t'.text = .ok t' := by rw [hspells'.text, h']
    rw [htext, hagain'] at hagain
    exact (Except.ok.inj hagain).symm
  have of_source (hsource : t.source = t'.source) : t = t' := by
    rw [source_of_parse h, source_of_parse h'] at hsource
    rw [hsource, h'] at h
    exact (Except.ok.inj h).symm
  refine ⟨⟨fun heq => heq ▸ rfl, ?_⟩, ⟨fun heq => heq ▸ rfl, of_raw⟩,
    ⟨fun heq => heq ▸ rfl, of_source⟩⟩
  intro hsegments
  exact of_raw (by rw [hsegments])

theorem parse_round_trip_escaped_brace :
    ∃ t t', parse "a\\\x7b\x7b?x:3,y*\x7dz\\".toList = .ok t ∧ parse "a\x7bx\x7d".toList = .ok t' ∧
      t.Spells "a\\\x7b\x7b?x:3,y*\x7dz\\".toList ∧ parse t.text = .ok t ∧
      (t = t' ↔ t.source = t'.source) :=
  have h := parse_round_trip (s := "a\\\x7b\x7b?x:3,y*\x7dz\\".toList) rfl
  ⟨_, _, rfl, rfl, h.1, h.2.1, (h.2.2 "a\x7bx\x7d".toList _ rfl).2.2⟩

end Template

end UriTemplate
