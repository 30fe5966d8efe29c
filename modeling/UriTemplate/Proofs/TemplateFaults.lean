import Mathlib.Logic.Relation
import UriTemplate.Proofs.TemplateReading

/-!
# Faults of templates

A text is cut into units from left to right before anything is known of its
expressions: a backslash with the character that it takes, any other backslash,
an opening brace up to the next closing one, and each other character.
`Template.Passes` is one unit and `Template.Reaches` any number of them, so the
positions of a text at which a fault can be found are the ones that it reaches.

`Template.Fault` lists what can be wrong at a position.  The reader goes from
unit to unit (`Template.readAll_of_passes`) and stops at a fault
(`Template.readAll_of_fault`), and `Template.parse_leftmost_fault` says what this
amounts to: a template is a text that reaches no fault, and every other text is
refused for the first fault that it reaches.
-/

namespace UriTemplate

/-- The characters that a backslash takes as they are. -/
def escapable : Text :=
  ['+', '#', '.', '/', ';', '?', '&', '{', '}', '\\']

theorem isEscapable_iff {c : Char} : isEscapable c = true ↔ c ∈ escapable := by
  have hmem : c ∈ escapable ↔ c = '+' ∨ c = '#' ∨ c = '.' ∨ c = '/' ∨ c = ';' ∨ c = '?' ∨
      c = '&' ∨ c = '{' ∨ c = '}' ∨ c = '\\' := by
    simp [escapable]
  rw [hmem]
  constructor
  · intro h
    simp only [isEscapable, Bool.or_eq_true, beq_iff_eq] at h
    rcases h with ((hop | hc) | hc) | hc
    · unfold Operator.ofChar? at hop
      split at hop <;> simp_all
    · simp [hc]
    · simp [hc]
    · simp [hc]
  · intro h
    rcases h with rfl | rfl | rfl | rfl | rfl | rfl | rfl | rfl | rfl | rfl <;> rfl

namespace Template

/-! ## Units -/

/-- The text after the first unit of a text.  A token is passed whether or not it
is an expression. -/
inductive Passes : Text → Text → Prop where
  | escape {c : Char} {rest : Text} (hc : c ∈ escapable) : Passes ('\\' :: c :: rest) rest
  | backslash {rest : Text} (h : ∀ c, rest.head? = some c → c ∉ escapable) :
    Passes ('\\' :: rest) rest
  | character {c : Char} {rest : Text} (hslash : c ≠ '\\') (hopen : c ≠ '{') (hclose : c ≠ '}') :
    Passes (c :: rest) rest
  | token {body rest : Text} (hbody : '}' ∉ body) : Passes ('{' :: body ++ '}' :: rest) rest

/-- The rest of a text from one of its positions on. -/
def Reaches : Text → Text → Prop :=
  Relation.ReflTransGen Passes

/-- What is wrong with a text at its beginning. -/
inductive Fault : Text → Error → Prop where
  | unclosed {rest : Text} (h : '}' ∉ rest) :
    Fault ('{' :: rest) (.unrecognizedExpression ('{' :: rest))
  | closing {rest : Text} : Fault ('}' :: rest) (.unrecognizedExpression ('}' :: rest))
  | token {body rest : Text} {err : Error} (hbody : '}' ∉ body)
    (herr : Expression.parse ('{' :: body ++ ['}']) = .error err) :
    Fault ('{' :: body ++ '}' :: rest) err

/-- A unit is a glyph or a token. -/
theorem Passes.glyph_or_token {s rest : Text} (h : Passes s rest) :
    (∃ g : Glyph, s = g.raw ++ rest ∧ g.Before rest) ∨
      ∃ body, '}' ∉ body ∧ s = '{' :: body ++ '}' :: rest := by
  cases h with
  | @escape c _ hc => exact .inl ⟨.escaped c, rfl, isEscapable_iff.2 hc⟩
  | backslash h =>
    refine .inl ⟨.plain '\\', rfl, ?_⟩
    show ∀ d, rest.head? = some d → isEscapable d = false
    intro d hd
    have hnot : ¬isEscapable d = true := fun hesc => h d hd (isEscapable_iff.1 hesc)
    simpa using hnot
  | @character c _ hslash hopen hclose =>
    refine .inl ⟨.plain c, rfl, ?_⟩
    simp [Glyph.Before, hslash, hopen, hclose]
  | token hbody => exact .inr ⟨_, hbody, rfl⟩

theorem Passes.of_before {g : Glyph} {rest : Text} (h : g.Before rest) :
    Passes (g.raw ++ rest) rest := by
  cases g with
  | escaped c => exact .escape (isEscapable_iff.1 h)
  | plain c =>
    by_cases hslash : c = '\\'
    · subst hslash
      have hhead : ∀ d, rest.head? = some d → isEscapable d = false := h
      refine .backslash fun d hd hesc => ?_
      have htrue := isEscapable_iff.2 hesc
      rw [hhead d hd] at htrue
      cases htrue
    · have hbrace : c ≠ '{' ∧ c ≠ '}' := by simpa [Glyph.Before, hslash] using h
      exact .character hslash hbrace.1 hbrace.2

theorem Passes.length_lt {s rest : Text} (h : Passes s rest) : rest.length < s.length := by
  cases h with
  | escape =>
    simp only [List.length_cons]
    omega
  | backslash => simp
  | character => simp
  | token =>
    simp only [List.length_cons, List.length_append]
    omega

/-- A text has one first unit. -/
theorem Passes.unique {s rest rest' : Text} (h : Passes s rest) (h' : Passes s rest') :
    rest = rest' := by
  cases h with
  | escape hc =>
    cases h' with
    | escape => rfl
    | backslash hnot => exact absurd hc (hnot _ rfl)
    | character hslash => exact absurd rfl hslash
  | backslash hnot =>
    cases h' with
    | escape hc => exact absurd hc (hnot _ rfl)
    | backslash => rfl
    | character hslash => exact absurd rfl hslash
  | character hslash hopen =>
    cases h' with
    | escape => exact absurd rfl hslash
    | backslash => exact absurd rfl hslash
    | character => rfl
    | token => exact absurd rfl hopen
  | @token body _ hbody =>
    generalize hs : '{' :: body ++ '}' :: rest = s at h'
    cases h' with
    | escape => cases hs
    | backslash => cases hs
    | character _ hopen => exact absurd (List.cons.inj hs).1.symm hopen
    | @token body' _ hbody' =>
      have htext : body ++ '}' :: rest = body' ++ '}' :: rest' := (List.cons.inj hs).2
      have hsplit := Text.splitOnce_append hbody rest
      rw [htext, Text.splitOnce_append hbody' rest'] at hsplit
      simp only [Option.some.injEq, Prod.mk.injEq] at hsplit
      exact hsplit.2.symm

theorem Reaches.length_le {s rest : Text} (h : Reaches s rest) : rest.length ≤ s.length := by
  induction h with
  | refl => exact Nat.le_refl _
  | tail _ hpass ih =>
    have hlt := hpass.length_lt
    omega

/-- A text that is not empty goes on, unless it is faulty. -/
theorem exists_passes {s : Text} (hne : s ≠ []) (hsound : ∀ err, ¬Fault s err) :
    ∃ rest, Passes s rest := by
  rcases Piece.readAll_cases s with rfl | ⟨g, rest, rfl, hbefore⟩ | ⟨rest, rfl⟩ | ⟨rest, rfl⟩
  · exact absurd rfl hne
  · exact ⟨rest, .of_before hbefore⟩
  · by_cases hclosed : '}' ∈ rest
    · cases hsplit : Text.splitOnce '}' rest with
      | none => exact absurd hclosed (Text.splitOnce_eq_none.1 hsplit)
      | some split =>
        obtain ⟨body, after⟩ := split
        obtain ⟨rfl, hbody⟩ := Text.splitOnce_eq_some.1 hsplit
        exact ⟨after, .token hbody⟩
    · exact absurd (.unclosed hclosed) (hsound _)
  · exact absurd .closing (hsound _)

/-! ## The reader -/

theorem readAll_token {body : Text} (hbody : '}' ∉ body) (rest : Text) :
    Piece.readAll ('{' :: body ++ '}' :: rest) = do
      let e ← Expression.parse ('{' :: body ++ ['}'])
      return .expression e :: (← Piece.readAll rest) := by
  rw [List.cons_append, Piece.readAll, Piece.readToken_append hbody]
  rfl

/-- The reader stops at a fault. -/
theorem readAll_of_fault {s : Text} {err : Error} (h : Fault s err) :
    Piece.readAll s = .error err := by
  cases h with
  | unclosed hclosed => rw [Piece.readAll, Piece.readToken_of_not_mem hclosed]
  | closing => rw [Piece.readAll]
  | token hbody herr =>
    rw [readAll_token hbody, herr]
    rfl

/-- The reader goes on after the first unit of a text that is not faulty. -/
theorem readAll_of_passes {s rest : Text} (h : Passes s rest) (hsound : ∀ err, ¬Fault s err) :
    ∃ p, Piece.readAll s = do return p :: (← Piece.readAll rest) := by
  rcases h.glyph_or_token with ⟨g, rfl, hbefore⟩ | ⟨body, hbody, rfl⟩
  · exact ⟨.glyph g, Piece.readAll_raw_append hbefore⟩
  · cases hparse : Expression.parse ('{' :: body ++ ['}']) with
    | error err => exact absurd (.token hbody hparse) (hsound err)
    | ok e =>
      refine ⟨.expression e, ?_⟩
      rw [readAll_token hbody, hparse]
      rfl

theorem readAll_eq_error_of_passes {s rest : Text} (h : Passes s rest)
    (hsound : ∀ err, ¬Fault s err) {err : Error} :
    Piece.readAll s = .error err ↔ Piece.readAll rest = .error err := by
  obtain ⟨p, hp⟩ := readAll_of_passes h hsound
  rw [hp, bind_eq_error_iff]
  simp [pure_ne_error]

/-- An error is the one of the first fault that is reached.  The induction is on
the text: a fault at its beginning is the first one, and without one the first
fault is that of the text after a unit. -/
theorem exists_fault_of_readAll {s : Text} {err : Error} (h : Piece.readAll s = .error err) :
    ∃ rest, Reaches s rest ∧ Fault rest err ∧
      ∀ rest' err', Reaches s rest' → Fault rest' err' → rest'.length ≤ rest.length := by
  induction hlen : s.length using Nat.strongRecOn generalizing s with
  | ind n ih =>
    subst hlen
    by_cases hfault : ∃ err', Fault s err'
    · obtain ⟨err', hfault⟩ := hfault
      have hsame : err' = err := by
        rw [readAll_of_fault hfault] at h
        exact Except.error.inj h
      subst hsame
      exact ⟨s, .refl, hfault, fun rest' _ hreach _ => hreach.length_le⟩
    · have hsound : ∀ err', ¬Fault s err' := fun err' hf => hfault ⟨err', hf⟩
      have hne : s ≠ [] := by
        rintro rfl
        rw [Piece.readAll] at h
        cases h
      obtain ⟨after, hpass⟩ := exists_passes hne hsound
      have hafter := (readAll_eq_error_of_passes hpass hsound).1 h
      obtain ⟨rest, hreach, hrest, hfirst⟩ := ih after.length hpass.length_lt hafter rfl
      refine ⟨rest, .head hpass hreach, hrest, fun rest' err' hreach' hrest' => ?_⟩
      rcases hreach'.cases_head with rfl | ⟨after', hpass', hreach'⟩
      · exact absurd hrest' (hsound err')
      · obtain rfl := hpass.unique hpass'
        exact hfirst rest' err' hreach' hrest'

theorem readAll_of_first_fault {s rest : Text} {err : Error} (hreach : Reaches s rest)
    (hrest : Fault rest err)
    (hfirst : ∀ rest' err', Reaches s rest' → Fault rest' err' → rest'.length ≤ rest.length) :
    Piece.readAll s = .error err := by
  induction hreach using Relation.ReflTransGen.head_induction_on with
  | refl => exact readAll_of_fault hrest
  | @head s after hpass hreach ih =>
    have hsound : ∀ err', ¬Fault s err' := by
      intro err' hfault
      have hle := hfirst s err' .refl hfault
      have hlt := hpass.length_lt
      have hle' := Reaches.length_le hreach
      omega
    rw [readAll_eq_error_of_passes hpass hsound]
    exact ih fun rest' err' hreach' hrest' => hfirst rest' err' (.head hpass hreach') hrest'

/-- What is reached from a text that is read is read as well. -/
theorem exists_readAll_of_reaches {s rest : Text} (hreach : Reaches s rest) {ps : List Piece}
    (h : Piece.readAll s = .ok ps) : ∃ qs, Piece.readAll rest = .ok qs := by
  induction hreach using Relation.ReflTransGen.head_induction_on generalizing ps with
  | refl => exact ⟨ps, h⟩
  | @head s after hpass _ ih =>
    have hsound : ∀ err, ¬Fault s err := by
      intro err hfault
      rw [readAll_of_fault hfault] at h
      cases h
    obtain ⟨p, hp⟩ := readAll_of_passes hpass hsound
    rw [hp] at h
    obtain ⟨qs, hqs, -⟩ := bind_eq_ok_iff.1 h
    exact ih hqs

/-! ## Templates -/

theorem parse_eq_error {s : Text} {err : Error} :
    parse s = .error err ↔ Piece.readAll s = .error err := by
  rw [parse, bind_eq_error_iff]
  simp [pure_ne_error]

/-- A text is a template when it reaches no fault. -/
theorem exists_parse_iff {s : Text} :
    (∃ t, parse s = .ok t) ↔ ∀ rest err, Reaches s rest → ¬Fault rest err := by
  constructor
  · rintro ⟨t, ht⟩ rest err hreach hfault
    obtain ⟨ps, hps, -⟩ := bind_eq_ok_iff.1 ht
    obtain ⟨qs, hqs⟩ := exists_readAll_of_reaches hreach hps
    rw [readAll_of_fault hfault] at hqs
    cases hqs
  · intro hsound
    cases hparse : parse s with
    | ok t => exact ⟨t, rfl⟩
    | error err =>
      obtain ⟨rest, hreach, hfault, -⟩ := exists_fault_of_readAll (parse_eq_error.1 hparse)
      exact absurd hfault (hsound rest err hreach)

/-- The three ways to be without fault. -/
theorem no_fault_iff {s : Text} :
    (∀ rest err, Reaches s rest → ¬Fault rest err) ↔
      (∀ rest, Reaches s ('{' :: rest) → '}' ∈ rest) ∧
      (∀ body rest, Reaches s ('{' :: body ++ '}' :: rest) → '}' ∉ body →
        ∃ e, Expression.parse ('{' :: body ++ ['}']) = .ok e) ∧
      ∀ rest, ¬Reaches s ('}' :: rest) := by
  constructor
  · intro hsound
    refine ⟨fun rest hreach => ?_, fun body rest hreach hbody => ?_, fun rest hreach => ?_⟩
    · by_contra hclosed
      exact hsound _ _ hreach (.unclosed hclosed)
    · cases hparse : Expression.parse ('{' :: body ++ ['}']) with
      | ok e => exact ⟨e, rfl⟩
      | error err => exact absurd (.token hbody hparse) (hsound _ err hreach)
    · exact hsound _ _ hreach .closing
  · rintro ⟨hopen, htoken, hclose⟩ rest err hreach hfault
    cases hfault with
    | unclosed hclosed => exact hclosed (hopen _ hreach)
    | closing => exact hclose _ hreach
    | token hbody herr =>
      obtain ⟨e, he⟩ := htoken _ _ hreach hbody
      rw [he] at herr
      cases herr

/-- A text is a template exactly when each opening brace that it reaches has a
closing brace after it, each token in braces is an expression, and no closing
brace is reached by itself.  Otherwise it is refused for the leftmost fault. -/
theorem parse_leftmost_fault (s : Text) :
    ((∃ t, parse s = .ok t) ↔
      (∀ rest, Reaches s ('{' :: rest) → '}' ∈ rest) ∧
      (∀ body rest, Reaches s ('{' :: body ++ '}' :: rest) → '}' ∉ body →
        ∃ e, Expression.parse ('{' :: body ++ ['}']) = .ok e) ∧
      ∀ rest, ¬Reaches s ('}' :: rest)) ∧
    ∀ err, parse s = .error err ↔
      ∃ rest, Reaches s rest ∧ Fault rest err ∧
        ∀ rest' err', Reaches s rest' → Fault rest' err' → rest'.length ≤ rest.length := by
  refine ⟨exists_parse_iff.trans no_fault_iff, fun err => parse_eq_error.trans ⟨?_, ?_⟩⟩
  · exact exists_fault_of_readAll
  · rintro ⟨rest, hreach, hfault, hfirst⟩
    exact readAll_of_first_fault hreach hfault hfirst

-- The backslash takes the first brace, and the limit comes before the stray brace.
example : parse "\\\x7b\x7bx:0\x7d\x7d".toList = .error (.invalidLimit 0) :=
  rfl

end Template

end UriTemplate
