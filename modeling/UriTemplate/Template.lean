import UriTemplate.Expression.Expansion
import UriTemplate.Expression.Matching
import UriTemplate.Expression.Token
import UriTemplate.Url

/-!
# Templates

A template is fixed text with expressions in it.  It is read from left to right:
a backslash before an operator character, a brace or a backslash takes that
character as it is, a brace opens an expression that ends at the next closing
brace, and every other character stands for itself.
-/

namespace UriTemplate

/-! ## Fixed text -/

/-- One character of fixed text, with or without a backslash before it. -/
inductive Glyph where
  /-- The character as it is. -/
  | plain (c : Char)
  /-- The character after a backslash. -/
  | escaped (c : Char)
deriving DecidableEq

namespace Glyph

/-- The character that is meant. -/
def char : Glyph → Char
  | plain c | escaped c => c

/-- The character as it is written. -/
def raw : Glyph → Text
  | plain c => [c]
  | escaped c => ['\\', c]

end Glyph

/-- A run of fixed text. -/
abbrev Literal := List Glyph

namespace Literal

/-- The text as it is written. -/
def raw (l : Literal) : Text :=
  l.flatMap Glyph.raw

/-- The text that is meant. -/
def text (l : Literal) : Text :=
  l.map Glyph.char

end Literal

/-- A character that a backslash takes as it is. -/
def isEscapable (c : Char) : Bool :=
  (Operator.ofChar? c).isSome || c == '{' || c == '}' || c == '\\'

/-! ## Reading -/

/-- What a template is read as, one after another. -/
inductive Piece where
  | glyph (g : Glyph)
  | expression (e : Expression)
deriving DecidableEq

namespace Piece

mutual

/-- Reads a text outside of braces. -/
def readAll : Text → Except Error (List Piece)
  | [] => .ok []
  | '\\' :: c :: rest =>
    if isEscapable c then return .glyph (.escaped c) :: (← readAll rest)
    else return .glyph (.plain '\\') :: (← readAll (c :: rest))
  | '{' :: rest => readToken ('{' :: rest) ['{'] rest
  | '}' :: rest => .error (.unrecognizedExpression ('}' :: rest))
  | c :: rest => return .glyph (.plain c) :: (← readAll rest)

/-- Reads a text after an opening brace.  `opened` is the text from that brace
on, and `token` is as much of it as has been read. -/
def readToken (opened token : Text) : Text → Except Error (List Piece)
  | [] => .error (.unrecognizedExpression opened)
  | '}' :: rest => do
    let e ← Expression.parse (token ++ ['}'])
    return .expression e :: (← readAll rest)
  | c :: rest => readToken opened (token ++ [c]) rest

end

end Piece

/-! ## Segments -/

/-- A part of a template. -/
inductive Segment where
  | literal (l : Literal)
  | expression (e : Expression)
deriving DecidableEq

namespace Segment

/-- Puts a glyph before segments, in the run that they begin with if there is
one. -/
def prepend (g : Glyph) : List Segment → List Segment
  | literal l :: rest => literal (g :: l) :: rest
  | rest => literal [g] :: rest

/-- Gathers neighbouring glyphs in runs. -/
def ofPieces : List Piece → List Segment
  | [] => []
  | .glyph g :: rest => prepend g (ofPieces rest)
  | .expression e :: rest => expression e :: ofPieces rest

/-- The segment as it is written. -/
def raw : Segment → Text
  | literal l => l.raw
  | expression e => e.text

/-- The expansion of the segment. -/
def expand (b : Bindings) : Segment → Text
  | literal l => l.text
  | expression e => e.expand b

/-- The variables of the segment. -/
def names : Segment → List Name
  | literal _ => []
  | expression e => e.names

end Segment

/-- A URI template. -/
structure Template where
  /-- The text that the template was read from. -/
  source : Text
  segments : List Segment
deriving DecidableEq

namespace Template

/-- The template without any text. -/
def empty : Template := ⟨[], []⟩

/-- Reads a template. -/
def parse (source : Text) : Except Error Template := do
  return ⟨source, Segment.ofPieces (← Piece.readAll source)⟩

/-- The template as it is written. -/
def text (t : Template) : Text :=
  t.segments.flatMap Segment.raw

/-- The variables, once for each place that they stand in. -/
def occurrences (t : Template) : List Name :=
  t.segments.flatMap Segment.names

/-- The variables in the order of their first places. -/
def names (t : Template) : List Name :=
  t.occurrences.foldl (fun seen n => if seen.contains n then seen else seen ++ [n]) []

/-- The text that the template stands for under the bindings. -/
def expand (t : Template) (b : Bindings) : Text :=
  t.segments.flatMap (Segment.expand b)

/-- The absolute URL that the expansion is. -/
def expandUrl (t : Template) (b : Bindings) : Except Error Url :=
  (Url.parse (t.expand b)).mapError .invalidUrl

end Template

end UriTemplate
