import UriTemplate.Text

/-!
# Terminal output

What is written to a terminal: text, and changes of its style.  Without colour
the changes of style write nothing.
-/

namespace UriTemplate.Terminal

/-- A colour of text. -/
inductive Color where
  /-- For what failed. -/
  | red
  /-- For what passed. -/
  | green
  /-- For what was passed over. -/
  | yellow
deriving DecidableEq

/-- The digit for a colour. -/
def Color.digit : Color → Char
  | red => '1'
  | green => '2'
  | yellow => '3'

/-- How text looks. -/
structure Style where
  bold : Bool
  dim : Bool
  /-- Its colour, unless it is the usual one. -/
  color : Option Color
deriving DecidableEq

namespace Style

/-- Text in a colour. -/
def colored (c : Color) : Style := ⟨false, false, some c⟩

/-- Bold text in a colour. -/
def boldColored (c : Color) : Style := ⟨true, false, some c⟩

/-- Bold text. -/
def strong : Style := ⟨true, false, none⟩

/-- Dim text. -/
def faint : Style := ⟨false, true, none⟩

end Style

/-- A part of the output. -/
inductive Span where
  | text (t : Text)
  /-- The style of the text from here on. -/
  | style (s : Style)
  /-- The usual style from here on. -/
  | reset
deriving DecidableEq

/-- An escape sequence with one parameter. -/
def escape (parameter : Text) : Text :=
  '\x1b' :: '[' :: (parameter ++ ['m'])

/-- The sequence for the usual style. -/
def usual : Text := escape ['0']

/-- The sequences for a style. -/
def Style.text (s : Style) : Text :=
  usual ++ (if s.bold then escape ['1'] else []) ++ (if s.dim then escape ['2'] else []) ++
    match s.color with
    | some c => escape ['3', c.digit]
    | none => []

/-- What is written for a part. -/
def Span.written (colored : Bool) : Span → Text
  | .text t => t
  | .style s => if colored then s.text else []
  | .reset => if colored then usual else []

/-- What is written for parts one after another. -/
def render (colored : Bool) (spans : List Span) : Text :=
  spans.flatMap (Span.written colored)

@[simp] theorem render_nil (colored : Bool) : render colored [] = [] := rfl

@[simp] theorem render_append (colored : Bool) (s t : List Span) :
    render colored (s ++ t) = render colored s ++ render colored t :=
  List.flatMap_append

end UriTemplate.Terminal
