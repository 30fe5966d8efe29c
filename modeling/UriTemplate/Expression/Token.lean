import UriTemplate.Expression

/-!
# Reading expressions

The grammar of an expression is

    expression = "{" [ operator ] varspec *( "," varspec ) "}"
    varspec    = name [ "*" / ":" limit ]
    limit      = "0" / nonzero-digit *digit
    name       = 1*( letter / digit / "_" )

`Token.take?` takes an expression from the front of a text, limits being left as
digits.  An expression belongs to one of nine families: a member under one of the
eight operators, or a composite.  `Expression.parse` asks one family after another
whether it recognises a text.  A member is read by the grammar.  For a composite the
text between the braces is split at its commas, and one specification after another
is added to the first.
-/

namespace UriTemplate

/-- An expression as written. -/
structure Token where
  op : Operator
  first : RawVarSpec
  rest : List RawVarSpec
deriving DecidableEq

namespace Token

/-- Takes the operator from the front of a text. -/
def takeOperator : Text → Operator × Text
  | [] => (.simple, [])
  | c :: rest =>
    match Operator.ofChar? c with
    | some op => (op, rest)
    | none => (.simple, c :: rest)

/-- Takes an expression from the front of a text. -/
def take? : Text → Option (Token × Text)
  | '{' :: t => do
    let (op, t) := takeOperator t
    let (first, t) ← RawVarSpec.take? t
    -- No more can follow than there are characters.
    let (rest, t) := RawVarSpec.takeMore t.length t
    match t with
    | '}' :: t => some (⟨op, first, rest⟩, t)
    | _ => none
  | _ => none

/-- Reads an expression, taking the whole text. -/
def read? (t : Text) : Option Token :=
  match take? t with
  | some (token, []) => some token
  | _ => none

/-- The text between the braces that a text begins and ends with. -/
def body? : Text → Option Text
  | '{' :: rest => if rest.getLast? = some '}' then some rest.dropLast else none
  | _ => none

end Token

/-- The families of expressions. -/
inductive Family where
  /-- One variable under an operator. -/
  | member (op : Operator)
  /-- Several variables under one operator. -/
  | composite
deriving DecidableEq

namespace Family

/-- The families in the order in which they are asked. -/
def all : List Family :=
  Operator.all.map member ++ [composite]

/-- The member under an operator that a text is, if it is one. -/
def probeMember (op : Operator) (t : Text) : Except Error (Option Expression) :=
  match Token.read? t with
  | some ⟨op', first, []⟩ =>
    if op' = op then do
      return some (.member ⟨op, ← first.resolve⟩)
    else .ok none
  | _ => .ok none

/-- The composite that a text is, if it is one. -/
def probeComposite (t : Text) : Except Error (Option Expression) :=
  match Token.body? t with
  | none => .ok none
  | some body =>
    let (op, body) := Token.takeOperator body
    let specs := Text.fields ',' body
    match specs with
    | first :: next :: rest =>
      if specs.any fun spec => (RawVarSpec.read? spec).isNone then .ok none
      else
        match RawVarSpec.read? first with
        | none => .ok none
        | some raw => do
          let composite ← (next :: rest).foldlM Composite.add ⟨op, ← raw.resolve, []⟩
          return some (.composite composite)
    | _ => .ok none

/-- The expression of a family that a text is.  There is none if the family does not
recognise the text, and a text that it recognises is refused for a limit out of
range. -/
def probe : Family → Text → Except Error (Option Expression)
  | member op => probeMember op
  | composite => probeComposite

end Family

/-- Reads an expression with its braces. -/
def Expression.parse (t : Text) : Except Error Expression := do
  match ← Family.all.findSomeM? fun family => family.probe t with
  | some e => return e
  | none => throw (.unrecognizedExpression t)

end UriTemplate
