import UriTemplate.Bindings
import UriTemplate.Expression
import UriTemplate.Percent

/-!
# Expanding expressions

Each kind of expression writes its variables in its own way.  A multi writes
one lead and joins the defined values by the operator's separator.  A composite
gives each member a lead, and only those without one are joined by a comma.
-/

namespace UriTemplate

namespace Single

/-- A text with the characters that the variable does not keep encoded. -/
def encode (e : Single) (t : Text) : Text :=
  Percent.encode e.charClass t

/-- The value of the variable, members joined by commas. -/
def expand (e : Single) (b : Bindings) : Text :=
  match b.get e.name with
  | .absent => []
  | .scalar t => e.encode t
  | .list items => List.intercalate [','] (items.map e.encode)
  | .assoc pairs =>
    List.intercalate [','] (pairs.flatMap fun (k, v) => [e.encode k, e.encode v])

end Single

/-- An encoded text after its key, as the operator asks for. -/
def named (op : Operator) (key encoded : Text) : Text :=
  if !op.isNamed then encoded
  else if encoded.isEmpty && op.dropsEmptyEquals then key
  else key ++ '=' :: encoded

namespace Multi

/-- What the expression writes for each defined variable. -/
def parts (e : Multi) (b : Bindings) : List Text :=
  (e.values.filter fun v => !(b.get v.name).isUndefined).map fun v =>
    named e.op v.name.text (v.expand b)

/-- The lead and the parts, or nothing when no variable is defined. -/
def expand (e : Multi) (b : Bindings) : Text :=
  match e.parts b with
  | [] => []
  | parts => e.op.lead ++ List.intercalate [e.op.separator] parts

end Multi

namespace Member

/-- A text as the modifier leaves it, encoded. -/
def encode (e : Member) (t : Text) : Text :=
  e.value.encode (e.spec.modifier.truncate t)

/-- A key with its text, as a member of its own. -/
def pair (e : Member) (key value : Text) : Text :=
  if e.op.isNamed then named e.op (e.value.encode key) (e.encode value)
  else e.value.encode key ++ '=' :: e.encode value

/-- What the expression writes for a value, without a lead. -/
def body? (e : Member) (v : Value) : Option Text :=
  if v.isUndefined then none
  else match v, e.spec.modifier with
    | .absent, _ => none
    | .scalar t, _ => some (named e.op e.name.text (e.encode t))
    | .list items, .explode =>
      some (List.intercalate [e.separator]
        (items.map fun item => named e.op e.name.text (e.encode item)))
    | .list items, _ =>
      some (named e.op e.name.text (List.intercalate [','] (items.map e.encode)))
    | .assoc pairs, .explode =>
      some (List.intercalate [e.separator] (pairs.map fun (k, v) => e.pair k v))
    | .assoc pairs, _ =>
      some (named e.op e.name.text
        (List.intercalate [','] (pairs.flatMap fun (k, v) => [e.value.encode k, e.encode v])))

/-- The value of the variable after a lead, or nothing when it is undefined. -/
def expand? (e : Member) (lead : Text) (b : Bindings) : Option Text :=
  (e.body? (b.get e.name)).map (lead ++ ·)

/-- The value of the variable after the operator's lead. -/
def expand (e : Member) (b : Bindings) : Text :=
  (e.expand? e.op.lead b).getD []

end Member

namespace Composite

/-- What the defined members write: the first after one lead, the others after
another. -/
def parts (b : Bindings) (lead later : Text) : List Member → List Text
  | [] => []
  | m :: rest =>
    match m.expand? lead b with
    | none => parts b lead later rest
    | some part => part :: parts b later later rest

/-- The members in order. -/
def expand (e : Composite) (b : Bindings) : Text :=
  List.intercalate e.groupSeparator (parts b e.op.lead e.continuationLead e.members)

end Composite

/-- The expansion of an expression. -/
def Expression.expand : Expression → Bindings → Text
  | single e, b => e.expand b
  | multi e, b => e.expand b
  | member e, b => e.expand b
  | composite e, b => e.expand b

end UriTemplate
