import UriTemplate.Expression
import UriTemplate.Regex

/-!
# Regexes of expressions

The regex of an expression matches its expansions and has a group for each
variable.  Groups of one regex need different names, and a name cannot start
with a digit.  A variable therefore lends its own name to its first group, if it
can, and every other group is called `_.N` after the number of groups before it.
A variable name holds no dot, so such a name is never the name of a variable.

Every regex is written for a place: the variables that have groups to the left
of it.
-/

namespace UriTemplate

/-- The variables with a group to the left of a place, in order. -/
abbrev Seen := List Name

/-- The name of the next group, which belongs to the variable `n`. -/
def groupName (seen : Seen) (n : Name) : Text :=
  let legal := match n.text with
    | c :: _ => c.isAlpha || c == '_'
    | [] => false
  if legal && !seen.contains n then n.text
  else '_' :: '.' :: Text.ofNat seen.length

namespace Single

/-- The slot at a place. -/
def slot (e : Single) (seen : Seen) (count : Count) : Slot :=
  ⟨groupName seen e.name, e.name, e.charClass, count⟩

/-- The group of any encoded value. -/
def regex (e : Single) (seen : Seen) : Regex :=
  [.slot (e.slot seen .any)]

end Single

/-- A slot after its key, as the operator asks for. -/
def keyed (op : Operator) (key : Text) (x : Slot) : Regex :=
  if !op.isNamed then [.slot x]
  else if op.dropsEmptyEquals then [.literal key, .assigned x]
  else [.literal (key ++ ['=']), .slot x]

/-- Regexes one after another, with a fixed text between each two. -/
def joined (separator : Text) (rs : List Regex) : Regex :=
  List.intercalate [.literal separator] rs

namespace Multi

/-- The regexes of the variables, each at its place. -/
def regexes (op : Operator) (seen : Seen) : List Single → List Regex
  | [] => []
  | v :: rest => keyed op v.name.text (v.slot seen .any) :: regexes op (seen ++ [v.name]) rest

/-- The lead, and the variables joined by the separator. -/
def regex (e : Multi) (seen : Seen) : Regex :=
  .literal e.op.lead :: joined [e.op.separator] (regexes e.op seen e.values)

end Multi

namespace Member

/-- The regex of the member after a lead.  An exploded value has no regex. -/
def regex (e : Member) (seen : Seen) (lead : Text) : Except Error Regex :=
  let after (count : Count) : Except Error Regex :=
    .ok (.literal lead :: keyed e.op e.name.text (e.value.slot seen count))
  match e.spec.modifier with
  | .none => after .any
  | .upTo limit => after (.exactly limit.val)
  | .explode => .error (.unmatchable e.text)

end Member

namespace Composite

/-- The regexes of members, the first after one lead and the others after
another, each at its place. -/
def regexes (seen : Seen) (lead later : Text) : List Member → Except Error (List Regex)
  | [] => .ok []
  | m :: rest => do
    let first ← m.regex seen lead
    return first :: (← regexes (seen ++ [m.name]) later later rest)

/-- The members in order. -/
def regex (e : Composite) (seen : Seen) : Except Error Regex := do
  return joined e.groupSeparator (← regexes seen e.op.lead e.continuationLead e.members)

end Composite

/-- The regex of an expression at a place. -/
def Expression.regex : Expression → Seen → Except Error Regex
  | single e, seen => .ok (e.regex seen)
  | multi e, seen => .ok (e.regex seen)
  | member e, seen => e.regex seen e.op.lead
  | composite e, seen => e.regex seen

end UriTemplate
