import UriTemplate.Expression.Expansion
import UriTemplate.Proofs.ExpressionReading

/-!
# Expansion in one pass

RFC 6570 expands an expression in one pass over its variables.  Each defined
variable gives a piece, the pieces are joined by the separator of the operator,
and what the operator begins with stands before them.  All that an operator
decides is a row of one table.  `Operator.profile` is the table and
`Profile.expand` is the pass.

The expressions of this library are written in other ways: with a lead for each
member, with a second kind of lead for the later members, and with a separator
that may be empty.  `Expression.expand_eq_flat` says that all four kinds of
expressions write what the one pass writes.

The lemmas before it go from the inside out.

* `named_eq_labelled` and `Member.body?_eq_piece?`: one variable.
* `Composite.parts_eq` and `intercalate_lead`: the leads of the members are the
  beginning and the separators of the row.
* `Multi.parts_eq` and `Single.labelled_expand`: variables without modifiers.
-/

namespace UriTemplate

/-! ## The table -/

/-- What an operator decides. -/
structure Profile where
  first : Text
  sep : Text
  /-- Whether a piece begins with a name. -/
  named : Bool
  /-- What follows a name when nothing comes after it. -/
  ifEmpty : Text
  /-- The characters that a value keeps. -/
  allow : CharClass
deriving DecidableEq

/-- The table of operators. -/
def Operator.profile : Operator → Profile
  | simple => ⟨[], [','], false, [], .unreserved⟩
  | reserved => ⟨[], [','], false, [], .extended⟩
  | fragment => ⟨['#'], [','], false, [], .extended⟩
  | label => ⟨['.'], ['.'], false, [], .unreserved⟩
  | path => ⟨['/'], ['/'], false, [], .unreserved⟩
  | parameter => ⟨[';'], [';'], true, [], .unreserved⟩
  | query => ⟨['?'], ['&'], true, ['='], .unreserved⟩
  | queryContinuation => ⟨['&'], ['&'], true, ['='], .unreserved⟩

/-! ## The pass -/

namespace Profile

/-- A text with the characters that the operator does not keep encoded. -/
def enc (row : Profile) (t : Text) : Text :=
  Percent.encode row.allow t

/-- An encoded text after a name. -/
def attach (row : Profile) (name encoded : Text) : Text :=
  if encoded = [] then name ++ row.ifEmpty else name ++ '=' :: encoded

/-- An encoded text, after a name if the operator asks for one. -/
def labelled (row : Profile) (name encoded : Text) : Text :=
  if row.named then row.attach name encoded else encoded

/-- An encoded key with its encoded text, for a pair that stands alone. -/
def pair (row : Profile) (key encoded : Text) : Text :=
  if row.named then row.attach key encoded else key ++ '=' :: encoded

/-- The piece of a variable with a value, or nothing when it is undefined. -/
def piece? (row : Profile) (spec : VarSpec) : Value → Option Text
  | .absent | .list [] | .assoc [] => none
  | .scalar t => some (row.labelled spec.name.text (row.enc (spec.modifier.truncate t)))
  | .list items => some <|
    match spec.modifier with
    | .explode =>
      List.intercalate row.sep (items.map fun item => row.labelled spec.name.text (row.enc item))
    | m =>
      row.labelled spec.name.text
        (List.intercalate [','] (items.map fun item => row.enc (m.truncate item)))
  | .assoc pairs => some <|
    match spec.modifier with
    | .explode =>
      List.intercalate row.sep (pairs.map fun (k, v) => row.pair (row.enc k) (row.enc v))
    | m =>
      row.labelled spec.name.text
        (List.intercalate [','] (pairs.flatMap fun (k, v) => [row.enc k, row.enc (m.truncate v)]))

/-- The pieces of the defined variables, in order. -/
def pieces (row : Profile) (specs : List VarSpec) (b : Bindings) : List Text :=
  specs.filterMap fun spec => row.piece? spec (b.get spec.name)

/-- The beginning and the pieces, or nothing when no variable is defined. -/
def expand (row : Profile) (specs : List VarSpec) (b : Bindings) : Text :=
  match row.pieces specs b with
  | [] => []
  | piece :: rest => row.first ++ List.intercalate row.sep (piece :: rest)

end Profile

/-! ## The table and the rules of operators -/

theorem Operator.charClass_eq (op : Operator) : op.charClass = op.profile.allow := by
  cases op <;> rfl

theorem Operator.lead_eq (op : Operator) : op.lead = op.profile.first := by
  cases op <;> rfl

theorem Operator.separator_eq (op : Operator) : [op.separator] = op.profile.sep := by
  cases op <;> rfl

/-- What stands between two members of a composite is the separator. -/
theorem Composite.groupSeparator_append_continuationLead (e : Composite) :
    e.groupSeparator ++ e.continuationLead = e.op.profile.sep := by
  obtain ⟨op, first, rest⟩ := e
  cases op <;> rfl

theorem named_eq_labelled (op : Operator) (key encoded : Text) :
    named op key encoded = op.profile.labelled key encoded := by
  cases op <;> cases encoded <;> simp [named, Operator.isNamed, Operator.dropsEmptyEquals,
    Operator.profile, Profile.labelled, Profile.attach]

/-! ## One variable -/

theorem Profile.piece?_eq_none {row : Profile} {spec : VarSpec} {v : Value} :
    row.piece? spec v = none ↔ v.isUndefined = true := by
  cases v with
  | absent => simp [piece?, Value.isUndefined]
  | scalar t => simp [piece?, Value.isUndefined]
  | list items => cases items <;> simp [piece?, Value.isUndefined]
  | assoc pairs => cases pairs <;> simp [piece?, Value.isUndefined]

namespace Member

theorem encode_eq (e : Member) (t : Text) :
    e.encode t = e.op.profile.enc (e.spec.modifier.truncate t) := by
  rw [encode, Single.encode, value, Operator.charClass_eq, Profile.enc]

theorem value_encode_eq (e : Member) (t : Text) : e.value.encode t = e.op.profile.enc t := by
  rw [Single.encode, value, Operator.charClass_eq, Profile.enc]

theorem pair_eq (e : Member) (key value : Text) :
    e.pair key value =
      e.op.profile.pair (e.op.profile.enc key)
        (e.op.profile.enc (e.spec.modifier.truncate value)) := by
  have hnamed : e.op.isNamed = e.op.profile.named := by
    cases e.op <;> rfl
  rw [pair, Profile.pair, value_encode_eq, encode_eq, named_eq_labelled, Profile.labelled, hnamed]
  split <;> rfl

/-- A member writes the piece of its variable. -/
theorem body?_eq_piece? (e : Member) (v : Value) :
    e.body? v = e.op.profile.piece? e.spec v := by
  have hencode : e.encode = fun t => e.op.profile.enc (e.spec.modifier.truncate t) :=
    funext e.encode_eq
  have hvalue : e.value.encode = e.op.profile.enc := funext e.value_encode_eq
  have hsep : e.spec.modifier = .explode → [e.separator] = e.op.profile.sep := by
    intro hmodifier
    rw [separator, hmodifier, Operator.separator_eq]
  unfold body?
  split
  · rename_i hundefined
    exact (Profile.piece?_eq_none.2 hundefined).symm
  · rename_i hdefined
    cases v with
    | absent => rfl
    | scalar t => simp only [Profile.piece?, named_eq_labelled, hencode, name]
    | list items =>
      have hne : items ≠ [] := by simpa [Value.isUndefined] using hdefined
      cases hmodifier : e.spec.modifier <;>
        simp_all [Profile.piece?, named_eq_labelled, name, Modifier.truncate]
    | assoc pairs =>
      have hne : pairs ≠ [] := by simpa [Value.isUndefined] using hdefined
      cases hmodifier : e.spec.modifier <;>
        simp_all [Profile.piece?, named_eq_labelled, pair_eq, name, Modifier.truncate]

theorem expand?_eq (e : Member) (lead : Text) (b : Bindings) :
    e.expand? lead b = (e.op.profile.piece? e.spec (b.get e.spec.name)).map (lead ++ ·) := by
  rw [expand?, body?_eq_piece?, name]

end Member

/-! ## Several variables -/

/-- A text that begins each of the later texts is part of what stands between
them. -/
theorem intercalate_lead (lead later group : Text) (piece : Text) (rest : List Text) :
    List.intercalate group ((lead ++ piece) :: rest.map (later ++ ·)) =
      lead ++ List.intercalate (group ++ later) (piece :: rest) := by
  induction rest generalizing lead piece with
  | nil => simp
  | cons next rest ih =>
    rw [List.map_cons, List.intercalate_cons_cons, ih, List.intercalate_cons_cons]
    simp

namespace Composite

/-- The members write the pieces, the first one after one lead and the others
after another. -/
theorem parts_eq (b : Bindings) (op : Operator) (lead later : Text) (specs : List VarSpec) :
    parts b lead later (specs.map fun spec => ⟨op, spec⟩) =
      match op.profile.pieces specs b with
      | [] => []
      | piece :: rest => (lead ++ piece) :: rest.map (later ++ ·) := by
  induction specs generalizing lead with
  | nil => rfl
  | cons spec specs ih =>
    rw [List.map_cons, parts, Member.expand?_eq, Profile.pieces, List.filterMap_cons]
    cases hpiece : op.profile.piece? spec (b.get spec.name) with
    | none => exact ih lead
    | some piece =>
      rw [Option.map_some, ih later]
      dsimp only
      rw [← Profile.pieces]
      cases op.profile.pieces specs b <;> rfl

theorem expand_eq (e : Composite) (b : Bindings) :
    e.expand b = e.op.profile.expand e.specs b := by
  rw [expand, members, parts_eq, Profile.expand]
  cases e.op.profile.pieces e.specs b with
  | nil => rfl
  | cons piece rest =>
    dsimp only
    rw [intercalate_lead, groupSeparator_append_continuationLead, Operator.lead_eq]

end Composite

theorem Member.expand_eq (e : Member) (b : Bindings) :
    e.expand b = e.op.profile.expand [e.spec] b := by
  rw [expand, expand?_eq, Profile.expand, Profile.pieces, List.filterMap_cons, List.filterMap_nil]
  cases e.op.profile.piece? e.spec (b.get e.spec.name) with
  | none => rfl
  | some piece =>
    dsimp only
    rw [Option.map_some, Option.getD_some, List.intercalate_singleton, Operator.lead_eq]

/-! ## Variables without modifiers -/

theorem Single.encode_eq {e : Single} {row : Profile} (h : row.allow = e.charClass) :
    e.encode = row.enc := by
  funext t
  rw [encode, Profile.enc, h]

/-- A plain variable writes its piece without the name. -/
theorem Single.labelled_expand {e : Single} {row : Profile} (h : row.allow = e.charClass)
    {b : Bindings} (hdefined : (b.get e.name).isUndefined = false) :
    row.piece? ⟨e.name, .none⟩ (b.get e.name) =
      some (row.labelled e.name.text (e.expand b)) := by
  rw [expand, encode_eq h]
  cases hv : b.get e.name with
  | absent => simp [hv, Value.isUndefined] at hdefined
  | scalar t => rfl
  | list items =>
    cases items with
    | nil => simp [hv, Value.isUndefined] at hdefined
    | cons item items => rfl
  | assoc pairs =>
    cases pairs with
    | nil => simp [hv, Value.isUndefined] at hdefined
    | cons p pairs => rfl

theorem Multi.parts_eq (e : Multi) (b : Bindings) :
    e.parts b = e.op.profile.pieces (e.names.map fun name => ⟨name, .none⟩) b := by
  obtain ⟨op, names⟩ := e
  rw [parts, values, Profile.pieces]
  induction names with
  | nil => rfl
  | cons name names ih =>
    simp only [List.map_cons, List.filterMap_cons] at ih ⊢
    by_cases hundefined : (b.get name).isUndefined = true
    · rw [List.filter_cons_of_neg (by simp [hundefined]), ih, Profile.piece?_eq_none.2 hundefined]
    · have hdefined : (b.get name).isUndefined = false := by simpa using hundefined
      rw [List.filter_cons_of_pos (by simp [hdefined]), List.map_cons, ih, named_eq_labelled,
        Single.labelled_expand (e := ⟨name, op.charClass⟩) op.charClass_eq.symm hdefined]

theorem Multi.expand_eq (e : Multi) (b : Bindings) :
    e.expand b = e.op.profile.expand (e.names.map fun name => ⟨name, .none⟩) b := by
  rw [expand, parts_eq, Profile.expand]
  cases e.op.profile.pieces (e.names.map fun name => ⟨name, .none⟩) b with
  | nil => rfl
  | cons piece rest =>
    dsimp only
    rw [Operator.lead_eq, Operator.separator_eq]

theorem Single.expand_eq (e : Single) (b : Bindings) :
    e.expand b = e.op.profile.expand [⟨e.name, .none⟩] b := by
  have hallow : e.op.profile.allow = e.charClass := by
    unfold op
    cases e.charClass <;> rfl
  have hplain : e.op.profile.first = [] ∧ e.op.profile.named = false := by
    unfold op
    cases e.charClass <;> exact ⟨rfl, rfl⟩
  rw [Profile.expand, Profile.pieces, List.filterMap_cons, List.filterMap_nil]
  by_cases hundefined : (b.get e.name).isUndefined = true
  · rw [Profile.piece?_eq_none.2 hundefined, expand]
    cases hv : b.get e.name with
    | absent => rfl
    | scalar t => simp [hv, Value.isUndefined] at hundefined
    | list items =>
      obtain rfl : items = [] := by simpa [hv, Value.isUndefined] using hundefined
      rfl
    | assoc pairs =>
      obtain rfl : pairs = [] := by simpa [hv, Value.isUndefined] using hundefined
      rfl
  · have hdefined : (b.get e.name).isUndefined = false := by simpa using hundefined
    rw [labelled_expand hallow hdefined]
    dsimp only
    rw [hplain.1, List.nil_append, List.intercalate_singleton, Profile.labelled, hplain.2]
    rfl

/-! ## Every expression -/

/-- All kinds of expressions write what the one pass writes. -/
theorem Expression.expand_eq_flat (e : Expression) (b : Bindings) :
    e.expand b = e.op.profile.expand e.specs b := by
  cases e with
  | single e => exact e.expand_eq b
  | multi e => exact e.expand_eq b
  | member e => exact e.expand_eq b
  | composite e => exact e.expand_eq b

/-- An expression that is read from its specifications in braces expands as the
one pass over them does, whatever the operator, the modifiers and the values. -/
theorem Expression.expand_of_braced (op : Operator) (first : VarSpec) (rest : List VarSpec)
    (b : Bindings) :
    ∃ e, Expression.parse (braced op ((first :: rest).map VarSpec.text)) = .ok e ∧
      e.expand b = op.profile.expand (first :: rest) b := by
  refine ⟨.ofSpecs op first rest, parse_braced op first rest, ?_⟩
  rw [expand_eq_flat, op_ofSpecs, specs_ofSpecs]

example :
    Operator.parameter.profile.expand
        [⟨⟨['k'], rfl⟩, .explode⟩, ⟨⟨['u'], rfl⟩, .none⟩,
          ⟨⟨['x'], rfl⟩, .upTo ⟨2, by decide, by decide⟩⟩]
        (.ofList [(⟨['k'], rfl⟩, .assoc [(['a'], [';']), (['b'], [])]),
          (⟨['x'], rfl⟩, .scalar "é/z".toList)]) =
      ";a=%3B;b;x=%C3%A9%2F".toList := by decide

end UriTemplate
