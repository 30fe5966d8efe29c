import UriTemplate.Proofs.CanonicalSpelling

/-!
# What an expansion tells of its bindings

Two expansions of one template are compared, under two sets of bindings.

The first comparison says that an expansion reads its own variables only, and that
all values without members are alike to it.  It holds for every template, as the one
pass over the variables asks for nothing but the piece of each.

The second one is about delimiters.  A value under an operator that keeps
unreserved characters only is written in unreserved characters and triplets, so
every other character of an expansion is one of the template: it stands in a
literal, or an operator puts it before a value.  The values have a say in one of
them.  It is the `=` that an operator drops when a value is empty.

* `Template.expand_eq_of_agree`: an expansion depends on the variables of the
  template, and only on those that are defined.
* `Part.delimiters_expand`: the delimiters that are written for a part of a layout.
* `Template.delimiters_expand_eq`: values neither add nor remove nor move a
  delimiter.
-/

namespace UriTemplate

open Percent

/-! ## The values that are read -/

namespace Bindings

/-- Whether an expansion has nothing to write for a name: it is unbound, or its value
is absent or has no members. -/
def Undefined (b : Bindings) (n : Name) : Prop :=
  b.find? n = none ∨ b.find? n = some .absent ∨ b.find? n = some (.list []) ∨
    b.find? n = some (.assoc [])

/-- Whether each of some names has the same value in two sets of bindings, or is
undefined in both. -/
def AgreeOn (b b' : Bindings) (names : List Name) : Prop :=
  ∀ n ∈ names, b.find? n = b'.find? n ∨ (b.Undefined n ∧ b'.Undefined n)

theorem Undefined.isUndefined_get {b : Bindings} {n : Name} (h : b.Undefined n) :
    (b.get n).isUndefined = true := by
  unfold Undefined at h
  rw [get]
  rcases h with h | h | h | h <;> rw [h] <;> rfl

end Bindings

/-- A variable has the same piece, if it has any, under bindings that agree on it. -/
theorem Profile.piece?_congr {b b' : Bindings} {names : List Name} (h : b.AgreeOn b' names)
    (row : Profile) {spec : VarSpec} (hspec : spec.name ∈ names) :
    row.piece? spec (b.get spec.name) = row.piece? spec (b'.get spec.name) := by
  rcases h spec.name hspec with hsame | ⟨hundefined, hundefined'⟩
  · rw [Bindings.get, Bindings.get, hsame]
  · have hnone := (@piece?_eq_none row spec _).2 hundefined.isUndefined_get
    have hnone' := (@piece?_eq_none row spec _).2 hundefined'.isUndefined_get
    rw [hnone, hnone']

/-- The pass over the variables of an expression reads nothing but their pieces. -/
theorem Expression.expand_congr {b b' : Bindings} {e : Expression}
    (h : b.AgreeOn b' e.names) : e.expand b = e.expand b' := by
  have hpieces : e.op.profile.pieces e.specs b = e.op.profile.pieces e.specs b' := by
    rw [Profile.pieces, Profile.pieces]
    apply List.filterMap_congr
    intro spec hspec
    apply Profile.piece?_congr h
    rw [Expression.names_eq]
    exact List.mem_map_of_mem hspec
  rw [expand_eq_flat, expand_eq_flat, Profile.expand, Profile.expand, hpieces]

namespace Template

/-- An expansion depends on the variables of the template only, and on each of them
only through its value, if that is defined. -/
theorem expand_eq_of_agree {t : Template} {b b' : Bindings} (h : b.AgreeOn b' t.names) :
    t.expand b = t.expand b' := by
  rw [expand, expand]
  apply List.flatMap_congr
  intro segment hsegment
  cases segment with
  | literal l => rfl
  | expression e =>
    show e.expand b = e.expand b'
    apply Expression.expand_congr
    intro n hn
    exact h n (mem_names.2 (List.mem_flatMap.2 ⟨_, hsegment, hn⟩))

theorem expand_eq_of_agree_undefined_members :
    ∃ t b b', parse "\x7b?q*,y:2,u\x7d\x7b;u\x7d".toList = .ok t ∧ b.AgreeOn b' t.names ∧
      b ≠ b' ∧ t.expand b = "?y=%C3%A9t".toList ∧ t.expand b = t.expand b' := by
  let q : Name := ⟨['q'], rfl⟩
  let y : Name := ⟨['y'], rfl⟩
  let u : Name := ⟨['u'], rfl⟩
  let z : Name := ⟨['z'], rfl⟩
  let b : Bindings := .ofList [(q, .list []), (u, .absent), (y, .scalar "été".toList)]
  let b' : Bindings :=
    .ofList [(u, .assoc []), (y, .scalar "été".toList), (z, .scalar "/".toList)]
  let t : Template := ⟨"\x7b?q*,y:2,u\x7d\x7b;u\x7d".toList,
    [.expression (.composite ⟨.query, ⟨q, .explode⟩,
        [⟨y, .upTo ⟨2, by decide, by decide⟩⟩, ⟨u, .none⟩]⟩),
      .expression (.member ⟨.parameter, ⟨u, .none⟩⟩)]⟩
  have hq : b.Undefined q ∧ b'.Undefined q := ⟨.inr (.inr (.inl rfl)), .inl rfl⟩
  have hu : b.Undefined u ∧ b'.Undefined u := ⟨.inr (.inl rfl), .inr (.inr (.inr rfl))⟩
  have hagree : b.AgreeOn b' t.names := by
    show ∀ n ∈ [q, y, u], _
    intro n hn
    simp only [List.mem_cons, List.not_mem_nil, or_false] at hn
    rcases hn with rfl | rfl | rfl
    · exact .inr hq
    · exact .inl rfl
    · exact .inr hu
  exact ⟨t, b, b', rfl, hagree, by decide, by decide +kernel, expand_eq_of_agree hagree⟩

end Template

/-! ## Delimiters -/

/-- A character that values are never written with, unless their operator keeps
reserved characters. -/
def isDelimiter (c : Char) : Bool :=
  !isUnreserved c && c != '%'

/-- The delimiters of a text in order. -/
def Text.delimiters (t : Text) : Text :=
  t.filter isDelimiter

namespace Text

@[simp] theorem delimiters_nil : delimiters [] = [] := rfl

@[simp] theorem delimiters_append (s t : Text) :
    delimiters (s ++ t) = delimiters s ++ delimiters t :=
  List.filter_append ..

@[simp] theorem delimiters_flatMap {α : Type} (f : α → Text) (xs : List α) :
    delimiters (xs.flatMap f) = xs.flatMap fun x => delimiters (f x) :=
  List.filter_flatMap ..

theorem delimiters_cons_of_not {c : Char} (hc : isDelimiter c = false) (t : Text) :
    delimiters (c :: t) = delimiters t := by
  rw [delimiters, List.filter_cons_of_neg (by simp [hc]), delimiters]

end Text

/-- Rows of unreserved characters and triplets have no delimiters. -/
theorem Percent.AtomRow.delimiters_eq_nil {n : Nat} {row : Text}
    (h : AtomRow .unreserved n row) : Text.delimiters row = [] := by
  have hdigit {c : Char} (hc : isHexDigit c = true) : isDelimiter c = false := by
    rw [isDelimiter, isUnreserved_of_isHexDigit hc]
    rfl
  induction h with
  | nil => rfl
  | @cons n atom row hatom _ ih =>
    rw [Text.delimiters_append, ih, List.append_nil]
    cases hatom with
    | @kept c hc =>
      have hkept : isUnreserved c = true := hc
      rw [Text.delimiters_cons_of_not (by rw [isDelimiter, hkept]; rfl), Text.delimiters_nil]
    | @triplet high low hhigh hlow =>
      rw [Text.delimiters_cons_of_not rfl, Text.delimiters_cons_of_not (hdigit hhigh),
        Text.delimiters_cons_of_not (hdigit hlow), Text.delimiters_nil]

namespace Written

/-- All delimiters of a share are of the template: they stand before the piece. -/
theorem delimiters_text {w : Written} (h : w.piece.delimiters = []) :
    w.text.delimiters = w.lead.delimiters := by
  rw [text_eq, Text.delimiters_append, h, List.append_nil]

/-- Of the value itself it only counts whether it is empty. -/
theorem lead_ofPiece_congr {piece piece' : Text} (h : piece = [] ↔ piece' = [])
    (op : Operator) (spec : VarSpec) :
    (ofPiece op spec piece).lead = (ofPiece op spec piece').lead := by
  unfold ofPiece
  simp only [h]
  split <;> rfl

end Written

/-- A prefix of a text is empty only if the text is, as no limit is zero. -/
theorem Modifier.truncate_eq_nil {m : Modifier} {t : Text} : m.truncate t = [] ↔ t = [] := by
  cases m with
  | none => rfl
  | explode => rfl
  | upTo limit =>
    have hpos : limit.val ≠ 0 := Nat.ne_of_gt limit.one_le
    show t.take limit.val = [] ↔ t = []
    rw [List.take_eq_nil_iff]
    exact or_iff_right hpos

theorem encodedValue_eq_nil {b : Bindings} {op : Operator} {spec : VarSpec} {t : Text}
    (h : b.find? spec.name = some (.scalar t)) : encodedValue b op spec = [] ↔ t = [] := by
  rw [encodedValue, Bindings.get_of_find? h, Profile.enc, encode_eq_nil, Modifier.truncate_eq_nil]
  rfl

/-- The delimiters that are written for a part of a layout stand before its piece. -/
theorem Part.delimiters_expand {b : Bindings} {part : Part} (h : part.charClass = .unreserved) :
    (part.expand b).delimiters = (part.write b).lead.delimiters := by
  apply Written.delimiters_text
  cases part with
  | fixed t => rfl
  | value op spec =>
    have hallow : op.profile.allow = .unreserved := h
    rw [write, Written.ofPiece]
    split
    · rfl
    · have hrow := atomRow_encode op.profile.allow
        (spec.modifier.truncate ((b.get spec.name).scalar?.getD []))
      rw [hallow] at hrow
      show Text.delimiters (encodedValue b op spec) = []
      rw [encodedValue, Profile.enc, hallow]
      exact hrow.delimiters_eq_nil

/-! ## Operators that keep unreserved characters only -/

theorem forall_mem_intercalate {α : Type} {P : α → Prop} {sep : List α} {rows : List (List α)}
    (hsep : ∀ x ∈ sep, P x) (hrows : ∀ row ∈ rows, ∀ x ∈ row, P x) :
    ∀ x ∈ List.intercalate sep rows, P x := by
  induction rows with
  | nil => simp
  | cons row rows ih =>
    have hrow := hrows row List.mem_cons_self
    have hrest := ih fun r hr => hrows r (List.mem_cons_of_mem _ hr)
    cases rows with
    | nil => simpa using hrow
    | cons next rows =>
      rw [List.intercalate_cons_cons]
      intro x hx
      rcases List.mem_append.1 hx with hx | hx
      · rcases List.mem_append.1 hx with hx | hx
        · exact hrow x hx
        · exact hsep x hx
      · exact hrest x hx

namespace Layout

theorem eq_of_mem_ofSpec {op : Operator} {spec : VarSpec} {part : Part}
    (h : part ∈ ofSpec op spec) :
    part = .value op spec ∨ part = .fixed spec.name.text ∨
      part = .fixed (spec.name.text ++ ['=']) := by
  unfold ofSpec at h
  split at h
  · exact .inl (List.mem_singleton.1 h)
  · split at h
    · rcases List.mem_pair.1 h with h | h
      · exact .inr (.inl h)
      · exact .inl h
    · rcases List.mem_pair.1 h with h | h
      · exact .inr (.inr h)
      · exact .inl h

/-- A part of the row of an expression stands between variables or with one of them. -/
theorem eq_of_mem_ofSpecs {op : Operator} {specs : List VarSpec} {part : Part}
    (h : part ∈ ofSpecs op specs) :
    part = .fixed op.profile.first ∨ part = .fixed op.profile.sep ∨
      ∃ spec ∈ specs, part = .value op spec ∨ part = .fixed spec.name.text ∨
        part = .fixed (spec.name.text ++ ['=']) := by
  have hrows : ∀ part ∈ List.intercalate [.fixed op.profile.sep] (specs.map (ofSpec op)),
      part = .fixed op.profile.sep ∨ ∃ spec ∈ specs, part ∈ ofSpec op spec := by
    apply forall_mem_intercalate
    · intro part hmem
      exact .inl (List.mem_singleton.1 hmem)
    · intro row hrow part hmem
      obtain ⟨spec, hspec, rfl⟩ := List.mem_map.1 hrow
      exact .inr ⟨spec, hspec, hmem⟩
  rcases List.mem_cons.1 h with hfirst | hrest
  · exact .inl hfirst
  · rcases hrows part hrest with hsep | ⟨spec, hspec, hmem⟩
    · exact .inr (.inl hsep)
    · exact .inr (.inr ⟨spec, hspec, eq_of_mem_ofSpec hmem⟩)

/-- The values in the row of an expression are its variables, under its operator. -/
theorem eq_of_value_mem_ofSpecs {op op' : Operator} {spec : VarSpec} {specs : List VarSpec}
    (h : Part.value op' spec ∈ ofSpecs op specs) : op' = op ∧ spec ∈ specs := by
  rcases eq_of_mem_ofSpecs h with heq | heq | ⟨spec', hspec', heq | heq | heq⟩ <;> cases heq
  exact ⟨rfl, hspec'⟩

end Layout

namespace Template

/-- Whether no operator of the template keeps reserved characters. -/
def Unreserved (t : Template) : Prop :=
  ∀ e, Segment.expression e ∈ t.segments → e.op.charClass = .unreserved

theorem Unreserved.charClass_eq {t : Template} (h : t.Unreserved) {part : Part}
    (hpart : part ∈ t.layout) : part.charClass = .unreserved := by
  cases part with
  | fixed f => rfl
  | value op spec =>
    obtain ⟨segment, hsegment, hpart⟩ := List.mem_flatMap.1 hpart
    cases segment with
    | literal l => simp [Segment.layout] at hpart
    | expression e =>
      rw [Part.charClass, (Layout.eq_of_value_mem_ofSpecs hpart).1, ← Operator.charClass_eq]
      exact h e hsegment

theorem name_mem_names_of_mem_layout {t : Template} {op : Operator} {spec : VarSpec}
    (hpart : Part.value op spec ∈ t.layout) : spec.name ∈ t.names := by
  rw [mem_names, ← map_name_specs_layout]
  exact List.mem_map_of_mem (List.mem_filterMap.2 ⟨_, hpart, rfl⟩)

/-- Values cannot bring delimiters into an expansion.  If no operator keeps reserved
characters, bindings of scalars that are empty for the same variables write the same
delimiters in the same order. -/
theorem delimiters_expand_eq {s : Text} {t : Template} {b b' : Bindings}
    (hparse : parse s = .ok t) (hunreserved : t.Unreserved)
    (hb : ∀ n ∈ t.names, ∃ text, b.find? n = some (.scalar text))
    (hb' : ∀ n ∈ t.names, ∃ text, b'.find? n = some (.scalar text))
    (hempty : ∀ n ∈ t.names, b.find? n = some (.scalar []) ↔ b'.find? n = some (.scalar [])) :
    (t.expand b).delimiters = (t.expand b').delimiters := by
  rw [expand_eq_flatMap_expand hparse hb, expand_eq_flatMap_expand hparse hb',
    Text.delimiters_flatMap, Text.delimiters_flatMap]
  apply List.flatMap_congr
  intro part hpart
  rw [Part.delimiters_expand (hunreserved.charClass_eq hpart),
    Part.delimiters_expand (hunreserved.charClass_eq hpart)]
  cases part with
  | fixed t => rfl
  | value op spec =>
    have hname := name_mem_names_of_mem_layout hpart
    obtain ⟨text, hfind⟩ := hb _ hname
    obtain ⟨text', hfind'⟩ := hb' _ hname
    have hpieces : encodedValue b op spec = [] ↔ encodedValue b' op spec = [] := by
      rw [encodedValue_eq_nil hfind, encodedValue_eq_nil hfind']
      simpa [hfind, hfind'] using hempty _ hname
    rw [Part.write, Part.write, Written.lead_ofPiece_congr hpieces]

theorem delimiters_expand_eq_reserved_values :
    ∃ t b b', parse "/\x7bx:2\x7d\x7b;y,z\x7d\x7b?q*\x7d".toList = .ok t ∧ t.Unreserved ∧
      (∀ n ∈ t.names, ∃ text, b.find? n = some (.scalar text)) ∧
      (∀ n ∈ t.names, ∃ text, b'.find? n = some (.scalar text)) ∧
      (∀ n ∈ t.names, b.find? n = some (.scalar []) ↔ b'.find? n = some (.scalar [])) ∧
      t.expand b = "/a%2F;y;z=%C3%A9%26?q=1%3D2".toList ∧ t.expand b' = "/%3F;y;z=0?q=%3B".toList ∧
      (t.expand b).delimiters = (t.expand b').delimiters := by
  let x : Name := ⟨['x'], rfl⟩
  let y : Name := ⟨['y'], rfl⟩
  let z : Name := ⟨['z'], rfl⟩
  let q : Name := ⟨['q'], rfl⟩
  let b : Bindings := .ofList [(x, .scalar "a/b".toList), (y, .scalar []),
    (z, .scalar "é&".toList), (q, .scalar "1=2".toList)]
  let b' : Bindings := .ofList [(x, .scalar ['?']), (y, .scalar []), (z, .scalar ['0']),
    (q, .scalar [';'])]
  let t : Template := ⟨"/\x7bx:2\x7d\x7b;y,z\x7d\x7b?q*\x7d".toList,
    [.literal [.plain '/'], .expression (.member ⟨.simple, ⟨x, .upTo ⟨2, by decide, by decide⟩⟩⟩),
      .expression (.composite ⟨.parameter, ⟨y, .none⟩, [⟨z, .none⟩]⟩),
      .expression (.member ⟨.query, ⟨q, .explode⟩⟩)]⟩
  have hunreserved : t.Unreserved := by
    intro e he
    simp only [t, List.mem_cons, List.not_mem_nil, reduceCtorEq, Segment.expression.injEq, or_false,
      false_or] at he
    rcases he with rfl | rfl | rfl <;> rfl
  have hb : ∀ n ∈ t.names, ∃ text, b.find? n = some (.scalar text) := by
    show ∀ n ∈ [x, y, z, q], ∃ text, b.find? n = some (.scalar text)
    exact List.forall_mem_cons.2 ⟨⟨_, rfl⟩, List.forall_mem_cons.2 ⟨⟨_, rfl⟩,
      List.forall_mem_cons.2 ⟨⟨_, rfl⟩, List.forall_mem_cons.2 ⟨⟨_, rfl⟩, by simp⟩⟩⟩⟩
  have hb' : ∀ n ∈ t.names, ∃ text, b'.find? n = some (.scalar text) := by
    show ∀ n ∈ [x, y, z, q], ∃ text, b'.find? n = some (.scalar text)
    exact List.forall_mem_cons.2 ⟨⟨_, rfl⟩, List.forall_mem_cons.2 ⟨⟨_, rfl⟩,
      List.forall_mem_cons.2 ⟨⟨_, rfl⟩, List.forall_mem_cons.2 ⟨⟨_, rfl⟩, by simp⟩⟩⟩⟩
  have hempty : ∀ n ∈ t.names, b.find? n = some (.scalar []) ↔ b'.find? n = some (.scalar []) := by
    show ∀ n ∈ [x, y, z, q], _
    decide
  exact ⟨t, b, b', rfl, hunreserved, hb, hb', hempty, by decide +kernel, by decide +kernel,
    delimiters_expand_eq (s := t.source) rfl hunreserved hb hb' hempty⟩

end Template

end UriTemplate
