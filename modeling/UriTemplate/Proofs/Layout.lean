import UriTemplate.Proofs.FlatExpansion
import UriTemplate.Template.Extraction

/-!
# Layouts

A template is a row of fixed texts and values: its literals, what operators
begin with, what stands between variables, the names before values, and the
values.  `Template.layout` is this row.  It is found from the table of operators
alone, while expansions and regexes are written by each kind of expression in
its own way.  When all variables are bound to scalars, the expansion is the layout
with its values filled in, `Template.expand_eq_flatMap_expand` in the theory of
splits.  Here it is compared with the regex.

* `Template.spread_regex`: the regex is the one of the layout.  Both may cut
  fixed text in different places, and `Regex.spread` takes it apart into
  characters; `Regex.run_spread` says that a match does not depend on it.
* `Template.exists_regex`: there is a regex unless a variable is exploded.
-/

namespace UriTemplate

/-! ## Fixed text in a regex -/

namespace Regex

/-- The part with its fixed text taken apart. -/
def Item.spread : Item → Regex
  | literal t => t.map fun c => literal [c]
  | item => [item]

/-- The regex with all fixed text taken apart into characters. -/
def spread (r : Regex) : Regex :=
  r.flatMap Item.spread

@[simp] theorem spread_nil : spread [] = [] := rfl

@[simp] theorem spread_cons (item : Item) (r : Regex) :
    spread (item :: r) = item.spread ++ spread r := rfl

@[simp] theorem spread_append (r r' : Regex) : spread (r ++ r') = spread r ++ spread r' :=
  List.flatMap_append

theorem Item.spread_literal_append (s t : Text) :
    (literal (s ++ t)).spread = (literal s).spread ++ (literal t).spread := by
  simp [spread]

theorem run_spread_literal_append (t : Text) (r : Regex) (s : Text) :
    Regex.run ((Item.literal t).spread ++ r) s = (Text.stripFront t s).bind r.run := by
  induction t generalizing s with
  | nil => simp [Item.spread, Text.stripFront]
  | cons c t ih =>
    have hstep : (Item.literal (c :: t)).spread ++ r =
        .literal [c] :: ((Item.literal t).spread ++ r) := by
      simp [Item.spread]
    rw [hstep, run, Item.run]
    cases s with
    | nil => rfl
    | cons d s =>
      by_cases hc : c = d
      · simpa [Text.stripFront, hc] using ih s
      · simp [Text.stripFront, hc]

/-- A match does not depend on how fixed text is cut. -/
theorem run_spread (r : Regex) : r.spread.run = r.run := by
  induction r with
  | nil => rfl
  | cons item r ih =>
    funext s
    rw [spread_cons, run]
    cases item with
    | literal t => rw [run_spread_literal_append, ih, Item.run]
    | slot x =>
      rw [Item.spread, List.singleton_append, run, ih]
      simp
    | assigned x =>
      rw [Item.spread, List.singleton_append, run, ih]
      simp

theorem run_eq_of_spread_eq {r r' : Regex} (h : r.spread = r'.spread) : r.run = r'.run := by
  rw [← run_spread, h, run_spread]

end Regex

/-! ## The row of fixed texts and values -/

/-- A part of the texts that a template stands for. -/
inductive Part where
  | fixed (t : Text)
  | value (op : Operator) (spec : VarSpec)
deriving DecidableEq

/-- A row of fixed texts and values. -/
abbrev Layout := List Part

namespace Layout

/-- A variable after its name, as the operator asks for.  The `=` before a value
that may lack it is counted with the value. -/
def ofSpec (op : Operator) (spec : VarSpec) : Layout :=
  if !op.profile.named then [.value op spec]
  else if op.dropsEmptyEquals then [.fixed spec.name.text, .value op spec]
  else [.fixed (spec.name.text ++ ['=']), .value op spec]

/-- Variables under an operator. -/
def ofSpecs (op : Operator) (specs : List VarSpec) : Layout :=
  .fixed op.profile.first :: List.intercalate [.fixed op.profile.sep] (specs.map (ofSpec op))

end Layout

/-- The row of a segment. -/
def Segment.layout : Segment → Layout
  | literal l => [.fixed l.text]
  | expression e => .ofSpecs e.op e.specs

/-- The row of a template. -/
def Template.layout (t : Template) : Layout :=
  t.segments.flatMap Segment.layout

/-! ## The variables of a row -/

namespace Part

/-- The specification of a value. -/
def spec? : Part → Option VarSpec
  | fixed _ => none
  | value _ spec => some spec

end Part

namespace Layout

/-- The specifications of the values from left to right. -/
def specs (parts : Layout) : List VarSpec :=
  parts.filterMap Part.spec?

@[simp] theorem specs_append (parts parts' : Layout) :
    specs (parts ++ parts') = specs parts ++ specs parts' :=
  List.filterMap_append

@[simp] theorem specs_ofSpec (op : Operator) (spec : VarSpec) :
    (ofSpec op spec).specs = [spec] := by
  unfold ofSpec
  split
  · rfl
  · split <;> rfl

theorem specs_intercalate (sep : Text) (rows : List Layout) :
    specs (List.intercalate [.fixed sep] rows) = rows.flatMap specs := by
  induction rows with
  | nil => rfl
  | cons row rows ih =>
    cases rows with
    | nil => simp
    | cons next rows =>
      have hsep : specs [.fixed sep] = [] := rfl
      rw [List.intercalate_cons_cons, specs_append, specs_append, ih, hsep, List.append_nil,
        List.flatMap_cons (x := row)]

@[simp] theorem specs_ofSpecs (op : Operator) (specs : List VarSpec) :
    (ofSpecs op specs).specs = specs := by
  have hrow : (ofSpecs op specs).specs =
      Layout.specs (List.intercalate [.fixed op.profile.sep] (specs.map (ofSpec op))) := rfl
  rw [hrow, specs_intercalate, List.flatMap_map]
  simp

end Layout

theorem Segment.map_name_specs_layout (segment : Segment) :
    segment.layout.specs.map VarSpec.name = segment.names := by
  cases segment with
  | literal l => rfl
  | expression e => rw [layout, Layout.specs_ofSpecs, names, Expression.names_eq]

/-- The values of the row are the variables in their places. -/
theorem Template.map_name_specs_layout (t : Template) :
    t.layout.specs.map VarSpec.name = t.occurrences := by
  rw [layout, occurrences]
  induction t.segments with
  | nil => rfl
  | cons segment segments ih =>
    rw [List.flatMap_cons, Layout.specs_append, List.map_append, ih,
      Segment.map_name_specs_layout, List.flatMap_cons]

theorem mem_foldl_unless_contains {n : Name} (names seen : List Name) :
    n ∈ names.foldl (fun seen n => if seen.contains n then seen else seen ++ [n]) seen ↔
      n ∈ seen ∨ n ∈ names := by
  induction names generalizing seen with
  | nil => simp
  | cons m names ih =>
    rw [List.foldl_cons, ih]
    split
    · rename_i hseen
      have hm : m ∈ seen := by simpa using hseen
      constructor
      · intro h
        rcases h with h | h
        · exact .inl h
        · exact .inr (List.mem_cons_of_mem _ h)
      · intro h
        rcases h with h | h
        · exact .inl h
        · rcases List.mem_cons.1 h with rfl | h
          · exact .inl hm
          · exact .inr h
    · simp [or_assoc]

theorem Template.mem_names {t : Template} {n : Name} : n ∈ t.names ↔ n ∈ t.occurrences := by
  rw [names, mem_foldl_unless_contains]
  simp

/-! ## The regex of a row -/

/-- How many atoms stand for a value under the modifier. -/
def Modifier.count : Modifier → Count
  | none | explode => .any
  | upTo limit => .exactly limit.val

namespace Part

/-- The variables of the part. -/
def names : Part → List Name
  | fixed _ => []
  | value _ spec => [spec.name]

/-- The slot of a value at a place. -/
def slot (op : Operator) (spec : VarSpec) (seen : Seen) : Slot :=
  ⟨groupName seen spec.name, spec.name, op.profile.allow, spec.modifier.count⟩

/-- What the part is matched by at a place. -/
def item (seen : Seen) : Part → Regex.Item
  | fixed t => .literal t
  | value op spec =>
    if op.dropsEmptyEquals then .assigned (slot op spec seen) else .slot (slot op spec seen)

end Part

namespace Layout

/-- The regex of a row at a place. -/
def regex (seen : Seen) : Layout → Regex
  | [] => []
  | part :: rest => part.item seen :: regex (seen ++ part.names) rest

@[simp] theorem regex_nil (seen : Seen) : regex seen [] = [] := rfl

/-- Fixed text leaves the place as it is. -/
@[simp] theorem regex_fixed (seen : Seen) (t : Text) (rest : Layout) :
    regex seen (.fixed t :: rest) = .literal t :: regex seen rest := by
  simp [regex, Part.item, Part.names]

theorem regex_append (seen : Seen) (parts parts' : Layout) :
    regex seen (parts ++ parts') =
      regex seen parts ++ regex (seen ++ parts.flatMap Part.names) parts' := by
  induction parts generalizing seen with
  | nil => simp [regex]
  | cons part parts ih =>
    rw [List.cons_append, regex, ih, regex, List.flatMap_cons, ← List.append_assoc seen]
    rfl

theorem flatMap_names (parts : Layout) :
    parts.flatMap Part.names = parts.specs.map VarSpec.name := by
  induction parts with
  | nil => rfl
  | cons part parts ih =>
    rw [List.flatMap_cons, ih]
    cases part <;> rfl

/-- A variable after its key is matched by what the operator asks for. -/
theorem regex_ofSpec (op : Operator) (spec : VarSpec) (seen : Seen) :
    regex seen (ofSpec op spec) = keyed op spec.name.text (Part.slot op spec seen) := by
  cases op <;> simp [ofSpec, keyed, regex, Part.item, Operator.profile,
    Operator.isNamed, Operator.dropsEmptyEquals]

/-- The place after a variable is one variable further to the right. -/
theorem regex_ofSpec_append (op : Operator) (spec : VarSpec) (sep : Text) (rest : Layout)
    (seen : Seen) :
    regex seen (ofSpec op spec ++ [.fixed sep] ++ rest) =
      regex seen (ofSpec op spec) ++ .literal sep :: regex (seen ++ [spec.name]) rest := by
  rw [List.append_assoc, regex_append, flatMap_names, specs_ofSpec]
  simp

end Layout

/-! ## The regexes of expressions -/

namespace Member

/-- The regex of a member is a lead and the regex of its row. -/
theorem regex_eq_ok {e : Member} {seen : Seen} {lead : Text} {r : Regex} :
    e.regex seen lead = .ok r ↔
      e.spec.modifier ≠ .explode ∧
        r = .literal lead :: Layout.regex seen (.ofSpec e.op e.spec) := by
  rw [Layout.regex_ofSpec, regex]
  cases hmodifier : e.spec.modifier <;>
    simp [Part.slot, Modifier.count, Single.slot, value, name, Operator.charClass_eq, hmodifier,
      eq_comm]

end Member

namespace Composite

theorem regexes_cons_eq_ok {m : Member} {members : List Member} {seen : Seen} {lead later : Text}
    {rs : List Regex} :
    regexes seen lead later (m :: members) = .ok rs ↔
      ∃ first rest, m.regex seen lead = .ok first ∧
        regexes (seen ++ [m.name]) later later members = .ok rest ∧ rs = first :: rest := by
  rw [regexes]
  simp only [bind_eq_ok_iff, pure_eq_ok_iff]
  constructor
  · intro h
    obtain ⟨first, hfirst, rest, hrest, rfl⟩ := h
    exact ⟨first, rest, hfirst, hrest, rfl⟩
  · intro h
    obtain ⟨first, rest, hfirst, hrest, rfl⟩ := h
    exact ⟨first, hfirst, rest, hrest, rfl⟩

/-- The members one after another are the row in which the separators are what
stands between members, with the later leads. -/
theorem spread_joined {op : Operator} {first : VarSpec} {rest : List VarSpec} {seen : Seen}
    {lead later : Text} {rs : List Regex}
    (h : regexes seen lead later ((first :: rest).map fun spec => ⟨op, spec⟩) = .ok rs)
    (group : Text) :
    (joined group rs).spread =
      (Layout.regex seen (.fixed lead :: List.intercalate [.fixed (group ++ later)]
        ((first :: rest).map (Layout.ofSpec op)))).spread := by
  -- The lead is general: after the first member it is the later one.
  induction rest generalizing first seen lead rs with
  | nil =>
    obtain ⟨r, rs', hr, hrs', rfl⟩ := regexes_cons_eq_ok.1 h
    obtain ⟨-, rfl⟩ := Member.regex_eq_ok.1 hr
    cases hrs'
    simp [joined]
  | cons next rest ih =>
    obtain ⟨r, rs', hr, hrs', rfl⟩ := regexes_cons_eq_ok.1 h
    obtain ⟨-, rfl⟩ := Member.regex_eq_ok.1 hr
    have hjoined := ih hrs'
    obtain ⟨r', rs', -, -, rfl⟩ := regexes_cons_eq_ok.1 hrs'
    rw [List.map_cons] at hjoined
    rw [joined, List.intercalate_cons_cons, ← joined, Regex.spread_append, hjoined,
      List.map_cons, List.map_cons, List.intercalate_cons_cons, Layout.regex_fixed,
      Layout.regex_fixed, Layout.regex_ofSpec_append]
    simp [Regex.Item.spread_literal_append, Member.name]

theorem exists_regexes {members : List Member}
    (h : ∀ m ∈ members, m.spec.modifier ≠ .explode) (seen : Seen) (lead later : Text) :
    ∃ rs, regexes seen lead later members = .ok rs := by
  induction members generalizing seen lead with
  | nil => exact ⟨[], rfl⟩
  | cons m members ih =>
    obtain ⟨rest, hrest⟩ :=
      ih (fun m hm => h m (List.mem_cons_of_mem _ hm)) (seen ++ [m.name]) later
    exact ⟨_, regexes_cons_eq_ok.2
      ⟨_, rest, Member.regex_eq_ok.2 ⟨h m List.mem_cons_self, rfl⟩, hrest, rfl⟩⟩

end Composite

namespace Multi

/-- The variables one after another are the row of them. -/
theorem spread_joined (op : Operator) (names : List Name) (seen : Seen) :
    (joined op.profile.sep (regexes op seen (values ⟨op, names⟩))).spread =
      (Layout.regex seen (List.intercalate [.fixed op.profile.sep]
        (names.map fun name => Layout.ofSpec op ⟨name, .none⟩))).spread := by
  induction names generalizing seen with
  | nil => rfl
  | cons name names ih =>
    have hregexes : regexes op seen (values ⟨op, name :: names⟩) =
        Layout.regex seen (.ofSpec op ⟨name, .none⟩) ::
          regexes op (seen ++ [name]) (values ⟨op, names⟩) := by
      rw [Layout.regex_ofSpec, Part.slot, ← Operator.charClass_eq]
      rfl
    cases names with
    | nil =>
      rw [hregexes]
      simp [joined, values, regexes]
    | cons next names =>
      have hnext := ih (seen ++ [name])
      obtain ⟨r, rs, hrs⟩ :
          ∃ r rs, regexes op (seen ++ [name]) (values ⟨op, next :: names⟩) = r :: rs := ⟨_, _, rfl⟩
      rw [hrs, List.map_cons] at hnext
      rw [hregexes, hrs, joined, List.intercalate_cons_cons, ← joined, Regex.spread_append, hnext,
        List.map_cons, List.map_cons, List.intercalate_cons_cons, Layout.regex_ofSpec_append]
      simp

end Multi

namespace Expression

/-- The regex of an expression is the one of its row, however it is built. -/
theorem spread_regex {e : Expression} {seen : Seen} {r : Regex} (h : e.regex seen = .ok r) :
    r.spread = (Layout.regex seen (.ofSpecs e.op e.specs)).spread := by
  cases e with
  | single e =>
    cases h
    obtain ⟨name, charClass⟩ := e
    cases charClass <;> simp [Single.regex, Single.slot, Layout.ofSpecs, Layout.ofSpec,
      Layout.regex, Part.item, Part.slot, op, specs, Single.op, Operator.profile, Modifier.count,
      Operator.dropsEmptyEquals, Regex.Item.spread]
  | multi e =>
    obtain ⟨op, names⟩ := e
    cases h
    rw [Multi.regex, Operator.separator_eq, Regex.spread_cons, Multi.spread_joined, specs,
      Layout.ofSpecs, Operator.lead_eq, List.map_map]
    simp [Expression.op, Function.comp_def]
  | member e =>
    obtain ⟨-, rfl⟩ := Member.regex_eq_ok.1 h
    simp [Layout.ofSpecs, Operator.lead_eq, op, specs]
  | composite e =>
    obtain ⟨op, first, rest⟩ := e
    have h' : Composite.regex ⟨op, first, rest⟩ seen = .ok r := h
    simp only [Composite.regex, bind_eq_ok_iff, pure_eq_ok_iff] at h'
    obtain ⟨rs, hrs, rfl⟩ := h'
    rw [Composite.spread_joined hrs, Composite.groupSeparator_append_continuationLead,
      Operator.lead_eq]
    rfl

/-- There is a regex unless a variable is exploded. -/
theorem exists_regex {e : Expression} (h : ∀ spec ∈ e.specs, spec.modifier ≠ .explode)
    (seen : Seen) : ∃ r, e.regex seen = .ok r := by
  cases e with
  | single e => exact ⟨_, rfl⟩
  | multi e => exact ⟨_, rfl⟩
  | member e => exact ⟨_, Member.regex_eq_ok.2 ⟨h e.spec List.mem_cons_self, rfl⟩⟩
  | composite e =>
    have hmembers : ∀ m ∈ e.members, m.spec.modifier ≠ .explode := by
      intro m hm
      obtain ⟨spec, hspec, rfl⟩ := List.mem_map.1 hm
      exact h spec hspec
    obtain ⟨rs, hrs⟩ := Composite.exists_regexes hmembers seen e.op.lead e.continuationLead
    exact ⟨joined e.groupSeparator rs, by rw [regex, Composite.regex, hrs]; rfl⟩

end Expression

/-! ## The regex of a template -/

namespace Template

theorem spread_regexFrom {source : Text} {segments : List Segment} {seen : Seen} {r : Regex}
    (h : regexFrom source seen segments = .ok r) :
    r.spread = (Layout.regex seen (segments.flatMap Segment.layout)).spread := by
  induction segments generalizing seen r with
  | nil =>
    cases h
    rfl
  | cons segment segments ih =>
    rw [List.flatMap_cons, Layout.regex_append, Regex.spread_append, Layout.flatMap_names,
      Segment.map_name_specs_layout]
    cases segment with
    | literal l =>
      simp only [regexFrom, bind_eq_ok_iff, pure_eq_ok_iff] at h
      obtain ⟨r', hr', rfl⟩ := h
      rw [Regex.spread_cons, ih hr', Segment.names, List.append_nil]
      simp [Segment.layout]
    | expression e =>
      rw [regexFrom] at h
      split at h
      · cases h
      · rename_i first hfirst
        simp only [bind_eq_ok_iff, pure_eq_ok_iff] at h
        obtain ⟨r', hr', rfl⟩ := h
        rw [Regex.spread_append, Expression.spread_regex hfirst, ih hr', Segment.names,
          Segment.layout]

theorem exists_regexFrom {segments : List Segment}
    (h : ∀ spec ∈ Layout.specs (segments.flatMap Segment.layout), spec.modifier ≠ .explode)
    (source : Text) (seen : Seen) : ∃ r, regexFrom source seen segments = .ok r := by
  induction segments generalizing seen with
  | nil => exact ⟨[], rfl⟩
  | cons segment segments ih =>
    rw [List.flatMap_cons, Layout.specs_append] at h
    have hsegments (seen : Seen) :=
      ih (fun spec hspec => h spec (List.mem_append_right _ hspec)) seen
    cases segment with
    | literal l =>
      obtain ⟨r, hr⟩ := hsegments seen
      exact ⟨.literal l.text :: r, by rw [regexFrom, hr]; rfl⟩
    | expression e =>
      have hspecs : ∀ spec ∈ e.specs, spec.modifier ≠ .explode := by
        intro spec hspec
        refine h spec (List.mem_append_left _ ?_)
        rwa [Segment.layout, Layout.specs_ofSpecs]
      obtain ⟨first, hfirst⟩ := Expression.exists_regex hspecs seen
      obtain ⟨r, hr⟩ := hsegments (seen ++ e.names)
      exact ⟨first ++ r, by rw [regexFrom, hfirst, hr]; rfl⟩

/-- The regex of a template is the one of its row. -/
theorem spread_regex {t : Template} {r : Regex} (h : t.regex = .ok r) :
    r.spread = (Layout.regex [] t.layout).spread :=
  spread_regexFrom h

/-- A template matches what its row matches. -/
theorem match?_eq_run {t : Template} {r : Regex} (hr : t.regex = .ok r) (url : Text) :
    r.match? url = (Layout.regex [] t.layout).run url := by
  rw [Regex.match?_eq, Regex.run_eq_of_spread_eq (spread_regex hr)]

/-- There is a regex unless a variable is exploded. -/
theorem exists_regex {t : Template} (h : ∀ spec ∈ t.layout.specs, spec.modifier ≠ .explode) :
    ∃ r, t.regex = .ok r :=
  exists_regexFrom h t.source []

theorem extract_of_match?_eq_none {t : Template} {r : Regex} {url : Text} (hr : t.regex = .ok r)
    (hmatch : r.match? url = none) : t.extract url = .error (.mismatch url) := by
  simp only [extract, hr, bind, Except.bind, hmatch]

/-- Of a match the values in its slots are bound. -/
theorem extract_of_match?_eq_some {t : Template} {r : Regex} {url : Text}
    {captures : Regex.Captures} (hr : t.regex = .ok r) (hmatch : r.match? url = some captures) :
    t.extract url = bindSlots url ∅ captures := by
  simp only [extract, hr, bind, Except.bind, hmatch]

/-- Extraction matches the regex of the row. -/
theorem extract_eq_ok {t : Template} {url : Text} {b : Bindings} :
    t.extract url = .ok b ↔
      (∃ r, t.regex = .ok r) ∧ ∃ captures, (Layout.regex [] t.layout).run url = some captures ∧
        bindSlots url ∅ captures = .ok b := by
  constructor
  · intro h
    simp only [extract, bind_eq_ok_iff] at h
    obtain ⟨r, hr, h⟩ := h
    rw [match?_eq_run hr] at h
    split at h
    · cases h
    · rename_i captures hcaptures
      exact ⟨⟨r, hr⟩, captures, hcaptures, h⟩
  · intro h
    obtain ⟨⟨r, hr⟩, captures, hcaptures, h⟩ := h
    rw [extract_of_match?_eq_some hr ((match?_eq_run hr url).trans hcaptures), h]

end Template

end UriTemplate
