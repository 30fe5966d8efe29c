import UriTemplate.Proofs.ExtractionSupport
import UriTemplate.Proofs.TextFacts

/-!
# Capture groups

The regex of a template has a named group for each place of a variable.  A variable can
stand in several places and a name can begin with a digit, so groups are called by their
variables where that is possible and by their place otherwise.  The invariant along the
slots is that each group is named after the slots in front of it.

* `groupName_cases`: the two ways to name a group.
* `groupName_ne`: a group is called unlike each one after it.
* `Placed.groups_nodup`: the groups of a row of slots, by induction on it.
* `Layout.map_name_slots` and `Layout.placed_slots`: the slots of a template's row, by
  induction on the row.
* `Template.exists_unambiguous_regex`: the groups of a template without exploded variables.
-/

namespace UriTemplate

/-! ## Group names -/

/-- The name of a group after the number of groups before it. -/
def syntheticGroup (k : Nat) : Text :=
  '_' :: '.' :: Text.ofNat k

theorem syntheticGroup_inj {k l : Nat} : syntheticGroup k = syntheticGroup l ↔ k = l := by
  constructor
  · intro h
    have hdigits : Text.ofNat k = Text.ofNat l := by simpa [syntheticGroup] using h
    rw [← Text.toNat_ofNat k, hdigits, Text.toNat_ofNat]
  · rintro rfl
    rfl

/-- A variable name holds no dot. -/
theorem Name.text_ne_syntheticGroup (n : Name) (k : Nat) : n.text ≠ syntheticGroup k := by
  intro h
  have hdot : '.' ∈ n.text := by simp [h, syntheticGroup]
  exact absurd (n.isNameChar_of_mem hdot) (by decide)

/-- Whether a group can be called like the variable, as it does not begin with a digit. -/
def Name.LeadsGroup (n : Name) : Prop :=
  ∃ c rest, n.text = c :: rest ∧ (c.isAlpha = true ∨ c = '_')

/-- A group is called like its variable the first time, if it can be, and else after its
place. -/
theorem groupName_cases (seen : Seen) (n : Name) :
    (n ∉ seen ∧ n.LeadsGroup ∧ groupName seen n = n.text) ∨
      (¬(n ∉ seen ∧ n.LeadsGroup) ∧ groupName seen n = syntheticGroup seen.length) := by
  obtain ⟨c, rest, htext⟩ := List.exists_cons_of_ne_nil n.text_ne_nil
  have hleads : n.LeadsGroup ↔ (c.isAlpha || c == '_') = true := by
    simp [Name.LeadsGroup, htext]
  rw [groupName, hleads]
  simp only [htext]
  by_cases hown : n ∉ seen ∧ (c.isAlpha || c == '_') = true
  · exact .inl ⟨hown.1, hown.2, if_pos (by simp [hown.1, hown.2])⟩
  · refine .inr ⟨hown, if_neg ?_⟩
    simpa [and_comm] using hown

/-- A group is called unlike each one after it. -/
theorem groupName_ne (seen between : Seen) (n m : Name) :
    groupName seen n ≠ groupName (seen ++ n :: between) m := by
  intro heq
  rcases groupName_cases seen n with ⟨-, -, hn⟩ | ⟨-, hn⟩ <;>
    rcases groupName_cases (seen ++ n :: between) m with ⟨hm', -, hm⟩ | ⟨-, hm⟩ <;>
    rw [hn, hm] at heq
  · exact hm' (by simp [Name.ext heq])
  · exact n.text_ne_syntheticGroup _ heq
  · exact m.text_ne_syntheticGroup _ heq.symm
  · have hlength := syntheticGroup_inj.1 heq
    simp at hlength

/-- Whether regexes can have a group of this name: a letter or `_`, and then letters,
digits, `_` and dots. -/
def IsGroupName (t : Text) : Prop :=
  ∃ c rest, t = c :: rest ∧ (c.isAlpha = true ∨ c = '_') ∧
    ∀ d ∈ rest, d.isAlphanum = true ∨ d = '_' ∨ d = '.'

theorem isGroupName_groupName (seen : Seen) (n : Name) : IsGroupName (groupName seen n) := by
  rcases groupName_cases seen n with ⟨-, ⟨c, rest, htext, hc⟩, hname⟩ | ⟨-, hname⟩
  · refine ⟨c, rest, hname.trans htext, hc, fun d hd => ?_⟩
    have hchar : isNameChar d = true := n.isNameChar_of_mem (by simp [htext, hd])
    simpa [isNameChar, or_assoc] using Or.inl hchar
  · refine ⟨'_', '.' :: Text.ofNat seen.length, hname, .inr rfl, fun d hd => ?_⟩
    rcases List.mem_cons.1 hd with rfl | hd
    · exact .inr (.inr rfl)
    · exact .inl (by simp [Char.isAlphanum, Text.isDigit_of_mem_ofNat hd])

/-! ## Slots in their places -/

/-- Whether the groups of slots are named after the slots in front of them, and the
variables `seen` in front of those. -/
def Placed (seen : Seen) (slots : List Slot) : Prop :=
  ∀ front x back, slots = front ++ x :: back →
    x.group = groupName (seen ++ front.map Slot.name) x.name

theorem placed_nil (seen : Seen) : Placed seen [] := by
  intro front x back h
  simp at h

theorem placed_cons {seen : Seen} {x : Slot} {slots : List Slot} :
    Placed seen (x :: slots) ↔
      x.group = groupName seen x.name ∧ Placed (seen ++ [x.name]) slots := by
  constructor
  · intro h
    refine ⟨by simpa using h [] x slots rfl, fun front y back hslots => ?_⟩
    simpa using h (x :: front) y back (by rw [hslots, List.cons_append])
  · rintro ⟨hfirst, hrest⟩ front y back hslots
    cases front with
    | nil =>
      obtain ⟨rfl, -⟩ := List.cons.inj hslots
      simpa using hfirst
    | cons z front =>
      obtain ⟨rfl, htail⟩ := List.cons.inj hslots
      simpa using hrest front y back htail

/-- Groups in their places are called differently. -/
theorem Placed.groups_nodup {seen : Seen} {slots : List Slot} (h : Placed seen slots) :
    (slots.map Slot.group).Nodup := by
  induction slots generalizing seen with
  | nil => exact List.nodup_nil
  | cons x slots ih =>
    obtain ⟨hfirst, hrest⟩ := placed_cons.1 h
    refine List.nodup_cons.2 ⟨fun hmem => ?_, ih hrest⟩
    obtain ⟨y, hy, hgroup⟩ := List.mem_map.1 hmem
    obtain ⟨front, back, hslots⟩ := List.append_of_mem hy
    have hlater := hrest front y back hslots
    rw [List.append_assoc, List.singleton_append] at hlater
    exact groupName_ne seen (front.map Slot.name) x.name y.name
      (by rw [← hfirst, ← hlater, hgroup])

namespace Regex

theorem slots_append (r r' : Regex) : slots (r ++ r') = slots r ++ slots r' :=
  List.filterMap_append

/-- Fixed text has no slots, however it is cut. -/
theorem slots_spread (r : Regex) : slots r.spread = slots r := by
  induction r with
  | nil => rfl
  | cons item r ih =>
    rw [spread_cons, slots_append, ih]
    cases item with
    | literal t =>
      have hnone : slots (Item.literal t).spread = [] := by
        simp [Item.spread, slots, Item.slot?, List.filterMap_map, Function.comp_def]
      rw [hnone, List.nil_append]
      rfl
    | slot x => rfl
    | assigned x => rfl

end Regex

namespace Layout

theorem slots_regex_fixed (seen : Seen) (t : Text) (parts : Layout) :
    (regex seen (.fixed t :: parts)).slots = (regex seen parts).slots := by
  rw [regex_fixed]
  rfl

theorem slots_regex_value (seen : Seen) (op : Operator) (spec : VarSpec) (parts : Layout) :
    (regex seen (.value op spec :: parts)).slots =
      Part.slot op spec seen :: (regex (seen ++ [spec.name]) parts).slots := by
  rw [regex, Part.item]
  split <;> rfl

/-- The slots of a row are those of its values. -/
theorem map_name_slots (seen : Seen) (parts : Layout) :
    (regex seen parts).slots.map Slot.name = parts.specs.map VarSpec.name := by
  induction parts generalizing seen with
  | nil => rfl
  | cons part parts ih =>
    cases part with
    | fixed t => exact slots_regex_fixed seen t parts ▸ ih seen
    | value op spec =>
      rw [slots_regex_value, List.map_cons, ih]
      rfl

theorem placed_slots (seen : Seen) (parts : Layout) : Placed seen (regex seen parts).slots := by
  induction parts generalizing seen with
  | nil => exact placed_nil seen
  | cons part parts ih =>
    cases part with
    | fixed t => exact slots_regex_fixed seen t parts ▸ ih seen
    | value op spec =>
      rw [slots_regex_value]
      exact placed_cons.2 ⟨rfl, ih (seen ++ [spec.name])⟩

end Layout

/-! ## The groups of a template -/

/-- Whether slots are for the places of variables, one for each, with groups that a regex
can tell apart. -/
structure Unambiguous (names : List Name) (slots : List Slot) : Prop where
  names_eq : slots.map Slot.name = names
  groups_nodup : (slots.map Slot.group).Nodup
  legal : ∀ x ∈ slots, IsGroupName x.group
  /-- A group is called like a variable just if it is the first of that variable. -/
  own_iff : ∀ front x back, slots = front ++ x :: back → ∀ n : Name,
    x.group = n.text ↔ n = x.name ∧ n ∉ front.map Slot.name ∧ n.LeadsGroup
  /-- Any other group is called after the number of groups before it. -/
  synthetic : ∀ front x back, slots = front ++ x :: back → x.group ≠ x.name.text →
    x.group = syntheticGroup front.length

theorem Placed.unambiguous {slots : List Slot} (h : Placed [] slots) :
    Unambiguous (slots.map Slot.name) slots where
  names_eq := rfl
  groups_nodup := h.groups_nodup
  legal x hx := by
    obtain ⟨front, back, hslots⟩ := List.append_of_mem hx
    rw [h front x back hslots]
    exact isGroupName_groupName _ _
  own_iff front x back hslots n := by
    rw [h front x back hslots, List.nil_append]
    rcases groupName_cases (front.map Slot.name) x.name with ⟨hnew, hleads, hname⟩ | ⟨hown, hname⟩
    · rw [hname]
      constructor
      · intro heq
        obtain rfl : x.name = n := Name.ext heq
        exact ⟨rfl, hnew, hleads⟩
      · rintro ⟨rfl, -⟩
        rfl
    · rw [hname]
      constructor
      · intro heq
        exact absurd heq.symm (n.text_ne_syntheticGroup _)
      · rintro ⟨rfl, hn⟩
        exact absurd hn hown
  synthetic front x back hslots hne := by
    rw [h front x back hslots, List.nil_append] at hne ⊢
    rcases groupName_cases (front.map Slot.name) x.name with ⟨-, -, hname⟩ | ⟨-, hname⟩
    · exact absurd hname hne
    · rw [hname, List.length_map]

namespace Template

/-- A template without exploded variables has a regex with one group for each place of a
variable, in order.  The groups are called differently, a group is called like a variable
just if it is the first of that variable, and no other group is called like any
variable. -/
theorem exists_unambiguous_regex {t : Template} (h : ¬t.Explodes) :
    ∃ r, t.regex = .ok r ∧ Unambiguous t.occurrences r.slots ∧
      ∀ (n : Name) (k : Nat), n.text ≠ syntheticGroup k := by
  obtain ⟨r, hr⟩ := exists_regex_iff.2 h
  have hslots : r.slots = (Layout.regex [] t.layout).slots := by
    rw [← Regex.slots_spread, spread_regex hr, Regex.slots_spread]
  have hnames : r.slots.map Slot.name = t.occurrences := by
    rw [hslots, Layout.map_name_slots, t.map_name_specs_layout]
  have hplaced : Placed [] r.slots := hslots ▸ Layout.placed_slots [] t.layout
  exact ⟨r, hr, hnames ▸ hplaced.unambiguous, Name.text_ne_syntheticGroup⟩

/-- Names that look like the names of other groups, and names that come again. -/
theorem exists_unambiguous_regex_lookalikes :
    ∃ t r, parse "\x7b9\x7d\x7b_,a\x7d\x7b?_0,9\x7d\x7ba,_0\x7d".toList = .ok t ∧ ¬t.Explodes ∧
      t.regex = .ok r ∧ Unambiguous t.occurrences r.slots ∧
      r.slots.map Slot.group = ["_.0".toList, ['_'], ['a'], "_0".toList, "_.4".toList,
        "_.5".toList, "_.6".toList] := by
  let nine : VarSpec := ⟨⟨['9'], rfl⟩, .none⟩
  let line : VarSpec := ⟨⟨['_'], rfl⟩, .none⟩
  let zero : VarSpec := ⟨⟨['_', '0'], rfl⟩, .none⟩
  let a : VarSpec := ⟨⟨['a'], rfl⟩, .none⟩
  let t : Template := ⟨"\x7b9\x7d\x7b_,a\x7d\x7b?_0,9\x7d\x7ba,_0\x7d".toList,
    [.expression (.member ⟨.simple, nine⟩), .expression (.composite ⟨.simple, line, [a]⟩),
      .expression (.composite ⟨.query, zero, [nine]⟩),
      .expression (.composite ⟨.simple, a, [zero]⟩)]⟩
  have hunexploded : ¬t.Explodes := by decide
  obtain ⟨r, hr, hunambiguous, -⟩ := exists_unambiguous_regex hunexploded
  have hgroups : t.regex.map (fun r => r.slots.map Slot.group) = .ok ["_.0".toList, ['_'], ['a'],
      "_0".toList, "_.4".toList, "_.5".toList, "_.6".toList] := by decide
  rw [hr] at hgroups
  exact ⟨t, r, rfl, hunexploded, hr, hunambiguous, Except.ok.inj hgroups⟩

end Template

end UriTemplate
