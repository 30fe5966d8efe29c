import Mathlib.Data.List.Forall2
import UriTemplate.Fixture
import UriTemplate.Proofs.DistinctKeys
import UriTemplate.Proofs.FixturePaths

/-!
# The form of fixtures

What JSON a fixture is, said without the reader: an object of groups, each of which
lists its cases under `testcases`.  A case is an array of a template and an
expectation.  The reader goes through groups and cases in order and stops at the
first one that is not of the form, so each of its functions has two lemmas here.  One
says what was there when it answers, and the other what was first in the way when it
refuses.

* `mapM_eq_ok_iff_forall₂`, `mapM_eq_error_iff`: a row of things that are read in
  order, by induction on the row.
* `testCase_eq_ok`, `testCase_eq_error`: one case.
* `testCases_eq_ok`, `testCases_eq_error`: the cases of a group, which are a row.
* `find?_bindings`: the variables of a group are the members that are called by
  names.
* `group_eq_ok`, `group_eq_error`: one group.
* `groups_eq_ok`, `groups_eq_error`: the groups of a fixture, which are a row too.
* `Fixture.parse_by_form`: a fixture from its text.
* `load_of_lookup`, `load_of_lookup_eq_none`: a fixture in the root folder.
-/

namespace UriTemplate.Fixture

/-! ## Rows -/

section Rows

variable {α β ε : Type} {f : α → Except ε β} {as : List α}

/-- A row is read when each of its members is, in its place. -/
theorem mapM_eq_ok_iff_forall₂ {bs : List β} :
    as.mapM f = .ok bs ↔ List.Forall₂ (fun a b => f a = .ok b) as bs := by
  induction as generalizing bs with
  | nil =>
    rw [List.mapM_nil, pure_eq_ok_iff, List.forall₂_nil_left_iff, eq_comm]
  | cons a as ih =>
    rw [List.mapM_cons, List.forall₂_cons_left_iff]
    simp only [bind_eq_ok_iff, pure_eq_ok_iff, ih]
    constructor
    · intro h
      obtain ⟨b, hb, bs, hbs, rfl⟩ := h
      exact ⟨b, bs, hb, hbs, rfl⟩
    · intro h
      obtain ⟨b, bs, hb, hbs, rfl⟩ := h
      exact ⟨b, hb, bs, hbs, rfl⟩

theorem exists_mapM_eq_ok_iff :
    (∃ bs, as.mapM f = .ok bs) ↔ ∀ a ∈ as, ∃ b, f a = .ok b := by
  induction as with
  | nil => simp [pure_eq_ok_iff]
  | cons a as ih =>
    rw [List.forall_mem_cons, ← ih, List.mapM_cons]
    simp only [bind_eq_ok_iff, pure_eq_ok_iff]
    constructor
    · intro h
      obtain ⟨bs, b, hb, rest, hrest, -⟩ := h
      exact ⟨⟨b, hb⟩, rest, hrest⟩
    · intro h
      obtain ⟨⟨b, hb⟩, rest, hrest⟩ := h
      exact ⟨b :: rest, b, hb, rest, hrest, rfl⟩

/-- The fault of a row is the one of the first member that is not read. -/
theorem mapM_eq_error_iff {err : ε} :
    as.mapM f = .error err ↔
      ∃ front a back, as = front ++ a :: back ∧ (∀ a ∈ front, ∃ b, f a = .ok b) ∧
        f a = .error err := by
  induction as with
  | nil => simp [pure_ne_error]
  | cons a as ih =>
    rw [List.mapM_cons]
    simp only [bind_eq_error_iff, pure_ne_error, and_false, exists_false, or_false, ih]
    constructor
    · intro h
      rcases h with hfault | ⟨b, hb, front, a', back, rfl, hfront, hfault⟩
      · exact ⟨[], a, as, rfl, by simp, hfault⟩
      · exact ⟨a :: front, a', back, rfl, List.forall_mem_cons.2 ⟨⟨b, hb⟩, hfront⟩, hfault⟩
    · intro h
      obtain ⟨front, a', back, has, hfront, hfault⟩ := h
      cases front with
      | nil =>
        obtain ⟨rfl, rfl⟩ := List.cons.inj has
        exact .inl hfault
      | cons first front =>
        obtain ⟨rfl, rfl⟩ := List.cons.inj has
        obtain ⟨⟨b, hb⟩, hfront⟩ := List.forall_mem_cons.1 hfront
        exact .inr ⟨b, hb, front, a', back, rfl, hfront, hfault⟩

end Rows

/-! ## Cases -/

/-- Whether JSON stands for an expectation. -/
inductive Expects : Json → Expectation → Prop where
  | exact (text : Text) : Expects (.string text) (.exact text)
  | anyOf (options : List Text) : Expects (.array (options.map .string)) (.anyOf options)
  | refusal : Expects (.bool false) .refusal

/-- Whether JSON is an array of two items, a template and an expectation. -/
def IsCase (json : Json) : Prop :=
  ∃ template expected e, json = .array [.string template, expected] ∧ Expects expected e

/-- Whether JSON stands for a test case. -/
def CaseOf (json : Json) (c : TestCase) : Prop :=
  ∃ expected, json = .array [.string c.template, expected] ∧ Expects expected c.expected

/-- How JSON is not the case that it should be at an index. -/
inductive CaseFault (index : Nat) : Json → FormFault → Prop where
  /-- It is not an array of two items with a template in front. -/
  | badCase {json : Json} (h : ∀ template expected, json ≠ .array [.string template, expected]) :
    CaseFault index json (.badCase index)
  /-- One of several expansions is not a text. -/
  | badOptions {template : Text} {options : List Json} {option : Json} (hmem : option ∈ options)
    (h : ∀ t, option ≠ .string t) :
    CaseFault index (.array [.string template, .array options]) (.badOptions index)
  | badExpectation {template : Text} {expected : Json} (htext : ∀ t, expected ≠ .string t)
    (hrefusal : expected ≠ .bool false) (harray : ∀ items, expected ≠ .array items) :
    CaseFault index (.array [.string template, expected]) (.badExpectation index expected.text)

theorem mapM_string?_eq_some {options : List Json} {texts : List Text} :
    options.mapM Json.string? = some texts ↔ options = texts.map .string := by
  have hone (json : Json) (t : Text) : json.string? = some t ↔ True ∧ json = .string t := by
    cases json <;> simp [Json.string?]
  rw [mapM_eq_some_iff hone]
  simp

/-- A row is not read when one of its members is not. -/
theorem mapM_eq_none_iff {α β : Type} {f : α → Option β} {as : List α} :
    as.mapM f = none ↔ ∃ a ∈ as, f a = none := by
  induction as with
  | nil => simp
  | cons a as ih =>
    simp only [List.mapM_cons, List.mem_cons, exists_eq_or_imp, ← ih]
    cases f a with
    | none => simp
    | some b =>
      cases as.mapM f with
      | none => simp
      | some bs => simp

theorem mapM_string?_eq_none {options : List Json} :
    options.mapM Json.string? = none ↔ ∃ option ∈ options, ∀ t, option ≠ .string t := by
  have hone (json : Json) : json.string? = none ↔ ∀ t, json ≠ .string t := by
    cases json <;> simp [Json.string?]
  simp only [mapM_eq_none_iff, hone]

theorem expectation_eq_ok {index : Nat} {json : Json} {e : Expectation} :
    expectation index json = .ok e ↔ Expects json e := by
  constructor
  · intro h
    unfold expectation at h
    split at h
    · cases h
      exact .exact _
    · cases h
      exact .refusal
    · split at h
      · rename_i texts htexts
        cases h
        rw [mapM_string?_eq_some.1 htexts]
        exact .anyOf texts
      · cases h
    · cases h
  · intro h
    cases h with
    | exact text => rfl
    | anyOf options => rw [expectation, mapM_string?_eq_some.2 rfl]
    | refusal => rfl

theorem testCase_eq_ok {index : Nat} {json : Json} {c : TestCase} :
    testCase index json = .ok c ↔ CaseOf json c ∧ c.index = index := by
  constructor
  · intro h
    unfold testCase at h
    split at h
    · rename_i template expected
      simp only [bind_eq_ok_iff, pure_eq_ok_iff, expectation_eq_ok] at h
      obtain ⟨e, he, rfl⟩ := h
      exact ⟨⟨expected, rfl, he⟩, rfl⟩
    · cases h
  · intro h
    obtain ⟨⟨expected, rfl, he⟩, rfl⟩ := h
    rw [testCase, expectation_eq_ok.2 he]
    rfl

theorem testCase_eq_error {index : Nat} {json : Json} {fault : FormFault} :
    testCase index json = .error fault ↔ CaseFault index json fault := by
  constructor
  · intro h
    unfold testCase at h
    split at h
    · rename_i template expected
      simp only [bind_eq_error_iff, pure_ne_error, and_false, exists_false, or_false] at h
      unfold expectation at h
      split at h
      · cases h
      · cases h
      · split at h
        · cases h
        · rename_i hnone
          cases h
          obtain ⟨option, hmem, hoption⟩ := mapM_string?_eq_none.1 hnone
          exact .badOptions hmem hoption
      · rename_i htext hrefusal harray
        cases h
        exact .badExpectation htext hrefusal harray
    · rename_i hform
      cases h
      exact .badCase hform
  · intro h
    cases h with
    | badCase h =>
      unfold testCase
      split
      · exact absurd rfl (h _ _)
      · rfl
    | badOptions hmem h =>
      rw [testCase, expectation, mapM_string?_eq_none.2 ⟨_, hmem, h⟩]
      rfl
    | badExpectation htext hrefusal harray =>
      rw [testCase]
      unfold expectation
      split
      · exact absurd rfl (htext _)
      · exact absurd rfl hrefusal
      · exact absurd rfl (harray _)
      · rfl

theorem exists_testCase_iff {index : Nat} {json : Json} :
    (∃ c, testCase index json = .ok c) ↔ IsCase json := by
  simp only [testCase_eq_ok]
  constructor
  · intro h
    obtain ⟨c, ⟨expected, hjson, he⟩, -⟩ := h
    exact ⟨c.template, expected, c.expected, hjson, he⟩
  · intro h
    obtain ⟨template, expected, e, hjson, he⟩ := h
    exact ⟨⟨template, e, index⟩, ⟨expected, hjson, he⟩, rfl⟩

/-! ## The cases of a group -/

theorem testCases_eq_mapM (index : Nat) (items : List Json) :
    testCases index items = (items.zipIdx index).mapM fun item => testCase item.2 item.1 := by
  induction items generalizing index with
  | nil => rfl
  | cons item items ih => rw [testCases, ih, List.zipIdx_cons, List.mapM_cons]

theorem testCases_eq_ok {index : Nat} {items : List Json} {cases : List TestCase} :
    testCases index items = .ok cases ↔
      List.Forall₂ (fun item c => CaseOf item.1 c ∧ c.index = item.2) (items.zipIdx index)
        cases := by
  rw [testCases_eq_mapM, mapM_eq_ok_iff_forall₂]
  simp only [testCase_eq_ok]

theorem forall_mem_zipIdx_isCase {index : Nat} {items : List Json} :
    (∀ item ∈ items.zipIdx index, ∃ c, testCase item.2 item.1 = .ok c) ↔
      ∀ item ∈ items, IsCase item := by
  simp only [exists_testCase_iff]
  conv_rhs => rw [← List.zipIdx_map_fst index items]
  exact List.forall_mem_map.symm

theorem exists_testCases_iff {index : Nat} {items : List Json} :
    (∃ cases, testCases index items = .ok cases) ↔ ∀ item ∈ items, IsCase item := by
  simp only [testCases_eq_mapM, exists_mapM_eq_ok_iff, forall_mem_zipIdx_isCase]

/-- The fault is the one of the first item that is no case. -/
theorem testCases_eq_error {index : Nat} {items : List Json} {fault : FormFault} :
    testCases index items = .error fault ↔
      ∃ front item back, items = front ++ item :: back ∧ (∀ item ∈ front, IsCase item) ∧
        CaseFault (index + front.length) item fault := by
  rw [testCases_eq_mapM, mapM_eq_error_iff]
  simp only [testCase_eq_error]
  constructor
  · intro h
    obtain ⟨front, item, back, hitems, hfront, hfault⟩ := h
    obtain ⟨front, rest, rfl, rfl, hrest⟩ := List.zipIdx_eq_append_iff.1 hitems
    obtain ⟨item, back, rfl, rfl, -⟩ := List.zipIdx_eq_cons_iff.1 hrest.symm
    exact ⟨front, item, back, rfl, forall_mem_zipIdx_isCase.1 hfront, hfault⟩
  · intro h
    obtain ⟨front, item, back, rfl, hfront, hfault⟩ := h
    refine ⟨front.zipIdx index, (item, index + front.length),
      back.zipIdx (index + front.length + 1), ?_, forall_mem_zipIdx_isCase.2 hfront, hfault⟩
    rw [List.zipIdx_append, List.zipIdx_cons]

/-! ## Variables -/

theorem bindings_append_of_ok {members : List (Text × Json)} {key : Text} {json : Json} {n : Name}
    (h : Name.parse key = .ok n) :
    bindings (members ++ [(key, json)]) = (bindings members).insert n (.ofJson json) := by
  simp only [bindings, List.foldl_append, List.foldl_cons, List.foldl_nil, h]

theorem bindings_append_of_error {members : List (Text × Json)} {key : Text} {json : Json}
    {cause : Error} (h : Name.parse key = .error cause) :
    bindings (members ++ [(key, json)]) = bindings members := by
  simp only [bindings, List.foldl_append, List.foldl_cons, List.foldl_nil, h]

/-- The variables are the members that are called by names.  The induction is on the
last member, which is bound after all others. -/
theorem find?_bindings {members : List (Text × Json)} (hkeys : (members.map Prod.fst).Nodup)
    {n : Name} {v : Value} :
    (bindings members).find? n = some v ↔ ∃ json, (n.text, json) ∈ members ∧ v = .ofJson json := by
  induction members using List.reverseRecOn with
  | nil => simp [bindings]
  | append_singleton members m ih =>
    obtain ⟨key, json⟩ := m
    rw [List.map_append, List.nodup_append] at hkeys
    obtain ⟨hmembers, -, hlast⟩ := hkeys
    have hfresh : ∀ json, (key, json) ∉ members := by
      intro json hmem
      exact hlast key (List.mem_map_of_mem (f := Prod.fst) hmem) key (by simp) rfl
    simp only [List.mem_append, List.mem_singleton, Prod.mk.injEq, or_and_right, exists_or]
    cases hparse : Name.parse key with
    | ok m =>
      obtain rfl : m.text = key := Name.text_of_parse hparse
      rw [bindings_append_of_ok hparse, Bindings.find?_insert]
      by_cases hm : m = n
      · subst hm
        simp [hfresh, eq_comm]
      · have hne : n.text ≠ m.text := fun heq => hm (Name.ext heq.symm)
        simp [hm, hne, ih hmembers]
    | error cause =>
      have hne : n.text ≠ key := by
        rintro rfl
        rw [Name.parse_text] at hparse
        cases hparse
      rw [bindings_append_of_error hparse, ih hmembers]
      simp [hne]

/-! ## Groups -/

/-- Whether JSON is an object that lists cases. -/
def IsGroup (json : Json) : Prop :=
  ∃ members items, json = .object members ∧ ("testcases".toList, Json.array items) ∈ members ∧
    ∀ item ∈ items, IsCase item

/-- Whether a group is what the members of an object say. -/
structure GroupOf (name : Text) (members : List (Text × Json)) (g : Group) : Prop where
  name_eq : g.name = name
  level_iff : ∀ n : Nat, g.level = some n ↔ ("level".toList, Json.number (.int n)) ∈ members
  /-- The bound variables are the entries of `variables` under names. -/
  bindings_iff : ∀ n v, g.bindings.find? n = some v ↔ ∃ entries json,
    ("variables".toList, Json.object entries) ∈ members ∧ (n.text, json) ∈ entries ∧
      v = .ofJson json
  /-- Each item is a case, at its position. -/
  cases_eq : ∃ items, ("testcases".toList, Json.array items) ∈ members ∧
    List.Forall₂ (fun item c => CaseOf item.1 c ∧ c.index = item.2) items.zipIdx g.cases

/-- What is first in the way of a group. -/
inductive GroupFault : Json → FormFault → Prop where
  | noObject {json : Json} (h : ∀ members, json ≠ .object members) : GroupFault json .noObject
  | noCases {members : List (Text × Json)}
    (h : ∀ items, ("testcases".toList, Json.array items) ∉ members) :
    GroupFault (.object members) .noCases
  /-- All items in front of one that is no case are cases. -/
  | badCase {members : List (Text × Json)} {front back : List Json} {item : Json}
    {fault : FormFault}
    (hitems : ("testcases".toList, Json.array (front ++ item :: back)) ∈ members)
    (hfront : ∀ item ∈ front, IsCase item) (hfault : CaseFault front.length item fault) :
    GroupFault (.object members) fault

section Members

variable {members : List (Text × Json)} (hkeys : (members.map Prod.fst).Nodup)

include hkeys

/-- A view of the member under a key is the one of the member with that key. -/
theorem lookup_bind_eq_some {α : Type} {view : Json → Option α} {f : α → Json}
    (hview : ∀ json a, view json = some a ↔ json = f a) {key : Text} {a : α} :
    (members.lookup key).bind view = some a ↔ (key, f a) ∈ members := by
  simp only [Option.bind_eq_some_iff, hview, exists_eq_right, Json.lookup_eq_some_iff hkeys]

theorem lookup_items?_eq_some {key : Text} {items : List Json} :
    (members.lookup key).bind Json.items? = some items ↔ (key, .array items) ∈ members :=
  lookup_bind_eq_some hkeys fun json a => by cases json <;> simp [Json.items?]

theorem lookup_members?_eq_some {key : Text} {inner : List (Text × Json)} :
    (members.lookup key).bind Json.members? = some inner ↔ (key, .object inner) ∈ members :=
  lookup_bind_eq_some hkeys fun json a => by cases json <;> simp [Json.members?]

theorem lookup_nat?_eq_some {key : Text} {n : Nat} :
    (members.lookup key).bind Json.nat? = some n ↔ (key, .number (.int n)) ∈ members := by
  apply lookup_bind_eq_some (f := fun n : Nat => Json.number (.int n)) hkeys
  intro json n
  constructor
  · intro h
    unfold Json.nat? at h
    split at h
    · cases h
      rfl
    · cases h
  · rintro rfl
    rfl

end Members

theorem map_eq_ok_iff {α β ε : Type} {f : α → β} {x : Except ε α} {b : β} :
    x.map f = .ok b ↔ ∃ a, x = .ok a ∧ f a = b := by
  cases x <;> simp [Except.map]

theorem map_eq_error_iff {α β ε : Type} {f : α → β} {x : Except ε α} {err : ε} :
    x.map f = .error err ↔ x = .error err := by
  cases x <;> simp [Except.map]

/-- The group with cases that have been read from the items of an object. -/
theorem group_object {name : Text} {members : List (Text × Json)} {items : List Json}
    (hkeys : (members.map Prod.fst).Nodup)
    (hitems : ("testcases".toList, Json.array items) ∈ members) :
    group name (.object members) = (testCases 0 items).map
      (Group.mk name ((members.lookup "level".toList).bind Json.nat?)
        (bindings (((members.lookup "variables".toList).bind Json.members?).getD []))) := by
  rw [group, Json.members?]
  dsimp only
  rw [(lookup_items?_eq_some hkeys).2 hitems]
  dsimp only
  cases testCases 0 items with
  | ok cases => rfl
  | error fault => rfl

theorem group_of_not_mem {name : Text} {members : List (Text × Json)}
    (hkeys : (members.map Prod.fst).Nodup)
    (h : ∀ items, ("testcases".toList, Json.array items) ∉ members) :
    group name (.object members) = .error .noCases := by
  have hnone : (members.lookup "testcases".toList).bind Json.items? = none := by
    rw [Option.eq_none_iff_forall_ne_some]
    intro items hitems
    exact h items ((lookup_items?_eq_some hkeys).1 hitems)
  rw [group, Json.members?]
  dsimp only
  rw [hnone]

theorem group_of_ne_object {name : Text} {json : Json} (h : ∀ members, json ≠ .object members) :
    group name json = .error .noObject := by
  cases json with
  | object members => exact absurd rfl (h members)
  | null => rfl
  | bool b => rfl
  | number n => rfl
  | string t => rfl
  | array items => rfl

/-- What there is in the way of a group, if anything. -/
theorem group_cases {json : Json} (h : json.DistinctKeys) (name : Text) :
    ((∀ members, json ≠ .object members) ∧ group name json = .error .noObject) ∨
      (∃ members, json = .object members ∧
        (∀ items, ("testcases".toList, Json.array items) ∉ members) ∧
        group name json = .error .noCases) ∨
      ∃ members items, json = .object members ∧
        ("testcases".toList, Json.array items) ∈ members ∧
        group name json = (testCases 0 items).map
          (Group.mk name ((members.lookup "level".toList).bind Json.nat?)
            (bindings (((members.lookup "variables".toList).bind Json.members?).getD []))) := by
  by_cases hobject : ∃ members, json = .object members
  · obtain ⟨members, rfl⟩ := hobject
    obtain ⟨hkeys, -⟩ := Json.distinctKeys_object.1 h
    by_cases hitems : ∃ items, ("testcases".toList, Json.array items) ∈ members
    · obtain ⟨items, hitems⟩ := hitems
      exact .inr (.inr ⟨members, items, rfl, hitems, group_object hkeys hitems⟩)
    · rw [not_exists] at hitems
      exact .inr (.inl ⟨members, rfl, hitems, group_of_not_mem hkeys hitems⟩)
  · rw [not_exists] at hobject
    exact .inl ⟨hobject, group_of_ne_object hobject⟩

theorem find?_bindings_variables {members : List (Text × Json)}
    (h : (Json.object members).DistinctKeys) {n : Name} {v : Value} :
    (bindings (((members.lookup "variables".toList).bind Json.members?).getD [])).find? n =
        some v ↔
      ∃ entries json, ("variables".toList, Json.object entries) ∈ members ∧
        (n.text, json) ∈ entries ∧ v = .ofJson json := by
  obtain ⟨hkeys, hmembers⟩ := Json.distinctKeys_object.1 h
  have hmem {entries : List (Text × Json)} :
      (members.lookup "variables".toList).bind Json.members? = some entries ↔
        ("variables".toList, Json.object entries) ∈ members := lookup_members?_eq_some hkeys
  simp only [← hmem]
  cases hentries : (members.lookup "variables".toList).bind Json.members? with
  | none => simp [bindings]
  | some entries =>
    obtain ⟨hentries, -⟩ := Json.distinctKeys_object.1 (hmembers _ (hmem.1 hentries))
    simp [find?_bindings hentries]

/-- A group that is read is what the members say. -/
theorem groupOf_mk {name : Text} {members : List (Text × Json)} {items : List Json}
    {cases : List TestCase} (h : (Json.object members).DistinctKeys)
    (hitems : ("testcases".toList, Json.array items) ∈ members)
    (hcases : testCases 0 items = .ok cases) :
    GroupOf name members ⟨name, (members.lookup "level".toList).bind Json.nat?,
      bindings (((members.lookup "variables".toList).bind Json.members?).getD []), cases⟩ where
  name_eq := rfl
  level_iff _ := lookup_nat?_eq_some (Json.distinctKeys_object.1 h).1
  bindings_iff _ _ := find?_bindings_variables h
  cases_eq := ⟨items, hitems, testCases_eq_ok.1 hcases⟩

/-- The members of an object say one group at most. -/
theorem GroupOf.unique {name : Text} {members : List (Text × Json)} {g g' : Group}
    (hkeys : (members.map Prod.fst).Nodup) (h : GroupOf name members g)
    (h' : GroupOf name members g') : g = g' := by
  obtain ⟨items, hitems, hcases⟩ := h.cases_eq
  obtain ⟨items', hitems', hcases'⟩ := h'.cases_eq
  have hsame : items = items' := by
    have hlookup := (lookup_items?_eq_some hkeys).2 hitems
    rw [(lookup_items?_eq_some hkeys).2 hitems'] at hlookup
    exact (Option.some.inj hlookup).symm
  subst hsame
  have hread := testCases_eq_ok.2 hcases
  rw [testCases_eq_ok.2 hcases'] at hread
  have hlevel : g.level = g'.level := by
    apply Option.ext
    intro n
    rw [h.level_iff, h'.level_iff]
  have hbindings : g.bindings = g'.bindings := by
    apply Bindings.ext_find?
    intro n
    apply Option.ext
    intro v
    rw [h.bindings_iff, h'.bindings_iff]
  obtain ⟨gname, glevel, gbindings, gcases⟩ := g
  obtain ⟨gname', glevel', gbindings', gcases'⟩ := g'
  obtain rfl : gname = gname' := h.name_eq.trans h'.name_eq.symm
  obtain rfl : glevel = glevel' := hlevel
  obtain rfl : gbindings = gbindings' := hbindings
  obtain rfl : gcases' = gcases := Except.ok.inj hread
  rfl

theorem group_eq_ok {name : Text} {json : Json} {g : Group} (h : json.DistinctKeys) :
    group name json = .ok g ↔ ∃ members, json = .object members ∧ GroupOf name members g := by
  constructor
  · intro hread
    rcases group_cases h name with ⟨-, hgroup⟩ | ⟨_, -, -, hgroup⟩ |
      ⟨members, items, rfl, hitems, hgroup⟩
    · rw [hgroup] at hread
      cases hread
    · rw [hgroup] at hread
      cases hread
    · rw [hgroup, map_eq_ok_iff] at hread
      obtain ⟨cases, hcases, rfl⟩ := hread
      exact ⟨members, rfl, groupOf_mk h hitems hcases⟩
  · intro hgroup
    obtain ⟨members, rfl, hgroup⟩ := hgroup
    obtain ⟨hkeys, -⟩ := Json.distinctKeys_object.1 h
    obtain ⟨items, hitems, hcases⟩ := hgroup.cases_eq
    have hread := testCases_eq_ok.2 hcases
    rw [group_object hkeys hitems, map_eq_ok_iff]
    exact ⟨g.cases, hread, (groupOf_mk h hitems hread).unique hkeys hgroup⟩

theorem group_eq_error {name : Text} {json : Json} {fault : FormFault} (h : json.DistinctKeys) :
    group name json = .error fault ↔ GroupFault json fault := by
  constructor
  · intro hread
    rcases group_cases h name with ⟨hobject, hgroup⟩ | ⟨members, rfl, hitems, hgroup⟩ |
      ⟨members, items, rfl, hitems, hgroup⟩
    · rw [hgroup] at hread
      cases hread
      exact .noObject hobject
    · rw [hgroup] at hread
      cases hread
      exact .noCases hitems
    · rw [hgroup, map_eq_error_iff, testCases_eq_error] at hread
      obtain ⟨front, item, back, rfl, hfront, hfault⟩ := hread
      rw [Nat.zero_add] at hfault
      exact .badCase hitems hfront hfault
  · intro hfault
    cases hfault with
    | noObject hobject => exact group_of_ne_object hobject
    | noCases hitems => exact group_of_not_mem (Json.distinctKeys_object.1 h).1 hitems
    | badCase hitems hfront hfault =>
      rw [group_object (Json.distinctKeys_object.1 h).1 hitems, map_eq_error_iff,
        testCases_eq_error]
      refine ⟨_, _, _, rfl, hfront, ?_⟩
      rw [Nat.zero_add]
      exact hfault

theorem exists_group_iff {name : Text} {json : Json} (h : json.DistinctKeys) :
    (∃ g, group name json = .ok g) ↔ IsGroup json := by
  constructor
  · intro hread
    obtain ⟨g, hg⟩ := hread
    obtain ⟨members, hmembers, hgroup⟩ := (group_eq_ok h).1 hg
    obtain ⟨items, hitems, hcases⟩ := hgroup.cases_eq
    exact ⟨members, items, hmembers, hitems, exists_testCases_iff.1 ⟨_, testCases_eq_ok.2 hcases⟩⟩
  · intro hgroup
    obtain ⟨members, items, rfl, hitems, hcases⟩ := hgroup
    obtain ⟨cases, hread⟩ := (@exists_testCases_iff 0 items).2 hcases
    exact ⟨_, (group_eq_ok h).2 ⟨members, rfl, groupOf_mk h hitems hread⟩⟩

/-! ## Fixtures -/

/-- Whether JSON is an object of groups. -/
def IsFixture (json : Json) : Prop :=
  ∃ members, json = .object members ∧ ∀ m ∈ members, IsGroup m.2

/-- What is first in the way of a fixture. -/
inductive FixtureFault : Json → LoadFault → Prop where
  | noGroups {json : Json} (h : ∀ members, json ≠ .object members) :
    FixtureFault json (.malformed [] .noGroups)
  /-- All members in front of one that is no group are groups. -/
  | badGroup {front back : List (Text × Json)} {m : Text × Json} {fault : FormFault}
    (hfront : ∀ m ∈ front, IsGroup m.2) (hfault : GroupFault m.2 fault) :
    FixtureFault (.object (front ++ m :: back)) (.malformed m.1 fault)

theorem mapError_eq_ok_iff {α ε ε' : Type} {f : ε → ε'} {x : Except ε α} {a : α} :
    x.mapError f = .ok a ↔ x = .ok a := by
  cases x <;> simp [Except.mapError]

theorem mapError_eq_error_iff {α ε ε' : Type} {f : ε → ε'} {x : Except ε α} {err : ε'} :
    x.mapError f = .error err ↔ ∃ cause, x = .error cause ∧ f cause = err := by
  cases x <;> simp [Except.mapError]

/-- The group of a member of a fixture. -/
def member (m : Text × Json) : Except LoadFault Group :=
  (group m.1 m.2).mapError (.malformed m.1)

theorem groups_eq_mapM (members : List (Text × Json)) : groups members = members.mapM member := by
  induction members with
  | nil => rfl
  | cons m members ih => rw [groups, ih, List.mapM_cons, member]

theorem exists_member_iff {m : Text × Json} (h : m.2.DistinctKeys) :
    (∃ g, member m = .ok g) ↔ IsGroup m.2 := by
  simp only [member, mapError_eq_ok_iff, exists_group_iff h]

section Groups

variable {members : List (Text × Json)} (h : ∀ m ∈ members, m.2.DistinctKeys)

include h

theorem groups_eq_ok {gs : List Group} :
    groups members = .ok gs ↔
      List.Forall₂ (fun m g => ∃ inner, m.2 = .object inner ∧ GroupOf m.1 inner g) members gs := by
  have hkeys {R : Text × Json → Group → Prop} : List.Forall₂ R members gs ↔
      List.Forall₂ (fun m g => m.2.DistinctKeys ∧ R m g) members gs := by
    rw [List.forall₂_and_left]
    exact (and_iff_right h).symm
  have hmember (m : Text × Json) (g : Group) : (m.2.DistinctKeys ∧ member m = .ok g) ↔
      m.2.DistinctKeys ∧ ∃ inner, m.2 = .object inner ∧ GroupOf m.1 inner g := by
    refine and_congr_right fun hm => ?_
    rw [member, mapError_eq_ok_iff, group_eq_ok hm]
  rw [groups_eq_mapM, mapM_eq_ok_iff_forall₂, hkeys]
  simp only [hmember]
  exact hkeys.symm

theorem exists_groups_iff : (∃ gs, groups members = .ok gs) ↔ ∀ m ∈ members, IsGroup m.2 := by
  simp only [groups_eq_mapM, exists_mapM_eq_ok_iff]
  exact forall₂_congr fun m hm => exists_member_iff (h m hm)

/-- The fault is the one of the first member that is no group. -/
theorem groups_eq_error {fault : LoadFault} :
    groups members = .error fault ↔
      ∃ front m back cause, members = front ++ m :: back ∧ (∀ m ∈ front, IsGroup m.2) ∧
        GroupFault m.2 cause ∧ .malformed m.1 cause = fault := by
  rw [groups_eq_mapM, mapM_eq_error_iff]
  constructor
  · intro hread
    obtain ⟨front, m, back, rfl, hfront, hfault⟩ := hread
    rw [List.forall_mem_append, List.forall_mem_cons] at h
    obtain ⟨hfrontKeys, hm, -⟩ := h
    rw [member, mapError_eq_error_iff] at hfault
    obtain ⟨cause, hcause, rfl⟩ := hfault
    exact ⟨front, m, back, cause, rfl,
      fun m hm => (exists_member_iff (hfrontKeys m hm)).1 (hfront m hm),
      (group_eq_error hm).1 hcause, rfl⟩
  · intro hfault
    obtain ⟨front, m, back, cause, rfl, hfront, hcause, rfl⟩ := hfault
    rw [List.forall_mem_append, List.forall_mem_cons] at h
    obtain ⟨hfrontKeys, hm, -⟩ := h
    refine ⟨front, m, back, rfl,
      fun m hm => (exists_member_iff (hfrontKeys m hm)).2 (hfront m hm), ?_⟩
    rw [member, mapError_eq_error_iff]
    exact ⟨cause, (group_eq_error hm).2 hcause, rfl⟩

end Groups

/-- Whether the outcome of reading JSON as a fixture is the one that the form of
fixtures asks for. -/
structure ReadsByForm (json : Json) (outcome : Except LoadFault (List Group)) : Prop where
  /-- Fixtures are read, and nothing else is. -/
  accepts_iff : (∃ gs, outcome = .ok gs) ↔ IsFixture json
  /-- There is a group for each member, in order. -/
  groups_iff : ∀ gs, outcome = .ok gs ↔ ∃ members, json = .object members ∧
    List.Forall₂ (fun m g => ∃ inner, m.2 = .object inner ∧ GroupOf m.1 inner g) members gs
  /-- What is reported is the first thing in the way. -/
  fault_iff : ∀ fault, outcome = .error fault ↔ FixtureFault json fault

theorem readsByForm_groups {members : List (Text × Json)}
    (h : ∀ m ∈ members, m.2.DistinctKeys) :
    ReadsByForm (.object members) (groups members) where
  accepts_iff := by
    rw [exists_groups_iff h]
    constructor
    · intro hgroups
      exact ⟨members, rfl, hgroups⟩
    · intro hfixture
      obtain ⟨members', heq, hgroups⟩ := hfixture
      cases heq
      exact hgroups
  groups_iff gs := by
    rw [groups_eq_ok h]
    constructor
    · intro hgroups
      exact ⟨members, rfl, hgroups⟩
    · intro hfixture
      obtain ⟨members', heq, hgroups⟩ := hfixture
      cases heq
      exact hgroups
  fault_iff fault := by
    rw [groups_eq_error h]
    constructor
    · intro hread
      obtain ⟨front, m, back, cause, rfl, hfront, hfault, rfl⟩ := hread
      exact .badGroup hfront hfault
    · intro hfault
      cases hfault with
      | noGroups hobject => exact absurd rfl (hobject members)
      | badGroup hfront hfault => exact ⟨_, _, _, _, rfl, hfront, hfault, rfl⟩

theorem readsByForm_noGroups {json : Json} (h : ∀ members, json ≠ .object members) :
    ReadsByForm json (.error (.malformed [] .noGroups)) where
  accepts_iff := by simp [IsFixture, h]
  groups_iff gs := by simp [h]
  fault_iff fault := by
    constructor
    · intro heq
      cases heq
      exact .noGroups h
    · intro hfault
      cases hfault with
      | noGroups => rfl
      | badGroup => exact absurd rfl (h _)

theorem readsByForm_ofJson {json : Json} (h : json.DistinctKeys) :
    ReadsByForm json (ofJson json) := by
  cases json with
  | object members => exact readsByForm_groups (Json.distinctKeys_object.1 h).2
  | null => exact readsByForm_noGroups (by simp)
  | bool b => exact readsByForm_noGroups (by simp)
  | number n => exact readsByForm_noGroups (by simp)
  | string t => exact readsByForm_noGroups (by simp)
  | array items => exact readsByForm_noGroups (by simp)

/-- A fixture is read when its JSON has the form, to the last case and variable.  Any
other JSON is refused for what comes first in it that has not the form.  An object
that repeats a key counts as one that has it once, with the value that came last. -/
theorem parse_by_form {content : Text} {json : Json} (h : Json.parse content = .ok json) :
    ReadsByForm json (parse content) := by
  rw [parse, h]
  exact readsByForm_ofJson (Json.distinctKeys_of_parse h)

/-- A key that is no name binds nothing, and of two faults the first one counts. -/
theorem parse_by_form_unnamed_key :
    (∃ json gs, Json.parse ("\x7b\"g\": \x7b\"variables\": \x7b\"x\": \"1\", \"\": \"\"\x7d, " ++
        "\"testcases\": [[\"\x7bx\x7d\", [\"1\"]], [\"\x7b\", false]]\x7d\x7d").toList = .ok json ∧
      ReadsByForm json (.ok gs) ∧ gs.map (·.bindings) = [.ofList [(⟨['x'], rfl⟩, .scalar ['1'])]] ∧
      gs.flatMap (·.cases) = [⟨"\x7bx\x7d".toList, .anyOf [['1']], 0⟩, ⟨['\x7b'], .refusal, 1⟩]) ∧
    ∃ json, Json.parse "\x7b\"g\": \x7b\"testcases\": [[\"\", \"\"], 0]\x7d, \"h\": 0\x7d".toList =
        .ok json ∧ ReadsByForm json (.error (.malformed ['g'] (.badCase 1))) := by
  constructor
  · let json : Json := .object [(['g'], .object [
      ("variables".toList, .object [(['x'], .string ['1']), ([], .string [])]),
      ("testcases".toList, .array [.array [.string "\x7bx\x7d".toList, .array [.string ['1']]],
        .array [.string ['\x7b'], .bool false]])])]
    let g : Group := ⟨['g'], none, .ofList [(⟨['x'], rfl⟩, .scalar ['1'])],
      [⟨"\x7bx\x7d".toList, .anyOf [['1']], 0⟩, ⟨['\x7b'], .refusal, 1⟩]⟩
    have hjson : Json.parse
        ("\x7b\"g\": \x7b\"variables\": \x7b\"x\": \"1\", \"\": \"\"\x7d, " ++
          "\"testcases\": [[\"\x7bx\x7d\", [\"1\"]], [\"\x7b\", false]]\x7d\x7d").toList =
        .ok json := rfl
    exact ⟨json, [g], hjson, parse_by_form hjson, rfl, rfl⟩
  · let json : Json := .object [(['g'], .object [
      ("testcases".toList, .array [.array [.string [], .string []], .number (.int 0)])]),
      (['h'], .number (.int 0))]
    have hjson : Json.parse
        "\x7b\"g\": \x7b\"testcases\": [[\"\", \"\"], 0]\x7d, \"h\": 0\x7d".toList = .ok json := rfl
    exact ⟨json, hjson, parse_by_form hjson⟩

/-! ## Files in the root folder -/

section Root

open Files

variable {entries : List (FileName × Node)} {name : FileName} (hname : IsEntryName name)
  (here : Place)

include hname

/-- A file in the root folder is read as its text. -/
theorem load_of_lookup {content : Text}
    (h : entries.lookup name = some (.file (Utf8.encode content))) :
    load ⟨.folder entries, here⟩ (Path.slash :: name) = parse content := by
  have hread : World.read ⟨.folder entries, here⟩ (Path.slash :: name) =
      .ok (Utf8.encode content) := by
    have hat : (Node.folder entries).at? [name] = some (.file (Utf8.encode content)) := by
      simp [Node.at?, Node.child?, h]
    simp only [World.read, resolve_file here hname h, bind, Except.bind, hat]
    rfl
  rw [load, hread]
  show ofBytes _ = _
  rw [ofBytes, Utf8.decode_encode]

theorem load_of_lookup_eq_none (h : entries.lookup name = none) :
    load ⟨.folder entries, here⟩ (Path.slash :: name) = .error (.unreadable .notFound) := by
  rw [load, World.read, resolve_absent here hname h]
  rfl

end Root

end UriTemplate.Fixture
