import UriTemplate.Command
import UriTemplate.Proofs.BindingsJson
import UriTemplate.Proofs.TextFacts

/-!
# Assigned variables

Variables are given as assignments or as a JSON object.  Assignments bind one variable
after the other.  An object has each key once, in its first place, and the last value of
it there, so it binds other variables in between.  The bindings are the same, as a later
value replaces an earlier one and other variables do not matter for it, and so is the
first key that is no name.

* `Bindings.insert_insert` and `Bindings.insert_comm`: two variables bound in turn.
* `Bindings.setAll_insertMember`: one member set in an object, by induction on it.
* `Bindings.setAll_dedup`: the members of an object, by induction from the last one.
* `Bindings.exists_setAll` and `Bindings.setAll_eq_error`: what members come to.
* `Command.assign_eq_setAll`: assignments are members with texts.
* `Command.assignments_as_json`: assignments and the object that their pairs make.
-/

namespace UriTemplate

theorem Json.lookup_map {α β : Type} (f : α → β) (key : Text) (members : List (Text × α)) :
    (members.map (Prod.map id f)).lookup key = (members.lookup key).map f := by
  induction members with
  | nil => rfl
  | cons m members ih =>
    obtain ⟨k, v⟩ := m
    have hfirst : Prod.map id f (k, v) = (k, f v) := rfl
    rw [List.map_cons, hfirst, List.lookup_cons, List.lookup_cons, ih]
    cases key == k <;> rfl

namespace Bindings

/-! ## Two variables -/

theorem insert_insert (b : Bindings) (n : Name) (v w : Value) :
    (b.insert n v).insert n w = b.insert n w := by
  refine ext_find? fun k => ?_
  simp only [find?_insert]
  split <;> rfl

theorem insert_comm (b : Bindings) {m n : Name} (h : m ≠ n) (v w : Value) :
    (b.insert m v).insert n w = (b.insert n w).insert m v := by
  refine ext_find? fun k => ?_
  simp only [find?_insert]
  by_cases hm : m = k
  · have hn : n ≠ k := fun hn => h (hm.trans hn.symm)
    rw [if_neg hn, if_pos hm, if_pos hm]
  · rw [if_neg hm, if_neg hm]

/-! ## Members of an object -/

variable {members : List (Text × Json)}

theorem setAll_cons (b : Bindings) (key : Text) (json : Json) (members : List (Text × Json)) :
    setAll b ((key, json) :: members) =
      (Name.parse key).bind fun n => setAll (b.insert n (.ofJson json)) members := by
  rw [setAll, set]
  cases Name.parse key <;> rfl

theorem setAll_append (b : Bindings) (members members' : List (Text × Json)) :
    setAll b (members ++ members') = (setAll b members).bind (setAll · members') := by
  induction members generalizing b with
  | nil => rfl
  | cons m members ih =>
    obtain ⟨key, json⟩ := m
    rw [List.cons_append, setAll_cons, setAll_cons]
    cases Name.parse key with
    | error err => rfl
    | ok n => exact ih _

/-- A value does not matter when the variable is bound again at the end. -/
theorem setAll_insert_concat {n : Name} (h : n.text ∉ members.map Prod.fst) (b : Bindings)
    (v : Value) (json : Json) :
    setAll (b.insert n v) (members ++ [(n.text, json)]) =
      setAll (b.insert n (.ofJson json)) members := by
  induction members generalizing b with
  | nil =>
    rw [List.nil_append, setAll_cons, Name.parse_text]
    exact congrArg Except.ok (b.insert_insert n v (.ofJson json))
  | cons m members ih =>
    obtain ⟨key, other⟩ := m
    rw [List.map_cons, List.mem_cons, not_or] at h
    rw [List.cons_append, setAll_cons, setAll_cons]
    cases hkey : Name.parse key with
    | error err => rfl
    | ok m =>
      have hne : n ≠ m := by
        rintro rfl
        exact h.1 (Name.text_of_parse hkey)
      show setAll ((b.insert n v).insert m _) _ = setAll ((b.insert n _).insert m _) _
      rw [insert_comm b hne, insert_comm b hne, ih h.2]

/-- A member that is set where its key stands comes to the same as one at the end. -/
theorem setAll_insertMember (hkeys : (members.map Prod.fst).Nodup) (b : Bindings) (key : Text)
    (json : Json) :
    setAll b (Json.insertMember key json members) = setAll b (members ++ [(key, json)]) := by
  induction members generalizing b with
  | nil => rfl
  | cons m members ih =>
    obtain ⟨k, other⟩ := m
    obtain ⟨hfresh, hrest⟩ := List.nodup_cons.1 hkeys
    rw [Json.insertMember, List.cons_append]
    split
    · rename_i hk
      subst hk
      rw [setAll_cons, setAll_cons]
      cases hname : Name.parse k with
      | error err => rfl
      | ok n =>
        obtain rfl := Name.text_of_parse hname
        exact (setAll_insert_concat hfresh b _ json).symm
    · rw [setAll_cons, setAll_cons]
      cases Name.parse k with
      | error err => rfl
      | ok n => exact ih hrest _

/-- Keys that repeat come to the same when each is kept once. -/
theorem setAll_dedup (b : Bindings) (members : List (Text × Json)) :
    setAll b (Json.dedup members) = setAll b members := by
  induction members using List.reverseRecOn with
  | nil => rfl
  | append_singleton members m ih =>
    rw [Json.dedup_concat, setAll_insertMember (Json.nodup_map_fst_dedup members), setAll_append,
      ih, ← setAll_append]

theorem exists_parse {key : Text} (h : isName key = true) :
    ∃ n, Name.parse key = .ok n ∧ n.text = key :=
  ⟨⟨key, h⟩, dif_pos h, rfl⟩

/-- Members under names are bound, the last one of each name. -/
theorem exists_setAll (hnames : ∀ m ∈ members, isName m.1 = true) (b : Bindings) :
    ∃ b', setAll b members = .ok b' ∧
      ∀ n, b'.find? n = ((members.reverse.lookup n.text).map Value.ofJson).or (b.find? n) := by
  induction members generalizing b with
  | nil => exact ⟨b, rfl, fun n => by simp⟩
  | cons m members ih =>
    obtain ⟨key, json⟩ := m
    obtain ⟨hkey, hrest⟩ := List.forall_mem_cons.1 hnames
    obtain ⟨n, hparse, rfl⟩ := exists_parse hkey
    obtain ⟨b', hset, hfind⟩ := ih hrest (b.insert n (.ofJson json))
    refine ⟨b', by rw [setAll_cons, hparse]; exact hset, fun k => ?_⟩
    rw [hfind, find?_insert, List.reverse_cons, List.lookup_append]
    by_cases hk : n = k
    · subst hk
      cases members.reverse.lookup n.text <;> simp
    · have hne : (k.text == n.text) = false := by
        simpa using fun heq => hk (Name.ext heq).symm
      simp [hk, List.lookup_cons, hne]

/-- The first key that is no name is reported. -/
theorem setAll_eq_error {front back : List (Text × Json)} {m : Text × Json}
    (hfront : ∀ m ∈ front, isName m.1 = true) (hm : isName m.1 = false) (b : Bindings) :
    setAll b (front ++ m :: back) = .error (.invalidName m.1) := by
  obtain ⟨b', hset, -⟩ := exists_setAll hfront b
  have hparse : Name.parse m.1 = .error (.invalidName m.1) := dif_neg (by simp [hm])
  rw [setAll_append, hset]
  show setAll b' ((m.1, m.2) :: back) = _
  rw [setAll_cons, hparse]
  rfl

end Bindings

/-! ## Assignments -/

namespace Command

/-- The text of an assignment. -/
def assignment (p : Text × Text) : Text :=
  p.1 ++ '=' :: p.2

/-- The object that pairs make when they are set in order, each as a text. -/
def assignedObject (pairs : List (Text × Text)) : Json :=
  .ofMembers (pairs.map (Prod.map id .string))

/-- Assignments are members with texts. -/
theorem assign_eq_setAll {pairs : List (Text × Text)} (h : ∀ p ∈ pairs, '=' ∉ p.1)
    (b : Bindings) :
    assign b (pairs.map assignment) =
      (Bindings.setAll b (pairs.map (Prod.map id .string))).mapError .refused := by
  induction pairs generalizing b with
  | nil => rfl
  | cons p pairs ih =>
    obtain ⟨name, value⟩ := p
    obtain ⟨hname, hrest⟩ := List.forall_mem_cons.1 h
    have hsplit : (assignment (name, value)).splitOnce '=' = some (name, value) :=
      Text.splitOnce_append hname value
    have hmember : Prod.map id Json.string (name, value) = (name, .string value) := rfl
    rw [List.map_cons, List.map_cons, assign, hsplit, hmember, Bindings.setAll_cons]
    dsimp only
    rw [Bindings.set]
    cases Name.parse name with
    | error err => rfl
    | ok n => exact ih hrest _

theorem map_splitOnce_assignment {pairs : List (Text × Text)} (h : ∀ p ∈ pairs, '=' ∉ p.1) :
    (pairs.map assignment).map (Text.splitOnce '=') = pairs.map some := by
  rw [List.map_map]
  exact List.map_congr_left fun p hp => Text.splitOnce_append (h p hp) p.2

/-- Texts with a `=` are assignments. -/
theorem exists_assignments {items : List Text} (h : ∀ item ∈ items, '=' ∈ item) :
    ∃ pairs : List (Text × Text), items = pairs.map assignment ∧ ∀ p ∈ pairs, '=' ∉ p.1 := by
  induction items with
  | nil => exact ⟨[], rfl, by simp⟩
  | cons item items ih =>
    obtain ⟨hitem, hrest⟩ := List.forall_mem_cons.1 h
    obtain ⟨pairs, rfl, hpairs⟩ := ih hrest
    have hsplit : item.splitOnce '=' ≠ none := fun hnone => Text.splitOnce_eq_none.1 hnone hitem
    obtain ⟨⟨name, value⟩, hpair⟩ := Option.ne_none_iff_exists'.1 hsplit
    obtain ⟨rfl, hname⟩ := Text.splitOnce_eq_some.1 hpair
    exact ⟨(name, value) :: pairs, rfl, List.forall_mem_cons.2 ⟨hname, hpairs⟩⟩

/-- Whether assignments are those of pairs, and come to what the pairs come to as an
object. -/
structure ReadAlike (items : List Text) (pairs : List (Text × Text)) : Prop where
  items_eq : items = pairs.map assignment
  /-- A name goes up to the first `=`. -/
  names : ∀ p ∈ pairs, '=' ∉ p.1
  only : ∀ pairs', items = pairs'.map assignment → (∀ p ∈ pairs', '=' ∉ p.1) → pairs' = pairs
  object_eq : bindings (.assignments items) =
    (Bindings.ofJson (assignedObject pairs)).mapError .refused
  /-- The same is true when the object is given as a text. -/
  json_eq : ∀ text, Json.parse text = .ok (assignedObject pairs) →
    bindings (.json text) = bindings (.assignments items)
  /-- Names are bound to their last values. -/
  ok : (∀ p ∈ pairs, isName p.1 = true) → ∃ b, bindings (.assignments items) = .ok b ∧
    ∀ n, b.find? n = (pairs.reverse.lookup n.text).map .scalar
  /-- Of texts that are no names the first one is reported. -/
  error : ∀ front p back, pairs = front ++ p :: back → (∀ q ∈ front, isName q.1 = true) →
    isName p.1 = false → bindings (.assignments items) = .error (.refused (.invalidName p.1))

theorem readAlike_assignments {pairs : List (Text × Text)} (h : ∀ p ∈ pairs, '=' ∉ p.1) :
    ReadAlike (pairs.map assignment) pairs := by
  have hassign : bindings (.assignments (pairs.map assignment)) =
      (Bindings.setAll ∅ (pairs.map (Prod.map id .string))).mapError .refused :=
    assign_eq_setAll h ∅
  have hobject : Bindings.ofJson (assignedObject pairs) =
      Bindings.setAll ∅ (pairs.map (Prod.map id .string)) :=
    Bindings.setAll_dedup ∅ _
  have hmembers {pairs : List (Text × Text)} (hvalid : ∀ p ∈ pairs, isName p.1 = true) :
      ∀ m ∈ pairs.map (Prod.map id Json.string), isName m.1 = true :=
    List.forall_mem_map.2 hvalid
  constructor
  case items_eq => rfl
  case names => exact h
  case only =>
    intro pairs' heq h'
    have hsplit := map_splitOnce_assignment h'
    rw [← heq, map_splitOnce_assignment h] at hsplit
    exact (List.map_injective_iff.2 (fun _ _ => Option.some.inj) hsplit).symm
  case object_eq => rw [hassign, hobject]
  case json_eq =>
    intro text htext
    rw [bindings, htext, hassign, ← hobject]
    rfl
  case ok =>
    intro hvalid
    obtain ⟨b, hset, hfind⟩ := Bindings.exists_setAll (hmembers hvalid) ∅
    refine ⟨b, by rw [hassign, hset]; rfl, fun n => ?_⟩
    rw [hfind, Bindings.find?_empty, Option.or_none, ← List.map_reverse, Json.lookup_map,
      Option.map_map]
    rfl
  case error =>
    rintro front p back rfl hfront hp
    rw [hassign, List.map_append, List.map_cons,
      Bindings.setAll_eq_error (hmembers hfront) hp]
    rfl

/-- Assignments come to the same as the object that their pairs make: to the last value
of each name, or to the first text that is no name. -/
theorem assignments_as_json {items : List Text} (h : ∀ item ∈ items, '=' ∈ item) :
    ∃ pairs, ReadAlike items pairs := by
  obtain ⟨pairs, rfl, hnames⟩ := exists_assignments h
  exact ⟨pairs, readAlike_assignments hnames⟩

/-- A name comes again and a value holds a `=`.  After them come two texts that are no
names. -/
theorem assignments_as_json_repeated :
    let valid : List Text := ["a=1".toList, "b=x=y".toList, "a==".toList]
    let text : Text := "\x7b\"a\": \"=\", \"b\": \"x=y\"\x7d".toList
    (∃ b, bindings (.assignments valid) = .ok b ∧ bindings (.json text) = .ok b ∧
        b.find? ⟨['a'], rfl⟩ = some (.scalar ['='])) ∧
      (∃ pairs, ReadAlike (valid ++ ["-=".toList, "b=2".toList, "=3".toList]) pairs) ∧
      bindings (.assignments (valid ++ ["-=".toList, "b=2".toList, "=3".toList])) =
        .error (.refused (.invalidName ['-'])) := by
  intro valid text
  let pairs : List (Text × Text) := [(['a'], ['1']), (['b'], "x=y".toList), (['a'], ['='])]
  let wrong : List (Text × Text) := [(['b'], ['2']), ([], ['3'])]
  obtain ⟨found, hvalid⟩ := assignments_as_json (show ∀ item ∈ valid, '=' ∈ item by decide)
  obtain rfl : pairs = found := hvalid.only pairs rfl (by decide)
  obtain ⟨b, hb, hfind⟩ := hvalid.ok (by decide)
  have htext : Json.parse text = .ok (assignedObject pairs) := rfl
  obtain ⟨found, hinvalid⟩ := assignments_as_json
    (show ∀ item ∈ valid ++ ["-=".toList, "b=2".toList, "=3".toList], '=' ∈ item by decide)
  obtain rfl : pairs ++ (['-'], []) :: wrong = found := hinvalid.only _ rfl (by decide)
  exact ⟨⟨b, hb, (hvalid.json_eq text htext).trans hb, hfind _⟩, ⟨_, hinvalid⟩,
    hinvalid.error pairs (['-'], []) wrong rfl (by decide) (by decide)⟩

end Command

end UriTemplate
