import Mathlib.Data.List.Nodup
import UriTemplate.Bindings.Json
import UriTemplate.Proofs.DistinctKeys

/-!
# Bindings through JSON

Each kind of value has a shape of its own in JSON, and the shape tells the kind when
the value is read back: a list is an array of texts, none of which is a pair, and the
empty array is a list as well.  Only an object can change a value, as it holds each
key once.  What an associative list keeps of its keys is said by `Json.LastValues`,
without setting members one by one.

* `Json.dedup_lastValues`: members set one by one, by induction from the last one.
* `Json.dedup_eq_self_iff`: nothing changes when the keys are distinct.
* `Value.ofJson_toJson`: one value, kind by kind.
* `Bindings.find?_foldl_insert`: the entries of bindings set one by one.
* `Bindings.ofJson_toJson_settles`: all values of bindings.
-/

namespace UriTemplate

/-! ## Keys that repeat -/

namespace Json

variable {α β : Type} {key : Text} {value : α} {members : List (Text × α)}

/-- Members with each key of others once, in its first place and with its last
value. -/
structure LastValues (members done : List (Text × α)) : Prop where
  keys : done.map Prod.fst = (members.map Prod.fst).eraseDups
  last : ∀ m ∈ done, ∃ front back, members = front ++ m :: back ∧ m.1 ∉ back.map Prod.fst

theorem dedup_concat (members : List (Text × α)) (m : Text × α) :
    dedup (members ++ [m]) = insertMember m.1 m.2 (dedup members) := by
  rw [dedup, List.foldl_append]
  rfl

theorem mem_insertMember_self : (key, value) ∈ insertMember key value members := by
  induction members with
  | nil => exact List.mem_singleton_self _
  | cons m members ih =>
    rw [insertMember]
    split
    · rename_i hk
      exact hk ▸ List.mem_cons_self
    · exact List.mem_cons_of_mem _ ih

/-- The member that is set is the only one with its key. -/
theorem fst_ne_of_mem_insertMember (hkeys : (members.map Prod.fst).Nodup) {m : Text × α}
    (hm : m ∈ insertMember key value members) (hne : m ≠ (key, value)) : m.1 ≠ key := by
  intro hkey
  exact hne (List.inj_on_of_nodup_map (nodup_map_fst_insertMember hkeys) hm
    mem_insertMember_self hkey)

theorem dedup_lastValues (members : List (Text × α)) : LastValues members (dedup members) := by
  induction members using List.reverseRecOn with
  | nil => exact ⟨rfl, by simp [dedup]⟩
  | append_singleton members m ih =>
    obtain ⟨key, value⟩ := m
    rw [dedup_concat]
    constructor
    · rw [map_fst_insertMember, ih.keys, List.map_append, List.eraseDups_append]
      by_cases hkey : key ∈ members.map Prod.fst
      · simp [hkey, List.removeAll]
      · simp [hkey, List.removeAll, List.eraseDups_cons]
    · intro m hm
      by_cases hset : m = (key, value)
      · exact ⟨members, [], by rw [hset], by simp⟩
      · have hne := fst_ne_of_mem_insertMember (nodup_map_fst_dedup members) hm hset
        have hold := (mem_of_mem_insertMember hm).resolve_left hset
        obtain ⟨front, back, hsplit, hlast⟩ := ih.last m hold
        refine ⟨front, back ++ [(key, value)], by rw [hsplit]; simp, ?_⟩
        rw [List.map_append, List.mem_append, not_or]
        exact ⟨hlast, by simpa using hne⟩

theorem insertMember_of_notMem (h : key ∉ members.map Prod.fst) :
    insertMember key value members = members ++ [(key, value)] := by
  induction members with
  | nil => rfl
  | cons m members ih =>
    rw [List.map_cons, List.mem_cons, not_or] at h
    rw [insertMember, if_neg (Ne.symm h.1), ih h.2]
    rfl

/-- Members with distinct keys are all kept. -/
theorem dedup_eq_self_iff : dedup members = members ↔ (members.map Prod.fst).Nodup := by
  constructor
  · intro h
    have hnodup := nodup_map_fst_dedup members
    rwa [h] at hnodup
  · intro h
    induction members using List.reverseRecOn with
    | nil => rfl
    | append_singleton members m ih =>
      rw [List.map_append, List.nodup_append] at h
      obtain ⟨hmembers, -, hlast⟩ := h
      have hfresh : m.1 ∉ members.map Prod.fst :=
        fun hmem => hlast m.1 hmem m.1 (by simp) rfl
      rw [dedup_concat, ih hmembers, insertMember_of_notMem hfresh]

theorem insertMember_map (f : α → β) (key : Text) (value : α) (members : List (Text × α)) :
    insertMember key (f value) (members.map (Prod.map id f)) =
      (insertMember key value members).map (Prod.map id f) := by
  induction members with
  | nil => rfl
  | cons m members ih =>
    obtain ⟨k, v⟩ := m
    have hfirst : Prod.map id f (k, v) = (k, f v) := rfl
    rw [List.map_cons, hfirst, insertMember, insertMember, ih, apply_ite (List.map (Prod.map id f))]
    rfl

/-- The values do not matter for what is kept. -/
theorem dedup_map (f : α → β) (members : List (Text × α)) :
    dedup (members.map (Prod.map id f)) = (dedup members).map (Prod.map id f) := by
  induction members using List.reverseRecOn with
  | nil => rfl
  | append_singleton members m ih =>
    rw [List.map_append, List.map_singleton, dedup_concat, ih, dedup_concat]
    exact insertMember_map f m.1 m.2 _

end Json

/-! ## Values -/

namespace Value

/-- Whether a value is another one with the keys of associative lists once. -/
inductive Settles : Value → Value → Prop where
  | absent : Settles absent absent
  | scalar (t : Text) : Settles (scalar t) (scalar t)
  | list (items : List Text) : Settles (list items) (list items)
  | assoc {pairs done : List (Text × Text)} (h : Json.LastValues pairs done) :
    Settles (assoc pairs) (assoc done)

theorem ofJson_toJson_list (items : List Text) :
    ofJson (list items).toJson = list items := by
  rw [toJson, ofJson, List.map_map, Function.comp_def]
  cases items with
  | nil => rfl
  | cons item items =>
    -- the first item is a text and no pair
    simp [pair?, memberText]

theorem ofJson_toJson_assoc (pairs : List (Text × Text)) :
    ofJson (assoc pairs).toJson = assoc (Json.dedup pairs) := by
  have hobject : (assoc pairs).toJson = .object ((Json.dedup pairs).map (Prod.map id .string)) :=
    congrArg Json.object (Json.dedup_map Json.string pairs)
  rw [hobject, ofJson, List.map_map]
  exact congrArg assoc (List.map_id' _)

/-- A value is read back as it was, but for keys that repeat. -/
theorem ofJson_toJson (v : Value) : v.Settles (ofJson v.toJson) := by
  cases v with
  | absent => exact .absent
  | scalar t => exact .scalar t
  | list items =>
    rw [ofJson_toJson_list]
    exact .list items
  | assoc pairs =>
    rw [ofJson_toJson_assoc]
    exact .assoc (Json.dedup_lastValues pairs)

-- The key stays where it first stood, and gets the value that came last.
example : ofJson (assoc [("a".toList, "1".toList), ("b".toList, []), ("a".toList, [])]).toJson =
    assoc [("a".toList, []), ("b".toList, [])] :=
  rfl

theorem ofJson_toJson_eq_self_iff {v : Value} :
    ofJson v.toJson = v ↔ ∀ pairs, v = assoc pairs → (pairs.map Prod.fst).Nodup := by
  cases v with
  | absent => simp [toJson, ofJson]
  | scalar t => simp [toJson, ofJson]
  | list items => simp [ofJson_toJson_list]
  | assoc pairs => simp [ofJson_toJson_assoc, Json.dedup_eq_self_iff]

end Value

/-! ## Bindings -/

namespace Bindings

/-- Members under names are set in order. -/
theorem setAll_map (f : Value → Json) (b : Bindings) (entries : List Entry) :
    setAll b (entries.map fun e => (e.1.text, f e.2)) =
      .ok (entries.foldl (fun b e => b.insert e.1 (.ofJson (f e.2))) b) := by
  induction entries generalizing b with
  | nil => rfl
  | cons e entries ih =>
    rw [List.map_cons, setAll, set, Name.parse_text, List.foldl_cons, ← ih]
    rfl

/-- Entries that are set in their order keep their values. -/
theorem find?_foldl_insert (f : Value → Value) {entries : List Entry} (h : Sorted entries)
    (b : Bindings) (n : Name) :
    (entries.foldl (fun b e => b.insert e.1 (f e.2)) b).find? n =
      ((lookup n entries).map f).or (b.find? n) := by
  induction entries generalizing b with
  | nil => simp [lookup]
  | cons e entries ih =>
    obtain ⟨hfirst, hrest⟩ := List.pairwise_cons.1 h
    rw [List.foldl_cons, ih hrest, find?_insert, lookup]
    by_cases hn : e.1 = n
    · have hlater : lookup n entries = none := lookup_eq_none fun e' he' => hn ▸ hfirst e' he'
      simp [hn, hlater]
    · simp [hn]

theorem exists_ofJson_toJson (b : Bindings) :
    ∃ b', ofJson b.toJson = .ok b' ∧
      ∀ n, b'.find? n = (b.find? n).map fun v => .ofJson v.toJson := by
  refine ⟨_, setAll_map Value.toJson ∅ b.entries, fun n => ?_⟩
  rw [find?_foldl_insert (fun v => .ofJson v.toJson) b.sorted, find?_empty, Option.or_none]
  rfl

/-- Bindings are read back with all their names, and with their values but for keys
that repeat; they are the same bindings just when no key does. -/
theorem ofJson_toJson_settles (b : Bindings) :
    ∃ b', ofJson b.toJson = .ok b' ∧
      (∀ n, Option.Rel Value.Settles (b.find? n) (b'.find? n)) ∧
      (b' = b ↔ ∀ n pairs, b.find? n = some (.assoc pairs) → (pairs.map Prod.fst).Nodup) := by
  obtain ⟨b', hread, hfind⟩ := exists_ofJson_toJson b
  refine ⟨b', hread, fun n => ?_, ?_, fun h => ext_find? fun n => ?_⟩
  · rw [hfind]
    cases b.find? n with
    | none => exact .none
    | some v => exact .some (Value.ofJson_toJson v)
  · rintro rfl n pairs hpairs
    have hsame := hfind n
    rw [hpairs, Option.map_some, Option.some.injEq] at hsame
    exact Value.ofJson_toJson_eq_self_iff.1 hsame.symm pairs rfl
  · rw [hfind]
    cases hv : b.find? n with
    | none => rfl
    | some v =>
      rw [Option.map_some, Value.ofJson_toJson_eq_self_iff.2]
      exact fun pairs hpairs => h n pairs (hpairs ▸ hv)

end Bindings

end UriTemplate
