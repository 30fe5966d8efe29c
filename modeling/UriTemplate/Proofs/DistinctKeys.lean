import UriTemplate.Json.Reader
import UriTemplate.Proofs.ExpressionReading

/-!
# The keys of objects

An object that is read from a text has each key once, whatever the text repeats: a
member is set where its key stands, or else at the end.  The value under a key is
then the value of the one member with that key, and a search for the key finds it.

* `map_fst_insertMember`: how the keys change when a member is set.
* `nodup_map_fst_dedup` and `mem_of_mem_dedup`: members set one by one have distinct
  keys and are members that were given.
* `distinctKeys_of_parse`: all objects inside a value that is read have distinct keys.
* `lookup_eq_some_iff`: among distinct keys a search finds the members.
-/

namespace UriTemplate.Json

/-! ## Setting members one by one -/

section Members

variable {α : Type} {key : Text} {value : α} {members : List (Text × α)} {m : Text × α}

/-- A key that is set comes last, unless it is there already. -/
theorem map_fst_insertMember :
    (insertMember key value members).map Prod.fst =
      if key ∈ members.map Prod.fst then members.map Prod.fst
      else members.map Prod.fst ++ [key] := by
  induction members with
  | nil => rfl
  | cons m members ih =>
    obtain ⟨k, v⟩ := m
    rw [insertMember]
    by_cases hk : k = key
    · simp [hk]
    · rw [if_neg hk, List.map_cons, ih, List.map_cons]
      by_cases hmem : key ∈ members.map Prod.fst
      · rw [if_pos hmem, if_pos (List.mem_cons_of_mem k hmem)]
      · rw [if_neg hmem, if_neg, List.cons_append]
        rw [List.mem_cons, not_or]
        exact ⟨Ne.symm hk, hmem⟩

theorem nodup_map_fst_insertMember (h : (members.map Prod.fst).Nodup) :
    ((insertMember key value members).map Prod.fst).Nodup := by
  rw [map_fst_insertMember]
  split
  · exact h
  · rename_i hkey
    rw [List.nodup_append]
    refine ⟨h, List.pairwise_singleton _ key, ?_⟩
    intro k hk k' hk' heq
    rw [List.mem_singleton.1 hk'] at heq
    exact hkey (heq ▸ hk)

theorem mem_of_mem_insertMember (h : m ∈ insertMember key value members) :
    m = (key, value) ∨ m ∈ members := by
  induction members with
  | nil => exact .inl (List.mem_singleton.1 h)
  | cons other members ih =>
    obtain ⟨k, v⟩ := other
    rw [insertMember] at h
    split at h
    · rename_i hk
      rcases List.mem_cons.1 h with hm | hm
      · exact .inl (hk ▸ hm)
      · exact .inr (List.mem_cons_of_mem _ hm)
    · rcases List.mem_cons.1 h with hm | hm
      · exact .inr (hm ▸ List.mem_cons_self)
      · rcases ih hm with hset | hold
        · exact .inl hset
        · exact .inr (List.mem_cons_of_mem _ hold)

theorem nodup_map_fst_dedup (members : List (Text × α)) :
    ((dedup members).map Prod.fst).Nodup := by
  unfold dedup
  refine List.foldlRecOn (motive := fun done : List (Text × α) => (done.map Prod.fst).Nodup)
    members _ ?_ ?_
  · exact List.nodup_nil
  · intro done hdone m _
    exact nodup_map_fst_insertMember hdone

theorem mem_of_mem_dedup (h : m ∈ dedup members) : m ∈ members := by
  have hall : ∀ m ∈ dedup members, m ∈ members := by
    unfold dedup
    refine List.foldlRecOn (motive := fun done : List (Text × α) => ∀ m ∈ done, m ∈ members)
      members _ ?_ ?_
    · intro m hm
      cases hm
    · intro done hdone given hgiven m hm
      rcases mem_of_mem_insertMember hm with hset | hold
      · rw [hset]
        exact hgiven
      · exact hdone m hold
  exact hall m h

/-- Among distinct keys a search finds the members. -/
theorem lookup_eq_some_iff {κ : Type} [BEq κ] [LawfulBEq κ] {members : List (κ × α)}
    {key : κ} (h : (members.map Prod.fst).Nodup) :
    members.lookup key = some value ↔ (key, value) ∈ members := by
  induction members with
  | nil => simp
  | cons m members ih =>
    obtain ⟨k, v⟩ := m
    obtain ⟨hk, hrest⟩ := List.nodup_cons.1 h
    rw [List.lookup_cons, List.mem_cons, Prod.mk.injEq]
    by_cases heq : key = k
    · subst heq
      have habsent : (key, value) ∉ members := by
        intro hmem
        have hkey : key ∈ members.map Prod.fst := List.mem_map_of_mem hmem
        exact hk hkey
      simp [habsent, eq_comm]
    · have hne : (key == k) = false := by simpa using heq
      rw [hne]
      simp only [heq, false_and, false_or]
      exact ih hrest

end Members

/-! ## Values with distinct keys -/

/-- Whether each object in a value has each of its keys once. -/
inductive DistinctKeys : Json → Prop where
  | null : DistinctKeys null
  | bool (b : Bool) : DistinctKeys (bool b)
  | number (n : Number) : DistinctKeys (number n)
  | string (t : Text) : DistinctKeys (string t)
  | array {items : List Json} (hitems : ∀ item ∈ items, item.DistinctKeys) :
    DistinctKeys (array items)
  | object {members : List (Text × Json)} (hkeys : (members.map Prod.fst).Nodup)
    (hmembers : ∀ m ∈ members, m.2.DistinctKeys) : DistinctKeys (object members)

theorem distinctKeys_object {members : List (Text × Json)} :
    (object members).DistinctKeys ↔
      (members.map Prod.fst).Nodup ∧ ∀ m ∈ members, m.2.DistinctKeys := by
  constructor
  · intro h
    cases h with
    | object hkeys hmembers => exact ⟨hkeys, hmembers⟩
  · intro h
    exact .object h.1 h.2

/-- The members that a text lists for an object may repeat keys. -/
theorem distinctKeys_ofMembers {members : List (Text × Json)}
    (h : ∀ m ∈ members, m.2.DistinctKeys) : (ofMembers members).DistinctKeys :=
  .object (nodup_map_fst_dedup members) fun m hm => h m (mem_of_mem_dedup hm)

/-! ## Readers -/

section Readers

variable {P : Json → Prop} {item : Reader Json}

/-- What holds of each value that is read holds of the items. -/
theorem forall_mem_of_readItems (hitem : ∀ s v rest, item s = .ok (v, rest) → P v) {fuel : Nat}
    {s rest : Text} {items : List Json} (h : readItems item fuel s = .ok (items, rest)) :
    ∀ v ∈ items, P v := by
  induction fuel generalizing s items with
  | zero => cases h
  | succ fuel ih =>
    rw [readItems] at h
    simp only [bind_eq_ok_iff, Prod.exists] at h
    obtain ⟨value, s', hvalue, h⟩ := h
    have hfirst : P value := hitem s value s' hvalue
    split at h
    · simp only [bind_eq_ok_iff, Prod.exists] at h
      obtain ⟨values, rest', hvalues, h⟩ := h
      cases h
      exact List.forall_mem_cons.2 ⟨hfirst, ih hvalues⟩
    · cases h
      simpa using hfirst
    · cases h

/-- What holds of each value that is read holds of the values of the members. -/
theorem forall_mem_of_readMembers (hitem : ∀ s v rest, item s = .ok (v, rest) → P v) {fuel : Nat}
    {s rest : Text} {members : List (Text × Json)}
    (h : readMembers item fuel s = .ok (members, rest)) : ∀ m ∈ members, P m.2 := by
  induction fuel generalizing s members with
  | zero => cases h
  | succ fuel ih =>
    rw [readMembers] at h
    split at h
    · simp only [bind_eq_ok_iff, Prod.exists] at h
      obtain ⟨key, s', -, h⟩ := h
      split at h
      · simp only [bind_eq_ok_iff, Prod.exists] at h
        obtain ⟨value, s'', hvalue, h⟩ := h
        have hfirst : P value := hitem _ value s'' hvalue
        split at h
        · simp only [bind_eq_ok_iff, Prod.exists] at h
          obtain ⟨others, rest', hothers, h⟩ := h
          cases h
          exact List.forall_mem_cons.2 ⟨hfirst, ih hothers⟩
        · cases h
          simpa using hfirst
        · cases h
      · cases h
    · cases h

end Readers

theorem distinctKeys_of_readWord {word s rest : Text} {value v : Json}
    (hvalue : value.DistinctKeys) (h : readWord word value s = .ok (v, rest)) :
    v.DistinctKeys := by
  unfold readWord at h
  split at h
  · cases h
    exact hvalue
  · cases h

theorem distinctKeys_of_readScalar {s rest : Text} {v : Json}
    (h : readScalar s = .ok (v, rest)) : v.DistinctKeys := by
  unfold readScalar at h
  split at h
  · exact distinctKeys_of_readWord .null h
  · exact distinctKeys_of_readWord (.bool true) h
  · exact distinctKeys_of_readWord (.bool false) h
  · simp only [bind_eq_ok_iff, Prod.exists] at h
    obtain ⟨t, rest', -, h⟩ := h
    cases h
    exact .string t
  · simp only [bind_eq_ok_iff, Prod.exists] at h
    obtain ⟨n, rest', -, h⟩ := h
    cases h
    exact .number n

/-- The induction is on the depth, which goes down by one from a container to the
values in it. -/
theorem distinctKeys_of_readValue {depth : Nat} {s rest : Text} {v : Json}
    (h : readValue depth s = .ok (v, rest)) : v.DistinctKeys := by
  induction depth generalizing s rest v with
  | zero => exact distinctKeys_of_readScalar h
  | succ depth ih =>
    have hitem : ∀ s v rest, readValue depth s = .ok (v, rest) → v.DistinctKeys :=
      fun s v rest hread => ih hread
    rw [readValue] at h
    split at h
    · split at h
      · cases h
        exact .array (by simp)
      · simp only [bind_eq_ok_iff, Prod.exists] at h
        obtain ⟨items, rest', hitems, h⟩ := h
        cases h
        exact .array (forall_mem_of_readItems hitem hitems)
    · split at h
      · cases h
        exact .object List.nodup_nil (by simp)
      · simp only [bind_eq_ok_iff, Prod.exists] at h
        obtain ⟨members, rest', hmembers, h⟩ := h
        cases h
        exact distinctKeys_ofMembers (forall_mem_of_readMembers hitem hmembers)
    · exact distinctKeys_of_readScalar h

/-- A value that is read from a text has distinct keys. -/
theorem distinctKeys_of_parse {s : Text} {v : Json} (h : parse s = .ok v) : v.DistinctKeys := by
  unfold parse at h
  split at h
  · cases h
  · rename_i value rest hread
    split at h
    · cases h
      exact distinctKeys_of_readValue hread
    · cases h

end UriTemplate.Json
