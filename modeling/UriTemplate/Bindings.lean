import UriTemplate.Name
import UriTemplate.Value

/-!
# Bindings

A finite map from variable names to values.  The entries are kept in strictly
increasing order of their names, so two sets of bindings are equal exactly when
they answer every look-up alike.  `find?_insert` says what an insertion changes
and `ext_find?` that look-ups determine the bindings.
-/

namespace UriTemplate

/-! ## The order of names -/

/-- Names are ordered as their texts are, character by character. -/
instance : LT Name := ⟨fun m n => m.text < n.text⟩

instance (m n : Name) : Decidable (m < n) :=
  inferInstanceAs (Decidable (m.text < n.text))

theorem Name.lt_trans {l m n : Name} (h₁ : l < m) (h₂ : m < n) : l < n :=
  List.lt_trans h₁ h₂

theorem Name.lt_irrefl (n : Name) : ¬n < n :=
  List.lt_irrefl n.text

theorem Name.lt_of_not_lt {m n : Name} (h : ¬m < n) (hne : m ≠ n) : n < m := by
  rcases List.le_iff_lt_or_eq.1 (List.not_lt.1 h) with hlt | heq
  · exact hlt
  · exact absurd (Name.ext heq.symm) hne

/-! ## Entries in order -/

namespace Bindings

/-- One bound name. -/
abbrev Entry := Name × Value

/-- The entries are strictly increasing by name. -/
def Sorted (entries : List Entry) : Prop :=
  entries.Pairwise fun p q => p.1 < q.1

/-- The value of a name among entries. -/
def lookup (n : Name) : List Entry → Option Value
  | [] => none
  | (m, v) :: rest => if m = n then some v else lookup n rest

/-- The entries with `n` bound to `v`, at the place that the order gives it. -/
def insertEntry (n : Name) (v : Value) : List Entry → List Entry
  | [] => [(n, v)]
  | (m, w) :: rest =>
    if n < m then (n, v) :: (m, w) :: rest
    else if n = m then (n, v) :: rest
    else (m, w) :: insertEntry n v rest

theorem mem_insertEntry {n : Name} {v : Value} {entries : List Entry} {e : Entry}
    (h : e ∈ insertEntry n v entries) : e = (n, v) ∨ e ∈ entries := by
  induction entries with
  | nil => simpa [insertEntry] using h
  | cons p rest ih =>
    obtain ⟨m, w⟩ := p
    rw [insertEntry] at h
    split at h
    · simpa using h
    · split at h
      · simp only [List.mem_cons] at h ⊢
        rcases h with h | h
        · exact .inl h
        · exact .inr (.inr h)
      · simp only [List.mem_cons] at h ⊢
        rcases h with h | h
        · exact .inr (.inl h)
        · rcases ih h with h | h
          · exact .inl h
          · exact .inr (.inr h)

theorem sorted_insertEntry {n : Name} {v : Value} {entries : List Entry} (h : Sorted entries) :
    Sorted (insertEntry n v entries) := by
  induction entries with
  | nil => simp [insertEntry, Sorted]
  | cons p rest ih =>
    obtain ⟨m, w⟩ := p
    have hrest : Sorted rest := (List.pairwise_cons.1 h).2
    have hm : ∀ e ∈ rest, m < e.1 := (List.pairwise_cons.1 h).1
    rw [insertEntry]
    split
    · rename_i hlt
      refine List.pairwise_cons.2 ⟨?_, h⟩
      intro e he
      rcases List.mem_cons.1 he with rfl | he
      · exact hlt
      · exact Name.lt_trans hlt (hm e he)
    · rename_i hnlt
      split
      · rename_i heq
        subst heq
        exact List.pairwise_cons.2 ⟨hm, hrest⟩
      · rename_i hne
        refine List.pairwise_cons.2 ⟨?_, ih hrest⟩
        intro e he
        rcases mem_insertEntry he with rfl | he
        · exact Name.lt_of_not_lt hnlt hne
        · exact hm e he

theorem lookup_eq_none {n : Name} {entries : List Entry} (h : ∀ e ∈ entries, n < e.1) :
    lookup n entries = none := by
  induction entries with
  | nil => rfl
  | cons p rest ih =>
    obtain ⟨m, w⟩ := p
    have hlt : n < m := h (m, w) (List.mem_cons_self ..)
    have hne : m ≠ n := fun heq => Name.lt_irrefl n (heq ▸ hlt)
    simp only [lookup, if_neg hne]
    exact ih fun e he => h e (List.mem_cons_of_mem _ he)

theorem lookup_insertEntry (n : Name) (v : Value) (entries : List Entry) (k : Name) :
    lookup k (insertEntry n v entries) = if n = k then some v else lookup k entries := by
  induction entries with
  | nil => simp [insertEntry, lookup]
  | cons p rest ih =>
    obtain ⟨m, w⟩ := p
    rw [insertEntry]
    split
    · simp [lookup]
    · split
      · rename_i heq
        subst heq
        by_cases hk : n = k <;> simp [lookup, hk]
      · rename_i hne
        by_cases hk : m = k
        · subst hk
          simp [lookup, hne]
        · simp [lookup, hk, ih]

theorem eq_of_lookup_eq {entries entries' : List Entry} (h : Sorted entries)
    (h' : Sorted entries') (heq : ∀ n, lookup n entries = lookup n entries') :
    entries = entries' := by
  induction entries generalizing entries' with
  | nil =>
    cases entries' with
    | nil => rfl
    | cons p rest =>
      have := heq p.1
      simp [lookup] at this
  | cons p rest ih =>
    obtain ⟨m, w⟩ := p
    cases entries' with
    | nil =>
      have := heq m
      simp [lookup] at this
    | cons p' rest' =>
      obtain ⟨m', w'⟩ := p'
      have hm : ∀ e ∈ rest, m < e.1 := (List.pairwise_cons.1 h).1
      have hm' : ∀ e ∈ rest', m' < e.1 := (List.pairwise_cons.1 h').1
      have hmm : m = m' := by
        by_cases hlt : m < m'
        · have := heq m
          rw [@lookup_eq_none m ((m', w') :: rest')] at this
          · simp [lookup] at this
          · intro e he
            rcases List.mem_cons.1 he with rfl | he
            · exact hlt
            · exact Name.lt_trans hlt (hm' e he)
        · by_cases hne : m = m'
          · exact hne
          · have hlt' := Name.lt_of_not_lt hlt hne
            have := heq m'
            rw [@lookup_eq_none m' ((m, w) :: rest)] at this
            · simp [lookup] at this
            · intro e he
              rcases List.mem_cons.1 he with rfl | he
              · exact hlt'
              · exact Name.lt_trans hlt' (hm e he)
      subst hmm
      have hw : w = w' := by simpa [lookup] using heq m
      subst hw
      refine congrArg _ (ih (List.pairwise_cons.1 h).2 (List.pairwise_cons.1 h').2 fun n => ?_)
      by_cases hn : m = n
      · subst hn
        rw [lookup_eq_none hm, lookup_eq_none hm']
      · simpa [lookup, hn] using heq n

end Bindings

/-! ## Bindings -/

/-- The values of variables. -/
structure Bindings where
  /-- The bound names with their values, in the order of the names. -/
  entries : List Bindings.Entry
  /-- No name is bound twice, and the order is the one of names. -/
  sorted : Bindings.Sorted entries
deriving DecidableEq

namespace Bindings

/-- No bindings. -/
def empty : Bindings := ⟨[], List.Pairwise.nil⟩

instance : EmptyCollection Bindings := ⟨empty⟩

instance : Inhabited Bindings := ⟨empty⟩

/-- What a name is bound to. -/
def find? (b : Bindings) (n : Name) : Option Value :=
  lookup n b.entries

/-- The value of a name; an unbound name has the absent one. -/
def get (b : Bindings) (n : Name) : Value :=
  (b.find? n).getD .absent

/-- The bindings with `n` bound to `v`, whatever it was bound to before. -/
def insert (b : Bindings) (n : Name) (v : Value) : Bindings :=
  ⟨insertEntry n v b.entries, sorted_insertEntry b.sorted⟩

/-- Binds a name that has yet to be read. -/
def set (b : Bindings) (raw : Text) (v : Value) : Except Error Bindings := do
  return b.insert (← Name.parse raw) v

/-- The number of bound names. -/
def size (b : Bindings) : Nat :=
  b.entries.length

/-- The text that a raw name is bound to, when it is bound to a scalar. -/
def scalar? (b : Bindings) (raw : Text) : Option Text :=
  (b.entries.find? fun e => e.1.text == raw).bind fun e => e.2.scalar?

/-- The bindings of a list of entries; a later entry replaces an earlier one. -/
def ofList (entries : List Entry) : Bindings :=
  entries.foldl (fun b e => b.insert e.1 e.2) ∅

@[simp] theorem find?_empty (n : Name) : find? ∅ n = none := rfl

@[simp] theorem get_empty (n : Name) : get ∅ n = .absent := rfl

theorem find?_insert (b : Bindings) (n : Name) (v : Value) (k : Name) :
    (b.insert n v).find? k = if n = k then some v else b.find? k :=
  lookup_insertEntry n v b.entries k

theorem get_insert (b : Bindings) (n : Name) (v : Value) (k : Name) :
    (b.insert n v).get k = if n = k then v else b.get k := by
  simp only [get, find?_insert]
  split <;> rfl

/-- Look-ups determine bindings. -/
theorem ext_find? {b b' : Bindings} (h : ∀ n, b.find? n = b'.find? n) : b = b' := by
  cases b; cases b'
  simp only [Bindings.mk.injEq]
  exact eq_of_lookup_eq (by assumption) (by assumption) h

end Bindings

end UriTemplate
