import UriTemplate.Proofs.Noninterference

/-!
# Lists and pairs in an expansion

The members of a value are written with something between them: the separator of
the operator if the value is exploded, and a comma otherwise.  A key and its text
are written with an `=` between them, or one after the other in a row of commas.
Under most operators these are delimiters, which no encoded text has, so an
expansion can be taken apart again at them.  The fragment and the expansion that
keeps reserved characters let commas through, and the dot between labels is
unreserved.

* `Profile.readPair_attach`: a key and its text are read back, although an operator
  may drop the `=` before an empty text.
* `Profile.piece?_list_iff` and `Profile.piece?_assoc_iff`: one value.
* `Expression.expand_members_iff`: one expression.
-/

namespace UriTemplate

open Percent

/-! ## Texts without delimiters -/

theorem Text.not_mem_of_delimiters_eq_nil {t : Text} {c : Char} (h : t.delimiters = [])
    (hc : isDelimiter c = true) : c ∉ t := by
  intro hmem
  rw [delimiters, List.filter_eq_nil_iff] at h
  exact h c hmem hc

theorem Name.delimiters_text (n : Name) : n.text.delimiters = [] := by
  rw [Text.delimiters, List.filter_eq_nil_iff]
  intro c hmem
  have hc : c.isAlphanum = true ∨ c = '_' := by
    simpa [isNameChar] using n.isNameChar_of_mem hmem
  have hunreserved : isUnreserved c = true := by
    rcases hc with hc | rfl
    · simp [isUnreserved, hc]
    · rfl
  simp [isDelimiter, hunreserved]

theorem Percent.encode_injective (cls : CharClass) : Function.Injective (encode cls) := by
  intro s t h
  have hs := decode_encode cls s
  rw [h, decode_encode] at hs
  exact (Option.some.inj hs).symm

theorem Percent.delimiters_encode (t : Text) :
    (encode .unreserved t : Text).delimiters = [] := by
  exact (atomRow_encode .unreserved t).delimiters_eq_nil

/-! ## Rows with separators -/

/-- What is written for the members of a row tells the row, if it has no separator in it. -/
theorem Text.intercalate_map_inj {α : Type} {sep : Char} {f : α → Text}
    (hf : Function.Injective f) (hsep : ∀ x, sep ∉ f x) {xs xs' : List α} (hne : xs ≠ [])
    (hne' : xs' ≠ []) :
    List.intercalate [sep] (xs.map f) = List.intercalate [sep] (xs'.map f) ↔ xs = xs' := by
  have hfields {xs : List α} (hne : xs ≠ []) :
      fields sep (List.intercalate [sep] (xs.map f)) = xs.map f := by
    apply fields_intercalate (by simpa using hne)
    intro part hpart
    obtain ⟨x, -, rfl⟩ := List.mem_map.1 hpart
    exact hsep x
  constructor
  · intro heq
    have hmap : xs.map f = xs'.map f := by rw [← hfields hne, heq, hfields hne']
    exact List.map_injective_iff.2 hf hmap
  · intro heq
    rw [heq]

/-- Pairs are told from the row of their keys and texts. -/
theorem flatMap_pair_inj {α : Type} {pairs pairs' : List (α × α)} :
    (pairs.flatMap fun (k, v) => [k, v]) = (pairs'.flatMap fun (k, v) => [k, v]) ↔
      pairs = pairs' := by
  induction pairs generalizing pairs' with
  | nil => cases pairs' <;> simp
  | cons p pairs ih =>
    cases pairs' with
    | nil => simp
    | cons p' pairs' => simp [ih, Prod.ext_iff, and_assoc]

/-! ## A key and its text -/

/-- Reads a key and the text after its `=`. -/
def Text.readPair (t : Text) : Text × Text :=
  (splitOnce '=' t).getD (t, [])

theorem Text.readPair_append {key : Text} (h : '=' ∉ key) (s : Text) :
    readPair (key ++ '=' :: s) = (key, s) := by
  rw [readPair, splitOnce_append h, Option.getD_some]

theorem Text.readPair_of_not_mem {key : Text} (h : '=' ∉ key) : readPair key = (key, []) := by
  rw [readPair, splitOnce_eq_none.2 h, Option.getD_none]

namespace Profile

/-- Whether encoded texts have no delimiters, and one that is not `=` separates them.
A name without a value has at most an `=` after it. -/
structure Separates (row : Profile) (sep : Char) : Prop where
  allow : row.allow = .unreserved
  sep_eq : row.sep = [sep]
  isDelimiter : isDelimiter sep = true
  ne_equals : sep ≠ '='
  ifEmpty : row.ifEmpty = [] ∨ row.ifEmpty = ['=']

variable {row : Profile} {sep : Char}

namespace Separates

theorem delimiters_enc (h : row.Separates sep) (t : Text) : (row.enc t).delimiters = [] := by
  rw [enc, h.allow]
  exact delimiters_encode t

theorem enc_injective (_ : row.Separates sep) : Function.Injective row.enc :=
  encode_injective row.allow

theorem notMem_enc (h : row.Separates sep) {c : Char} (hc : UriTemplate.isDelimiter c = true)
    (t : Text) : c ∉ row.enc t :=
  Text.not_mem_of_delimiters_eq_nil (h.delimiters_enc t) hc

end Separates

/-- A key and its text are read back, although nothing may be written for an empty text. -/
theorem readPair_attach (h : row.Separates sep) {key : Text} (hkey : '=' ∉ key) (s : Text) :
    Text.readPair (row.attach key s) = (key, s) := by
  unfold attach
  split
  · rename_i hs
    subst hs
    rcases h.ifEmpty with hempty | hempty
    · rw [hempty, List.append_nil]
      exact Text.readPair_of_not_mem hkey
    · rw [hempty]
      exact Text.readPair_append hkey []
  · exact Text.readPair_append hkey s

theorem readPair_pair (h : row.Separates sep) {key : Text} (hkey : '=' ∉ key) (s : Text) :
    Text.readPair (row.pair key s) = (key, s) := by
  unfold pair
  split
  · exact readPair_attach h hkey s
  · exact Text.readPair_append hkey s

/-- A pair is told from what is written for it. -/
theorem pair_inj (h : row.Separates sep) {key key' : Text} (hkey : '=' ∉ key)
    (hkey' : '=' ∉ key') {s s' : Text} :
    row.pair key s = row.pair key' s' ↔ key = key' ∧ s = s' := by
  constructor
  · intro heq
    have hread := readPair_pair h hkey s
    rw [heq, readPair_pair h hkey' s'] at hread
    obtain ⟨rfl, rfl⟩ := Prod.mk.inj hread
    exact ⟨rfl, rfl⟩
  · intro h
    rw [h.1, h.2]

/-- A text is told from what is written for it after a name. -/
theorem labelled_inj (h : row.Separates sep) {name : Text} (hname : '=' ∉ name) {s s' : Text} :
    row.labelled name s = row.labelled name s' ↔ s = s' := by
  refine ⟨fun heq => ?_, fun heq => by rw [heq]⟩
  unfold labelled at heq
  split at heq
  · have hread := readPair_attach h hname s
    rw [heq, readPair_attach h hname s'] at hread
    exact (Prod.mk.inj hread).2.symm
  · exact heq

/-- Nothing but the key, the text and `=` is written. -/
theorem notMem_attach {key s : Text} (h : row.Separates sep)
    (hkey : sep ∉ key) (hs : sep ∉ s) : sep ∉ row.attach key s := by
  unfold attach
  split
  · rcases h.ifEmpty with hempty | hempty <;> simp [hempty, hkey, h.ne_equals]
  · simp [hkey, hs, h.ne_equals]

theorem notMem_labelled {key s : Text} (h : row.Separates sep) (hkey : sep ∉ key)
    (hs : sep ∉ s) : sep ∉ row.labelled key s := by
  unfold labelled
  split
  · exact notMem_attach h hkey hs
  · exact hs

theorem notMem_pair {key s : Text} (h : row.Separates sep) (hkey : sep ∉ key) (hs : sep ∉ s) :
    sep ∉ row.pair key s := by
  unfold pair
  split
  · exact notMem_attach h hkey hs
  · simp [hkey, hs, h.ne_equals]

/-! ## One value -/

theorem piece?_list {spec : VarSpec} {items : List Text} (hne : items ≠ [])
    (hmodifier : spec.modifier = .none) :
    row.piece? spec (.list items) =
      some (row.labelled spec.name.text (List.intercalate [','] (items.map row.enc))) := by
  cases items with
  | nil => exact absurd rfl hne
  | cons item items => simp [piece?, hmodifier, Modifier.truncate]

theorem piece?_list_exploded {spec : VarSpec} {items : List Text} (hne : items ≠ [])
    (hmodifier : spec.modifier = .explode) :
    row.piece? spec (.list items) =
      some (List.intercalate row.sep
        (items.map fun item => row.labelled spec.name.text (row.enc item))) := by
  cases items with
  | nil => exact absurd rfl hne
  | cons item items => simp [piece?, hmodifier]

theorem piece?_assoc {spec : VarSpec} {pairs : List (Text × Text)} (hne : pairs ≠ [])
    (hmodifier : spec.modifier = .none) :
    row.piece? spec (.assoc pairs) =
      some (row.labelled spec.name.text
        (List.intercalate [','] ((pairs.flatMap fun (k, v) => [k, v]).map row.enc))) := by
  cases pairs with
  | nil => exact absurd rfl hne
  | cons p pairs => simp [piece?, hmodifier, Modifier.truncate, List.map_flatMap]

theorem piece?_assoc_exploded {spec : VarSpec} {pairs : List (Text × Text)} (hne : pairs ≠ [])
    (hmodifier : spec.modifier = .explode) :
    row.piece? spec (.assoc pairs) =
      some (List.intercalate row.sep
        (pairs.map fun p => row.pair (row.enc p.1) (row.enc p.2))) := by
  cases pairs with
  | nil => exact absurd rfl hne
  | cons p pairs => simp [piece?, hmodifier]

/-- The piece of a list tells its items, exploded or not. -/
theorem piece?_list_iff (h : row.Separates sep) {spec : VarSpec}
    (hmodifier : spec.modifier = .none ∨ spec.modifier = .explode) {items items' : List Text}
    (hne : items ≠ []) (hne' : items' ≠ []) :
    row.piece? spec (.list items) = row.piece? spec (.list items') ↔ items = items' := by
  have hname : '=' ∉ spec.name.text :=
    Text.not_mem_of_delimiters_eq_nil spec.name.delimiters_text rfl
  rcases hmodifier with hmodifier | hmodifier
  · rw [piece?_list hne hmodifier, piece?_list hne' hmodifier, Option.some_inj,
      labelled_inj h hname]
    exact Text.intercalate_map_inj h.enc_injective (h.notMem_enc rfl) hne hne'
  · rw [piece?_list_exploded hne hmodifier, piece?_list_exploded hne' hmodifier, Option.some_inj,
      h.sep_eq]
    refine Text.intercalate_map_inj ?_ ?_ hne hne'
    · intro t t' heq
      exact h.enc_injective ((labelled_inj h hname).1 heq)
    · intro t
      exact notMem_labelled h
        (Text.not_mem_of_delimiters_eq_nil spec.name.delimiters_text h.isDelimiter)
        (h.notMem_enc h.isDelimiter t)

/-- The piece of an associative list tells its pairs, exploded or not. -/
theorem piece?_assoc_iff (h : row.Separates sep) {spec : VarSpec}
    (hmodifier : spec.modifier = .none ∨ spec.modifier = .explode)
    {pairs pairs' : List (Text × Text)} (hne : pairs ≠ []) (hne' : pairs' ≠ []) :
    row.piece? spec (.assoc pairs) = row.piece? spec (.assoc pairs') ↔ pairs = pairs' := by
  rcases hmodifier with hmodifier | hmodifier
  · -- A row of commas: keys and texts take turns.
    have hname : '=' ∉ spec.name.text :=
      Text.not_mem_of_delimiters_eq_nil spec.name.delimiters_text rfl
    have hrow {pairs : List (Text × Text)} (hne : pairs ≠ []) :
        (pairs.flatMap fun (k, v) => [k, v]) ≠ [] := by
      obtain ⟨p, rest, rfl⟩ := List.exists_cons_of_ne_nil hne
      simp
    rw [piece?_assoc hne hmodifier, piece?_assoc hne' hmodifier, Option.some_inj,
      labelled_inj h hname, Text.intercalate_map_inj h.enc_injective (h.notMem_enc rfl)
        (hrow hne) (hrow hne'), flatMap_pair_inj]
  · rw [piece?_assoc_exploded hne hmodifier, piece?_assoc_exploded hne' hmodifier,
      Option.some_inj, h.sep_eq]
    refine Text.intercalate_map_inj ?_ ?_ hne hne'
    · intro p p' heq
      obtain ⟨hkey, htext⟩ :=
        (pair_inj h (h.notMem_enc rfl p.1) (h.notMem_enc rfl p'.1)).1 heq
      exact Prod.ext (h.enc_injective hkey) (h.enc_injective htext)
    · intro p
      exact notMem_pair h (h.notMem_enc h.isDelimiter p.1) (h.notMem_enc h.isDelimiter p.2)

end Profile

/-! ## One expression -/

/-- Values under these operators keep no delimiters, and a delimiter separates them. -/
theorem Operator.exists_separates {op : Operator}
    (h : op ∈ [simple, path, parameter, query, queryContinuation]) :
    ∃ sep, op.profile.Separates sep := by
  cases op with
  | simple => exact ⟨',', rfl, rfl, rfl, by decide, .inl rfl⟩
  | path => exact ⟨'/', rfl, rfl, rfl, by decide, .inl rfl⟩
  | parameter => exact ⟨';', rfl, rfl, rfl, by decide, .inl rfl⟩
  | query => exact ⟨'&', rfl, rfl, rfl, by decide, .inr rfl⟩
  | queryContinuation => exact ⟨'&', rfl, rfl, rfl, by decide, .inr rfl⟩
  | reserved => simp at h
  | fragment => simp at h
  | label => simp at h

namespace Expression

/-- An expression of one variable tells its piece, if the value is defined. -/
theorem expand_eq_iff_piece? {e : Expression} {spec : VarSpec} (hspecs : e.specs = [spec])
    {b b' : Bindings} (hdefined : (b.get spec.name).isUndefined = false)
    (hdefined' : (b'.get spec.name).isUndefined = false) :
    e.expand b = e.expand b' ↔
      e.op.profile.piece? spec (b.get spec.name) = e.op.profile.piece? spec (b'.get spec.name) := by
  have hexpand {b : Bindings} (hdefined : (b.get spec.name).isUndefined = false) :
      ∃ piece, e.op.profile.piece? spec (b.get spec.name) = some piece ∧
        e.expand b = e.op.profile.first ++ piece := by
    obtain ⟨piece, hpiece⟩ : ∃ piece, e.op.profile.piece? spec (b.get spec.name) = some piece := by
      rw [← Option.ne_none_iff_exists', ne_eq, Profile.piece?_eq_none, hdefined]
      simp
    refine ⟨piece, hpiece, ?_⟩
    rw [expand_eq_flat, hspecs, Profile.expand, Profile.pieces, List.filterMap_cons, hpiece]
    simp
  obtain ⟨piece, hpiece, heq⟩ := hexpand hdefined
  obtain ⟨piece', hpiece', heq'⟩ := hexpand hdefined'
  rw [hpiece, hpiece', heq, heq', List.append_cancel_left_eq, Option.some_inj]

/-- An expression of one variable loses nothing of a list or of an associative list, if
the variable has no limit and a delimiter separates values under its operator.  Different
lists that are not empty have different expansions, and so have different rows of pairs:
keys may repeat, and keys and texts may be empty. -/
theorem expand_members_iff {e : Expression} {spec : VarSpec} (hspecs : e.specs = [spec])
    (hop : e.op ∈ [Operator.simple, .path, .parameter, .query, .queryContinuation])
    (hmodifier : spec.modifier = .none ∨ spec.modifier = .explode) (b b' : Bindings) :
    (∀ items items' : List Text, items ≠ [] → items' ≠ [] →
        b.get spec.name = .list items → b'.get spec.name = .list items' →
          (e.expand b = e.expand b' ↔ items = items')) ∧
      ∀ pairs pairs' : List (Text × Text), pairs ≠ [] → pairs' ≠ [] →
        b.get spec.name = .assoc pairs → b'.get spec.name = .assoc pairs' →
          (e.expand b = e.expand b' ↔ pairs = pairs') := by
  obtain ⟨sep, hseparates⟩ := Operator.exists_separates hop
  constructor
  · intro items items' hne hne' hget hget'
    rw [expand_eq_iff_piece? hspecs (by simp [hget, Value.isUndefined, hne])
      (by simp [hget', Value.isUndefined, hne']), hget, hget']
    exact Profile.piece?_list_iff hseparates hmodifier hne hne'
  · intro pairs pairs' hne hne' hget hget'
    rw [expand_eq_iff_piece? hspecs (by simp [hget, Value.isUndefined, hne])
      (by simp [hget', Value.isUndefined, hne']), hget, hget']
    exact Profile.piece?_assoc_iff hseparates hmodifier hne hne'

/-- A parameter is written without `=` when its text is empty, and a key may be empty too. -/
theorem expand_members_iff_repeated_keys :
    ∃ (e : Expression) (spec : VarSpec) (b b' : Bindings), e.specs = [spec] ∧
      e.op ∈ [Operator.simple, .path, .parameter, .query, .queryContinuation] ∧
      (spec.modifier = .none ∨ spec.modifier = .explode) ∧
      b.get spec.name = .assoc [([], []), (['a'], []), (['a'], ['='])] ∧
      b'.get spec.name = .assoc [([], []), (['a'], ['=']), (['a'], [])] ∧
      e.expand b = ";;a;a=%3D".toList ∧ e.expand b' = ";;a=%3D;a".toList ∧
      (∀ items items' : List Text, items ≠ [] → items' ≠ [] →
        b.get spec.name = .list items → b'.get spec.name = .list items' →
          (e.expand b = e.expand b' ↔ items = items')) ∧
      ∀ pairs pairs' : List (Text × Text), pairs ≠ [] → pairs' ≠ [] →
        b.get spec.name = .assoc pairs → b'.get spec.name = .assoc pairs' →
          (e.expand b = e.expand b' ↔ pairs = pairs') := by
  let spec : VarSpec := ⟨⟨['k'], rfl⟩, .explode⟩
  let e : Expression := .member ⟨.parameter, spec⟩
  let b : Bindings := .ofList [(spec.name, .assoc [([], []), (['a'], []), (['a'], ['='])])]
  let b' : Bindings := .ofList [(spec.name, .assoc [([], []), (['a'], ['=']), (['a'], [])])]
  have hop : e.op ∈ [Operator.simple, .path, .parameter, .query, .queryContinuation] := by decide
  exact ⟨e, spec, b, b', rfl, hop, .inr rfl, rfl, rfl, by decide, by decide,
    expand_members_iff (e := e) rfl hop (.inr rfl) b b'⟩

end Expression

end UriTemplate
