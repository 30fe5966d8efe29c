import UriTemplate.Proofs.RepeatedVariables
import UriTemplate.Proofs.SharedDelimiters

/-!
# Expanding again what was extracted

From an expansion of an ambiguous template other values may be extracted than it was
made from.  They expand to the same text again, if the operators keep unreserved
characters only.  The text splits along the layout in two ways, as it was written and
as it is matched, and the values that are extracted write the second split in its
canonical spelling.  That this is the split itself has three reasons, which make up
`Written.Spelled`.

* Each piece decodes, as a match cuts no character (`Split.Greedy.decode_pieces`).
* Each piece is canonical, as the triplets of all pieces are the triplets of the text
  (`Split.isCanonical_text`).
* No `=` stands before an empty value that can do without it (`Split.Greedy.tidy`).

`Split.Greedy.spelled` is about one text, and `Template.extract_expand_reexpands` about
extraction.
-/

namespace UriTemplate

open Percent

/-! ## Canonical splits -/

namespace Percent

variable {cls : CharClass}

theorem isCanonical_encode (cls : CharClass) (t : Text) : IsCanonical cls (encode cls t) := by
  exact (encode_eq_iff_isCanonical (atomRow_encode cls t) (decode_encode cls t)).1 rfl

theorem isCanonical_append_of_not_mem {f : Text} (h : '%' ∉ f) {s : Text} :
    IsCanonical cls (f ++ s) ↔ IsCanonical cls s := by
  induction f with
  | nil => exact Iff.rfl
  | cons c f ih =>
    rw [List.mem_cons, not_or] at h
    rw [List.cons_append, isCanonical_cons_of_ne (Ne.symm h.1), ih h.2]

theorem AtomRow.isCanonical_append {cls' : CharClass} {n : Nat} {row : Text}
    (h : AtomRow cls' n row) {s : Text} :
    IsCanonical cls (row ++ s) ↔ IsCanonical cls row ∧ IsCanonical cls s := by
  induction h with
  | nil => exact (and_iff_right isCanonical_nil).symm
  | @cons n atom row hatom _ ih =>
    cases hatom with
    | @kept c hc =>
      have hne := CharClass.ne_percent_of_contains hc
      simp only [List.cons_append, List.nil_append]
      rw [isCanonical_cons_of_ne hne, isCanonical_cons_of_ne hne, ih]
    | triplet hhigh hlow =>
      simp only [List.cons_append, List.nil_append]
      rw [isCanonical_triplet_append hhigh hlow, isCanonical_triplet_append hhigh hlow, ih,
        and_assoc]

end Percent

/-- The triplets of a text are those of the pieces of any split of it. -/
theorem Split.isCanonical_text {cls : CharClass} {split : Split}
    (hloose : ∀ w ∈ split, w.part.Loose) (hshaped : ∀ w ∈ split, w.Shaped) :
    IsCanonical cls (split.flatMap Written.text) ↔ ∀ w ∈ split, IsCanonical cls w.piece := by
  induction split with
  | nil => exact iff_of_true isCanonical_nil (by simp)
  | cons w split ih =>
    rw [List.forall_mem_cons] at hloose hshaped ⊢
    obtain ⟨n, hrow⟩ := hshaped.1.exists_atomRow
    rw [List.flatMap_cons, Written.text_eq, List.append_assoc,
      isCanonical_append_of_not_mem (Written.not_mem_lead hloose.1), hrow.isCanonical_append,
      ih hloose.2 hshaped.2]

/-- Whether a share is in the spelling of expansions. -/
structure Written.Spelled (w : Written) : Prop where
  shaped : w.Shaped
  decodes : ∃ t, decode w.piece = some t
  isCanonical : IsCanonical w.part.charClass w.piece
  tidy : w.Tidy

theorem Written.Spelled.canonical_eq_self {w : Written} (h : w.Spelled) : w.canonical = w := by
  cases w with
  | fixed t => rfl
  | bare op spec => rfl
  | value op spec piece =>
    obtain ⟨⟨n, hrow, -⟩, ⟨t, ht⟩, hcanonical, htidy⟩ := h
    have hread : decode piece = some t := ht
    have hspelled : encode op.profile.allow t = piece :=
      (encode_eq_iff_isCanonical hrow ht).2 hcanonical
    rw [canonical, hread, Option.getD_some, hspelled, ofPiece, if_neg]
    rintro ⟨hop, hnil⟩
    exact htidy hop hnil

/-- If some split of a text is in the spelling of expansions, the greedy one is. -/
theorem Split.Greedy.spelled {parts : Layout} {split split' : Split} (hgreedy : split.Greedy)
    (hanchored : parts.Anchored false) (hloose : ∀ part ∈ parts, part.Loose)
    (hclass : ∀ part ∈ parts, part.charClass = .unreserved)
    (hparts : split.map Written.part = parts) (hparts' : split'.map Written.part = parts)
    (hshaped : ∀ w ∈ split, w.Shaped)
    (htext : split.flatMap Written.text = split'.flatMap Written.text)
    (hspelled' : ∀ w ∈ split', w.Spelled) : ∀ w ∈ split, w.Spelled := by
  have hmem {w : Written} (hw : w ∈ split) : w.part ∈ parts := hparts ▸ List.mem_map_of_mem hw
  have hmem' {w : Written} (hw : w ∈ split') : w.part ∈ parts := hparts' ▸ List.mem_map_of_mem hw
  have hlooses : ∀ w ∈ split, w.part.Loose := fun w hw => hloose _ (hmem hw)
  have hlooses' : ∀ w ∈ split', w.part.Loose := fun w hw => hloose _ (hmem' hw)
  have hshaped' : ∀ w ∈ split', w.Shaped := fun w hw => (hspelled' w hw).shaped
  have hdecodes : ∀ w ∈ split, ∃ t, decode w.piece = some t := by
    obtain ⟨t, ht⟩ := decode_of_pieces hlooses' hshaped' fun w hw => (hspelled' w hw).decodes
    rw [← htext] at ht
    exact hgreedy.decode_pieces hlooses hshaped ht
  have hcanonical : ∀ w ∈ split, IsCanonical .unreserved w.piece := by
    rw [← isCanonical_text hlooses hshaped, htext, isCanonical_text hlooses' hshaped']
    intro w hw
    rw [← hclass _ (hmem' hw)]
    exact (hspelled' w hw).isCanonical
  have htidy : ∀ w ∈ split, w.Tidy := by
    rw [← hparts] at hanchored
    have haligned : Text.Aligned false (split.flatMap Written.text)
        (split'.flatMap Written.text) := ⟨by rw [htext], nofun⟩
    refine hgreedy.tidy hanchored (hparts'.trans hparts.symm) hshaped' ?_ ?_ haligned
      fun w hw => (hspelled' w hw).tidy
    · exact fun w hw => (hshaped w hw).delimiters_piece (hclass _ (hmem hw))
    · exact fun w hw => (hshaped' w hw).delimiters_piece (hclass _ (hmem' hw))
  intro w hw
  refine ⟨hshaped w hw, hdecodes w hw, ?_, htidy w hw⟩
  rw [hclass _ (hmem hw)]
  exact hcanonical w hw

/-! ## Templates without `%` -/

/-- The fixed texts of operators and names have no `%`. -/
theorem Layout.loose_of_mem_ofSpecs {op : Operator} {specs : List VarSpec} {part : Part}
    (hpart : part ∈ ofSpecs op specs) (hany : ∀ spec ∈ specs, spec.modifier.count = .any) :
    part.Loose := by
  have hname (spec : VarSpec) : '%' ∉ spec.name.text := by
    intro hmem
    have hchar := spec.name.isNameChar_of_mem hmem
    cases hchar
  rcases eq_of_mem_ofSpecs hpart with rfl | rfl | ⟨spec, hspec, rfl | rfl | rfl⟩
  · show '%' ∉ op.profile.first
    cases op <;> decide
  · show '%' ∉ op.profile.sep
    cases op <;> decide
  · exact hany spec hspec
  · exact hname spec
  · show '%' ∉ spec.name.text ++ ['=']
    simpa using hname spec

namespace Template

theorem loose_of_mem_layout {t : Template}
    (hpercent : ∀ l, Segment.literal l ∈ t.segments → '%' ∉ l.text)
    (hany : ∀ e, Segment.expression e ∈ t.segments → ∀ spec ∈ e.specs,
      spec.modifier.count = .any) {part : Part} (hpart : part ∈ t.layout) : part.Loose := by
  obtain ⟨segment, hsegment, hpart⟩ := List.mem_flatMap.1 hpart
  cases segment with
  | literal l =>
    obtain rfl := List.mem_singleton.1 hpart
    exact hpercent l hsegment
  | expression e => exact Layout.loose_of_mem_ofSpecs hpart (hany e hsegment)

theorem Plain.loose {t : Template} (hplain : t.Plain)
    (hpercent : ∀ l, Segment.literal l ∈ t.segments → '%' ∉ l.text) {part : Part}
    (hpart : part ∈ t.layout) : part.Loose := by
  apply loose_of_mem_layout hpercent ?_ hpart
  intro e he spec hspec
  rw [hplain e he spec hspec]
  rfl

end Template

/-! ## What expansion writes -/

namespace Part

variable {b : Bindings}

theorem tidy_write (part : Part) : (part.write b).Tidy := by
  cases part with
  | fixed t => trivial
  | value op spec =>
    rw [write, Written.ofPiece]
    split
    · trivial
    · rename_i hkept
      intro hop hnil
      exact hkept ⟨hop, hnil⟩

theorem isCanonical_piece_write (part : Part) :
    IsCanonical part.charClass (part.write b).piece := by
  cases part with
  | fixed t => exact isCanonical_nil
  | value op spec =>
    rw [write, Written.ofPiece]
    split
    · exact isCanonical_nil
    · exact isCanonical_encode op.profile.allow _

/-- What expansion writes is in its own spelling, if it spells the value. -/
theorem spelled_write {part : Part} (h : (part.write b).Fits b) : (part.write b).Spelled := by
  refine ⟨((Written.fits_iff []).1 h).1, ?_, ?_, tidy_write part⟩
  · cases hwritten : part.write b with
    | fixed t => exact ⟨[], rfl⟩
    | bare op spec => exact ⟨[], rfl⟩
    | value op spec piece =>
      rw [hwritten] at h
      obtain ⟨-, t, ht, -⟩ := h
      exact ⟨t, ht⟩
  · rw [part_write]
    exact isCanonical_piece_write part

end Part

/-! ## Extraction -/

/-- A slot takes the piece of its share. -/
theorem Split.exists_of_mem_captures {split : Split} {seen : Seen} {taken : Slot × Text}
    (h : taken ∈ split.captures seen) : ∃ w ∈ split, taken.2 = w.piece := by
  induction split generalizing seen with
  | nil => cases h
  | cons w split ih =>
    rcases List.mem_append.1 h with hw | hrest
    · refine ⟨w, List.mem_cons_self, ?_⟩
      cases w with
      | fixed t => cases hw
      | value op spec piece =>
        obtain rfl := List.mem_singleton.1 hw
        rfl
      | bare op spec =>
        obtain rfl := List.mem_singleton.1 hw
        rfl
    · obtain ⟨v, hv, heq⟩ := ih hrest
      exact ⟨v, List.mem_cons_of_mem _ hv, heq⟩

namespace Template

/-- From the expansion of a template without modifiers, whose operators keep unreserved
characters only, values are extracted that expand to the same text.  They need not be
the values that it was made from.  No variable stands in two places, where two values
could be extracted, and no literal has a `%`, which could begin a triplet. -/
theorem extract_expand_reexpands {s : Text} {t : Template} {b : Bindings}
    (hparse : parse s = .ok t) (hplain : t.Plain) (hunreserved : t.Unreserved)
    (hpercent : ∀ l, Segment.literal l ∈ t.segments → '%' ∉ l.text)
    (hnodup : t.occurrences.Nodup)
    (hb : ∀ n ∈ t.names, ∃ text, b.find? n = some (.scalar text)) :
    ∃ b', t.extract (t.expand b) = .ok b' ∧ t.expand b' = t.expand b := by
  have hwritten := expand_eq_flatMap_write hparse hb
  have hspelled' : ∀ w ∈ t.layout.map (Part.write b), w.Spelled := by
    intro w hw
    have hfits := fits_of_mem_write_of_plain (plain_iff.1 hplain) hb hw
    obtain ⟨part, -, rfl⟩ := List.mem_map.1 hw
    exact Part.spelled_write hfits
  -- The expansion is matched, by a greedy split.
  obtain ⟨r, captures, hr, hmatch, hnames⟩ := exists_match_expand hparse hplain hb
  rw [Regex.match?_eq, Regex.run_eq_of_spread_eq (spread_regex hr)] at hmatch
  obtain ⟨split, hparts, htext, hshaped, hgreedy, rfl⟩ := Layout.exists_greedy_split_of_run hmatch
  have hspelled := hgreedy.spelled t.anchored_layout (fun _ => hplain.loose hpercent)
    (fun _ => hunreserved.charClass_eq) hparts (Layout.map_part_write b _) hshaped
    (htext.trans hwritten) hspelled'
  -- Its pieces are the values of the new bindings.
  obtain ⟨b', hbind⟩ : ∃ b', bindSlots (t.expand b) ∅ (split.captures []) = .ok b' := by
    apply exists_bindSlots_of_nodup
    · intro taken htaken
      obtain ⟨w, hw, heq⟩ := Split.exists_of_mem_captures htaken
      rw [heq]
      exact (hspelled w hw).decodes
    · rwa [hnames]
  obtain ⟨hdecodes, hbinds⟩ := bindSlots_empty_eq_ok.1 hbind
  have hb' : ∀ n ∈ t.names, ∃ text, b'.find? n = some (.scalar text) := by
    intro n hn
    apply (hbinds n).1
    rwa [hnames, ← mem_names]
  refine ⟨b', extract_eq_ok.2 ⟨⟨r, hr⟩, _, hmatch, hbind⟩, ?_⟩
  have hsame : split.map Written.canonical = split :=
    calc split.map Written.canonical
      _ = split.map id := List.map_congr_left fun w hw => (hspelled w hw).canonical_eq_self
      _ = split := List.map_id split
  rw [expand_eq_canonical hparse hb' hparts ((Split.fits_iff []).2 ⟨hshaped, hdecodes⟩), hsame,
    htext]

/-- The first variable takes what was written for two, and the text is the same. -/
theorem extract_expand_reexpands_shared_text :
    ∃ t b, parse "\x7bx\x7d\x7by\x7d\x7b;k,e\x7d=\x7b.z\x7d".toList = .ok t ∧ t.Plain ∧
      t.Unreserved ∧ (∀ l, Segment.literal l ∈ t.segments → '%' ∉ l.text) ∧ t.occurrences.Nodup ∧
      (∀ n ∈ t.names, ∃ text, b.find? n = some (.scalar text)) ∧
      t.expand b = "%C3%A9a;k;e=%C3%A9=.b".toList ∧ t.extract (t.expand b) ≠ .ok b ∧
      ∃ b', t.extract (t.expand b) = .ok b' ∧ t.expand b' = t.expand b := by
  let x : Name := ⟨['x'], rfl⟩
  let y : Name := ⟨['y'], rfl⟩
  let k : Name := ⟨['k'], rfl⟩
  let e : Name := ⟨['e'], rfl⟩
  let z : Name := ⟨['z'], rfl⟩
  let b : Bindings := .ofList [(x, .scalar ['é']), (y, .scalar ['a']), (k, .scalar []),
    (e, .scalar ['é']), (z, .scalar ['b'])]
  let t : Template := ⟨"\x7bx\x7d\x7by\x7d\x7b;k,e\x7d=\x7b.z\x7d".toList,
    [.expression (.member ⟨.simple, ⟨x, .none⟩⟩), .expression (.member ⟨.simple, ⟨y, .none⟩⟩),
      .expression (.composite ⟨.parameter, ⟨k, .none⟩, [⟨e, .none⟩]⟩), .literal [.plain '='],
      .expression (.member ⟨.label, ⟨z, .none⟩⟩)]⟩
  have hplain : t.Plain := by decide
  have hunreserved : t.Unreserved := by
    intro e he
    simp only [t, List.mem_cons, List.not_mem_nil, reduceCtorEq, Segment.expression.injEq, or_false,
      false_or] at he
    rcases he with rfl | rfl | rfl | rfl <;> rfl
  have hpercent : ∀ l, Segment.literal l ∈ t.segments → '%' ∉ l.text := by
    intro l hl
    simp only [t, List.mem_cons, List.not_mem_nil, reduceCtorEq, Segment.literal.injEq, or_false,
      false_or] at hl
    subst hl
    decide
  have hnodup : t.occurrences.Nodup := by decide
  have hb : ∀ n ∈ t.names, ∃ text, b.find? n = some (.scalar text) := by
    show ∀ n ∈ [x, y, k, e, z], ∃ text, b.find? n = some (.scalar text)
    exact List.forall_mem_cons.2 ⟨⟨_, rfl⟩, List.forall_mem_cons.2 ⟨⟨_, rfl⟩,
      List.forall_mem_cons.2 ⟨⟨_, rfl⟩, List.forall_mem_cons.2 ⟨⟨_, rfl⟩,
        List.forall_mem_cons.2 ⟨⟨_, rfl⟩, by simp⟩⟩⟩⟩⟩
  exact ⟨t, b, rfl, hplain, hunreserved, hpercent, hnodup, hb, by decide +kernel, by decide +kernel,
    extract_expand_reexpands (s := t.source) rfl hplain hunreserved hpercent hnodup hb⟩

end Template

end UriTemplate
