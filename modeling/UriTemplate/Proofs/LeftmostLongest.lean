import UriTemplate.Proofs.ExtractionSupport
import UriTemplate.Proofs.GreedyMatches

/-!
# The match among all splits

A URL may split along a layout in many ways, and its regex finds one of them.  The splits
of one text are put in order: of two of them, the one that comes first has the longer
share in the first place in which they differ.  A name with `=` has the longer share than
the name alone, even if the value after the `=` is empty.  A match is the first split in
this order, and so there is no more to a match than the layout and the text.

`Split.Greedy` says of each share that it is the longest of those with which the text
splits at all.  Two shares of one part that begin a text in the same length are the same
share (`Written.eq_of_text_eq`), so a greedy split comes before every other one.

* `Split.Outranks`: the order, and `Split.Greedy.outranks`.
* `Layout.run_eq_some_iff`: what a row matches.
* `Template.extract_leftmost_longest`: what extraction decodes.
-/

namespace UriTemplate

/-! ## The order of splits -/

namespace Split

/-- Whether a split has the longer share in the first place in which it differs from
another one. -/
inductive Outranks : Split → Split → Prop where
  /-- They differ in the first place. -/
  | head {w w' : Written} {rest rest' : Split} (h : w'.text.length < w.text.length) :
    Outranks (w :: rest) (w' :: rest')
  /-- They differ in a later place. -/
  | tail {w : Written} {rest rest' : Split} (h : Outranks rest rest') :
    Outranks (w :: rest) (w :: rest')

theorem Outranks.asymm {split other : Split} (h : split.Outranks other) :
    ¬other.Outranks split := by
  induction h with
  | head h =>
    intro hother
    cases hother with
    | head h' => exact Nat.lt_asymm h h'
    | tail => exact Nat.lt_irrefl _ h
  | tail _ ih =>
    intro hother
    cases hother with
    | head h => exact Nat.lt_irrefl _ h
    | tail h => exact ih h

/-- Whether a split is a way to split a text along a row: its shares are those of the parts
in order, and make up the text.  A value is a row of atoms of its class, and if it has a
limit there are exactly so many of them. -/
structure Along (split : Split) (parts : Layout) (s : Text) : Prop where
  parts_eq : split.map Written.part = parts
  text_eq : split.flatMap Written.text = s
  shaped : ∀ w ∈ split, w.Shaped

/-- Whether a split of a text along a row comes before all others. -/
structure Foremost (split : Split) (parts : Layout) (s : Text) : Prop where
  along : split.Along parts s
  outranks : ∀ other : Split, other.Along parts s → other ≠ split → split.Outranks other

theorem Foremost.unique {split split' : Split} {parts : Layout} {s : Text}
    (h : split.Foremost parts s) (h' : split'.Foremost parts s) : split = split' := by
  by_contra hne
  exact (h.outranks split' h'.along (Ne.symm hne)).asymm (h'.outranks split h.along hne)

end Split

/-! ## Greedy splits -/

/-- Two shares of one part with the same text are the same share. -/
theorem Written.eq_of_text_eq {w w' : Written} (hshaped : w.Shaped) (hshaped' : w'.Shaped)
    (hpart : w.part = w'.part) (htext : w.text = w'.text) : w = w' := by
  cases w with
  | fixed t => exact (eq_fixed_of_part hpart.symm).symm
  | value op spec piece =>
    cases w' with
    | fixed t => cases hpart
    | value op' spec' piece' =>
      cases hpart
      rw [text, text] at htext
      split at htext
      · rw [(List.cons.inj htext).2]
      · rw [htext]
    | bare op' spec' =>
      cases hpart
      have hop : op.dropsEmptyEquals = true := hshaped'
      rw [text, if_pos hop] at htext
      cases htext
  | bare op spec =>
    have hop : op.dropsEmptyEquals = true := hshaped
    cases w' with
    | fixed t => cases hpart
    | value op' spec' piece' =>
      cases hpart
      rw [text, text, if_pos hop] at htext
      cases htext
    | bare op' spec' =>
      cases hpart
      rfl

/-- A greedy split comes before every other split of the text.  The induction is on the
split: as long as the shares are the same, so is the text that is left. -/
theorem Split.Greedy.outranks {split other : Split} (hgreedy : split.Greedy)
    (hshaped : ∀ w ∈ split, w.Shaped) (hshaped' : ∀ w ∈ other, w.Shaped)
    (hparts : other.map Written.part = split.map Written.part)
    (htext : other.flatMap Written.text = split.flatMap Written.text) (hne : other ≠ split) :
    split.Outranks other := by
  induction split generalizing other with
  | nil => exact absurd (List.map_eq_nil_iff.1 hparts) hne
  | cons w rest ih =>
    cases other with
    | nil => cases hparts
    | cons w' rest' =>
      rw [List.map_cons, List.map_cons, List.cons.injEq] at hparts
      rw [List.flatMap_cons, List.flatMap_cons] at htext
      rw [List.forall_mem_cons] at hshaped hshaped'
      have hle : w'.text.length ≤ w.text.length :=
        hgreedy.1 w' rest' hparts.1 hshaped'.1 hparts.2 hshaped'.2 htext
      rcases Nat.lt_or_eq_of_le hle with hlt | heq
      · exact .head hlt
      · obtain ⟨hshare, hrest⟩ := List.append_inj htext heq
        obtain rfl := Written.eq_of_text_eq hshaped'.1 hshaped.1 hparts.1 hshare
        refine .tail (ih hgreedy.2 hshaped.2 hshaped'.2 hparts.2 hrest ?_)
        intro heq
        exact hne (by rw [heq])

/-! ## Matches -/

/-- A row matches a text by the split that comes before all others, and by no other one.
It matches every text that splits at all. -/
theorem Layout.run_eq_some_iff {parts : Layout} {seen : Seen} {s : Text}
    {captures : Regex.Captures} :
    (regex seen parts).run s = some captures ↔
      ∃ split : Split, split.Foremost parts s ∧ split.captures seen = captures := by
  have hforemost {captures : Regex.Captures} (h : (regex seen parts).run s = some captures) :
      ∃ split : Split, split.Foremost parts s ∧ split.captures seen = captures := by
    obtain ⟨split, rfl, rfl, hshaped, hgreedy, rfl⟩ := exists_greedy_split_of_run h
    refine ⟨split, ⟨⟨rfl, rfl, hshaped⟩, fun other hother hne => ?_⟩, rfl⟩
    exact hgreedy.outranks hshaped hother.shaped hother.parts_eq hother.text_eq hne
  refine ⟨hforemost, fun h => ?_⟩
  obtain ⟨split, hsplit, rfl⟩ := h
  obtain ⟨captures, hrun⟩ : ∃ captures, (regex seen parts).run s = some captures :=
    exists_run_iff.2 ⟨split, hsplit.along.parts_eq, hsplit.along.text_eq, hsplit.along.shaped⟩
  obtain ⟨split', hsplit', rfl⟩ := hforemost hrun
  rw [hrun, hsplit.unique hsplit']

namespace Template

theorem match?_eq_some_iff {t : Template} {r : Regex} (hr : t.regex = .ok r) {url : Text}
    {captures : Regex.Captures} :
    r.match? url = some captures ↔
      ∃ split : Split, split.Foremost t.layout url ∧ split.captures [] = captures := by
  rw [match?_eq_run hr, Layout.run_eq_some_iff]

/-- A URL that a template matches is split along its layout in the way that comes before
all others: at the first share in which another way differs, its own is the longer one.
The pieces of this split are what extraction decodes. -/
theorem extract_leftmost_longest {t : Template} (h : ¬t.Explodes) :
    ∃ r, t.regex = .ok r ∧ ∀ url captures,
      (r.match? url = some captures ↔
        ∃ split : Split, split.Foremost t.layout url ∧ split.captures [] = captures) ∧
      (r.match? url = some captures → t.extract url = bindSlots url ∅ captures) := by
  obtain ⟨r, hr⟩ := exists_regex_iff.2 h
  exact ⟨r, hr, fun url captures => ⟨match?_eq_some_iff hr, extract_of_match?_eq_some hr⟩⟩

/-- The first variable takes as much as leaves a name and one atom, and the name has its
`=` although nothing is left for the piece after it. -/
theorem extract_leftmost_longest_shared_name :
    ∃ t, parse "\x7b+x\x7d\x7b;k\x7d\x7by:1\x7d".toList = .ok t ∧ ¬t.Explodes ∧
      t.extract "a;k=b;k=c".toList = .ok (.ofList [(⟨['x'], rfl⟩, .scalar "a;k=b".toList),
        (⟨['k'], rfl⟩, .scalar []), (⟨['y'], rfl⟩, .scalar ['c'])]) ∧
      ∃ r, t.regex = .ok r ∧ ∀ url captures,
        (r.match? url = some captures ↔
          ∃ split : Split, split.Foremost t.layout url ∧ split.captures [] = captures) ∧
        (r.match? url = some captures → t.extract url = bindSlots url ∅ captures) := by
  let t : Template := ⟨"\x7b+x\x7d\x7b;k\x7d\x7by:1\x7d".toList,
    [.expression (.member ⟨.reserved, ⟨⟨['x'], rfl⟩, .none⟩⟩),
      .expression (.member ⟨.parameter, ⟨⟨['k'], rfl⟩, .none⟩⟩),
      .expression (.member ⟨.simple, ⟨⟨['y'], rfl⟩, .upTo ⟨1, by decide, by decide⟩⟩⟩)]⟩
  have hunexploded : ¬t.Explodes := by decide
  exact ⟨t, rfl, hunexploded, by decide +kernel, extract_leftmost_longest hunexploded⟩

end Template

end UriTemplate
