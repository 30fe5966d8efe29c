import UriTemplate.Proofs.ExtractionSoundness

/-!
# Extraction from delimited templates

A value of a template ends where its slot cannot go on.  In a delimited template
each value is at the end or before a character that its slot does not take, so
the longest row of atoms is the one that was written, and extraction finds the
values of an expansion again, in whatever spelling.

* `Written.run_item`: a part is matched by its share.
* `Layout.Delimited.run_flatMap_text`: the match of a text that is written along a
  delimited row is the one that it was written by.
* `Part.write_fits`: what expansion writes is one of the spellings.
* `Template.extract_of_delimited`: extraction inverts expansion.
-/

namespace UriTemplate

open Percent

/-! ## Delimited rows -/

/-- Whether a value cannot go on with a character, nor a name with its `=`. -/
def Operator.Stops (op : Operator) (c : Char) : Prop :=
  op.profile.allow.contains c = false ∧ c ≠ '%' ∧ (op.dropsEmptyEquals = true → c ≠ '=')

instance (op : Operator) (c : Char) : Decidable (op.Stops c) :=
  inferInstanceAs (Decidable (_ ∧ _ ∧ (_ → _)))

/-- Whether a value cannot go on in the text after it, nor a name with its `=`. -/
def Operator.StopsBefore (op : Operator) : Text → Prop
  | [] => True
  | c :: _ => op.Stops c

namespace Layout

/-- Whether a value ends before a row: nothing follows it, or fixed text that it
cannot go on with. -/
def Ends (op : Operator) : Layout → Prop
  | [] => True
  | .fixed (c :: _) :: _ => op.Stops c
  | .fixed [] :: _ | .value _ _ :: _ => False

instance (op : Operator) : (parts : Layout) → Decidable (Ends op parts)
  | [] => inferInstanceAs (Decidable True)
  | .fixed (c :: _) :: _ => inferInstanceAs (Decidable (op.Stops c))
  | .fixed [] :: _ | .value _ _ :: _ => inferInstanceAs (Decidable False)

/-- Whether each value is without a modifier and ends before what follows it. -/
def Delimited : Layout → Prop
  | [] => True
  | .fixed _ :: rest => Delimited rest
  | .value op spec :: rest => spec.modifier = .none ∧ Ends op rest ∧ Delimited rest

instance decidableDelimited : (parts : Layout) → Decidable (Delimited parts)
  | [] => inferInstanceAs (Decidable True)
  | .fixed _ :: rest => decidableDelimited rest
  | .value op spec :: rest =>
    have := decidableDelimited rest
    inferInstanceAs (Decidable (spec.modifier = .none ∧ Ends op rest ∧ Delimited rest))

theorem delimited_cons {part : Part} {rest : Layout} :
    Delimited (part :: rest) ↔
      (∀ op spec, part = .value op spec → spec.modifier = .none ∧ Ends op rest) ∧
        Delimited rest := by
  cases part with
  | fixed t => simp [Delimited]
  | value op spec =>
    rw [Delimited, ← and_assoc]
    refine and_congr_left fun _ => ⟨fun h op' spec' heq => ?_, fun h => h op spec rfl⟩
    cases heq
    exact h

theorem Delimited.modifier_eq_none {parts : Layout} (h : parts.Delimited) {spec : VarSpec}
    (hspec : spec ∈ parts.specs) : spec.modifier = .none := by
  induction parts with
  | nil => cases hspec
  | cons part parts ih =>
    cases part with
    | fixed t => exact ih h hspec
    | value op spec' =>
      obtain ⟨hmodifier, -, hrest⟩ := h
      rcases List.mem_cons.1 hspec with rfl | hspec
      · exact hmodifier
      · exact ih hrest hspec

end Layout

/-! ## Where slots stop -/

theorem Percent.takeAtom?_cons_eq_none {cls : CharClass} {c : Char} (hc : cls.contains c = false)
    (hne : c ≠ '%') (s : Text) : takeAtom? cls (c :: s) = none := by
  rw [Option.eq_none_iff_forall_ne_some]
  rintro ⟨atom, rest⟩ h
  obtain ⟨hatom, heq⟩ := takeAtom?_eq_some.1 h
  cases hatom with
  | kept hkept =>
    obtain ⟨rfl, -⟩ := List.cons.inj heq
    rw [hc] at hkept
    cases hkept
  | triplet => exact hne (List.cons.inj heq).1

/-! ## Matches of delimited rows -/

namespace Operator

theorem StopsBefore.takeAtom? {op : Operator} {s : Text} (h : op.StopsBefore s) :
    takeAtom? op.profile.allow s = none := by
  cases s with
  | nil => rfl
  | cons c s =>
    obtain ⟨hclass, hpercent, -⟩ := h
    exact takeAtom?_cons_eq_none hclass hpercent s

theorem StopsBefore.stripFront {op : Operator} {s : Text} (h : op.StopsBefore s)
    (hop : op.dropsEmptyEquals = true) : Text.stripFront ['='] s = none := by
  cases s with
  | nil => rfl
  | cons c s =>
    obtain ⟨-, -, hequals⟩ := h
    rw [Text.stripFront, if_neg (hequals hop).symm]

end Operator

/-- A slot takes the whole piece of a value that stops before the text after it. -/
theorem Slot.run_append {op : Operator} {spec : VarSpec} {seen : Seen} {piece rest : Text}
    {next : Text → Option Regex.Captures} {later : Regex.Captures}
    (hpiece : IsPiece op spec piece) (hmodifier : spec.modifier = .none)
    (hstops : op.StopsBefore rest) (hnext : next rest = some later) :
    (Part.slot op spec seen).run next (piece ++ rest) = some (piece, later) := by
  obtain ⟨n, hrow, -⟩ := hpiece
  rw [run, Part.slot, hmodifier]
  exact longest_append hrow hstops.takeAtom? hnext

/-- A part is matched by the share that was written for it, if a value stops before
the text after it. -/
theorem Written.run_item {w : Written} {seen : Seen} {next : Text → Option Regex.Captures}
    {rest : Text} {later : Regex.Captures} (hshaped : w.Shaped) (hnext : next rest = some later)
    (hstops : ∀ op spec, w.part = .value op spec →
      spec.modifier = .none ∧ op.StopsBefore rest) :
    (w.part.item seen).run next (w.text ++ rest) = some (w.captures seen ++ later) := by
  cases w with
  | fixed t =>
    have hstrip : Text.stripFront t (t ++ rest) = some rest := Text.stripFront_eq_some.2 rfl
    rw [text, part, Part.item, Regex.Item.run, hstrip, Option.bind_some, hnext]
    rfl
  | value op spec piece =>
    obtain ⟨hmodifier, hstop⟩ := hstops op spec rfl
    have hrun : (Part.slot op spec seen).run next (piece ++ rest) = some (piece, later) :=
      Slot.run_append hshaped hmodifier hstop hnext
    rw [text, part, Part.item]
    split
    · rw [Regex.Item.run, List.cons_append, Text.stripFront, if_pos rfl, Text.stripFront,
        Option.bind_some, hrun]
      rfl
    · rw [Regex.Item.run, hrun]
      rfl
  | bare op spec =>
    obtain ⟨-, hstop⟩ := hstops op spec rfl
    have hop : op.dropsEmptyEquals = true := hshaped
    -- There is no `=`, so the slot is passed over.
    rw [text, part, Part.item, if_pos hop, Regex.Item.run, List.nil_append,
      hstop.stripFront hop, hnext]
    rfl

namespace Layout

/-- The text after a value is empty, or begins with a character that the value
cannot go on with. -/
theorem Ends.stopsBefore {op : Operator} {split : Split}
    (h : Ends op (split.map Written.part)) : op.StopsBefore (split.flatMap Written.text) := by
  cases split with
  | nil => trivial
  | cons w split =>
    cases w with
    | fixed t =>
      cases t with
      | nil => exact h.elim
      | cons c t => exact h
    | value => exact h.elim
    | bare => exact h.elim

/-- The match of a text that is written along a delimited row is the one that it
was written by. -/
theorem Delimited.run_flatMap_text {split : Split} (h : Delimited (split.map Written.part))
    (hshaped : ∀ w ∈ split, w.Shaped) (seen : Seen) :
    (regex seen (split.map Written.part)).run (split.flatMap Written.text) =
      some (split.captures seen) := by
  induction split generalizing seen with
  | nil => rfl
  | cons w split ih =>
    rw [List.map_cons] at h
    obtain ⟨hstops, hrest⟩ := delimited_cons.1 h
    have hw : w.Shaped := hshaped w List.mem_cons_self
    have hsplit : ∀ w ∈ split, w.Shaped := fun w hw => hshaped w (List.mem_cons_of_mem _ hw)
    rw [List.map_cons, regex, List.flatMap_cons, Regex.run, Split.captures]
    refine Written.run_item hw (ih hrest hsplit _) ?_
    intro op spec hpart
    obtain ⟨hmodifier, hends⟩ := hstops op spec hpart
    exact ⟨hmodifier, hends.stopsBefore⟩

end Layout

/-! ## What expansion writes -/

/-- What expansion writes for a variable without a modifier spells its value. -/
theorem Part.write_fits {b : Bindings} {op : Operator} {spec : VarSpec} {t : Text}
    (hmodifier : spec.modifier = .none) (hfind : b.find? spec.name = some (.scalar t)) :
    ((Part.value op spec).write b).Fits b := by
  have hencoded : encodedValue b op spec = encode op.profile.allow t := by
    rw [encodedValue, Bindings.get_of_find? hfind, hmodifier]
    rfl
  rw [write, Written.ofPiece, hencoded]
  split
  · rename_i hempty
    obtain ⟨hop, hnil⟩ := hempty
    rw [encode_eq_nil.1 hnil] at hfind
    exact ⟨hop, hfind⟩
  · refine ⟨⟨_, atomRow_encode op.profile.allow t, ?_⟩, t, decode_encode _ t, hfind⟩
    rw [hmodifier]
    trivial

/-! ## Extraction -/

namespace Template

/-- Extraction finds the values of a text that is written along a delimited row. -/
theorem extract_flatMap_text {t : Template} {b : Bindings} {split : Split}
    (hdelimited : t.layout.Delimited) (hscalars : b.BindsScalars t.names)
    (hparts : split.map Written.part = t.layout) (hfits : ∀ w ∈ split, w.Fits b) :
    t.extract (split.flatMap Written.text) = .ok b := by
  obtain ⟨hshaped, hdecodes⟩ := (Split.fits_iff []).1 hfits
  refine extract_eq_ok.2 ⟨exists_regex ?_, Split.captures [] split, ?_, ?_⟩
  · intro spec hspec
    rw [hdelimited.modifier_eq_none hspec]
    simp
  · rw [← hparts] at hdelimited ⊢
    exact hdelimited.run_flatMap_text hshaped []
  · refine bindSlots_empty_eq_ok.2 ⟨hdecodes, fun n => ?_⟩
    rw [Split.map_name_captures, hparts, map_name_specs_layout, ← mem_names]
    exact hscalars n

/-- What expansion writes along a row without modifiers spells the values. -/
theorem fits_of_mem_write_of_plain {t : Template} {b : Bindings}
    (hplain : ∀ spec ∈ t.layout.specs, spec.modifier = .none)
    (hb : ∀ n ∈ t.names, ∃ text, b.find? n = some (.scalar text)) {w : Written}
    (hw : w ∈ t.layout.map (Part.write b)) : w.Fits b := by
  obtain ⟨part, hpart, rfl⟩ := List.mem_map.1 hw
  cases part with
  | fixed t => trivial
  | value op spec =>
    have hspec : spec ∈ t.layout.specs := List.mem_filterMap.2 ⟨_, hpart, rfl⟩
    have hname : spec.name ∈ t.names := by
      rw [mem_names, ← map_name_specs_layout]
      exact List.mem_map_of_mem hspec
    obtain ⟨text, hfind⟩ := hb spec.name hname
    exact Part.write_fits (hplain spec hspec) hfind

/-- What expansion writes along a delimited row spells the values. -/
theorem fits_of_mem_write {t : Template} {b : Bindings} (hdelimited : t.layout.Delimited)
    (hscalars : b.BindsScalars t.names) {w : Written} (hw : w ∈ t.layout.map (Part.write b)) :
    w.Fits b :=
  fits_of_mem_write_of_plain (fun _ => hdelimited.modifier_eq_none) (fun n => (hscalars n).1) hw

/-- Extraction from a delimited template inverts expansion.  It finds the bindings
again from their expansion, and from every text in which the values stand in
another spelling of theirs. -/
theorem extract_of_delimited {s : Text} {t : Template} {b : Bindings}
    (hparse : parse s = .ok t) (hdelimited : t.layout.Delimited)
    (hscalars : b.BindsScalars t.names) :
    (∀ split : Split, split.map Written.part = t.layout → (∀ w ∈ split, w.Fits b) →
        t.extract (split.flatMap Written.text) = .ok b) ∧
      t.extract (t.expand b) = .ok b := by
  have hwritten : t.expand b = (t.layout.map (Part.write b)).flatMap Written.text := by
    rw [expand_eq_flatMap_expand hparse fun n => (hscalars n).1, List.flatMap_map]
    rfl
  have hparts : (t.layout.map (Part.write b)).map Written.part = t.layout := by
    simp [Function.comp_def]
  constructor
  · intro split hsplit hfits
    exact extract_flatMap_text hdelimited hscalars hsplit hfits
  · rw [hwritten]
    exact extract_flatMap_text hdelimited hscalars hparts
      fun w hw => fits_of_mem_write hdelimited hscalars hw

theorem extract_of_delimited_repeated_names :
    ∃ t b, parse "/u\x7b;0,k\x7d/\x7bk\x7d\x7b?0\x7d".toList = .ok t ∧ t.layout.Delimited ∧
      b.BindsScalars t.names ∧ b.get ⟨['k'], rfl⟩ = .scalar ['é', '%'] ∧
      (∀ split : Split, split.map Written.part = t.layout → (∀ w ∈ split, w.Fits b) →
        t.extract (split.flatMap Written.text) = .ok b) ∧
      t.extract (t.expand b) = .ok b := by
  let zero : Name := ⟨['0'], rfl⟩
  let k : Name := ⟨['k'], rfl⟩
  let b : Bindings := .ofList [(zero, .scalar []), (k, .scalar ['é', '%'])]
  let t : Template := ⟨"/u\x7b;0,k\x7d/\x7bk\x7d\x7b?0\x7d".toList,
    [.literal [.plain '/', .plain 'u'],
      .expression (.composite ⟨.parameter, ⟨zero, .none⟩, [⟨k, .none⟩]⟩), .literal [.plain '/'],
      .expression (.member ⟨.simple, ⟨k, .none⟩⟩), .expression (.member ⟨.query, ⟨zero, .none⟩⟩)]⟩
  have hscalars : b.BindsScalars t.names := by
    intro n
    have hnames : t.names = [zero, k] := rfl
    have hfind : b.find? n =
        if zero = n then some (.scalar []) else if k = n then some (.scalar ['é', '%']) else none :=
      rfl
    rw [hnames, hfind]
    by_cases hzero : zero = n
    · simp [hzero]
    · by_cases hk : k = n
      · simp [hzero, hk]
      · simp [hzero, hk, Ne.symm hzero, Ne.symm hk]
  have hdelimited : t.layout.Delimited := by decide
  exact ⟨t, b, rfl, hdelimited, hscalars, rfl,
    extract_of_delimited (s := t.source) rfl hdelimited hscalars⟩

end Template

end UriTemplate
