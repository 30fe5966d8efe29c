import UriTemplate.Proofs.SlotMatches

/-!
# Soundness of extraction

What extraction answers is true: the URL splits along the layout of the template
into fixed texts and spellings of the values that are bound.  This holds for
every template and every URL, ambiguous or not, as each step of the matcher takes
off a share that its part allows.

* `Layout.exists_split_of_run`: a match is a split of the text.
* `Template.bindSlots_eq_ok`: which bindings the slots of a match make.
* `Template.extract_sound`: the three together.
-/

namespace UriTemplate

open Percent

/-! ## Matches -/

/-- What the slot of a share takes at a place. -/
def Written.captures (seen : Seen) : Written → Regex.Captures
  | fixed _ => []
  | value op spec piece => [(Part.slot op spec seen, piece)]
  | bare op spec => [(Part.slot op spec seen, [])]

/-- What the slots of a split take at a place. -/
def Split.captures (seen : Seen) : Split → Regex.Captures
  | [] => []
  | w :: rest => w.captures seen ++ captures (seen ++ w.part.names) rest

namespace Written

/-- Whether no other share of the part is longer, among those after which the text is
matched. -/
def Longest (next : Text → Option Regex.Captures) (s : Text) (w : Written) : Prop :=
  ∀ w' : Written, w'.part = w.part → w'.Shaped → ∀ rest later, s = w'.text ++ rest →
    next rest = some later → w'.text.length ≤ w.text.length

theorem eq_fixed_of_part {w : Written} {t : Text} (h : w.part = .fixed t) :
    w = .fixed t := by
  cases w with
  | fixed t' =>
    cases h
    rfl
  | value op spec piece => cases h
  | bare op spec => cases h

/-- The share of a value is the longest one, with its `=` and as a whole, as the slot
takes the longest piece. -/
theorem longest_value {op : Operator} {spec : VarSpec} {seen : Seen}
    {next : Text → Option Regex.Captures} {s piece : Text} {later : Regex.Captures}
    (h : (Part.slot op spec seen).run next s = some (piece, later)) :
    (value op spec piece).Longest next (if op.dropsEmptyEquals then '=' :: s else s) := by
  intro w' hpart hshaped rest later' hs hnext
  cases w' with
  | fixed t => cases hpart
  | bare op' spec' => exact Nat.zero_le _
  | value op' spec' piece' =>
    cases hpart
    obtain ⟨n, hrow, hcount⟩ := hshaped
    have hle (hs : s = piece' ++ rest) : piece'.length ≤ piece.length := by
      subst hs
      have hcount : (Part.slot op spec seen).count.Allows n := hcount
      exact Slot.length_le_of_run h hrow hcount hnext
    rw [text] at hs ⊢
    rw [text]
    split
    · rename_i hop
      rw [if_pos hop, if_pos hop, List.cons_append] at hs
      exact Nat.succ_le_succ (hle (List.cons.inj hs).2)
    · rename_i hop
      rw [if_neg hop, if_neg hop] at hs
      exact hle hs

/-- A name stands alone only if it cannot have its `=`. -/
theorem longest_bare {op : Operator} {spec : VarSpec} (seen : Seen)
    {next : Text → Option Regex.Captures} {s : Text} (hop : op.dropsEmptyEquals = true)
    (h : ∀ s', s = '=' :: s' → (Part.slot op spec seen).run next s' = none) :
    (bare op spec).Longest next s := by
  intro w' hpart hshaped rest later hs hnext
  cases w' with
  | fixed t => cases hpart
  | bare op' spec' => exact Nat.zero_le _
  | value op' spec' piece =>
    cases hpart
    obtain ⟨n, hrow, hcount⟩ := hshaped
    rw [text, if_pos hop, List.cons_append] at hs
    obtain ⟨taken, htaken⟩ : ∃ taken,
        (Part.slot op spec seen).run next (piece ++ rest) = some taken :=
      Slot.exists_run_append hrow hcount hnext
    rw [h _ hs] at htaken
    cases htaken

end Written

/-- A part takes off its share of the text, the longest one, and leaves the rest. -/
theorem Part.exists_of_run {part : Part} {seen : Seen} {next : Text → Option Regex.Captures}
    {s : Text} {captures : Regex.Captures} (h : (part.item seen).run next s = some captures) :
    ∃ w : Written, w.part = part ∧ w.Shaped ∧ w.Longest next s ∧ ∃ rest later,
      s = w.text ++ rest ∧ next rest = some later ∧ captures = w.captures seen ++ later := by
  cases part with
  | fixed t =>
    obtain ⟨rest, hstrip, hnext⟩ := Option.bind_eq_some_iff.1 h
    refine ⟨.fixed t, rfl, trivial, ?_, rest, captures, Text.stripFront_eq_some.1 hstrip, hnext,
      rfl⟩
    intro w' hpart _ _ _ _ _
    exact Nat.le_of_eq (by rw [Written.eq_fixed_of_part hpart])
  | value op spec =>
    by_cases hop : op.dropsEmptyEquals = true
    · rw [item, if_pos hop] at h
      rw [Regex.Item.run, Option.orElse_eq_orElse, Option.orElse_eq_or, Option.or_eq_some_iff] at h
      -- With `=` the slot is taken; without it the name stands alone.
      rcases h with hassigned | ⟨hnone, hbare⟩
      · obtain ⟨s', hstrip, htaken⟩ := Option.bind_eq_some_iff.1 hassigned
        obtain ⟨⟨piece, later⟩, hrun, rfl⟩ := Option.map_eq_some_iff.1 htaken
        have hlongest := Written.longest_value hrun
        obtain ⟨n, rest, hrow, hcount, rfl, hnext⟩ := Slot.exists_of_run hrun
        obtain rfl := Text.stripFront_eq_some.1 hstrip
        rw [if_pos hop] at hlongest
        refine ⟨.value op spec piece, rfl, ⟨n, hrow, hcount⟩, hlongest, rest, later, ?_, hnext, rfl⟩
        rw [Written.text, if_pos hop]
        rfl
      · obtain ⟨later, hnext, rfl⟩ := Option.map_eq_some_iff.1 hbare
        refine ⟨.bare op spec, rfl, hop, Written.longest_bare seen hop ?_, s, later, rfl, hnext,
          rfl⟩
        rintro s' rfl
        simpa [Text.stripFront] using hnone
    · rw [item, if_neg hop] at h
      obtain ⟨⟨piece, later⟩, hrun, rfl⟩ := Option.map_eq_some_iff.1 h
      have hlongest := Written.longest_value hrun
      obtain ⟨n, rest, hrow, hcount, rfl, hnext⟩ := Slot.exists_of_run hrun
      rw [if_neg hop] at hlongest
      refine ⟨.value op spec piece, rfl, ⟨n, hrow, hcount⟩, hlongest, rest, later, ?_, hnext, rfl⟩
      rw [Written.text, if_neg hop]

/-- A match of a row is a split of the text along it. -/
theorem Layout.exists_split_of_run {parts : Layout} {seen : Seen} {s : Text}
    {captures : Regex.Captures} (h : (regex seen parts).run s = some captures) :
    ∃ split : Split, split.map Written.part = parts ∧ split.flatMap Written.text = s ∧
      (∀ w ∈ split, w.Shaped) ∧ captures = split.captures seen := by
  induction parts generalizing seen s captures with
  | nil =>
    rw [regex, Regex.run] at h
    split at h
    · rename_i hs
      cases h
      exact ⟨[], rfl, by simpa using hs.symm, by simp, rfl⟩
    · cases h
  | cons part parts ih =>
    rw [regex, Regex.run] at h
    obtain ⟨w, rfl, hshaped, -, rest, later, rfl, hnext, rfl⟩ := Part.exists_of_run h
    obtain ⟨split, rfl, rfl, hsplit, rfl⟩ := ih hnext
    exact ⟨w :: split, rfl, rfl, by simpa using ⟨hshaped, hsplit⟩, rfl⟩

/-! ## Bindings -/

/-- Whether names are bound to scalars, and no others are bound at all. -/
def Bindings.BindsScalars (b : Bindings) (names : List Name) : Prop :=
  ∀ n, (n ∈ names → ∃ t, b.find? n = some (.scalar t)) ∧ (n ∉ names → b.find? n = none)

/-- Whether what a slot took spells the value of its variable. -/
def Bindings.Decodes (b : Bindings) (taken : Slot × Text) : Prop :=
  ∃ t, decode taken.2 = some t ∧ b.find? taken.1.name = some (.scalar t)

namespace Bindings

theorem find?_of_get_scalar {b : Bindings} {n : Name} {t : Text} (h : b.get n = .scalar t) :
    b.find? n = some (.scalar t) := by
  rw [get] at h
  cases hfind : b.find? n with
  | none => simp [hfind] at h
  | some v =>
    rw [hfind, Option.getD_some] at h
    rw [h]

/-- Whether bindings differ from earlier ones in the values of some names only,
and not in those that were bound to scalars before. -/
structure Extends (b b₀ : Bindings) (names : List Name) : Prop where
  kept : ∀ n t, b₀.find? n = some (.scalar t) → b.find? n = some (.scalar t)
  other : ∀ n, n ∉ names → b.find? n = b₀.find? n

theorem extends_nil {b b₀ : Bindings} : b.Extends b₀ [] ↔ b₀ = b := by
  constructor
  · intro h
    exact ext_find? fun n => (h.other n (by simp)).symm
  · rintro rfl
    exact ⟨fun n t h => h, fun n _ => rfl⟩

/-- A name that has its value already can be among those that may change. -/
theorem extends_of_bound {b b₀ : Bindings} {n : Name} {t : Text} {names : List Name}
    (hbound : b₀.find? n = some (.scalar t)) :
    b.Extends b₀ names ↔ b.find? n = some (.scalar t) ∧ b.Extends b₀ (n :: names) := by
  constructor
  · intro h
    exact ⟨h.kept n t hbound, h.kept, fun m hm => h.other m fun hmem => hm (by simp [hmem])⟩
  · intro h
    obtain ⟨hn, h⟩ := h
    refine ⟨h.kept, fun m hm => ?_⟩
    by_cases hmn : m = n
    · rw [hmn, hn, hbound]
    · exact h.other m (by simp [hmn, hm])

/-- A name that is bound first has its value from then on. -/
theorem extends_insert {b b₀ : Bindings} {n : Name} {t : Text} {names : List Name}
    (hunbound : ∀ t', b₀.find? n ≠ some (.scalar t')) :
    b.Extends (b₀.insert n (.scalar t)) names ↔
      b.find? n = some (.scalar t) ∧ b.Extends b₀ (n :: names) := by
  have hinsert : (b₀.insert n (.scalar t)).find? n = some (.scalar t) := by
    rw [find?_insert, if_pos rfl]
  have hsame {m : Name} (hmn : m ≠ n) : (b₀.insert n (.scalar t)).find? m = b₀.find? m := by
    rw [find?_insert, if_neg (Ne.symm hmn)]
  rw [extends_of_bound hinsert]
  refine and_congr_right fun hn => ⟨fun h => ⟨?_, ?_⟩, fun h => ⟨?_, ?_⟩⟩
  · intro m t' hm
    have hmn : m ≠ n := by
      rintro rfl
      exact hunbound t' hm
    exact h.kept m t' (by rw [hsame hmn, hm])
  · intro m hm
    rw [h.other m hm, hsame fun hmn => hm (by simp [hmn])]
  · intro m t' hm
    by_cases hmn : m = n
    · rw [hmn, hinsert] at hm
      rw [hmn, hn, hm]
    · exact h.kept m t' (by rw [← hsame hmn, hm])
  · intro m hm
    rw [h.other m hm, hsame fun hmn => hm (by simp [hmn])]

end Bindings

namespace Template

/-- The slots of a match bind their variables to what they spell, and bind
nothing else. -/
theorem bindSlots_eq_ok {url : Text} {b₀ b : Bindings} {captures : Regex.Captures} :
    bindSlots url b₀ captures = .ok b ↔
      (∀ taken ∈ captures, b.Decodes taken) ∧
        b.Extends b₀ (captures.map fun taken => taken.1.name) := by
  induction captures generalizing b₀ with
  | nil => simp [bindSlots, Bindings.extends_nil]
  | cons taken captures ih =>
    obtain ⟨x, encoded⟩ := taken
    rw [bindSlots, List.forall_mem_cons, List.map_cons]
    cases hdecode : decode encoded with
    | none => simp [Bindings.Decodes, hdecode]
    | some t =>
      have hfirst : b.Decodes (x, encoded) ↔ b.find? x.name = some (.scalar t) := by
        simp [Bindings.Decodes, hdecode]
      rw [hfirst]
      dsimp only
      split
      · rename_i hunscalar
        have hunbound (t' : Text) : b₀.find? x.name ≠ some (.scalar t') := by
          intro hfind
          rw [Bindings.get_of_find? hfind] at hunscalar
          cases hunscalar
        rw [ih, Bindings.extends_insert hunbound]
        tauto
      · rename_i earlier hscalar
        have hbound := Bindings.find?_of_get_scalar (Value.scalar?_eq_some.1 hscalar)
        split
        · rename_i heq
          subst heq
          rw [ih, Bindings.extends_of_bound hbound]
          tauto
        · rename_i hne
          -- Two places that decode differently: no bindings decode both.
          constructor
          · intro h
            cases h
          · intro h
            obtain ⟨⟨hx, -⟩, hextends⟩ := h
            have hsame := hextends.kept x.name earlier hbound
            rw [hx] at hsame
            cases hsame
            exact absurd rfl hne

/-- The slots of a match bind exactly their variables, to what they spell. -/
theorem bindSlots_empty_eq_ok {url : Text} {b : Bindings} {captures : Regex.Captures} :
    bindSlots url ∅ captures = .ok b ↔
      (∀ taken ∈ captures, b.Decodes taken) ∧
        b.BindsScalars (captures.map fun taken => taken.1.name) := by
  rw [bindSlots_eq_ok]
  refine and_congr_right fun hdecodes => ⟨fun h n => ⟨?_, ?_⟩, fun h => ⟨?_, ?_⟩⟩
  · intro hn
    obtain ⟨taken, htaken, rfl⟩ := List.mem_map.1 hn
    obtain ⟨t, -, hfind⟩ := hdecodes taken htaken
    exact ⟨t, hfind⟩
  · intro hn
    rw [h.other n hn, Bindings.find?_empty]
  · intro n t hn
    rw [Bindings.find?_empty] at hn
    cases hn
  · intro n hn
    rw [(h n).2 hn, Bindings.find?_empty]

end Template

/-! ## Splits and their slots -/

/-- A share spells the value of its variable when its slot does. -/
theorem Written.fits_iff {b : Bindings} {w : Written} (seen : Seen) :
    w.Fits b ↔ w.Shaped ∧ ∀ taken ∈ w.captures seen, b.Decodes taken := by
  cases w with
  | fixed t => simp [Fits, Shaped, captures]
  | value op spec piece =>
    simp [Fits, Shaped, captures, Bindings.Decodes, Part.slot]
  | bare op spec =>
    have hdecode : decode [] = some [] := rfl
    simp [Fits, Shaped, captures, Bindings.Decodes, Part.slot, hdecode]

theorem Split.fits_iff {b : Bindings} {split : Split} (seen : Seen) :
    (∀ w ∈ split, w.Fits b) ↔
      (∀ w ∈ split, w.Shaped) ∧ ∀ taken ∈ split.captures seen, b.Decodes taken := by
  induction split generalizing seen with
  | nil => simp [captures]
  | cons w split ih =>
    rw [List.forall_mem_cons, List.forall_mem_cons, captures, List.forall_mem_append,
      ih (seen ++ w.part.names), Written.fits_iff seen]
    tauto

theorem Split.map_name_captures (split : Split) (seen : Seen) :
    (split.captures seen).map (fun taken => taken.1.name) =
      (Layout.specs (split.map Written.part)).map VarSpec.name := by
  rw [← Layout.flatMap_names]
  induction split generalizing seen with
  | nil => rfl
  | cons w split ih =>
    rw [captures, List.map_append, ih, List.map_cons, List.flatMap_cons]
    cases w <;> rfl

/-! ## Extraction -/

namespace Template

/-- A URL from which bindings are extracted is a split along the layout in which
each share spells the value of its variable.  The bindings are those of exactly
the variables of the template, and expanding with them writes the canonical
spelling of each share.  A name without `=` spells the empty value even if its
variable has a limit. -/
theorem extract_sound {s url : Text} {t : Template} {b : Bindings}
    (hparse : parse s = .ok t) (hextract : t.extract url = .ok b) :
    b.BindsScalars t.names ∧
      ∃ split : Split, split.map Written.part = t.layout ∧ split.flatMap Written.text = url ∧
        (∀ w ∈ split, w.Fits b) ∧
        t.expand b = (split.map Written.canonical).flatMap Written.text := by
  obtain ⟨-, captures, hrun, hbind⟩ := extract_eq_ok.1 hextract
  obtain ⟨split, hparts, rfl, hshaped, rfl⟩ := Layout.exists_split_of_run hrun
  obtain ⟨hdecodes, hbinds⟩ := bindSlots_empty_eq_ok.1 hbind
  have hscalars : b.BindsScalars t.names := by
    intro n
    rw [mem_names, ← map_name_specs_layout, ← hparts, ← Split.map_name_captures split []]
    exact hbinds n
  have hfits := (Split.fits_iff []).2 ⟨hshaped, hdecodes⟩
  exact ⟨hscalars, split, hparts, rfl, hfits,
    expand_eq_canonical hparse (fun n => (hscalars n).1) hparts hfits⟩

theorem extract_sound_mixed_spellings :
    ∃ t b, parse "a\x7b;k:2,e\x7d\x7b?k\x7d".toList = .ok t ∧
      t.extract "a;k=%c3%A9;e?k=%C3%A9".toList = .ok b ∧ b.BindsScalars t.names ∧
      ∃ split : Split, split.map Written.part = t.layout ∧
        split.flatMap Written.text = "a;k=%c3%A9;e?k=%C3%A9".toList ∧ (∀ w ∈ split, w.Fits b) ∧
        t.expand b = (split.map Written.canonical).flatMap Written.text := by
  have hextract : (parse "a\x7b;k:2,e\x7d\x7b?k\x7d".toList).bind
      (extract · "a;k=%c3%A9;e?k=%C3%A9".toList) =
      .ok (.ofList [(⟨['e'], rfl⟩, .scalar []), (⟨['k'], rfl⟩, .scalar ['é'])]) := by
    decide +kernel
  obtain ⟨t, hparse, hextract⟩ := bind_eq_ok_iff.1 hextract
  exact ⟨t, _, hparse, hextract, extract_sound hparse hextract⟩

/-- The piece of a name without `=` need not have as many atoms as the limit of
its variable asks for. -/
theorem extract_bare_below_limit :
    ∃ t b, parse "\x7b;x:3\x7d".toList = .ok t ∧ t.extract ";x".toList = .ok b ∧
      ¬∃ split : Split, split.map Written.part = t.layout ∧
        split.flatMap Written.text = ";x".toList ∧
        ∀ w ∈ split, ∀ op spec, w.part = .value op spec → IsPiece op spec w.piece := by
  let x : VarSpec := ⟨⟨['x'], rfl⟩, .upTo ⟨3, by decide, by decide⟩⟩
  refine ⟨⟨"\x7b;x:3\x7d".toList, [.expression (.member ⟨.parameter, x⟩)]⟩,
    .ofList [(x.name, .scalar [])], rfl, by decide +kernel, ?_⟩
  intro h
  obtain ⟨split, hparts, htext, hpieces⟩ := h
  have hlayout : split.map Written.part = [.fixed [';'], .fixed ['x'], .value .parameter x] :=
    hparts
  simp only [List.map_eq_cons_iff, List.map_eq_nil_iff] at hlayout
  obtain ⟨lead, _, rfl, hlead, name, _, rfl, hname, w, _, rfl, hw, rfl⟩ := hlayout
  obtain rfl := Written.eq_fixed_of_part hlead
  obtain rfl := Written.eq_fixed_of_part hname
  have hpiece : IsPiece .parameter x w.piece := hpieces w (by simp) .parameter x hw
  obtain ⟨n, hrow, rfl⟩ := hpiece
  have hlength := hrow.length_bytes
  -- The two fixed texts are the whole URL, so only the bare name is left.
  cases w with
  | fixed t => cases hw
  | value op spec piece =>
    cases hw
    simp [Written.text, Operator.dropsEmptyEquals] at htext
  | bare op spec => simp [Written.piece, bytes] at hlength

end Template

end UriTemplate
