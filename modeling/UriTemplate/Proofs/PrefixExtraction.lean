import UriTemplate.Proofs.MatchExistence

/-!
# Prefixes and their extraction

An expansion keeps the first characters of a value and then encodes them.  A regex
counts the other way round: the limit of a variable is a number of atoms, and each of
these is a byte.  So what an expansion writes is matched when it has as many bytes as
characters, which only ASCII has.

* `Utf8.length_encode_eq_iff`: the texts with as many bytes as characters.
* `Percent.atomRow_encode_iff`: an encoded text has an atom for each byte.
* `Layout.run_ofSpecs_singleton`: what is matched by a single variable.
* `Template.extract_expand_prefix`: the expansion of a prefix is extracted if the
  prefix is ASCII, and is no match otherwise.
-/

namespace UriTemplate

open Percent

/-! ## Characters and bytes -/

namespace Utf8

theorem one_le_length_encodeChar (c : Char) : 1 ≤ (String.utf8EncodeChar c).length := by
  rw [String.length_utf8EncodeChar]
  exact c.utf8Size_pos

theorem length_encodeChar_eq_one_iff {c : Char} :
    (String.utf8EncodeChar c).length = 1 ↔ c.toNat < 128 := by
  rw [String.length_utf8EncodeChar, Char.utf8Size_eq_one_iff, UInt32.le_iff_toNat_le]
  show c.toNat ≤ 127 ↔ c.toNat < 128
  omega

theorem length_le_length_encode (t : Text) : t.length ≤ (encode t).length := by
  induction t with
  | nil => exact Nat.le_refl 0
  | cons c t ih =>
    have hc := one_le_length_encodeChar c
    rw [encode_cons, List.length_append, List.length_cons]
    omega

/-- The texts with as many bytes as characters are the ones in ASCII. -/
theorem length_encode_eq_iff {t : Text} :
    (encode t).length = t.length ↔ ∀ c ∈ t, c.toNat < 128 := by
  induction t with
  | nil => simp
  | cons c t ih =>
    have hc := one_le_length_encodeChar c
    have ht := length_le_length_encode t
    rw [List.forall_mem_cons, ← ih, ← length_encodeChar_eq_one_iff, encode_cons,
      List.length_append, List.length_cons]
    omega

end Utf8

namespace Percent

/-- An encoded text has an atom for each byte. -/
theorem atomRow_encode_iff {cls : CharClass} {n : Nat} {t : Text} :
    AtomRow cls n (encode cls t) ↔ (Utf8.encode t).length = n := by
  constructor
  · intro hrow
    rw [← bytes_encode cls, hrow.length_bytes]
  · rintro rfl
    exact atomRow_encode cls t

end Percent

/-- As many characters as a limit asks for make so many atoms if they are ASCII. -/
theorem isPiece_encode_iff {op : Operator} {x : Name} {n : Limit} {t : Text}
    (hlength : t.length = n.val) :
    IsPiece op ⟨x, .upTo n⟩ (encode op.profile.allow t) ↔ ∀ c ∈ t, c.toNat < 128 := by
  rw [← Utf8.length_encode_eq_iff, hlength]
  constructor
  · intro h
    obtain ⟨m, hrow, hm⟩ := h
    obtain rfl : m = n.val := hm
    exact atomRow_encode_iff.1 hrow
  · intro h
    exact ⟨n.val, atomRow_encode_iff.2 h, rfl⟩

/-! ## A single variable -/

/-- A share is told by its text if that is not the one of the empty value. -/
theorem Written.eq_value {op : Operator} {spec : VarSpec} {piece : Text} (hne : piece ≠ [])
    {w : Written} (hpart : w.part = .value op spec)
    (htext : w.text = (value op spec piece).text) : w = value op spec piece := by
  cases w with
  | fixed t => cases hpart
  | value op' spec' piece' =>
    cases hpart
    rw [text, text] at htext
    split at htext
    · rw [(List.cons.inj htext).2]
    · rw [htext]
  | bare op' spec' =>
    rw [text, text] at htext
    split at htext
    · cases htext
    · exact absurd htext.symm hne

namespace Layout

/-- The fixed texts before a variable that stands alone. -/
def front (op : Operator) (spec : VarSpec) : List Text :=
  if !op.profile.named then [op.profile.first]
  else if op.dropsEmptyEquals then [op.profile.first, spec.name.text]
  else [op.profile.first, spec.name.text ++ ['=']]

theorem ofSpecs_singleton (op : Operator) (spec : VarSpec) :
    ofSpecs op [spec] = (front op spec).map .fixed ++ [.value op spec] := by
  rw [ofSpecs, front, List.map_singleton, List.intercalate_singleton, ofSpec]
  split
  · rfl
  · split <;> rfl

/-- Fixed texts have their shares. -/
theorem split_of_map_part_fixed {split : Split} {texts : List Text}
    (h : split.map Written.part = texts.map .fixed) : split = texts.map .fixed := by
  induction texts generalizing split with
  | nil => simpa using h
  | cons t texts ih =>
    obtain ⟨w, rest, rfl, hw, hrest⟩ := List.map_eq_cons_iff.1 h
    rw [Written.eq_fixed_of_part hw, ih hrest, List.map_cons]

theorem captures_fixed_append (texts : List Text) (split : Split) (seen : Seen) :
    Split.captures seen (texts.map .fixed ++ split) = split.captures seen := by
  induction texts with
  | nil => rfl
  | cons t texts ih =>
    rw [List.map_cons, List.cons_append, Split.captures, Written.captures, List.nil_append,
      Written.part, Part.names, List.append_nil, ih]

/-- A variable that stands alone with something for its value. -/
def filled (op : Operator) (spec : VarSpec) (piece : Text) : Split :=
  (front op spec).map .fixed ++ [.value op spec piece]

theorem map_part_filled (op : Operator) (spec : VarSpec) (piece : Text) :
    (filled op spec piece).map Written.part = ofSpecs op [spec] := by
  rw [filled, ofSpecs_singleton, List.map_append, List.map_map]
  rfl

/-- Only the piece in its place splits the text along the row. -/
theorem eq_filled {op : Operator} {spec : VarSpec} {piece : Text} (hne : piece ≠ [])
    {split : Split} (hparts : split.map Written.part = ofSpecs op [spec])
    (htext : split.flatMap Written.text = (filled op spec piece).flatMap Written.text) :
    split = filled op spec piece := by
  rw [ofSpecs_singleton] at hparts
  obtain ⟨fixed, last, rfl, hfixed, hlast⟩ := List.map_eq_append_iff.1 hparts
  obtain rfl := split_of_map_part_fixed hfixed
  obtain ⟨w, rest, rfl, hw, hrest⟩ := List.map_eq_cons_iff.1 hlast
  obtain rfl := List.map_eq_nil_iff.1 hrest
  rw [filled, List.flatMap_append, List.flatMap_append, List.append_cancel_left_eq,
    List.flatMap_singleton, List.flatMap_singleton] at htext
  rw [Written.eq_value hne hw htext, filled]

/-- A text of a variable that stands alone is matched when its piece is one, and the slot
takes the piece. -/
theorem run_ofSpecs_singleton {op : Operator} {spec : VarSpec} {piece : Text} (hne : piece ≠ [])
    {captures : Regex.Captures} :
    (regex [] (ofSpecs op [spec])).run ((filled op spec piece).flatMap Written.text) =
        some captures ↔
      IsPiece op spec piece ∧ captures = [(Part.slot op spec [], piece)] := by
  have hforward {captures : Regex.Captures}
      (hrun : (regex [] (ofSpecs op [spec])).run ((filled op spec piece).flatMap Written.text) =
        some captures) :
      IsPiece op spec piece ∧ captures = [(Part.slot op spec [], piece)] := by
    obtain ⟨split, hparts, htext, hshaped, rfl⟩ := exists_split_of_run hrun
    obtain rfl := eq_filled hne hparts htext
    refine ⟨hshaped (.value op spec piece) (by simp [filled]), ?_⟩
    rw [filled, captures_fixed_append]
    rfl
  constructor
  · exact hforward
  · intro h
    obtain ⟨hpiece, rfl⟩ := h
    have hshaped : ∀ w ∈ filled op spec piece, w.Shaped := by
      intro w hw
      rcases List.mem_append.1 hw with hw | hw
      · obtain ⟨t, -, rfl⟩ := List.mem_map.1 hw
        trivial
      · rw [List.mem_singleton.1 hw]
        exact hpiece
    obtain ⟨captures, hrun⟩ := exists_run_flatMap_text hshaped []
    rw [map_part_filled] at hrun
    rw [hrun, (hforward hrun).2]

end Layout

/-! ## Templates of a single variable -/

namespace Template

theorem closing_notMem_text (spec : VarSpec) : '}' ∉ spec.text := by
  intro h
  rcases List.mem_append.1 h with hname | hsuffix
  · have hchar : isNameChar '}' = true := spec.name.isNameChar_of_mem hname
    cases hchar
  · cases hmodifier : spec.modifier with
    | none => simp [hmodifier, Modifier.suffix] at hsuffix
    | explode => simp [hmodifier, Modifier.suffix] at hsuffix
    | upTo limit =>
      rw [hmodifier, Modifier.suffix, List.mem_cons] at hsuffix
      rcases hsuffix with hcolon | hdigit
      · cases hcolon
      · have hdigit : '}'.isDigit = true := Text.isDigit_of_mem_ofNat hdigit
        cases hdigit

/-- A variable between braces is read as the template of it. -/
theorem parse_braced (op : Operator) (spec : VarSpec) :
    parse (braced op [spec.text]) =
      .ok ⟨braced op [spec.text], [.expression (.member ⟨op, spec⟩)]⟩ := by
  have hbody : '}' ∉ op.symbol ++ spec.text := by
    rw [List.mem_append, not_or]
    refine ⟨?_, closing_notMem_text spec⟩
    cases op <;> decide
  have hbraced : braced op [spec.text] = '{' :: (op.symbol ++ spec.text) ++ ['}'] := by
    rw [braced_eq, List.intercalate_singleton]
  have hexpression : Expression.parse ('{' :: (op.symbol ++ spec.text) ++ ['}']) =
      .ok (.member ⟨op, spec⟩) := by
    rw [← hbraced]
    exact Expression.parse_braced op spec []
  have hreads : Piece.readAll (braced op [spec.text]) =
      .ok [.expression (.member ⟨op, spec⟩)] := by
    rw [hbraced, Piece.readAll_eq_ok]
    exact .expression hbody hexpression .nil
  rw [parse, hreads]
  rfl

/-- A template of one variable. -/
def ofMember (e : Member) : Template := ⟨e.text, [.expression (.member e)]⟩

theorem layout_ofMember (e : Member) : (ofMember e).layout = .ofSpecs e.op [e.spec] :=
  List.append_nil _

/-- A value of which something is left is written in its place. -/
theorem expand_ofMember {e : Member} {b : Bindings} {v : Text}
    (hb : b.find? e.name = some (.scalar v)) (hne : encodedValue b e.op e.spec ≠ []) :
    (ofMember e).expand b =
      (Layout.filled e.op e.spec (encodedValue b e.op e.spec)).flatMap Written.text := by
  have hparse : parse e.text = .ok (ofMember e) := parse_braced e.op e.spec
  have hnames : ∀ n ∈ (ofMember e).names, ∃ text, b.find? n = some (.scalar text) := by
    intro n hn
    obtain rfl : n = e.name := by simpa [names, occurrences, ofMember, Segment.names,
      Expression.names] using hn
    exact ⟨v, hb⟩
  have hvalue : (Part.value e.op e.spec).write b =
      .value e.op e.spec (encodedValue b e.op e.spec) := by
    rw [Part.write, Written.ofPiece, if_neg fun h => hne h.2]
  rw [expand_eq_flatMap_write hparse hnames, layout_ofMember, Layout.ofSpecs_singleton,
    List.map_append, List.map_map, List.map_singleton, hvalue]
  rfl

theorem exists_regex_ofMember {e : Member} (h : e.spec.modifier ≠ .explode) :
    ∃ r, (ofMember e).regex = .ok r := by
  refine exists_regex fun spec hspec => ?_
  rw [layout_ofMember, Layout.specs_ofSpecs, List.mem_singleton] at hspec
  rw [hspec]
  exact h

theorem extract_of_run_eq_none {t : Template} {r : Regex} {url : Text} (hr : t.regex = .ok r)
    (h : (Layout.regex [] t.layout).run url = none) : t.extract url = .error (.mismatch url) :=
  extract_of_match?_eq_none hr ((match?_eq_run hr url).trans h)

theorem extract_of_run_eq_some {t : Template} {r : Regex} {url : Text} {captures : Regex.Captures}
    (hr : t.regex = .ok r) (h : (Layout.regex [] t.layout).run url = some captures) :
    t.extract url = bindSlots url ∅ captures :=
  extract_of_match?_eq_some hr ((match?_eq_run hr url).trans h)

/-- The expansion of a prefix is extracted as the prefix if that is ASCII.  Any other
prefix has more atoms than characters, and its expansion is no match. -/
theorem extract_expand_prefix (op : Operator) (x : Name) (n : Limit) {v : Text}
    (hv : n.val ≤ v.length) :
    ∃ t, parse (braced op [VarSpec.text ⟨x, .upTo n⟩]) = .ok t ∧
      ((∀ c ∈ v.take n.val, c.toNat < 128) →
        t.extract (t.expand (.ofList [(x, .scalar v)])) =
          .ok (.ofList [(x, .scalar (v.take n.val))])) ∧
      ((∃ c ∈ v.take n.val, 128 ≤ c.toNat) →
        t.extract (t.expand (.ofList [(x, .scalar v)])) =
          .error (.mismatch (t.expand (.ofList [(x, .scalar v)])))) := by
  let spec : VarSpec := ⟨x, .upTo n⟩
  let b : Bindings := .ofList [(x, .scalar v)]
  let t : Template := ofMember ⟨op, spec⟩
  have hfind : b.find? x = some (.scalar v) := by
    show ((∅ : Bindings).insert x (.scalar v)).find? x = some (.scalar v)
    rw [Bindings.find?_insert, if_pos rfl]
  have hpiece : encodedValue b op spec = encode op.profile.allow (v.take n.val) := by
    rw [encodedValue, Bindings.get_of_find? hfind]
    rfl
  have hlength : (v.take n.val).length = n.val := List.length_take_of_le hv
  have hne : encodedValue b op spec ≠ [] := by
    intro hnil
    have hpos : 1 ≤ n.val := n.one_le
    rw [hpiece, encode_eq_nil] at hnil
    rw [hnil, List.length_nil] at hlength
    omega
  have hexpand : t.expand b = (Layout.filled op spec (encodedValue b op spec)).flatMap
      Written.text := expand_ofMember hfind hne
  obtain ⟨r, hr⟩ : ∃ r, t.regex = .ok r := exists_regex_ofMember (e := ⟨op, spec⟩) (by simp [spec])
  have hlayout : t.layout = .ofSpecs op [spec] := layout_ofMember _
  have hatoms : IsPiece op spec (encodedValue b op spec) ↔ ∀ c ∈ v.take n.val, c.toNat < 128 := by
    rw [hpiece]
    exact isPiece_encode_iff hlength
  refine ⟨t, parse_braced op spec, ?_, ?_⟩
  · intro hascii
    have hrun := (Layout.run_ofSpecs_singleton hne).2 ⟨hatoms.2 hascii, rfl⟩
    rw [← hexpand, ← hlayout] at hrun
    rw [extract_of_run_eq_some hr hrun, bindSlots, hpiece, decode_encode]
    rfl
  · intro hwide
    obtain ⟨c, hc, hbound⟩ := hwide
    apply extract_of_run_eq_none hr
    rw [Option.eq_none_iff_forall_ne_some]
    intro captures hrun
    rw [hexpand, hlayout, Layout.run_ofSpecs_singleton hne, hatoms] at hrun
    exact absurd (hrun.1 c hc) (Nat.not_lt.2 hbound)

/-- The limit of two cuts the value before its accent, and the limit of three after it. -/
theorem extract_expand_prefix_accent :
    ∃ x : Name, ∃ b : Bindings, b = .ofList [(x, .scalar ['a', 'b', 'é'])] ∧
      (∃ t, parse "\x7b?x:2\x7d".toList = .ok t ∧ t.expand b = "?x=ab".toList ∧
        t.extract (t.expand b) = .ok (.ofList [(x, .scalar ['a', 'b'])])) ∧
      ∃ t, parse "\x7b?x:3\x7d".toList = .ok t ∧ t.expand b = "?x=ab%C3%A9".toList ∧
        t.extract (t.expand b) = .error (.mismatch (t.expand b)) := by
  let x : Name := ⟨['x'], rfl⟩
  let v : Text := ['a', 'b', 'é']
  let b : Bindings := .ofList [(x, .scalar v)]
  refine ⟨x, b, rfl, ?_, ?_⟩
  · let n : Limit := ⟨2, by decide, by decide⟩
    let t : Template := ⟨"\x7b?x:2\x7d".toList, [.expression (.member ⟨.query, ⟨x, .upTo n⟩⟩)]⟩
    have hread : parse (braced .query [VarSpec.text ⟨x, .upTo n⟩]) = .ok t := by decide +kernel
    have hv : n.val ≤ v.length := by decide
    obtain ⟨t', hparse, hascii, -⟩ := extract_expand_prefix .query x n hv
    obtain rfl : t = t' := Except.ok.inj (hread.symm.trans hparse)
    exact ⟨t, rfl, by decide +kernel, hascii (by simp [v, n])⟩
  · let n : Limit := ⟨3, by decide, by decide⟩
    let t : Template := ⟨"\x7b?x:3\x7d".toList, [.expression (.member ⟨.query, ⟨x, .upTo n⟩⟩)]⟩
    have hread : parse (braced .query [VarSpec.text ⟨x, .upTo n⟩]) = .ok t := by decide +kernel
    have hv : n.val ≤ v.length := by decide
    obtain ⟨t', hparse, -, hwide⟩ := extract_expand_prefix .query x n hv
    obtain rfl : t = t' := Except.ok.inj (hread.symm.trans hparse)
    exact ⟨t, rfl, by decide +kernel, hwide ⟨'é', by decide, by decide⟩⟩

/-- One character in two bytes is what the limit keeps, and two atoms where it allows one. -/
theorem extract_own_prefix_mismatch :
    ∃ x : Name, ∃ t, parse "\x7bx:1\x7d".toList = .ok t ∧
      t.expand (.ofList [(x, .scalar ['é'])]) = "%C3%A9".toList ∧
      t.extract "%C3%A9".toList = .error (.mismatch "%C3%A9".toList) := by
  let x : Name := ⟨['x'], rfl⟩
  let n : Limit := ⟨1, by decide, by decide⟩
  let t : Template := ⟨"\x7bx:1\x7d".toList, [.expression (.member ⟨.simple, ⟨x, .upTo n⟩⟩)]⟩
  have hexpand : t.expand (.ofList [(x, .scalar ['é'])]) = "%C3%A9".toList := by decide +kernel
  have hextract : t.extract "%C3%A9".toList = .error (.mismatch "%C3%A9".toList) := by
    decide +kernel
  exact ⟨x, t, rfl, hexpand, hextract⟩

end Template

end UriTemplate
