import UriTemplate.Proofs.CanonicalSpelling
import UriTemplate.Proofs.MatchExistence

/-!
# The match that is found

A text may split along a layout in many ways.  The match is the split in which the
first share is as long as it can be, then the second one, and so on.  `Split.Greedy`
says so without the matcher: a share is compared with those that leave a text which
splits along the rest of the layout.

A greedy split cuts no character in two.  A cut inside of a character is one before a
continuation byte, and at the beginning of a text only a triplet spells such a byte.
The values after the cut can do without the triplet, if they have no limits, so the
share before the cut could be longer by it.

* `Layout.exists_greedy_split_of_run`: a match is a greedy split.
* `Split.exists_drop_triplet`: a split of a text that begins with a triplet makes one
  of the text without it.
* `Split.decode_of_pieces`: if all pieces of a split decode, the text decodes.
* `Split.Greedy.decode_pieces`: the converse for greedy splits.
-/

namespace UriTemplate

open Percent

/-! ## Greedy splits -/

/-- Whether no other share of the same part is longer than the first one, among those
that leave a text which splits along the same parts, and so on for the later ones. -/
def Split.Greedy : Split → Prop
  | [] => True
  | w :: rest =>
    (∀ (w' : Written) (rest' : Split), w'.part = w.part → w'.Shaped →
      rest'.map Written.part = rest.map Written.part → (∀ v ∈ rest', v.Shaped) →
      w'.text ++ rest'.flatMap Written.text = w.text ++ rest.flatMap Written.text →
      w'.text.length ≤ w.text.length) ∧ Greedy rest

/-- A match of a row is a greedy split of the text along it. -/
theorem Layout.exists_greedy_split_of_run {parts : Layout} {seen : Seen} {s : Text}
    {captures : Regex.Captures} (h : (regex seen parts).run s = some captures) :
    ∃ split : Split, split.map Written.part = parts ∧ split.flatMap Written.text = s ∧
      (∀ w ∈ split, w.Shaped) ∧ split.Greedy ∧ captures = split.captures seen := by
  induction parts generalizing seen s captures with
  | nil =>
    obtain ⟨split, hparts, htext, hshaped, hcaptures⟩ := exists_split_of_run h
    obtain rfl := List.map_eq_nil_iff.1 hparts
    exact ⟨[], rfl, htext, hshaped, trivial, hcaptures⟩
  | cons part parts ih =>
    rw [regex, Regex.run] at h
    obtain ⟨w, rfl, hshaped, hlongest, rest, later, rfl, hnext, rfl⟩ := Part.exists_of_run h
    obtain ⟨split, rfl, rfl, hsplit, hgreedy, rfl⟩ := ih hnext
    refine ⟨w :: split, rfl, rfl, List.forall_mem_cons.2 ⟨hshaped, hsplit⟩, ⟨?_, hgreedy⟩, rfl⟩
    intro w' rest' hpart hshaped' hparts hrest' htext
    -- What splits along the rest of the row is matched by its regex.
    obtain ⟨later', hlater'⟩ := exists_run_flatMap_text hrest' (seen ++ w.part.names)
    rw [hparts] at hlater'
    exact hlongest w' hpart hshaped' _ _ htext.symm hlater'

/-! ## Loose parts -/

/-- Whether a triplet can come and go: fixed text has no `%`, and a value has no limit. -/
def Part.Loose : Part → Prop
  | fixed t => '%' ∉ t
  | value _ spec => spec.modifier.count = .any

theorem Part.Loose.allows {op : Operator} {spec : VarSpec} (h : (Part.value op spec).Loose)
    (n : Nat) : spec.modifier.count.Allows n := by
  rw [show spec.modifier.count = .any from h]
  trivial

namespace Written

/-- What is put after a piece is put after the share. -/
theorem text_value_append (op : Operator) (spec : VarSpec) (piece more : Text) :
    (value op spec (piece ++ more)).text = (value op spec piece).text ++ more := by
  rw [text_eq, text_eq, List.append_assoc]
  rfl

theorem not_mem_lead {w : Written} (h : w.part.Loose) : '%' ∉ w.lead := by
  cases w with
  | fixed t => exact h
  | value op spec piece =>
    rw [lead]
    split <;> simp
  | bare op spec => simp [lead]

end Written

/-- A row of atoms at the beginning of a text that begins with a triplet is empty or begins
with the same triplet. -/
theorem Percent.AtomRow.eq_nil_or_exists_tail {cls : CharClass} {n : Nat} {row s rest : Text}
    {high low : Char} (h : AtomRow cls n row) (heq : row ++ s = '%' :: high :: low :: rest) :
    row = [] ∨ ∃ m tail, AtomRow cls m tail ∧ tail ++ s = rest := by
  cases h with
  | nil => exact .inl rfl
  | @cons m atom tail hatom hrow =>
    cases hatom with
    | @kept c hc => exact absurd (List.cons.inj heq).1 (CharClass.ne_percent_of_contains hc)
    | triplet =>
      simp only [List.cons_append, List.nil_append, List.cons.injEq, true_and] at heq
      exact .inr ⟨m, tail, hrow, heq.2.2⟩

/-- A share at the beginning of a text that begins with a triplet is empty, or it is one of
a value and can do without the triplet. -/
theorem Written.exists_drop_triplet {w : Written} {s rest : Text} {high low : Char}
    (hloose : w.part.Loose) (hshaped : w.Shaped)
    (htext : w.text ++ s = '%' :: high :: low :: rest) :
    w.text = [] ∨ ∃ w' : Written, w'.part = w.part ∧ w'.Shaped ∧ w'.text ++ s = rest := by
  cases w with
  | fixed t =>
    cases t with
    | nil => exact .inl rfl
    | cons c t =>
      obtain ⟨rfl, -⟩ := List.cons.inj htext
      exact absurd List.mem_cons_self hloose
  | bare op spec => exact .inl rfl
  | value op spec piece =>
    obtain ⟨n, hrow, -⟩ := hshaped
    by_cases hop : op.dropsEmptyEquals = true
    · rw [text, if_pos hop] at htext
      cases htext
    · rw [text, if_neg hop] at htext ⊢
      rcases hrow.eq_nil_or_exists_tail htext with hnil | ⟨m, tail, htail, hrest⟩
      · exact .inl hnil
      · refine .inr ⟨.value op spec tail, rfl, ⟨m, htail, hloose.allows m⟩, ?_⟩
        rw [text, if_neg hop]
        exact hrest

/-- A split of a text that begins with a triplet makes one of the text without it.  The
induction is on the split: the first share that is not empty does without the triplet. -/
theorem Split.exists_drop_triplet {split : Split} {high low : Char} {rest : Text}
    (hloose : ∀ w ∈ split, w.part.Loose) (hshaped : ∀ w ∈ split, w.Shaped)
    (htext : split.flatMap Written.text = '%' :: high :: low :: rest) :
    ∃ split' : Split, split'.map Written.part = split.map Written.part ∧
      (∀ w ∈ split', w.Shaped) ∧ split'.flatMap Written.text = rest := by
  induction split with
  | nil => cases htext
  | cons w split ih =>
    rw [List.forall_mem_cons] at hloose hshaped
    rw [List.flatMap_cons] at htext
    rcases Written.exists_drop_triplet hloose.1 hshaped.1 htext with hnil | ⟨w', hpart, hw', hrest⟩
    · rw [hnil, List.nil_append] at htext
      obtain ⟨split', hparts, hshaped', rfl⟩ := ih hloose.2 hshaped.2 htext
      refine ⟨w :: split', ?_, List.forall_mem_cons.2 ⟨hshaped.1, hshaped'⟩, ?_⟩
      · rw [List.map_cons, List.map_cons, hparts]
      · rw [List.flatMap_cons, hnil, List.nil_append]
    · refine ⟨w' :: split, ?_, List.forall_mem_cons.2 ⟨hw', hshaped.2⟩, hrest⟩
      rw [List.map_cons, List.map_cons, hpart]

/-! ## Bytes of a split -/

namespace Percent

variable {cls : CharClass}

/-- Text without `%` is spelled in its own bytes. -/
theorem bytes_append_of_not_mem {f : Text} (h : '%' ∉ f) (s : Text) :
    bytes (f ++ s) = Utf8.encode f ++ bytes s := by
  induction f with
  | nil => rfl
  | cons c f ih =>
    rw [List.mem_cons, not_or] at h
    obtain ⟨hc, hf⟩ := h
    rw [List.cons_append, bytes_cons_of_ne (Ne.symm hc), ih hf, Utf8.encode_cons, List.append_assoc]

theorem AtomRow.bytes_append {n : Nat} {row : Text} (h : AtomRow cls n row) (s : Text) :
    bytes (row ++ s) = bytes row ++ bytes s := by
  induction h with
  | nil => rfl
  | @cons n atom row hatom _ ih =>
    cases hatom with
    | @kept c hc =>
      have hne := CharClass.ne_percent_of_contains hc
      simp only [List.cons_append, List.nil_append]
      rw [bytes_cons_of_ne hne, bytes_cons_of_ne hne, ih, List.append_assoc]
    | triplet hhigh hlow =>
      obtain ⟨b, hb⟩ := exists_byte? hhigh hlow
      simp only [List.cons_append, List.nil_append]
      rw [bytes_cons_triplet hb, bytes_cons_triplet hb, ih, List.cons_append]

theorem isHexDigit_of_byte? {high low : Char} {b : UInt8} (h : byte? high low = some b) :
    isHexDigit high = true ∧ isHexDigit low = true := by
  simp only [byte?, Option.bind_eq_bind, Option.bind_eq_some_iff] at h
  obtain ⟨m, hm, n, hn, -⟩ := h
  exact ⟨by rw [isHexDigit, hm]; rfl, by rw [isHexDigit, hn]; rfl⟩

/-- At the beginning of a text only a triplet spells a continuation byte. -/
theorem exists_triplet_of_head?_bytes {s : Text} {b : UInt8} (h : (bytes s).head? = some b)
    (hb : Utf8.continuation? b ≠ none) :
    ∃ high low rest, isHexDigit high = true ∧ isHexDigit low = true ∧
      s = '%' :: high :: low :: rest := by
  fun_cases bytes s with
  | case1 => cases h
  | case2 high low rest b' hbyte =>
    obtain ⟨hhigh, hlow⟩ := isHexDigit_of_byte? hbyte
    exact ⟨high, low, rest, hhigh, hlow, rfl⟩
  | case3 high low rest hbyte =>
    rw [bytes, hbyte] at h
    cases h
    exact absurd rfl hb
  | case4 c rest htriplet =>
    obtain ⟨a, as, hform⟩ := List.exists_cons_of_ne_nil (@String.utf8EncodeChar_ne_nil c)
    rw [bytes, hform] at h
    · cases h
      exact absurd (Utf8.continuation?_head hform) hb
    · exact htriplet

end Percent

/-! ## Characters of a split -/

/-- The bytes of a share are those of its lead and its piece. -/
theorem Written.bytes_text_append {w : Written} (hloose : w.part.Loose) (hshaped : w.Shaped)
    (s : Text) :
    bytes (w.text ++ s) = Utf8.encode w.lead ++ (bytes w.piece ++ bytes s) := by
  obtain ⟨n, hrow⟩ := hshaped.exists_atomRow
  rw [text_eq, List.append_assoc, bytes_append_of_not_mem (not_mem_lead hloose), hrow.bytes_append]

namespace Split

/-- If all pieces of a split decode, the text does. -/
theorem decode_of_pieces {split : Split} (hloose : ∀ w ∈ split, w.part.Loose)
    (hshaped : ∀ w ∈ split, w.Shaped) (hpieces : ∀ w ∈ split, ∃ t, decode w.piece = some t) :
    ∃ t, decode (split.flatMap Written.text) = some t := by
  induction split with
  | nil => exact ⟨[], rfl⟩
  | cons w split ih =>
    rw [List.forall_mem_cons] at hloose hshaped hpieces
    obtain ⟨t, ht⟩ := hpieces.1
    obtain ⟨u, hu⟩ := ih hloose.2 hshaped.2 hpieces.2
    refine ⟨w.lead ++ (t ++ u), ?_⟩
    rw [decode] at ht hu ⊢
    rw [List.flatMap_cons, Written.bytes_text_append hloose.1 hshaped.1, Utf8.decode_encode_append,
      Utf8.decode_append_of_decode ht, hu]
    rfl

/-- The first share of a greedy split holds no part of a character that goes on after
it: the triplet with the next byte of the character would have been taken with it. -/
theorem Greedy.decode_head {w : Written} {split : Split} (hgreedy : Greedy (w :: split))
    (hloose : ∀ v ∈ w :: split, v.part.Loose) (hshaped : ∀ v ∈ w :: split, v.Shaped) {t : Text}
    (hdecode : Utf8.decode (bytes w.piece ++ bytes (split.flatMap Written.text)) = some t) :
    ∃ u, decode w.piece = some u := by
  rw [List.forall_mem_cons] at hloose hshaped
  cases w with
  | fixed f => exact ⟨[], rfl⟩
  | bare op spec => exact ⟨[], rfl⟩
  | value op spec piece =>
    apply Utf8.exists_decode_front hdecode
    intro b hb
    by_contra hcontinues
    obtain ⟨high, low, rest, hhigh, hlow, htext⟩ := exists_triplet_of_head?_bytes hb hcontinues
    obtain ⟨split', hparts, hshaped', rfl⟩ := exists_drop_triplet hloose.2 hshaped.2 htext
    have hpiece : IsPiece op spec (piece ++ ['%', high, low]) := by
      obtain ⟨⟨n, hrow, -⟩, -⟩ := hshaped
      exact ⟨n + 1, hrow.append (.cons (.triplet hhigh hlow) .nil), hloose.1.allows _⟩
    have hsame : (Written.value op spec (piece ++ ['%', high, low])).text ++
        split'.flatMap Written.text =
          (Written.value op spec piece).text ++ split.flatMap Written.text := by
      rw [Written.text_value_append, List.append_assoc, htext]
      rfl
    have hlonger := hgreedy.1 (.value op spec (piece ++ ['%', high, low])) split' rfl hpiece hparts
      hshaped' hsame
    rw [Written.text_value_append, List.length_append, List.length_cons] at hlonger
    omega

/-- No share of a greedy split cuts a character: if the text decodes, all pieces do. -/
theorem Greedy.decode_pieces {split : Split} (hgreedy : split.Greedy)
    (hloose : ∀ w ∈ split, w.part.Loose) (hshaped : ∀ w ∈ split, w.Shaped) {t : Text}
    (hdecode : decode (split.flatMap Written.text) = some t) :
    ∀ w ∈ split, ∃ u, decode w.piece = some u := by
  induction split generalizing t with
  | nil => simp
  | cons w split ih =>
    rw [decode, List.flatMap_cons, Written.bytes_text_append (hloose w List.mem_cons_self)
      (hshaped w List.mem_cons_self), Utf8.decode_encode_append, Option.map_eq_some_iff] at hdecode
    obtain ⟨t, hdecode, -⟩ := hdecode
    obtain ⟨u, hu⟩ := hgreedy.decode_head hloose hshaped hdecode
    rw [Utf8.decode_append_of_decode hu, Option.map_eq_some_iff] at hdecode
    obtain ⟨t', hrest, -⟩ := hdecode
    rw [List.forall_mem_cons] at hloose hshaped ⊢
    exact ⟨⟨u, hu⟩, ih hgreedy.2 hloose.2 hshaped.2 hrest⟩

end Split

end UriTemplate
