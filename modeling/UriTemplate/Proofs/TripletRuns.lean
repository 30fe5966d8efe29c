import UriTemplate.Proofs.ExtractionSupport
import UriTemplate.Proofs.Reexpansion

/-!
# Runs of triplets

A character outside ASCII is spelled by several triplets, one for each of its bytes, and
between two characters there may be nothing but more triplets.  So a text decodes or does
not decode run by run, where a run is a row of triplets with no triplet directly before or
after it (`Percent.decode_iff_maximalRun`).

* `Percent.maximalRun_append_iff`: the runs of a text are the one that it begins with and
  those of the text after the next character.  A `%` is no hexadecimal digit, so triplets
  do not overlap.
* `Template.extract_cuts_no_character`: extraction takes runs apart, but only between
  characters.
-/

namespace UriTemplate

open Percent

namespace Percent

/-! ## Rows of triplets -/

/-- Triplets one after another. -/
inductive TripletRow : Text → Prop where
  | nil : TripletRow []
  | cons {high low : Char} {row : Text} (hhigh : isHexDigit high = true)
    (hlow : isHexDigit low = true) (hrow : TripletRow row) :
    TripletRow ('%' :: high :: low :: row)

/-- Whether a text begins with a triplet. -/
def BeginsWithTriplet (t : Text) : Prop :=
  ∃ high low rest, isHexDigit high = true ∧ isHexDigit low = true ∧ t = '%' :: high :: low :: rest

/-- Whether a text ends with a triplet. -/
def EndsWithTriplet (t : Text) : Prop :=
  ∃ front high low, isHexDigit high = true ∧ isHexDigit low = true ∧
    t = front ++ ['%', high, low]

/-- Whether a row of triplets stands somewhere in a text with no triplet directly before or
after it. -/
def MaximalRun (t run : Text) : Prop :=
  run ≠ [] ∧ TripletRow run ∧ ∃ front back, t = front ++ (run ++ back) ∧
    ¬EndsWithTriplet front ∧ ¬BeginsWithTriplet back

namespace TripletRow

theorem exists_atomRow {row : Text} (h : TripletRow row) : ∃ n, AtomRow .unreserved n row := by
  induction h with
  | nil => exact ⟨0, .nil⟩
  | cons hhigh hlow _ ih =>
    obtain ⟨n, hrow⟩ := ih
    exact ⟨n + 1, .cons (.triplet hhigh hlow) hrow⟩

/-- A `%` in a row is where a triplet begins. -/
theorem of_append {front back : Text} (h : TripletRow (front ++ '%' :: back)) :
    TripletRow front ∧ TripletRow ('%' :: back) := by
  generalize hrow : front ++ '%' :: back = row at h
  induction h generalizing front with
  | nil => simp at hrow
  | @cons high low row hhigh hlow hrest ih =>
    match front with
    | [] =>
      rw [List.nil_append] at hrow
      rw [hrow]
      exact ⟨.nil, .cons hhigh hlow hrest⟩
    | [_] =>
      simp only [List.cons_append, List.nil_append, List.cons.injEq] at hrow
      obtain ⟨-, rfl, -⟩ := hrow
      cases hhigh
    | [_, _] =>
      simp only [List.cons_append, List.nil_append, List.cons.injEq] at hrow
      obtain ⟨-, -, rfl, -⟩ := hrow
      cases hlow
    | a :: b :: c :: front =>
      simp only [List.cons_append, List.cons.injEq] at hrow
      obtain ⟨rfl, rfl, rfl, hrow⟩ := hrow
      obtain ⟨hfront, hback⟩ := ih hrow
      exact ⟨.cons hhigh hlow hfront, hback⟩

theorem eq_nil_or_endsWithTriplet {row : Text} (h : TripletRow row) :
    row = [] ∨ EndsWithTriplet row := by
  induction h with
  | nil => exact .inl rfl
  | @cons high low row hhigh hlow _ ih =>
    refine .inr ?_
    rcases ih with rfl | ⟨front, high', low', hhigh', hlow', rfl⟩
    · exact ⟨[], high, low, hhigh, hlow, rfl⟩
    · exact ⟨'%' :: high :: low :: front, high', low', hhigh', hlow', rfl⟩

theorem beginsWithTriplet {row : Text} (h : TripletRow row) (hne : row ≠ []) (s : Text) :
    BeginsWithTriplet (row ++ s) := by
  cases h with
  | nil => exact absurd rfl hne
  | cons hhigh hlow _ => exact ⟨_, _, _, hhigh, hlow, rfl⟩

/-- Two rows at the beginning of a text that end before no triplet are the same. -/
theorem unique {row row' back back' : Text} (h : TripletRow row) (h' : TripletRow row')
    (hstop : ¬BeginsWithTriplet back) (hstop' : ¬BeginsWithTriplet back')
    (heq : row ++ back = row' ++ back') : row = row' := by
  induction h generalizing row' with
  | nil =>
    by_contra hne
    rw [List.nil_append] at heq
    exact hstop (heq ▸ h'.beginsWithTriplet (Ne.symm hne) back')
  | @cons high low row hhigh hlow hrow ih =>
    cases h' with
    | nil =>
      rw [List.nil_append] at heq
      exact absurd ⟨_, _, _, hhigh, hlow, heq.symm⟩ hstop'
    | cons hhigh' hlow' hrow' =>
      simp only [List.cons_append, List.cons.injEq] at heq
      obtain ⟨-, rfl, rfl, heq⟩ := heq
      rw [ih hrow' heq]

end TripletRow

/-- Every text begins with a row of triplets, which may be empty, that ends before no
triplet. -/
theorem exists_leading_row (t : Text) :
    ∃ row back, TripletRow row ∧ ¬BeginsWithTriplet back ∧ t = row ++ back := by
  by_cases h : BeginsWithTriplet t
  · obtain ⟨high, low, rest, hhigh, hlow, rfl⟩ := h
    obtain ⟨row, back, hrow, hstop, rfl⟩ := exists_leading_row rest
    exact ⟨_, back, .cons hhigh hlow hrow, hstop, rfl⟩
  · exact ⟨[], t, .nil, h, rfl⟩
termination_by t.length

/-! ## Maximal runs -/

theorem EndsWithTriplet.append_left {t : Text} (h : EndsWithTriplet t) (front : Text) :
    EndsWithTriplet (front ++ t) := by
  obtain ⟨f, high, low, hhigh, hlow, rfl⟩ := h
  exact ⟨front ++ f, high, low, hhigh, hlow, by rw [List.append_assoc]⟩

/-- No triplet lies across the end of a row and the character after it. -/
theorem TripletRow.not_endsWithTriplet {row front s : Text} {c : Char} (hrow : TripletRow row)
    (hstop : ¬BeginsWithTriplet (c :: (front ++ s))) (hfront : ¬EndsWithTriplet front) :
    ¬EndsWithTriplet (row ++ c :: front) := by
  intro hends
  obtain ⟨f, high, low, hhigh, hlow, heq⟩ := hends
  rcases List.append_eq_append_iff.1 heq with ⟨x, rfl, hx⟩ | ⟨x, rfl, hx⟩
  · cases x with
    | nil =>
      obtain ⟨rfl, rfl⟩ := List.cons.inj hx
      exact hstop ⟨high, low, s, hhigh, hlow, rfl⟩
    | cons a x =>
      obtain ⟨-, rfl⟩ := List.cons.inj hx
      exact hfront ⟨x, high, low, hhigh, hlow, rfl⟩
  · match x with
    | [] =>
      obtain ⟨rfl, rfl⟩ := List.cons.inj hx
      exact hstop ⟨high, low, s, hhigh, hlow, rfl⟩
    | [a] =>
      obtain ⟨rfl, -⟩ := List.cons.inj hx
      cases hrow.of_append.2
    | [a, b] =>
      obtain ⟨rfl, -⟩ := List.cons.inj hx
      cases hrow.of_append.2
    | a :: b :: d :: x => simp at hx

/-- The runs of a text are the row that it begins with and those of the text after the
next character. -/
theorem maximalRun_append_iff {row back run : Text} (hrow : TripletRow row)
    (hstop : ¬BeginsWithTriplet back) :
    MaximalRun (row ++ back) run ↔ run = row ∧ row ≠ [] ∨ MaximalRun back.tail run := by
  constructor
  · intro h
    obtain ⟨hne, hrun, front, back', heq, hfront, hback'⟩ := h
    rcases List.append_eq_append_iff.1 heq with ⟨x, rfl, hx⟩ | ⟨x, rfl, hx⟩
    · -- The run begins after the row, and not directly after it.
      cases x with
      | nil => exact absurd (hx ▸ hrun.beginsWithTriplet hne back') hstop
      | cons c x =>
        subst hx
        refine .inr ⟨hne, hrun, x, back', rfl, fun hends => hfront ?_, hback'⟩
        exact (hends.append_left [c]).append_left row
    · -- The run begins in the row, and so at its beginning.
      cases x with
      | nil =>
        rw [List.nil_append] at hx
        exact absurd (hx ▸ hrun.beginsWithTriplet hne back') hstop
      | cons c x =>
        obtain ⟨high, low, rest, -, -, hbegins⟩ := hrun.beginsWithTriplet hne back'
        rw [hx] at hbegins
        obtain ⟨rfl, -⟩ := List.cons.inj hbegins
        obtain ⟨hleft, hright⟩ := hrow.of_append
        obtain rfl := hleft.eq_nil_or_endsWithTriplet.resolve_right hfront
        exact .inl ⟨hrun.unique hright hback' hstop hx, by simp⟩
  · intro h
    rcases h with ⟨rfl, hne⟩ | ⟨hne, hrun, front, back', heq, hfront, hback'⟩
    · refine ⟨hne, hrow, [], back, rfl, fun hends => ?_, hstop⟩
      obtain ⟨front, high, low, -, -, hnil⟩ := hends
      simp at hnil
    · cases back with
      | nil => simp [hne] at heq
      | cons c rest =>
        rw [List.tail_cons] at heq
        subst heq
        exact ⟨hne, hrun, row ++ c :: front, back', by simp,
          hrow.not_endsWithTriplet hstop hfront, hback'⟩

/-! ## Decoding run by run -/

/-- A character that begins no triplet stands for itself. -/
theorem bytes_cons_of_not_beginsWithTriplet {c : Char} {t : Text}
    (h : ¬BeginsWithTriplet (c :: t)) : bytes (c :: t) = String.utf8EncodeChar c ++ bytes t := by
  by_cases hc : c = '%'
  · subst hc
    match t with
    | [] => rfl
    | [_] => rfl
    | high :: low :: t =>
      have hbyte : byte? high low = none := by
        rw [Option.eq_none_iff_forall_ne_some]
        intro b hb
        obtain ⟨hhigh, hlow⟩ := isHexDigit_of_byte? hb
        exact h ⟨high, low, t, hhigh, hlow, rfl⟩
      rw [bytes, hbyte]
      rfl
  · exact bytes_cons_of_ne hc t

/-- A text decodes when the row that it begins with and the text after the next character
do. -/
theorem decode_row_append_iff {row back : Text} (hrow : TripletRow row)
    (hstop : ¬BeginsWithTriplet back) :
    (∃ s, decode (row ++ back) = some s) ↔
      (∃ s, decode row = some s) ∧ ∃ s, decode back.tail = some s := by
  obtain ⟨n, hatoms⟩ := hrow.exists_atomRow
  have hbytes : ∃ c : Text, bytes back = Utf8.encode c ++ bytes back.tail := by
    cases back with
    | nil => exact ⟨[], rfl⟩
    | cons c back =>
      refine ⟨[c], ?_⟩
      rw [bytes_cons_of_not_beginsWithTriplet hstop, Utf8.encode_cons, Utf8.encode_nil,
        List.append_nil, List.tail_cons]
  obtain ⟨c, hc⟩ := hbytes
  have hrest {s : Text} (hs : decode row = some s) :
      decode (row ++ back) = (decode back.tail).map fun u => s ++ (c ++ u) := by
    rw [decode] at hs ⊢
    rw [hatoms.bytes_append, Utf8.decode_append_of_decode hs, hc, Utf8.decode_encode_append,
      decode, Option.map_map]
    rfl
  constructor
  · intro h
    obtain ⟨s, hs⟩ := h
    have hfront : ∃ u, decode row = some u := by
      rw [decode, hatoms.bytes_append] at hs
      apply Utf8.exists_decode_front hs
      intro b hb
      by_contra hcontinues
      exact hstop (exists_triplet_of_head?_bytes hb hcontinues)
    obtain ⟨u, hu⟩ := hfront
    rw [hrest hu, Option.map_eq_some_iff] at hs
    obtain ⟨v, hv, -⟩ := hs
    exact ⟨⟨u, hu⟩, v, hv⟩
  · intro h
    obtain ⟨⟨s, hs⟩, u, hu⟩ := h
    exact ⟨_, by rw [hrest hs, hu, Option.map_some]⟩

/-- A text decodes exactly when each of its maximal runs of triplets does.  The induction is
on the length of the text: what is left after a run and a character is shorter. -/
theorem decode_iff_maximalRun (t : Text) :
    (∃ s, decode t = some s) ↔ ∀ run, MaximalRun t run → ∃ s, decode run = some s := by
  by_cases hnil : t = []
  · subst hnil
    refine iff_of_true ⟨[], rfl⟩ fun run h => ?_
    obtain ⟨hne, -, front, back, heq, -⟩ := h
    simp [hne] at heq
  · obtain ⟨row, back, hrow, hstop, ht⟩ := exists_leading_row t
    have hlt : back.tail.length < t.length := by
      have hpos : 0 < t.length := List.length_pos_iff.2 hnil
      rw [ht, List.length_append] at hpos ⊢
      rw [List.length_tail]
      omega
    have hlater := decode_iff_maximalRun back.tail
    have hfirst : (∃ s, decode row = some s) ↔ (row ≠ [] → ∃ s, decode row = some s) := by
      refine ⟨fun h _ => h, fun h => ?_⟩
      by_cases hempty : row = []
      · exact ⟨[], by rw [hempty]; rfl⟩
      · exact h hempty
    rw [ht, decode_row_append_iff hrow hstop, hlater, hfirst]
    constructor
    · intro h run hrun
      obtain ⟨hdecode, hruns⟩ := h
      rcases (maximalRun_append_iff hrow hstop).1 hrun with ⟨rfl, hne⟩ | hrun
      · exact hdecode hne
      · exact hruns run hrun
    · intro h
      exact ⟨fun hne => h row ((maximalRun_append_iff hrow hstop).2 (.inl ⟨rfl, hne⟩)),
        fun run hrun => h run ((maximalRun_append_iff hrow hstop).2 (.inr hrun))⟩
termination_by t.length
decreasing_by exact hlt

end Percent

/-! ## Templates without limits -/

theorem Modifier.count_eq_any_iff {m : Modifier} :
    m.count = .any ↔ ∀ limit, m ≠ .upTo limit := by
  cases m <;> simp [count]

namespace Template

/-- Whether no variable has a limit. -/
def Unlimited (t : Template) : Prop :=
  ∀ e, Segment.expression e ∈ t.segments → ∀ spec ∈ e.specs, ∀ limit, spec.modifier ≠ .upTo limit

theorem unlimited_iff {t : Template} :
    t.Unlimited ↔ ∀ spec ∈ t.layout.specs, spec.modifier.count = .any := by
  constructor
  · intro h spec hspec
    obtain ⟨e, he, hspec⟩ := mem_layout_specs.1 hspec
    exact Modifier.count_eq_any_iff.2 (h e he spec hspec)
  · intro h e he spec hspec
    exact Modifier.count_eq_any_iff.1 (h spec (mem_layout_specs.2 ⟨e, he, hspec⟩))

instance (t : Template) : Decidable t.Unlimited :=
  decidable_of_iff _ unlimited_iff.symm

theorem Unlimited.loose {t : Template} (hunlimited : t.Unlimited)
    (hpercent : ∀ l, Segment.literal l ∈ t.segments → '%' ∉ l.text) {part : Part}
    (hpart : part ∈ t.layout) : part.Loose := by
  apply loose_of_mem_layout hpercent ?_ hpart
  intro e he spec hspec
  exact unlimited_iff.1 hunlimited spec (mem_layout_specs.2 ⟨e, he, hspec⟩)

/-! ## Extraction -/

/-- From a URL in which every maximal run of triplets decodes, extraction takes pieces that
decode, if no variable has a limit and no literal has a `%`.  Expressions may stand next to
each other with nothing between them: a slot does not stop inside a character, as it could
have taken the next triplet too. -/
theorem extract_cuts_no_character {t : Template} {url : Text} (hunlimited : t.Unlimited)
    (hpercent : ∀ l, Segment.literal l ∈ t.segments → '%' ∉ l.text)
    (hruns : ∀ run, MaximalRun url run → ∃ text, decode run = some text) :
    (∀ r captures, t.regex = .ok r → r.match? url = some captures →
        ∀ taken ∈ captures, ∃ text, decode taken.2 = some text) ∧
      ∀ name value, t.extract url ≠ .error (.invalidPercentEncoding name value) := by
  have hdecodes : ∀ r captures, t.regex = .ok r → r.match? url = some captures →
      ∀ taken ∈ captures, ∃ text, decode taken.2 = some text := by
    intro r captures hr hmatch taken htaken
    rw [match?_eq_run hr] at hmatch
    obtain ⟨split, hparts, rfl, hshaped, hgreedy, rfl⟩ :=
      Layout.exists_greedy_split_of_run hmatch
    have hloose : ∀ w ∈ split, w.part.Loose := by
      intro w hw
      apply hunlimited.loose hpercent
      rw [← hparts]
      exact List.mem_map_of_mem hw
    obtain ⟨text, htext⟩ := (decode_iff_maximalRun _).2 hruns
    obtain ⟨w, hw, heq⟩ := Split.exists_of_mem_captures htaken
    rw [heq]
    exact hgreedy.decode_pieces hloose hshaped htext w hw
  refine ⟨hdecodes, fun name value h => ?_⟩
  rcases extract_eq_error.1 h with hregex | ⟨r, hr, ⟨-, herr⟩ | ⟨captures, hmatch, hbind⟩⟩
  · obtain ⟨op, spec, -, herr⟩ := regex_eq_error.1 hregex
    cases herr
  · cases herr
  · rcases bindSlots_error_cases hbind with herr | ⟨taken, htaken, hnone, -⟩
    · cases herr
    · obtain ⟨text, htext⟩ := hdecodes r captures hr hmatch taken htaken
      rw [hnone] at htext
      cases htext

/-- The triplets of two characters stand in one run, and three variables side by side could
each take some of them. -/
theorem extract_cuts_no_character_adjacent :
    ∃ t, parse "\x7bx\x7d\x7b+y\x7d\x7b;k\x7d\x7bz\x7d".toList = .ok t ∧ t.Unlimited ∧
      (∀ l, Segment.literal l ∈ t.segments → '%' ∉ l.text) ∧
      (∀ run, MaximalRun "%C3%A9%e2%82%ac/;k%C3%A9".toList run →
        ∃ text, decode run = some text) ∧
      t.extract "%C3%A9%e2%82%ac/;k%C3%A9".toList =
        .ok (.ofList [(⟨['x'], rfl⟩, .scalar "é€".toList), (⟨['y'], rfl⟩, .scalar ['/']),
          (⟨['k'], rfl⟩, .scalar []), (⟨['z'], rfl⟩, .scalar ['é'])]) ∧
      (∀ r captures, t.regex = .ok r →
        r.match? "%C3%A9%e2%82%ac/;k%C3%A9".toList = some captures →
          ∀ taken ∈ captures, ∃ text, decode taken.2 = some text) ∧
      ∀ name value, t.extract "%C3%A9%e2%82%ac/;k%C3%A9".toList ≠
        .error (.invalidPercentEncoding name value) := by
  let t : Template := ⟨"\x7bx\x7d\x7b+y\x7d\x7b;k\x7d\x7bz\x7d".toList,
    [.expression (.member ⟨.simple, ⟨⟨['x'], rfl⟩, .none⟩⟩),
      .expression (.member ⟨.reserved, ⟨⟨['y'], rfl⟩, .none⟩⟩),
      .expression (.member ⟨.parameter, ⟨⟨['k'], rfl⟩, .none⟩⟩),
      .expression (.member ⟨.simple, ⟨⟨['z'], rfl⟩, .none⟩⟩)]⟩
  have hunlimited : t.Unlimited := by decide
  have hpercent : ∀ l, Segment.literal l ∈ t.segments → '%' ∉ l.text := by simp [t]
  have hdecode : decode "%C3%A9%e2%82%ac/;k%C3%A9".toList = some "é€/;ké".toList := by
    decide +kernel
  have hruns := (decode_iff_maximalRun _).1 ⟨_, hdecode⟩
  exact ⟨t, rfl, hunlimited, hpercent, hruns, by decide +kernel,
    extract_cuts_no_character hunlimited hpercent hruns⟩

end Template

end UriTemplate
