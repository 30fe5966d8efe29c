import Mathlib.Data.List.TakeWhile
import UriTemplate.Proofs.GreedyMatches
import UriTemplate.Proofs.Noninterference

/-!
# Two splits of one text

A text can split along a layout in two ways, and still both splits have much in
common if no value keeps reserved characters.  Every delimiter is then one of the
template, so both splits have the delimiters in the same places, and the text from the
first delimiter after a place on is the same in both (`Text.Aligned`).

There is one delimiter that values have a say in, the `=` of a parameter after `;`.
Each parameter has a `;` of its own before it (`Template.anchored_layout`), so an `=`
that only one of the splits had at a parameter would be missing further on
(`Layout.Anchored.delimiters_ne`).  So both have it at the same parameters
(`Written.lead_eq_of_delimiters_eq`), and the piece after it begins in the same place in
both.

* `Split.Greedy.tidy`: if one of the splits has no `=` before an empty piece that could
  do without it, the greedy one has none either.
-/

namespace UriTemplate

open Percent

/-! ## Texts from their first delimiters on -/

namespace Text

/-- The text from its first delimiter on. -/
def fromDelimiter (t : Text) : Text :=
  t.dropWhile fun c => !isDelimiter c

theorem fromDelimiter_append_of_nil {s : Text} (h : s.delimiters = []) (t : Text) :
    (s ++ t).fromDelimiter = t.fromDelimiter := by
  rw [delimiters, List.filter_eq_nil_iff] at h
  apply List.dropWhile_append_of_pos
  intro c hc
  simpa using h c hc

theorem fromDelimiter_append_of_ne_nil {s : Text} (h : s.delimiters ≠ []) (t : Text) :
    (s ++ t).fromDelimiter = s.fromDelimiter ++ t := by
  rw [fromDelimiter, List.dropWhile_append, if_neg]
  · rfl
  · intro hempty
    apply h
    rw [List.isEmpty_iff, List.dropWhile_eq_nil_iff] at hempty
    rw [delimiters, List.filter_eq_nil_iff]
    intro c hc
    simpa using hempty c hc

theorem delimiters_fromDelimiter (t : Text) : t.fromDelimiter.delimiters = t.delimiters := by
  induction t with
  | nil => rfl
  | cons c t ih =>
    cases hc : isDelimiter c with
    | true => rw [fromDelimiter, List.dropWhile_cons_of_neg (by simp [hc])]
    | false =>
      rw [fromDelimiter, List.dropWhile_cons_of_pos (by simp [hc]), delimiters_cons_of_not hc]
      exact ih

/-- Whether a text has a delimiter that is not `=`. -/
def anchors (t : Text) : Bool :=
  t.any fun c => isDelimiter c && c != '='

theorem delimiters_ne_nil_of_anchors {t : Text} (h : t.anchors = true) : t.delimiters ≠ [] := by
  obtain ⟨c, hc, hdelimiter⟩ := List.any_eq_true.1 h
  rw [Bool.and_eq_true] at hdelimiter
  exact List.ne_nil_of_mem (List.mem_filter.2 ⟨hc, hdelimiter.1⟩)

/-- Whether two texts are the same from their first delimiters on, and the same altogether
if `whole` is set. -/
def Aligned (whole : Bool) (s s' : Text) : Prop :=
  s.fromDelimiter = s'.fromDelimiter ∧ (whole = true → s = s')

theorem Aligned.delimiters_eq {whole : Bool} {s s' : Text} (h : Aligned whole s s') :
    s.delimiters = s'.delimiters := by
  rw [← delimiters_fromDelimiter, h.1, delimiters_fromDelimiter]

/-- After a delimiter that both have, aligned texts are the same. -/
theorem Aligned.of_append {whole : Bool} {f s s' : Text} (h : Aligned whole (f ++ s) (f ++ s')) :
    Aligned (whole || f.anchors) s s' := by
  obtain ⟨hfrom, hwhole⟩ := h
  by_cases hdelimiters : f.delimiters = []
  · rw [fromDelimiter_append_of_nil hdelimiters, fromDelimiter_append_of_nil hdelimiters] at hfrom
    refine ⟨hfrom, fun hor => ?_⟩
    rcases Bool.or_eq_true_iff.1 hor with htrue | hanchors
    · exact List.append_cancel_left (hwhole htrue)
    · exact absurd hdelimiters (delimiters_ne_nil_of_anchors hanchors)
  · rw [fromDelimiter_append_of_ne_nil hdelimiters,
      fromDelimiter_append_of_ne_nil hdelimiters] at hfrom
    have hsame : s = s' := List.append_cancel_left hfrom
    exact ⟨by rw [hsame], fun _ => hsame⟩

/-- Values have no delimiters, so texts stay aligned after them, wherever they end. -/
theorem Aligned.of_append_values {whole : Bool} {p p' s s' : Text}
    (h : Aligned whole (p ++ s) (p' ++ s')) (hp : p.delimiters = []) (hp' : p'.delimiters = []) :
    Aligned false s s' := by
  obtain ⟨hfrom, -⟩ := h
  rw [fromDelimiter_append_of_nil hp, fromDelimiter_append_of_nil hp'] at hfrom
  exact ⟨hfrom, fun hfalse => by cases hfalse⟩

end Text

/-! ## Anchored layouts -/

namespace Layout

/-- Whether each value that may lack its `=` has a delimiter other than `=` before it,
with no value in between.  `met` says that there is one before the row. -/
def Anchored : Bool → Layout → Prop
  | _, [] => True
  | met, .fixed t :: rest => Anchored (met || t.anchors) rest
  | met, .value op _ :: rest => (op.dropsEmptyEquals = true → met = true) ∧ Anchored false rest

theorem Anchored.mono {met met' : Bool} {parts : Layout} (h : Anchored met parts)
    (hmet : met = true → met' = true) : Anchored met' parts := by
  induction parts generalizing met met' with
  | nil => trivial
  | cons part parts ih =>
    cases part with
    | fixed t =>
      apply ih h
      rw [Bool.or_eq_true, Bool.or_eq_true]
      exact Or.imp_left hmet
    | value op spec => exact ⟨fun hop => hmet (h.1 hop), h.2⟩

/-- A row without values that may lack their `=` can stand before an anchored one. -/
theorem Anchored.append_of_keeps {met : Bool} {parts rest : Layout}
    (hparts : ∀ op spec, Part.value op spec ∈ parts → op.dropsEmptyEquals = false)
    (h : Anchored false rest) : Anchored met (parts ++ rest) := by
  induction parts generalizing met with
  | nil => exact h.mono nofun
  | cons part parts ih =>
    have hrest (met : Bool) : Anchored met (parts ++ rest) :=
      ih fun op spec hmem => hparts op spec (List.mem_cons_of_mem _ hmem)
    cases part with
    | fixed t => exact hrest _
    | value op spec =>
      have hop := hparts op spec List.mem_cons_self
      refine ⟨fun hdrops => ?_, hrest false⟩
      rw [hop] at hdrops
      cases hdrops

/-- Each parameter after `;` has a `;` of its own before it. -/
theorem Anchored.parameters_append {specs : List VarSpec} {rest : Layout}
    (h : Anchored false rest) :
    Anchored true
      (List.intercalate [.fixed [';']] (specs.map (ofSpec .parameter)) ++ rest) := by
  induction specs with
  | nil => exact h.mono nofun
  | cons spec specs ih =>
    cases specs with
    | nil =>
      rw [List.map_cons, List.map_nil, List.intercalate_singleton]
      exact ⟨fun _ => rfl, h⟩
    | cons next specs =>
      rw [List.map_cons] at ih
      rw [List.map_cons, List.map_cons, List.intercalate_cons_cons]
      exact ⟨fun _ => rfl, ih⟩

theorem Anchored.ofSpecs_append {op : Operator} {specs : List VarSpec} {rest : Layout}
    (h : Anchored false rest) : Anchored false (ofSpecs op specs ++ rest) := by
  by_cases hop : op.dropsEmptyEquals = true
  · obtain rfl : op = .parameter := by
      cases op <;> first | rfl | cases hop
    exact Anchored.parameters_append h
  · apply Anchored.append_of_keeps _ h
    intro op' spec hmem
    rw [(eq_of_value_mem_ofSpecs hmem).1]
    simpa using hop

end Layout

theorem Template.anchored_layout (t : Template) : t.layout.Anchored false := by
  rw [layout]
  induction t.segments with
  | nil => trivial
  | cons segment segments ih =>
    rw [List.flatMap_cons]
    cases segment with
    | literal l => exact Layout.Anchored.append_of_keeps (by simp [Segment.layout]) ih
    | expression e => exact Layout.Anchored.ofSpecs_append ih

/-! ## The `=` of two splits -/

/-- Only a row of elements that are all equal to one can change places with it. -/
theorem forall_mem_eq_of_append_eq_cons_append {α : Type} {a : α} {f xs ys : List α}
    (h : f ++ xs = a :: (f ++ ys)) : (∀ x ∈ f, x = a) ∧ xs = a :: ys := by
  induction f with
  | nil => exact ⟨by simp, h⟩
  | cons x f ih =>
    obtain ⟨rfl, htail⟩ := List.cons.inj h
    obtain ⟨hall, hrest⟩ := ih htail
    exact ⟨List.forall_mem_cons.2 ⟨rfl, hall⟩, hrest⟩

theorem Text.anchors_eq_false {t : Text} (h : ∀ c ∈ t.delimiters, c = '=') :
    t.anchors = false := by
  rw [anchors, List.any_eq_false]
  intro c hc hanchor
  rw [Bool.and_eq_true, bne_iff_ne] at hanchor
  exact hanchor.2 (h c (List.mem_filter.2 ⟨hc, hanchor.1⟩))

namespace Written

theorem Shaped.delimiters_piece {w : Written} (h : w.Shaped)
    (hclass : w.part.charClass = .unreserved) : w.piece.delimiters = [] := by
  obtain ⟨n, hrow⟩ := h.exists_atomRow
  rw [hclass] at hrow
  exact hrow.delimiters_eq_nil

theorem lead_eq_nil {w : Written} {op : Operator} {spec : VarSpec} (h : w.part = .value op spec)
    (hop : op.dropsEmptyEquals = false) : w.lead = [] := by
  cases w with
  | fixed t => cases h
  | value op' spec' piece =>
    cases h
    rw [lead, if_neg (by simp [hop])]
  | bare op' spec' => rfl

end Written

theorem Split.delimiters_text {split : Split} (h : ∀ w ∈ split, w.piece.delimiters = []) :
    Text.delimiters (split.flatMap Written.text) = split.flatMap fun w => w.lead.delimiters := by
  rw [Text.delimiters_flatMap]
  exact List.flatMap_congr fun w hw => Written.delimiters_text (h w hw)

/-- Of two splits along one row, the delimiters of one are not those of the other with an
`=` put before them.  The `=` could only move on to the next value that may lack its own,
and another delimiter stands before that. -/
theorem Layout.Anchored.delimiters_ne {split split' : Split}
    (h : Anchored false (split.map Written.part))
    (hparts : split'.map Written.part = split.map Written.part) :
    (split'.flatMap fun w => w.lead.delimiters) ≠
      '=' :: split.flatMap fun w => w.lead.delimiters := by
  induction split generalizing split' with
  | nil =>
    obtain rfl := List.map_eq_nil_iff.1 hparts
    simp
  | cons w split ih =>
    obtain ⟨w', split', rfl, hpart, hrests⟩ := List.map_eq_cons_iff.1 hparts
    rw [List.flatMap_cons, List.flatMap_cons]
    cases hw : w.part with
    | fixed t =>
      obtain rfl := Written.eq_fixed_of_part hw
      obtain rfl := Written.eq_fixed_of_part hpart
      intro heq
      obtain ⟨hall, hrest⟩ := forall_mem_eq_of_append_eq_cons_append heq
      have hanchors : t.anchors = false := Text.anchors_eq_false hall
      rw [List.map_cons, hw, Anchored, hanchors] at h
      exact ih h hrests hrest
    | value op spec =>
      rw [List.map_cons, hw, Anchored] at h
      have hop : op.dropsEmptyEquals = false := by
        by_contra hdrops
        cases h.1 (by simpa using hdrops)
      rw [Written.lead_eq_nil hw hop, Written.lead_eq_nil (hpart.trans hw) hop]
      exact ih h.2 hrests

theorem Written.lead_eq_nil_or {w : Written} {op : Operator} {spec : VarSpec}
    (h : w.part = .value op spec) : w.lead = [] ∨ w.lead = ['='] := by
  cases w with
  | fixed t => cases h
  | value op' spec' piece =>
    rw [lead]
    split
    · exact .inr rfl
    · exact .inl rfl
  | bare op' spec' => exact .inl rfl

/-- Two splits with the same delimiters have the same lead before their first pieces. -/
theorem Written.lead_eq_of_delimiters_eq {w w' : Written} {split split' : Split} {met : Bool}
    (hanchored : Layout.Anchored met (w.part :: split.map Written.part))
    (hpart : w'.part = w.part) (hparts : split'.map Written.part = split.map Written.part)
    (h : (w :: split).flatMap (fun v => v.lead.delimiters) =
      (w' :: split').flatMap fun v => v.lead.delimiters) : w.lead = w'.lead := by
  cases hw : w.part with
  | fixed t => rw [eq_fixed_of_part hw, eq_fixed_of_part (hpart.trans hw)]
  | value op spec =>
    rw [hw, Layout.Anchored] at hanchored
    rw [List.flatMap_cons, List.flatMap_cons] at h
    -- An `=` that only one of them had would be a delimiter too many.
    rcases lead_eq_nil_or hw with hlead | hlead <;>
      rcases lead_eq_nil_or (hpart.trans hw) with hlead' | hlead' <;>
      rw [hlead, hlead'] at h ⊢
    · exact absurd h (Layout.Anchored.delimiters_ne (hparts ▸ hanchored.2) hparts.symm)
    · exact absurd h.symm (hanchored.2.delimiters_ne hparts)

/-! ## Tidy splits -/

/-- Whether no `=` stands before an empty value that can do without it. -/
def Written.Tidy : Written → Prop
  | value op _ piece => op.dropsEmptyEquals = true → piece ≠ []
  | _ => True

/-- Of two shares with the same lead, the longer one is tidy if the shorter one is. -/
theorem Written.Tidy.of_length_le {w w' : Written} (h : w'.Tidy) (hlead : w.lead = w'.lead)
    (hpart : w'.part = w.part)
    (hlength : ∀ op spec, w.part = .value op spec → op.dropsEmptyEquals = true →
      w'.text.length ≤ w.text.length) : w.Tidy := by
  cases w with
  | fixed t => trivial
  | bare op spec => trivial
  | value op spec piece =>
    intro hop hnil
    have hle := hlength op spec rfl hop
    have hempty : (value op spec []).piece.length = 0 := rfl
    rw [text_eq, text_eq, hlead, hnil, List.length_append, List.length_append] at hle
    have hnil' : w'.piece = [] := List.eq_nil_of_length_eq_zero (by omega)
    cases w' with
    | fixed t => cases hpart
    | bare op' spec' => simp [lead, hop] at hlead
    | value op' spec' piece' =>
      cases hpart
      exact h hop hnil'

/-- Of two splits of aligned texts along one row, the greedy one is tidy if the other one
is.  The induction is on the splits, whose texts stay aligned share by share.  Where a
value may lack its `=` the texts are the same, and the greedy share is the longer one. -/
theorem Split.Greedy.tidy {split split' : Split} {met : Bool} (hgreedy : split.Greedy)
    (hanchored : Layout.Anchored met (split.map Written.part))
    (hparts : split'.map Written.part = split.map Written.part)
    (hshaped' : ∀ w ∈ split', w.Shaped) (hpieces : ∀ w ∈ split, w.piece.delimiters = [])
    (hpieces' : ∀ w ∈ split', w.piece.delimiters = [])
    (haligned : Text.Aligned met (split.flatMap Written.text) (split'.flatMap Written.text))
    (htidy : ∀ w ∈ split', w.Tidy) : ∀ w ∈ split, w.Tidy := by
  induction split generalizing split' met with
  | nil => simp
  | cons w split ih =>
    obtain ⟨w', split', rfl, hpart, hrests⟩ := List.map_eq_cons_iff.1 hparts
    have hdelimiters := haligned.delimiters_eq
    rw [Split.delimiters_text hpieces, Split.delimiters_text hpieces'] at hdelimiters
    have hlead : w.lead = w'.lead :=
      Written.lead_eq_of_delimiters_eq hanchored hpart hrests hdelimiters
    rw [List.forall_mem_cons] at hshaped' hpieces hpieces' htidy ⊢
    rw [List.flatMap_cons, List.flatMap_cons] at haligned
    rw [List.map_cons] at hanchored
    have htidyw : w.Tidy := by
      apply htidy.1.of_length_le hlead hpart
      intro op spec hw hop
      rw [hw] at hanchored
      have hsame := haligned.2 (hanchored.1 hop)
      exact hgreedy.1 w' split' hpart hshaped'.1 hrests hshaped'.2 hsame.symm
    refine ⟨htidyw, ?_⟩
    rw [Written.text_eq w, Written.text_eq w', ← hlead, List.append_assoc,
      List.append_assoc] at haligned
    have hafter := haligned.of_append
    cases hw : w.part with
    | fixed t =>
      obtain rfl := Written.eq_fixed_of_part hw
      obtain rfl := Written.eq_fixed_of_part (hpart.trans hw)
      exact ih hgreedy.2 hanchored hrests hshaped'.2 hpieces.2 hpieces'.2 hafter htidy.2
    | value op spec =>
      rw [hw] at hanchored
      exact ih hgreedy.2 hanchored.2 hrests hshaped'.2 hpieces.2 hpieces'.2
        (hafter.of_append_values hpieces.1 hpieces'.1) htidy.2

end UriTemplate
