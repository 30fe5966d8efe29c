import UriTemplate.Proofs.Reparsing
import UriTemplate.Proofs.RepeatedVariables

/-!
# Templates that support extraction

A template has a regex unless one of its variables is exploded, as an exploded value has
no fixed shape.  Regexes are written from left to right and stop at the first variable
without one, so it is the first exploded variable that is reported, as an expression of
its own under its operator.  Extraction needs the regex before it looks at the URL.

* `Template.regexFrom_eq_error`: the segments one after another.
* `Template.exists_regex_iff`: a template has a regex or an exploded variable.
* `Template.extract_eq_error`: where extraction can fail.
* `Template.extraction_support_iff`: which templates support extraction, and what is
  reported of the others.
-/

namespace UriTemplate

/-! ## Exploded variables -/

namespace Segment

/-- The variables of a segment in order, each with the operator of its expression. -/
def specs : Segment → List (Operator × VarSpec)
  | literal _ => []
  | expression e => e.specs.map fun spec => (e.op, spec)

/-- The first variable of segments that is exploded, with the operator of its expression. -/
def firstExploded? (segments : List Segment) : Option (Operator × VarSpec) :=
  (segments.flatMap specs).find? fun x => x.2.modifier = .explode

theorem firstExploded?_literal_cons (l : Literal) (segments : List Segment) :
    firstExploded? (literal l :: segments) = firstExploded? segments := rfl

/-- An expression is searched before the segments after it. -/
theorem firstExploded?_expression_cons (e : Expression) (segments : List Segment) :
    firstExploded? (expression e :: segments) =
      ((UriTemplate.firstExploded? e.specs).map fun spec => (e.op, spec)).or
        (firstExploded? segments) := by
  rw [firstExploded?, List.flatMap_cons, List.find?_append, specs, List.find?_map]
  rfl

theorem mem_specs {segments : List Segment} {op : Operator} {spec : VarSpec} :
    (op, spec) ∈ segments.flatMap specs ↔
      ∃ e, expression e ∈ segments ∧ e.op = op ∧ spec ∈ e.specs := by
  constructor
  · intro h
    obtain ⟨segment, hsegment, hmem⟩ := List.mem_flatMap.1 h
    cases segment with
    | literal l => cases hmem
    | expression e =>
      obtain ⟨spec', hspec, heq⟩ := List.mem_map.1 hmem
      cases heq
      exact ⟨e, hsegment, rfl, hspec⟩
  · intro h
    obtain ⟨e, he, rfl, hspec⟩ := h
    exact List.mem_flatMap.2 ⟨_, he, List.mem_map_of_mem hspec⟩

end Segment

namespace Template

/-- The first variable that is exploded, with the operator of its expression. -/
def firstExploded? (t : Template) : Option (Operator × VarSpec) :=
  Segment.firstExploded? t.segments

/-- Whether some variable is exploded. -/
def Explodes (t : Template) : Prop :=
  ∃ e, Segment.expression e ∈ t.segments ∧ ∃ spec ∈ e.specs, spec.modifier = .explode

theorem isSome_firstExploded?_iff {t : Template} :
    t.firstExploded?.isSome = true ↔ t.Explodes := by
  rw [firstExploded?, Segment.firstExploded?, List.find?_isSome]
  constructor
  · intro h
    obtain ⟨⟨op, spec⟩, hmem, hexploded⟩ := h
    obtain ⟨e, he, -, hspec⟩ := Segment.mem_specs.1 hmem
    exact ⟨e, he, spec, hspec, by simpa using hexploded⟩
  · intro h
    obtain ⟨e, he, spec, hspec, hexploded⟩ := h
    exact ⟨(e.op, spec), Segment.mem_specs.2 ⟨e, he, rfl, hspec⟩, by simpa using hexploded⟩

instance (t : Template) : Decidable t.Explodes :=
  decidable_of_iff _ isSome_firstExploded?_iff

theorem exists_firstExploded?_iff {t : Template} :
    (∃ op spec, t.firstExploded? = some (op, spec)) ↔ t.Explodes := by
  rw [← isSome_firstExploded?_iff, Option.isSome_iff_exists, Prod.exists]

end Template

/-! ## Writing the regex -/

/-- An expression with a regex has no exploded variable. -/
theorem Expression.firstExploded?_of_regex {e : Expression} {seen : Seen} {r : Regex}
    (h : e.regex seen = .ok r) : firstExploded? e.specs = none := by
  rw [Option.eq_none_iff_forall_ne_some]
  intro spec hspec
  have herror : e.regex seen = .error _ := regex_eq_error.2 ⟨spec, hspec, rfl⟩
  rw [h] at herror
  cases herror

namespace Template

/-- The regexes of segments stop at the first exploded variable. -/
theorem regexFrom_eq_error {source : Text} {seen : Seen} {segments : List Segment} {err : Error} :
    regexFrom source seen segments = .error err ↔
      ∃ op spec, Segment.firstExploded? segments = some (op, spec) ∧
        err = .extractionNotSupported source (.unmatchable (braced op [spec.text])) := by
  induction segments generalizing seen with
  | nil => simp [regexFrom, Segment.firstExploded?]
  | cons segment segments ih =>
    cases segment with
    | literal l =>
      rw [regexFrom, bind_eq_error_iff, ih, Segment.firstExploded?_literal_cons]
      simp [pure_ne_error]
    | expression e =>
      rw [regexFrom, Segment.firstExploded?_expression_cons]
      cases hregex : e.regex seen with
      | error cause =>
        obtain ⟨spec, hspec, rfl⟩ := Expression.regex_eq_error.1 hregex
        simp [hspec, eq_comm]
      | ok first =>
        rw [Expression.firstExploded?_of_regex hregex]
        dsimp only
        rw [bind_eq_error_iff, ih]
        simp [pure_ne_error]

theorem regex_eq_error {t : Template} {err : Error} :
    t.regex = .error err ↔
      ∃ op spec, t.firstExploded? = some (op, spec) ∧
        err = .extractionNotSupported t.source (.unmatchable (braced op [spec.text])) :=
  regexFrom_eq_error

/-- There is a regex exactly when no variable is exploded. -/
theorem exists_regex_iff {t : Template} : (∃ r, t.regex = .ok r) ↔ ¬t.Explodes := by
  rw [← exists_firstExploded?_iff]
  cases hregex : t.regex with
  | ok r =>
    refine iff_of_true ⟨r, rfl⟩ fun h => ?_
    obtain ⟨op, spec, hfirst⟩ := h
    rw [regex_eq_error.2 ⟨op, spec, hfirst, rfl⟩] at hregex
    cases hregex
  | error err =>
    obtain ⟨op, spec, hfirst, -⟩ := regex_eq_error.1 hregex
    exact iff_of_false (by simp) (not_not_intro ⟨op, spec, hfirst⟩)

/-! ## Extraction -/

/-- Extraction fails without a regex, without a match, or at a slot of the match. -/
theorem extract_eq_error {t : Template} {url : Text} {err : Error} :
    t.extract url = .error err ↔
      t.regex = .error err ∨ ∃ r, t.regex = .ok r ∧
        (r.match? url = none ∧ err = .mismatch url ∨
          ∃ captures, r.match? url = some captures ∧ bindSlots url ∅ captures = .error err) := by
  rw [extract, bind_eq_error_iff]
  refine or_congr_right (exists_congr fun r => and_congr_right fun _ => ?_)
  cases r.match? url with
  | none => simp [eq_comm]
  | some captures => simp

/-- Once there is a regex, extraction does not say that there is none. -/
theorem extract_eq_notSupported {t : Template} {url source : Text} {cause : Error} :
    t.extract url = .error (.extractionNotSupported source cause) ↔
      t.regex = .error (.extractionNotSupported source cause) := by
  rw [extract_eq_error]
  refine or_iff_left fun h => ?_
  obtain ⟨r, -, ⟨-, herr⟩ | ⟨captures, -, hbind⟩⟩ := h
  · cases herr
  · rcases bindSlots_error_cases hbind with herr | ⟨taken, -, -, herr⟩
    · cases herr
    · cases herr

/-- A template supports extraction exactly when no variable is exploded, whatever the URL.
If some variable is, the regex and every extraction fail in the same way: with the text of
the template and, as the cause, the first exploded variable as an expression of its own
under its operator. -/
theorem extraction_support_iff (t : Template) :
    (∀ source cause, t.regex = .error (.extractionNotSupported source cause) ↔
        ∃ op spec, t.firstExploded? = some (op, spec) ∧ source = t.source ∧
          cause = .unmatchable (braced op [spec.name.text ++ ['*']])) ∧
      (∀ url source cause, t.extract url = .error (.extractionNotSupported source cause) ↔
        t.regex = .error (.extractionNotSupported source cause)) ∧
      ((∃ op spec, t.firstExploded? = some (op, spec)) ↔ t.Explodes) ∧
      ((∃ r, t.regex = .ok r) ↔ ¬t.Explodes) := by
  refine ⟨fun source cause => ?_, fun url source cause => extract_eq_notSupported,
    exists_firstExploded?_iff, exists_regex_iff⟩
  rw [regex_eq_error]
  refine exists_congr fun op => exists_congr fun spec => and_congr_right fun hfirst => ?_
  have hexploded : spec.modifier = .explode := by simpa using List.find?_some hfirst
  rw [VarSpec.text, hexploded, Error.extractionNotSupported.injEq]
  rfl

/-- Of two exploded variables the first one is reported, under the operator of the
expression that it stands in. -/
example :
    (parse "a\x7bx\x7d\x7b?y,u*\x7d\x7bz*\x7d".toList).bind (extract · "a".toList) =
      .error (.extractionNotSupported "a\x7bx\x7d\x7b?y,u*\x7d\x7bz*\x7d".toList
        (.unmatchable "\x7b?u*\x7d".toList)) := by
  decide +kernel

end Template

end UriTemplate
