import Mathlib.Data.List.Basic
import UriTemplate.Proofs.Layout

/-!
# Reading an expression again

An expression can be built in four ways, and reading gives only two of them: a
member, or a composite of several.  Whichever way an expression is built, the one
that is read from its own text does the same: it has the same text and the same
variables, expands alike under all bindings, and has the same regex.

An operator and a row of specifications decide all of this.  The text and the
names are theirs by `Expression.text_eq` and `Expression.names_eq`, and so is the
expansion by `Expression.expand_eq_flat`.  This module does the same for regexes.

* `Regex.text_spread`: the text of a regex does not depend on how its fixed text is
  cut.
* `Expression.regex_eq_error`: the first exploded variable rules a regex out.
* `Expression.map_text_regex`: expressions with the same operator and the same
  specifications have the same regex, or fail alike.
-/

namespace UriTemplate

/-! ## The text of a regex -/

namespace Regex

theorem Item.text_spread (item : Item) : Regex.text item.spread = item.text := by
  cases item with
  | literal t =>
    have hchar (c : Char) : (literal [c]).text = escape [c] := rfl
    show Regex.text (t.map fun c => literal [c]) = escape t
    rw [Regex.text, List.flatMap_map]
    simp only [hchar, escape, List.flatMap_singleton]
  | slot x => exact List.flatMap_singleton ..
  | assigned x => exact List.flatMap_singleton ..

/-- Fixed text is written alike, however it is cut. -/
theorem text_spread (r : Regex) : r.spread.text = r.text := by
  rw [spread, text, List.flatMap_assoc]
  exact List.flatMap_congr fun item _ => item.text_spread

end Regex

/-! ## Expressions without a regex -/

/-- The first exploded variable of a row. -/
def firstExploded? (specs : List VarSpec) : Option VarSpec :=
  specs.find? fun spec => spec.modifier = .explode

theorem firstExploded?_eq_none {specs : List VarSpec} :
    firstExploded? specs = none ↔ ∀ spec ∈ specs, spec.modifier ≠ .explode := by
  simp [firstExploded?]

theorem firstExploded?_plain (names : List Name) :
    firstExploded? (names.map fun name => ⟨name, .none⟩) = none := by
  simp [firstExploded?_eq_none]

theorem Member.regex_eq_error {e : Member} {seen : Seen} {lead : Text} {err : Error} :
    e.regex seen lead = .error err ↔ e.spec.modifier = .explode ∧ err = .unmatchable e.text := by
  rw [regex]
  cases hmodifier : e.spec.modifier <;> simp [eq_comm]

namespace Composite

theorem regexes_cons_eq_error {m : Member} {members : List Member} {seen : Seen}
    {lead later : Text} {err : Error} :
    regexes seen lead later (m :: members) = .error err ↔
      m.regex seen lead = .error err ∨
        (∃ first, m.regex seen lead = .ok first) ∧
          regexes (seen ++ [m.name]) later later members = .error err := by
  rw [regexes, bind_eq_error_iff]
  simp only [bind_eq_error_iff, pure_ne_error, and_false, exists_false, or_false,
    exists_and_right]

/-- The members of a composite fail at the first exploded variable. -/
theorem regexes_eq_error {op : Operator} {specs : List VarSpec} {seen : Seen}
    {lead later : Text} {err : Error} :
    regexes seen lead later (specs.map fun spec => ⟨op, spec⟩) = .error err ↔
      ∃ spec, firstExploded? specs = some spec ∧ err = .unmatchable (braced op [spec.text]) := by
  induction specs generalizing seen lead with
  | nil => simp [regexes, firstExploded?]
  | cons spec specs ih =>
    rw [List.map_cons, regexes_cons_eq_error, Member.regex_eq_error, ih]
    by_cases hexplode : spec.modifier = .explode
    · have hfirst : firstExploded? (spec :: specs) = some spec :=
        List.find?_cons_of_pos (by simp [hexplode])
      have hnone : ¬∃ first, Member.regex ⟨op, spec⟩ seen lead = .ok first := by
        rintro ⟨first, hok⟩
        exact (Member.regex_eq_ok.1 hok).1 hexplode
      simp [hfirst, hnone, hexplode, Member.text]
    · have hfirst : firstExploded? (spec :: specs) = firstExploded? specs :=
        List.find?_cons_of_neg (by simp [hexplode])
      have hsome : ∃ first, Member.regex ⟨op, spec⟩ seen lead = .ok first :=
        ⟨_, Member.regex_eq_ok.2 ⟨hexplode, rfl⟩⟩
      simp [hfirst, hsome, hexplode]

end Composite

namespace Expression

/-- The first exploded variable rules a regex out, and is reported as an expression
of its own. -/
theorem regex_eq_error {e : Expression} {seen : Seen} {err : Error} :
    e.regex seen = .error err ↔
      ∃ spec, firstExploded? e.specs = some spec ∧
        err = .unmatchable (braced e.op [spec.text]) := by
  cases e with
  | single e =>
    have hplain : firstExploded? (single e).specs = none := firstExploded?_plain [e.name]
    simp [hplain, regex]
  | multi e =>
    have hplain : firstExploded? (multi e).specs = none := firstExploded?_plain e.names
    simp [hplain, regex]
  | member e =>
    rw [regex, Member.regex_eq_error]
    by_cases hexplode : e.spec.modifier = .explode
    · simp [firstExploded?, specs, hexplode, op, Member.text]
    · simp [firstExploded?, specs, hexplode]
  | composite e =>
    rw [regex, Composite.regex, bind_eq_error_iff, Composite.members, Composite.regexes_eq_error]
    simp [pure_ne_error, specs, op]

/-- The operator and the specifications decide the regex. -/
theorem map_text_regex {e e' : Expression} (hop : e.op = e'.op) (hspecs : e.specs = e'.specs)
    (seen : Seen) : (e.regex seen).map Regex.text = (e'.regex seen).map Regex.text := by
  have hiff (err : Error) : e.regex seen = .error err ↔ e'.regex seen = .error err := by
    rw [regex_eq_error, regex_eq_error, hop, hspecs]
  cases hr : e.regex seen with
  | error err =>
    rw [(hiff err).1 hr]
  | ok r =>
    cases hr' : e'.regex seen with
    | error err =>
      rw [(hiff err).2 hr'] at hr
      cases hr
    | ok r' =>
      have hspread : r.spread = r'.spread := by
        rw [spread_regex hr, spread_regex hr', hop, hspecs]
      show Except.ok r.text = Except.ok r'.text
      rw [← Regex.text_spread, hspread, Regex.text_spread]

/-! ## Reading again -/

/-- An expression with at least one variable, however it is built, does what the
expression does that is read from its own text. -/
theorem parse_text_agrees {e : Expression} (h : e.names ≠ []) :
    ∃ p, parse e.text = .ok p ∧ p.text = e.text ∧ p.names = e.names ∧
      (∀ b, p.expand b = e.expand b) ∧
      ∀ seen, (p.regex seen).map Regex.text = (e.regex seen).map Regex.text := by
  obtain ⟨first, rest, hspecs⟩ : ∃ first rest, e.specs = first :: rest := by
    apply List.exists_cons_of_ne_nil
    intro hnil
    rw [names_eq, hnil] at h
    exact h rfl
  let p : Expression := .ofSpecs e.op first rest
  have hop : p.op = e.op := op_ofSpecs e.op first rest
  have hsame : p.specs = e.specs := by
    rw [hspecs]
    exact specs_ofSpecs e.op first rest
  refine ⟨p, ?_, ?_, ?_, fun b => ?_, fun seen => map_text_regex hop hsame seen⟩
  · rw [text_eq, hspecs]
    exact parse_braced e.op first rest
  · rw [text_eq, text_eq, hop, hsame]
  · rw [names_eq, names_eq, hsame]
  · rw [expand_eq_flat, expand_eq_flat, hop, hsame]

theorem parse_text_agrees_multi :
    ∃ e, e = multi ⟨.parameter, [⟨['x'], rfl⟩, ⟨['0'], rfl⟩]⟩ ∧ e.names ≠ [] ∧
      ∃ p, parse e.text = .ok p ∧ p.text = e.text ∧ p.names = e.names ∧
        (∀ b, p.expand b = e.expand b) ∧
        ∀ seen, (p.regex seen).map Regex.text = (e.regex seen).map Regex.text := by
  have h : (multi ⟨.parameter, [⟨['x'], rfl⟩, ⟨['0'], rfl⟩]⟩).names ≠ [] := by simp [names]
  exact ⟨_, rfl, h, parse_text_agrees h⟩

end Expression

end UriTemplate
