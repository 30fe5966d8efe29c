import UriTemplate.Proofs.MatchExistence

/-!
# Variables in several places

A variable that stands in several places has a slot in each of them.  Extraction
looks at one match of the URL, the preferred one, and compares what the slots of
a variable took; it does not look for another match in which they agree.

So there are two ways for a URL to be refused as a mismatch.  The layout may not
match it at all, which never happens to an expansion of the template
(`Template.exists_match_expand`).  Or two slots of one variable take texts that
decode differently, and this can happen to an expansion: with nothing between
two places of a variable, the first slot takes the share of both.
`Template.extract_expand_mismatch_iff` says that nothing else makes an
expansion a mismatch.

* `Template.bindSlots_append` and `Template.exists_of_bindSlots_error`: slots are
  bound from left to right, up to the first one that cannot be.
* `Template.get_eq_scalar_iff`: what is bound is what some slot took.
* `Template.bindSlots_eq_mismatch`: when slots disagree.
-/

namespace UriTemplate

open Percent

/-- Whether two slots of one variable took texts that decode differently, and every
slot up to the second of them took a text that decodes. -/
def Regex.Disagree (captures : Regex.Captures) : Prop :=
  ∃ front later back, captures = front ++ later :: back ∧
    (∀ taken ∈ front ++ [later], decode taken.2 ≠ none) ∧
    ∃ earlier ∈ front, earlier.1.name = later.1.name ∧ decode earlier.2 ≠ decode later.2

namespace Template

/-! ## Binding slots one after another -/

theorem bindSlots_cons (url : Text) (b : Bindings) (taken : Slot × Text)
    (rest : Regex.Captures) :
    bindSlots url b (taken :: rest) =
      bindSlots url b [taken] >>= fun b' => bindSlots url b' rest := by
  obtain ⟨x, encoded⟩ := taken
  rw [bindSlots, bindSlots]
  split
  · rfl
  · split
    · rfl
    · split <;> rfl

theorem bindSlots_append (url : Text) (b : Bindings) (front rest : Regex.Captures) :
    bindSlots url b (front ++ rest) =
      bindSlots url b front >>= fun b' => bindSlots url b' rest := by
  induction front generalizing b with
  | nil => rfl
  | cons taken front ih =>
    rw [List.cons_append, bindSlots_cons, bindSlots_cons url b taken front]
    cases bindSlots url b [taken] with
    | error err => rfl
    | ok b' => exact ih b'

/-- An error is the one of the first slot that cannot be bound. -/
theorem exists_of_bindSlots_error {url : Text} {b : Bindings} {captures : Regex.Captures}
    {err : Error} (h : bindSlots url b captures = .error err) :
    ∃ front taken back b', captures = front ++ taken :: back ∧
      bindSlots url b front = .ok b' ∧ bindSlots url b' [taken] = .error err := by
  induction captures generalizing b with
  | nil => cases h
  | cons taken captures ih =>
    rw [bindSlots_cons] at h
    rcases bind_eq_error_iff.1 h with htaken | ⟨b', htaken, hrest⟩
    · exact ⟨[], taken, captures, b, rfl, rfl, htaken⟩
    · obtain ⟨front, other, back, b'', rfl, hfront, hother⟩ := ih hrest
      refine ⟨taken :: front, other, back, b'', rfl, ?_, hother⟩
      rw [bindSlots_cons, htaken]
      exact hfront

/-- A slot whose text decodes is refused when its variable has another value. -/
theorem bindSlots_singleton_eq_error {url : Text} {b : Bindings} {taken : Slot × Text} {t : Text}
    (hdecode : decode taken.2 = some t) {err : Error} :
    bindSlots url b [taken] = .error err ↔
      err = .mismatch url ∧ ∃ other, b.get taken.1.name = .scalar other ∧ other ≠ t := by
  obtain ⟨x, encoded⟩ := taken
  have hread : decode encoded = some t := hdecode
  rw [bindSlots, hread]
  dsimp only
  split
  · rename_i hunbound
    constructor
    · intro h
      cases h
    · rintro ⟨-, other, hother, -⟩
      rw [hother] at hunbound
      cases hunbound
  · rename_i earlier hbound
    have hget : b.get x.name = .scalar earlier := Value.scalar?_eq_some.1 hbound
    split
    · rename_i hsame
      constructor
      · intro h
        cases h
      · rintro ⟨-, other, hother, hne⟩
        rw [hget] at hother
        cases hother
        exact absurd hsame hne
    · rename_i hne
      constructor
      · intro h
        exact ⟨(Except.error.inj h).symm, earlier, hget, hne⟩
      · rintro ⟨rfl, -⟩
        rfl

/-- Slots are refused for one of two reasons: a text does not decode, or its variable has
another value. -/
theorem bindSlots_error_cases {url : Text} {b : Bindings} {captures : Regex.Captures}
    {err : Error} (h : bindSlots url b captures = .error err) :
    err = .mismatch url ∨ ∃ taken ∈ captures, decode taken.2 = none ∧
      err = .invalidPercentEncoding taken.1.name.text taken.2 := by
  obtain ⟨front, taken, back, b', rfl, -, htaken⟩ := exists_of_bindSlots_error h
  cases hdecode : decode taken.2 with
  | none =>
    refine .inr ⟨taken, by simp, hdecode, ?_⟩
    rw [bindSlots, hdecode] at htaken
    exact (Except.error.inj htaken).symm
  | some t => exact .inl ((bindSlots_singleton_eq_error hdecode).1 htaken).1

/-- A text that does not decode is no mismatch. -/
theorem decode_of_bindSlots_mismatch {url url' : Text} {b : Bindings} {taken : Slot × Text}
    (h : bindSlots url b [taken] = .error (.mismatch url')) : ∃ t, decode taken.2 = some t := by
  obtain ⟨x, encoded⟩ := taken
  cases hdecode : decode encoded with
  | some t => exact ⟨t, rfl⟩
  | none =>
    rw [bindSlots, hdecode] at h
    cases h

/-! ## Slots that disagree -/

/-- What is bound to a variable is what some slot of it took. -/
theorem get_eq_scalar_iff {url : Text} {b : Bindings} {captures : Regex.Captures}
    (h : bindSlots url ∅ captures = .ok b) {n : Name} {t : Text} :
    b.get n = .scalar t ↔ ∃ taken ∈ captures, taken.1.name = n ∧ decode taken.2 = some t := by
  obtain ⟨hdecodes, hbinds⟩ := bindSlots_empty_eq_ok.1 h
  constructor
  · intro hget
    have hfind := Bindings.find?_of_get_scalar hget
    have hmem : n ∈ captures.map fun taken => taken.1.name := by
      by_contra hnot
      rw [(hbinds n).2 hnot] at hfind
      cases hfind
    obtain ⟨taken, htaken, rfl⟩ := List.mem_map.1 hmem
    obtain ⟨t', hdecode, hfind'⟩ := hdecodes taken htaken
    rw [hfind] at hfind'
    cases hfind'
    exact ⟨taken, htaken, rfl, hdecode⟩
  · rintro ⟨taken, htaken, rfl, hdecode⟩
    obtain ⟨t', hdecode', hfind⟩ := hdecodes taken htaken
    rw [hdecode] at hdecode'
    cases hdecode'
    exact Bindings.get_of_find? hfind

/-- The slots of a match make a mismatch exactly when they disagree. -/
theorem bindSlots_eq_mismatch {url url' : Text} {captures : Regex.Captures} :
    bindSlots url ∅ captures = .error (.mismatch url') ↔
      url' = url ∧ Regex.Disagree captures := by
  constructor
  · intro h
    obtain ⟨front, later, back, b, rfl, hfront, hlater⟩ := exists_of_bindSlots_error h
    obtain ⟨t, hdecode⟩ := decode_of_bindSlots_mismatch hlater
    obtain ⟨herr, other, hget, hne⟩ := (bindSlots_singleton_eq_error hdecode).1 hlater
    obtain ⟨earlier, hearlier, hname, hdecode'⟩ := (get_eq_scalar_iff hfront).1 hget
    have hreads : ∀ taken ∈ front ++ [later], decode taken.2 ≠ none := by
      intro taken htaken
      rcases List.mem_append.1 htaken with hmem | hmem
      · obtain ⟨t', ht', -⟩ := (bindSlots_empty_eq_ok.1 hfront).1 taken hmem
        simp [ht']
      · obtain rfl : taken = later := by simpa using hmem
        simp [hdecode]
    refine ⟨Error.mismatch.inj herr, front, later, back, rfl, hreads, earlier, hearlier, hname, ?_⟩
    rw [hdecode, hdecode']
    simpa using hne
  · rintro ⟨rfl, front, later, back, rfl, hreads, earlier, hearlier, hname, hne⟩
    have hread (taken : Slot × Text) (h : taken ∈ front ++ [later]) :
        ∃ t, decode taken.2 = some t := Option.ne_none_iff_exists'.1 (hreads taken h)
    rw [bindSlots_append]
    cases hfront : bindSlots url' ∅ front with
    | error err =>
      -- Slots disagree even before the later of the two.
      obtain ⟨front', taken, back', b', rfl, -, htaken⟩ := exists_of_bindSlots_error hfront
      obtain ⟨t, ht⟩ := hread taken (by simp)
      obtain ⟨rfl, -⟩ := (bindSlots_singleton_eq_error ht).1 htaken
      rfl
    | ok b =>
      obtain ⟨t, ht⟩ := hread later (by simp)
      obtain ⟨other, hother⟩ := hread earlier (List.mem_append_left _ hearlier)
      have hget : b.get later.1.name = .scalar other :=
        (get_eq_scalar_iff hfront).2 ⟨earlier, hearlier, hname, hother⟩
      have hlater : bindSlots url' b [later] = .error (.mismatch url') := by
        refine (bindSlots_singleton_eq_error ht).2 ⟨rfl, other, hget, ?_⟩
        rintro rfl
        exact hne (hother.trans ht.symm)
      show bindSlots url' b (later :: back) = _
      rw [bindSlots_cons, hlater]
      rfl

/-- Slots of different variables do not disagree. -/
theorem not_disagree_of_nodup {captures : Regex.Captures}
    (h : (captures.map fun taken => taken.1.name).Nodup) : ¬Regex.Disagree captures := by
  rintro ⟨front, later, back, rfl, -, earlier, hearlier, hname, -⟩
  rw [List.map_append, List.map_cons, List.nodup_append] at h
  obtain ⟨-, -, hdisjoint⟩ := h
  exact hdisjoint _ (List.mem_map_of_mem hearlier) _ List.mem_cons_self hname

/-- Slots of different variables are bound if what they took decodes. -/
theorem exists_bindSlots_of_nodup {captures : Regex.Captures} (url : Text)
    (hdecode : ∀ taken ∈ captures, ∃ t, decode taken.2 = some t)
    (hnodup : (captures.map fun taken => taken.1.name).Nodup) :
    ∃ b, bindSlots url ∅ captures = .ok b := by
  cases hbind : bindSlots url ∅ captures with
  | ok b => exact ⟨b, rfl⟩
  | error err =>
    obtain ⟨front, taken, back, b, rfl, -, htaken⟩ := exists_of_bindSlots_error hbind
    obtain ⟨t, ht⟩ := hdecode taken (by simp)
    obtain ⟨rfl, -⟩ := (bindSlots_singleton_eq_error ht).1 htaken
    exact absurd (bindSlots_eq_mismatch.1 hbind).2 (not_disagree_of_nodup hnodup)

/-! ## Expansions -/

/-- The regex of a template without modifiers matches every expansion of it.  The
expansion is a mismatch for extraction exactly when, in the match that is found,
two slots of one variable disagree.  It never is when no variable stands in two
places. -/
theorem extract_expand_mismatch_iff {s : Text} {t : Template} {b : Bindings}
    (hparse : parse s = .ok t) (hplain : t.Plain)
    (hb : ∀ n ∈ t.names, ∃ text, b.find? n = some (.scalar text)) :
    ∃ r captures, t.regex = .ok r ∧ r.match? (t.expand b) = some captures ∧
      captures.map (fun taken => taken.1.name) = t.occurrences ∧
      (∀ url, t.extract (t.expand b) = .error (.mismatch url) ↔
        url = t.expand b ∧ Regex.Disagree captures) ∧
      (t.occurrences.Nodup → ∀ url, t.extract (t.expand b) ≠ .error (.mismatch url)) := by
  obtain ⟨r, captures, hr, hmatch, hnames⟩ := exists_match_expand hparse hplain hb
  have hextract : t.extract (t.expand b) = bindSlots (t.expand b) ∅ captures := by
    simp only [extract, hr, bind, Except.bind, hmatch]
  have hiff (url : Text) : t.extract (t.expand b) = .error (.mismatch url) ↔
      url = t.expand b ∧ Regex.Disagree captures := by
    rw [hextract]
    exact bindSlots_eq_mismatch
  refine ⟨r, captures, hr, hmatch, hnames, hiff, fun hnodup url hmismatch => ?_⟩
  rw [← hnames] at hnodup
  exact not_disagree_of_nodup hnodup ((hiff url).1 hmismatch).2

theorem extract_expand_mismatch_iff_shared_dash :
    ∃ t b, parse "\x7bx\x7d-\x7bx\x7d\x7by\x7d".toList = .ok t ∧ t.Plain ∧
      (∀ n ∈ t.names, ∃ text, b.find? n = some (.scalar text)) ∧ t.expand b = "a-a-a".toList ∧
      ∃ r captures, t.regex = .ok r ∧ r.match? (t.expand b) = some captures ∧
        captures.map (fun taken => taken.1.name) = t.occurrences ∧
        (∀ url, t.extract (t.expand b) = .error (.mismatch url) ↔
          url = t.expand b ∧ Regex.Disagree captures) ∧
        (t.occurrences.Nodup → ∀ url, t.extract (t.expand b) ≠ .error (.mismatch url)) := by
  let x : Name := ⟨['x'], rfl⟩
  let y : Name := ⟨['y'], rfl⟩
  let b : Bindings := .ofList [(x, .scalar ['a']), (y, .scalar ['-', 'a'])]
  let t : Template := ⟨"\x7bx\x7d-\x7bx\x7d\x7by\x7d".toList,
    [.expression (.member ⟨.simple, ⟨x, .none⟩⟩), .literal [.plain '-'],
      .expression (.member ⟨.simple, ⟨x, .none⟩⟩), .expression (.member ⟨.simple, ⟨y, .none⟩⟩)]⟩
  have hplain : t.Plain := by decide
  have hb : ∀ n ∈ t.names, ∃ text, b.find? n = some (.scalar text) := by
    show ∀ n ∈ [x, y], ∃ text, b.find? n = some (.scalar text)
    exact List.forall_mem_cons.2 ⟨⟨_, rfl⟩, List.forall_mem_cons.2 ⟨⟨_, rfl⟩, by simp⟩⟩
  exact ⟨t, b, rfl, hplain, hb, rfl, extract_expand_mismatch_iff (s := t.source) rfl hplain hb⟩

/-- With nothing between two places of a variable, the first slot takes the share of
both, and the expansion is a mismatch. -/
theorem extract_own_expansion_mismatch :
    ∃ t b, parse "\x7bx\x7d\x7bx\x7d".toList = .ok t ∧ t.Plain ∧
      (∀ n ∈ t.names, ∃ text, b.find? n = some (.scalar text)) ∧ t.expand b = "aa".toList ∧
      t.extract (t.expand b) = .error (.mismatch "aa".toList) := by
  let x : Name := ⟨['x'], rfl⟩
  let b : Bindings := .ofList [(x, .scalar ['a'])]
  let t : Template := ⟨"\x7bx\x7d\x7bx\x7d".toList,
    [.expression (.member ⟨.simple, ⟨x, .none⟩⟩), .expression (.member ⟨.simple, ⟨x, .none⟩⟩)]⟩
  have hplain : t.Plain := by decide
  have hb : ∀ n ∈ t.names, ∃ text, b.find? n = some (.scalar text) := by
    show ∀ n ∈ [x], ∃ text, b.find? n = some (.scalar text)
    exact List.forall_mem_cons.2 ⟨⟨_, rfl⟩, by simp⟩
  have hextract : t.extract (t.expand b) = .error (.mismatch "aa".toList) := by decide +kernel
  exact ⟨t, b, rfl, hplain, hb, rfl, hextract⟩

end Template

end UriTemplate
