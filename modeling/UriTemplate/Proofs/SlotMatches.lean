import UriTemplate.Proofs.Splits

/-!
# What a slot takes

A slot tries every number of atoms that it may take, the greatest first, and
stops where the text after it is matched.  So it takes a row of atoms, it takes one
whenever it could, and no row that it could have taken is longer.

* `Slot.exists_of_run`: a slot takes a row of atoms of its class.
* `Slot.longest_append`: a slot stops where no atom follows.
* `Slot.exists_run_append`: a slot that could stop after a row of atoms finds some
  place to stop.
* `Slot.length_le_of_run`: it does not stop before the end of a row after which it
  could stop.
-/

namespace UriTemplate.Slot

open Percent

variable {α : Type}

/-! ## What is taken -/

theorem exists_of_longest {cls : CharClass} {next : Text → Option α} {s piece : Text} {a : α}
    (h : longest cls next s = some (piece, a)) :
    ∃ n rest, AtomRow cls n piece ∧ s = piece ++ rest ∧ next rest = some a := by
  fun_induction longest cls next s generalizing piece a with
  | case1 s atom s' htake ih =>
    obtain ⟨hatom, rfl⟩ := takeAtom?_eq_some.1 htake
    rw [Option.orElse_eq_orElse, Option.orElse_eq_or, Option.or_eq_some_iff] at h
    rcases h with hmore | ⟨-, hstop⟩
    · simp only [Option.map_eq_some_iff, Prod.exists, Prod.mk.injEq] at hmore
      obtain ⟨row, a', hrow, rfl, rfl⟩ := hmore
      obtain ⟨n, rest, hatoms, rfl, hnext⟩ := ih hrow
      exact ⟨n + 1, rest, .cons hatom hatoms, by rw [List.append_assoc], hnext⟩
    · simp only [Option.map_eq_some_iff, Prod.mk.injEq] at hstop
      obtain ⟨a', hnext, rfl, rfl⟩ := hstop
      exact ⟨0, _, .nil, rfl, hnext⟩
  | case2 s htake =>
    simp only [Option.map_eq_some_iff, Prod.mk.injEq] at h
    obtain ⟨a', hnext, rfl, rfl⟩ := h
    exact ⟨0, _, .nil, rfl, hnext⟩

/-- A slot takes a row of atoms, as many as it asks for, and leaves the rest. -/
theorem exists_of_run {x : Slot} {next : Text → Option α} {s piece : Text} {a : α}
    (h : x.run next s = some (piece, a)) :
    ∃ n rest, AtomRow x.charClass n piece ∧ x.count.Allows n ∧ s = piece ++ rest ∧
      next rest = some a := by
  rw [run] at h
  split at h
  · rename_i hcount
    obtain ⟨n, rest, hrow, hs, hnext⟩ := exists_of_longest h
    exact ⟨n, rest, hrow, by rw [hcount]; trivial, hs, hnext⟩
  · rename_i n hcount
    simp only [Option.bind_eq_bind, Option.bind_eq_some_iff, Option.pure_def, Option.some.injEq,
      Prod.exists, Prod.mk.injEq] at h
    obtain ⟨row, rest, htakes, a', hnext, rfl, rfl⟩ := h
    obtain ⟨hrow, hs⟩ := takeAtoms?_eq_some.1 htakes
    exact ⟨n, rest, hrow, by rw [hcount]; rfl, hs, hnext⟩

/-! ## Where a slot stops -/

theorem longest_of_takeAtom?_eq_none {cls : CharClass} {next : Text → Option α} {s : Text}
    (h : takeAtom? cls s = none) : longest cls next s = (next s).map ([], ·) := by
  rw [longest]
  split
  · rename_i htake
    rw [h] at htake
    cases htake
  · rfl

theorem longest_append_of_atom {cls : CharClass} {next : Text → Option α} {atom s : Text}
    (h : Atom cls atom) :
    longest cls next (atom ++ s) =
      ((longest cls next s).map (fun (t, a) => (atom ++ t, a)) <|>
        (next (atom ++ s)).map ([], ·)) := by
  have htake : takeAtom? cls (atom ++ s) = some (atom, s) := takeAtom?_eq_some.2 ⟨h, rfl⟩
  rw [longest]
  split
  · rename_i htake'
    rw [htake] at htake'
    cases htake'
    rfl
  · rename_i htake'
    rw [htake] at htake'
    cases htake'

/-- A slot takes all atoms of a row after which there is none, if what follows is
matched. -/
theorem longest_append {cls : CharClass} {next : Text → Option α} {n : Nat} {row rest : Text}
    {a : α} (hrow : AtomRow cls n row) (hstop : takeAtom? cls rest = none)
    (hnext : next rest = some a) : longest cls next (row ++ rest) = some (row, a) := by
  induction hrow with
  | nil => rw [List.nil_append, longest_of_takeAtom?_eq_none hstop, hnext, Option.map_some]
  | cons hatom _ ih =>
    rw [List.append_assoc, longest_append_of_atom hatom, ih]
    rfl

/-- The induction is on the row: a slot that goes on after the first atom finds a
place further on, and a slot that cannot go on stops here. -/
theorem exists_longest_append {cls : CharClass} {next : Text → Option α} {n : Nat}
    {row rest : Text} {a : α} (hrow : AtomRow cls n row) (hnext : next rest = some a) :
    ∃ taken, longest cls next (row ++ rest) = some taken := by
  induction hrow with
  | nil =>
    rw [List.nil_append, longest]
    split
    · -- The slot may still go on, but it can stop here.
      rename_i atom rest' _
      rw [hnext]
      cases hmore : longest cls next rest' with
      | none => exact ⟨_, rfl⟩
      | some more => exact ⟨_, rfl⟩
    · rw [hnext]
      exact ⟨_, rfl⟩
  | cons hatom _ ih =>
    obtain ⟨taken, htaken⟩ := ih
    rw [List.append_assoc, longest_append_of_atom hatom, htaken]
    exact ⟨_, rfl⟩

theorem exists_run_append {x : Slot} {next : Text → Option α} {n : Nat} {row rest : Text} {a : α}
    (hrow : AtomRow x.charClass n row) (hcount : x.count.Allows n) (hnext : next rest = some a) :
    ∃ taken, x.run next (row ++ rest) = some taken := by
  rw [run]
  split
  · exact exists_longest_append hrow hnext
  · rename_i m hexactly
    rw [hexactly] at hcount
    have hn : n = m := hcount
    have htakes : takeAtoms? x.charClass m (row ++ rest) = some (row, rest) :=
      takeAtoms?_eq_some.2 ⟨hn ▸ hrow, rfl⟩
    refine ⟨(row, a), ?_⟩
    simp [htakes, hnext]

/-! ## No longer row -/

/-- The induction is on the row: after its first atom the slot has the choice of
going on, which it prefers and which is open to it. -/
theorem length_le_of_longest {cls : CharClass} {next : Text → Option α} {n : Nat}
    {row rest piece : Text} {a a' : α} (h : longest cls next (row ++ rest) = some (piece, a))
    (hrow : AtomRow cls n row) (hnext : next rest = some a') : row.length ≤ piece.length := by
  induction hrow generalizing piece a with
  | nil => exact Nat.zero_le _
  | @cons n atom row hatom hrow ih =>
    obtain ⟨⟨piece', a''⟩, htaken⟩ := exists_longest_append hrow hnext
    rw [List.append_assoc, longest_append_of_atom hatom, htaken] at h
    obtain ⟨rfl, -⟩ := Prod.mk.inj (Option.some.inj h)
    have := ih htaken
    rw [List.length_append, List.length_append]
    omega

/-- A slot stops after no row that is shorter than one it could stop after. -/
theorem length_le_of_run {x : Slot} {next : Text → Option α} {n : Nat} {row rest piece : Text}
    {a a' : α} (h : x.run next (row ++ rest) = some (piece, a))
    (hrow : AtomRow x.charClass n row) (hcount : x.count.Allows n) (hnext : next rest = some a') :
    row.length ≤ piece.length := by
  rw [run] at h
  split at h
  · exact length_le_of_longest h hrow hnext
  · rename_i m hexactly
    rw [hexactly] at hcount
    have hn : n = m := hcount
    have htakes : takeAtoms? x.charClass m (row ++ rest) = some (row, rest) :=
      takeAtoms?_eq_some.2 ⟨hn ▸ hrow, rfl⟩
    simp only [htakes, hnext, Option.bind_eq_bind, Option.bind_some, Option.pure_def,
      Option.some.injEq, Prod.mk.injEq] at h
    obtain ⟨rfl, -⟩ := h
    exact Nat.le_refl _

end UriTemplate.Slot
