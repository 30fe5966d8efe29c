import UriTemplate.Regex

/-!
# Matching

A regex is matched with a whole text from left to right.  A slot takes as many
atoms as it can, and gives up the last ones only if nothing after it matches
otherwise; an assigned slot is passed over only if it cannot be taken.  `run`
says this for one text, trying one way after the other.  `answers` does it for
all suffixes of a text at once, so that no suffix is tried twice, and
`match?_eq` says that the answers are those of `run`.
-/

namespace UriTemplate

open Percent

/-! ## One text -/

namespace Slot

variable {α : Type}

/-- Takes as many atoms as `next` leaves, with what `next` says of the text after
them. -/
def longest (cls : CharClass) (next : Text → Option α) (s : Text) : Option (Text × α) :=
  match h : takeAtom? cls s with
  | some (atom, rest) =>
    (longest cls next rest).map (fun (t, a) => (atom ++ t, a)) <|> (next s).map ([], ·)
  | none => (next s).map ([], ·)
termination_by s.length
decreasing_by
  obtain ⟨rfl, hne⟩ := eq_append_of_takeAtom? h
  have := List.length_pos_iff.2 hne
  simp
  omega

/-- Takes the atoms of a slot. -/
def run (x : Slot) (next : Text → Option α) (s : Text) : Option (Text × α) :=
  match x.count with
  | .any => longest x.charClass next s
  | .exactly n => do
    let (atoms, rest) ← takeAtoms? x.charClass n s
    return (atoms, ← next rest)

end Slot

namespace Regex

/-- The slots of a match with the texts that they took, from left to right.  A
slot that was passed over takes the empty text. -/
abbrev Captures := List (Slot × Text)

/-- Puts what a slot took before the captures of the text after it. -/
def capture (x : Slot) (taken : Text × Captures) : Captures :=
  (x, taken.1) :: taken.2

/-- Matches a part, when `next` matches the text after it. -/
def Item.run (next : Text → Option Captures) : Item → Text → Option Captures
  | literal t, s => (Text.stripFront t s).bind next
  | slot x, s => (x.run next s).map (capture x)
  | assigned x, s =>
    (Text.stripFront ['='] s).bind (fun rest => (x.run next rest).map (capture x)) <|>
      (next s).map fun captures => capture x ([], captures)

/-- The captures of the preferred match of a whole text. -/
def run : Regex → Text → Option Captures
  | [], s => if s.isEmpty then some [] else none
  | item :: rest, s => item.run (run rest) s

end Regex

/-! ## All suffixes -/

/-- The suffixes of a text, the longest first. -/
def Text.suffixes : Text → List Text
  | [] => [[]]
  | c :: s => (c :: s) :: suffixes s

theorem Text.getElem?_suffixes (s : Text) (n : Nat) (h : n ≤ s.length) :
    s.suffixes[n]? = some (s.drop n) := by
  induction s generalizing n with
  | nil =>
    obtain rfl : n = 0 := by simpa using h
    rfl
  | cons c s ih =>
    cases n with
    | zero => rfl
    | succ n => simpa [suffixes] using ih n (by simpa using h)

/-- Answers for the suffixes of a text, the longest first. -/
abbrev Answers (α : Type) := List (Option α)

namespace Answers

variable {α β : Type}

/-- The answer for the suffix after `n` characters. -/
def after (answers : Answers α) (n : Nat) : Option α :=
  answers[n]?.join

/-- Answers for each suffix from the answers for its own suffixes. -/
def forEach (f : Text → Answers α → Option β) : Text → Answers α → Answers β
  | [], answers => [f [] answers]
  | c :: s, answers => f (c :: s) answers :: forEach f s answers.tail

/-- The answers of fixed text from those for the text after it. -/
def ofLiteral (t : Text) : Text → Answers α → Answers α :=
  forEach fun s next => if t.isPrefixOf s then next.after t.length else none

/-- The answers of `Slot.longest` from those for the text after it. -/
def ofLongest (cls : CharClass) : Text → Answers α → Answers (Text × α)
  | [], next => [(next.after 0).map ([], ·)]
  | c :: s, next =>
    let later := ofLongest cls s next.tail
    let stop := (next.after 0).map (([] : Text), ·)
    (match takeAtom? cls (c :: s) with
    | some (atom, _) =>
      (later.after (atom.length - 1)).map (fun (t, a) => (atom ++ t, a)) <|> stop
    | none => stop) :: later

/-- For each suffix, the answers after none, one and more of its first atoms. -/
def chains (cls : CharClass) : Text → Answers α → List (Answers α)
  | [], next => [[next.after 0]]
  | c :: s, next =>
    let later := chains cls s next.tail
    (next.after 0 :: match takeAtom? cls (c :: s) with
      | some (atom, _) => later.getD (atom.length - 1) []
      | none => []) :: later

/-- The answers of a number of atoms from those for the text after them. -/
def ofExactly (cls : CharClass) (n : Nat) (s : Text) (next : Answers α) : Answers (Text × α) :=
  List.zipWith
    (fun s (chain : Answers α) => do
      let a ← chain.after n
      return ((← takeAtoms? cls n s).1, a))
    s.suffixes (chains cls s next)

/-- The answers of a slot from those for the text after it. -/
def ofSlot (x : Slot) (s : Text) (next : Answers α) : Answers (Text × α) :=
  match x.count with
  | .any => ofLongest x.charClass s next
  | .exactly n => ofExactly x.charClass n s next

/-- The answers of two ways, of which the first is preferred. -/
def orElse (first second : Answers α) : Answers α :=
  List.zipWith (fun a b => a <|> b) first second

end Answers

namespace Regex

/-- The answers of a part from those for the text after it. -/
def Item.answers (s : Text) (next : Answers Captures) : Item → Answers Captures
  | literal t => .ofLiteral t s next
  | slot x => (Answers.ofSlot x s next).map (Option.map (capture x))
  | assigned x =>
    .orElse (.ofLiteral ['='] s ((Answers.ofSlot x s next).map (Option.map (capture x))))
      (next.map (Option.map fun captures => capture x ([], captures)))

/-- The answers of a regex for all suffixes of a text. -/
def answers : Regex → Text → Answers Captures
  | [], s => s.suffixes.map fun s => if s.isEmpty then some [] else none
  | item :: rest, s => item.answers s (answers rest s)

/-- The captures of the preferred match of a whole text. -/
def match? (r : Regex) (s : Text) : Option Captures :=
  (r.answers s).after 0

end Regex

/-! ## Agreement -/

namespace Answers

variable {α β : Type}

theorem after_map_suffixes (f : Text → Option α) (s : Text) (n : Nat) (h : n ≤ s.length) :
    after (s.suffixes.map f) n = f (s.drop n) := by
  simp [after, Text.getElem?_suffixes s n h]

theorem forEach_map_suffixes (f : Text → Answers α → Option β) (next : Text → Option α)
    (s : Text) :
    forEach f s (s.suffixes.map next) =
      s.suffixes.map fun s => f s (s.suffixes.map next) := by
  induction s with
  | nil => simp [Text.suffixes, forEach]
  | cons c s ih => simpa [Text.suffixes, forEach] using ih

theorem ofLiteral_map_suffixes (t : Text) (next : Text → Option α) (s : Text) :
    ofLiteral t s (s.suffixes.map next) =
      s.suffixes.map fun s => (Text.stripFront t s).bind next := by
  rw [ofLiteral, forEach_map_suffixes]
  congr 1
  funext s
  by_cases h : t <+: s
  · obtain ⟨rest, rfl⟩ := h
    simp [after_map_suffixes, Text.stripFront_eq_some.2 rfl]
  · have hn : Text.stripFront t s = none := by
      rw [Option.eq_none_iff_forall_ne_some]
      exact fun rest hr => h ⟨rest, (Text.stripFront_eq_some.1 hr).symm⟩
    simp [h, hn]

theorem ofLongest_map_suffixes (cls : CharClass) (next : Text → Option α) (s : Text) :
    ofLongest cls s (s.suffixes.map next) = s.suffixes.map (Slot.longest cls next) := by
  induction s with
  | nil =>
    simp only [Text.suffixes, List.map_cons, List.map_nil, ofLongest]
    rw [Slot.longest]
    simp [after, takeAtom?]
  | cons c s ih =>
    have hstop : after ((Text.suffixes (c :: s)).map next) 0 = next (c :: s) :=
      after_map_suffixes next (c :: s) 0 (Nat.zero_le _)
    rw [ofLongest, hstop, Text.suffixes, List.map_cons, List.map_cons, List.tail_cons, ih]
    congr 1
    rw [Slot.longest]
    split
    · rename_i atom rest h
      obtain ⟨he, hne⟩ := eq_append_of_takeAtom? h
      cases atom with
      | nil => exact absurd rfl hne
      | cons d atom =>
        obtain ⟨rfl, rfl⟩ : c = d ∧ s = atom ++ rest := by simpa using he
        simp only [List.length_cons, Nat.add_sub_cancel]
        rw [after_map_suffixes _ _ _ (by simp), List.drop_left]
        split
        · rename_i h'
          obtain ⟨rfl, rfl⟩ : c :: atom = _ ∧ rest = _ := by simpa using h.symm.trans h'
          rfl
        · rename_i h'
          cases h.symm.trans h'
    · rename_i h
      split
      · rename_i h'
        cases h.symm.trans h'
      · rfl

/-- The answers after none, one and more of the first atoms of a text. -/
def chain (cls : CharClass) (next : Text → Option α) (s : Text) : Answers α :=
  next s :: match _h : takeAtom? cls s with
    | some (_, rest) => chain cls next rest
    | none => []
termination_by s.length
decreasing_by
  obtain ⟨rfl, hne⟩ := eq_append_of_takeAtom? _h
  have := List.length_pos_iff.2 hne
  simp
  omega

theorem chains_map_suffixes (cls : CharClass) (next : Text → Option α) (s : Text) :
    chains cls s (s.suffixes.map next) = s.suffixes.map (chain cls next) := by
  induction s with
  | nil =>
    simp only [Text.suffixes, List.map_cons, List.map_nil, chains]
    rw [chain]
    simp [after, takeAtom?]
  | cons c s ih =>
    have hstop : after ((Text.suffixes (c :: s)).map next) 0 = next (c :: s) :=
      after_map_suffixes next (c :: s) 0 (Nat.zero_le _)
    rw [chains, hstop, Text.suffixes, List.map_cons, List.map_cons, List.tail_cons, ih]
    congr 1
    rw [chain]
    congr 1
    split
    · rename_i atom rest h
      obtain ⟨he, hne⟩ := eq_append_of_takeAtom? h
      cases atom with
      | nil => exact absurd rfl hne
      | cons d atom =>
        obtain ⟨rfl, rfl⟩ : c = d ∧ s = atom ++ rest := by simpa using he
        rw [List.getD_eq_getElem?_getD, List.getElem?_map, List.length_cons, Nat.add_sub_cancel,
          Text.getElem?_suffixes _ _ (by simp), List.drop_left]
        split
        · rename_i h'
          obtain ⟨rfl, rfl⟩ : c :: atom = _ ∧ rest = _ := by simpa using h.symm.trans h'
          rfl
        · rename_i h'
          cases h.symm.trans h'
    · rename_i h
      split
      · rename_i h'
        cases h.symm.trans h'
      · rfl

theorem after_chain (cls : CharClass) (next : Text → Option α) (n : Nat) (s : Text) :
    (chain cls next s).after n = (takeAtoms? cls n s).bind fun taken => next taken.2 := by
  induction n generalizing s with
  | zero =>
    rw [chain]
    simp [after, takeAtoms?]
  | succ n ih =>
    rw [chain, takeAtoms?]
    split
    · rename_i atom rest h
      have := ih rest
      simp only [after] at this ⊢
      simp [h, this, Option.bind_assoc]
    · rename_i h
      simp [after, h]

theorem ofExactly_map_suffixes (cls : CharClass) (n : Nat) (next : Text → Option α) (s : Text) :
    ofExactly cls n s (s.suffixes.map next) =
      s.suffixes.map fun s => do
        let (atoms, rest) ← takeAtoms? cls n s
        return (atoms, ← next rest) := by
  rw [ofExactly, chains_map_suffixes, List.zipWith_map_right, List.zipWith_self]
  congr 1
  funext s
  rw [after_chain]
  cases h : takeAtoms? cls n s with
  | none => rfl
  | some taken => simp

theorem ofSlot_map_suffixes (x : Slot) (next : Text → Option α) (s : Text) :
    ofSlot x s (s.suffixes.map next) = s.suffixes.map (x.run next) := by
  unfold ofSlot Slot.run
  split
  · exact ofLongest_map_suffixes _ _ _
  · exact ofExactly_map_suffixes _ _ _ _

end Answers

namespace Regex

theorem Item.answers_map_suffixes (item : Item) (next : Text → Option Captures) (s : Text) :
    item.answers s (s.suffixes.map next) = s.suffixes.map (item.run next) := by
  cases item with
  | literal t => exact Answers.ofLiteral_map_suffixes t next s
  | slot x =>
    rw [Item.answers, Answers.ofSlot_map_suffixes, List.map_map]
    rfl
  | assigned x =>
    rw [Item.answers, Answers.ofSlot_map_suffixes, List.map_map, List.map_map,
      Answers.ofLiteral_map_suffixes, Answers.orElse, List.zipWith_map, List.zipWith_self]
    rfl

theorem answers_eq (r : Regex) (s : Text) : r.answers s = s.suffixes.map r.run := by
  induction r with
  | nil => rfl
  | cons item rest ih =>
    rw [answers, ih, Item.answers_map_suffixes]
    rfl

/-- The answer for the whole text is the preferred match. -/
theorem match?_eq (r : Regex) (s : Text) : r.match? s = r.run s := by
  rw [match?, answers_eq, Answers.after_map_suffixes _ _ _ (Nat.zero_le _), List.drop_zero]

end Regex

end UriTemplate
