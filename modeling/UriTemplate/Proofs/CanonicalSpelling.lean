import UriTemplate.Proofs.CharacterBounds
import UriTemplate.Proofs.SlotMatches

/-!
# The spelling that encoding chooses

A value has many spellings: any byte of it can be a triplet, in digits of either
case.  Encoding chooses one of them.  It keeps what the class keeps and writes
upper-case triplets for all other bytes, and among the rows of atoms that decode
to a value it is the only one of this kind.

What a class keeps is laid down in three places.  `CharClass.contains` says it
character by character.  The encoder goes through bytes and has a list of marks
for each class, `CharClass.marks`.  The regex of an atom has a bracket expression
in its text, and `Ranges.read?` reads it.  The three agree.

* `encode_eq_flatMap_encodeChar`: encoding byte by byte under the marks is encoding
  character by character.
* `CharClass.matchesAtom_iff`: the atoms are what the text of the regex matches.
* `AtomRow.flatMap_encodeOctet_eq_iff`: encoding the bytes of a row again gives the
  row itself exactly when the row is canonical.
* `encode_eq_canonical_spelling`: all of this for one text.
-/

namespace UriTemplate

open Percent

/-! ## Encoding character by character -/

namespace Percent

variable {cls : CharClass}

/-- A character that needs more than one byte has no byte of ASCII. -/
theorem le_toNat_of_mem_utf8EncodeChar {c : Char} (hc : 0x80 ≤ c.toNat) {b : UInt8}
    (hb : b ∈ String.utf8EncodeChar c) : 0x80 ≤ b.toNat := by
  have hval : c.val.toNat = c.toNat := rfl
  have hbyte {n : Nat} (hn : 0x80 ≤ n) (hlt : n < 256) : 0x80 ≤ (UInt8.ofNat n).toNat := by
    rwa [UInt8.toNat_ofNat_of_lt' hlt]
  unfold String.utf8EncodeChar at hb
  rw [hval] at hb
  dsimp only at hb
  split at hb
  · omega
  split at hb
  · simp only [List.mem_cons, List.not_mem_nil, or_false] at hb
    rcases hb with rfl | rfl <;> exact hbyte (by omega) (by omega)
  split at hb
  · simp only [List.mem_cons, List.not_mem_nil, or_false] at hb
    rcases hb with rfl | rfl | rfl <;> exact hbyte (by omega) (by omega)
  · simp only [List.mem_cons, List.not_mem_nil, or_false] at hb
    rcases hb with rfl | rfl | rfl | rfl <;> exact hbyte (by omega) (by omega)

/-- The encoded form of one character. -/
def encodeChar (cls : CharClass) (c : Char) : Text :=
  if cls.contains c then [c] else (String.utf8EncodeChar c).flatMap triplet

/-- The bytes of a character are all kept or all written in triplets. -/
theorem flatMap_encodeOctet_utf8EncodeChar (cls : CharClass) (c : Char) :
    (String.utf8EncodeChar c).flatMap (encodeOctet cls) = encodeChar cls c := by
  unfold encodeChar
  by_cases hc : c.toNat < 0x80
  · have hbyte : (UInt8.ofNat c.toNat).toNat = c.toNat :=
      UInt8.toNat_ofNat_of_lt' (show c.toNat < 256 by omega)
    have hkeeps : cls.keepsOctet (UInt8.ofNat c.toNat) = cls.contains c := by
      rw [CharClass.keepsOctet_eq_contains cls (by rwa [hbyte]), hbyte, Char.ofNat_toNat]
    rw [Utf8.utf8EncodeChar_of_lt hc, List.flatMap_singleton, List.flatMap_singleton, encodeOctet,
      hkeeps, hbyte, Char.ofNat_toNat]
  · have hcontains : cls.contains c = false := by
      by_contra hkept
      exact hc (toNat_lt_of_contains (by simpa using hkept))
    rw [if_neg (by simp [hcontains])]
    refine List.flatMap_congr fun b hb => ?_
    have hle := le_toNat_of_mem_utf8EncodeChar (Nat.le_of_not_lt hc) hb
    rw [encodeOctet, CharClass.keepsOctet_of_le cls hle]
    rfl

theorem encode_cons (cls : CharClass) (c : Char) (t : Text) :
    encode cls (c :: t) = encodeChar cls c ++ encode cls t := by
  rw [encode, Utf8.encode_cons, List.flatMap_append, flatMap_encodeOctet_utf8EncodeChar]
  rfl

/-- Encoding the bytes of a text is encoding its characters. -/
theorem encode_eq_flatMap_encodeChar (cls : CharClass) (t : Text) :
    encode cls t = t.flatMap (encodeChar cls) := by
  induction t with
  | nil => rfl
  | cons c t ih => rw [encode_cons, ih, List.flatMap_cons]

/-- A character is kept exactly when the class contains it. -/
theorem encode_singleton_eq_self {c : Char} : encode cls [c] = [c] ↔ cls.contains c = true := by
  rw [encode_cons, encode_nil, List.append_nil, encodeChar]
  constructor
  · intro h
    by_contra hkept
    rw [if_neg hkept] at h
    cases hform : String.utf8EncodeChar c with
    | nil => simp [hform] at h
    | cons b bs => simp [hform, triplet] at h
  · intro h
    rw [if_pos h]

end Percent

/-! ## The text of an atom -/

/-- The ranges of characters that a bracket expression lists. -/
abbrev Ranges := List (Char × Char)

namespace Ranges

/-- Whether a character is in one of the ranges. -/
def covers (ranges : Ranges) (c : Char) : Bool :=
  ranges.any fun (first, last) => decide (first ≤ c) && decide (c ≤ last)

/-- Reads a bracket expression after its opening bracket, and returns the text after
it.  A character after a backslash stands for itself, and so does every other one
that has no `-` after it. -/
def read? : Text → Option (Ranges × Text)
  | [] => none
  | ']' :: rest => some ([], rest)
  | '\\' :: c :: rest => (read? rest).map fun (ranges, rest) => ((c, c) :: ranges, rest)
  | first :: '-' :: last :: rest =>
    (read? rest).map fun (ranges, rest) => ((first, last) :: ranges, rest)
  | c :: rest => (read? rest).map fun (ranges, rest) => ((c, c) :: ranges, rest)

/-- Reads the regex of an atom: the characters that stand for themselves, and those
that are digits of a triplet. -/
def readAtom? (t : Text) : Option (Ranges × Ranges) := do
  let (kept, t) ← read? (← Text.stripFront "(?:[".toList t)
  let (digits, t) ← read? (← Text.stripFront "|%[".toList t)
  if t = "\x7b2\x7d)".toList then some (kept, digits) else none

theorem covers_append (ranges ranges' : Ranges) (c : Char) :
    covers (ranges ++ ranges') c = (ranges.covers c || ranges'.covers c) :=
  List.any_append

theorem covers_singles (marks : List Char) (c : Char) :
    covers (marks.map fun c => (c, c)) c = marks.contains c := by
  rw [covers, List.any_map, Bool.eq_iff_iff, List.any_eq_true, List.contains_iff_mem]
  constructor
  · rintro ⟨d, hd, h⟩
    simp only [Function.comp_apply, Bool.and_eq_true, decide_eq_true_eq] at h
    rwa [← Char.le_antisymm h.1 h.2]
  · intro h
    exact ⟨c, h, by simp⟩

theorem covers_alphanum (c : Char) :
    covers [('A', 'Z'), ('a', 'z'), ('0', '9')] c = c.isAlphanum := by
  rw [Bool.eq_iff_iff]
  show _ ↔ (decide (65 ≤ c.val ∧ c.val ≤ 90) || decide (97 ≤ c.val) && decide (c.val ≤ 122) ||
    decide (48 ≤ c.val) && decide (c.val ≤ 57)) = true
  simp only [covers, List.any_cons, List.any_nil, Bool.or_false, Bool.or_eq_true,
    Bool.and_eq_true, decide_eq_true_eq, or_assoc]
  exact Iff.rfl

theorem covers_hexDigits (c : Char) :
    covers [('0', '9'), ('A', 'F'), ('a', 'f')] c = isHexDigit c := by
  have hcovers : covers [('0', '9'), ('A', 'F'), ('a', 'f')] c = true ↔
      ('0' ≤ c ∧ c ≤ '9') ∨ ('A' ≤ c ∧ c ≤ 'F') ∨ ('a' ≤ c ∧ c ≤ 'f') := by
    simp only [covers, List.any_cons, List.any_nil, Bool.or_false, Bool.or_eq_true,
      Bool.and_eq_true, decide_eq_true_eq]
  rw [Bool.eq_iff_iff, hcovers, isHexDigit, hexValue?]
  split
  · rename_i hdigit
    exact iff_of_true (.inl hdigit) rfl
  split
  · rename_i hupper
    exact iff_of_true (.inr (.inl hupper)) rfl
  split
  · rename_i hlower
    exact iff_of_true (.inr (.inr hlower)) rfl
  · rename_i hdigit hupper hlower
    have hnone : ¬(('0' ≤ c ∧ c ≤ '9') ∨ ('A' ≤ c ∧ c ≤ 'F') ∨ ('a' ≤ c ∧ c ≤ 'f')) := by
      rintro (h | h | h)
      · exact hdigit h
      · exact hupper h
      · exact hlower h
    exact iff_of_false hnone (by simp)

end Ranges

namespace CharClass

/-- Whether a text is matched by the regex of an atom, as that regex is written. -/
def MatchesAtom (cls : CharClass) (w : Text) : Prop :=
  ∃ kept digits, Ranges.readAtom? cls.atomText = some (kept, digits) ∧
    ((∃ c, kept.covers c = true ∧ w = [c]) ∨
      ∃ high low, digits.covers high = true ∧ digits.covers low = true ∧ w = ['%', high, low])

/-- The bracket expression of a class lists letters, digits and its marks. -/
theorem readAtom?_atomText (cls : CharClass) :
    Ranges.readAtom? cls.atomText =
      some ([('A', 'Z'), ('a', 'z'), ('0', '9')] ++ cls.marks.map fun c => (c, c),
        [('0', '9'), ('A', 'F'), ('a', 'f')]) := by
  cases cls <;> rfl

/-- The atoms of a class are what the regex of an atom matches. -/
theorem matchesAtom_iff {cls : CharClass} {w : Text} : cls.MatchesAtom w ↔ Atom cls w := by
  have hkept (c : Char) : Ranges.covers
      ([('A', 'Z'), ('a', 'z'), ('0', '9')] ++ cls.marks.map fun c => (c, c)) c =
        cls.contains c := by
    rw [Ranges.covers_append, Ranges.covers_alphanum, Ranges.covers_singles, contains_eq_marks]
  constructor
  · rintro ⟨kept, digits, hread, h⟩
    rw [readAtom?_atomText, Option.some.injEq, Prod.mk.injEq] at hread
    obtain ⟨rfl, rfl⟩ := hread
    rcases h with ⟨c, hc, rfl⟩ | ⟨high, low, hhigh, hlow, rfl⟩
    · rw [hkept] at hc
      exact .kept hc
    · rw [Ranges.covers_hexDigits] at hhigh hlow
      exact .triplet hhigh hlow
  · intro h
    refine ⟨_, _, readAtom?_atomText cls, ?_⟩
    cases h with
    | @kept c hc => exact .inl ⟨c, by rw [hkept, hc], rfl⟩
    | @triplet high low hhigh hlow =>
      refine .inr ⟨high, low, ?_, ?_, rfl⟩
      · rw [Ranges.covers_hexDigits, hhigh]
      · rw [Ranges.covers_hexDigits, hlow]

/-- Whether a text is matched by an atom repeated any number of times. -/
def MatchesAtoms (cls : CharClass) (w : Text) : Prop :=
  ∃ atoms : List Text, (∀ atom ∈ atoms, cls.MatchesAtom atom) ∧ atoms.flatten = w

theorem matchesAtoms_iff {cls : CharClass} {w : Text} :
    cls.MatchesAtoms w ↔ ∃ n, AtomRow cls n w := by
  constructor
  · rintro ⟨atoms, hatoms, rfl⟩
    induction atoms with
    | nil => exact ⟨0, .nil⟩
    | cons atom atoms ih =>
      obtain ⟨n, hrow⟩ := ih fun a ha => hatoms a (List.mem_cons_of_mem _ ha)
      exact ⟨n + 1, .cons (matchesAtom_iff.1 (hatoms atom List.mem_cons_self)) hrow⟩
  · rintro ⟨n, hrow⟩
    induction hrow with
    | nil => exact ⟨[], by simp, rfl⟩
    | @cons n atom row hatom _ ih =>
      obtain ⟨atoms, hatoms, rfl⟩ := ih
      exact ⟨atom :: atoms, List.forall_mem_cons.2 ⟨matchesAtom_iff.2 hatom, hatoms⟩, rfl⟩

end CharClass

/-! ## Canonical spellings -/

namespace Percent

variable {cls : CharClass}

/-- A digit as encoding writes it. -/
def isUpperHexDigit (c : Char) : Bool :=
  decide ('0' ≤ c ∧ c ≤ '9') || decide ('A' ≤ c ∧ c ≤ 'F')

/-- Whether a triplet is in upper-case digits and spells no character that the class
keeps. -/
def IsCanonicalTriplet (cls : CharClass) (high low : Char) : Prop :=
  isUpperHexDigit high = true ∧ isUpperHexDigit low = true ∧
    ∀ c, decode ['%', high, low] = some [c] → cls.contains c = false

/-- Whether all triplets of a text are as encoding writes them. -/
def IsCanonical (cls : CharClass) (w : Text) : Prop :=
  ∀ front high low back, w = front ++ '%' :: high :: low :: back → IsCanonicalTriplet cls high low

theorem isCanonical_nil : IsCanonical cls [] := by
  intro front high low back h
  simp at h

theorem isCanonical_cons_of_ne {c : Char} (hc : c ≠ '%') {w : Text} :
    IsCanonical cls (c :: w) ↔ IsCanonical cls w := by
  constructor
  · intro h front high low back hw
    exact h (c :: front) high low back (by rw [hw]; rfl)
  · intro h front high low back hw
    cases front with
    | nil => exact absurd (List.cons.inj hw).1 hc
    | cons d front => exact h front high low back (List.cons.inj hw).2

theorem isCanonical_triplet_append {high low : Char} (hhigh : isHexDigit high = true)
    (hlow : isHexDigit low = true) {w : Text} :
    IsCanonical cls ('%' :: high :: low :: w) ↔
      IsCanonicalTriplet cls high low ∧ IsCanonical cls w := by
  have hne {c : Char} (hc : isHexDigit c = true) : c ≠ '%' := by
    rintro rfl
    cases hc
  constructor
  · intro h
    refine ⟨h [] high low w rfl, fun front high' low' back hw => ?_⟩
    exact h ('%' :: high :: low :: front) high' low' back (by rw [hw]; rfl)
  · rintro ⟨htriplet, hrest⟩ front high' low' back hw
    cases front with
    | nil =>
      simp only [List.nil_append, List.cons.injEq, true_and] at hw
      obtain ⟨rfl, rfl, -⟩ := hw
      exact htriplet
    | cons d front =>
      rw [← isCanonical_cons_of_ne (hne hlow), ← isCanonical_cons_of_ne (hne hhigh)] at hrest
      exact hrest front high' low' back (List.cons.inj hw).2

/-! ## The bytes of canonical rows -/

theorem toNat_lt_of_isHexDigit {c : Char} (h : isHexDigit c = true) : c.toNat < 128 := by
  by_contra hge
  have hle {d : Char} (hd : d.toNat < 128) : ¬c ≤ d := by
    intro hc
    have : c.toNat ≤ d.toNat := UInt32.le_iff_toNat_le.1 (Char.le_def.1 hc)
    omega
  rw [isHexDigit, hexValue?, if_neg fun hc => hle (by decide) hc.2,
    if_neg fun hc => hle (by decide) hc.2, if_neg fun hc => hle (by decide) hc.2] at h
  cases h

/-- The digits of either case are ASCII characters, so they are looked through one by
one. -/
theorem hexValue?_bounds {c : Char} {n : Nat} (h : hexValue? c = some n) :
    n < 16 ∧ (hexDigit n = c ↔ isUpperHexDigit c = true) := by
  have hall : ∀ k < 128, ∀ n ∈ hexValue? (Char.ofNat k),
      n < 16 ∧ (hexDigit n = Char.ofNat k ↔ isUpperHexDigit (Char.ofNat k) = true) := by
    decide
  have hlt : c.toNat < 128 := toNat_lt_of_isHexDigit (by rw [isHexDigit, h]; rfl)
  have hc := hall c.toNat hlt n
  rw [Char.ofNat_toNat] at hc
  exact hc h

/-- No class has a digit of a triplet encoded. -/
theorem isUnreserved_of_isHexDigit {c : Char} (h : isHexDigit c = true) :
    isUnreserved c = true := by
  have hall : ∀ k < 128, isHexDigit (Char.ofNat k) = true → isUnreserved (Char.ofNat k) = true := by
    decide
  have hc := hall c.toNat (toNat_lt_of_isHexDigit h)
  rw [Char.ofNat_toNat] at hc
  exact hc h

theorem exists_byte? {high low : Char} (hhigh : isHexDigit high = true)
    (hlow : isHexDigit low = true) : ∃ b, byte? high low = some b := by
  obtain ⟨m, hm⟩ := Option.isSome_iff_exists.1 hhigh
  obtain ⟨n, hn⟩ := Option.isSome_iff_exists.1 hlow
  exact ⟨UInt8.ofNat (16 * m + n), by rw [byte?, hm, hn]; rfl⟩

theorem bytes_cons_triplet {high low : Char} {b : UInt8} (hb : byte? high low = some b)
    (t : Text) : bytes ('%' :: high :: low :: t) = b :: bytes t := by
  rw [bytes, hb]

/-- The byte of two digits is written in the same digits if they are upper-case. -/
theorem triplet_eq_iff {high low : Char} {b : UInt8} (hb : byte? high low = some b) :
    triplet b = ['%', high, low] ↔
      isUpperHexDigit high = true ∧ isUpperHexDigit low = true := by
  simp only [byte?, Option.bind_eq_bind, Option.bind_eq_some_iff, Option.pure_def,
    Option.some.injEq] at hb
  obtain ⟨m, hm, n, hn, rfl⟩ := hb
  obtain ⟨hmlt, hmupper⟩ := hexValue?_bounds hm
  obtain ⟨hnlt, hnupper⟩ := hexValue?_bounds hn
  have hbyte : (UInt8.ofNat (16 * m + n)).toNat = 16 * m + n :=
    UInt8.toNat_ofNat_of_lt' (show 16 * m + n < 256 by omega)
  rw [triplet, hbyte, show (16 * m + n) / 16 = m by omega, show (16 * m + n) % 16 = n by omega]
  simp only [List.cons.injEq, and_true, true_and]
  rw [hmupper, hnupper]

/-- A triplet spells a character that the class keeps exactly when the encoder keeps
its byte. -/
theorem keepsOctet_eq_false_iff {high low : Char} {b : UInt8} (hb : byte? high low = some b) :
    cls.keepsOctet b = false ↔
      ∀ c, decode ['%', high, low] = some [c] → cls.contains c = false := by
  have hbytes : bytes ['%', high, low] = [b] := bytes_cons_triplet hb []
  rw [decode, hbytes]
  constructor
  · intro hkeeps c hc
    have hform : String.utf8EncodeChar c = [b] := by
      have hencode := Utf8.encode_of_decode hc
      rwa [Utf8.encode_cons, Utf8.encode_nil, List.append_nil] at hencode
    by_contra hcontains
    have hself : encodeChar cls c = [c] := by
      rw [encodeChar, if_pos (by simpa using hcontains)]
    rw [← flatMap_encodeOctet_utf8EncodeChar, hform, List.flatMap_singleton, encodeOctet,
      if_neg (by simp [hkeeps])] at hself
    simp [triplet] at hself
  · intro hspells
    by_contra hkeeps
    obtain ⟨hlt, hcontains⟩ := CharClass.contains_of_keepsOctet (by simpa using hkeeps)
    have hnumber := toNat_ofNat_of_lt hlt
    have hread : Utf8.decode [b] = some [Char.ofNat b.toNat] := by
      rw [Utf8.decode_one hlt, Utf8.scalar?_toNat hnumber.symm (Nat.zero_le _)]
      rfl
    rw [hspells _ hread] at hcontains
    cases hcontains

/-- The bytes of a row, encoded one by one, are the row itself exactly when the row is
canonical.  The induction is on the atoms, each of which is one byte. -/
theorem AtomRow.flatMap_encodeOctet_eq_iff {n : Nat} {w : Text} (h : AtomRow cls n w) :
    (bytes w).flatMap (encodeOctet cls) = w ↔ IsCanonical cls w := by
  induction h with
  | nil => exact iff_of_true rfl isCanonical_nil
  | @cons n atom row hatom _ ih =>
    cases hatom with
    | @kept c hc =>
      have hne := CharClass.ne_percent_of_contains hc
      have hself : (String.utf8EncodeChar c).flatMap (encodeOctet cls) = [c] := by
        rw [flatMap_encodeOctet_utf8EncodeChar, encodeChar, if_pos hc]
      rw [List.singleton_append, bytes_cons_of_ne hne, List.flatMap_append, hself,
        isCanonical_cons_of_ne hne, ← ih, List.singleton_append, List.cons.injEq]
      exact and_iff_right rfl
    | @triplet high low hhigh hlow =>
      obtain ⟨b, hb⟩ := exists_byte? hhigh hlow
      have htriplet : encodeOctet cls b = ['%', high, low] ↔ IsCanonicalTriplet cls high low := by
        rw [IsCanonicalTriplet, ← keepsOctet_eq_false_iff hb, ← and_assoc, ← triplet_eq_iff hb,
          encodeOctet]
        cases cls.keepsOctet b <;> simp
      show (bytes ('%' :: high :: low :: row)).flatMap (encodeOctet cls) = _ ↔
        IsCanonical cls ('%' :: high :: low :: row)
      rw [bytes_cons_triplet hb, List.flatMap_cons, isCanonical_triplet_append hhigh hlow,
        ← htriplet, ← ih]
      constructor
      · intro heq
        have hkeeps : cls.keepsOctet b = false := by
          by_contra hkeeps
          have hkept : cls.keepsOctet b = true := by simpa using hkeeps
          obtain ⟨-, hcontains⟩ := CharClass.contains_of_keepsOctet hkept
          rw [encodeOctet, if_pos hkept] at heq
          rw [(List.cons.inj heq).1, CharClass.not_contains_percent] at hcontains
          cases hcontains
        have hlength : (encodeOctet cls b).length = ['%', high, low].length := by
          rw [encodeOctet, if_neg (by simp [hkeeps])]
          rfl
        exact List.append_inj heq hlength
      · rintro ⟨hatom, hrow⟩
        rw [hatom, hrow]

/-- Of the spellings of a text, the one that encoding chooses is the canonical one. -/
theorem encode_eq_iff_isCanonical {n : Nat} {s w : Text} (hrow : AtomRow cls n w)
    (hdecode : decode w = some s) : encode cls s = w ↔ IsCanonical cls w := by
  rw [encode, Utf8.encode_of_decode hdecode]
  exact hrow.flatMap_encodeOctet_eq_iff

end Percent

/-- A slot takes a whole row of atoms when nothing follows. -/
theorem Regex.match?_slot {x : Slot} (hcount : x.count = .any) {n : Nat} {w : Text}
    (hrow : AtomRow x.charClass n w) : Regex.match? [.slot x] w = some [(x, w)] := by
  have hrun : x.run (Regex.run []) (w ++ []) = some (w, []) := by
    rw [Slot.run, hcount]
    exact Slot.longest_append hrow rfl rfl
  rw [List.append_nil] at hrun
  rw [Regex.match?_eq, Regex.run, Item.run, hrun]
  rfl

/-! ## Encoding -/

namespace Percent

/-- An encoded text is, character by character, the character if the class contains it
and upper-case triplets of its bytes if not.  The encoder finds it by going through the
bytes under its own list of marks.  It decodes to the text, and the regex of an atom,
repeated, matches the whole of it.  Of the rows of atoms that decode to the text it is
the one in which each triplet is in upper-case digits and spells no character that the
class contains. -/
theorem encode_eq_canonical_spelling (cls : CharClass) (s : Text) :
    (encode cls s = s.flatMap fun c =>
      if cls.contains c then [c] else (String.utf8EncodeChar c).flatMap triplet) ∧
    (∀ c, encode cls [c] = [c] ↔ cls.contains c = true) ∧
    encode cls s = (Utf8.encode s).flatMap (encodeOctet cls) ∧
    decode (encode cls s) = some s ∧
    cls.MatchesAtoms (encode cls s) ∧
    (∀ x : Slot, x.charClass = cls → x.count = .any →
      Regex.match? [.slot x] (encode cls s) = some [(x, encode cls s)]) ∧
    ∀ w, cls.MatchesAtoms w → decode w = some s → (encode cls s = w ↔ IsCanonical cls w) := by
  have hrow := atomRow_encode cls s
  refine ⟨encode_eq_flatMap_encodeChar cls s, fun _ => encode_singleton_eq_self, rfl,
    decode_encode cls s, CharClass.matchesAtoms_iff.2 ⟨_, hrow⟩, ?_, ?_⟩
  · rintro x rfl hcount
    exact Regex.match?_slot hcount hrow
  · intro w hw hdecode
    obtain ⟨m, hatoms⟩ := CharClass.matchesAtoms_iff.1 hw
    exact encode_eq_iff_isCanonical hatoms hdecode

/-- A spelling with one lower-case digit and one triplet for a kept character is not the
one that encoding chooses. -/
theorem encode_eq_canonical_spelling_lower_case :
    CharClass.unreserved.MatchesAtoms "%c3%A9%7E".toList ∧
      decode "%c3%A9%7E".toList = some "é~".toList ∧
      ¬IsCanonical .unreserved "%c3%A9%7E".toList ∧ IsCanonical .unreserved "%C3%A9~".toList := by
  have htriplet {high low : Char} (hhigh : isHexDigit high = true) (hlow : isHexDigit low = true) :
      CharClass.unreserved.MatchesAtom ['%', high, low] :=
    CharClass.matchesAtom_iff.2 (.triplet hhigh hlow)
  have hother : CharClass.unreserved.MatchesAtoms "%c3%A9%7E".toList :=
    ⟨["%c3".toList, "%A9".toList, "%7E".toList],
      by simpa using ⟨htriplet rfl rfl, htriplet rfl rfl, htriplet rfl rfl⟩, rfl⟩
  have hdecode : decode "%c3%A9%7E".toList = some "é~".toList := by decide +kernel
  have hencode : encode .unreserved "é~".toList = "%C3%A9~".toList := by decide +kernel
  obtain ⟨-, -, -, hself, hatoms, -, hiff⟩ := encode_eq_canonical_spelling .unreserved "é~".toList
  have hother' := hiff _ hother hdecode
  have hself' := hiff _ hatoms hself
  rw [hencode] at hother' hself'
  exact ⟨hother, hdecode, fun h => absurd (hother'.2 h) (by decide), hself'.1 rfl⟩

end Percent

end UriTemplate
