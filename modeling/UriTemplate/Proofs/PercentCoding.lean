import UriTemplate.Percent.Atom

/-!
# Percent-encoded texts

What is known of an encoded value.  It is a row of atoms, each atom is one byte,
and the bytes are the UTF-8 form of the value.

* `Utf8.decode_encode`: bytes that write a text are read as that text.
* `CharClass.contains_eq_marks`: the marks of the encoder are the ones of the class.
* `Percent.decode_encode`: an encoded text is decoded to the text, under either class.
* `AtomRow` and `takeAtom?_eq_some`: the atom that a text begins with is the only
  one that it can begin with, as no class keeps `%`.
* `AtomRow.length_decode_le`: a value has at most as many characters as its
  encoded form has atoms.
-/

namespace UriTemplate

/-! ## Bytes of texts -/

namespace Utf8

/-- A character is read from its number, if it needs as many bytes as the number
is written in. -/
theorem scalar?_toNat {least n : Nat} {c : Char} (hn : n = c.toNat) (hleast : least ≤ n) :
    scalar? least n = some c := by
  subst hn
  have hvalid : c.toNat.isValidChar := c.valid
  have hchar := Char.ofNat_toNat c
  rw [Char.ofNat, dif_pos hvalid] at hchar
  rw [scalar?, dif_pos ⟨hvalid, hleast⟩, hchar]

theorem continuation?_ofNat {n : Nat} (hn : n < 64) :
    continuation? (UInt8.ofNat (n + 0x80)) = some n := by
  have hbyte : (UInt8.ofNat (n + 0x80)).toNat = n + 0x80 :=
    UInt8.toNat_ofNat_of_lt' (show n + 0x80 < 256 by omega)
  rw [continuation?, hbyte, if_pos (by omega), Nat.add_sub_cancel]

theorem decode_one {a : UInt8} (ha : a.toNat < 0x80) (bs : List UInt8) :
    decode (a :: bs) = consed (scalar? 0 a.toNat) (decode bs) := by
  rw [decode.eq_def]
  dsimp only
  rw [if_pos ha]

theorem decode_two {a b : UInt8} (h₁ : 0x80 ≤ a.toNat) (h₂ : a.toNat < 0xE0) (bs : List UInt8) :
    decode (a :: b :: bs) = consed (two? a b) (decode bs) := by
  rw [decode.eq_def]
  dsimp only
  rw [if_neg (by omega), if_pos h₂]

theorem decode_three {a b c : UInt8} (h₁ : 0xE0 ≤ a.toNat) (h₂ : a.toNat < 0xF0)
    (bs : List UInt8) : decode (a :: b :: c :: bs) = consed (three? a b c) (decode bs) := by
  rw [decode.eq_def]
  dsimp only
  rw [if_neg (by omega), if_neg (by omega), if_pos h₂]

theorem decode_four {a b c d : UInt8} (h : 0xF0 ≤ a.toNat) (bs : List UInt8) :
    decode (a :: b :: c :: d :: bs) = consed (four? a b c d) (decode bs) := by
  rw [decode.eq_def]
  dsimp only
  rw [if_neg (by omega), if_neg (by omega), if_neg (by omega)]

/-- A character is read from the bytes that write it, whatever follows.  The four
cases are the four lengths of its form. -/
theorem decode_utf8EncodeChar_append (c : Char) (bs : List UInt8) :
    decode (String.utf8EncodeChar c ++ bs) = consed (some c) (decode bs) := by
  have hlt : c.toNat < 0x110000 := by
    have hvalid : c.toNat.isValidChar := c.valid
    unfold Nat.isValidChar at hvalid
    omega
  have hbyte (n : Nat) (hn : n < 256) : (UInt8.ofNat n).toNat = n :=
    UInt8.toNat_ofNat_of_lt' hn
  have hval : c.val.toNat = c.toNat := rfl
  unfold String.utf8EncodeChar
  rw [hval]
  dsimp only
  split
  · rename_i h1
    rw [List.singleton_append, decode_one (by rw [hbyte _ (by omega)]; omega),
      hbyte _ (by omega), scalar?_toNat rfl (Nat.zero_le _)]
  split
  · rename_i h1 h2
    have hlead := hbyte (c.toNat / 64 % 0x20 + 0xC0) (by omega)
    rw [List.cons_append, List.singleton_append,
      decode_two (by rw [hlead]; omega) (by rw [hlead]; omega), two?,
      continuation?_ofNat (by omega), hlead]
    simp only [Option.bind_eq_bind, Option.bind_some]
    rw [if_pos (by omega), scalar?_toNat (c := c) (by omega) (by omega)]
  split
  · rename_i h1 h2 h3
    have hlead := hbyte (c.toNat / 4096 % 0x10 + 0xE0) (by omega)
    rw [List.cons_append, List.cons_append, List.singleton_append,
      decode_three (by rw [hlead]; omega) (by rw [hlead]; omega), three?,
      continuation?_ofNat (by omega), continuation?_ofNat (by omega), hlead]
    simp only [Option.bind_eq_bind, Option.bind_some]
    rw [scalar?_toNat (c := c) (by omega) (by omega)]
  · rename_i h1 h2 h3
    have hlead := hbyte (c.toNat / 262144 % 0x08 + 0xF0) (by omega)
    rw [List.cons_append, List.cons_append, List.cons_append, List.singleton_append,
      decode_four (by rw [hlead]; omega), four?, continuation?_ofNat (by omega),
      continuation?_ofNat (by omega), continuation?_ofNat (by omega), hlead]
    simp only [Option.bind_eq_bind, Option.bind_some]
    rw [scalar?_toNat (c := c) (by omega) (by omega)]

@[simp] theorem decode_encode (t : Text) : decode (encode t) = some t := by
  induction t with
  | nil => rfl
  | cons c t ih =>
    rw [encode_cons, decode_utf8EncodeChar_append, ih]
    rfl

theorem consed_eq_some {c : Option Char} {rest : Option Text} {t : Text} :
    consed c rest = some t ↔ ∃ d u, c = some d ∧ rest = some u ∧ t = d :: u := by
  constructor
  · intro h
    simp only [consed, Option.bind_eq_bind, Option.bind_eq_some_iff, Option.pure_def,
      Option.some.injEq] at h
    obtain ⟨d, hd, u, hu, rfl⟩ := h
    exact ⟨d, u, hd, hu, rfl⟩
  · rintro ⟨d, u, rfl, rfl, rfl⟩
    rfl

/-- A text has no more characters than bytes. -/
theorem length_le_of_decode {bs : List UInt8} {t : Text} (h : decode bs = some t) :
    t.length ≤ bs.length := by
  fun_induction decode bs generalizing t with
  | case1 =>
    obtain rfl : [] = t := by simpa using h
    simp
  | case2 a s _ ih =>
    obtain ⟨d, u, -, hu, rfl⟩ := consed_eq_some.1 h
    have := ih hu
    simp only [List.length_cons]
    omega
  | case3 => cases h
  | case4 a _ b s _ ih =>
    obtain ⟨d, u, -, hu, rfl⟩ := consed_eq_some.1 h
    have := ih hu
    simp only [List.length_cons]
    omega
  | case5 => cases h
  | case6 a _ b _ c s _ ih =>
    obtain ⟨d, u, -, hu, rfl⟩ := consed_eq_some.1 h
    have := ih hu
    simp only [List.length_cons]
    omega
  | case7 => cases h
  | case8 a _ b _ c _ d s ih =>
    obtain ⟨d, u, -, hu, rfl⟩ := consed_eq_some.1 h
    have := ih hu
    simp only [List.length_cons]
    omega

end Utf8

/-! ## Kept bytes -/

/-- A character of ASCII is one byte. -/
theorem Utf8.utf8EncodeChar_of_lt {c : Char} (hc : c.toNat < 0x80) :
    String.utf8EncodeChar c = [UInt8.ofNat c.toNat] := by
  have hle : c.val.toNat ≤ 0x7F := Nat.le_of_lt_succ hc
  rw [String.utf8EncodeChar, if_pos hle]
  rfl

theorem toNat_ofNat_of_lt {n : Nat} (hn : n < 0x80) : (Char.ofNat n).toNat = n := by
  have hvalid : n.isValidChar := .inl (by omega)
  rw [Char.ofNat, dif_pos hvalid]
  rfl

theorem Utf8.utf8EncodeChar_ofNat {b : UInt8} (hb : b.toNat < 0x80) :
    String.utf8EncodeChar (Char.ofNat b.toNat) = [b] := by
  have hnumber := toNat_ofNat_of_lt hb
  rw [utf8EncodeChar_of_lt (by rwa [hnumber]), hnumber, UInt8.ofNat_toNat]

namespace CharClass

/-- The marks of the encoder are those that the class contains. -/
theorem contains_eq_marks (cls : CharClass) (c : Char) :
    cls.contains c = (c.isAlphanum || cls.marks.contains c) := by
  rw [Bool.eq_iff_iff]
  cases cls <;>
    simp [contains, isUnreserved, isReserved, marks, unreservedMarks, extendedMarks, or_assoc]

theorem keepsOctet_eq_contains (cls : CharClass) {b : UInt8} (hb : b.toNat < 0x80) :
    cls.keepsOctet b = cls.contains (Char.ofNat b.toNat) := by
  rw [keepsOctet, contains_eq_marks, decide_eq_true hb, Bool.true_and]

theorem keepsOctet_of_le (cls : CharClass) {b : UInt8} (hb : 0x80 ≤ b.toNat) :
    cls.keepsOctet b = false := by
  rw [keepsOctet, decide_eq_false (by omega), Bool.false_and]

/-- A byte that the encoder keeps is a character that the class contains. -/
theorem contains_of_keepsOctet {cls : CharClass} {b : UInt8} (h : cls.keepsOctet b = true) :
    b.toNat < 0x80 ∧ cls.contains (Char.ofNat b.toNat) = true := by
  have hlt : b.toNat < 0x80 := by
    rw [keepsOctet, Bool.and_eq_true, decide_eq_true_eq] at h
    exact h.1
  exact ⟨hlt, by rw [← keepsOctet_eq_contains cls hlt, h]⟩

end CharClass

/-! ## Triplets and kept characters -/

namespace Percent

theorem hexValue?_hexDigit {n : Nat} (hn : n < 16) : hexValue? (hexDigit n) = some n := by
  have hall : ∀ n < 16, hexValue? (hexDigit n) = some n := by decide
  exact hall n hn

theorem isHexDigit_hexDigit {n : Nat} (hn : n < 16) : isHexDigit (hexDigit n) = true := by
  rw [isHexDigit, hexValue?_hexDigit hn]
  rfl

theorem byte?_hexDigit (b : UInt8) :
    byte? (hexDigit (b.toNat / 16)) (hexDigit (b.toNat % 16)) = some b := by
  have hb : b.toNat < 256 := b.toNat_lt
  rw [byte?, hexValue?_hexDigit (by omega), hexValue?_hexDigit (by omega)]
  simp only [Option.bind_eq_bind, Option.bind_some, Option.pure_def, Option.some.injEq]
  rw [show 16 * (b.toNat / 16) + b.toNat % 16 = b.toNat by omega]
  exact UInt8.ofNat_toNat

theorem bytes_triplet_append (b : UInt8) (t : Text) :
    bytes (triplet b ++ t) = b :: bytes t := by
  rw [triplet, List.cons_append, List.cons_append, List.singleton_append, bytes, byte?_hexDigit]

theorem bytes_cons_of_ne {c : Char} (hc : c ≠ '%') (t : Text) :
    bytes (c :: t) = String.utf8EncodeChar c ++ bytes t := by
  rw [bytes]
  intro high low rest heq _
  exact hc heq

/-- What is written for a byte is read as that byte. -/
theorem bytes_encodeOctet_append (cls : CharClass) (b : UInt8) (t : Text) :
    bytes (encodeOctet cls b ++ t) = b :: bytes t := by
  unfold encodeOctet
  split
  · rename_i hkept
    obtain ⟨hb, hc⟩ := CharClass.contains_of_keepsOctet hkept
    rw [List.singleton_append, bytes_cons_of_ne (CharClass.ne_percent_of_contains hc),
      Utf8.utf8EncodeChar_ofNat hb, List.singleton_append]
  · exact bytes_triplet_append b t

theorem bytes_flatMap_encodeOctet (cls : CharClass) (bs : List UInt8) :
    bytes (bs.flatMap (encodeOctet cls)) = bs := by
  induction bs with
  | nil => rfl
  | cons b bs ih => rw [List.flatMap_cons, bytes_encodeOctet_append, ih]

theorem bytes_encode (cls : CharClass) (t : Text) : bytes (encode cls t) = Utf8.encode t :=
  bytes_flatMap_encodeOctet cls (Utf8.encode t)

/-- An encoded text is decoded to itself, under either class. -/
@[simp] theorem decode_encode (cls : CharClass) (t : Text) : decode (encode cls t) = some t := by
  rw [decode, bytes_encode, Utf8.decode_encode]

theorem encode_eq_nil {cls : CharClass} {t : Text} : encode cls t = [] ↔ t = [] := by
  constructor
  · intro h
    have hdecode := decode_encode cls t
    rw [h] at hdecode
    exact (Option.some.inj hdecode).symm
  · rintro rfl
    rfl

/-! ## Rows of atoms -/

/-- One character of an encoded value: one that the class keeps, or a triplet. -/
inductive Atom (cls : CharClass) : Text → Prop where
  /-- A character that stands for itself. -/
  | kept {c : Char} (hc : cls.contains c = true) : Atom cls [c]
  /-- A byte in digits of either case. -/
  | triplet {high low : Char} (hhigh : isHexDigit high = true) (hlow : isHexDigit low = true) :
    Atom cls ['%', high, low]

/-- A number of atoms one after another. -/
inductive AtomRow (cls : CharClass) : Nat → Text → Prop where
  | nil : AtomRow cls 0 []
  | cons {n : Nat} {atom row : Text} (hatom : Atom cls atom) (hrow : AtomRow cls n row) :
    AtomRow cls (n + 1) (atom ++ row)

variable {cls : CharClass}

/-- A text begins with the atom that is taken off, and with no other. -/
theorem takeAtom?_eq_some {s atom rest : Text} :
    takeAtom? cls s = some (atom, rest) ↔ Atom cls atom ∧ s = atom ++ rest := by
  constructor
  · intro h
    unfold takeAtom? at h
    split at h
    · cases h
    · split at h
      · rename_i hc
        cases h
        exact ⟨.kept hc, rfl⟩
      · split at h
        · split at h
          · rename_i htriplet
            cases h
            obtain ⟨rfl, hhigh, hlow⟩ := htriplet
            exact ⟨.triplet hhigh hlow, rfl⟩
          · cases h
        · cases h
  · intro h
    obtain ⟨hatom, rfl⟩ := h
    rw [takeAtom?.eq_def]
    cases hatom with
    | kept hc => simp [hc]
    | triplet hhigh hlow => simp [hhigh, hlow]

theorem AtomRow.append {m n : Nat} {s t : Text} (hs : AtomRow cls m s) (ht : AtomRow cls n t) :
    AtomRow cls (m + n) (s ++ t) := by
  induction hs with
  | nil => rwa [Nat.zero_add, List.nil_append]
  | cons hatom _ ih =>
    rw [Nat.add_right_comm, List.append_assoc]
    exact .cons hatom ih

theorem takeAtoms?_eq_some {n : Nat} {s row rest : Text} :
    takeAtoms? cls n s = some (row, rest) ↔ AtomRow cls n row ∧ s = row ++ rest := by
  induction n generalizing s row with
  | zero =>
    rw [takeAtoms?]
    constructor
    · intro h
      cases h
      exact ⟨.nil, rfl⟩
    · intro h
      obtain ⟨hrow, rfl⟩ := h
      cases hrow
      rfl
  | succ n ih =>
    simp only [takeAtoms?, Option.bind_eq_bind, Option.bind_eq_some_iff, Option.pure_def,
      Option.some.injEq, Prod.exists, Prod.mk.injEq]
    constructor
    · intro h
      obtain ⟨atom, s', htake, row', rest', htakes, rfl, rfl⟩ := h
      obtain ⟨hatom, rfl⟩ := takeAtom?_eq_some.1 htake
      obtain ⟨hrow, rfl⟩ := ih.1 htakes
      exact ⟨.cons hatom hrow, by rw [List.append_assoc]⟩
    · intro h
      obtain ⟨hrow, rfl⟩ := h
      cases hrow with
      | @cons n atom row' hatom hrow =>
        refine ⟨atom, row' ++ rest, takeAtom?_eq_some.2 ⟨hatom, by rw [List.append_assoc]⟩,
          row', rest, ih.2 ⟨hrow, rfl⟩, rfl, rfl⟩

/-- What is written for a byte is one atom. -/
theorem atom_encodeOctet (cls : CharClass) (b : UInt8) : Atom cls (encodeOctet cls b) := by
  have hb : b.toNat < 256 := b.toNat_lt
  unfold encodeOctet
  split
  · rename_i hkept
    exact .kept (CharClass.contains_of_keepsOctet hkept).2
  · exact .triplet (isHexDigit_hexDigit (by omega)) (isHexDigit_hexDigit (by omega))

theorem atomRow_flatMap_encodeOctet (cls : CharClass) (bs : List UInt8) :
    AtomRow cls bs.length (bs.flatMap (encodeOctet cls)) := by
  induction bs with
  | nil => exact .nil
  | cons b bs ih => exact .cons (atom_encodeOctet cls b) ih

/-- An encoded text is a row of atoms, one for each byte. -/
theorem atomRow_encode (cls : CharClass) (t : Text) :
    AtomRow cls (Utf8.encode t).length (encode cls t) :=
  atomRow_flatMap_encodeOctet cls (Utf8.encode t)

/-! ## The number of characters of a row -/

theorem toNat_lt_of_isAlphanum {c : Char} (h : c.isAlphanum = true) : c.toNat < 128 := by
  change (decide (65 ≤ c.val ∧ c.val ≤ 90) ||
      decide (97 ≤ c.val) && decide (c.val ≤ 122) ||
      decide (48 ≤ c.val) && decide (c.val ≤ 57)) = true at h
  simp only [Bool.or_eq_true, Bool.and_eq_true, decide_eq_true_eq, UInt32.le_iff_toNat_le] at h
  change ((65 ≤ c.val.toNat ∧ c.val.toNat ≤ 90) ∨ (97 ≤ c.val.toNat ∧ c.val.toNat ≤ 122)) ∨
    (48 ≤ c.val.toNat ∧ c.val.toNat ≤ 57) at h
  change c.val.toNat < 128
  omega

theorem toNat_lt_of_contains {c : Char} (hc : cls.contains c = true) : c.toNat < 128 := by
  have hunreserved : isUnreserved c = true → c.toNat < 128 := by
    intro h
    simp only [isUnreserved, Bool.or_eq_true, beq_iff_eq] at h
    rcases h with (((h | rfl) | rfl) | rfl) | rfl
    · exact toNat_lt_of_isAlphanum h
    all_goals decide
  have hreserved : isReserved c = true → c.toNat < 128 := by
    intro h
    have hall : [':', '/', '?', '#', '[', ']', '@', '!', '$', '&', '\'', '(', ')', '*', '+',
        ',', ';', '='].all (fun d => decide (d.toNat < 128)) = true := rfl
    have hc := List.all_eq_true.1 hall c (List.contains_iff_mem.1 h)
    exact of_decide_eq_true hc
  cases cls with
  | unreserved => exact hunreserved hc
  | extended =>
    rcases Bool.or_eq_true _ _ ▸ hc with h | h
    · exact hunreserved h
    · exact hreserved h

/-- An atom is one byte. -/
theorem Atom.bytes_append {atom : Text} (h : Atom cls atom) (t : Text) :
    ∃ b, bytes (atom ++ t) = b :: bytes t := by
  cases h with
  | @kept c hc =>
    have hne := CharClass.ne_percent_of_contains hc
    refine ⟨UInt8.ofNat c.toNat, ?_⟩
    rw [List.singleton_append, bytes_cons_of_ne hne,
      Utf8.utf8EncodeChar_of_lt (toNat_lt_of_contains hc), List.singleton_append]
  | @triplet high low hhigh hlow =>
    obtain ⟨m, hm⟩ := Option.isSome_iff_exists.1 hhigh
    obtain ⟨n, hn⟩ := Option.isSome_iff_exists.1 hlow
    refine ⟨UInt8.ofNat (16 * m + n), ?_⟩
    have hbyte : byte? high low = some (UInt8.ofNat (16 * m + n)) := by
      rw [byte?, hm, hn]
      rfl
    rw [List.cons_append, List.cons_append, List.singleton_append, bytes, hbyte]

theorem AtomRow.length_bytes {n : Nat} {row : Text} (h : AtomRow cls n row) :
    (bytes row).length = n := by
  induction h with
  | nil => rfl
  | cons hatom _ ih =>
    obtain ⟨b, hb⟩ := hatom.bytes_append _
    rw [hb, List.length_cons, ih]

/-- A value has no more characters than its encoded form has atoms. -/
theorem AtomRow.length_decode_le {n : Nat} {row t : Text} (h : AtomRow cls n row)
    (hdecode : decode row = some t) : t.length ≤ n := by
  rw [← h.length_bytes]
  exact Utf8.length_le_of_decode hdecode

end Percent

end UriTemplate
