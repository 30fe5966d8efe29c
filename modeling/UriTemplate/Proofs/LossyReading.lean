import UriTemplate.Proofs.CharacterBounds

/-!
# Reading bytes that are no text

`Utf8.decodeLossy` reads a text as `Utf8.decode` does, and replaces what is none.  A byte
below 128 goes on with no character and is one alone, so a reading can be cut before each
of them.

* `Utf8.decodeLossy_of_decode`: what is a text is read as the text.
* `Utf8.decodeLossy_append_cons`: the cut before a byte below 128.
* `Utf8.prefix_decodeLossy_iff`: whether a reading begins with one of the first 128
  characters is seen in the first byte.
-/

namespace UriTemplate.Utf8

variable {a b c d : UInt8}

/-! ## Characters of several bytes -/

theorem isSome_scalar? {least n : Nat} :
    (scalar? least n).isSome = true ↔ n.isValidChar ∧ least ≤ n := by
  by_cases h : n.isValidChar ∧ least ≤ n
  · rw [scalar?, dif_pos h]
    exact iff_of_true rfl h
  · rw [scalar?, dif_neg h]
    exact iff_of_false Bool.false_ne_true h

theorem scalar?_zero_of_lt {n : Nat} (h : n < 0x80) : scalar? 0 n = some (Char.ofNat n) := by
  have hvalid : n.isValidChar := .inl (by omega)
  rw [scalar?, dif_pos ⟨hvalid, Nat.zero_le n⟩, Char.ofNat, dif_pos hvalid]

/-- Whether three bytes write a character does not hang on the last six bits. -/
theorem canBegin_of_three? {e : Char} (ha : a.toNat < 0xF0) (h : three? a b c = some e) :
    canBegin a b = true := by
  have hleast : continuation? 0x80 = some 0 := rfl
  simp only [three?, Option.bind_eq_bind, Option.bind_eq_some_iff] at h
  obtain ⟨y, hy, z, hz, he⟩ := h
  have hzlt := (continuation?_eq_some hz).2
  have hchar := isSome_scalar?.1 (Option.isSome_of_eq_some he)
  rw [canBegin, if_pos ha]
  simp only [three?, Option.bind_eq_bind, hy, hleast, Option.bind_some, isSome_scalar?]
  unfold Nat.isValidChar at hchar ⊢
  omega

/-- Whether four bytes write a character does not hang on the last twelve bits. -/
theorem canBegin_of_four? {e : Char} (ha : ¬a.toNat < 0xF0) (h : four? a b c d = some e) :
    canBegin a b = true := by
  have hleast : continuation? 0x80 = some 0 := rfl
  simp only [four?, Option.bind_eq_bind, Option.bind_eq_some_iff] at h
  obtain ⟨x, hx, y, hy, z, hz, he⟩ := h
  have hylt := (continuation?_eq_some hy).2
  have hzlt := (continuation?_eq_some hz).2
  have hchar := isSome_scalar?.1 (Option.isSome_of_eq_some he)
  rw [canBegin, if_neg ha]
  simp only [four?, Option.bind_eq_bind, hx, hleast, Option.bind_some, isSome_scalar?]
  unfold Nat.isValidChar at hchar ⊢
  omega

theorem isSome_continuation?_of_four? {e : Char} (h : four? a b c d = some e) :
    (continuation? c).isSome = true := by
  simp only [four?, Option.bind_eq_bind, Option.bind_eq_some_iff] at h
  obtain ⟨x, -, y, hy, -⟩ := h
  rw [hy, Option.isSome_some]

/-! ## Steps of a reading -/

theorem decodeLossy_one (h : a.toNat < 0x80) (bs : List UInt8) :
    decodeLossy (a :: bs) = Char.ofNat a.toNat :: decodeLossy bs := by
  rw [decodeLossy.eq_def]
  exact if_pos h

theorem decodeLossy_two (h₁ : ¬a.toNat < 0x80) (h₂ : a.toNat < 0xE0) (bs : List UInt8) :
    decodeLossy (a :: b :: bs) = match two? a b with
      | some d => d :: decodeLossy bs
      | none => replacement :: decodeLossy (b :: bs) := by
  rw [decodeLossy.eq_def]
  exact (if_neg h₁).trans (if_pos h₂)

theorem decodeLossy_three (h₁ : ¬a.toNat < 0xE0) (h₂ : canBegin a b = true)
    (h₃ : a.toNat < 0xF0) (bs : List UInt8) :
    decodeLossy (a :: b :: c :: bs) = match three? a b c with
      | some d => d :: decodeLossy bs
      | none => replacement :: decodeLossy (c :: bs) := by
  have h₀ : ¬a.toNat < 0x80 := by omega
  rw [decodeLossy.eq_def]
  exact (if_neg h₀).trans ((if_neg h₁).trans ((if_pos h₂).trans (if_pos h₃)))

theorem decodeLossy_four (h₁ : canBegin a b = true) (h₂ : ¬a.toNat < 0xF0)
    (h₃ : (continuation? c).isSome = true) (bs : List UInt8) :
    decodeLossy (a :: b :: c :: d :: bs) = match four? a b c d with
      | some e => e :: decodeLossy bs
      | none => replacement :: decodeLossy (d :: bs) := by
  have h₀ : ¬a.toNat < 0x80 ∧ ¬a.toNat < 0xE0 := by omega
  rw [decodeLossy.eq_def]
  exact (if_neg h₀.1).trans ((if_neg h₀.2).trans ((if_pos h₁).trans
    ((if_neg h₂).trans (if_pos h₃))))

/-- One byte that begins no character is replaced. -/
theorem decodeLossy_cut_one (h₁ : ¬a.toNat < 0xE0) (h₂ : ¬canBegin a b = true)
    (bs : List UInt8) : decodeLossy (a :: b :: bs) = replacement :: decodeLossy (b :: bs) := by
  rw [decodeLossy.eq_def]
  dsimp only
  rw [if_neg (by omega), if_neg h₁, if_neg h₂]

/-- Two bytes of a character of four are replaced when a third does not follow. -/
theorem decodeLossy_cut_two (h₁ : canBegin a b = true) (h₂ : ¬a.toNat < 0xF0)
    (h₃ : ¬(continuation? c).isSome = true) (bs : List UInt8) :
    decodeLossy (a :: b :: c :: bs) = replacement :: decodeLossy (c :: bs) := by
  rw [decodeLossy.eq_def]
  dsimp only
  rw [if_neg (by omega), if_neg (by omega), if_pos h₁, if_neg h₂, if_neg h₃]

/-! ## Readings of texts -/

/-- What is a text is read as the text.  The cases are the lengths that the first byte
announces. -/
theorem decodeLossy_of_decode {bs : List UInt8} {t : Text} (h : decode bs = some t) :
    decodeLossy bs = t := by
  fun_induction decode bs generalizing t with
  | case1 =>
    cases h
    rfl
  | case2 a s ha ih =>
    obtain ⟨d, u, hd, hu, rfl⟩ := consed_eq_some.1 h
    obtain rfl : Char.ofNat a.toNat = d := by
      rwa [scalar?_zero_of_lt ha, Option.some.injEq] at hd
    rw [decodeLossy_one ha, ih hu]
  | case3 => cases h
  | case4 a ha b s ha' ih =>
    obtain ⟨d, u, hd, hu, rfl⟩ := consed_eq_some.1 h
    rw [decodeLossy_two ha ha', hd, ih hu]
  | case5 => cases h
  | case6 a ha b h₁ c s h₂ ih =>
    obtain ⟨d, u, hd, hu, rfl⟩ := consed_eq_some.1 h
    rw [decodeLossy_three h₁ (canBegin_of_three? h₂ hd) h₂, hd, ih hu]
  | case7 => cases h
  | case8 a ha b h₁ c h₂ d s ih =>
    obtain ⟨e, u, he, hu, rfl⟩ := consed_eq_some.1 h
    rw [decodeLossy_four (canBegin_of_four? h₂ he) h₂ (isSome_continuation?_of_four? he), he,
      ih hu]

@[simp] theorem decodeLossy_encode (t : Text) : decodeLossy (encode t) = t :=
  decodeLossy_of_decode (decode_encode t)

/-! ## Cuts before bytes below 128 -/

theorem continuation?_of_lt (h : b.toNat < 0x80) : continuation? b = none :=
  if_neg (by omega)

theorem two?_of_lt (h : b.toNat < 0x80) : two? a b = none := by
  simp [two?, continuation?_of_lt h]

theorem three?_of_lt (h : c.toNat < 0x80) : three? a b c = none := by
  simp [three?, continuation?_of_lt h]

theorem four?_of_lt (h : d.toNat < 0x80) : four? a b c d = none := by
  simp [four?, continuation?_of_lt h]

theorem canBegin_of_lt (h : b.toNat < 0x80) : canBegin a b = false := by
  simp [canBegin, three?, four?, continuation?_of_lt h]

/-- A reading is cut before a byte below 128.  The cases are the steps that the reading of
what stands before the byte takes; one that comes to the end of it meets the byte there. -/
theorem decodeLossy_append_cons (h : b.toNat < 0x80) (xs ys : List UInt8) :
    decodeLossy (xs ++ b :: ys) = decodeLossy xs ++ decodeLossy (b :: ys) := by
  fun_induction decodeLossy xs <;> simp only [List.cons_append, List.nil_append] at *
  case case2 a xs ha ih => rw [decodeLossy_one ha, ih]
  case case3 a h₁ =>
    by_cases h₂ : a.toNat < 0xE0
    · rw [decodeLossy_two h₁ h₂, two?_of_lt h]
    · rw [decodeLossy_cut_one h₂ (by simp [canBegin_of_lt h])]
  case case4 a h₁ a₂ xs h₂ e he ih | case5 a h₁ a₂ xs h₂ he ih =>
    rw [decodeLossy_two h₁ h₂, he, ih]
  case case6 a h₁ a₂ h₂ hbegin =>
    by_cases h₃ : a.toNat < 0xF0
    · rw [decodeLossy_three h₂ hbegin h₃, three?_of_lt h]
    · rw [decodeLossy_cut_two hbegin h₃ (by simp [continuation?_of_lt h])]
  case case7 a h₁ a₂ h₂ hbegin a₃ xs h₃ e he ih | case8 a h₁ a₂ h₂ hbegin a₃ xs h₃ he ih =>
    rw [decodeLossy_three h₂ hbegin h₃, he, ih]
  case case9 a h₁ a₂ h₂ hbegin a₃ h₃ hthird =>
    rw [decodeLossy_four hbegin h₃ hthird, four?_of_lt h]
  case case10 a h₁ a₂ h₂ hbegin a₃ h₃ hthird a₄ xs e he ih
      | case11 a h₁ a₂ h₂ hbegin a₃ h₃ hthird a₄ xs he ih =>
    rw [decodeLossy_four hbegin h₃ hthird, he, ih]
  case case12 a h₁ a₂ h₂ hbegin a₃ xs h₃ hthird ih =>
    rw [decodeLossy_cut_two hbegin h₃ hthird, ih]
  case case13 a h₁ a₂ xs h₂ hbegin ih => rw [decodeLossy_cut_one h₂ hbegin, ih]

theorem encode_cons_of_lt {e : Char} (he : e.toNat < 0x80) (t : Text) :
    encode (e :: t) = UInt8.ofNat e.toNat :: encode t := by
  rw [encode_cons, utf8EncodeChar_of_lt he]
  rfl

/-- A text that begins with one of the first 128 characters is read after any bytes. -/
theorem decodeLossy_append_encode {e : Char} (he : e.toNat < 0x80) (bs : List UInt8) (t : Text) :
    decodeLossy (bs ++ encode (e :: t)) = decodeLossy bs ++ e :: t := by
  have hbyte : (UInt8.ofNat e.toNat).toNat < 0x80 := by
    rwa [UInt8.toNat_ofNat_of_lt' (show e.toNat < 256 by omega)]
  have hcut := decodeLossy_append_cons hbyte bs (encode t)
  rwa [← encode_cons_of_lt he, decodeLossy_encode] at hcut

/-! ## First characters -/

theorem le_toNat_of_scalar? {least n : Nat} {e : Char} (hleast : 0x80 ≤ least)
    (h : scalar? least n = some e) : 0x80 ≤ e.toNat := by
  obtain ⟨hnum, hle⟩ := toNat_of_scalar? h
  exact Nat.le_trans hleast (Nat.le_trans hle (Nat.le_of_eq hnum.symm))

theorem le_toNat_of_two? {e : Char} (h : two? a b = some e) : 0x80 ≤ e.toNat := by
  simp only [two?, Option.bind_eq_bind, Option.bind_eq_some_iff,
    Option.ite_none_right_eq_some] at h
  obtain ⟨y, -, -, he⟩ := h
  exact le_toNat_of_scalar? (by omega) he

theorem le_toNat_of_three? {e : Char} (h : three? a b c = some e) : 0x80 ≤ e.toNat := by
  simp only [three?, Option.bind_eq_bind, Option.bind_eq_some_iff] at h
  obtain ⟨y, -, z, -, he⟩ := h
  exact le_toNat_of_scalar? (by omega) he

theorem le_toNat_of_four? {e : Char} (h : four? a b c d = some e) : 0x80 ≤ e.toNat := by
  simp only [four?, Option.bind_eq_bind, Option.bind_eq_some_iff] at h
  obtain ⟨x, -, y, -, z, -, he⟩ := h
  exact le_toNat_of_scalar? (by omega) he

/-- A byte from 128 on is read as a character from 128 on, which it begins or which is put
in its place. -/
theorem exists_cons_of_decodeLossy (h : ¬a.toNat < 0x80) (bs : List UInt8) :
    ∃ e t, decodeLossy (a :: bs) = e :: t ∧ 0x80 ≤ e.toNat := by
  have hreplaced : 0x80 ≤ replacement.toNat := by decide
  generalize hrow : a :: bs = row
  fun_cases decodeLossy row
  case case1 => cases hrow
  case case2 a' bs' ha => exact absurd ((List.cons.inj hrow).1 ▸ ha) h
  case case4 he => exact ⟨_, _, rfl, le_toNat_of_two? he⟩
  case case7 he => exact ⟨_, _, rfl, le_toNat_of_three? he⟩
  case case10 he => exact ⟨_, _, rfl, le_toNat_of_four? he⟩
  all_goals exact ⟨_, _, rfl, hreplaced⟩

/-- A reading begins with one of the first 128 characters when the bytes begin with it. -/
theorem prefix_decodeLossy_iff {e : Char} (he : e.toNat < 0x80) (bs : List UInt8) :
    [e] <+: decodeLossy bs ↔ encode [e] <+: bs := by
  rw [encode_cons_of_lt he, encode_nil]
  cases bs with
  | nil => simp
  | cons a bs =>
    by_cases ha : a.toNat < 0x80
    · rw [decodeLossy_one ha]
      simp only [List.cons_prefix_cons, List.nil_prefix, and_true]
      constructor
      · rintro rfl
        rw [toNat_ofNat_of_lt ha, UInt8.ofNat_toNat]
      · rintro rfl
        rw [UInt8.toNat_ofNat_of_lt' (show e.toNat < 256 by omega), Char.ofNat_toNat]
    · obtain ⟨d, t, hd, hle⟩ := exists_cons_of_decodeLossy ha bs
      have hbyte : (UInt8.ofNat e.toNat).toNat = e.toNat :=
        UInt8.toNat_ofNat_of_lt' (show e.toNat < 256 by omega)
      rw [hd]
      simp only [List.cons_prefix_cons, List.nil_prefix, and_true]
      refine iff_of_false ?_ ?_ <;> rintro rfl <;> omega

end UriTemplate.Utf8
