import UriTemplate.Proofs.PercentCoding

/-!
# The order of bytes

Texts are ordered character by character.  Their bytes are in the same order, as a
longer form of a character begins with a greater byte, and forms of one length hold the
number of the character from its highest bits on.

* `utf8EncodeChar_cases`: the four forms of a character.
* `utf8EncodeChar_append_lt`: two characters, whatever comes after them.
* `encode_lt_encode`: two texts, by induction on the first.
* `encode_lt_encode_iff`: the order is told from the bytes.
-/

namespace UriTemplate.Utf8

/-- The bytes of a character by the length of its form. -/
theorem utf8EncodeChar_cases (c : Char) :
    (c.toNat < 0x80 ∧ String.utf8EncodeChar c = [UInt8.ofNat c.toNat]) ∨
      (0x80 ≤ c.toNat ∧ c.toNat < 0x800 ∧ String.utf8EncodeChar c =
        [UInt8.ofNat (c.toNat / 64 + 0xC0), UInt8.ofNat (c.toNat % 64 + 0x80)]) ∨
      (0x800 ≤ c.toNat ∧ c.toNat < 0x10000 ∧ String.utf8EncodeChar c =
        [UInt8.ofNat (c.toNat / 4096 + 0xE0), UInt8.ofNat (c.toNat / 64 % 64 + 0x80),
          UInt8.ofNat (c.toNat % 64 + 0x80)]) ∨
      (0x10000 ≤ c.toNat ∧ c.toNat < 0x110000 ∧ String.utf8EncodeChar c =
        [UInt8.ofNat (c.toNat / 262144 + 0xF0), UInt8.ofNat (c.toNat / 4096 % 64 + 0x80),
          UInt8.ofNat (c.toNat / 64 % 64 + 0x80), UInt8.ofNat (c.toNat % 64 + 0x80)]) := by
  have hlt : c.toNat < 0x110000 := by
    have hvalid : c.toNat.isValidChar := c.valid
    unfold Nat.isValidChar at hvalid
    omega
  have hval : c.val.toNat = c.toNat := rfl
  unfold String.utf8EncodeChar
  rw [hval]
  dsimp only
  split
  · exact .inl ⟨by omega, rfl⟩
  split
  · have hlead : c.toNat / 64 % 0x20 = c.toNat / 64 := Nat.mod_eq_of_lt (by omega)
    exact .inr (.inl ⟨by omega, by omega, by rw [hlead]⟩)
  split
  · have hlead : c.toNat / 4096 % 0x10 = c.toNat / 4096 := Nat.mod_eq_of_lt (by omega)
    exact .inr (.inr (.inl ⟨by omega, by omega, by rw [hlead]⟩))
  · have hlead : c.toNat / 262144 % 0x08 = c.toNat / 262144 := Nat.mod_eq_of_lt (by omega)
    exact .inr (.inr (.inr ⟨by omega, hlt, by rw [hlead]⟩))

/-- The bytes of characters are ordered as the characters are, whatever comes after
them. -/
theorem utf8EncodeChar_append_lt {c d : Char} (h : c < d) (s t : List UInt8) :
    String.utf8EncodeChar c ++ s < String.utf8EncodeChar d ++ t := by
  have hnum : c.toNat < d.toNat := h
  have hbyte (n : Nat) (hn : n < 256) : (UInt8.ofNat n).toNat = n :=
    UInt8.toNat_ofNat_of_lt' hn
  -- four forms against four: the first bytes that differ decide
  rcases utf8EncodeChar_cases c with
    ⟨hc, hcs⟩ | ⟨hc, hc', hcs⟩ | ⟨hc, hc', hcs⟩ | ⟨hc, hc', hcs⟩ <;>
  rcases utf8EncodeChar_cases d with
    ⟨hd, hds⟩ | ⟨hd, hd', hds⟩ | ⟨hd, hd', hds⟩ | ⟨hd, hd', hds⟩ <;>
  rw [hcs, hds] <;>
  simp only [List.cons_append, List.cons_lt_cons_iff, UInt8.lt_iff_toNat_lt, ← UInt8.toNat_inj] <;>
  simp (disch := omega) only [hbyte] <;>
  omega

theorem encode_lt_encode {s t : Text} (h : s < t) : encode s < encode t := by
  induction s generalizing t with
  | nil =>
    cases t with
    | nil => exact absurd h (List.lt_irrefl _)
    | cons d t =>
      obtain ⟨b, bs, hb⟩ := List.exists_cons_of_ne_nil (String.utf8EncodeChar_ne_nil (c := d))
      rw [encode_cons, hb]
      exact List.nil_lt_cons b _
  | cons c s ih =>
    cases t with
    | nil => exact absurd h (List.not_lt_nil _)
    | cons d t =>
      rw [encode_cons, encode_cons]
      rcases List.cons_lt_cons_iff.1 h with hlt | ⟨rfl, hlt⟩
      · exact utf8EncodeChar_append_lt hlt _ _
      · exact List.append_left_lt (ih hlt)

theorem encode_lt_encode_iff {s t : Text} : encode s < encode t ↔ s < t := by
  refine ⟨fun h => ?_, encode_lt_encode⟩
  refine Decidable.not_not.1 fun hst => ?_
  rcases List.le_iff_lt_or_eq.1 (List.not_lt.1 hst) with hts | rfl
  · exact List.lt_irrefl _ (List.lt_trans h (encode_lt_encode hts))
  · exact List.lt_irrefl _ h

end UriTemplate.Utf8
