import UriTemplate.Proofs.PercentCoding

/-!
# Where characters begin

`Utf8.decode` reads the bytes of a text and nothing else, so bytes that are read
can be cut between two characters and each side is read on its own.  A byte that
goes on with a character is a continuation byte, and no character begins with
one.  It follows that bytes can be cut before any byte that is not a
continuation byte.

* `Utf8.encode_of_decode`: bytes that are read as a text are the bytes of it.
* `Utf8.decode_append_of_decode`: what is read from the front says nothing about
  what follows.
* `Utf8.exists_decode_front`: bytes that are read can be cut where a character
  begins.
-/

namespace UriTemplate.Utf8

/-! ## Bytes that are read -/

theorem toNat_of_scalar? {least n : Nat} {c : Char} (h : scalar? least n = some c) :
    c.val.toNat = n ∧ least ≤ n := by
  by_cases hn : n.isValidChar ∧ least ≤ n
  · rw [scalar?, dif_pos hn] at h
    cases h
    exact ⟨rfl, hn.2⟩
  · rw [scalar?, dif_neg hn] at h
    cases h

theorem continuation?_eq_some {b : UInt8} {n : Nat} (h : continuation? b = some n) :
    b.toNat = n + 0x80 ∧ n < 64 := by
  unfold continuation? at h
  split at h
  · have hn : b.toNat - 0x80 = n := Option.some.inj h
    omega
  · cases h

theorem utf8EncodeChar_of_scalar? {a : UInt8} {c : Char} (ha : a.toNat < 0x80)
    (h : scalar? 0 a.toNat = some c) : String.utf8EncodeChar c = [a] := by
  obtain ⟨hc, -⟩ := toNat_of_scalar? h
  unfold String.utf8EncodeChar
  rw [hc]
  dsimp only
  rw [if_pos (by omega), UInt8.ofNat_toNat]

theorem utf8EncodeChar_of_two? {a b : UInt8} {c : Char} (ha : a.toNat < 0xE0)
    (h : two? a b = some c) : String.utf8EncodeChar c = [a, b] := by
  simp only [two?, Option.bind_eq_bind, Option.bind_eq_some_iff] at h
  obtain ⟨y, hy, h⟩ := h
  obtain ⟨hb, hlt⟩ := continuation?_eq_some hy
  split at h
  · obtain ⟨hc, hleast⟩ := toNat_of_scalar? h
    unfold String.utf8EncodeChar
    rw [hc]
    dsimp only
    rw [if_neg (by omega), if_pos (by omega),
      show ((a.toNat - 0xC0) * 64 + y) / 64 % 0x20 + 0xC0 = a.toNat by omega,
      show ((a.toNat - 0xC0) * 64 + y) % 0x40 + 0x80 = b.toNat by omega,
      UInt8.ofNat_toNat, UInt8.ofNat_toNat]
  · cases h

theorem utf8EncodeChar_of_three? {a b c : UInt8} {d : Char} (h₁ : 0xE0 ≤ a.toNat)
    (h₂ : a.toNat < 0xF0) (h : three? a b c = some d) : String.utf8EncodeChar d = [a, b, c] := by
  simp only [three?, Option.bind_eq_bind, Option.bind_eq_some_iff] at h
  obtain ⟨y, hy, z, hz, h⟩ := h
  obtain ⟨hb, hylt⟩ := continuation?_eq_some hy
  obtain ⟨hc, hzlt⟩ := continuation?_eq_some hz
  obtain ⟨hd, hleast⟩ := toNat_of_scalar? h
  unfold String.utf8EncodeChar
  rw [hd]
  dsimp only
  rw [if_neg (by omega), if_neg (by omega), if_pos (by omega),
    show (((a.toNat - 0xE0) * 64 + y) * 64 + z) / 4096 % 0x10 + 0xE0 = a.toNat by omega,
    show (((a.toNat - 0xE0) * 64 + y) * 64 + z) / 64 % 0x40 + 0x80 = b.toNat by omega,
    show (((a.toNat - 0xE0) * 64 + y) * 64 + z) % 0x40 + 0x80 = c.toNat by omega,
    UInt8.ofNat_toNat, UInt8.ofNat_toNat, UInt8.ofNat_toNat]

/-- A character has a number below 0x110000, so four bytes that are read begin with
one below 0xF8. -/
theorem utf8EncodeChar_of_four? {a b c d : UInt8} {e : Char} (ha : 0xF0 ≤ a.toNat)
    (h : four? a b c d = some e) : String.utf8EncodeChar e = [a, b, c, d] := by
  simp only [four?, Option.bind_eq_bind, Option.bind_eq_some_iff] at h
  obtain ⟨x, hx, y, hy, z, hz, h⟩ := h
  obtain ⟨hb, hxlt⟩ := continuation?_eq_some hx
  obtain ⟨hc, hylt⟩ := continuation?_eq_some hy
  obtain ⟨hd, hzlt⟩ := continuation?_eq_some hz
  obtain ⟨he, hleast⟩ := toNat_of_scalar? h
  have hvalid : e.val.toNat < 0x110000 := by
    have := e.valid
    change e.val.toNat.isValidChar at this
    unfold Nat.isValidChar at this
    omega
  unfold String.utf8EncodeChar
  rw [he] at hvalid ⊢
  dsimp only
  rw [if_neg (by omega), if_neg (by omega), if_neg (by omega),
    show ((((a.toNat - 0xF0) * 64 + x) * 64 + y) * 64 + z) / 262144 % 0x08 + 0xF0 = a.toNat by
      omega,
    show ((((a.toNat - 0xF0) * 64 + x) * 64 + y) * 64 + z) / 4096 % 0x40 + 0x80 = b.toNat by omega,
    show ((((a.toNat - 0xF0) * 64 + x) * 64 + y) * 64 + z) / 64 % 0x40 + 0x80 = c.toNat by omega,
    show ((((a.toNat - 0xF0) * 64 + x) * 64 + y) * 64 + z) % 0x40 + 0x80 = d.toNat by omega,
    UInt8.ofNat_toNat, UInt8.ofNat_toNat, UInt8.ofNat_toNat, UInt8.ofNat_toNat]

/-- Bytes that are read as a text are the bytes of that text.  The cases are the
lengths that the first byte announces. -/
theorem encode_of_decode {bs : List UInt8} {t : Text} (h : decode bs = some t) :
    encode t = bs := by
  fun_induction decode bs generalizing t with
  | case1 =>
    cases h
    rfl
  | case2 a s ha ih =>
    obtain ⟨d, u, hd, hu, rfl⟩ := consed_eq_some.1 h
    rw [encode_cons, ih hu, utf8EncodeChar_of_scalar? ha hd, List.singleton_append]
  | case3 => cases h
  | case4 a _ b s ha ih =>
    obtain ⟨d, u, hd, hu, rfl⟩ := consed_eq_some.1 h
    rw [encode_cons, ih hu, utf8EncodeChar_of_two? ha hd]
    rfl
  | case5 => cases h
  | case6 a _ b h₁ c s h₂ ih =>
    obtain ⟨d, u, hd, hu, rfl⟩ := consed_eq_some.1 h
    rw [encode_cons, ih hu, utf8EncodeChar_of_three? (Nat.le_of_not_lt h₁) h₂ hd]
    rfl
  | case7 => cases h
  | case8 a _ b _ c h₂ d s ih =>
    obtain ⟨e, u, he, hu, rfl⟩ := consed_eq_some.1 h
    rw [encode_cons, ih hu, utf8EncodeChar_of_four? (Nat.le_of_not_lt h₂) he]
    rfl

/-! ## Cutting bytes between characters -/

theorem decode_encode_append (t : Text) (bs : List UInt8) :
    decode (encode t ++ bs) = (decode bs).map (t ++ ·) := by
  induction t with
  | nil => simp
  | cons c t ih =>
    rw [encode_cons, List.append_assoc, decode_utf8EncodeChar_append, ih]
    cases decode bs <;> rfl

theorem decode_append_of_decode {front : List UInt8} {t : Text} (h : decode front = some t)
    (back : List UInt8) : decode (front ++ back) = (decode back).map (t ++ ·) := by
  rw [← encode_of_decode h, decode_encode_append]

/-- All bytes of a character after the first one are continuation bytes. -/
theorem continuation?_of_mem_tail {c : Char} {b : UInt8}
    (h : b ∈ (String.utf8EncodeChar c).tail) : continuation? b ≠ none := by
  have hcontinues (n : Nat) : continuation? (UInt8.ofNat (n % 64 + 0x80)) ≠ none := by
    rw [continuation?_ofNat (Nat.mod_lt n (by omega))]
    simp
  unfold String.utf8EncodeChar at h
  dsimp only at h
  split at h
  · cases h
  split at h
  · simp only [List.tail_cons, List.mem_cons, List.not_mem_nil, or_false] at h
    rw [h]
    exact hcontinues _
  split at h
  · simp only [List.tail_cons, List.mem_cons, List.not_mem_nil, or_false] at h
    rcases h with rfl | rfl <;> exact hcontinues _
  · simp only [List.tail_cons, List.mem_cons, List.not_mem_nil, or_false] at h
    rcases h with rfl | rfl | rfl <;> exact hcontinues _

/-- The first byte of a character is no continuation byte. -/
theorem continuation?_head {c : Char} {b : UInt8} {rest : List UInt8}
    (h : String.utf8EncodeChar c = b :: rest) : continuation? b = none := by
  have hlow {n : Nat} (hn : n < 0x80) : continuation? (UInt8.ofNat n) = none := by
    rw [continuation?, UInt8.toNat_ofNat_of_lt' (show n < 256 by omega), if_neg (by omega)]
  have hhigh {n : Nat} (hn : 0xC0 ≤ n) (hlt : n < 256) : continuation? (UInt8.ofNat n) = none := by
    rw [continuation?, UInt8.toNat_ofNat_of_lt' hlt, if_neg (by omega)]
  unfold String.utf8EncodeChar at h
  dsimp only at h
  split at h
  · obtain ⟨rfl, -⟩ := List.cons.inj h
    exact hlow (by omega)
  split at h
  · obtain ⟨rfl, -⟩ := List.cons.inj h
    exact hhigh (by omega) (by omega)
  split at h
  · obtain ⟨rfl, -⟩ := List.cons.inj h
    exact hhigh (by omega) (by omega)
  · obtain ⟨rfl, -⟩ := List.cons.inj h
    exact hhigh (by omega) (by omega)

/-- Bytes that are read can be cut before a byte that is no continuation byte, and
at their end.  The induction is on the text: a cut inside its first character would
be before a continuation byte. -/
theorem exists_decode_front {front back : List UInt8} {t : Text}
    (h : decode (front ++ back) = some t)
    (hback : ∀ b, back.head? = some b → continuation? b = none) :
    ∃ u, decode front = some u := by
  have hbytes : encode t = front ++ back := encode_of_decode h
  clear h
  induction t generalizing front with
  | nil =>
    obtain ⟨rfl, -⟩ := List.nil_eq_append_iff.1 hbytes
    exact ⟨[], rfl⟩
  | cons c t ih =>
    rw [encode_cons] at hbytes
    rcases List.append_eq_append_iff.1 hbytes with ⟨rest, rfl, hrest⟩ | ⟨rest, hchar, rfl⟩
    · obtain ⟨u, hu⟩ := ih hrest
      refine ⟨c :: u, ?_⟩
      rw [decode_utf8EncodeChar_append, hu]
      rfl
    · cases front with
      | nil => exact ⟨[], rfl⟩
      | cons a front =>
        cases rest with
        | nil =>
          rw [List.append_nil] at hchar
          refine ⟨[c], ?_⟩
          rw [← hchar, ← List.append_nil (String.utf8EncodeChar c), decode_utf8EncodeChar_append]
          rfl
        | cons b rest =>
          have hmem : b ∈ (String.utf8EncodeChar c).tail := by
            rw [hchar]
            simp
          exact absurd (hback b rfl) (continuation?_of_mem_tail hmem)

end UriTemplate.Utf8
