import UriTemplate.Text

/-!
# UTF-8

Texts as bytes and back.  `encode` writes every character in one to four bytes;
`decode` reads exactly the byte strings that `encode` writes: it refuses a
continuation byte on its own, a sequence that is cut short, a value written in
more bytes than it needs, a surrogate and a value past the last character.
`decodeLossy` reads all byte strings, and puts U+FFFD in the place of what is refused.
-/

namespace UriTemplate.Utf8

/-- The bytes of a text. -/
def encode (t : Text) : List UInt8 :=
  t.flatMap String.utf8EncodeChar

@[simp] theorem encode_nil : encode [] = [] := rfl

@[simp] theorem encode_cons (c : Char) (t : Text) :
    encode (c :: t) = String.utf8EncodeChar c ++ encode t := rfl

@[simp] theorem encode_append (s t : Text) : encode (s ++ t) = encode s ++ encode t :=
  List.flatMap_append

/-- The character with number `n`, if there is one and it needs as many bytes as
a number from `least` on. -/
def scalar? (least n : Nat) : Option Char :=
  if h : n.isValidChar ∧ least ≤ n then some (Char.ofNatAux n h.1) else none

/-- The six bits of a continuation byte. -/
def continuation? (b : UInt8) : Option Nat :=
  if 0x80 ≤ b.toNat ∧ b.toNat ≤ 0xBF then some (b.toNat - 0x80) else none

/-- The character written in two bytes. -/
def two? (a b : UInt8) : Option Char := do
  let y ← continuation? b
  if 0xC0 ≤ a.toNat then scalar? 0x80 ((a.toNat - 0xC0) * 64 + y) else none

/-- The character written in three bytes. -/
def three? (a b c : UInt8) : Option Char := do
  let y ← continuation? b
  let z ← continuation? c
  scalar? 0x800 (((a.toNat - 0xE0) * 64 + y) * 64 + z)

/-- The character written in four bytes. -/
def four? (a b c d : UInt8) : Option Char := do
  let x ← continuation? b
  let y ← continuation? c
  let z ← continuation? d
  scalar? 0x10000 ((((a.toNat - 0xF0) * 64 + x) * 64 + y) * 64 + z)

/-- A character before a text, when both were read. -/
def consed (c : Option Char) (t : Option Text) : Option Text := do
  return (← c) :: (← t)

/-- The text that the bytes write, or nothing when they write none. -/
def decode : List UInt8 → Option Text
  | [] => some []
  | a :: s =>
    if a.toNat < 0x80 then consed (scalar? 0 a.toNat) (decode s)
    else match s with
    | [] => none
    | b :: s =>
      if a.toNat < 0xE0 then consed (two? a b) (decode s)
      else match s with
      | [] => none
      | c :: s =>
        if a.toNat < 0xF0 then consed (three? a b c) (decode s)
        else match s with
        | [] => none
        | d :: s => consed (four? a b c d) (decode s)

@[simp] theorem decode_nil : decode [] = some [] := rfl

/-! ## Reading what is no text -/

/-- What stands for bytes that write no character. -/
def replacement : Char := '\uFFFD'

/-- Whether a character of three or four bytes can begin with two bytes.  Whether there
is a character does not hang on its later bytes, so the least ones are tried. -/
def canBegin (a b : UInt8) : Bool :=
  if a.toNat < 0xF0 then (three? a b 0x80).isSome else (four? a b 0x80 0x80).isSome

/-- The text that the bytes write, as far as they write one.  Where no character can be
read, the bytes that could begin one, or else one byte, are replaced together. -/
def decodeLossy : List UInt8 → Text
  | [] => []
  | a :: s =>
    if a.toNat < 0x80 then Char.ofNat a.toNat :: decodeLossy s
    else match s with
    | [] => [replacement]
    | b :: s =>
      if a.toNat < 0xE0 then
        match two? a b with
        | some d => d :: decodeLossy s
        | none => replacement :: decodeLossy (b :: s)
      else if canBegin a b then
        match s with
        | [] => [replacement]
        | c :: s =>
          if a.toNat < 0xF0 then
            match three? a b c with
            | some d => d :: decodeLossy s
            | none => replacement :: decodeLossy (c :: s)
          else if (continuation? c).isSome then
            match s with
            | [] => [replacement]
            | d :: s =>
              match four? a b c d with
              | some e => e :: decodeLossy s
              | none => replacement :: decodeLossy (d :: s)
          else replacement :: decodeLossy (c :: s)
      else replacement :: decodeLossy (b :: s)

@[simp] theorem decodeLossy_nil : decodeLossy [] = [] := rfl

end UriTemplate.Utf8
