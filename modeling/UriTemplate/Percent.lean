import UriTemplate.CharClass
import UriTemplate.Text.Utf8

/-!
# Percent-encoding

`encode` goes through the UTF-8 form of a text and writes each byte that is not
kept as a `%XX` triplet with upper-case digits.  It has a list of the marks that
are kept for each class.  `decode` reads triplets with digits of either case; a
`%` that starts no triplet stands for itself.
-/

namespace UriTemplate

/-! ## Kept bytes -/

/-- The marks that are kept in every value. -/
def unreservedMarks : List Char :=
  ['-', '.', '_', '~']

/-- The marks that are kept in a value that may hold delimiters. -/
def extendedMarks : List Char :=
  unreservedMarks ++
    [':', '/', '?', '#', '[', ']', '@', '!', '$', '&', '\'', '(', ')', '*', '+', ',', ';', '=']

namespace CharClass

/-- What the encoder keeps besides letters and digits. -/
def marks : CharClass → List Char
  | unreserved => unreservedMarks
  | extended => extendedMarks

/-- Whether the encoder keeps a byte. -/
def keepsOctet (cls : CharClass) (b : UInt8) : Bool :=
  decide (b.toNat < 0x80) &&
    ((Char.ofNat b.toNat).isAlphanum || cls.marks.contains (Char.ofNat b.toNat))

end CharClass

namespace Percent

/-! ## Encoding -/

/-- The upper-case hexadecimal digit of a number below sixteen. -/
def hexDigit (n : Nat) : Char :=
  if n < 10 then Char.ofNat ('0'.toNat + n) else Char.ofNat ('A'.toNat + (n - 10))

/-- The triplet that stands for one byte. -/
def triplet (b : UInt8) : Text :=
  ['%', hexDigit (b.toNat / 16), hexDigit (b.toNat % 16)]

/-- What the encoder writes for a byte. -/
def encodeOctet (cls : CharClass) (b : UInt8) : Text :=
  if cls.keepsOctet b then [Char.ofNat b.toNat] else triplet b

/-- The text with every byte that is not kept written as a triplet. -/
def encode (cls : CharClass) (t : Text) : Text :=
  (Utf8.encode t).flatMap (encodeOctet cls)

@[simp] theorem encode_nil (cls : CharClass) : encode cls [] = [] := rfl

@[simp] theorem encode_append (cls : CharClass) (s t : Text) :
    encode cls (s ++ t) = encode cls s ++ encode cls t := by
  rw [encode, Utf8.encode_append, List.flatMap_append]
  rfl

/-! ## Decoding -/

/-- The value of a hexadecimal digit of either case. -/
def hexValue? (c : Char) : Option Nat :=
  if '0' ≤ c ∧ c ≤ '9' then some (c.toNat - '0'.toNat)
  else if 'A' ≤ c ∧ c ≤ 'F' then some (c.toNat - 'A'.toNat + 10)
  else if 'a' ≤ c ∧ c ≤ 'f' then some (c.toNat - 'a'.toNat + 10)
  else none

/-- The byte that two hexadecimal digits spell. -/
def byte? (high low : Char) : Option UInt8 := do
  return UInt8.ofNat (16 * (← hexValue? high) + (← hexValue? low))

/-- The bytes of a text in which each triplet is one byte. -/
def bytes : Text → List UInt8
  | [] => []
  | '%' :: high :: low :: rest =>
    match byte? high low with
    | some b => b :: bytes rest
    | none => 0x25 :: bytes (high :: low :: rest)
  | c :: rest => String.utf8EncodeChar c ++ bytes rest

/-- The text whose encoded form this is, when its bytes are UTF-8. -/
def decode (t : Text) : Option Text :=
  Utf8.decode (bytes t)

end Percent

end UriTemplate
