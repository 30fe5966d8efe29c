import UriTemplate.Percent
import UriTemplate.Url.Fault
import UriTemplate.Url.Punycode

/-!
# Domains

A domain in lower-case ASCII.  Each character is first brought to the one form
that it has in domains: letters lose their case and their width, some characters
vanish and some have no place at all.  Then each label that is not ASCII is
encoded, and a label that claims to be encoded has to be the encoding of a label
in that form.

The tables cover the Latin, Greek, Cyrillic and Armenian letters and the full
width and circled forms of ASCII; characters outside of them keep their form,
and a mark is not joined to the letter before it.
-/

namespace UriTemplate.Url

/-! ## Forms of characters -/

/-- Rows of characters: the first, the last, and the form of the first; the
others follow in step. -/
def formRows : List (Nat × Nat × Nat) :=
  [(0x41, 0x5A, 0x61), (0xB2, 0xB3, 0x32), (0xB5, 0xB5, 0x3BC), (0xB9, 0xB9, 0x31),
    (0xC0, 0xD6, 0xE0), (0xD8, 0xDE, 0xF8), (0x178, 0x178, 0xFF), (0x17F, 0x17F, 0x73),
    (0x181, 0x181, 0x253), (0x186, 0x186, 0x254), (0x189, 0x18A, 0x256), (0x18E, 0x18E, 0x1DD),
    (0x18F, 0x18F, 0x259), (0x190, 0x190, 0x25B), (0x193, 0x193, 0x260), (0x194, 0x194, 0x263),
    (0x196, 0x196, 0x269), (0x197, 0x197, 0x268), (0x19C, 0x19C, 0x26F), (0x19D, 0x19D, 0x272),
    (0x19F, 0x19F, 0x275), (0x1A6, 0x1A6, 0x280), (0x1A9, 0x1A9, 0x283), (0x1AE, 0x1AE, 0x288),
    (0x1B1, 0x1B2, 0x28A), (0x1B7, 0x1B7, 0x292), (0x1F6, 0x1F6, 0x195), (0x1F7, 0x1F7, 0x1BF),
    (0x220, 0x220, 0x19E), (0x23A, 0x23A, 0x2C65), (0x23D, 0x23D, 0x19A), (0x23E, 0x23E, 0x2C66),
    (0x243, 0x243, 0x180), (0x244, 0x244, 0x289), (0x245, 0x245, 0x28C), (0x374, 0x374, 0x2B9),
    (0x37E, 0x37E, 0x3B), (0x37F, 0x37F, 0x3F3), (0x386, 0x386, 0x3AC), (0x387, 0x387, 0xB7),
    (0x388, 0x38A, 0x3AD), (0x38C, 0x38C, 0x3CC), (0x38E, 0x38F, 0x3CD), (0x391, 0x3A1, 0x3B1),
    (0x3A3, 0x3AB, 0x3C3), (0x3CF, 0x3CF, 0x3D7), (0x3D0, 0x3D0, 0x3B2), (0x3D1, 0x3D1, 0x3B8),
    (0x3D2, 0x3D2, 0x3C5), (0x3D3, 0x3D3, 0x3CD), (0x3D4, 0x3D4, 0x3CB), (0x3D5, 0x3D5, 0x3C6),
    (0x3D6, 0x3D6, 0x3C0), (0x3F0, 0x3F0, 0x3BA), (0x3F1, 0x3F1, 0x3C1), (0x3F2, 0x3F2, 0x3C3),
    (0x3F4, 0x3F4, 0x3B8), (0x3F5, 0x3F5, 0x3B5), (0x3F9, 0x3F9, 0x3C3), (0x3FD, 0x3FF, 0x37B),
    (0x400, 0x40F, 0x450), (0x410, 0x42F, 0x430), (0x4C0, 0x4C0, 0x4CF), (0x531, 0x556, 0x561),
    (0x1E9B, 0x1E9B, 0x1E61), (0x1E9E, 0x1E9E, 0xDF), (0x2460, 0x2468, 0x31),
    (0x24B6, 0x24CF, 0x61), (0x24D0, 0x24E9, 0x61), (0x24EA, 0x24EA, 0x30), (0x3002, 0x3002, 0x2E),
    (0xFF01, 0xFF20, 0x21), (0xFF21, 0xFF3A, 0x61), (0xFF3B, 0xFF5E, 0x5B), (0xFF61, 0xFF61, 0x2E)]

/-- Ranges that begin with a capital letter and go on with its small letter, then
with the next pair. -/
def casePairs : List (Nat × Nat) :=
  [(0x100, 0x12F), (0x134, 0x137), (0x139, 0x13E), (0x141, 0x148), (0x14A, 0x177), (0x179, 0x17E),
    (0x182, 0x185), (0x187, 0x188), (0x18B, 0x18C), (0x191, 0x192), (0x198, 0x199), (0x1A0, 0x1A5),
    (0x1A7, 0x1A8), (0x1AC, 0x1AD), (0x1AF, 0x1B0), (0x1B3, 0x1B6), (0x1B8, 0x1B9), (0x1BC, 0x1BD),
    (0x1CD, 0x1DC), (0x1DE, 0x1EF), (0x1F4, 0x1F5), (0x1F8, 0x21F), (0x222, 0x233), (0x23B, 0x23C),
    (0x241, 0x242), (0x246, 0x24F), (0x370, 0x373), (0x376, 0x377), (0x3D8, 0x3EF), (0x3F7, 0x3F8),
    (0x3FA, 0x3FB), (0x460, 0x481), (0x48A, 0x4BF), (0x4C1, 0x4CE), (0x4D0, 0x52F),
    (0x1E00, 0x1E95), (0x1EA0, 0x1EFF)]

/-- Characters whose form is a text. -/
def spelledOut : List (Char × String) :=
  [('ª', "a"), ('º', "o"), ('¼', "1⁄4"), ('½', "1⁄2"), ('¾', "3⁄4"), ('İ', "i̇"), ('Ĳ', "ij"),
    ('ĳ', "ij"), ('Ŀ', "l·"), ('ŀ', "l·"), ('ŉ', "ʼn"), ('Ǆ', "dž"), ('ǅ', "dž"), ('ǆ', "dž"),
    ('Ǉ', "lj"), ('ǈ', "lj"), ('ǉ', "lj"), ('Ǌ', "nj"), ('ǋ', "nj"), ('ǌ', "nj"), ('Ǳ', "dz"),
    ('ǲ', "dz"), ('ǳ', "dz"), ('և', "եւ"), ('℠', "sm"), ('℡', "tel"), ('™', "tm"), ('ﬀ', "ff"),
    ('ﬁ', "fi"), ('ﬂ', "fl"), ('ﬃ', "ffi"), ('ﬄ', "ffl"), ('ﬅ', "st"), ('ﬆ', "st")]

/-- Ranges of characters that vanish. -/
def vanishing : List (Nat × Nat) :=
  [(0xAD, 0xAD), (0x34F, 0x34F), (0x200B, 0x200B), (0x2060, 0x2060), (0x2064, 0x2064),
    (0xFE00, 0xFE0F), (0xFEFF, 0xFEFF)]

/-- Ranges of characters that no domain holds: controls, blanks, marks of
direction and joining, and characters without meaning. -/
def unfit : List (Nat × Nat) :=
  [(0x80, 0xA0), (0xA8, 0xA8), (0xAF, 0xAF), (0xB4, 0xB4), (0xB8, 0xB8), (0x2D8, 0x2DD),
    (0x37A, 0x37A), (0x384, 0x385), (0x2000, 0x200A), (0x200C, 0x200F),
    (0x2028, 0x202F), (0x205F, 0x205F), (0x2061, 0x2063), (0x2065, 0x206F), (0x3000, 0x3000),
    (0xE000, 0xF8FF), (0xFDD0, 0xFDEF), (0xFFF0, 0xFFFF), (0xE0000, 0x10FFFF)]

/-- Ranges of marks that belong to the character before them. -/
def combining : List (Nat × Nat) :=
  [(0x300, 0x36F), (0x483, 0x489), (0x1AB0, 0x1ACE), (0x1DC0, 0x1DFF), (0x20D0, 0x20F0),
    (0xFE20, 0xFE2F)]

/-- Whether a character lies in one of the ranges. -/
def inRanges (ranges : List (Nat × Nat)) (c : Char) : Bool :=
  ranges.any fun (first, last) => first ≤ c.toNat && c.toNat ≤ last

/-- The form of a character that is no text. -/
def simpleForm (c : Char) : Char :=
  match formRows.find? fun (first, last, _) => first ≤ c.toNat && c.toNat ≤ last with
  | some (first, _, form) => Char.ofNat (form + (c.toNat - first))
  | none =>
    match casePairs.find? fun (first, last) => first ≤ c.toNat && c.toNat ≤ last with
    | some (first, _) => if (c.toNat - first) % 2 = 0 then Char.ofNat (c.toNat + 1) else c
    | none => c

/-- The form of a character in domains, if they hold it. -/
def formOf (c : Char) : Option Text :=
  if inRanges unfit c then none
  else if inRanges vanishing c then some []
  else
    match spelledOut.lookup c with
    | some form => some form.toList
    | none => some [simpleForm c]

/-! ## Labels -/

/-- What an encoded label begins with. -/
def encodedMark : Text :=
  "xn--".toList

/-- Whether a label is in form: not ASCII, each character its own form, and no
mark in front. -/
def isInForm (label : Text) : Bool :=
  label.any (0x80 ≤ ·.toNat) && label.all (fun c => formOf c == some [c]) &&
    !label.head?.any (inRanges combining)

/-- A label in ASCII, unless no domain holds it. -/
def asciiLabel? (label : Text) : Option Text :=
  match Text.stripFront encodedMark label with
  | some code =>
    match Punycode.decode? code with
    | some decoded => if isInForm decoded then some label else none
    | none => none
  | none =>
    if label.all (·.toNat < 0x80) then some label
    else if isInForm label then some (encodedMark ++ Punycode.encode label)
    else none

/-! ## Whole domains -/

/-- A character that no host holds. -/
def isForbiddenInHost (c : Char) : Bool :=
  ['\x00', '\t', '\n', '\r', ' ', '#', '/', ':', '<', '>', '?', '@', '[', '\\', ']', '^',
    '|'].contains c

/-- A character that no domain holds. -/
def isForbiddenInDomain (c : Char) : Bool :=
  isForbiddenInHost c || c.toNat < 0x20 || c == '%' || c == '\x7f'

/-- The domain that a percent-encoded text names, in ASCII. -/
def asciiDomain? (t : Text) : Option Text := do
  let forms ← (← Percent.decode t).mapM formOf
  let labels ← (Text.fields '.' forms.flatten).mapM asciiLabel?
  let domain := List.intercalate ['.'] labels
  if domain.any isForbiddenInDomain then none else return domain

/-- The domain that a percent-encoded text names, in ASCII. -/
def asciiDomain (t : Text) : Except Fault Text :=
  match asciiDomain? t with
  | none => .error .invalidInternational
  | some [] => .error .emptyHost
  | some domain => .ok domain

end UriTemplate.Url
