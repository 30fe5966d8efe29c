import UriTemplate.Url.Domain

/-!
# Hosts

The host of a URL in its one written form: an IPv6 address in brackets, an IPv4
address in decimal, a domain in lower-case ASCII, or the text as it is when the
scheme gives hosts no meaning.
-/

namespace UriTemplate.Url

/-- The text with ASCII letters in lower case. -/
def lower (t : Text) : Text :=
  t.map Char.toLower

/-- Whether a character is percent-encoded in every part of a URL. -/
def isControl (c : Char) : Bool :=
  c.toNat < 0x20 || 0x7E < c.toNat

/-- The text with the characters of a set percent-encoded. -/
def encodeIf (escapes : Char → Bool) (t : Text) : Text :=
  t.flatMap fun c =>
    if escapes c then (String.utf8EncodeChar c).flatMap Percent.triplet else [c]

/-- A number in hexadecimal, lower case. -/
def hexText (n : Nat) : Text :=
  Nat.toDigits 16 n

/-- The number that hexadecimal digits spell. -/
def hexNat? (digits : Text) : Option Nat :=
  digits.foldlM (fun n c => (Percent.hexValue? c).map (16 * n + ·)) 0

/-! ## IPv4 -/

/-- A number of an address: decimal, octal after `0`, hexadecimal after `0x`. -/
def ipv4Number? : Text → Option Nat
  | [] => none
  | '0' :: 'x' :: digits => hexNat? digits
  | '0' :: 'X' :: digits => hexNat? digits
  | '0' :: c :: digits =>
    if (c :: digits).all fun c => '0' ≤ c && c ≤ '7' then
      some ((c :: digits).foldl (fun n c => 8 * n + Text.digitValue c) 0)
    else none
  | digits => if digits.all Char.isDigit then some (Text.toNat digits) else none

/-- The labels of a domain without the empty one after a final dot. -/
def labels (domain : Text) : List Text :=
  let parts := Text.fields '.' domain
  if parts.getLast? = some [] then parts.dropLast else parts

/-- Whether the last label makes the domain an IPv4 address. -/
def endsInNumber (domain : Text) : Bool :=
  match (labels domain).getLast? with
  | none => false
  | some last => (!last.isEmpty && last.all Char.isDigit) || (ipv4Number? last).isSome

/-- The address that numbers make: one byte each, and the last one what is left
of four bytes. -/
def ipv4Value? (numbers : List Nat) : Option Nat :=
  match numbers.getLast? with
  | none => none
  | some last =>
    let front := numbers.dropLast
    if front.length ≤ 3 ∧ front.all (· ≤ 255) ∧ last < Nat.pow 256 (4 - front.length) then
      some (front.foldl (fun n b => 256 * n + b) 0 * Nat.pow 256 (4 - front.length) + last)
    else none

/-- An address as four decimal numbers. -/
def ipv4Text (n : Nat) : Text :=
  List.intercalate ['.']
    ([n / Nat.pow 256 3, n / Nat.pow 256 2 % 256, n / 256 % 256, n % 256].map Text.ofNat)

/-- An IPv4 address in its written form. -/
def parseIpv4 (domain : Text) : Except Fault Text :=
  match (labels domain).mapM ipv4Number? |>.bind ipv4Value? with
  | some n => .ok (ipv4Text n)
  | none => .error .invalidIpv4

/-! ## IPv6 -/

/-- A byte in decimal without leading zeros. -/
def byte? (t : Text) : Option Nat :=
  if t.all Char.isDigit ∧ t ≠ [] ∧ (t.head? = some '0' → t = ['0']) ∧ Text.toNat t ≤ 255 then
    some (Text.toNat t)
  else none

/-- A 16-bit group in hexadecimal. -/
def group? (t : Text) : Option Nat :=
  if t ≠ [] ∧ t.length ≤ 4 then hexNat? t else none

/-- The groups between colons; an IPv4 address at the end is two of them. -/
def groups? (final : Bool) : List Text → Option (List Nat)
  | [] => some []
  | [last] =>
    if final ∧ '.' ∈ last then do
      match ← (Text.fields '.' last).mapM byte? with
      | [a, b, c, d] => some [256 * a + b, 256 * c + d]
      | _ => none
    else (group? last).map ([·])
  | t :: rest => do return (← group? t) :: (← groups? final rest)

/-- The groups of a text, none if it is empty. -/
def groupsOf? (final : Bool) (t : Text) : Option (List Nat) :=
  if t.isEmpty then some [] else groups? final (Text.fields ':' t)

/-- Splits at the first `::`. -/
def splitGap : Text → Option (Text × Text)
  | ':' :: ':' :: rest => some ([], rest)
  | c :: rest => (splitGap rest).map fun (before, after) => (c :: before, after)
  | [] => none

/-- The eight groups of an IPv6 address.  A `::` stands for one group of zeros
or more. -/
def ipv6Groups? (t : Text) : Option (List Nat) := do
  match splitGap t with
  | none =>
    let groups ← groupsOf? true t
    if groups.length = 8 then some groups else none
  | some (before, after) =>
    let front ← groupsOf? false before
    let back ← groupsOf? true after
    if front.length + back.length ≤ 7 then
      some (front ++ List.replicate (8 - front.length - back.length) 0 ++ back)
    else none

/-- The length of the run of zeros that groups begin with. -/
def zeroRun (groups : List Nat) : Nat :=
  (groups.takeWhile (· == 0)).length

/-- The place and length of the first longest run of zeros. -/
def longestRun : Nat → List Nat → Nat × Nat
  | _, [] => (0, 0)
  | i, g :: rest =>
    let here := zeroRun (g :: rest)
    let (j, there) := longestRun (i + 1) rest
    if there ≤ here then (i, here) else (j, there)

/-- An address with its longest run of zeros left out. -/
def ipv6Text (groups : List Nat) : Text :=
  let join (gs : List Nat) : Text := List.intercalate [':'] (gs.map hexText)
  let (start, length) := longestRun 0 groups
  if length < 2 then join groups
  else join (groups.take start) ++ ':' :: ':' :: join (groups.drop (start + length))

/-- An IPv6 address after its opening bracket, in its written form. -/
def parseIpv6 (t : Text) : Except Fault Text :=
  if t.getLast? = some ']' then
    match ipv6Groups? t.dropLast with
    | some groups => .ok ('[' :: (ipv6Text groups ++ [']']))
    | none => .error .invalidIpv6
  else .error .invalidIpv6

/-! ## Hosts -/

/-- The written form of a host whose scheme resolves it. -/
def parseHost (t : Text) : Except Fault Text := do
  match t with
  | '[' :: rest => parseIpv6 rest
  | _ =>
    let domain ← asciiDomain t
    if endsInNumber domain then parseIpv4 domain else return domain

/-- The written form of a host whose scheme gives it no meaning. -/
def parsePlainHost (t : Text) : Except Fault Text :=
  match t with
  | '[' :: rest => parseIpv6 rest
  | _ =>
    if t.any isForbiddenInHost then .error .invalidDomain
    else .ok (encodeIf isControl t)

end UriTemplate.Url
