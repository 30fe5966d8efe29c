import UriTemplate.Json

/-!
# Reading JSON

A reader takes a value from the front of a text and answers with the rest.
Where it fails it answers with the text that it could not read on, which places
the fault.  Containers may be nested 127 deep.
-/

namespace UriTemplate.Json

/-- Reads from the front of a text. -/
abbrev Reader (α : Type) := Text → Except Text (α × Text)

/-- A character that may stand between the parts of a value. -/
def isBlank (c : Char) : Bool :=
  c == ' ' || c == '\n' || c == '\t' || c == '\r'

/-- The text after its blanks. -/
def skipBlanks (s : Text) : Text :=
  s.dropWhile isBlank

/-! ## Texts -/

/-- The value of a hexadecimal digit of either case. -/
def hexValue? (c : Char) : Option Nat :=
  if '0' ≤ c ∧ c ≤ '9' then some (c.toNat - '0'.toNat)
  else if 'A' ≤ c ∧ c ≤ 'F' then some (c.toNat - 'A'.toNat + 10)
  else if 'a' ≤ c ∧ c ≤ 'f' then some (c.toNat - 'a'.toNat + 10)
  else none

/-- The value of four hexadecimal digits. -/
def unit? (a b c d : Char) : Option Nat := do
  return ((← hexValue? a) * 16 + (← hexValue? b)) * 256 + ((← hexValue? c) * 16 + (← hexValue? d))

/-- The character that a letter after a backslash stands for. -/
def escaped? : Char → Option Char
  | '"' => some '"'
  | '\\' => some '\\'
  | '/' => some '/'
  | 'b' => some '\x08'
  | 'f' => some '\x0c'
  | 'n' => some '\n'
  | 'r' => some '\r'
  | 't' => some '\t'
  | _ => none

/-- A unit that comes first in a pair. -/
def isHighSurrogate (n : Nat) : Bool := 0xD800 ≤ n && n ≤ 0xDBFF

/-- A unit that comes second in a pair. -/
def isLowSurrogate (n : Nat) : Bool := 0xDC00 ≤ n && n ≤ 0xDFFF

/-- A character before a text that has been read. -/
def readConsed (c : Char) : Except Text (Text × Text) → Except Text (Text × Text)
  | .ok (t, rest) => .ok (c :: t, rest)
  | .error rest => .error rest

/-- Reads a text up to its closing quote.  Two escaped units make one character
when they are a pair; half a pair makes none. -/
def readString : Reader Text
  | [] => .error []
  | '"' :: rest => .ok ([], rest)
  | '\\' :: 'u' :: a :: b :: c :: d :: rest =>
    match unit? a b c d with
    | none => .error (a :: b :: c :: d :: rest)
    | some high =>
      if isLowSurrogate high then .error rest
      else if isHighSurrogate high then
        match rest with
        | '\\' :: 'u' :: a :: b :: c :: d :: rest =>
          match unit? a b c d with
          | none => .error (a :: b :: c :: d :: rest)
          | some low =>
            if isLowSurrogate low then
              readConsed (Char.ofNat (0x10000 + (high - 0xD800) * 0x400 + (low - 0xDC00)))
                (readString rest)
            else .error rest
        | rest => .error rest
      else readConsed (Char.ofNat high) (readString rest)
  | '\\' :: c :: rest =>
    match escaped? c with
    | some c => readConsed c (readString rest)
    | none => .error (c :: rest)
  | c :: rest =>
    if c = '\\' ∨ c.toNat < 0x20 then .error (c :: rest)
    else readConsed c (readString rest)

/-! ## Numbers -/

/-- Takes digits into a number while it fits an unsigned 64-bit word.  Answers
with the number and the count of digits taken. -/
def absorb (n : Nat) : Text → Nat × Nat
  | [] => (n, 0)
  | c :: rest =>
    let n' := 10 * n + Text.digitValue c
    if n' < Nat.pow 2 64 then
      let (m, taken) := absorb n' rest
      (m, taken + 1)
    else (n, 0)

/-- A number from its parts: the sign, the digits before and after the point,
and the power of ten.  Digits past the range of a word count as zeros. -/
def Number.ofParts? (negative : Bool) (whole : Text) (fraction : Option Text)
    (power : Option Int) : Option Number := do
  let (n, taken) := absorb 0 whole
  if fraction.isNone ∧ power.isNone ∧ taken = whole.length ∧
      (!negative ∨ (0 < n ∧ n ≤ Nat.pow 2 63)) then
    return .int (if negative then -n else n)
  else
    let (n, places) := absorb n (fraction.getD [])
    let exponent := ((whole.length : Int) - taken) - places + power.getD 0
    let x ← (← Binary64.ofRatio? n 1).scale? exponent
    return .float (if negative then x.negate else x)

/-- Takes the digits from the front of a text, at least one. -/
def readDigits : Reader Text := fun s =>
  let digits := s.takeWhile Char.isDigit
  if digits.isEmpty then .error s else .ok (digits, s.dropWhile Char.isDigit)

/-- Reads what may stand between the whole part and the exponent. -/
def readFraction : Reader (Option Text)
  | '.' :: rest => do
    let (digits, rest) ← readDigits rest
    return (some digits, rest)
  | s => .ok (none, s)

/-- Reads what may stand at the end of a number. -/
def readPower (s : Text) : Except Text (Option Int × Text) :=
  match s with
  | c :: rest =>
    if c = 'e' ∨ c = 'E' then
      match rest with
      | '-' :: rest => do
        let (digits, rest) ← readDigits rest
        return (some (-(Text.toNat digits : Int)), rest)
      | '+' :: rest => do
        let (digits, rest) ← readDigits rest
        return (some (Text.toNat digits : Int), rest)
      | rest => do
        let (digits, rest) ← readDigits rest
        return (some (Text.toNat digits : Int), rest)
    else .ok (none, s)
  | [] => .ok (none, s)

/-- Reads a number. -/
def readNumber : Reader Number := fun s => do
  let (negative, s) := match s with
    | '-' :: rest => (true, rest)
    | s => (false, s)
  let (whole, rest) ← readDigits s
  if whole.length ≠ 1 ∧ whole.head? = some '0' then throw s
  let (fraction, rest) ← readFraction rest
  let (power, rest) ← readPower rest
  match Number.ofParts? negative whole fraction power with
  | some n => return (n, rest)
  | none => throw rest

/-! ## Values -/

/-- Takes a fixed word from the front of a text. -/
def readWord (word : Text) (value : Json) : Reader Json := fun s =>
  if word.isPrefixOf s then .ok (value, s.drop word.length) else .error s

/-- Reads items up to the closing bracket, at least one and at most `fuel`. -/
def readItems (item : Reader Json) : Nat → Reader (List Json)
  | 0, s => .error s
  | fuel + 1, s => do
    let (value, s) ← item s
    match skipBlanks s with
    | ',' :: rest =>
      let (values, rest) ← readItems item fuel rest
      return (value :: values, rest)
    | ']' :: rest => return ([value], rest)
    | s => throw s

/-- Reads members up to the closing brace, at least one and at most `fuel`. -/
def readMembers (item : Reader Json) : Nat → Reader (List (Text × Json))
  | 0, s => .error s
  | fuel + 1, s => do
    match skipBlanks s with
    | '"' :: rest =>
      let (key, rest) ← readString rest
      match skipBlanks rest with
      | ':' :: rest =>
        let (value, rest) ← item rest
        match skipBlanks rest with
        | ',' :: rest =>
          let (members, rest) ← readMembers item fuel rest
          return ((key, value) :: members, rest)
        | '}' :: rest => return ([(key, value)], rest)
        | s => throw s
      | s => throw s
    | s => throw s

/-- Reads a value that is no container. -/
def readScalar : Reader Json := fun s =>
  match s with
  | 'n' :: _ => readWord "null".toList .null s
  | 't' :: _ => readWord "true".toList (.bool true) s
  | 'f' :: _ => readWord "false".toList (.bool false) s
  | '"' :: rest => do
    let (t, rest) ← readString rest
    return (.string t, rest)
  | s => do
    let (n, rest) ← readNumber s
    return (.number n, rest)

/-- Reads a value with at most `depth` containers one inside another. -/
def readValue : Nat → Reader Json
  | 0, s => readScalar (skipBlanks s)
  | depth + 1, s =>
    match skipBlanks s with
    | '[' :: rest =>
      match skipBlanks rest with
      | ']' :: rest => .ok (.array [], rest)
      | _ => do
        let (items, rest) ← readItems (readValue depth) rest.length rest
        return (.array items, rest)
    | '{' :: rest =>
      match skipBlanks rest with
      | '}' :: rest => .ok (.object [], rest)
      | _ => do
        let (members, rest) ← readMembers (readValue depth) rest.length rest
        return (.ofMembers members, rest)
    | s => readScalar s

/-- How deep containers may be nested. -/
def maxDepth : Nat := 127

/-! ## Whole texts -/

/-- The place of a fault, counted from one. -/
structure Fault where
  line : Nat
  column : Nat
deriving DecidableEq, Repr

/-- The place in `s` at which `rest` is what is left. -/
def Fault.before (s rest : Text) : Fault :=
  let read := s.take (s.length - rest.length)
  ⟨read.count '\n' + 1, (read.reverse.takeWhile (· != '\n')).length + 1⟩

/-- The sentence for a fault. -/
def Fault.message (f : Fault) : Text :=
  "syntax error at line ".toList ++ Text.ofNat f.line ++ " column ".toList ++ Text.ofNat f.column

/-- Reads a text that is one value, with blanks around it or not. -/
def parse (s : Text) : Except Fault Json :=
  match readValue maxDepth s with
  | .error rest => .error (.before s rest)
  | .ok (value, rest) =>
    match skipBlanks rest with
    | [] => .ok value
    | rest => .error (.before s rest)

end UriTemplate.Json
