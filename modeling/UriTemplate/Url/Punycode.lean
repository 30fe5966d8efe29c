import UriTemplate.Text

/-!
# Punycode

A label of a domain that is not ASCII is written as its ASCII characters and the
places of the others, each place as the difference to the one before.  The
differences are numbers of varying length in base 36, whose digits end at
thresholds that adapt to the differences seen so far.  `encode` writes a label
and `decode?` reads it back.
-/

namespace UriTemplate.Url.Punycode

/-- The character for a digit below 36: letters first, then decimal digits. -/
def digit (n : Nat) : Char :=
  if n < 26 then Char.ofNat ('a'.toNat + n) else Char.ofNat ('0'.toNat + (n - 26))

/-- The least digit that does not end a number, for the digit at a weight. -/
def threshold (weight bias : Nat) : Nat :=
  min 26 (max 1 (weight - bias))

/-- The digit that a character stands for. -/
def digitValue? (c : Char) : Option Nat :=
  if 'a' ≤ c ∧ c ≤ 'z' then some (c.toNat - 'a'.toNat)
  else if c.isDigit then some (26 + Text.digitValue c)
  else none

/-- A number in digits, the lowest one first. -/
def digits (bias weight n : Nat) : Text :=
  let t := threshold weight bias
  if n < t then [digit n]
  else digit (t + (n - t) % (36 - t)) :: digits bias (weight + 36) ((n - t) / (36 - t))
termination_by n
decreasing_by
  have hpos : 1 ≤ threshold weight bias := by simp only [threshold]; omega
  have hle := Nat.div_le_self (n - threshold weight bias) (36 - threshold weight bias)
  omega

/-- Scales a difference down to where its digits are few. -/
def settle (delta weight : Nat) : Nat :=
  if 455 < delta then settle (delta / 35) (weight + 36)
  else weight + 36 * delta / (delta + 38)
termination_by delta
decreasing_by omega

/-- The bias after a difference, which was the first one or not, with `points`
characters placed. -/
def adapt (delta points : Nat) (first : Bool) : Nat :=
  let scaled := if first then delta / 700 else delta / 2
  settle (scaled + scaled / points) 0

/-- What has been written of a label. -/
structure Progress where
  written : Text
  /-- The difference that has yet to be written. -/
  delta : Nat
  /-- The bias of the next number. -/
  bias : Nat
  /-- The number of characters placed. -/
  placed : Nat

/-- Passes a character while those numbered `point` are placed. -/
def pass (ascii point : Nat) (p : Progress) (c : Char) : Progress :=
  if c.toNat < point then { p with delta := p.delta + 1 }
  else if c.toNat = point then
    { written := p.written ++ digits p.bias 36 p.delta
      delta := 0
      bias := adapt p.delta (p.placed + 1) (p.placed == ascii)
      placed := p.placed + 1 }
  else p

/-- Places the characters with the given numbers, which increase from `next`. -/
def place (label : Text) (ascii : Nat) (p : Progress) (next : Nat) : List Nat → Progress
  | [] => p
  | point :: rest =>
    let p := { p with delta := p.delta + (point - next) * (p.placed + 1) }
    let p := label.foldl (pass ascii point) p
    place label ascii { p with delta := p.delta + 1 } (point + 1) rest

/-- A label in ASCII, without the mark that domains put before it. -/
def encode (label : Text) : Text :=
  let ascii := label.filter fun c => c.toNat < 0x80
  let points := (label.filter fun c => 0x80 ≤ c.toNat).map Char.toNat
  let points := (points.mergeSort (· ≤ ·)).eraseReps
  let start := if ascii.isEmpty then [] else ascii ++ ['-']
  (place label ascii.length ⟨start, 0, 72, ascii.length⟩ 0x80 points).written

/-- The number at the front of a text and what stands after it. -/
def number? (bias weight : Nat) : Text → Option (Nat × Text)
  | [] => none
  | c :: rest => do
    let d ← digitValue? c
    let t := threshold weight bias
    if d < t then return (d, rest)
    else
      let (n, rest) ← number? bias (weight + 36) rest
      return (d + (36 - t) * n, rest)

theorem length_lt_of_number? {bias weight n : Nat} {t rest : Text}
    (h : number? bias weight t = some (n, rest)) : rest.length < t.length := by
  induction t generalizing weight n with
  | nil => simp [number?] at h
  | cons c t ih =>
    cases hd : digitValue? c with
    | none => simp [number?, hd] at h
    | some d =>
      by_cases hlt : d < threshold weight bias
      · simp [number?, hd, hlt] at h
        simp [← h.2]
      · simp [number?, hd, hlt, Option.bind_eq_some_iff] at h
        obtain ⟨m, hm, -⟩ := h
        exact Nat.lt_succ_of_lt (ih hm)

/-- Places the characters that a text spells.  The next one is `start` places or
more behind the front of the label, counted in rounds through it; each round
raises its number from `point` by one. -/
def insertAll? (bias start point : Nat) (label t : Text) : Option Text :=
  match t with
  | [] => some label
  | c :: t =>
    match h : number? bias 36 (c :: t) with
    | none => none
    | some (delta, rest) =>
      let places := label.length + 1
      let place := (start + delta) % places
      let point := point + (start + delta) / places
      if point.isValidChar then
        insertAll? (adapt delta places (start == 0)) (place + 1) point
          (label.insertIdx place (Char.ofNat point)) rest
      else none
termination_by t.length
decreasing_by exact length_lt_of_number? h

/-- The label that an ASCII text encodes, if it encodes one. -/
def decode? (t : Text) : Option Text :=
  if t.any (0x80 ≤ ·.toNat) then none
  else
    match Text.splitLast '-' t with
    | some (c :: ascii, rest) => insertAll? 72 0 0x80 (c :: ascii) rest
    | _ => insertAll? 72 0 0x80 [] t

end UriTemplate.Url.Punycode
