import UriTemplate.Binary64
import UriTemplate.Text

/-!
# Shortest decimals

A double is written with the fewest digits that read back as the same double.
For one, two, … seventeen digits the two decimals on either side of the value
are tried; the first count of digits with a decimal that rounds to the value
wins, and of two such decimals the nearer one, or in a tie the even one.

Numbers from `0.00001` up to below `1e16` are written positionally, all others
with an exponent.
-/

namespace UriTemplate

namespace Binary64

/-- A decimal: `digits · 10 ^ exponent`. -/
structure Decimal where
  /-- All digits as one number. -/
  digits : Nat
  /-- The power of ten of the last digit. -/
  exponent : Int
deriving DecidableEq

/-- The decimal without zeros at its end. -/
def Decimal.trim (digits : Nat) (exponent : Int) : Decimal :=
  if 0 < digits ∧ digits % 10 = 0 then trim (digits / 10) (exponent + 1) else ⟨digits, exponent⟩
termination_by digits
decreasing_by omega

/-- Compares `a · 10 ^ k` with `b · 2 ^ e`. -/
def compareScaled (a : Nat) (k : Int) (b : Nat) (e : Int) : Ordering :=
  compare (a * Nat.pow 10 k.toNat * Nat.pow 2 (-e).toNat)
    (b * Nat.pow 2 e.toNat * Nat.pow 10 (-k).toNat)

/-- Whether a decimal rounds to the double.  The bounds of the interval that
does are half-way to the neighbours, which are counted in quarters of the last
place here; they belong to it when the significand is even. -/
def roundsTo (x : Binary64) (c : Nat) (k : Int) : Bool :=
  let below := if x.significand = Nat.pow 2 52 ∧ -1074 < x.exponent then 1 else 2
  let low := compareScaled c k (4 * x.significand - below) (x.exponent - 2)
  let high := compareScaled c k (4 * x.significand + 2) (x.exponent - 2)
  let even := x.significand % 2 == 0
  (low == .gt || (low == .eq && even)) && (high == .lt || (high == .eq && even))

/-- The magnitude divided by `10 ^ k`, rounded down. -/
def floorAt (x : Binary64) (k : Int) : Nat :=
  x.num * Nat.pow 10 (-k).toNat / (x.den * Nat.pow 10 k.toNat)

/-- The power of ten of the first digit. -/
def leadingPower (x : Binary64) : Int :=
  let whole := x.floorAt 0
  if 0 < whole then (Text.ofNat whole).length - 1
  else match (List.range 400).find? fun (j : Nat) => 0 < x.floorAt (-j) with
    | some j => -j
    | none => 0

/-- A decimal next to the value on the grid of multiples of `10 ^ k`. -/
def onGrid? (x : Binary64) (k : Int) : Option Decimal :=
  let c := x.floorAt k
  let nearer : Nat :=
    match compareScaled (2 * c + 1) k (2 * x.significand) x.exponent with
    | .gt => c
    | .lt => c + 1
    | .eq => c + c % 2
  let farther : Nat := if nearer == c then c + 1 else c
  if x.roundsTo nearer k then some (.trim nearer k)
  else if x.roundsTo farther k then some (.trim farther k)
  else none

/-- The shortest decimal that reads back as the magnitude. -/
def shortest (x : Binary64) : Decimal :=
  let power := x.leadingPower
  ((List.range 17).findSome? fun (i : Nat) => x.onGrid? (power - i)).getD ⟨0, 0⟩

/-- The decimal positionally or with an exponent. -/
def Decimal.text (d : Decimal) : Text :=
  let digits := Text.ofNat d.digits
  let point : Int := digits.length + d.exponent
  if 0 ≤ d.exponent ∧ point ≤ 16 then
    digits ++ List.replicate d.exponent.toNat '0' ++ ['.', '0']
  else if 0 < point ∧ point ≤ 16 then
    digits.take point.toNat ++ '.' :: digits.drop point.toNat
  else if -5 < point ∧ point ≤ 0 then
    '0' :: '.' :: (List.replicate (-point).toNat '0' ++ digits)
  else
    let power := if 0 ≤ point - 1 then '+' :: Text.ofInt (point - 1) else Text.ofInt (point - 1)
    match digits with
    | [] => []
    | [c] => c :: 'e' :: power
    | c :: rest => c :: '.' :: (rest ++ 'e' :: power)

/-- The number as it is written. -/
def text (x : Binary64) : Text :=
  let magnitude := if x.significand = 0 then ['0', '.', '0'] else x.shortest.text
  if x.negative then '-' :: magnitude else magnitude

end Binary64

end UriTemplate
