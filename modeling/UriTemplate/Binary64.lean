/-!
# Double-precision numbers

A finite double is a whole number of at most 53 bits times a power of two.
Every operation computes its exact result as a ratio of natural numbers and
rounds that ratio once, to the nearest double and to the even one in a tie.
-/

namespace UriTemplate

/-- A finite double: a sign, and the magnitude `significand · 2 ^ exponent`. -/
structure Binary64 where
  /-- Whether there is a minus sign; zero can have one too. -/
  negative : Bool
  /-- At most 53 bits; fewer than that only at the least exponent. -/
  significand : Nat
  /-- From -1074 to 971. -/
  exponent : Int
deriving DecidableEq, Repr

/-- The whole number nearest to a ratio, the even one in a tie. -/
def roundHalfEven (num den : Nat) : Nat :=
  let q := num / den
  let r := num % den
  if 2 * r < den then q
  else if den < 2 * r then q + 1
  else q + q % 2

/-- The ratio divided by a power of two. -/
def unscale (num den : Nat) (e : Int) : Nat × Nat :=
  (num * Nat.pow 2 (-e).toNat, den * Nat.pow 2 e.toNat)

namespace Binary64

/-- Zero without a sign. -/
def zero : Binary64 := ⟨false, 0, -1074⟩

/-- The double nearest to a positive ratio, or nothing past the largest one. -/
def ofRatio? (num den : Nat) : Option Binary64 :=
  if num = 0 then some zero
  else
    let guess : Int := (Nat.log2 num : Int) - Nat.log2 den
    let (n, d) := unscale num den guess
    let floor := if n < d then guess - 1 else guess
    let e := max (floor - 52) (-1074)
    let (n, d) := unscale num den e
    let m := roundHalfEven n d
    let (m, e) := if m = Nat.pow 2 53 then (Nat.pow 2 52, e + 1) else (m, e)
    if 971 < e then none else some ⟨false, m, e⟩

/-- The numerator of the magnitude. -/
def num (x : Binary64) : Nat :=
  x.significand * Nat.pow 2 x.exponent.toNat

/-- The denominator of the magnitude. -/
def den (x : Binary64) : Nat :=
  Nat.pow 2 (-x.exponent).toNat

/-- The sum of two magnitudes. -/
def plus? (x y : Binary64) : Option Binary64 :=
  ofRatio? (x.num * y.den + y.num * x.den) (x.den * y.den)

/-- The product of two magnitudes. -/
def times? (x y : Binary64) : Option Binary64 :=
  ofRatio? (x.num * y.num) (x.den * y.den)

/-- The quotient of two magnitudes. -/
def over? (x y : Binary64) : Option Binary64 :=
  ofRatio? (x.num * y.den) (x.den * y.num)

/-- The double nearest to a power of ten. -/
def tenTo? (n : Nat) : Option Binary64 :=
  ofRatio? (Nat.pow 10 n) 1

/-- The magnitude times a power of ten, which is rounded first.  Powers below
the 308th negative one are taken in steps of 308. -/
def scale? (x : Binary64) (e : Int) : Option Binary64 :=
  if x.significand = 0 then some x
  else if 308 < e then none
  else if 0 ≤ e then do x.times? (← tenTo? e.toNat)
  else if -308 ≤ e then do x.over? (← tenTo? (-e).toNat)
  else do scale? (← x.over? (← tenTo? 308)) (e + 308)
termination_by (-e).toNat
decreasing_by omega

/-- The number with a minus sign if it has none yet. -/
def negate (x : Binary64) : Binary64 :=
  { x with negative := true }

end Binary64

end UriTemplate
