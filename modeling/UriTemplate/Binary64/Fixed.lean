import UriTemplate.Binary64
import UriTemplate.Text

/-!
# Fixed decimals

A magnitude with a given number of places after the point.  The exact value is
rounded once; a tie goes to the even neighbour.
-/

namespace UriTemplate.Binary64

/-- Digits with a point before the last `places` of them. -/
def pointed (places n : Nat) : Text :=
  let fraction := Text.ofNat (n % Nat.pow 10 places)
  Text.ofNat (n / Nat.pow 10 places) ++
    '.' :: (List.replicate (places - fraction.length) '0' ++ fraction)

/-- The magnitude with `places` digits after the point. -/
def fixed (x : Binary64) (places : Nat) : Text :=
  pointed places (roundHalfEven (x.num * Nat.pow 10 places) x.den)

end UriTemplate.Binary64
