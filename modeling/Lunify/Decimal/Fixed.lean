import Lunify.Decimal.Shortest

namespace Lunify

namespace Decimal

/-! ### Fixed places

A number with a given count of digits after the point, rounded to the nearest such number; of two
that are equally near the even one is taken. -/

/-- The quotient of two natural numbers, rounded to the nearest, and to the even one of two. -/
def roundDiv (num den : Nat) : Nat :=
  let q := num / den
  let r := num % den
  if 2 * r < den || (2 * r = den && q % 2 = 0) then q else q + 1

/-- A natural number of units of the last of `places` digits after the point. -/
def withPoint (places n : Nat) : Text :=
  let digits := Text.ofNat n
  let padded := List.replicate (places + 1 - digits.length) (byte '0') ++ digits
  if places = 0 then padded
  else padded.take (padded.length - places) ++ utf8 "." ++ padded.drop (padded.length - places)

/-- A double with `places` digits after the point. -/
def fixed (places : Nat) (x : Float) : Text :=
  match classify x with
  | .notANumber => utf8 "NaN"
  | .infinite negative => utf8 (if negative then "-Inf" else "+Inf")
  | .finite b =>
    let n := b.mantissa * Nat.pow 10 places
    let units := if 0 ≤ b.exponent then n * Nat.pow 2 b.exponent.toNat
      else roundDiv n (Nat.pow 2 (-b.exponent).toNat)
    (if b.negative then utf8 "-" else []) ++ withPoint places units

end Decimal

end Lunify
