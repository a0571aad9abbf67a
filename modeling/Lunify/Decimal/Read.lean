import Lunify.Text.Basic

namespace Lunify

namespace Decimal

/-! ### Reading decimals

A decimal is written as digits with an optional point, and an optional exponent. It is read as a
natural number times a power of ten, which is then rounded to the nearest double. -/

/-- A decimal number as a sign, a natural number and an exponent of ten. -/
structure Scaled where
  negative : Bool
  coefficient : Nat
  exponent : Int
deriving DecidableEq, Repr

/-- Splits off a sign: whether it is a minus, and the text after it. -/
def splitSign (s : Text) : Bool × Text :=
  match s with
  | b :: r => if b = byte '-' then (true, r) else if b = byte '+' then (false, r) else (false, s)
  | [] => (false, s)

/-- The exponent at the end of a decimal, `0` for none. -/
def readExponent (s : Text) : Option Int :=
  match s with
  | [] => some 0
  | b :: r =>
    if b = byte 'e' || b = byte 'E' then
      let (negative, digits) := splitSign r
      if digits.isEmpty || !digits.all Text.isDigit then none
      else
        let n : Int := Text.digitsValue digits
        some (if negative then -n else n)
    else none

/-- Reads a decimal. At least one digit must stand before or after the point. -/
def read (s : Text) : Option Scaled :=
  let (negative, s) := splitSign s
  let whole := s.takeWhile Text.isDigit
  let rest := s.dropWhile Text.isDigit
  let (places, rest) := match rest with
    | b :: r => if b = byte '.' then (r.takeWhile Text.isDigit, r.dropWhile Text.isDigit)
      else ([], rest)
    | [] => ([], rest)
  if whole.isEmpty && places.isEmpty then none
  else (readExponent rest).map fun e =>
    ⟨negative, Text.digitsValue (whole ++ places), e - places.length⟩

/-- The double nearest to a decimal. Decimals beyond all doubles are not scaled up first. -/
def Scaled.toFloat (d : Scaled) : Float :=
  let size : Int := (Text.ofNat d.coefficient).length + d.exponent
  let magnitude : Float :=
    if d.coefficient = 0 then 0
    else if 400 < size then 1 / 0
    else if size < -400 then 0
    else if 0 ≤ d.exponent then Float.ofScientific (d.coefficient * Nat.pow 10 d.exponent.toNat) false 0
    else Float.ofScientific d.coefficient true (-d.exponent).toNat
  if d.negative then -magnitude else magnitude

end Decimal

end Lunify
