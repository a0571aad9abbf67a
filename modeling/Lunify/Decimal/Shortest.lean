import Lunify.Text.Basic

namespace Lunify

namespace Decimal

/-! ### Shortest decimals

A finite double is a natural number times a power of two. The reals that round to it form an
interval around it, whose ends belong to it when the number is even. Among the decimals in that
interval those with the fewest digits are sought, and of these the nearest to the double. For a
given number of digits only the two neighbours of the value on the decimal grid need a look. -/

/-- A finite double as a sign, a natural number and an exponent of two. -/
structure Binary where
  negative : Bool
  mantissa : Nat
  exponent : Int
deriving DecidableEq, Repr

/-- What a double is. -/
inductive Class where
  | finite (b : Binary)
  | infinite (negative : Bool)
  | notANumber
deriving DecidableEq, Repr

def leastExponent : Int := -1074

/-- Reads a double off its bits. -/
def classify (x : Float) : Class :=
  let bits := x.toBits.toNat
  let negative := Nat.pow 2 63 ≤ bits
  let e : Nat := bits / Nat.pow 2 52 % Nat.pow 2 11
  let fraction : Nat := bits % Nat.pow 2 52
  if e = 2047 then
    if fraction = 0 then .infinite negative else .notANumber
  else if e = 0 then .finite ⟨negative, fraction, leastExponent⟩
  else .finite ⟨negative, fraction + Nat.pow 2 52, (e : Int) - 1075⟩

/-- The decimal `0.d₁d₂d₃… · 10 ^ point`, with the digits as a text. -/
structure Digits where
  digits : Text
  point : Int
deriving DecidableEq, Repr

/-- A ratio of natural numbers, with a positive denominator. -/
structure Ratio where
  num : Nat
  den : Nat
deriving DecidableEq, Repr

def Ratio.scale (r : Ratio) (k : Int) : Ratio :=
  if 0 ≤ k then ⟨r.num * Nat.pow 10 k.toNat, r.den⟩ else ⟨r.num, r.den * Nat.pow 10 (-k).toNat⟩

def quarters (n : Nat) (e : Int) : Ratio :=
  if 0 ≤ e then ⟨n * Nat.pow 2 e.toNat, 4⟩ else ⟨n, 4 * Nat.pow 2 (-e).toNat⟩

/-- The least `p` from `start` on, within `fuel` steps, such that the ratio is below `10 ^ p`. -/
def pointFrom (r : Ratio) : Nat → Int → Int
  | 0, p => p
  | fuel + 1, p =>
    let s := r.scale (-p)
    if s.num < s.den then p else pointFrom r fuel (p + 1)

/-- The number of decimal places before the point of a positive ratio. -/
def pointOf (r : Ratio) : Int :=
  let bits : Int := (Nat.log2 r.num : Int) - (Nat.log2 r.den : Int)
  pointFrom r 8 (bits * 30103 / 100000 - 2)

/-- The number on the decimal grid of `n` digits that is chosen for a value between two ends, if
the grid has one between them. -/
def onGrid (low value high : Ratio) (closed : Bool) (k : Int) : Option Nat :=
  let v := value.scale (-k)
  let lo := low.scale (-k)
  let hi := high.scale (-k)
  let inside (c : Nat) : Bool :=
    if closed then lo.num ≤ c * lo.den && c * hi.den ≤ hi.num
    else lo.num < c * lo.den && c * hi.den < hi.num
  let c := v.num / v.den
  let below := v.num - c * v.den
  let above := (c + 1) * v.den - v.num
  match inside c, inside (c + 1) with
  | true, true => some (if below < above || (below = above && c % 2 = 0) then c else c + 1)
  | true, false => some c
  | false, true => some (c + 1)
  | false, false => none

/-- The first grid of at least `n` and at most `n + fuel` digits that has a number. -/
def firstGrid (low value high : Ratio) (closed : Bool) (point : Int) : Nat → Nat → Nat × Int
  | 0, n => ((value.scale ((n : Int) - point)).num, point - n)
  | fuel + 1, n =>
    match onGrid low value high closed (point - n) with
    | some c => (c, point - n)
    | none => firstGrid low value high closed point fuel (n + 1)

/-- The digits of a natural number times a power of ten, without zeros at the end. -/
def Digits.ofNat (c : Nat) (k : Int) : Digits :=
  let digits := Text.ofNat c
  ⟨Text.dropEndWhile (· = byte '0') digits, digits.length + k⟩

/-- The shortest decimal that rounds to a positive double. -/
def shortest (b : Binary) : Digits :=
  let m := b.mantissa
  let below := if m = Nat.pow 2 52 && leastExponent < b.exponent then 4 * m - 1 else 4 * m - 2
  let value := quarters (4 * m) b.exponent
  let (c, k) := firstGrid (quarters below b.exponent) value (quarters (4 * m + 2) b.exponent)
    (m % 2 = 0) (pointOf value) 17 1
  Digits.ofNat c k

namespace Digits

/-- The decimal without an exponent. -/
def positional (d : Digits) : Text :=
  let n := d.digits.length
  if d.point ≤ 0 then utf8 "0." ++ List.replicate (-d.point).toNat (byte '0') ++ d.digits
  else if n ≤ d.point.toNat then d.digits ++ List.replicate (d.point.toNat - n) (byte '0')
  else d.digits.take d.point.toNat ++ utf8 "." ++ d.digits.drop d.point.toNat

/-- The decimal with one digit before the point and an exponent of at least two digits. -/
def scientific (d : Digits) : Text :=
  let e := d.point - 1
  let magnitude := Text.ofNat e.natAbs
  d.digits.take 1 ++
    (if 1 < d.digits.length then utf8 "." ++ d.digits.drop 1 else []) ++
    utf8 (if e < 0 then "e-" else "e+") ++
    (if magnitude.length < 2 then utf8 "0" else []) ++ magnitude

end Digits

end Decimal

end Lunify
