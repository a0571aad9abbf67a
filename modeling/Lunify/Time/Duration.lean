import Lunify.Number
import Lunify.Text.Basic

namespace Lunify

/-! ### Durations

A length of time in nanoseconds, written in hours, minutes and seconds, or in a smaller unit when
it is below a second. -/

/-- A length of time. -/
structure Duration where
  nanoseconds : Int
deriving DecidableEq, Repr

namespace Duration

def microsecond : Nat := 1000

def millisecond : Nat := 1000000

def second : Nat := 1000000000

/-- A number of parts of a unit that has `10 ^ places` parts, without zeros at the end. -/
def inUnits (places n : Nat) : Text :=
  let unit := Nat.pow 10 places
  let digits := Text.ofNat (n % unit)
  let part := Text.dropEndWhile (· = byte '0')
    (List.replicate (places - digits.length) (byte '0') ++ digits)
  Text.ofNat (n / unit) ++ if part.isEmpty then [] else utf8 "." ++ part

/-- The size of a duration, without its sign. -/
def magnitude (n : Nat) : Text :=
  if n = 0 then utf8 "0s"
  else if n < microsecond then Text.ofNat n ++ utf8 "ns"
  else if n < millisecond then inUnits 3 n ++ utf8 "µs"
  else if n < second then inUnits 6 n ++ utf8 "ms"
  else
    let minutes := n / (60 * second)
    let seconds := inUnits 9 (n % (60 * second)) ++ utf8 "s"
    if minutes = 0 then seconds
    else if minutes < 60 then Text.ofNat minutes ++ utf8 "m" ++ seconds
    else Text.ofNat (minutes / 60) ++ utf8 "h" ++ Text.ofNat (minutes % 60) ++ utf8 "m" ++ seconds

def text (d : Duration) : Text :=
  (if d.nanoseconds < 0 then utf8 "-" else []) ++ magnitude d.nanoseconds.natAbs

def limit : Int := wordLimit

/-- The nearest multiple of a unit; a half goes away from zero. What would leave the bounds goes to
the bound. -/
def round (unit : Nat) (d : Duration) : Duration :=
  let n := d.nanoseconds.natAbs
  let r := n % unit
  let rounded : Int := if r + r < unit then n - r else n - r + unit
  if d.nanoseconds < 0 then
    ⟨if rounded ≤ limit then -rounded else -limit⟩
  else ⟨if rounded < limit then rounded else limit - 1⟩

/-- The nanoseconds of the units that a duration may be written in. -/
def units : List (Text × Nat) :=
  [(utf8 "ns", 1), (utf8 "us", microsecond), (utf8 "µs", microsecond), (utf8 "μs", microsecond),
    (utf8 "ms", millisecond), (utf8 "s", second), (utf8 "m", 60 * second),
    (utf8 "h", 3600 * second)]

def isNumeric (b : UInt8) : Bool :=
  Text.isDigit b || b = byte '.'

/-- The nanoseconds of a number and a unit. -/
def part? (number unit : Text) : Option Nat := do
  let whole := number.takeWhile Text.isDigit
  let places := (number.dropWhile Text.isDigit).drop 1
  if (whole.isEmpty && places.isEmpty) || !places.all Text.isDigit then none
  else
    let n ← units.lookup unit
    return Text.digitsValue (whole ++ places) * n / Nat.pow 10 places.length

/-- The nanoseconds of numbers with units, no more than `fuel` of them. -/
def parts? : Nat → Text → Option Nat
  | 0, s => if s.isEmpty then some 0 else none
  | fuel + 1, s => do
    if s.isEmpty then return 0
    let rest := s.dropWhile isNumeric
    let first ← part? (s.takeWhile isNumeric) (rest.takeWhile fun b => !isNumeric b)
    return first + (← parts? fuel (rest.dropWhile fun b => !isNumeric b))

/-- The duration that a text such as `1h2.5s` holds. -/
def ofText? (s : Text) : Option Duration := do
  let negative := s.head? = some (byte '-')
  let s := if negative || s.head? = some (byte '+') then s.drop 1 else s
  if s = utf8 "0" then return ⟨0⟩
  if s.isEmpty then none
  let n : Int ← parts? s.length s
  let d := if negative then -n else n
  if -limit ≤ d && d < limit then some ⟨d⟩ else none

end Duration

end Lunify
