import Lunify.Chunk.Value
import Lunify.Decimal.Read
import Lunify.Decimal.Shortest
import Lunify.Number

namespace Lunify

namespace Chunk

/-! ### Double precision numbers

The numbers of Lua are doubles. A whole number that fits 64 bits is written without point and
exponent, any other with the fewest digits that read back. -/

namespace Binary64

/-- The place of a byte among the digits, of which letters follow the numbers. -/
def digitValue (b : UInt8) : Nat :=
  if Text.isDigit b then b.toNat - 48
  else
    let l := Text.lowerByte b
    if byte 'a' ≤ l && l ≤ byte 'z' then l.toNat - 87 else 36

/-- The natural number that digits in a base denote, unless there is another byte among them. -/
def natInBase (base : Nat) (s : Text) : Option Nat :=
  s.foldl (fun acc b => acc.bind fun n =>
    if digitValue b < base then some (n * base + digitValue b) else none) (some 0)

/-- Splits off the mark of a base other than ten: a zero, and a letter if more follows. -/
def splitBase (s : Text) : Nat × Text :=
  match s with
  | z :: l :: d :: r =>
    if z != byte '0' then (10, s)
    else
      let l' := Text.lowerByte l
      if l' = byte 'x' then (16, d :: r)
      else if l' = byte 'o' then (8, d :: r)
      else if l' = byte 'b' then (2, d :: r)
      else (8, l :: d :: r)
  | z :: r => if z = byte '0' then (8, r) else (10, s)
  | [] => (10, s)

/-- Whether every underscore stands between digits; the mark of a base counts as a digit. The
argument `after` says whether a digit comes before, or an underscore, or anything else. -/
def underscoresFit (hex : Bool) (after : Option Bool) : Text → Bool
  | [] => after != some false
  | b :: r =>
    if Text.isDigit b || (hex && digitValue b < 16) then underscoresFit hex (some true) r
    else if b = byte '_' then after = some true && underscoresFit hex (some false) r
    else after != some false && underscoresFit hex none r

/-- The text without its underscores, if they are where they may be. -/
def withoutUnderscores (s : Text) : Option Text :=
  if !s.contains (byte '_') then some s
  else
    let body := (Decimal.splitSign s).2
    let (after, hex, digits) := match body with
      | z :: l :: r =>
        let l' := Text.lowerByte l
        if z = byte '0' && (l' = byte 'x' || l' = byte 'o' || l' = byte 'b') then
          (some true, l' == byte 'x', r)
        else (none, false, body)
      | _ => (none, false, body)
    if underscoresFit hex after digits then some (s.filter (· != byte '_')) else none

/-- A whole number in 64 bits, in the base that its mark gives. -/
def integer? (s : Text) : Option Int := do
  let (negative, body) := Decimal.splitSign s
  if body.isEmpty then none
  let (base, digits) := splitBase body
  let n ← natInBase base digits
  let i : Int := if negative then -n else n
  if fitsWord i then some i else none

def scaled (m : Nat) (e : Int) : Float :=
  if 0 ≤ e then Float.ofScientific (m * Nat.pow 2 e.toNat) false 0
  else Float.ofScientific (m * Nat.pow 5 (-e).toNat) true (-e).toNat

/-- A hexadecimal number with a power of two, such as `0x1.8p3`. -/
def hexadecimal? (s : Text) : Option Float := do
  let (negative, body) := Decimal.splitSign s
  if Text.lower (body.take 2) != utf8 "0x" then none
  let (digits, power) ← Text.cutAt (utf8 "p") (Text.lower (body.drop 2))
  let (whole, places) := (Text.cutAt (utf8 ".") digits).getD (digits, [])
  if whole.isEmpty && places.isEmpty then none
  let m ← natInBase 16 (whole ++ places)
  let (down, exponent) := Decimal.splitSign power
  if exponent.isEmpty || !exponent.all Text.isDigit then none
  let n : Int := min (Text.digitsValue exponent) 5000
  let x := scaled m ((if down then -n else n) - 4 * places.length)
  some (if negative then -x else x)

/-- Infinity and the number that is none, by name. -/
def special? (s : Text) : Option Float :=
  let (negative, body) := Decimal.splitSign s
  let name := Text.lower body
  if name = utf8 "inf" || name = utf8 "infinity" then some (if negative then -1 / 0 else 1 / 0)
  else if Text.lower s = utf8 "nan" then some (0 / 0)
  else none

def ofInt (i : Int) : Float :=
  if 0 ≤ i && i < wordLimit then i.toNat.toUInt64.toFloat else Float.ofInt i

def isMargin (b : UInt8) : Bool :=
  b = byte ' ' || b = byte '\t' || b = byte '\n'

/-- The number that a text of any form holds. A decimal beyond all doubles is none. -/
def ofAnyText? (s : Text) : Option Float := do
  let s := Text.dropEndWhile isMargin (s.dropWhile isMargin)
  match special? s with
  | some x => some x
  | none =>
    let s ← withoutUnderscores s
    match integer? s with
    | some i => some (ofInt i)
    | none =>
      match hexadecimal? s with
      | some x => if x.isInf then none else some x
      | none =>
        let x := (← Decimal.read s).toFloat
        if x.isInf then none else some x

/-- Whether a text is a short natural number without a zero before it. -/
def isPlain (s : Text) : Bool :=
  !s.isEmpty && s.length < 16 && s.head? != some (byte '0') && s.all Text.isDigit

def ofText? (s : Text) : Option Float :=
  if isPlain s then some (Text.digitsValue s).toUInt64.toFloat else ofAnyText? s

/-- The number as a whole number in 64 bits. -/
def whole? (x : Float) : Option Int :=
  match Decimal.classify x with
  | .finite b =>
    let magnitude? : Option Nat :=
      if b.mantissa = 0 then some 0
      else if 0 ≤ b.exponent then
        if b.exponent ≤ 64 then some (b.mantissa * Nat.pow 2 b.exponent.toNat) else none
      else
        let unit := Nat.pow 2 (-b.exponent).toNat
        if b.mantissa % unit = 0 then some (b.mantissa / unit) else none
    match magnitude? with
    | some n =>
      let i : Int := if b.negative then -n else n
      if fitsWord i then some i else none
    | none => none
  | _ => none

/-- From this power of ten on a number is written with an exponent. -/
def exponentFrom : Int := 6

/-- The number as text. -/
def text (x : Float) : Text :=
  match whole? x with
  | some i => Text.ofInt i
  | none =>
    match Decimal.classify x with
    | .notANumber => utf8 "NaN"
    | .infinite negative => utf8 (if negative then "-Inf" else "+Inf")
    | .finite b =>
      let d := Decimal.shortest b
      let e := d.point - 1
      (if b.negative then utf8 "-" else []) ++
        if e < -4 || exponentFrom ≤ e then d.scientific else d.positional

/-- The remainder of a division, with the sign of the dividend. -/
def remainder (x y : Float) : Float :=
  match Decimal.classify x, Decimal.classify y with
  | .finite a, .finite b =>
    if b.mantissa = 0 then 0 / 0
    else
      let e := min a.exponent b.exponent
      let m := a.mantissa * Nat.pow 2 (a.exponent - e).toNat
      let n := b.mantissa * Nat.pow 2 (b.exponent - e).toNat
      let r := Float.scaleB (Float.ofNat (m % n)) e
      if a.negative then -r else r
  | .finite _, .infinite _ => x
  | _, _ => 0 / 0

def modulo (x y : Float) : Float :=
  let r := remainder x y
  if (0 < y && r < 0) || (y < 0 && 0 < r) then r + y else r

def isOdd (x : Float) : Bool :=
  match whole? x with
  | some i => i % 2 = 1
  | none => false

/-- Multiplies the first pair by the `n`-th power of the second, where a pair is a number and a
power of two that it is multiplied by. -/
def timesPower : Nat → Nat → Float → Int → Float → Int → Float × Int
  | 0, _, a, ae, _, _ => (a, ae)
  | fuel + 1, n, a, ae, x, xe =>
    if n = 0 then (a, ae)
    else if xe < -4096 || 4096 < xe then (a, ae + xe)
    else
      let (a, ae) := if n % 2 = 1 then (a * x, ae + xe) else (a, ae)
      let square := x * x
      if square < 0.5 then timesPower fuel (n / 2) a ae (square + square) (xe * 2 - 1)
      else timesPower fuel (n / 2) a ae square (xe * 2)

/-- A power of a finite number other than zero, by repeated squaring for the whole part of the
exponent. -/
def finitePower (x y : Float) : Float :=
  let size := y.abs
  let whole := size.floor
  let part := size - whole
  if part != 0 && x < 0 then 0 / 0
  else if 9223372036854775808 ≤ whole then
    if x == -1 then 1 else if (x.abs < 1) == (0 < y) then 0 else 1 / 0
  else
    let (start, whole) :=
      if part == 0 then ((1 : Float), whole)
      else if 0.5 < part then (Float.exp ((part - 1) * Float.log x), whole + 1)
      else (Float.exp (part * Float.log x), whole)
    let (m, e) := Float.frExp x
    let (a, ae) := timesPower 64 whole.toUInt64.toNat start 0 m e
    if y < 0 then Float.scaleB (1 / a) (-ae) else Float.scaleB a ae

/-- A power. -/
def power (x y : Float) : Float :=
  if y == 0 || x == 1 then 1
  else if y == 1 then x
  else if x.isNaN || y.isNaN then 0 / 0
  else if x == 0 then
    if y < 0 then (if isOdd y then 1 / x else 1 / 0) else (if isOdd y then x else 0)
  else if y.isInf then
    if x == -1 then 1 else if (x.abs < 1) == (0 < y) then 0 else 1 / 0
  else if x.isInf then
    if x < 0 then
      if 0 < y then (if isOdd y then x else 1 / 0) else (if isOdd y then -0.0 else 0)
    else if y < 0 then 0 else 1 / 0
  else if y == 0.5 then x.sqrt
  else if y == -0.5 then 1 / x.sqrt
  else finitePower x y

def arith : Arithmetic → Float → Float → Float
  | .add => (· + ·)
  | .sub => (· - ·)
  | .mul => (· * ·)
  | .div => (· / ·)
  | .mod => modulo
  | .pow => power

def itemLimit : Int := 67108864

end Binary64

/-- Doubles as numbers of Lua. -/
def binary64 : Numerals Float where
  literal s := (Binary64.ofText? s).getD (0 / 0)
  ofText? := Binary64.ofText?
  text := Binary64.text
  ofInt := Binary64.ofInt
  arith := Binary64.arith
  neg x := -x
  eq x y := x == y
  lt x y := x < y
  le x y := x ≤ y
  index? x := (Binary64.whole? x).bind fun i =>
    if 0 < i && i < Binary64.itemLimit then some i.toNat else none
  isNaN x := x.isNaN
  whole x := (Binary64.whole? x).getD (Float.toInt64 x).toInt

end Chunk

end Lunify
