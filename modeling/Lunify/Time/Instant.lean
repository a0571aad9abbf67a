import Lunify.Text.Basic

namespace Lunify

/-! ### Points in time

A point in time as a calendar and a clock show it, with the distance of the clock from universal
time. -/

/-- A date and a time of day. -/
structure Instant where
  year : Nat
  month : Nat
  day : Nat
  hour : Nat
  minute : Nat
  second : Nat
  millisecond : Nat
  /-- Whether the clock is behind universal time. -/
  behind : Bool
  /-- The minutes between the clock and universal time. -/
  offset : Nat
deriving DecidableEq, Repr

namespace Instant

def digits (width n : Nat) : Text :=
  let s := Text.ofNat n
  List.replicate (width - s.length) (byte '0') ++ s

def numberAt (s : Text) (start width : Nat) : Nat :=
  Text.digitsValue ((s.drop start).take width)

/-- Reads a time such as `2024-10-19T12:34:56.789+02:00`. -/
def ofText (s : Text) : Instant :=
  let rest := s.drop 19
  let (fraction, zone) := match rest with
    | b :: r => if b = byte '.' then (r.takeWhile Text.isDigit, r.dropWhile Text.isDigit)
      else ([], rest)
    | [] => ([], [])
  { year := numberAt s 0 4
    month := numberAt s 5 2
    day := numberAt s 8 2
    hour := numberAt s 11 2
    minute := numberAt s 14 2
    second := numberAt s 17 2
    millisecond := Text.digitsValue ((fraction ++ utf8 "000").take 3)
    behind := zone.head? = some (byte '-')
    offset := if zone.length < 6 then 0 else 60 * numberAt zone 1 2 + numberAt zone 4 2 }

/-- The time with date and zone, to the second. -/
def full (t : Instant) : Text :=
  digits 4 t.year ++ utf8 "-" ++ digits 2 t.month ++ utf8 "-" ++ digits 2 t.day ++ utf8 "T" ++
    digits 2 t.hour ++ utf8 ":" ++ digits 2 t.minute ++ utf8 ":" ++ digits 2 t.second ++
    utf8 (if t.behind then "-" else "+") ++ digits 2 (t.offset / 60) ++ digits 2 (t.offset % 60)

/-- The time without year and zone, to the millisecond. -/
def brief (t : Instant) : Text :=
  digits 2 t.month ++ utf8 "-" ++ digits 2 t.day ++ utf8 "|" ++ digits 2 t.hour ++ utf8 ":" ++
    digits 2 t.minute ++ utf8 ":" ++ digits 2 t.second ++ utf8 "." ++ digits 3 t.millisecond

end Instant

end Lunify
