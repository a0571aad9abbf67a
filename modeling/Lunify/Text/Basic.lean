namespace Lunify

/-! ### Byte texts

Source text, Lua text, file contents and messages are all lists of bytes. Columns and lengths
count bytes, and a text need not be well-formed UTF-8, so `String` would be the wrong carrier.
A literal is written `utf8 "…"`; it unfolds to the list of its bytes. -/

abbrev Text := List UInt8

def utf8 (s : String) : Text :=
  s.toByteArray.data.toList

def byte (c : Char) : UInt8 :=
  c.toNat.toUInt8

namespace Text

/-- The decimal digits of a natural number, without leading zeros. -/
def ofNat (n : Nat) : Text :=
  (Nat.toDigits 10 n).map byte

/-- The decimal digits of an integer, after a minus sign when it is negative. -/
def ofInt : Int → Text
  | .ofNat n => ofNat n
  | .negSucc n => byte '-' :: ofNat (n + 1)

def times (n : Nat) (s : Text) : Text :=
  (List.replicate n s).flatten

def blanks (n : Nat) : Text :=
  List.replicate n (byte ' ')

def join (sep : Text) (pieces : List Text) : Text :=
  List.intercalate sep pieces

/-- The pieces between the occurrences of `sep`: `n` occurrences give `n + 1` pieces. -/
def splitOn (sep : UInt8) (s : Text) : List Text :=
  match _h : s.dropWhile (· != sep) with
  | [] => [s]
  | _ :: r => s.takeWhile (· != sep) :: splitOn sep r
termination_by s.length
decreasing_by
  have hle : (s.dropWhile (· != sep)).length ≤ s.length := (List.dropWhile_sublist _).length_le
  rw [_h, List.length_cons] at hle
  omega

/-- The lines of a text, without their line feeds. The last line is the text after the last
line feed, and may be empty. -/
def lines (s : Text) : List Text :=
  splitOn (byte '\n') s

/-- Cuts a text around the first occurrence of `mark`. -/
def cutAt (mark : Text) : Text → Option (Text × Text)
  | [] => if mark.isEmpty then some ([], []) else none
  | b :: r =>
    if mark.isPrefixOf (b :: r) then
      some ([], (b :: r).drop mark.length)
    else
      (cutAt mark r).map fun (before, after) => (b :: before, after)

def hasPart (mark s : Text) : Bool :=
  (cutAt mark s).isSome

def dropEndWhile (p : UInt8 → Bool) (s : Text) : Text :=
  (s.reverse.dropWhile p).reverse

def le (a b : Text) : Bool :=
  !(List.lex b a)

def sorted (ts : List Text) : List Text :=
  ts.mergeSort le

/-- Removes later repetitions, keeping the order of first occurrences. -/
def distinct (ts : List Text) : List Text :=
  ts.foldl (fun seen t => if seen.contains t then seen else seen ++ [t]) []

def hexDigit (n : Nat) : UInt8 :=
  byte (Nat.digitChar n)

def hex (width n : Nat) : Text :=
  (List.range width).reverse.map fun i => hexDigit (n / Nat.pow 16 i % 16)

def toHex (s : Text) : Text :=
  s.flatMap fun b => hex 2 b.toNat

def isDigit (b : UInt8) : Bool :=
  byte '0' ≤ b && b ≤ byte '9'

def digitsValue (s : Text) : Nat :=
  s.foldl (fun n b => 10 * n + (b - byte '0').toNat) 0

def lowerByte (b : UInt8) : UInt8 :=
  if byte 'A' ≤ b && b ≤ byte 'Z' then b + 32 else b

def upperByte (b : UInt8) : UInt8 :=
  if byte 'a' ≤ b && b ≤ byte 'z' then b - 32 else b

def lower (s : Text) : Text :=
  s.map lowerByte

def upper (s : Text) : Text :=
  s.map upperByte

end Text

end Lunify
