import Lunify.Token.Basic

namespace Lunify

namespace Lexeme

/-! ### Lexemes

Each matcher says how many bytes at the start of a text belong to its category, `0` when none do.
The categories are tried in a fixed order and the first that matches wins, so a reserved word is
never an identifier and `not`, `and` and `or` are operators. -/

def isLetter (b : UInt8) : Bool :=
  b = byte '_' || (byte 'a' ≤ b && b ≤ byte 'z') || (byte 'A' ≤ b && b ≤ byte 'Z')

def isWordByte (b : UInt8) : Bool :=
  isLetter b || Text.isDigit b

/-- The length of the word at the start: a letter, then letters and digits. -/
def word : Text → Nat
  | [] => 0
  | b :: r => if isLetter b then 1 + (r.takeWhile isWordByte).length else 0

def digits (s : Text) : Nat :=
  (s.takeWhile Text.isDigit).length

def keyword (s : Text) : Nat :=
  if isReserved (s.take (word s)) then word s else 0

/-- The operators written with symbols, longer ones before their beginnings. -/
def symbolOperators : List Text :=
  ["**", "==", "!=", "<=", ">=", "+", "-", "*", "/", "%", "=", "<", ">"].map utf8

def wordOperators : List Text :=
  ["not", "and", "or"].map utf8

def operator (s : Text) : Nat :=
  match symbolOperators.find? (·.isPrefixOf s) with
  | some op => op.length
  | none => if wordOperators.contains (s.take (word s)) then word s else 0

/-- The length of the exponent at the start: a mark, an optional sign and at least one digit. -/
def exponent : Text → Nat
  | [] => 0
  | b :: r =>
    if b = byte 'e' || b = byte 'E' then
      match r with
      | [] => 0
      | c :: r' =>
        if c = byte '+' || c = byte '-' then
          if 0 < digits r' then 2 + digits r' else 0
        else
          if 0 < digits r then 1 + digits r else 0
    else 0

/-- The length of a number without its exponent: digits with an optional point and more digits,
or a point and at least one digit. -/
def mantissa (s : Text) : Nat :=
  if 0 < digits s then
    match s.drop (digits s) with
    | [] => digits s
    | b :: r => if b = byte '.' then digits s + 1 + digits r else digits s
  else
    match s with
    | [] => 0
    | b :: r => if b = byte '.' && 0 < digits r then 1 + digits r else 0

def number (s : Text) : Nat :=
  if mantissa s = 0 then 0 else mantissa s + exponent (s.drop (mantissa s))

def dividerBytes : Text :=
  utf8 ",()[]\x7b\x7d:"

def divider : Text → Nat
  | [] => 0
  | b :: _ => if dividerBytes.contains b then 1 else 0

def doubleQuote : UInt8 := 34

def singleQuote : UInt8 := 39

/-- A string: everything from a quote to the next quote of the same kind on the line. -/
def string : Text → Nat
  | [] => 0
  | q :: r =>
    if q = doubleQuote || q = singleQuote then
      match r.dropWhile (fun b => b != q && b != byte '\n') with
      | [] => 0
      | b :: _ => if b = q then 2 + (r.takeWhile fun b => b != q && b != byte '\n').length else 0
    else 0

def matchers : List (Kind × (Text → Nat)) :=
  [(.keyword, keyword), (.operator, operator), (.identifier, word), (.number, number),
    (.divider, divider), (.string, string)]

/-- The lexeme at the start of a text, with its length, which is positive. -/
def first? (s : Text) : Option (Kind × Nat) :=
  matchers.findSome? fun (kind, length) => if 0 < length s then some (kind, length s) else none

/-- A lexeme is never empty. -/
theorem length_pos_of_first? {s : Text} {kind : Kind} {n : Nat} (h : first? s = some (kind, n)) :
    0 < n := by
  obtain ⟨⟨_, length⟩, _, hm⟩ := List.exists_of_findSome?_eq_some h
  by_cases hpos : 0 < length s
  · simp only [hpos, if_true, Option.some.injEq, Prod.mk.injEq] at hm
    exact hm.2 ▸ hpos
  · simp [hpos] at hm

end Lexeme

end Lunify
