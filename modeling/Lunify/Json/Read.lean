import Lunify.Json.Basic
import Lunify.Text.Blank
import Lunify.Text.Quoted

namespace Lunify

namespace Json

/-! ### Reading JSON

The reader goes through the text once and stops at the first byte that cannot continue a value.
Arrays and objects may be nested `nestingLimit` deep. An escaped surrogate without its partner is
read as U+FFFD, and so is a byte that belongs to no character. -/

/-- The place where a character cannot stand. -/
inductive Spot where
  | valueStart
  | keyStart
  | afterKey
  | afterMember
  | afterItem
  | inNumber
  | inString
  | inLiteral (word : Text) (expected : UInt8)
  | afterValue
deriving DecidableEq, Repr

/-- The words of a message about a place. -/
def Spot.phrase : Spot → Text
  | .valueStart => utf8 "looking for beginning of value"
  | .keyStart => utf8 "looking for beginning of object key string"
  | .afterKey => utf8 "after object key"
  | .afterMember => utf8 "after object key:value pair"
  | .afterItem => utf8 "after array element"
  | .inNumber => utf8 "in numeric literal"
  | .inString => utf8 "in string"
  | .inLiteral word expected =>
    utf8 "in literal " ++ word ++ utf8 " (expecting "
      ++ Text.quotedRune (.char (Char.ofNat expected.toNat)) ++ utf8 ")"
  | .afterValue => utf8 "after top-level value"

/-- Why a text is no JSON value. -/
inductive ReadError where
  | unexpectedEnd
  | invalidCharacter (r : Rune) (spot : Spot)
  | invalidEscape (sequence : Text)
  | tooDeep
deriving DecidableEq, Repr

/-- Whether an escape sequence cannot be shown as it stands. -/
def needsQuotes (s : Text) : Bool :=
  (Text.runes s).any fun r => match r with
    | .stray _ => true
    | .char c => c = Char.ofNat 96 || c.toNat = 0xFFFD || 0 < Text.blankWidth r.bytes
        || !Text.isPrintable c.toNat

/-- The text of the error. -/
def ReadError.message : ReadError → Text
  | .unexpectedEnd => utf8 "unexpected end of JSON input"
  | .invalidCharacter r spot =>
    utf8 "invalid character " ++ Text.quotedRune r ++ utf8 " " ++ spot.phrase
  | .invalidEscape s =>
    utf8 "invalid escape sequence "
      ++ (if needsQuotes s then Text.quoted s else [96] ++ s ++ [96]) ++ utf8 " in string"
  | .tooDeep => utf8 "exceeded max depth"

/-- The error for a text whose first character cannot stand where it does. -/
def misplaced (spot : Spot) : Text → ReadError
  | [] => .unexpectedEnd
  | b :: r => .invalidCharacter (Rune.decode b r).1 spot

def dropSpace (s : Text) : Text :=
  s.dropWhile fun b => b = 32 || b = 9 || b = 10 || b = 13

/-- The rest after the letters of a literal. -/
def literal (word : Text) : Text → Text → Except ReadError Text
  | [], rest => .ok rest
  | e :: es, c :: rest =>
    if c = e then literal word es rest else .error (misplaced (.inLiteral word e) (c :: rest))
  | _ :: _, [] => .error .unexpectedEnd

/-- The rest after one or more digits. -/
def afterDigits : Text → Except ReadError Text
  | [] => .error .unexpectedEnd
  | c :: rest =>
    if Text.isDigit c then .ok (rest.dropWhile Text.isDigit)
    else .error (misplaced .inNumber (c :: rest))

/-- The rest after the digits before the point: a zero stands alone. -/
def afterWhole : Text → Except ReadError Text
  | [] => .error .unexpectedEnd
  | c :: rest => if c = byte '0' then .ok rest else afterDigits (c :: rest)

/-- The rest after the point and the digits that follow it, if there is a point. -/
def afterFraction : Text → Except ReadError Text
  | [] => .ok []
  | c :: rest => if c = byte '.' then afterDigits rest else .ok (c :: rest)

def dropSign : Text → Text
  | [] => []
  | c :: rest => if c = byte '+' || c = byte '-' then rest else c :: rest

def afterExponent : Text → Except ReadError Text
  | [] => .ok []
  | c :: rest =>
    if c = byte 'e' || c = byte 'E' then afterDigits (dropSign rest) else .ok (c :: rest)

/-- The rest after a number. -/
def afterNumber (s : Text) : Except ReadError Text := do
  let unsigned := match s with
    | [] => []
    | c :: rest => if c = byte '-' then rest else c :: rest
  afterExponent (← afterFraction (← afterWhole unsigned))

/-- Whether a byte occurs in numbers. After a number such a byte cannot follow. -/
def isNumeric (b : UInt8) : Bool :=
  Text.isDigit b || b = byte '.' || b = byte 'e' || b = byte 'E' || b = byte '+' || b = byte '-'

/-- The character a letter after the backslash stands for. -/
def unescaped? (letter : UInt8) : Option UInt8 :=
  if letter = byte '"' || letter = byte '\\' || letter = byte '/' then some letter
  else if letter = byte 'b' then some 8
  else if letter = byte 'f' then some 12
  else if letter = byte 'n' then some 10
  else if letter = byte 'r' then some 13
  else if letter = byte 't' then some 9
  else none

/-- The value of a hexadecimal digit. -/
def hexValue? (b : UInt8) : Option Nat :=
  if Text.isDigit b then some (b - byte '0').toNat
  else if byte 'a' ≤ b && b ≤ byte 'f' then some ((b - byte 'a').toNat + 10)
  else if byte 'A' ≤ b && b ≤ byte 'F' then some ((b - byte 'A').toNat + 10)
  else none

def unit? (a b c d : UInt8) : Option Nat := do
  return (((← hexValue? a) * 16 + (← hexValue? b)) * 16 + (← hexValue? c)) * 16 + (← hexValue? d)

def isSurrogate (n : Nat) : Bool :=
  0xD800 ≤ n && n < 0xE000

/-- The code point of a surrogate pair. -/
def pair? (high low : Nat) : Option Nat :=
  if 0xD800 ≤ high && high < 0xDC00 && 0xDC00 ≤ low && low < 0xE000 then
    some ((high - 0xD800) * 0x400 + (low - 0xDC00) + 0x10000)
  else none

def encode (code : Nat) : Text :=
  String.utf8EncodeChar (Char.ofNat code)

def isCutShort (digits : Text) : Bool :=
  digits.all fun b => (hexValue? b).isSome

/-- The code point of a surrogate whose partner is escaped at the start of the text. -/
def paired? (n : Nat) : Text → Option Nat
  | c :: letter :: h₁ :: h₂ :: h₃ :: h₄ :: _ =>
    if c = byte '\\' && letter = byte 'u' then (unit? h₁ h₂ h₃ h₄).bind (pair? n) else none
  | _ => none

/-- The character of an escape by number, and how many bytes after the backslash it takes. -/
def numbered (s : Text) : Except ReadError (Text × Nat) :=
  match s with
  | h₁ :: h₂ :: h₃ :: h₄ :: rest =>
    match unit? h₁ h₂ h₃ h₄ with
    | none => .error (.invalidEscape (utf8 "\\u" ++ [h₁, h₂, h₃, h₄]))
    | some n =>
      if !isSurrogate n then .ok (encode n, 5)
      else match paired? n rest with
        | some code => .ok (encode code, 11)
        | none => .ok (encode 0xFFFD, 5)
  | digits =>
    if isCutShort digits then .error .unexpectedEnd
    else .error (.invalidEscape (utf8 "\\u" ++ digits))

/-- The bytes that an escape stands for, and how many bytes after the backslash it takes. -/
def escape : Text → Except ReadError (Text × Nat)
  | [] => .error .unexpectedEnd
  | letter :: rest =>
    if letter = byte 'u' then numbered rest
    else match unescaped? letter with
      | some b => .ok ([b], 1)
      | none => .error (.invalidEscape [byte '\\', letter])

/-- The string whose first bytes are `done`, in reverse, and the text after its closing quote. The
next `skip` bytes belong to an escape that is already read. -/
def stringFrom (skip : Nat) (done : Text) : Text → Except ReadError (Text × Text)
  | [] => .error .unexpectedEnd
  | c :: rest =>
    match skip with
    | k + 1 => stringFrom k done rest
    | 0 =>
      if c = byte '"' then .ok (Text.cleaned done.reverse, rest)
      else if c < 0x20 then .error (misplaced .inString (c :: rest))
      else if c != byte '\\' then stringFrom 0 (c :: done) rest
      else match escape rest with
        | .error e => .error e
        | .ok (bytes, n) => stringFrom n (bytes.reverse ++ done) rest

def word (w : String) (v : Value) (s : Text) : Except ReadError (Value × Text) := do
  return (v, ← literal (utf8 w) (utf8 w) s)

/-- The name of a member, and the text after its colon. -/
def key (s : Text) : Except ReadError (Text × Text) := do
  match s with
  | [] => .error .unexpectedEnd
  | c :: rest =>
    if c != byte '"' then .error (misplaced .keyStart (c :: rest))
    else
      let (name, after) ← stringFrom 0 [] rest
      match dropSpace after with
      | [] => .error .unexpectedEnd
      | d :: rest =>
        if d = byte ':' then return (name, rest) else .error (misplaced .afterKey (d :: rest))

mutual

/-- The value at the start of a text, and the text after it. There is room for `room` more arrays
and objects inside each other, and `fuel` bounds the length of the text. -/
def value (room : Nat) : Nat → Text → Except ReadError (Value × Text)
  | 0, _ => .error .unexpectedEnd
  | _ + 1, [] => .error .unexpectedEnd
  | fuel + 1, c :: rest =>
    if c = byte 'n' then word "null" .null (c :: rest)
    else if c = byte 't' then word "true" (.bool true) (c :: rest)
    else if c = byte 'f' then word "false" (.bool false) (c :: rest)
    else if c = byte '"' then do
      let (s, after) ← stringFrom 0 [] rest
      return (.string s, after)
    else if c = byte '-' || Text.isDigit c then do
      let after ← afterNumber (c :: rest)
      return (.number ((c :: rest).takeWhile isNumeric), after)
    else if c = byte '[' then
      match room with
      | 0 => .error .tooDeep
      | room + 1 =>
        match dropSpace rest with
        | [] => .error .unexpectedEnd
        | d :: after =>
          if d = byte ']' then .ok (.array [], after) else items room [] fuel (d :: after)
    else if c = byte '\x7b' then
      match room with
      | 0 => .error .tooDeep
      | room + 1 =>
        match dropSpace rest with
        | [] => .error .unexpectedEnd
        | d :: after =>
          if d = byte '\x7d' then .ok (.object [], after) else members room [] fuel (d :: after)
    else .error (misplaced .valueStart (c :: rest))

/-- The array whose first items are `done`, in reverse. -/
def items (room : Nat) (done : List Value) : Nat → Text → Except ReadError (Value × Text)
  | 0, _ => .error .unexpectedEnd
  | fuel + 1, s =>
    match value room fuel (dropSpace s) with
    | .error e => .error e
    | .ok (v, after) =>
      match dropSpace after with
      | [] => .error .unexpectedEnd
      | c :: rest =>
        if c = byte ',' then items room (v :: done) fuel rest
        else if c = byte ']' then .ok (.array (v :: done).reverse, rest)
        else .error (misplaced .afterItem (c :: rest))

/-- The object whose first members are `done`, in reverse. -/
def members (room : Nat) (done : List (Text × Value)) : Nat → Text →
    Except ReadError (Value × Text)
  | 0, _ => .error .unexpectedEnd
  | fuel + 1, s =>
    match key (dropSpace s) with
    | .error e => .error e
    | .ok (name, after) =>
      match value room fuel (dropSpace after) with
      | .error e => .error e
      | .ok (v, after) =>
        match dropSpace after with
        | [] => .error .unexpectedEnd
        | c :: rest =>
          if c = byte ',' then members room ((name, v) :: done) fuel rest
          else if c = byte '\x7d' then .ok (.object ((name, v) :: done).reverse, rest)
          else .error (misplaced .afterMember (c :: rest))

end

def nestingLimit : Nat := 10000

/-- The value that is the whole text. -/
def read (s : Text) : Except ReadError Value := do
  let (v, after) ← value nestingLimit (2 * s.length + 1) (dropSpace s)
  match dropSpace after with
  | [] => return v
  | c :: rest => .error (misplaced .afterValue (c :: rest))

end Json

end Lunify
