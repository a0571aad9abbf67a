import Lunify.Token.Lexeme

namespace Lunify

namespace Chunk

/-! ### Lua tokens

A Lua text is first read as bytes with their places: lines count from one, and the column of a byte
is the number of bytes up to it on its line. A line break of any form is one line feed, which
stands at column zero of the next line. The end of the text has line `-1`.

Scanning gives the tokens in order and ends with the end of the text or with the error that stops
it, so that a reader meets an error exactly when it asks for the token in question. -/

/-- Where a byte stands. -/
structure Place where
  line : Int
  column : Int
deriving DecidableEq, Repr, Inhabited

def Place.finish : Place :=
  ⟨-1, 0⟩

/-- A byte and its place. -/
structure Mark where
  byte : UInt8
  place : Place
deriving DecidableEq, Repr

def isBreakPair (a b : UInt8) : Bool :=
  (a = byte '\n' && b = byte '\r') || (a = byte '\r' && b = byte '\n')

/-- The bytes of a text after the given place. -/
def marks (line column : Int) : Text → List Mark
  | [] => []
  | [b] =>
    if b = byte '\n' || b = byte '\r' then [⟨byte '\n', line + 1, 0⟩] else [⟨b, line, column + 1⟩]
  | b :: c :: r =>
    if isBreakPair b c then ⟨byte '\n', line + 1, 0⟩ :: marks (line + 1) 0 r
    else if b = byte '\n' || b = byte '\r' then
      ⟨byte '\n', line + 1, 0⟩ :: marks (line + 1) 0 (c :: r)
    else ⟨b, line, column + 1⟩ :: marks line (column + 1) (c :: r)

/-- What is wrong with a Lua text. -/
inductive Fault where
  | syntaxError
  | notACall
  | unterminatedString
  | invalidLongString
  | unterminatedLongString
  | invalidLongComment
  | illegalHexadecimal
  | invalidToken
  | invalidTilde
deriving DecidableEq, Repr

/-- The fault in words. -/
def Fault.message : Fault → Text
  | .syntaxError => utf8 "syntax error"
  | .notACall => utf8 "parse error"
  | .unterminatedString => utf8 "unterminated string"
  | .invalidLongString => utf8 "invalid multiline string"
  | .unterminatedLongString => utf8 "unterminated multiline string"
  | .invalidLongComment => utf8 "invalid multiline comment"
  | .illegalHexadecimal => utf8 "illegal hexadecimal number"
  | .invalidToken => utf8 "Invalid token"
  | .invalidTilde => utf8 "Invalid '~' token"

/-- A fault, the last place that was read, and the text that was read there. -/
structure SyntaxError where
  place : Place
  near : Text
  fault : Fault
deriving DecidableEq, Repr

/-- The value of a token. -/
inductive Lexeme where
  /-- An operator, a punctuation mark or a reserved word. -/
  | mark (s : Text)
  | name (s : Text)
  | number (s : Text)
  | string (s : Text)
  | finish
  | broken (e : SyntaxError)
deriving DecidableEq, Repr

/-- A token: its value, the line of its first byte, the place of its last byte, and its text as
error messages show it. -/
structure Token where
  lexeme : Lexeme
  line : Int
  last : Place
  shown : Text
deriving DecidableEq, Repr

/-- The words that are no names. -/
def reservedWords : List Text :=
  ["and", "break", "do", "else", "elseif", "end", "false", "for", "function", "if", "in", "local",
    "nil", "not", "or", "return", "repeat", "then", "true", "until", "while", "goto"].map utf8

def Token.finish : Token :=
  ⟨.finish, -1, .finish, []⟩

def lastPlace (start : Place) (ms : List Mark) : Place :=
  (ms.getLast?.map Mark.place).getD start

def textOf (ms : List Mark) : Text :=
  ms.map Mark.byte

def isSpace (m : Mark) : Bool :=
  m.byte = byte ' ' || m.byte = byte '\t' || m.byte = byte '\n'

def isDecimal (m : Mark) : Bool :=
  Text.isDigit m.byte

def isHexadecimal (m : Mark) : Bool :=
  Text.isDigit m.byte || (byte 'a' ≤ m.byte && m.byte ≤ byte 'f') ||
    (byte 'A' ≤ m.byte && m.byte ≤ byte 'F')

def beginsWith (b : UInt8) (ms : List Mark) : Bool :=
  (ms.head?.map Mark.byte) = some b

/-- What a scanner returns: a value, the place of the last byte it read, and the rest. -/
structure Scanned (α : Type) where
  value : α
  last : Place
  rest : List Mark

/-- The bytes of a long string with `level` equals signs between its brackets, from after its
opening bracket on. -/
def longString (level : Nat) (content : Text) : List Mark → Except SyntaxError (Scanned Text)
  | [] => .error ⟨.finish, content.reverse, .unterminatedLongString⟩
  | m :: r =>
    if m.byte = byte ']' && (r.takeWhile (·.byte = byte '=')).length = level then
      match r.drop level with
      | [] => .error ⟨.finish, content.reverse, .unterminatedLongString⟩
      | c :: rest =>
        if c.byte = byte ']' then .ok ⟨content.reverse, c.place, rest⟩
        else longString level (m.byte :: content) r
    else longString level (m.byte :: content) r

/-- A long string from after its first bracket on. A line break right after its opening does not
belong to it. -/
def longBracket (ms : List Mark) : Except SyntaxError (Scanned Text) :=
  let level := (ms.takeWhile (·.byte = byte '=')).length
  match ms.drop level with
  | [] => .error ⟨.finish, [], .invalidLongString⟩
  | m :: r =>
    if m.byte = byte '[' then
      longString level [] (if beginsWith (byte '\n') r then r.drop 1 else r)
    else .error ⟨m.place, String.utf8EncodeChar (Char.ofNat m.byte.toNat), .invalidLongString⟩

/-- The byte that a letter after a backslash stands for; any other byte stands for itself. -/
def escaped (b : UInt8) : UInt8 :=
  if b = byte 'a' then 7
  else if b = byte 'b' then 8
  else if b = byte 'f' then 12
  else if b = byte 'n' then 10
  else if b = byte 'r' then 13
  else if b = byte 't' then 9
  else if b = byte 'v' then 11
  else b

/-- A string from after its opening quote on. -/
def quotedString (quote : UInt8) (content : Text) : List Mark → Except SyntaxError (Scanned Text)
  | [] => .error ⟨.finish, content.reverse, .unterminatedString⟩
  | m :: r =>
    if m.byte = quote then .ok ⟨content.reverse, m.place, r⟩
    else if m.byte = byte '\n' then .error ⟨m.place, content.reverse, .unterminatedString⟩
    else if m.byte = byte '\\' then
      match r with
      | [] => .error ⟨.finish, (0xFF :: content).reverse, .unterminatedString⟩
      | e :: r =>
        if Text.isDigit e.byte then
          match r with
          | d :: d' :: r'' =>
            if isDecimal d && isDecimal d' then
              quotedString quote
                ((Text.digitsValue [e.byte, d.byte, d'.byte]).toUInt8 :: content) r''
            else if isDecimal d then
              quotedString quote ((Text.digitsValue [e.byte, d.byte]).toUInt8 :: content) (d' :: r'')
            else quotedString quote ((Text.digitsValue [e.byte]).toUInt8 :: content) (d :: d' :: r'')
          | [d] =>
            if isDecimal d then
              quotedString quote ((Text.digitsValue [e.byte, d.byte]).toUInt8 :: content) []
            else quotedString quote ((Text.digitsValue [e.byte]).toUInt8 :: content) [d]
          | [] => quotedString quote ((Text.digitsValue [e.byte]).toUInt8 :: content) []
        else quotedString quote (escaped e.byte :: content) r
    else quotedString quote (m.byte :: content) r

/-- The exponent of a number from its mark on. Whatever follows the mark and the sign belongs to
it. -/
def exponentPart (start : Place) (ms : List Mark) : Scanned Text :=
  match ms with
  | [] => ⟨[], start, ms⟩
  | e :: r =>
    if e.byte = byte 'e' || e.byte = byte 'E' then
      let (sign, r) := match r with
        | s :: r' => if s.byte = byte '+' || s.byte = byte '-' then ([s], r') else ([], r)
        | [] => ([], r)
      match r with
      | [] => ⟨textOf (e :: sign) ++ [0xFF], .finish, []⟩
      | d :: r =>
        let digits := d :: r.takeWhile isDecimal
        ⟨textOf (e :: sign ++ digits), lastPlace start digits, r.dropWhile isDecimal⟩
    else ⟨[], start, ms⟩

/-- A decimal number that begins with the given digit or point. -/
def decimalNumber (first : Mark) (r : List Mark) : Scanned Text :=
  let whole := first :: r.takeWhile isDecimal
  let rest := r.dropWhile isDecimal
  let (places, rest) := match rest with
    | p :: r' =>
      if p.byte = byte '.' then (p :: r'.takeWhile isDecimal, r'.dropWhile isDecimal)
      else ([], rest)
    | [] => ([], rest)
  let e := exponentPart (lastPlace first.place (whole ++ places)) rest
  ⟨textOf (whole ++ places) ++ e.value, e.last, e.rest⟩

/-- A number that begins with the given digit or point. A zero before another digit is skipped. -/
def number (first : Mark) (r : List Mark) : Except SyntaxError (Scanned Text) :=
  match r with
  | x :: r' =>
    if first.byte = byte '0' && (x.byte = byte 'x' || x.byte = byte 'X') then
      let digits := r'.takeWhile isHexadecimal
      if digits.isEmpty then .error ⟨x.place, [first.byte, x.byte], .illegalHexadecimal⟩
      else .ok ⟨textOf (first :: x :: digits), lastPlace x.place digits, r'.dropWhile isHexadecimal⟩
    else if first.byte = byte '0' && isDecimal x then .ok (decimalNumber x r')
    else .ok (decimalNumber first r)
  | [] => .ok (decimalNumber first r)

/-- The marks after a comment, from after its two hyphens on. -/
def afterComment (ms : List Mark) : Except SyntaxError (List Mark) :=
  match ms with
  | m :: r =>
    if m.byte = byte '[' && (beginsWith (byte '[') r || beginsWith (byte '=') r) then
      match longBracket r with
      | .ok s => .ok s.rest
      | .error e => .error ⟨e.place, [], .invalidLongComment⟩
    else .ok ((ms.dropWhile (·.byte != byte '\n')).drop 1)
  | [] => .ok []

def doubleMarks : List Text :=
  ["==", "~=", "<=", ">=", "::"].map utf8

def singleMarks : Text :=
  utf8 "+-*/%^#()\x7b\x7d[];,=<>:"

def markToken (s : Text) (line : Int) (last : Place) (shown : Text) : Token :=
  ⟨.mark s, line, last, shown⟩

/-- The token that begins with the given mark, and the rest. -/
def tokenFrom (m : Mark) (r : List Mark) : Except SyntaxError (Token × List Mark) :=
  let b := m.byte
  let line := m.place.line
  if Lunify.Lexeme.isLetter b then
    let ms := m :: r.takeWhile fun m => Lunify.Lexeme.isWordByte m.byte
    let word := textOf ms
    let lexeme := if reservedWords.contains word then Lexeme.mark word else .name word
    .ok (⟨lexeme, line, lastPlace m.place ms, word⟩,
      r.dropWhile fun m => Lunify.Lexeme.isWordByte m.byte)
  else if Text.isDigit b || (b = byte '.' && (r.head?.map isDecimal).getD false) then do
    let s ← number m r
    return (⟨.number s.value, line, s.last, s.value⟩, s.rest)
  else if b = Lunify.Lexeme.doubleQuote || b = Lunify.Lexeme.singleQuote then do
    let s ← quotedString b [] r
    return (⟨.string s.value, line, s.last, s.value⟩, s.rest)
  else if b = byte '[' && (beginsWith (byte '[') r || beginsWith (byte '=') r) then do
    let s ← longBracket r
    return (⟨.string s.value, line, s.last, s.value⟩, s.rest)
  else match r with
    | c :: r' =>
      if doubleMarks.contains [b, c.byte] then
        .ok (markToken [b, c.byte] line c.place [b, c.byte], r')
      else if b = byte '.' && c.byte = byte '.' then
        match r' with
        | d :: r'' =>
          if d.byte = byte '.' then .ok (markToken (utf8 "...") line d.place (utf8 "..."), r'')
          else .ok (markToken (utf8 "..") line c.place (utf8 ".."), r')
        | [] => .ok (markToken (utf8 "..") line c.place (utf8 ".."), r')
      else single b line m.place r
    | [] => single b line m.place r
where
  /-- The token of a single byte. -/
  single (b : UInt8) (line : Int) (place : Place) (r : List Mark) :
      Except SyntaxError (Token × List Mark) :=
    if singleMarks.contains b then .ok (markToken [b] line place [b], r)
    else if b = byte '.' then .ok (markToken [b] line place [], r)
    else if b = byte '~' then .error ⟨place, [b], .invalidTilde⟩
    else .error ⟨place, [b], .invalidToken⟩

/-- The tokens of a list of marks. Each step takes one unit of `fuel` and at least one mark. -/
def scan : Nat → List Mark → List Token
  | 0, _ => [.finish]
  | fuel + 1, ms =>
    match ms.dropWhile isSpace with
    | [] => [.finish]
    | m :: r =>
      if m.byte = byte '-' && beginsWith (byte '-') r then
        match afterComment (r.drop 1) with
        | .ok rest => scan fuel rest
        | .error e => [⟨.broken e, m.place.line, e.place, []⟩]
      else
        match tokenFrom m r with
        | .ok (t, rest) => t :: scan fuel rest
        | .error e => [⟨.broken e, m.place.line, e.place, []⟩]

def tokens (s : Text) : List Token :=
  scan (s.length + 1) (marks 1 0 s)

end Chunk

end Lunify
