import Lunify.Text.Rune
import Lunify.Toml.Basic

namespace Lunify

namespace Toml

/-! ### The form of a settings file

The form is given by rules that are tried in order, the first that fits wins. Beside its place in
the text the scanner keeps how far any rule has ever come, also one that was given up later: when
the text does not fit, that is the place the error names.

A carriage return and a line feed each start a new line. -/

/-- A place in the text: how many characters come before it, the number of its line, and what
follows. -/
structure Cursor where
  offset : Nat
  line : Nat
  rest : List Char

/-- A scanner moves the cursor or fails. The number is the farthest place a rule has come to. -/
abbrev Scan (α : Type) := StateT Cursor (OptionT (StateM Nat)) α

def isBreak (c : Char) : Bool :=
  c = '\n' || c = '\r'

/-- One character that satisfies `p`. -/
def one (p : Char → Bool) : Scan Char := do
  let here ← get
  match here.rest with
  | [] => failure
  | c :: rest =>
    if p c then
      set (⟨here.offset + 1, if isBreak c then here.line + 1 else here.line, rest⟩ : Cursor)
      return c
    else failure

def word : List Char → Scan Unit
  | [] => pure ()
  | c :: cs => do
    let _ ← one (· = c)
    word cs

def many {α : Type} (s : Scan α) : Nat → Scan (List α)
  | 0 => pure []
  | fuel + 1 => (do
      let a ← s
      return a :: (← many s fuel)) <|> pure []

def repeated {α : Type} (s : Scan α) : Scan (List α) := do
  many s ((← get).rest.length + 1)

def repeated₁ {α : Type} (s : Scan α) : Scan (List α) := do
  return (← s) :: (← repeated s)

def perhaps {α : Type} (s : Scan α) : Scan (Option α) :=
  (do return some (← s)) <|> pure none

def absent {α : Type} (s : Scan α) : Scan Unit := do
  let here ← get
  let found ← perhaps s
  set here
  if found.isSome then failure

/-- A rule: what it comes to is remembered, unless it takes nothing. -/
def rule {α : Type} (s : Scan α) : Scan α := do
  let start := (← get).offset
  let a ← s
  let finish := (← get).offset
  if start != finish then
    modifyThe Nat (max finish)
  return a

def taken {α : Type} (s : Scan α) : Scan (List Char) := do
  let start ← get
  let _ ← s
  return start.rest.take ((← get).offset - start.offset)

def toText (cs : List Char) : Text :=
  cs.flatMap String.utf8EncodeChar

def space : Scan Unit := rule do
  let _ ← repeated (one fun c => c = ' ' || c = '\t')

def spaceOrBreak : Scan Unit := rule do
  let _ ← repeated (one fun c => c = ' ' || c = '\t' || isBreak c)

def breaks : Scan (List Char) :=
  rule (repeated₁ (one isBreak))

def comment : Scan Unit := rule do
  word ['#']
  let _ ← repeated (one fun c => c = '\t' || ' ' ≤ c)

def digit : Scan Char :=
  rule (one Char.isDigit)

def moreDigit : Scan Char :=
  digit <|> (do
    word ['_']
    digit)

def hexDigit : Scan Char :=
  rule (one fun c => c.isDigit || ('a' ≤ c && c ≤ 'f') || ('A' ≤ c && c ≤ 'F'))

def hexFour : Scan Unit := rule do
  let _ ← hexDigit
  let _ ← hexDigit
  let _ ← hexDigit
  let _ ← hexDigit

def backslash : Scan Unit :=
  rule (word ['\\'])

/-- A backslash and what it stands before. -/
def escaped : Scan Unit := rule do
  backslash
  (do let _ ← one fun c => ['b', 't', 'n', 'f', 'r', '"', '/', '\\'].contains c)
    <|> (do
      word ['u']
      hexFour)
    <|> (do
      word ['U']
      hexFour
      hexFour)

def basicChar : Scan Unit :=
  rule ((do let _ ← rule (one fun c => ' ' ≤ c && c != '"' && c != '\\')) <|> escaped)

def hexValue (c : Char) : Nat :=
  if c.isDigit then c.toNat - 48 else if 'a' ≤ c then c.toNat - 87 else c.toNat - 55

/-- The character with a number in hexadecimal digits, if there is one. -/
def numbered? (ds : List Char) : Option Char :=
  let n := ds.foldl (fun n d => 16 * n + hexValue d) 0
  if n < 0xD800 || (0xE000 ≤ n && n < 0x110000) then some (Char.ofNat n) else none

/-- The character after a backslash. A slash must not have one. -/
def unescaped? (c : Char) : Option Char :=
  if c = 'b' then some (Char.ofNat 8)
  else if c = 't' then some '\t'
  else if c = 'n' then some '\n'
  else if c = 'f' then some (Char.ofNat 12)
  else if c = 'r' then some '\r'
  else if c = '"' || c = '\\' then some c
  else none

/-- The text that is written with escapes, unless one of them is wrong. -/
def unescape : List Char → Option (List Char)
  | [] => some []
  | '\\' :: 'u' :: a :: b :: c :: d :: r => do
    return (← numbered? [a, b, c, d]) :: (← unescape r)
  | '\\' :: 'U' :: a :: b :: c :: d :: e :: f :: g :: h :: r => do
    return (← numbered? [a, b, c, d, e, f, g, h]) :: (← unescape r)
  | '\\' :: c :: r => do
    return (← unescaped? c) :: (← unescape r)
  | c :: r => do
    return c :: (← unescape r)

def betweenQuotes : Scan (List Char) := do
  word ['"']
  let body ← taken (repeated basicChar)
  word ['"']
  return body

def threefold (c : Char) : Scan Unit :=
  word [c, c, c]

def apostrophe : Char := Char.ofNat 39

/-- A text in single quotes on one line, which has no escapes. -/
def literalText : Scan (Option Text) := rule do
  word [apostrophe]
  let body ← repeated (rule (one fun c => c = '\t' || (' ' ≤ c && c != apostrophe)))
  word [apostrophe]
  return some (toText body)

/-- A text in three single quotes, which may hold line ends and has no escapes. -/
def longLiteralText : Scan (Option Text) := rule do
  threefold apostrophe
  let body ← taken (rule (repeated do
    absent (threefold apostrophe)
    (do let _ ← rule (one fun c => c = '\t' || ' ' ≤ c)) <|> (do let _ ← breaks)))
  threefold apostrophe
  return some (toText (body.dropWhile isBreak))

def basicText : Scan (Option Text) := rule do
  return (unescape (← betweenQuotes)).map toText

/-- A piece of a text in three double quotes: a backslash at the end of a line swallows the blanks
up to the next piece. -/
def longPiece : Scan (List Char) :=
  taken (basicChar <|> (do let _ ← breaks)) <|> (do
    backslash
    let _ ← breaks
    spaceOrBreak
    return [])

/-- A text in three double quotes, which may hold line ends. Those at its start are left out. -/
def longBasicText : Scan (Option Text) := rule do
  threefold '"'
  let pieces ← rule (repeated longPiece)
  threefold '"'
  return (unescape (pieces.flatten.dropWhile isBreak)).map toText

def text : Scan (Option Text) :=
  rule (longLiteralText <|> literalText <|> longBasicText <|> basicText)

def bareName : Scan (Option Text) := rule do
  let cs ← repeated₁ (one fun c => c.isAlphanum || c = '-' || c = '_')
  return some (toText cs)

def quotedName : Scan (Option Text) := rule do
  return (unescape (← betweenQuotes)).map toText

def name : Scan (Option Text) :=
  rule (bareName <|> quotedName)

def sign : Scan Unit := do
  let _ ← perhaps (one fun c => c = '-' || c = '+')

def whole : Scan Unit :=
  rule ((do
      let _ ← one fun c => '1' ≤ c && c ≤ '9'
      let _ ← repeated₁ moreDigit)
    <|> (do let _ ← digit))

def integer : Scan Unit := rule do
  sign
  whole

def fraction : Scan Unit := rule do
  word ['.']
  let _ ← digit
  let _ ← repeated moreDigit

def exponent : Scan Unit := rule do
  let _ ← one fun c => c = 'e' || c = 'E'
  sign
  let _ ← digit
  let _ ← repeated moreDigit

def float : Scan Unit := rule do
  integer
  (do
      fraction
      let _ ← perhaps exponent)
    <|> exponent

def twoDigits : Scan Unit := rule do
  let _ ← digit
  let _ ← digit

def fourDigits : Scan Unit := rule do
  twoDigits
  twoDigits

def date : Scan Unit := rule do
  fourDigits
  word ['-']
  twoDigits
  word ['-']
  twoDigits

def zone : Scan Unit :=
  rule (word ['Z'] <|> (do
    let _ ← one fun c => c = '-' || c = '+'
    twoDigits
    word [':']
    twoDigits))

def clock : Scan Unit := rule do
  twoDigits
  word [':']
  twoDigits
  word [':']
  twoDigits
  let _ ← perhaps (rule do
    word ['.']
    repeated₁ digit)

def moment : Scan Unit :=
  rule ((do
      date
      let _ ← perhaps (do
        word ['T']
        rule do
          clock
          zone))
    <|> clock)

def boolean : Scan Bool :=
  rule ((do
      word ['t', 'r', 'u', 'e']
      return true)
    <|> (do
      word ['f', 'a', 'l', 's', 'e']
      return false))

def number (s : Scan Unit) : Scan Text := do
  return toText ((← taken s).filter (· != '_'))

mutual

/-- A value. Values are nested less than `fuel` deep. -/
def value : Nat → Scan Node
  | 0 => failure
  | fuel + 1 =>
    rule ((do return .moment (toText (← taken moment)))
      <|> (do return .float (← number float))
      <|> (do return .integer (← number integer))
      <|> (do
        let s ← text
        return .text s (← get).line)
      <|> (do return .boolean (← boolean))
      <|> (do return .array (← array fuel))
      <|> inlineTable fuel)

/-- The items of an array. A comma may stand after the last one. -/
def array : Nat → Scan (List Node)
  | 0 => failure
  | fuel + 1 => rule do
    word ['[']
    spaceOrBreak
    let items ← perhaps (rule do
      let first ← value fuel
      let more ← repeated do
        spaceOrBreak
        let _ ← perhaps comment
        spaceOrBreak
        rule (word [','])
        spaceOrBreak
        let _ ← perhaps comment
        spaceOrBreak
        value fuel
      spaceOrBreak
      let _ ← perhaps (rule (word [',']))
      spaceOrBreak
      let _ ← perhaps comment
      return first :: more)
    spaceOrBreak
    word [']']
    return items.getD []

/-- A table in braces. -/
def inlineTable : Nat → Scan Node
  | 0 => failure
  | fuel + 1 => rule do
    word ['\x7b']
    let line := (← get).line
    space
    let pairs ← rule (repeated do
      let p ← pair fuel
      let _ ← perhaps (rule do
        space
        word [',']
        space)
      return p)
    space
    word ['\x7d']
    return .inline line pairs

/-- A name and a value. -/
def pair : Nat → Scan Pair
  | 0 => failure
  | fuel + 1 => rule do
    let n ← name
    let nameLine := (← get).line
    space
    word ['=']
    space
    let v ← value fuel
    return .mk n nameLine v (← get).line

end

def path : Scan (List (Option Text)) := rule do
  let first ← rule name
  let more ← repeated do
    rule do
      space
      word ['.']
      space
    rule name
  return first :: more

/-- The start of a table, between the given marks. -/
def headerBetween (isList : Bool) (opening closing : List Char) : Scan Item := rule do
  word opening
  space
  let start ← get
  let names ← path
  let written := start.rest.take ((← get).offset - start.offset)
  space
  word closing
  return .header isList (toText written) names (← get).line

def header : Scan Item :=
  rule (headerBetween false ['['] [']'] <|> headerBetween true ['[', '['] [']', ']'])

def lineEnd : Scan Unit := do
  space
  let _ ← perhaps comment

/-- A table with the values right after its header, one value, or nothing. -/
def expression (fuel : Nat) : Scan (List Item) :=
  rule ((do
      space
      let h ← header
      lineEnd
      let pairs ← repeated do
        spaceOrBreak
        let p ← pair fuel
        lineEnd
        return Item.pair p
      return h :: pairs)
    <|> (do
      space
      let p ← pair fuel
      lineEnd
      return [.pair p])
    <|> (do
      space
      comment
      return [])
    <|> (do
      space
      return []))

/-- A whole file. -/
def file (fuel : Nat) : Scan (List Item) := do
  let first ← expression fuel
  let more ← repeated do
    let _ ← breaks
    expression fuel
  let _ ← perhaps breaks
  absent (one fun _ => true)
  return (first :: more).flatten

def characters (s : Text) : List Char :=
  (Text.runes s).map fun r => Char.ofNat r.code

/-- The line of the character at an offset; a line feed counts to the line it starts. -/
def lineAt (cs : List Char) (offset : Nat) : Nat :=
  (cs.take (offset + 1)).count '\n' + 1

/-- The parts of a file. -/
def items (s : Text) : Except ReadError (List Item) :=
  let cs := characters s
  match (file (2 * cs.length + 2)).run ⟨0, 1, cs⟩ |>.run |>.run 0 with
  | (some (is, _), _) => .ok is
  | (none, farthest) => .error ⟨lineAt cs farthest, .badSyntax⟩

end Toml

end Lunify
