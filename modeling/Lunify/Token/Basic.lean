import Lunify.Text.Quoted

namespace Lunify

/-! ### Tokens

A token has a kind, the bytes it was written with and the place where it begins. Layout is
carried by three dividers that are not read from the text: `newline`, `indent` and `dedent`. They
occupy no columns. -/

/-- The lexical category of a token. A number from six on is a category without a name. -/
inductive Kind where
  | identifier
  | keyword
  | operator
  | divider
  | number
  | string
  | other (beyond : Nat)
deriving DecidableEq, Repr, Inhabited

namespace Kind

/-- The category with a given number; negative numbers have none. -/
def ofNumber? : Int → Option Kind
  | .ofNat 0 => some .identifier
  | .ofNat 1 => some .keyword
  | .ofNat 2 => some .operator
  | .ofNat 3 => some .divider
  | .ofNat 4 => some .number
  | .ofNat 5 => some .string
  | .ofNat (n + 6) => some (.other n)
  | .negSucc _ => none

/-- The name of a category. -/
def name : Kind → Text
  | .identifier => utf8 "Identifier"
  | .keyword => utf8 "Keyword"
  | .operator => utf8 "Operator"
  | .divider => utf8 "Divider"
  | .number => utf8 "Number"
  | .string => utf8 "String"
  | .other n => utf8 "Kind(" ++ Text.ofNat (n + 6) ++ utf8 ")"

end Kind

/-- A place in a text, counted from zero. A tab at the start of a line is four columns wide. -/
structure Position where
  line : Int
  column : Int
deriving DecidableEq, Repr, Inhabited

namespace Position

def render (p : Position) : Text :=
  Text.ofInt (p.line + 1) ++ utf8 ":" ++ Text.ofInt (p.column + 1)

def le (p q : Position) : Prop :=
  p.line < q.line ∨ (p.line = q.line ∧ p.column ≤ q.column)

end Position

def newlineText : Text := utf8 "newline"

def indentText : Text := utf8 "indent"

def dedentText : Text := utf8 "dedent"

def identifierSymbol : Text := utf8 "<Identifier>"

def numberSymbol : Text := utf8 "<Number>"

def stringSymbol : Text := utf8 "<String>"

/-- A lexical token. -/
structure Token where
  kind : Kind
  content : Text
  pos : Position
deriving DecidableEq, Repr, Inhabited

namespace Token

/-- Whether a token stands for layout and was not read from the text. -/
def isSynthetic (t : Token) : Bool :=
  t.kind = .divider &&
    (t.content = newlineText || t.content = indentText || t.content = dedentText)

def isDivider (content : Text) (t : Token) : Bool :=
  t.kind = .divider && t.content = content

/-- The grammar symbol a token matches: its category for identifiers, numbers and strings, and
its content for every other token. -/
def symbol (t : Token) : Text :=
  match t.kind with
  | .identifier => identifierSymbol
  | .number => numberSymbol
  | .string => stringSymbol
  | _ => t.content

def finish (t : Token) : Position :=
  if t.isSynthetic then t.pos
  else { t.pos with column := t.pos.column + t.content.length }

def relocate (p : Position) (t : Token) : Token :=
  { t with pos := p }

def render (t : Token) : Text :=
  t.pos.render ++ utf8 " " ++ t.kind.name ++ utf8 " " ++ Text.quoted t.content

end Token

def reservedWords : List Text :=
  ["def", "return", "break", "continue", "pass", "for", "while", "if", "elif", "else", "print",
    "range", "len", "in", "dict", "True", "False", "None"].map utf8

def isReserved (word : Text) : Bool :=
  reservedWords.contains word

end Lunify
