import Lunify.Text.Rune

namespace Lunify

namespace Json

/-! ### JSON values

A value and its text. The text is safe inside a web page: the characters that could end a script
or start a tag are written by number, and so are the two line separators of Unicode. A byte that
belongs to no character is written as U+FFFD. -/

/-- A JSON value. A number is kept as it was written, and an object keeps every member, also
those with equal names. -/
inductive Value where
  | null
  | bool (b : Bool)
  | number (literal : Text)
  | string (s : Text)
  | array (items : List Value)
  | object (members : List (Text × Value))
deriving Repr, Inhabited

/-- The letter after the backslash for the control characters that have one. -/
def controlLetter (code : Nat) : Option Char :=
  match code with
  | 8 => some 'b'
  | 9 => some 't'
  | 10 => some 'n'
  | 12 => some 'f'
  | 13 => some 'r'
  | _ => none

def isNumbered (code : Nat) : Bool :=
  code < 0x20 || code = 0x26 || code = 0x3C || code = 0x3E || code = 0x2028 || code = 0x2029

/-- A rune inside a string. -/
def escaped : Rune → Text
  | .stray b => Rune.cleaned (.stray b)
  | .char c =>
    if c = '"' || c = '\\' then [byte '\\', byte c]
    else match controlLetter c.toNat with
      | some letter => [byte '\\', byte letter]
      | none =>
        if isNumbered c.toNat then utf8 "\\u" ++ Text.hex 4 c.toNat else String.utf8EncodeChar c

def quoted (s : Text) : Text :=
  byte '"' :: (Text.runes s).flatMap escaped ++ [byte '"']

mutual

/-- The text of a value, without blanks. -/
def Value.text : Value → Text
  | .null => utf8 "null"
  | .bool b => utf8 (if b then "true" else "false")
  | .number literal => literal
  | .string s => quoted s
  | .array items => utf8 "[" ++ Text.join (utf8 ",") (itemTexts items) ++ utf8 "]"
  | .object members => utf8 "\x7b" ++ Text.join (utf8 ",") (memberTexts members) ++ utf8 "\x7d"

def itemTexts : List Value → List Text
  | [] => []
  | v :: vs => v.text :: itemTexts vs

def memberTexts : List (Text × Value) → List Text
  | [] => []
  | (name, v) :: ms => (quoted name ++ utf8 ":" ++ v.text) :: memberTexts ms

end

/-- What a value is called in messages. -/
def Value.kind : Value → Text
  | .null => utf8 "null"
  | .bool _ => utf8 "bool"
  | .number _ => utf8 "number"
  | .string _ => utf8 "string"
  | .array _ => utf8 "array"
  | .object _ => utf8 "object"

end Json

end Lunify
