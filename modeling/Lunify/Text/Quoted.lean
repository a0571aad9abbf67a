import Lunify.Text.Printable
import Lunify.Text.Rune

namespace Lunify

namespace Text

/-! ### Quoted texts

A quoted text stands between double quotes. Printable characters are written as they are, except
the quote and the backslash, which take a backslash; seven control characters have a letter of
their own; any other byte or character is written by number. -/

/-- The letter after the backslash for the control characters that have one. -/
def escapeLetter (code : Nat) : Option Char :=
  match code with
  | 7 => some 'a'
  | 8 => some 'b'
  | 12 => some 'f'
  | 10 => some 'n'
  | 13 => some 'r'
  | 9 => some 't'
  | 11 => some 'v'
  | _ => none

/-- The number of a code point that is not printable. -/
def escapeCode (code : Nat) : Text :=
  if code < 0x20 || code = 0x7F then utf8 "\\x" ++ hex 2 code
  else if code < 0x10000 then utf8 "\\u" ++ hex 4 code
  else utf8 "\\U" ++ hex 8 code

/-- A rune as it stands between quotes. -/
def escapeRune (quote : Char) : Rune → Text
  | .stray b => utf8 "\\x" ++ hex 2 b.toNat
  | .char c =>
    if c = quote || c = '\\' then [byte '\\', byte c]
    else if isPrintable c.toNat then String.utf8EncodeChar c
    else match escapeLetter c.toNat with
      | some letter => [byte '\\', byte letter]
      | none => escapeCode c.toNat

def quoted (s : Text) : Text :=
  byte '"' :: (runes s).flatMap (escapeRune '"') ++ [byte '"']

def singleQuote : Char := Char.ofNat 39

def quotedRune (r : Rune) : Text :=
  byte singleQuote :: escapeRune singleQuote r ++ [byte singleQuote]

end Text

end Lunify
