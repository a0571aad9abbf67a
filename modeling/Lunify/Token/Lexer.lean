import Lunify.Token.Lexeme

namespace Lunify

/-! ### From text to tokens

Tokens never cross a line feed, so a text is read line by line. What one line hands to the next is
the depth of indentation alone. Leading tabs set the depth, and each change of it is written as
that many `indent` or `dedent` dividers; a line of white space leaves the depth alone, unless it
is the last line, which closes every open block. A `newline` divider ends every line but the
last. -/

/-- Why a text has no tokens: the line and column of the first byte that fits no rule, and the
line it stands on. -/
inductive LexError where
  /-- No lexeme begins with this byte. -/
  | unexpected (line column : Nat) (text : Text)
  /-- A blank follows the leading tabs of a line. -/
  | indentation (line column : Nat) (text : Text)
deriving DecidableEq, Repr, Inhabited

def tabWidth : Nat := 4

def leadingTabs (line : Text) : Nat :=
  (line.takeWhile (· = byte '\t')).length

/-- A line with its leading tabs shown at full width, above a caret under a column. -/
def caret (line : Text) (column : Nat) : Text :=
  utf8 "    " ++ Text.blanks (tabWidth * leadingTabs line) ++ line.drop (leadingTabs line) ++
    utf8 "\n    " ++ Text.blanks column ++ utf8 "^"

namespace LexError

def pos : LexError → Position
  | .unexpected line column _ => ⟨line, column⟩
  | .indentation line column _ => ⟨line, column⟩

/-- The error as shown to the user. -/
def message : LexError → Text
  | .unexpected line column text =>
    utf8 "lexical error at " ++ Position.render ⟨line, column⟩ ++ utf8 ": unexpected character\n" ++
      caret text column
  | .indentation line column text =>
    utf8 "indentation error at " ++ Position.render ⟨line, column⟩ ++
      utf8 ": unexpected spaces at the start of the line\n" ++ caret text column

end LexError

namespace Lexer

def isSpace (b : UInt8) : Bool :=
  b = byte ' ' || b = byte '\t' || b = byte '\r'

def shown (line : Text) : Text :=
  Text.dropEndWhile (· = byte '\r') line

/-- The column after the last byte of a line read from column `column` on. -/
def endColumn (column : Nat) (rest : Text) : Nat :=
  column + rest.length

/-- The tokens in the part `rest` of a line that begins at `column`. -/
def lexemes (number : Nat) (line : Text) (column : Nat) (rest : Text) :
    Except LexError (List Token) :=
  match rest with
  | [] => .ok []
  | b :: r =>
    if isSpace b then
      lexemes number line (column + 1) r
    else
      match _h : Lexeme.first? (b :: r) with
      | none => .error (.unexpected number column (shown line))
      | some (kind, n) => do
        let tokens ← lexemes number line (column + n) ((b :: r).drop n)
        return ⟨kind, (b :: r).take n, ⟨number, column⟩⟩ :: tokens
termination_by rest.length
decreasing_by
  · simp
  · have hn := Lexeme.length_pos_of_first? _h
    simp only [List.length_drop, List.length_cons]
    omega

/-- The dividers that lead from one depth to another at a place. -/
def depthChange (old new : Nat) (pos : Position) : List Token :=
  if old < new then List.replicate (new - old) ⟨.divider, indentText, pos⟩
  else List.replicate (old - new) ⟨.divider, dedentText, pos⟩

def newline (number column : Nat) : Token :=
  ⟨.divider, newlineText, ⟨number, column⟩⟩

/-- The tokens of a line, without the divider that ends it, and the depth after it. -/
def lineTokens (number depth : Nat) (last : Bool) (line : Text) :
    Except LexError (List Token × Nat) :=
  let tabs := leadingTabs line
  let start : Position := ⟨number, tabWidth * tabs⟩
  if line.all isSpace then
    .ok (if last then (depthChange depth 0 start, 0) else ([], depth))
  else if (line.drop tabs).head? = some (byte ' ') then
    .error (.indentation number (tabWidth * tabs) (shown line))
  else do
    let tokens ← lexemes number line (tabWidth * tabs) (line.drop tabs)
    return (depthChange depth tabs start ++ tokens, tabs)

/-- The column of the divider that ends a line. The tabs of a line of white space count as one
column each. -/
def newlineColumn (line : Text) : Nat :=
  if line.all isSpace then line.length
  else tabWidth * leadingTabs line + (line.drop (leadingTabs line)).length

/-- The tokens of a list of lines, the first of which has the given number and begins at the given
depth. -/
def linesTokens (number depth : Nat) : List Text → Except LexError (List Token)
  | [] => .ok []
  | [line] => return (← lineTokens number depth true line).1
  | line :: next :: rest => do
    let (tokens, depth') ← lineTokens number depth false line
    let later ← linesTokens (number + 1) depth' (next :: rest)
    return tokens ++ newline number (newlineColumn line) :: later

end Lexer

def lex (source : Text) : Except LexError (List Token) :=
  Lexer.linesTokens 0 0 (Text.lines source)

end Lunify
