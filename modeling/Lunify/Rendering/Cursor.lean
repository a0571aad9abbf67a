import Lunify.Token.Lexeme

namespace Lunify

/-! ### The output cursor

Lua text is written with a cursor that follows the places of the source tokens, so that the output
stays aligned with the source. `shift` counts the lines that were added for closing keywords, and
`delta` is how far the current output line runs ahead of its source line. The cursor never moves
back. -/

/-- The text written so far and the place where the next text goes. -/
structure Cursor where
  /-- The text, with its last byte first. -/
  written : Text
  line : Int
  column : Int
  shift : Int
  delta : Int
deriving DecidableEq, Repr

namespace Cursor

def start : Cursor :=
  ⟨[], 0, 0, 0, 0⟩

def text (c : Cursor) : Text :=
  c.written.reverse

def last (c : Cursor) : UInt8 :=
  c.written.headD 0

def append (c : Cursor) (s : Text) : Cursor :=
  { c with written := s.reverse ++ c.written }

/-- Moves down to the start of a line. -/
def downTo (c : Cursor) (line : Int) : Cursor :=
  if line ≤ c.line then c
  else
    { c.append (List.replicate (line - c.line).toNat (byte '\n')) with
      line := line, column := 0, delta := 0 }

def rightTo (c : Cursor) (column : Int) : Cursor :=
  if column ≤ c.column then c
  else { c.append (Text.blanks (column - c.column).toNat) with column := column }

/-- Moves to the place in the output that belongs to a place in the source. -/
def advance (c : Cursor) (p : Position) : Cursor :=
  let c := c.downTo (p.line + c.shift)
  c.rightTo (p.column + c.delta)

/-- Whether a byte right after another would join two words, or start a comment or a long
bracket. -/
def glued (before after : UInt8) : Bool :=
  (Lexeme.isWordByte before && Lexeme.isWordByte after)
    || (before = byte '-' && after = byte '-')
    || (before = byte '[' && after = byte '[')

def needsBlank (c : Cursor) (s : Text) : Bool :=
  match c.written, s with
  | before :: _, after :: _ => glued before after
  | _, _ => false

/-- Writes a text on the current line, after a blank where it would join what stands there. -/
def write (c : Cursor) (s : Text) : Cursor :=
  let c := if c.needsBlank s then { c.append [byte ' '] with column := c.column + 1 } else c
  { c.append s with column := c.column + s.length }

def replace (c : Cursor) (s : Text) (width : Int) : Cursor :=
  let c' := c.write s
  { c' with delta := c'.delta + (c'.column - c.column) - width }

end Cursor

end Lunify
