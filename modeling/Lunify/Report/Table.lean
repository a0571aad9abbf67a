import Lunify.Report.Wrap
import Lunify.Text.Blank

namespace Lunify

namespace Report

/-! ### Tables

A table has a heading, rows and a footing, with rules around them. A column is as wide as its
widest text. -/

def cellLimit : Nat := 30

/-- A cell: its lines, and the columns that it asks for. -/
structure Cell where
  lines : List Text
  width : Nat
deriving DecidableEq, Repr

/-- Makes a cell. A line break counts as a space. -/
def Cell.ofText (s : Text) : Cell :=
  let widest := (Text.splitOn (byte '\n') s).foldl (fun n l => max n (Text.width l)) 0
  let limit := min widest cellLimit
  let lines := wrap limit (s.map fun b => if b = byte '\n' then byte ' ' else b)
  ⟨lines, lines.foldl (fun n l => max n (Text.width l)) limit⟩

/-- A table. -/
structure Table where
  heading : List Text
  rows : List (List Text)
  footing : List Text
deriving DecidableEq, Repr

/-- A text in the middle of a number of columns; an odd column goes to the right. -/
def centred (columns : Nat) (s : Text) : Text :=
  let gap := columns - Text.width s
  Text.blanks (gap / 2) ++ s ++ Text.blanks (gap - gap / 2)

/-- Whether a text is digits, or groups of three digits with commas between them. -/
def isWholeNumber (s : Text) : Bool :=
  let groups := Text.splitOn (byte ',') s
  groups.all (fun g => !g.isEmpty && g.all Text.isDigit) &&
    (groups.length = 1 ||
      ((groups.headD []).length ≤ 3 && (groups.drop 1).all fun g => g.length = 3))

/-- Whether a text is a plain decimal number. -/
def isDecimal (s : Text) : Bool :=
  let s := if s.head? = some (byte '-') then s.drop 1 else s
  match Text.cutAt (utf8 ".") s with
  | some (whole, places) =>
    isWholeNumber whole && !places.isEmpty && places.all Text.isDigit
  | none => isWholeNumber s

/-- A cell's line in a number of columns: numbers stand to the right, all else to the left. -/
def aligned (columns : Nat) (s : Text) : Text :=
  let gap := Text.blanks (columns - Text.width s)
  if isDecimal (Text.trim s) then gap ++ s else s ++ gap

def rule (widths : List Nat) : Text :=
  utf8 "+" ++ (widths.flatMap fun n => List.replicate (n + 2) (byte '-') ++ utf8 "+") ++ utf8 "\n"

/-- The lines of a row of cells. A cell that has fewer lines is blank below them. -/
def rowText (widths : List Nat) (cells : List Cell) : Text :=
  let height := cells.foldl (fun n c => max n c.lines.length) 0
  (List.range height).flatMap fun i =>
    ((cells.zip widths).flatMap fun (c, n) =>
      utf8 "| " ++ aligned n (c.lines.getD i (utf8 "  ")) ++ utf8 " ") ++ utf8 "|\n"

/-- The texts of a heading, in capitals. -/
def headingText (widths : List Nat) (texts : List Text) : Text :=
  utf8 "|" ++ ((texts.zip widths).flatMap fun (s, n) =>
    utf8 " " ++ centred n (Text.upper s) ++ utf8 " |") ++ utf8 "\n"

/-- The texts of a footing, in capitals. No rule stands after an empty text. -/
def footingText (widths : List Nat) (texts : List Text) : Text :=
  utf8 "|" ++ ((texts.zip widths).flatMap fun (s, n) =>
    utf8 " " ++ centred n (Text.upper s) ++ utf8 (if s.isEmpty then "  " else " |")) ++ utf8 "\n"

/-- The columns of a table. -/
def Table.widths (t : Table) : List Nat :=
  let rows := (t.heading :: t.footing :: t.rows).map fun r => r.map fun s => (Cell.ofText s).width
  rows.foldl (fun ws r => (ws.zip r).map fun (a, b) => max a b) (t.heading.map fun _ => 0)

/-- The table as text. -/
def Table.text (t : Table) : Text :=
  let ws := t.widths
  rule ws ++ headingText ws t.heading ++ rule ws ++
    (t.rows.flatMap fun r => rowText ws (r.map Cell.ofText)) ++
    rule ws ++ footingText ws t.footing ++ rule ws

end Report

end Lunify
