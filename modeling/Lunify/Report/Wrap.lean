import Lunify.Text.Width

namespace Lunify

namespace Report

/-! ### Wrapping

Words are put on lines of a given width. Of all ways to do so the one is chosen for which the
squares of the unused columns, summed over all lines but the last, are least. A line that is too
long counts for more. -/

def penalty : Nat := 100000

def lineWidth (words : List Text) : Nat :=
  total (words.map Text.width) + (words.length - 1)

def lineCost (limit used : Nat) : Nat :=
  let d := ((limit : Int) - used).natAbs
  d * d + if limit < used then penalty else 0

/-- Lines of words and what they count. -/
structure Wrapping where
  cost : Nat
  lines : List (List Text)
deriving DecidableEq, Repr

def better : Option Wrapping → Wrapping → Option Wrapping
  | none, w => some w
  | some v, w => if w.cost < v.cost then some w else some v

/-- The best wrapping whose first line begins with the words `line`, written backwards. The
wrappings of what is left come with the words that are left. -/
def bestFrom (limit : Nat) (best : Option Wrapping) (line : List Text) :
    List Text → List Wrapping → Option Wrapping
  | w :: ws, rest :: rests =>
    let cost := lineCost limit (lineWidth line.reverse) + rest.cost
    bestFrom limit (better best ⟨cost, line.reverse :: rest.lines⟩) (w :: line) ws rests
  | _, _ => best

/-- The best wrappings of a list of words and of all its ends, the whole list first. -/
def wrappings (limit : Nat) : List Text → List Wrapping
  | [] => []
  | w :: ws =>
    let rests := wrappings limit ws
    let whole : Wrapping :=
      if lineWidth (w :: ws) ≤ limit then ⟨0, [w :: ws]⟩
      else (bestFrom limit none [w] ws rests).getD ⟨0, [w :: ws]⟩
    whole :: rests

/-- Wraps a text at spaces. A word that is wider than the limit raises it. -/
def wrap (limit : Nat) (s : Text) : List Text :=
  let words := Text.splitOn (byte ' ') s
  let limit := words.foldl (fun n w => max n (Text.width w)) limit
  match wrappings limit words with
  | w :: _ => w.lines.map (Text.join (utf8 " "))
  | [] => []

end Report

end Lunify
