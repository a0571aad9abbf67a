import Lunify.Text.Basic

namespace Lunify

namespace Path

/-! ### Paths

A path is a text of names separated by slashes. The functions here look at the text only. A clean
path has no empty names, no `.` and no `..` that could be left out. -/

def slash : UInt8 := byte '/'

def here : Text := utf8 "."

def parent : Text := utf8 ".."

def isRooted (p : Text) : Bool :=
  p.head? = some slash

/-- The names of a path that remain when every `..` takes the name before it away. The list `done`
holds the names so far, the last one first. -/
def cleanNames (rooted : Bool) (done : List Text) : List Text → List Text
  | [] => done.reverse
  | n :: ns =>
    if n.isEmpty || n = here then cleanNames rooted done ns
    else if n = parent then
      match done with
      | [] => cleanNames rooted (if rooted then [] else [parent]) ns
      | d :: ds => cleanNames rooted (if d = parent then parent :: done else ds) ns
    else cleanNames rooted (n :: done) ns

def names (p : Text) : List Text :=
  cleanNames (isRooted p) [] (Text.splitOn slash p)

def ofNames (rooted : Bool) (ns : List Text) : Text :=
  let body := Text.join [slash] ns
  if rooted then slash :: body else if body.isEmpty then here else body

def clean (p : Text) : Text :=
  ofNames (isRooted p) (names p)

/-- A clean path for the second path seen from the first. Empty paths are left out. -/
def join (a b : Text) : Text :=
  if a.isEmpty then (if b.isEmpty then [] else clean b)
  else if b.isEmpty then clean a
  else clean (a ++ [slash] ++ b)

def base (p : Text) : Text :=
  if p.isEmpty then here
  else
    let q := Text.dropEndWhile (· = slash) p
    if q.isEmpty then [slash] else (Text.splitOn slash q).getLastD here

def dir (p : Text) : Text :=
  clean (p.take (p.length - (p.reverse.takeWhile (· != slash)).length))

/-- Drops the names that two lists share at their beginning. -/
def dropShared : List Text → List Text → List Text × List Text
  | a :: as, b :: bs => if a = b then dropShared as bs else (a :: as, b :: bs)
  | as, bs => (as, bs)

/-- The path of `target` seen from `from`, unless that depends on more than the texts. -/
def relative? (start target : Text) : Option Text :=
  if clean start = clean target then some here
  else if isRooted start != isRooted target then none
  else
    let (up, down) := dropShared (names start) (names target)
    if up.head? = some parent then none
    else some (ofNames false (List.replicate up.length parent ++ down))

end Path

end Lunify
