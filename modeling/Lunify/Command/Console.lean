import Lunify.Chunk.Sandbox
import Lunify.Pipeline.Basic

namespace Lunify

namespace Console

/-! ### The console

A session reads snippets line by line. An empty line hands the snippet in: it is shown as Lua and,
if wanted, run. The lines are kept in a history. -/

def retab : Text → Text
  | a :: b :: c :: d :: r =>
    if [a, b, c, d] = Text.blanks 4 then byte '\t' :: retab r else a :: b :: c :: d :: r
  | s => s

def pieceLength : Nat := 4096

def withoutReturn (line : Text) : Text :=
  if line.getLast? = some 13 then line.dropLast else line

/-- The lines that are read from an input, no more than `fuel` of them. -/
def linesOf : Nat → Text → List Text
  | 0, _ => []
  | _ + 1, [] => []
  | fuel + 1, s =>
    let line := s.takeWhile (· != 10)
    if pieceLength ≤ line.length then
      let piece := withoutReturn (s.take pieceLength)
      piece :: linesOf fuel (s.drop piece.length)
    else match s.drop line.length with
      | [] => [line]
      | _ :: rest => withoutReturn line :: linesOf fuel rest

def lines (input : Text) : List Text :=
  linesOf input.length input

def historyLimit : Nat := 1000

def remember (history : List Text) (line : Text) : List Text :=
  let longer := history ++ [line]
  longer.drop (longer.length - historyLimit)

/-- The history with a line that was read, unless it is the last one again. -/
def append (history : List Text) (line : Text) : List Text :=
  if history.getLast? = some line then history else remember history line

/-- The history in a file: it ends before a line that is too long or no UTF-8. -/
def readHistory (content : Text) : List Text :=
  let sound := (lines content).takeWhile fun l => l.length < pieceLength && Text.isUtf8 l
  sound.foldl remember []

def historyText (history : List Text) : Text :=
  history.flatMap fun l => l ++ utf8 "\n"

/-- How a session treats snippets. -/
structure Mode where
  pipeline : Pipeline
  /-- Whether snippets are run. -/
  runs : Bool
  timeout : Duration

/-- What is printed for a snippet. -/
def Mode.evaluate (m : Mode) (snippet : Text) : Text :=
  match m.pipeline.lua snippet with
  | .error e => e.verdict.name ++ utf8 " error: " ++ e.message ++ utf8 "\n"
  | .ok lua =>
    lua ++ if !m.runs then []
      else match Chunk.sandboxFor m.timeout lua with
        | (out, none) => out
        | (out, some e) => out ++ utf8 "runtime error: " ++ e.message ++ utf8 "\n"

def prompt (snippet : Text) : Text :=
  utf8 (if snippet.isEmpty then ">>> " else "... ")

/-- A session from where `snippet` is read and not handed in: what is printed, and the history. -/
def Mode.session (m : Mode) (history : List Text) (snippet : Text) : List Text → Text × List Text
  | [] => (prompt snippet ++ utf8 "\n", history)
  | line :: rest =>
    if !Text.isBlank line then
      let (out, history) :=
        m.session (append history line) (snippet ++ retab line ++ utf8 "\n") rest
      (prompt snippet ++ out, history)
    else if snippet.isEmpty then
      let (out, history) := m.session history [] rest
      (prompt snippet ++ out, history)
    else
      let (out, history) := m.session history [] rest
      (prompt snippet ++ m.evaluate snippet ++ out, history)

def welcome : Text :=
  utf8 "Welcome to the lupy console. Submit a snippet with an empty line, exit with Ctrl-D.\n"

def historyName : Text := utf8 ".lupy_history"

end Console

end Lunify
