import Lunify.Decimal.Fixed
import Lunify.Log.Level
import Lunify.Text.Quoted
import Lunify.Time.Duration
import Lunify.Time.Instant

namespace Lunify

namespace Log

/-! ### Records as text

A record has a message and a context of keys and values. It is written as one line of fields, or
in a form for reading on a terminal. -/

/-- A value in the context of a record. -/
inductive Value where
  | nil
  | string (s : Text)
  /-- A value that describes itself by a text. -/
  | described (s : Text)
  | bool (b : Bool)
  | integer (n : Int)
  | float (x : Float)
  | duration (d : Duration)
  | time (t : Instant)
  | level (number : Int)
  | list (items : List Text)
  /-- A context of its own with one key, which has the value one. -/
  | context (key : Text)

/-- Why a record cannot be written. -/
inductive FormatFault where
  /-- A level with a number that no level has. -/
  | badLevel
  /-- A key without a value. -/
  | unpaired
deriving DecidableEq, Repr

/-- A record. -/
structure Record where
  level : Int
  time : Instant
  message : Text
  context : List Value

/-- The ways to write a record. -/
inductive Format where
  | fields
  | terminal
  | colour
deriving DecidableEq, Repr

/-- Whether a text must be quoted to stand as the value of a field. -/
def needsQuotes (s : Text) : Bool :=
  s.isEmpty || s.any fun b => b ≤ byte ' ' || b = byte '=' || b = byte '"'

def fieldText (s : Text) : Text :=
  if needsQuotes s then Text.quoted s else s

def bracketed (items : List Text) : Text :=
  utf8 "[" ++ Text.join (utf8 " ") items ++ utf8 "]"

def levelOf (n : Int) : Except FormatFault Level :=
  match Level.ofNumber? n with
  | some l => .ok l
  | none => .error .badLevel

/-- A value as the value of a field. Times are brief on a terminal. -/
def Value.field (terminal : Bool) : Value → Except FormatFault Text
  | .nil => .ok (utf8 "nil")
  | .string s => .ok (fieldText s)
  | .described s => .ok (fieldText s)
  | .bool b => .ok (utf8 (if b then "true" else "false"))
  | .integer n => .ok (Text.ofInt n)
  | .float x => .ok (Decimal.fixed 3 x)
  | .duration d => .ok d.text
  | .time t => .ok (if terminal then t.brief else t.full)
  | .level n => do return fieldText (← levelOf n).name
  | .list items => .ok (fieldText (bracketed items))
  | .context key => .ok (fieldText (utf8 "map" ++ bracketed [key ++ utf8 ":1"]))

/-- The key of a field that reports an error in the use of the log. -/
def errorKey : Text := utf8 "LOG_ERROR"

def coloured (colour : Option Nat) (s : Text) : Text :=
  match colour with
  | some n => utf8 "\x1b[" ++ Text.ofNat n ++ utf8 "m" ++ s ++ utf8 "\x1b[0m"
  | none => s

/-- A key and a value as a field. A key that is no string is an error. -/
def field (terminal : Bool) (colour : Option Nat) (key value : Value) :
    Except FormatFault Text := do
  let v ← value.field terminal
  match key with
  | .string k => return coloured colour k ++ utf8 "=" ++ v
  | _ => return coloured colour errorKey ++ utf8 "=" ++ fieldText []

/-- The keys and values of a context as fields. -/
def fields (terminal : Bool) (colour : Option Nat) : List Value → Except FormatFault (List Text)
  | [] => .ok []
  | [_] => .error .unpaired
  | k :: v :: r => do
    let f ← field terminal colour k v
    return f :: (← fields terminal colour r)

/-- The fields of a context on one line. -/
def fieldLine (terminal : Bool) (colour : Option Nat) (context : List Value) :
    Except FormatFault Text := do
  return Text.join (utf8 " ") (← fields terminal colour context) ++ utf8 "\n"

/-- The width to which a message is filled when a context follows. -/
def messageWidth : Nat := 40

/-- A record for a terminal. -/
def terminalText (useColour : Bool) (r : Record) : Except FormatFault Text := do
  let level ← levelOf r.level
  let colour := if useColour then some level.colour else none
  let padding := if r.context.isEmpty then []
    else Text.blanks (messageWidth - Text.runeCount r.message)
  return coloured colour level.aligned ++ utf8 "[" ++ r.time.brief ++ utf8 "] " ++ r.message ++
    utf8 " " ++ padding ++ (← fieldLine true colour r.context)

/-- A record as a line of fields. -/
def fieldsText (r : Record) : Except FormatFault Text :=
  fieldLine false none ([.string (utf8 "t"), .time r.time, .string (utf8 "lvl"), .level r.level,
    .string (utf8 "msg"), .string r.message] ++ r.context)

def Format.text : Format → Record → Except FormatFault Text
  | .fields => fieldsText
  | .terminal => terminalText false
  | .colour => terminalText true

def snippetLength : Nat := 40

/-- A source on one line, shortened. -/
def snippet (source : Text) : Text :=
  let line := source.flatMap fun b => if b = byte '\n' then utf8 "\\n" else [b]
  if Text.runeCount line ≤ snippetLength then line
  else ((Text.runes line).take snippetLength).flatMap Rune.cleaned ++ utf8 "..."

end Log

end Lunify
