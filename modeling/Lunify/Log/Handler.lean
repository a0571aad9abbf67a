import Lunify.Log.Format

namespace Lunify

namespace Log

/-! ### Handlers and loggers

A handler decides where a record goes. A logger has a context, which it puts before that of its
records, and a handler. A new logger follows the handler of the one that it was made from. -/

/-- What is done with a record. -/
inductive Handler where
  | discard
  | stream (format : Format)
  | file (format : Format)
  /-- Passes records up to a level on. -/
  | filter (max : Int) (h : Handler)
  | multi (hs : List Handler)
  /-- Adds a field to the record, which stays in it. -/
  | annotate (key value : Text) (h : Handler)
  /-- Does what the handler of a logger does at the time. -/
  | follow (logger : Nat)

instance : Inhabited Handler :=
  ⟨.discard⟩

/-- What was written to a stream and to the log file. -/
structure Written where
  stream : Text
  file : Text

/-- A logger. -/
structure Logger where
  context : List Value
  handler : Handler

/-- The loggers, of which the first is the root. -/
structure Loggers where
  all : List Logger

def unknownCaller : Text := utf8 "%!v(NOFUNC)"

/-- The function at the call site of a record, which is not known. -/
def unknownFunction : Text := utf8 "%!n(NOFUNC)"

namespace Handler

def caller (h : Handler) : Handler :=
  .annotate (utf8 "caller") unknownCaller h

def callerFunction (h : Handler) : Handler :=
  .annotate (utf8 "fn") unknownFunction h

def setup (max : Int) (format : Format) : Handler :=
  .filter max (.file format)

end Handler

/-- What a format is called. All other names stand for the form for a terminal. -/
def fileFormat (name : Text) : Format :=
  if name = utf8 "logfmt" then .fields else .terminal

namespace Loggers

def start : Loggers :=
  ⟨[⟨[], .discard⟩]⟩

mutual

/-- Passes a record to a handler: the record as it is afterwards, and what was written. Following
another logger takes a unit of fuel. -/
def handle (ls : Loggers) (fuel : Nat) (r : Record) : Handler → Except FormatFault (Record × Written)
  | .discard => .ok (r, ⟨[], []⟩)
  | .stream format => do return (r, ⟨← format.text r, []⟩)
  | .file format => do return (r, ⟨[], ← format.text r⟩)
  | .filter max h => if r.level ≤ max then handle ls fuel r h else .ok (r, ⟨[], []⟩)
  | .multi hs => handleAll ls fuel r hs
  | .annotate key value h =>
    handle ls fuel { r with context := r.context ++ [.string key, .string value] } h
  | .follow logger =>
    match fuel with
    | 0 => .ok (r, ⟨[], []⟩)
    | fuel + 1 =>
      match ls.all[logger]? with
      | some l => handle ls fuel r l.handler
      | none => .ok (r, ⟨[], []⟩)
termination_by h => (fuel, sizeOf h)

/-- Passes a record to handlers one after the other. -/
def handleAll (ls : Loggers) (fuel : Nat) (r : Record) :
    List Handler → Except FormatFault (Record × Written)
  | [] => .ok (r, ⟨[], []⟩)
  | h :: hs => do
    let (r, w) ← handle ls fuel r h
    let (r, w') ← handleAll ls fuel r hs
    return (r, ⟨w.stream ++ w'.stream, w.file ++ w'.file⟩)
termination_by hs => (fuel, sizeOf hs)

end

/-- Makes the values of a context come in pairs. A single value that is a context of its own is
that context. -/
def paired (context : List Value) : List Value :=
  let context := match context with
    | [.context key] => [.string key, .integer 1]
    | _ => context
  if context.length % 2 = 0 then context
  else context ++ [.nil, .string errorKey,
    .string (utf8 "Normalized odd number of arguments by adding nil")]

def logger (ls : Loggers) (i : Nat) : Logger :=
  ls.all[i]?.getD ⟨[], .discard⟩

def new (ls : Loggers) (parent : Nat) (context : List Value) : Loggers :=
  ⟨ls.all ++ [⟨(ls.logger parent).context ++ paired context, .follow parent⟩]⟩

def setHandler (ls : Loggers) (i : Nat) (h : Handler) : Loggers :=
  ⟨ls.all.modify i fun l => { l with handler := h }⟩

/-- Writes a record by a logger. -/
def write (ls : Loggers) (i : Nat) (level : Int) (time : Instant) (message : Text)
    (context : List Value) : Except FormatFault Written := do
  let l := ls.logger i
  let r : Record := ⟨level, time, message, l.context ++ paired context⟩
  return (← ls.handle ls.all.length r l.handler).2

end Loggers

end Log

end Lunify
