import Lunify.Text.Basic

namespace Lunify

namespace Log

/-! ### Levels

How much a record matters. The levels are numbered from the most important on. -/

/-- A level. -/
inductive Level where
  | crit
  | error
  | warn
  | info
  | debug
  | trace
deriving DecidableEq, Repr

namespace Level

def all : List Level :=
  [.crit, .error, .warn, .info, .debug, .trace]

def number : Level → Nat
  | .crit => 0
  | .error => 1
  | .warn => 2
  | .info => 3
  | .debug => 4
  | .trace => 5

def ofNumber? (n : Int) : Option Level :=
  if n < 0 then none else all[n.toNat]?

def name : Level → Text
  | .crit => utf8 "crit"
  | .error => utf8 "eror"
  | .warn => utf8 "warn"
  | .info => utf8 "info"
  | .debug => utf8 "dbug"
  | .trace => utf8 "trce"

/-- The name of a level in capitals, all of one width. -/
def aligned : Level → Text
  | .crit => utf8 "CRIT "
  | .error => utf8 "ERROR"
  | .warn => utf8 "WARN "
  | .info => utf8 "INFO "
  | .debug => utf8 "DEBUG"
  | .trace => utf8 "TRACE"

/-- The names by which a level can be asked for. -/
def spellings : List (Text × Level) :=
  [("trace", Level.trace), ("trce", .trace), ("debug", .debug), ("dbug", .debug), ("info", .info),
    ("warn", .warn), ("error", .error), ("eror", .error), ("crit", .crit)].map
    fun (s, l) => (utf8 s, l)

def ofName? (name : Text) : Option Level :=
  spellings.lookup name

def fallback : Level := .debug

def unknown (name : Text) : Text :=
  utf8 "unknown level: " ++ name

def colour : Level → Nat
  | .crit => 35
  | .error => 31
  | .warn => 33
  | .info => 32
  | .debug => 36
  | .trace => 34

end Level

end Log

end Lunify
