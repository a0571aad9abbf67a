import Lunify.Chunk.Binary64
import Lunify.Chunk.Code.Compile
import Lunify.Chunk.Machine.Execute
import Lunify.Chunk.Reader
import Lunify.Time.Duration

namespace Lunify

namespace Chunk

/-! ### The sandbox

Runs a Lua text with nothing around it and collects what it prints. -/

/-- How a sandboxed text fails: with an error message, or by not coming to an end. -/
inductive RunError where
  | failed (reason : Text)
  | aborted
deriving DecidableEq, Repr

def RunError.message : RunError → Text
  | .failed reason => utf8 "lua runtime error: " ++ reason
  | .aborted => utf8 "lua execution aborted: context deadline exceeded"

/-- An error of reading as a run reports it. -/
def SyntaxError.report (e : SyntaxError) : Text :=
  if e.place = .finish then utf8 "<string> at EOF:   " ++ e.fault.message ++ utf8 "\n"
  else utf8 "<string> line:" ++ Text.ofInt e.place.line ++ utf8 "(column:" ++
    Text.ofInt e.place.column ++ utf8 ") near '" ++ e.near ++ utf8 "':   " ++ e.fault.message ++
    utf8 "\n"

def CodeError.report (e : CodeError) : Text :=
  utf8 "compile error near line(" ++ Text.ofInt e.line ++ utf8 ") <string>: " ++ e.fault.message

/-- What a run reports that has asked for a value where there is none. -/
def faultMessage : Text :=
  utf8 "runtime error: invalid memory address or nil pointer dereference"

def sandboxBudget : Nat := 10000000

/-- Runs a Lua text with a budget: what it prints, and the error that ends it, if one does. -/
def sandboxWithin (budget : Nat) (lua : Text) : Text × Option RunError :=
  match read lua with
  | .error e => ([], some (.failed e.report))
  | .ok body =>
    match compile binary64 body with
    | .error e => ([], some (.failed e.report))
    | .ok p =>
      match run binary64 budget p with
      | (none, m) => (m.output, none)
      | (some .outOfBudget, m) => (m.output, some .aborted)
      | (some .fault, m) => (m.output, some (.failed faultMessage))
      | (some (.error v), m) => (m.output, some (.failed (v.text binary64)))

def sandbox (lua : Text) : Text × Option RunError :=
  sandboxWithin sandboxBudget lua

def instructionTime : Nat := 25

/-- Runs a Lua text for a time. When there is no time, nothing is run. -/
def sandboxFor (time : Duration) (lua : Text) : Text × Option RunError :=
  let budget := time.nanoseconds.toNat / instructionTime
  if budget = 0 then ([], some .aborted) else sandboxWithin (min budget sandboxBudget) lua

end Chunk

end Lunify
