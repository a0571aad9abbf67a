import Lunify.Grammar.Basic
import Lunify.Keccak
import Lunify.Text.Blank
import Lunify.Text.Rune

namespace Lunify

/-! ### Rule text

A line of rule text has the form `A -> B C | D`. Each alternative is one rule. A number sign starts
a comment, and a line without anything else is skipped. `Grammar.text` writes the rules of a
grammar one to a line; reading it back gives the same rules, so its hash identifies the grammar. -/

/-- What is wrong with rule text. -/
inductive LoadFault where
  | missingArrow
  | leftHandSide (symbols : Nat)
  | emptyAlternative (lhs : Symbol)
  | noRules
deriving DecidableEq, Repr

/-- A fault and the line it is on, counted from one. -/
structure LoadError where
  line : Nat
  fault : LoadFault
deriving DecidableEq, Repr

/-- The fault in words. -/
def LoadFault.message : LoadFault → Text
  | .missingArrow => utf8 "missing \"->\""
  | .leftHandSide n => utf8 "left-hand side must be one symbol, have " ++ Text.ofNat n
  | .emptyAlternative lhs => utf8 "empty alternative for " ++ lhs
  | .noRules => utf8 "no rules"

def LoadError.message (e : LoadError) : Text :=
  utf8 "grammar line " ++ Text.ofNat e.line ++ utf8 ": " ++ e.fault.message

namespace Grammar

def withoutComment (line : Text) : Text :=
  line.takeWhile (· != byte '#')

/-- The rule with the given alternative of a left-hand side. -/
def alternative (lhs : Symbol) (alt : Text) : Except LoadFault Rule :=
  match Text.words alt with
  | [] => .error (.emptyAlternative lhs)
  | s :: rest => .ok ⟨lhs, s :: rest, List.cons_ne_nil s rest⟩

/-- The rules on a line that has no comment and is not blank. -/
def lineRules (line : Text) : Except LoadFault (List Rule) :=
  match Text.cutAt (utf8 "->") line with
  | none => .error .missingArrow
  | some (left, right) =>
    match Text.words left with
    | [lhs] => (Text.splitOn (byte '|') right).mapM (alternative lhs)
    | symbols => .error (.leftHandSide symbols.length)

/-- The rules on a list of lines, the first of which has the given number. -/
def linesRules (number : Nat) : List Text → Except LoadError (List Rule)
  | [] => .ok []
  | line :: rest =>
    if Text.isBlank (withoutComment line) then
      linesRules (number + 1) rest
    else do
      let rules ← (lineRules (withoutComment line)).mapError fun fault => ⟨number, fault⟩
      let later ← linesRules (number + 1) rest
      return rules ++ later

/-- The grammar with the given rule text. -/
def load (text : Text) : Except LoadError Grammar := do
  match ← linesRules 1 (Text.lines text) with
  | [] => .error ⟨1, .noRules⟩
  | r :: rest => .ok ⟨r :: rest, List.cons_ne_nil r rest⟩

def text (g : Grammar) : Text :=
  g.rules.flatMap fun r => r.render ++ utf8 "\n"

def digest (g : Grammar) : Text :=
  Keccak.hash g.text

/-- A table of the symbols of a grammar with the number of their rules. -/
def listing (g : Grammar) : Text :=
  utf8 "start " ++ g.start ++ utf8 ", digest " ++ Text.toHex (g.digest.take 4) ++ utf8 "\n" ++
    g.symbols.flatMap fun s =>
      Text.padRight 22 s ++ utf8 " " ++ Text.ofNat (g.rulesFor s).length ++
        (if g.isTag s then utf8 " (tag)" else []) ++ utf8 "\n"

end Grammar

end Lunify
