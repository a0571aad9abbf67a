import Lunify.Text.Basic

namespace Lunify

/-! ### Context-free grammars

A grammar is a list of rules; the left-hand side of the first one is the start symbol. A symbol is
a terminal when no rule has it on the left. No rule has an empty right-hand side, so every symbol
derives texts of at least one terminal. -/

abbrev Symbol := Text

/-- A production. Its right-hand side is never empty. -/
structure Rule where
  lhs : Symbol
  rhs : List Symbol
  rhs_ne_nil : rhs ≠ []
deriving DecidableEq, Repr

namespace Rule

def first (r : Rule) : Symbol :=
  r.rhs.head r.rhs_ne_nil

def render (r : Rule) : Text :=
  r.lhs ++ utf8 " -> " ++ Text.join (utf8 " ") r.rhs

end Rule

/-- A list of rules, at least one. -/
structure Grammar where
  rules : List Rule
  rules_ne_nil : rules ≠ []
deriving DecidableEq, Repr

namespace Grammar

def start (g : Grammar) : Symbol :=
  (g.rules.head g.rules_ne_nil).lhs

def rulesFor (g : Grammar) (s : Symbol) : List Rule :=
  g.rules.filter fun r => r.lhs = s

def isTerminal (g : Grammar) (s : Symbol) : Bool :=
  g.rules.all fun r => r.lhs ≠ s

/-- Whether a symbol has rules, and these consist of terminals only. -/
def isTag (g : Grammar) (s : Symbol) : Bool :=
  !g.isTerminal s && g.rules.all fun r => r.lhs ≠ s || r.rhs.all g.isTerminal

/-- The symbols that have rules, in the order of their first rule. -/
def symbols (g : Grammar) : List Symbol :=
  Text.distinct (g.rules.map Rule.lhs)

/-- Whether a symbol names a category of tokens, and not the content of one: it stands in angle
brackets with at least one byte between them. -/
def isCategory (s : Symbol) : Bool :=
  2 < s.length && s.head? = some (byte '<') && s.getLast? = some (byte '>')

end Grammar

end Lunify
