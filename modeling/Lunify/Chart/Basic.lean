import Lunify.Grammar.Basic
import Lunify.Number

namespace Lunify

/-! ### Charts

A state is a rule recognized up to a dot between two positions of the input. The chart has one
entry for every position, holding the states that end there in the order of their discovery. The
rules are numbered: number zero is the extra rule `γ -> start`, and the rules of the grammar
follow. Two states are the same when number, dot and origin agree; the first one found is kept,
which settles the derivation chosen for ambiguous input.

An entry is a work list: it begins with the states that read the previous symbol, and each state
in turn either is complete and advances the states that waited for it, or predicts the rules of
the symbol after its dot. As every rule reads at least one symbol, a complete state began at an
earlier position, whose entry is finished. -/

/-- The left-hand side of the rule that derives the start symbol. -/
def acceptSymbol : Symbol := utf8 "γ"

/-- A rule recognized up to its dot over the input from `origin` to `finish`. There is one
completed state in `back` for every symbol with rules left of the dot. -/
structure State where
  number : Nat
  rule : Rule
  dot : Nat
  origin : Nat
  finish : Nat
  back : List State
deriving Repr

namespace State

def next? (s : State) : Option Symbol :=
  s.rule.rhs[s.dot]?

def isComplete (s : State) : Bool :=
  s.dot = s.rule.rhs.length

def same (s t : State) : Bool :=
  s.number = t.number && s.dot = t.dot && s.origin = t.origin

def scanned (s : State) : State :=
  { s with dot := s.dot + 1, finish := s.finish + 1 }

def advanced (s completed : State) : State :=
  { s with dot := s.dot + 1, finish := completed.finish, back := s.back ++ [completed] }

/-- A state as it is shown, with a bullet for the dot. -/
def render (s : State) : Text :=
  s.rule.lhs ++ utf8 " -> " ++
    Text.join (utf8 " ") (s.rule.rhs.take s.dot ++ [utf8 "•"] ++ s.rule.rhs.drop s.dot) ++
    utf8 " [" ++ Text.ofNat s.origin ++ utf8 ", " ++ Text.ofNat s.finish ++ utf8 "]"

end State

/-- The states that end at one position, in the order of their discovery. -/
abbrev Entry := List State

/-- The entries of all positions, from the start of the input on. -/
abbrev Chart := Array Entry

namespace Grammar

def acceptRule (g : Grammar) : Rule :=
  ⟨acceptSymbol, [g.start], List.cons_ne_nil _ _⟩

def numbered (g : Grammar) : List (Nat × Rule) :=
  (g.rules.zipIdx 1).map fun (r, n) => (n, r)

/-- The number of states that fit into an entry for each origin: one for every place of the dot in
every rule. -/
def dotCount (g : Grammar) : Nat :=
  total ((g.acceptRule :: g.rules).map fun r => r.rhs.length + 1)

end Grammar

/-- What a symbol with rules expands to. -/
structure Expansion where
  isTag : Bool
  rules : List (Nat × Rule)
deriving Repr

namespace Grammar

def expansions (g : Grammar) : List (Symbol × Expansion) :=
  g.symbols.map fun s => (s, ⟨g.isTag s, g.numbered.filter fun (_, r) => r.lhs = s⟩)

end Grammar

namespace Chart

/-- A predictor says which rules may derive a symbol when the given symbol of the input, or none
at its end, is next. It gives no rules for a terminal. -/
abbrev Predictor := Symbol → Option Symbol → List (Nat × Rule)

/-- Predicts the rules of a symbol. A rule of a tag is predicted only when it begins with the next
symbol of the input. -/
def predict (table : List (Symbol × Expansion)) : Predictor := fun s ahead =>
  match table.lookup s with
  | none => []
  | some e => if e.isTag then e.rules.filter fun (_, r) => some r.first = ahead else e.rules

def waiting (entry : Entry) (s : Symbol) : List State :=
  entry.filter fun t => t.next? = some s

/-- The states that a state at position `i` adds to its own entry. -/
def successors (rulesOf : Predictor) (chart : Chart) (i : Nat) (ahead : Option Symbol) (s : State) :
    List State :=
  match s.next? with
  | none => (waiting (chart.getD s.origin []) s.rule.lhs).map (·.advanced s)
  | some next => (rulesOf next ahead).map fun (n, r) => ⟨n, r, 0, i, i, []⟩

/-- Puts states into a queue, one by one, unless they are in it or among those seen already. -/
def enqueue (seen : List State) (queue : List State) : List State → List State
  | [] => queue
  | s :: rest =>
    if seen.any s.same || queue.any s.same then enqueue seen queue rest
    else enqueue seen (queue ++ [s]) rest

/-- Works through a queue of states. The states already worked through are in `seen`, the latest
first. Each step takes one unit of `fuel`. -/
def work (step : State → List State) : Nat → List State → List State → Entry
  | 0, seen, queue => seen.reverse ++ queue
  | _ + 1, seen, [] => seen.reverse
  | fuel + 1, seen, s :: queue => work step fuel (s :: seen) (enqueue (s :: seen) queue (step s))

/-- The entry at position `i` that begins with the given states. -/
def entry (g : Grammar) (rulesOf : Predictor) (chart : Chart) (i : Nat) (ahead : Option Symbol)
    (seeds : List State) : Entry :=
  work (successors rulesOf chart i ahead) ((i + 1) * g.dotCount + 1) [] seeds

def scan (g : Grammar) (e : Entry) (symbol : Symbol) : List State :=
  if g.isTerminal symbol then (waiting e symbol).map State.scanned else []

/-- Adds the entries of the remaining input to a chart; the first of them begins with the given
states. -/
def extend (g : Grammar) (rulesOf : Predictor) (chart : Chart) (seeds : List State) :
    List Symbol → Chart
  | [] => chart.push (entry g rulesOf chart chart.size none seeds)
  | symbol :: rest =>
    let e := entry g rulesOf chart chart.size (some symbol) seeds
    extend g rulesOf (chart.push e) (scan g e symbol) rest

def build (g : Grammar) (rulesOf : Predictor) (input : List Symbol) : Chart :=
  extend g rulesOf #[] [⟨0, g.acceptRule, 0, 0, 0, []⟩] input

def ofSymbols (g : Grammar) (input : List Symbol) : Chart :=
  build g (predict g.expansions) input

def states (chart : Chart) : Nat :=
  total (chart.toList.map List.length)

/-- The complete state of the extra rule that covers the whole input. -/
def accepting? (chart : Chart) : Option State :=
  (chart.back?.getD []).find? fun s => s.number = 0 && s.isComplete && s.origin = 0

/-- The last position that holds a state, `0` when no later one does. -/
def furthest (chart : Chart) : Nat :=
  ((List.range chart.size).reverse.find? fun i => !(chart.getD i []).isEmpty).getD 0

/-- The terminals with which the states of an entry can go on, in ascending order. -/
def expected (g : Grammar) (e : Entry) : List Symbol :=
  Text.sorted (Text.distinct (e.flatMap fun s =>
    match s.next? with
    | none => []
    | some next =>
      if g.isTerminal next then [next]
      else if g.isTag next then (g.rulesFor next).map Rule.first
      else []))

end Chart

end Lunify
