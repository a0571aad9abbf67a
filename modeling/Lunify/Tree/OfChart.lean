import Lunify.Chart.Basic
import Lunify.Tree.Basic

namespace Lunify

/-! ### From a chart to a tree

The accepting state is unfolded along its completed states: a symbol with rules takes the next of
them, a terminal takes the next token. Tokens of a category are wrapped in a node of their own. -/

/-- A state whose completed states or tokens do not match its rule. -/
inductive BuildError where
  | unusedStates (s : State)
  | noDerivation (symbol : Symbol) (s : State)
  | outOfTokens (symbol : Symbol)
  | leftOver (consumed total : Nat)
deriving Repr

/-- The error as shown to the user. -/
def BuildError.message (e : BuildError) : Text :=
  utf8 "parser: internal error: " ++
    match e with
    | .unusedStates s => utf8 "unused back-pointers in " ++ s.render
    | .noDerivation symbol s => utf8 "no derivation of " ++ symbol ++ utf8 " in " ++ s.render
    | .outOfTokens symbol => utf8 "ran out of tokens at " ++ symbol
    | .leftOver consumed total =>
      utf8 "consumed " ++ Text.ofNat consumed ++ utf8 " of " ++ Text.ofNat total ++ utf8 " tokens"

namespace Tree

def ofTerminal (symbol : Symbol) (tok : Token) : Tree :=
  if Grammar.isCategory symbol then .node symbol [.leaf symbol tok] else .leaf symbol tok

/-- The subtrees of the terminals at the start of a right-hand side, with the symbols and the
tokens that remain. -/
def terminals (g : Grammar) : List Symbol → List Token →
    Except BuildError (List Tree × List Symbol × List Token)
  | [], tokens => .ok ([], [], tokens)
  | symbol :: rhs, tokens =>
    if g.isTerminal symbol then
      match tokens with
      | [] => .error (.outOfTokens symbol)
      | tok :: rest => do
        let (trees, symbols, tokens) ← terminals g rhs rest
        return (ofTerminal symbol tok :: trees, symbols, tokens)
    else .ok ([], symbol :: rhs, tokens)

mutual

/-- The tree of a completed state over the tokens from its origin on, and the tokens after it. -/
def unfold (g : Grammar) : State → List Token → Except BuildError (Tree × List Token)
  | ⟨number, rule, dot, origin, finish, back⟩, tokens => do
    let s : State := ⟨number, rule, dot, origin, finish, back⟩
    let (trees, tokens) ← unfoldSymbols g s back rule.rhs tokens
    return (.node rule.lhs trees, tokens)

/-- The subtrees of the symbols `rhs` of a state, whose completed states are those in the list. -/
def unfoldSymbols (g : Grammar) (s : State) :
    List State → List Symbol → List Token → Except BuildError (List Tree × List Token)
  | [], rhs, tokens => do
    match ← terminals g rhs tokens with
    | (trees, [], tokens) => return (trees, tokens)
    | (_, symbol :: _, _) => throw (.noDerivation symbol s)
  | completed :: back, rhs, tokens => do
    match ← terminals g rhs tokens with
    | (_, [], _) => throw (.unusedStates s)
    | (trees, symbol :: rhs, tokens) =>
      if completed.rule.lhs ≠ symbol then throw (.noDerivation symbol s)
      let (tree, tokens) ← unfold g completed tokens
      let (later, tokens) ← unfoldSymbols g s back rhs tokens
      return (trees ++ tree :: later, tokens)

end

/-- The tree of a completed state that covers all the tokens. -/
def ofState (g : Grammar) (root : State) (tokens : List Token) : Except BuildError Tree := do
  let (tree, rest) ← unfold g root tokens
  if rest.isEmpty then return tree
  else throw (.leftOver (tokens.length - rest.length) tokens.length)

end Tree

end Lunify
