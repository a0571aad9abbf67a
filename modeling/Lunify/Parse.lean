import Lunify.Tree.OfChart

namespace Lunify

/-! ### Parsing

A program must end with a line break; after that check the chart decides. When the start symbol
does not derive the input, the error names the first token that no derivation could read, and the
terminals that could have stood in its place. -/

/-- Why a token list has no tree. -/
inductive ParseError where
  | noNewline
  | unexpected (token : Option Token) (expected : List Symbol)
  | internal (e : BuildError)
deriving Repr

def expectedShown : Nat := 8

/-- The list of expected terminals in a message. -/
def expectedText (expected : List Symbol) : Text :=
  if expected.isEmpty then []
  else utf8 " (expected " ++ Text.join (utf8 ", ") (expected.take expectedShown) ++
    (if expectedShown < expected.length then utf8 ", ..." else []) ++ utf8 ")"

/-- The error as shown to the user. -/
def ParseError.message : ParseError → Text
  | .noNewline => utf8 "syntax error: no newline at end of file"
  | .unexpected none expected =>
    utf8 "syntax error: unexpected end of input" ++ expectedText expected
  | .unexpected (some tok) expected =>
    utf8 "syntax error at " ++ tok.pos.render ++ utf8 ": unexpected " ++
      Text.quoted tok.content ++ expectedText expected
  | .internal e => e.message

/-- Whether the tokens, without closing dividers at the end, end with a line break. -/
def endsWithNewline (tokens : List Token) : Bool :=
  match tokens.reverse.dropWhile (Token.isDivider dedentText) with
  | [] => false
  | tok :: _ => tok.isDivider newlineText

def recognize (g : Grammar) (tokens : List Token) : Chart :=
  Chart.ofSymbols g (tokens.map Token.symbol)

def syntaxError (g : Grammar) (chart : Chart) (tokens : List Token) : ParseError :=
  .unexpected tokens[chart.furthest]? (Chart.expected g (chart.getD chart.furthest []))

/-- The tree of a token list. -/
def parse (g : Grammar) (tokens : List Token) : Except ParseError Tree :=
  if endsWithNewline tokens then
    let chart := recognize g tokens
    match chart.accepting? with
    | none => .error (syntaxError g chart tokens)
    | some accepting =>
      match accepting.back with
      | [] => .error (.internal (.noDerivation g.start accepting))
      | root :: _ => (Tree.ofState g root tokens).mapError .internal
  else .error .noNewline

end Lunify
