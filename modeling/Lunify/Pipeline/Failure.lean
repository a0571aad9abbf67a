import Lunify.Chunk.Reader
import Lunify.Parse
import Lunify.Rendering.Step
import Lunify.Scope.Tables
import Lunify.Token.Lexer

namespace Lunify

/-! ### Failures

Why a source has no Lua text: each stage has its own error, and the verdict sums up which stage it
was. Whatever is not the source's fault is internal. -/

/-- How a source fares, in one word. -/
inductive Verdict where
  | none
  | lexical
  | indent
  | noNewline
  | syntactic
  | semantic
  | internal
deriving DecidableEq, Repr

namespace Verdict

def all : List Verdict :=
  [.none, .lexical, .indent, .noNewline, .syntactic, .semantic, .internal]

/-- The word for a verdict. -/
def name : Verdict → Text
  | .none => utf8 "none"
  | .lexical => utf8 "lexical"
  | .indent => utf8 "indent"
  | .noNewline => utf8 "no-newline"
  | .syntactic => utf8 "syntactic"
  | .semantic => utf8 "semantic"
  | .internal => utf8 "internal"

def ofNumber? (n : Int) : Option Verdict :=
  if n < 0 then Option.none else all[n.toNat]?

def nameOfNumber (n : Int) : Text :=
  ((ofNumber? n).map name).getD (utf8 "unknown")

end Verdict

/-- A Lua text that does not read back. -/
def Chunk.SyntaxError.message (e : Chunk.SyntaxError) : Text :=
  utf8 "generated lua does not parse at " ++ Text.ofInt e.place.line ++ utf8 ":" ++
    Text.ofInt e.place.column ++ utf8 ": " ++ e.fault.message

/-- The error of the stage that fails. -/
inductive Failure where
  | lex (e : LexError)
  | parse (e : ParseError)
  | scope (e : Violation)
  | render (e : RenderError)
  | chunk (e : Chunk.SyntaxError)
  | malformedTree
deriving Repr

namespace Failure

def message : Failure → Text
  | .lex e => e.message
  | .parse e => e.message
  | .scope e => e.message
  | .render e => e.message
  | .chunk e => e.message
  | .malformedTree => []

/-- The verdict on a failure. -/
def verdict : Failure → Verdict
  | .lex (.unexpected ..) => .lexical
  | .lex (.indentation ..) => .indent
  | .parse .noNewline => .noNewline
  | .parse (.unexpected ..) => .syntactic
  | .parse (.internal _) => .internal
  | .scope _ => .semantic
  | .render _ => .internal
  | .chunk _ => .internal
  | .malformedTree => .internal

def ofScope : ScopeError → Failure
  | .violation v => .scope v
  | .malformed => .malformedTree

def ofRender : RenderError → Failure
  | .malformed => .malformedTree
  | e => .render e

end Failure

end Lunify
