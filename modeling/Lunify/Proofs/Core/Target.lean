import Lunify.Chunk.Expr
import Lunify.Proofs.Chunk.Scanner
import Lunify.Proofs.Core.Syntax

/-!
# Core programs in Lua

The Lua tokens that a phrase of a core program is written with (`Core.Expr.lexemes`,
`Core.Stat.lexemes`), and the Lua syntax that these are to be read as (`Core.Expr.Matches`,
`Core.Stat.Matches`), up to the lines that the nodes carry. The end of a range is exclusive and that of
a Lua loop is not, so it moves by one, and an integer is moved right away.

Lua binds `not` more tightly than arithmetic, so that `not a + b` is read as `(not a) + b`. Nothing is
asked of what it is read as: as the operand of `not` is an integer there, it is never evaluated.
-/

namespace Lunify

namespace Core

open Chunk (Lexeme inParens mark scannedDigits)

/-! ### Tokens -/

/-- How a comparison is written in Lua. -/
def Comparison.target : Comparison → String
  | .ne => "~="
  | op => op.source

/-- Whether an expression is a comparison. -/
def Expr.isComparison : Expr → Bool
  | .compare .. => true
  | _ => false

/-- Whether an expression is arithmetic on two operands, or a negation of such. -/
def Expr.isArithmetic : Expr → Bool
  | .arith .. => true
  | .not e => e.isArithmetic
  | _ => false

/-- Whether an expression is a single token. -/
def Expr.isToken : Expr → Bool
  | .int _ | .str _ | .bool _ | .name _ => true
  | _ => false

mutual

/-- The tokens of an expression. A comparison after `not` needs parentheses in Lua. -/
def Expr.lexemes : Expr → List Lexeme
  | .int d => [.number (scannedDigits d.digits)]
  | .str s => [.string s]
  | .bool b => [mark (if b then "true" else "false")]
  | .name x => [.name x.text]
  | .paren e => inParens e.lexemes
  | .neg e => mark "-" :: e.lexemes
  | .pos e => e.lexemes
  | .arith op a b => a.lexemes ++ mark op.source :: b.lexemes
  | .compare op a b => a.lexemes ++ mark op.target :: b.lexemes
  | .not e => mark "not" :: if e.isComparison then inParens e.lexemes else e.lexemes
  | .and a b => a.lexemes ++ mark "and" :: b.lexemes
  | .or a b => a.lexemes ++ mark "or" :: b.lexemes
  | .call f args => .name f.text :: inParens (lexemesOf args)

/-- The tokens of a list of expressions, with commas between them. -/
def lexemesOf : List Expr → List Lexeme
  | [] => []
  | e :: es => e.lexemes ++ moreLexemesOf es

/-- The tokens of more expressions, with a comma before each of them. -/
def moreLexemesOf : List Expr → List Lexeme
  | [] => []
  | e :: es => mark "," :: (e.lexemes ++ moreLexemesOf es)

end

/-- The tokens of names, with commas between them. -/
def nameLexemes : List Name → List Lexeme
  | [] => []
  | [x] => [.name x.text]
  | x :: y :: xs => .name x.text :: mark "," :: nameLexemes (y :: xs)

/-- The tokens of an integer. -/
def intLexemes : Int → List Lexeme
  | .ofNat n => [.number (Text.ofNat n)]
  | .negSucc n => [mark "-", .number (Text.ofNat (n + 1))]

/-- The last integer before the given end of a range, in the given direction. -/
def lastBefore (down : Bool) (n : Int) : Int :=
  if down then n + 1 else n - 1

/-- The operator that leads from the end of a range to the integer before it. -/
def lastOp (down : Bool) : String :=
  if down then "+" else "-"

/-- The tokens of the end of a loop over the range that ends before an expression. -/
def Expr.endLexemes (down : Bool) : Expr → List Lexeme
  | .int d => intLexemes (lastBefore down d.value)
  | e => (if e.isToken then e.lexemes else inParens e.lexemes) ++
      [mark (lastOp down), .number (utf8 "1")]

/-- The tokens of a step. -/
def stepLexemes (negated : Bool) (step : Literal) : List Lexeme :=
  if negated then (Expr.neg (.int step)).lexemes else (Expr.int step).lexemes

/-- The tokens of the bounds of a loop. -/
def Range.lexemes : Range → List Lexeme
  | .upTo stop => .number (utf8 "0") :: mark "," :: stop.endLexemes false
  | .between start stop => start.lexemes ++ mark "," :: stop.endLexemes false
  | .stepped start stop negated step =>
    start.lexemes ++ mark "," :: (stop.endLexemes negated ++ mark "," :: stepLexemes negated step)

mutual

/-- The tokens of a statement. -/
def Stat.lexemes : Stat → List Lexeme
  | .assign x e => .name x.text :: mark "=" :: e.lexemes
  | .call f args => .name f.text :: inParens (lexemesOf args)
  | .print arg => .name (utf8 "print") :: inParens (lexemesOf arg.toList)
  | .return value => mark "return" :: lexemesOf value.toList
  | .break => [mark "break"]
  | .branch b => mark "if" :: (b.lexemes ++ [mark "end"])
  | .loop cond body => mark "while" :: (cond.lexemes ++ mark "do" :: (blockLexemes body ++ [mark "end"]))
  | .count x range body => mark "for" :: .name x.text :: mark "=" ::
      (range.lexemes ++ mark "do" :: (blockLexemes body ++ [mark "end"]))
  | .define f params body => mark "function" :: .name f.text ::
      (inParens (nameLexemes params) ++ (blockLexemes body ++ [mark "end"]))

/-- The tokens of a conditional, from after its keyword up to its end. -/
def Branch.lexemes : Branch → List Lexeme
  | .only cond yes => cond.lexemes ++ mark "then" :: blockLexemes yes
  | .either cond yes no =>
    cond.lexemes ++ mark "then" :: (blockLexemes yes ++ mark "else" :: blockLexemes no)
  | .chain cond yes next =>
    cond.lexemes ++ mark "then" :: (blockLexemes yes ++ mark "elseif" :: next.lexemes)

/-- The tokens of a list of statements. -/
def blockLexemes : List Stat → List Lexeme
  | [] => []
  | s :: b => s.lexemes ++ blockLexemes b

end

/-! ### Syntax -/

/-- The Lua operator on numbers. -/
def Arith.target : Arith → Chunk.Arithmetic
  | .add => .add
  | .sub => .sub
  | .mul => .mul
  | .mod => .mod

/-- The Lua comparison. -/
def Comparison.binary : Comparison → Chunk.BinaryOp
  | .eq => .eq
  | .ne => .ne
  | .lt => .lt
  | .gt => .gt
  | .le => .le
  | .ge => .ge

/-- Whether an expression is another one, in parentheses or not. -/
def InParens (e e' : Chunk.Expr) : Prop :=
  e' = e ∨ ∃ l, e' = e.parenthesized l

mutual

/-- The Lua expressions that an expression may be read as. -/
def Expr.Matches : Expr → Chunk.Expr → Prop
  | .int d, e' => ∃ l, e' = .constant l (.number (scannedDigits d.digits))
  | .str s, e' => ∃ l, e' = .constant l (.string s)
  | .bool b, e' => ∃ l, e' = .constant l (.bool b)
  | .name x, e' => ∃ l, e' = .name l x.text
  | .paren e, e' => ∃ l u, e.Matches u ∧ e' = u.parenthesized l
  | .neg e, e' => ∃ l u, e.Matches u ∧ e' = .unary l .neg u
  | .pos e, e' => e.Matches e'
  | .arith op a b, e' => ∃ l u v, a.Matches u ∧ b.Matches v ∧ e' = .binary l (.arith op.target) u v
  | .compare op a b, e' => ∃ l u v, a.Matches u ∧ b.Matches v ∧ e' = .binary l op.binary u v
  | .not e, e' => e.isArithmetic = true ∨
      ∃ l u v, e.Matches u ∧ InParens u v ∧ e' = .unary l .not v
  | .and a b, e' => ∃ l u v, a.Matches u ∧ b.Matches v ∧ e' = .binary l .and u v
  | .or a b, e' => ∃ l u v, a.Matches u ∧ b.Matches v ∧ e' = .binary l .or u v
  | .call f args, e' => ∃ l l' us, MatchesAll args us ∧ e' = .call l false (.name l' f.text) us

/-- The lists of Lua expressions that a list of expressions may be read as. -/
def MatchesAll : List Expr → List Chunk.Expr → Prop
  | [], us => us = []
  | e :: es, us => ∃ u vs, e.Matches u ∧ MatchesAll es vs ∧ us = u :: vs

end

/-- The Lua expressions that an integer may be read as. -/
def MatchesInt : Int → Chunk.Expr → Prop
  | .ofNat n, e' => ∃ l, e' = .constant l (.number (Text.ofNat n))
  | .negSucc n, e' => ∃ l l', e' = .unary l .neg (.constant l' (.number (Text.ofNat (n + 1))))

/-- The Lua expressions that the end of a loop may be read as. -/
def Expr.EndMatches (down : Bool) : Expr → Chunk.Expr → Prop
  | .int d, e' => MatchesInt (lastBefore down d.value) e'
  | e, e' => ∃ l l' u v, e.Matches u ∧ InParens u v ∧
      e' = .binary l (.arith (if down then .add else .sub)) v (.constant l' (.number (utf8 "1")))

/-- The Lua bounds that those of a loop may be read as. -/
def Range.Matches : Range → Chunk.Expr → Chunk.Expr → Option Chunk.Expr → Prop
  | .upTo stop, a, b, c => (∃ l, a = .constant l (.number (utf8 "0"))) ∧ stop.EndMatches false b ∧
      c = none
  | .between start stop, a, b, c => start.Matches a ∧ stop.EndMatches false b ∧ c = none
  | .stepped start stop negated step, a, b, c => start.Matches a ∧ stop.EndMatches negated b ∧
      ∃ u, (if negated then Expr.neg (.int step) else .int step).Matches u ∧ c = some u

mutual

/-- The Lua statements that a statement may be read as. -/
def Stat.Matches : Stat → Chunk.Stat → Prop
  | .assign x e, s' => ∃ l l' u, e.Matches u ∧ s' = .assign l [.name l' x.text] [u]
  | .call f args, s' => ∃ l u, (Expr.call f args).Matches u ∧ s' = .call l u
  | .print arg, s' => ∃ l l' l'' us, MatchesAll arg.toList us ∧
      s' = .call l (.call l' false (.name l'' (utf8 "print")) us)
  | .return value, s' => ∃ l us, MatchesAll value.toList us ∧ s' = .return l us
  | .break, s' => ∃ l, s' = .break l
  | .branch b, s' => b.Matches s'
  | .loop cond body, s' => ∃ l u b', cond.Matches u ∧ BlockMatches body b' ∧ s' = .loop l u b'
  | .count x range body, s' => ∃ l a b c b', range.Matches a b c ∧ BlockMatches body b' ∧
      s' = .count l x.text a b c b'
  | .define f params body, s' => ∃ l l' last b', BlockMatches body b' ∧
      s' = .define (.name l f.text) (.function l' (params.map Name.text) false b' last)

/-- The Lua statements that a conditional may be read as. -/
def Branch.Matches : Branch → Chunk.Stat → Prop
  | .only cond yes, s' => ∃ l u b', cond.Matches u ∧ BlockMatches yes b' ∧ s' = .branch l u b' []
  | .either cond yes no, s' => ∃ l u b' c', cond.Matches u ∧ BlockMatches yes b' ∧
      BlockMatches no c' ∧ s' = .branch l u b' c'
  | .chain cond yes next, s' => ∃ l u b' t, cond.Matches u ∧ BlockMatches yes b' ∧ next.Matches t ∧
      s' = .branch l u b' [t]

/-- The lists of Lua statements that a list of statements may be read as. -/
def BlockMatches : List Stat → List Chunk.Stat → Prop
  | [], b' => b' = []
  | s :: b, b' => ∃ t c', s.Matches t ∧ BlockMatches b c' ∧ b' = t :: c'

end

end Core

end Lunify
