import Lunify.Chunk.Token
import Lunify.Proofs.Text.Decimal
import Lunify.Proofs.Token.Lexed
import Lunify.Proofs.Tree.Shape

/-!
# Core programs

Core programs use integers, strings and truth values, assignments to names, conditionals, loops over
conditions and ranges, and functions defined at program level. `Core.Stat` is their abstract syntax, in
which `pass` and empty lines leave no trace, and `Core.Represents` says which parse trees stand for which
phrases of it. Names and literals carry what makes them usable in Lua: a name is no reserved word of
either language, and an integer literal is small enough to be a number of Lua.

The rules of the fragment that are not a matter of syntax are `Core.Stat.Allowed`: loop variables live in
the bodies of their loops only, functions bind nothing else but their parameters, and nothing follows
a `return` or a `break`.
-/

namespace Lunify

namespace Core

/-! ### Abstract syntax -/

/-- An identifier that is a name in Lua too. -/
@[ext]
structure Name where
  text : Text
  isName : text.IsName
  notReserved : text ∉ Lunify.reservedWords
  notReservedLua : text ∉ Chunk.reservedWords
deriving DecidableEq

/-- The integers below this size are numbers of Lua. -/
def limit : Nat :=
  2 ^ 53

/-- An integer literal. -/
structure Literal where
  digits : Text
  isDecimal : Text.IsDecimal digits
  small : Text.digitsValue digits < limit

/-- The integer that a literal stands for. -/
def Literal.value (d : Literal) : Nat :=
  Text.digitsValue d.digits

/-- The operators on two integers. -/
inductive Arith where
  | add
  | sub
  | mul
  | mod
deriving DecidableEq, Repr

/-- The comparisons. -/
inductive Comparison where
  | eq
  | ne
  | lt
  | gt
  | le
  | ge
deriving DecidableEq, Repr

/-- Expressions. Parentheses are kept, since they decide how a Lua text is read. -/
inductive Expr where
  | int (d : Literal)
  | str (s : Text)
  | bool (b : Bool)
  | name (x : Name)
  | paren (e : Expr)
  | neg (e : Expr)
  | pos (e : Expr)
  | arith (op : Arith) (a b : Expr)
  | compare (op : Comparison) (a b : Expr)
  | not (e : Expr)
  | and (a b : Expr)
  | or (a b : Expr)
  | call (f : Name) (args : List Expr)

/-- The ranges that loops run over. The step is a literal, negated or not. -/
inductive Range where
  | upTo (stop : Expr)
  | between (start stop : Expr)
  | stepped (start stop : Expr) (negated : Bool) (step : Literal)

mutual

/-- Statements. -/
inductive Stat where
  | assign (x : Name) (e : Expr)
  | call (f : Name) (args : List Expr)
  | print (arg : Option Expr)
  | return (value : Option Expr)
  | break
  | branch (b : Branch)
  | loop (cond : Expr) (body : List Stat)
  | count (x : Name) (range : Range) (body : List Stat)
  | define (f : Name) (params : List Name) (body : List Stat)

/-- A conditional from after its keyword on. -/
inductive Branch where
  | only (cond : Expr) (yes : List Stat)
  | either (cond : Expr) (yes no : List Stat)
  | chain (cond : Expr) (yes : List Stat) (next : Branch)

end

/-- What a node of a parse tree can stand for. An expression stands at one of ten levels, by which the
grammar tells how strongly operators bind. -/
inductive Phrase where
  | expr (level : Nat) (e : Expr)
  | args (es : List Expr)
  | call (f : Name) (args : List Expr)
  | params (xs : List Name)
  | range (r : Range)
  | simple (b : List Stat)
  | stats (b : List Stat)
  | block (b : List Stat)
  | elseIf (b : Branch)
  | otherwise (b : List Stat)
  | layout

/-! ### Parse trees -/

/-- The labels of the levels of expressions. -/
def levelLabels : List String :=
  ["<expression>", "<disjunction>", "<conjunction>", "<inversion>", "<comparison>", "<sum>", "<term>",
    "<factor>", "<power>", "<primary>"]

/-- The label of a level of expressions. -/
def levelLabel (k : Nat) : Text :=
  utf8 (levelLabels.getD k "<primary>")

/-- A node with the given label. -/
def node (l : String) (ts : List Tree) : Tree :=
  .node (utf8 l) ts

/-- An atom as an expression. -/
def atom (t : Tree) : Tree :=
  node "<primary>" [node "<atom>" [t]]

/-- Whether a tree is the leaf of a word of the grammar. -/
def IsWord (w : String) (t : Tree) : Prop :=
  ∃ tok, t = .leaf (utf8 w) tok ∧ tok.symbol = utf8 w

/-- Whether a tree is an identifier with the given name. -/
def IsIdentifier (x : Name) (t : Tree) : Prop :=
  ∃ tok, t = Tree.identifier tok ∧ tok.kind = .identifier ∧ tok.content = x.text

/-- How an operator is written. -/
def Arith.source : Arith → String
  | .add => "+"
  | .sub => "-"
  | .mul => "*"
  | .mod => "%"

/-- How a comparison is written. -/
def Comparison.source : Comparison → String
  | .eq => "=="
  | .ne => "!="
  | .lt => "<"
  | .gt => ">"
  | .le => "<="
  | .ge => ">="

/-- Which parse trees stand for which phrases. -/
inductive Represents : Tree → Phrase → Prop
  -- Operands.
  | int {tok : Token} {d : Literal} (hkind : tok.kind = .number) (hcontent : tok.content = d.digits) :
      Represents (atom (.node numberSymbol [.leaf numberSymbol tok])) (.expr 9 (.int d))
  | str {tok : Token} {q : UInt8} {s : Text} (hkind : tok.kind = .string)
      (hcontent : tok.content = q :: (s ++ [q])) (hs : ∀ c ∈ s, c ≠ byte '\\' ∧ c ≠ byte '\r') :
      Represents (atom (.node stringSymbol [.leaf stringSymbol tok])) (.expr 9 (.str s))
  | bool {b : Bool} {t : Tree} (ht : IsWord (if b then "True" else "False") t) :
      Represents (atom t) (.expr 9 (.bool b))
  | name {x : Name} {t : Tree} (ht : IsIdentifier x t) : Represents (atom t) (.expr 9 (.name x))
  | paren {l t r : Tree} {e : Expr} (hl : IsWord "(" l) (ht : Represents t (.expr 0 e))
      (hr : IsWord ")" r) : Represents (node "<primary>" [l, t, r]) (.expr 9 (.paren e))
  | callExpr {t : Tree} {f : Name} {args : List Expr} (ht : Represents t (.call f args)) :
      Represents (node "<primary>" [t]) (.expr 9 (.call f args))
  -- Operators.
  | level {k : Nat} {t : Tree} {e : Expr} (hk : k < 9) (ht : Represents t (.expr (k + 1) e)) :
      Represents (.node (levelLabel k) [t]) (.expr k e)
  | disjunction {t o u : Tree} {a b : Expr} (ht : Represents t (.expr 1 a)) (ho : IsWord "or" o)
      (hu : Represents u (.expr 2 b)) : Represents (node "<disjunction>" [t, o, u]) (.expr 1 (.or a b))
  | conjunction {t o u : Tree} {a b : Expr} (ht : Represents t (.expr 2 a)) (ho : IsWord "and" o)
      (hu : Represents u (.expr 3 b)) :
      Represents (node "<conjunction>" [t, o, u]) (.expr 2 (.and a b))
  | inversion {o u : Tree} {e : Expr} (ho : IsWord "not" o) (hu : Represents u (.expr 3 e)) :
      Represents (node "<inversion>" [o, u]) (.expr 3 (.not e))
  | compare {op : Comparison} {t o u : Tree} {a b : Expr} (ht : Represents t (.expr 5 a))
      (ho : IsWord op.source o) (hu : Represents u (.expr 5 b)) :
      Represents (node "<comparison>" [t, node "<compare_op>" [o], u]) (.expr 4 (.compare op a b))
  | sum {op : Arith} {t o u : Tree} {a b : Expr} (hop : op = .add ∨ op = .sub)
      (ht : Represents t (.expr 5 a)) (ho : IsWord op.source o) (hu : Represents u (.expr 6 b)) :
      Represents (node "<sum>" [t, node "<sum_op>" [o], u]) (.expr 5 (.arith op a b))
  | term {op : Arith} {t o u : Tree} {a b : Expr} (hop : op = .mul ∨ op = .mod)
      (ht : Represents t (.expr 6 a)) (ho : IsWord op.source o) (hu : Represents u (.expr 7 b)) :
      Represents (node "<term>" [t, node "<term_op>" [o], u]) (.expr 6 (.arith op a b))
  | neg {o u : Tree} {e : Expr} (ho : IsWord "-" o) (hu : Represents u (.expr 7 e)) :
      Represents (node "<factor>" [o, u]) (.expr 7 (.neg e))
  | pos {o u : Tree} {e : Expr} (ho : IsWord "+" o) (hu : Represents u (.expr 7 e)) :
      Represents (node "<factor>" [o, u]) (.expr 7 (.pos e))
  -- Calls.
  | argument {t : Tree} {e : Expr} (ht : Represents t (.expr 0 e)) :
      Represents (node "<arguments>" [t]) (.args [e])
  | arguments {t c u : Tree} {es : List Expr} {e : Expr} (ht : Represents t (.args es))
      (hc : IsWord "," c) (hu : Represents u (.expr 0 e)) :
      Represents (node "<arguments>" [t, c, u]) (.args (es ++ [e]))
  | callNothing {f : Name} {t l r : Tree} (ht : IsIdentifier f t) (hl : IsWord "(" l)
      (hr : IsWord ")" r) : Represents (node "<function_call>" [t, l, r]) (.call f [])
  | call {f : Name} {t l a r : Tree} {args : List Expr} (ht : IsIdentifier f t) (hl : IsWord "(" l)
      (ha : Represents a (.args args)) (hr : IsWord ")" r) :
      Represents (node "<function_call>" [t, l, a, r]) (.call f args)
  -- Simple statements.
  | assign {x : Name} {t o u : Tree} {e : Expr} (ht : IsIdentifier x t) (ho : IsWord "=" o)
      (hu : Represents u (.expr 0 e)) :
      Represents (node "<simple_statement>" [node "<assignment>" [t, o, u]]) (.simple [.assign x e])
  | callStat {t : Tree} {f : Name} {args : List Expr} (ht : Represents t (.call f args)) :
      Represents (node "<simple_statement>" [t]) (.simple [.call f args])
  | printNothing {p l r : Tree} (hp : IsWord "print" p) (hl : IsWord "(" l) (hr : IsWord ")" r) :
      Represents (node "<simple_statement>" [node "<print>" [p, l, r]]) (.simple [.print none])
  | print {p l a r : Tree} {e : Expr} (hp : IsWord "print" p) (hl : IsWord "(" l)
      (ha : Represents a (.args [e])) (hr : IsWord ")" r) :
      Represents (node "<simple_statement>" [node "<print>" [p, l, a, r]]) (.simple [.print (some e)])
  | returnNothing {k : Tree} (hk : IsWord "return" k) :
      Represents (node "<simple_statement>" [node "<return>" [k]]) (.simple [.return none])
  | returnValue {k t : Tree} {e : Expr} (hk : IsWord "return" k) (ht : Represents t (.expr 0 e)) :
      Represents (node "<simple_statement>" [node "<return>" [k, t]]) (.simple [.return (some e)])
  | breakLoop {k : Tree} (hk : IsWord "break" k) :
      Represents (node "<simple_statement>" [k]) (.simple [.break])
  | pass {k : Tree} (hk : IsWord "pass" k) : Represents (node "<simple_statement>" [k]) (.simple [])
  -- Lists of statements.
  | line {t n : Tree} {b : List Stat} (ht : Represents t (.simple b)) (hn : IsWord "newline" n) :
      Represents (node "<statement>" [t, n]) (.stats b)
  | empty {n : Tree} (hn : IsWord "newline" n) : Represents (node "<statement>" [n]) (.stats [])
  | compound {t : Tree} {b : List Stat} (ht : Represents t (.stats b)) :
      Represents (node "<statement>" [node "<compound_statement>" [t]]) (.stats b)
  | first {t : Tree} {b : List Stat} (ht : Represents t (.stats b)) :
      Represents (node "<statements>" [t]) (.stats b)
  | more {t u : Tree} {b c : List Stat} (ht : Represents t (.stats b)) (hu : Represents u (.stats c)) :
      Represents (node "<statements>" [t, u]) (.stats (b ++ c))
  | program {t : Tree} {b : List Stat} (ht : Represents t (.stats b)) :
      Represents (node "<program>" [t]) (.stats b)
  | newline {n : Tree} (hn : IsWord "newline" n) : Represents (node "<newlines>" [n]) .layout
  | newlines {t n : Tree} (ht : Represents t .layout) (hn : IsWord "newline" n) :
      Represents (node "<newlines>" [t, n]) .layout
  | inline {t n : Tree} {b : List Stat} (ht : Represents t (.simple b)) (hn : IsWord "newline" n) :
      Represents (node "<block>" [t, n]) (.block b)
  | indented {n i t d : Tree} {b : List Stat} (hn : Represents n .layout) (hi : IsWord "indent" i)
      (ht : Represents t (.stats b)) (hd : IsWord "dedent" d) :
      Represents (node "<block>" [n, i, t, d]) (.block b)
  -- Compound statements.
  | ifOnly {k t c u : Tree} {cond : Expr} {yes : List Stat} (hk : IsWord "if" k)
      (ht : Represents t (.expr 0 cond)) (hc : IsWord ":" c) (hu : Represents u (.block yes)) :
      Represents (node "<if>" [k, t, c, u]) (.stats [.branch (.only cond yes)])
  | ifElse {k t c u v : Tree} {cond : Expr} {yes no : List Stat} (hk : IsWord "if" k)
      (ht : Represents t (.expr 0 cond)) (hc : IsWord ":" c) (hu : Represents u (.block yes))
      (hv : Represents v (.otherwise no)) :
      Represents (node "<if>" [k, t, c, u, v]) (.stats [.branch (.either cond yes no)])
  | ifElif {k t c u v : Tree} {cond : Expr} {yes : List Stat} {next : Branch} (hk : IsWord "if" k)
      (ht : Represents t (.expr 0 cond)) (hc : IsWord ":" c) (hu : Represents u (.block yes))
      (hv : Represents v (.elseIf next)) :
      Represents (node "<if>" [k, t, c, u, v]) (.stats [.branch (.chain cond yes next)])
  | elif {k t c u : Tree} {cond : Expr} {yes : List Stat} (hk : IsWord "elif" k)
      (ht : Represents t (.expr 0 cond)) (hc : IsWord ":" c) (hu : Represents u (.block yes)) :
      Represents (node "<else>" [k, t, c, u]) (.elseIf (.only cond yes))
  | elifElse {k t c u v : Tree} {cond : Expr} {yes no : List Stat} (hk : IsWord "elif" k)
      (ht : Represents t (.expr 0 cond)) (hc : IsWord ":" c) (hu : Represents u (.block yes))
      (hv : Represents v (.otherwise no)) :
      Represents (node "<else>" [k, t, c, u, v]) (.elseIf (.either cond yes no))
  | elifElif {k t c u v : Tree} {cond : Expr} {yes : List Stat} {next : Branch} (hk : IsWord "elif" k)
      (ht : Represents t (.expr 0 cond)) (hc : IsWord ":" c) (hu : Represents u (.block yes))
      (hv : Represents v (.elseIf next)) :
      Represents (node "<else>" [k, t, c, u, v]) (.elseIf (.chain cond yes next))
  | otherwise {k c u : Tree} {no : List Stat} (hk : IsWord "else" k) (hc : IsWord ":" c)
      (hu : Represents u (.block no)) : Represents (node "<else>" [k, c, u]) (.otherwise no)
  | loop {k t c u : Tree} {cond : Expr} {body : List Stat} (hk : IsWord "while" k)
      (ht : Represents t (.expr 0 cond)) (hc : IsWord ":" c) (hu : Represents u (.block body)) :
      Represents (node "<while>" [k, t, c, u]) (.stats [.loop cond body])
  | upTo {k l t r : Tree} {stop : Expr} (hk : IsWord "range" k) (hl : IsWord "(" l)
      (ht : Represents t (.expr 0 stop)) (hr : IsWord ")" r) :
      Represents (node "<range>" [k, l, t, r]) (.range (.upTo stop))
  | between {k l t c u r : Tree} {start stop : Expr} (hk : IsWord "range" k) (hl : IsWord "(" l)
      (ht : Represents t (.expr 0 start)) (hc : IsWord "," c) (hu : Represents u (.expr 0 stop))
      (hr : IsWord ")" r) : Represents (node "<range>" [k, l, t, c, u, r]) (.range (.between start stop))
  | stepped {k l t c u c' v r : Tree} {start stop : Expr} {negated : Bool} {step : Literal}
      (hk : IsWord "range" k) (hl : IsWord "(" l) (ht : Represents t (.expr 0 start))
      (hc : IsWord "," c) (hu : Represents u (.expr 0 stop)) (hc' : IsWord "," c')
      (hv : Represents v (.expr 0 (if negated then .neg (.int step) else .int step)))
      (hr : IsWord ")" r) : Represents (node "<range>" [k, l, t, c, u, c', v, r])
        (.range (.stepped start stop negated step))
  | count {k t i u c v : Tree} {x : Name} {range : Range} {body : List Stat} (hk : IsWord "for" k)
      (ht : IsIdentifier x t) (hi : IsWord "in" i) (hu : Represents u (.range range))
      (hc : IsWord ":" c) (hv : Represents v (.block body)) :
      Represents (node "<for>" [k, t, i, u, c, v]) (.stats [.count x range body])
  | parameter {x : Name} {t : Tree} (ht : IsIdentifier x t) :
      Represents (node "<parameters>" [t]) (.params [x])
  | parameters {x : Name} {xs : List Name} {t c u : Tree} (ht : Represents t (.params xs))
      (hc : IsWord "," c) (hu : IsIdentifier x u) :
      Represents (node "<parameters>" [t, c, u]) (.params (xs ++ [x]))
  | defineNothing {k t l r c u : Tree} {f : Name} {body : List Stat} (hk : IsWord "def" k)
      (ht : IsIdentifier f t) (hl : IsWord "(" l) (hr : IsWord ")" r) (hc : IsWord ":" c)
      (hu : Represents u (.block body)) :
      Represents (node "<function>" [k, t, l, r, c, u]) (.stats [.define f [] body])
  | define {k t l p r c u : Tree} {f : Name} {params : List Name} {body : List Stat} (hk : IsWord "def" k)
      (ht : IsIdentifier f t) (hl : IsWord "(" l) (hp : Represents p (.params params))
      (hr : IsWord ")" r) (hc : IsWord ":" c) (hu : Represents u (.block body)) :
      Represents (node "<function>" [k, t, l, p, r, c, u]) (.stats [.define f params body])

/-! ### The rules of the fragment -/

mutual

/-- The names that an expression reads, those of the functions it calls included. -/
def Expr.names : Expr → List Name
  | .int _ | .str _ | .bool _ => []
  | .name x => [x]
  | .paren e | .neg e | .pos e | .not e => e.names
  | .arith _ a b | .compare _ a b | .and a b | .or a b => a.names ++ b.names
  | .call f args => f :: namesOf args

/-- The names that a list of expressions reads. -/
def namesOf : List Expr → List Name
  | [] => []
  | e :: es => e.names ++ namesOf es

end

/-- The names that the bounds of a range read. -/
def Range.names : Range → List Name
  | .upTo stop => stop.names
  | .between start stop | .stepped start stop _ _ => start.names ++ stop.names

mutual

/-- The names that a statement binds, outside of functions in it. -/
def Stat.bound : Stat → List Name
  | .assign x _ => [x]
  | .branch b => b.bound
  | .loop _ body => boundOf body
  | .count x _ body => x :: boundOf body
  | .define f _ _ => [f]
  | _ => []

/-- The names that a conditional binds. -/
def Branch.bound : Branch → List Name
  | .only _ yes => boundOf yes
  | .either _ yes no => boundOf yes ++ boundOf no
  | .chain _ yes next => boundOf yes ++ next.bound

/-- The names that a list of statements binds. -/
def boundOf : List Stat → List Name
  | [] => []
  | s :: b => s.bound ++ boundOf b

end

mutual

/-- The loop variables of a statement, outside of functions in it. -/
def Stat.loopVariables : Stat → List Name
  | .branch b => b.loopVariables
  | .loop _ body => loopVariablesOf body
  | .count x _ body => x :: loopVariablesOf body
  | _ => []

/-- The loop variables of a conditional. -/
def Branch.loopVariables : Branch → List Name
  | .only _ yes => loopVariablesOf yes
  | .either _ yes no => loopVariablesOf yes ++ loopVariablesOf no
  | .chain _ yes next => loopVariablesOf yes ++ next.loopVariables

/-- The loop variables of a list of statements. -/
def loopVariablesOf : List Stat → List Name
  | [] => []
  | s :: b => s.loopVariables ++ loopVariablesOf b

end

/-- The program level or the body of a function: the parameters of the function, the names that are its
own, and the loop variables of the program. At program level the own names are these, too. -/
structure Site where
  params? : Option (List Name)
  own : List Name
  loops : List Name

/-- The program level, with the given loop variables. -/
def Site.program (loops : List Name) : Site :=
  ⟨none, loops, loops⟩

/-- The body of a function in a program with the given loop variables. -/
def Site.function (loops params : List Name) (body : List Stat) : Site :=
  ⟨some params, params ++ boundOf body, loops⟩

/-- Whether names can be read where the given ones are bound around. What is a site's own can be read
only where a parameter or a loop around binds it, and the loop variables of the program are out of
sight of functions. -/
def Site.Reads (s : Site) (inside : List Name) (xs : List Name) : Prop :=
  ∀ x ∈ xs, x ∈ inside ∨ (x ∉ s.own ∧ x ∉ s.loops)

/-- Whether a name can be assigned to: a function assigns to its parameters only. -/
def Site.Assigns (s : Site) (x : Name) : Prop :=
  match s.params? with
  | none => x ∉ s.loops
  | some params => x ∈ params

/-- Whether nothing may follow a statement in its block. -/
def Stat.isLast : Stat → Bool
  | .return _ | .break => true
  | _ => false

mutual

/-- The rules for a statement at a site, where the given names are bound by parameters and loops
around; `looped` says whether there is a loop around, and `top` whether functions can be defined. -/
def Stat.Allowed (s : Site) (inside : List Name) (looped top : Bool) : Stat → Prop
  | .assign x e => s.Assigns x ∧ s.Reads inside e.names
  | .call f args => s.Reads inside (f :: namesOf args)
  | .print arg => ∀ e ∈ arg, s.Reads inside e.names
  | .return value => ∀ e ∈ value, s.Reads inside e.names
  | .break => looped = true
  | .branch b => b.Allowed s inside looped
  | .loop cond body => s.Reads inside cond.names ∧ AllowedIn s inside true false body
  | .count x range body =>
    x ∉ inside ∧ s.Reads inside range.names ∧ AllowedIn s (x :: inside) true false body
  | .define f params body =>
    top = true ∧ f ∉ s.loops ∧ params.Nodup ∧
      AllowedIn (.function s.loops params body) params false false body

/-- The rules for a conditional. -/
def Branch.Allowed (s : Site) (inside : List Name) (looped : Bool) : Branch → Prop
  | .only cond yes => s.Reads inside cond.names ∧ AllowedIn s inside looped false yes
  | .either cond yes no => s.Reads inside cond.names ∧ AllowedIn s inside looped false yes ∧
      AllowedIn s inside looped false no
  | .chain cond yes next => s.Reads inside cond.names ∧ AllowedIn s inside looped false yes ∧
      next.Allowed s inside looped

/-- The rules for a list of statements. -/
def AllowedIn (s : Site) (inside : List Name) (looped top : Bool) : List Stat → Prop
  | [] => True
  | t :: b => t.Allowed s inside looped top ∧ (t.isLast = true → b = []) ∧
      AllowedIn s inside looped top b

end

/-- The rules for a program. -/
def AllowedProgram (p : List Stat) : Prop :=
  AllowedIn (.program (loopVariablesOf p)) [] false true p

end Core

end Lunify
