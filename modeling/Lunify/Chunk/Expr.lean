import Lunify.Text.Basic

namespace Lunify

namespace Chunk

/-! ### Lua chunks

The expressions and statements of Lua. Every node that can fail while it runs carries the line that
the error names. Parentheses leave no node: they set the line of what they enclose, and a call or
an ellipsis in them yields one value. -/

/-- A literal value. A number is kept as it is written. -/
inductive Constant where
  | nil
  | bool (b : Bool)
  | number (s : Text)
  | string (s : Text)
deriving DecidableEq, Repr

/-- The operators that take two numbers. -/
inductive Arithmetic where
  | add
  | sub
  | mul
  | div
  | mod
  | pow
deriving DecidableEq, Repr

/-- The operators with two operands. -/
inductive BinaryOp where
  | or
  | and
  | eq
  | ne
  | lt
  | le
  | gt
  | ge
  | concat
  | arith (op : Arithmetic)
deriving DecidableEq, Repr

/-- The operators with one operand. -/
inductive UnaryOp where
  | neg
  | not
  | length
deriving DecidableEq, Repr

mutual

/-- Expressions. -/
inductive Expr where
  | constant (line : Int) (c : Constant)
  | varargs (line : Int) (single : Bool)
  | name (line : Int) (x : Text)
  | index (line : Int) (object key : Expr)
  | call (line : Int) (single : Bool) (f : Expr) (args : List Expr)
  | method (line : Int) (single : Bool) (object : Expr) (x : Text) (args : List Expr)
  | table (line : Int) (fields : List Field)
  | function (line : Int) (params : List Text) (isOpen : Bool) (body : List Stat) (last : Int)
  | binary (line : Int) (op : BinaryOp) (l r : Expr)
  | unary (line : Int) (op : UnaryOp) (e : Expr)

/-- The fields of a table constructor: items are numbered from one. -/
inductive Field where
  | item (value : Expr)
  | pair (key value : Expr)

/-- Statements. -/
inductive Stat where
  | assign (line : Int) (targets values : List Expr)
  | call (line : Int) (e : Expr)
  | block (line : Int) (body : List Stat)
  | loop (line : Int) (cond : Expr) (body : List Stat)
  | repeated (line : Int) (body : List Stat) (cond : Expr)
  | branch (line : Int) (cond : Expr) (yes no : List Stat)
  | count (line : Int) (x : Text) (start limit : Expr) (step : Option Expr) (body : List Stat)
  | each (line : Int) (names : List Text) (iterator : List Expr) (body : List Stat)
  | declare (line : Int) (names : List Text) (values : List Expr)
  | declareFunction (line : Int) (x : Text) (f : Expr)
  | define (target f : Expr)
  | defineMethod (object : Expr) (x : Text) (f : Expr)
  | return (line : Int) (values : List Expr)
  | break (line : Int)
  | label (line : Int) (x : Text)
  | goto (line : Int) (x : Text)

end

/-- The line of an expression. -/
def Expr.line : Expr → Int
  | .constant l _ | .varargs l _ | .name l _ | .index l _ _ | .call l _ _ _ | .method l _ _ _ _
  | .table l _ | .function l _ _ _ _ | .binary l _ _ _ | .unary l _ _ => l

def Expr.isCall : Expr → Bool
  | .call .. | .method .. => true
  | _ => false

/-- An expression in parentheses that open on the given line. The first parentheses around a call
leave its line as it is. -/
def Expr.parenthesized (line : Int) : Expr → Expr
  | .constant _ c => .constant line c
  | .varargs _ _ => .varargs line true
  | .name _ x => .name line x
  | .index _ o k => .index line o k
  | .call l single f args => .call (if single then line else l) true f args
  | .method l single o x args => .method (if single then line else l) true o x args
  | .table _ fields => .table line fields
  | .function _ params isOpen body last => .function line params isOpen body last
  | .binary _ op l r => .binary line op l r
  | .unary _ op e => .unary line op e

/-- Whether an expression may give any number of values: a call or an ellipsis without parentheses
around it. -/
def Expr.isMultiple : Expr → Bool
  | .varargs _ single | .call _ single _ _ | .method _ single _ _ _ => !single
  | _ => false

def Expr.isChoice : Expr → Bool
  | .binary _ .and _ _ | .binary _ .or _ _ => true
  | _ => false

def Expr.isFunction : Expr → Bool
  | .function .. => true
  | _ => false

def Stat.isLabel : Stat → Bool
  | .label .. => true
  | _ => false

def Expr.shortName : Expr → Text
  | .name _ x => x
  | .index _ _ (.constant _ (.string x)) => x
  | _ => utf8 "?"

def Expr.calledName : Expr → Text
  | .call _ _ f _ => f.shortName
  | .method _ _ _ x _ => x
  | _ => utf8 "?"

end Chunk

end Lunify
