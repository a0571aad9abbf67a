import Lunify.Chunk.Machine.Execute

/-!
# The rules of Lua

`Lua.Evaluates`, `Lua.Executes` and the relations between them say what expressions give and what
statements do by the rules of Lua, over any kind of numbers and without registers, budgets or limits on
the depth of calls. They cover the part of Lua without tables, declarations and nested functions: a
function is made only where there are no local variables, so that it has none to take along. What has
an error has no derivation, and neither has what does not come to its end. `Lua.Prints` says what a
chunk prints.
-/

namespace Lunify

namespace Lua

open Chunk (Value Numerals Constant BinaryOp UnaryOp Expr Stat)

variable {ν : Type}

/-- A function. -/
structure Function where
  params : List Text
  body : List Stat

/-- The state of a run: the global variables, the functions made so far, the lines printed so far, and
the local variables of the innermost call, the last declared first. -/
structure State (ν : Type) where
  globals : Text → Value ν
  functions : List Function
  printed : List Text
  locals : List (Text × Value ν)

/-- Gives the last declared variable with a name a value. -/
def setLocal (x : Text) (v : Value ν) : List (Text × Value ν) → List (Text × Value ν)
  | [] => []
  | (y, w) :: r => if y = x then (y, v) :: r else (y, w) :: setLocal x v r

/-- The local variables that parameters are: arguments beyond them are left out, and those without an
argument have no value. -/
def paramLocals : List Text → List (Value ν) → List (Text × Value ν)
  | [], _ => []
  | x :: xs, [] => (x, .nil) :: paramLocals xs []
  | x :: xs, v :: vs => (x, v) :: paramLocals xs vs

namespace State

/-- Before a run. -/
def start : State ν :=
  ⟨Chunk.initialGlobal, [], [], []⟩

/-- The value of a name. -/
def lookup (σ : State ν) (x : Text) : Value ν :=
  (σ.locals.lookup x).getD (σ.globals x)

/-- Gives a name a value. A name that is not local is global. -/
def assign (σ : State ν) (x : Text) (v : Value ν) : State ν :=
  if (σ.locals.lookup x).isSome then { σ with locals := setLocal x v σ.locals }
  else { σ with globals := fun y => if y = x then v else σ.globals y }

/-- Declares a local variable. -/
def push (σ : State ν) (x : Text) (v : Value ν) : State ν :=
  { σ with locals := (x, v) :: σ.locals }

/-- Ends the scope of the last declared variable. -/
def pop (σ : State ν) : State ν :=
  { σ with locals := σ.locals.tail }

/-- Changes to other local variables. -/
def withLocals (σ : State ν) (locals : List (Text × Value ν)) : State ν :=
  { σ with locals := locals }

/-- Adds a function. -/
def define (σ : State ν) (f : Function) : State ν :=
  { σ with functions := σ.functions ++ [f] }

/-- Prints values on a line, with tabs between them. -/
def print (N : Numerals ν) (σ : State ν) (vs : List (Value ν)) : State ν :=
  { σ with printed := σ.printed ++ [Text.join (utf8 "\t") (vs.map (Value.text N))] }

end State

/-- The one value that stands for a list of values. -/
def first (vs : List (Value ν)) : Value ν :=
  vs.headD .nil

/-- The value of a literal. -/
def constant (N : Numerals ν) : Constant → Value ν
  | .nil => .nil
  | .bool b => .bool b
  | .number s => .number (N.literal s)
  | .string s => .string s

/-- Whether a value is less than another one. Only two numbers or two strings have an order. -/
def less? (N : Numerals ν) : Value ν → Value ν → Option Bool
  | .number x, .number y => some (N.lt x y)
  | .string s, .string t => some !(Text.le t s)
  | _, _ => none

/-- Whether a value is at most another one. -/
def atMost? (N : Numerals ν) : Value ν → Value ν → Option Bool
  | .number x, .number y => some (N.le x y)
  | .string s, .string t => some (Text.le s t)
  | _, _ => none

/-- The value of an operator with two operands that are both evaluated. -/
def binary? (N : Numerals ν) : BinaryOp → Value ν → Value ν → Option (Value ν)
  | .arith op, l, r =>
    match l.asNumber N, r.asNumber N with
    | .number x, .number y => some (.number (N.arith op x y))
    | _, _ => none
  | .concat, l, r =>
    match Chunk.Run.joinable? N l, Chunk.Run.joinable? N r with
    | some s, some t => some (.string (s ++ t))
    | _, _ => none
  | .eq, l, r => some (.bool (l.eq N r))
  | .ne, l, r => some (.bool !(l.eq N r))
  | .lt, l, r => (less? N l r).map .bool
  | .gt, l, r => (less? N r l).map .bool
  | .le, l, r => (atMost? N l r).map .bool
  | .ge, l, r => (atMost? N r l).map .bool
  | .and, _, _ | .or, _, _ => none

/-- The value of an operator with one operand. -/
def unary? (N : Numerals ν) : UnaryOp → Value ν → Option (Value ν)
  | .not, v => some (.bool !v.isTrue)
  | .neg, v =>
    match v.asNumber N with
    | .number x => some (.number (N.neg x))
    | _ => none
  | .length, .string s => some (.number (N.ofInt s.length))
  | .length, _ => none

/-- Whether a loop over numbers goes on. -/
def goesOn (N : Numerals ν) (x limit step : ν) : Bool :=
  if N.lt (N.ofInt 0) step then N.le x limit else N.le limit x

/-- How a statement ends. -/
inductive Outcome (ν : Type) where
  | normal
  | broke
  | returned (vs : List (Value ν))

/-- What the loop around a body that has ended so does, if the body does not go on with it. -/
def Outcome.afterLoop : Outcome ν → Option (Outcome ν)
  | .normal => none
  | .broke => some .normal
  | .returned vs => some (.returned vs)

mutual

/-- The values of an expression. A call gives any number of values, unless it is in parentheses. -/
inductive Evaluates (N : Numerals ν) : Expr → State ν → List (Value ν) → State ν → Prop
  | constant {l : Int} {c : Constant} {σ : State ν} : Evaluates N (.constant l c) σ [constant N c] σ
  | name {l : Int} {x : Text} {σ : State ν} : Evaluates N (.name l x) σ [σ.lookup x] σ
  | call {l : Int} {single : Bool} {f : Expr} {args : List Expr} {σ₀ σ₁ σ₂ σ₃ : State ν}
      {fs vs rs : List (Value ν)} (hf : Evaluates N f σ₀ fs σ₁) (hargs : EvaluatesAll N args σ₁ vs σ₂)
      (hcall : Calls N (first fs) vs σ₂ rs σ₃) :
      Evaluates N (.call l single f args) σ₀ (if single then [first rs] else rs) σ₃
  | binary {l : Int} {op : BinaryOp} {a b : Expr} {σ₀ σ₁ σ₂ : State ν} {vs ws : List (Value ν)}
      {v : Value ν} (ha : Evaluates N a σ₀ vs σ₁) (hb : Evaluates N b σ₁ ws σ₂)
      (hop : binary? N op (first vs) (first ws) = some v) : Evaluates N (.binary l op a b) σ₀ [v] σ₂
  | unary {l : Int} {op : UnaryOp} {e : Expr} {σ₀ σ₁ : State ν} {vs : List (Value ν)} {v : Value ν}
      (he : Evaluates N e σ₀ vs σ₁) (hop : unary? N op (first vs) = some v) :
      Evaluates N (.unary l op e) σ₀ [v] σ₁
  | choiceShort {l : Int} {op : BinaryOp} {a b : Expr} {σ₀ σ₁ : State ν} {vs : List (Value ν)}
      (ha : Evaluates N a σ₀ vs σ₁)
      (hop : (op = .and ∧ (first vs).isTrue = false) ∨ (op = .or ∧ (first vs).isTrue = true)) :
      Evaluates N (.binary l op a b) σ₀ [first vs] σ₁
  | choiceLong {l : Int} {op : BinaryOp} {a b : Expr} {σ₀ σ₁ σ₂ : State ν} {vs ws : List (Value ν)}
      (ha : Evaluates N a σ₀ vs σ₁)
      (hop : (op = .and ∧ (first vs).isTrue = true) ∨ (op = .or ∧ (first vs).isTrue = false))
      (hb : Evaluates N b σ₁ ws σ₂) : Evaluates N (.binary l op a b) σ₀ [first ws] σ₂

/-- The values of a list of expressions, of which the last one gives all its values. -/
inductive EvaluatesAll (N : Numerals ν) : List Expr → State ν → List (Value ν) → State ν → Prop
  | nil {σ : State ν} : EvaluatesAll N [] σ [] σ
  | last {e : Expr} {σ₀ σ₁ : State ν} {vs : List (Value ν)} (he : Evaluates N e σ₀ vs σ₁) :
      EvaluatesAll N [e] σ₀ vs σ₁
  | cons {e e' : Expr} {es : List Expr} {σ₀ σ₁ σ₂ : State ν} {vs ws : List (Value ν)}
      (he : Evaluates N e σ₀ vs σ₁) (hes : EvaluatesAll N (e' :: es) σ₁ ws σ₂) :
      EvaluatesAll N (e :: e' :: es) σ₀ (first vs :: ws) σ₂

/-- What a value gives when it is called. -/
inductive Calls (N : Numerals ν) : Value ν → List (Value ν) → State ν → List (Value ν) → State ν → Prop
  | print {vs : List (Value ν)} {σ : State ν} : Calls N (.native .print) vs σ [] (σ.print N vs)
  | returned {ref : Nat} {f : Function} {vs rs : List (Value ν)} {σ₀ σ₁ : State ν}
      (hf : σ₀.functions[ref]? = some f)
      (hbody : ExecutesAll N f.body (σ₀.withLocals (paramLocals f.params vs)) (.returned rs) σ₁) :
      Calls N (.function ref) vs σ₀ rs (σ₁.withLocals σ₀.locals)
  | ended {ref : Nat} {f : Function} {vs : List (Value ν)} {σ₀ σ₁ : State ν}
      (hf : σ₀.functions[ref]? = some f)
      (hbody : ExecutesAll N f.body (σ₀.withLocals (paramLocals f.params vs)) .normal σ₁) :
      Calls N (.function ref) vs σ₀ [] (σ₁.withLocals σ₀.locals)

/-- What a statement does. -/
inductive Executes (N : Numerals ν) : Stat → State ν → Outcome ν → State ν → Prop
  | assign {l l' : Int} {x : Text} {e : Expr} {σ₀ σ₁ : State ν} {vs : List (Value ν)}
      (he : Evaluates N e σ₀ vs σ₁) :
      Executes N (.assign l [.name l' x] [e]) σ₀ .normal (σ₁.assign x (first vs))
  | call {l : Int} {e : Expr} {σ₀ σ₁ : State ν} {vs : List (Value ν)} (he : Evaluates N e σ₀ vs σ₁) :
      Executes N (.call l e) σ₀ .normal σ₁
  | branch {l : Int} {cond : Expr} {yes no : List Stat} {σ₀ σ₁ σ₂ : State ν} {vs : List (Value ν)}
      {o : Outcome ν} (hcond : Evaluates N cond σ₀ vs σ₁)
      (hbody : ExecutesAll N (if (first vs).isTrue then yes else no) σ₁ o σ₂) :
      Executes N (.branch l cond yes no) σ₀ o σ₂
  | loopEnd {l : Int} {cond : Expr} {body : List Stat} {σ₀ σ₁ : State ν} {vs : List (Value ν)}
      (hcond : Evaluates N cond σ₀ vs σ₁) (hvs : (first vs).isTrue = false) :
      Executes N (.loop l cond body) σ₀ .normal σ₁
  | loopLeave {l : Int} {cond : Expr} {body : List Stat} {σ₀ σ₁ σ₂ : State ν} {vs : List (Value ν)}
      {o o' : Outcome ν} (hcond : Evaluates N cond σ₀ vs σ₁) (hvs : (first vs).isTrue = true)
      (hbody : ExecutesAll N body σ₁ o σ₂) (ho : o.afterLoop = some o') :
      Executes N (.loop l cond body) σ₀ o' σ₂
  | loopAgain {l : Int} {cond : Expr} {body : List Stat} {σ₀ σ₁ σ₂ σ₃ : State ν}
      {vs : List (Value ν)} {o : Outcome ν} (hcond : Evaluates N cond σ₀ vs σ₁)
      (hvs : (first vs).isTrue = true) (hbody : ExecutesAll N body σ₁ .normal σ₂)
      (hloop : Executes N (.loop l cond body) σ₂ o σ₃) : Executes N (.loop l cond body) σ₀ o σ₃
  | count {l : Int} {x : Text} {start limit : Expr} {body : List Stat} {σ₀ σ₁ σ₂ σ₃ : State ν}
      {vs ws : List (Value ν)} {a b : ν} {o : Outcome ν} (hstart : Evaluates N start σ₀ vs σ₁)
      (hlimit : Evaluates N limit σ₁ ws σ₂) (ha : first vs = .number a) (hb : first ws = .number b)
      (hloop : Counts N x b (N.ofInt 1) body a σ₂ o σ₃) :
      Executes N (.count l x start limit none body) σ₀ o σ₃
  | countBy {l : Int} {x : Text} {start limit step : Expr} {body : List Stat}
      {σ₀ σ₁ σ₂ σ₃ σ₄ : State ν} {vs ws us : List (Value ν)} {a b c : ν} {o : Outcome ν}
      (hstart : Evaluates N start σ₀ vs σ₁) (hlimit : Evaluates N limit σ₁ ws σ₂)
      (hstep : Evaluates N step σ₂ us σ₃) (ha : first vs = .number a) (hb : first ws = .number b)
      (hc : first us = .number c) (hloop : Counts N x b c body a σ₃ o σ₄) :
      Executes N (.count l x start limit (some step) body) σ₀ o σ₄
  | define {l l' last : Int} {f : Text} {params : List Text} {body : List Stat} {σ : State ν}
      (hlocals : σ.locals = []) :
      Executes N (.define (.name l f) (.function l' params false body last)) σ .normal
        ((σ.define ⟨params, body⟩).assign f (.function σ.functions.length))
  | return {l : Int} {es : List Expr} {σ₀ σ₁ : State ν} {vs : List (Value ν)}
      (hes : EvaluatesAll N es σ₀ vs σ₁) : Executes N (.return l es) σ₀ (.returned vs) σ₁
  | break {l : Int} {σ : State ν} : Executes N (.break l) σ .broke σ

/-- What a loop over numbers does from a number on. The variable is local to the body. -/
inductive Counts (N : Numerals ν) :
    Text → ν → ν → List Stat → ν → State ν → Outcome ν → State ν → Prop
  | finish {x : Text} {limit step a : ν} {body : List Stat} {σ : State ν}
      (ha : goesOn N a limit step = false) : Counts N x limit step body a σ .normal σ
  | leave {x : Text} {limit step a : ν} {body : List Stat} {σ₀ σ₁ : State ν} {o o' : Outcome ν}
      (ha : goesOn N a limit step = true) (hbody : ExecutesAll N body (σ₀.push x (.number a)) o σ₁)
      (ho : o.afterLoop = some o') : Counts N x limit step body a σ₀ o' σ₁.pop
  | again {x : Text} {limit step a : ν} {body : List Stat} {σ₀ σ₁ σ₂ : State ν} {o : Outcome ν}
      (ha : goesOn N a limit step = true)
      (hbody : ExecutesAll N body (σ₀.push x (.number a)) .normal σ₁)
      (hloop : Counts N x limit step body (N.arith .add a step) σ₁.pop o σ₂) :
      Counts N x limit step body a σ₀ o σ₂

/-- What a list of statements does, up to the first one that breaks off. -/
inductive ExecutesAll (N : Numerals ν) : List Stat → State ν → Outcome ν → State ν → Prop
  | nil {σ : State ν} : ExecutesAll N [] σ .normal σ
  | leave {s : Stat} {b : List Stat} {σ₀ σ₁ : State ν} {o : Outcome ν} (hs : Executes N s σ₀ o σ₁)
      (ho : o ≠ .normal) : ExecutesAll N (s :: b) σ₀ o σ₁
  | cons {s : Stat} {b : List Stat} {σ₀ σ₁ σ₂ : State ν} {o : Outcome ν}
      (hs : Executes N s σ₀ .normal σ₁) (hb : ExecutesAll N b σ₁ o σ₂) :
      ExecutesAll N (s :: b) σ₀ o σ₂

end

/-- A chunk comes to its end without an error and prints the given lines. -/
def Prints (N : Numerals ν) (chunk : List Stat) (out : List Text) : Prop :=
  ∃ σ, ExecutesAll N chunk .start .normal σ ∧ σ.printed = out

end Lua

end Lunify
