import Lunify.Proofs.Core.Syntax

/-!
# Evaluation of core programs

`Core.exec` runs statements and `Core.eval` evaluates expressions with exact integers. They give nothing
where a run has an error, and also where it does what core programs do not: conditions and the operands
of `and`, `or` and `not` are truth values, arithmetic is on integers and stays below `Core.limit`, an
integer is not compared with a truth value, and only integers, strings and truth values are printed. Every
call takes one unit of fuel, so that `Core.Prints p out` asks for some amount of it: the program `p`
comes to its end and has printed `out`.
-/

namespace Lunify

namespace Core

/-- Values. A function is referred to by its place in the list of all functions of a run. -/
inductive Value where
  | int (n : Int)
  | str (s : Text)
  | bool (b : Bool)
  | none
  | function (ref : Nat)
deriving DecidableEq, Repr

/-- Whether an integer is small enough in either direction. -/
def Fits (n : Int) : Prop :=
  -limit < n ∧ n < limit

instance (n : Int) : Decidable (Fits n) :=
  inferInstanceAs (Decidable (_ ∧ _))

namespace Value

/-- An integer, if it is small enough. -/
def ofInt? (n : Int) : Option Value :=
  if Fits n then some (.int n) else Option.none

/-- The truth value that a condition has. -/
def truth? : Value → Option Bool
  | .bool b => some b
  | _ => Option.none

/-- The integer that a value is. -/
def int? : Value → Option Int
  | .int n => some n
  | _ => Option.none

/-- Whether two values are equal, unless they are an integer and a truth value. -/
def same? : Value → Value → Option Bool
  | .int _, .bool _ | .bool _, .int _ => Option.none
  | v, w => some (v = w)

/-- Whether a value comes before another one. -/
def before? : Value → Value → Option Bool
  | .int m, .int n => some (m < n)
  | .str s, .str t => some (!Text.le t s)
  | _, _ => Option.none

/-- The text of a value that can be printed. Truth values are written in small letters. -/
def shown? : Value → Option Text
  | .int n => some (Text.ofInt n)
  | .str s => some s
  | .bool b => some (utf8 (if b then "true" else "false"))
  | _ => Option.none

end Value

/-- The result of an operator on two integers. The remainder has the sign of the divisor. -/
def Arith.result? : Arith → Int → Int → Option Value
  | .add, m, n => Value.ofInt? (m + n)
  | .sub, m, n => Value.ofInt? (m - n)
  | .mul, m, n => Value.ofInt? (m * n)
  | .mod, m, n => if n = 0 then Option.none else Value.ofInt? (m.fmod n)

/-- Whether a comparison holds. -/
def Comparison.holds? : Comparison → Value → Value → Option Bool
  | .eq, v, w => v.same? w
  | .ne, v, w => (v.same? w).map (!·)
  | .lt, v, w => v.before? w
  | .gt, v, w => w.before? v
  | .le, v, w => (w.before? v).map (!·)
  | .ge, v, w => (v.before? w).map (!·)

/-- A function. -/
structure Function where
  params : List Name
  body : List Stat

/-- The names of a function's own that a call of it works with, and their values. -/
structure Frame where
  own : List Name
  value : Name → Option Value

/-- The state of a run: the variables of the program, the functions defined so far, the lines printed
so far, and the variables of the innermost call, if there is one. -/
structure State where
  globals : Name → Option Value
  functions : List Function
  printed : List Text
  frame? : Option Frame

namespace State

/-- Before a run. -/
def start : State :=
  ⟨fun _ => Option.none, [], [], Option.none⟩

/-- The value of a name. -/
def lookup (s : State) (x : Name) : Option Value :=
  match s.frame? with
  | Option.none => s.globals x
  | some f => if x ∈ f.own then f.value x else s.globals x

/-- Gives a name a value. What is bound in a function is its own. -/
def bind (s : State) (x : Name) (v : Value) : State :=
  match s.frame? with
  | Option.none => { s with globals := fun y => if y = x then some v else s.globals y }
  | some f =>
    { s with frame? := some { f with value := fun y => if y = x then some v else f.value y } }

/-- Adds a function. -/
def define (s : State) (f : Function) : State :=
  { s with functions := s.functions ++ [f] }

/-- Prints a line. -/
def print (s : State) (line : Text) : State :=
  { s with printed := s.printed ++ [line] }

end State

/-- The variables of a call. -/
def Function.frame (f : Function) (vs : List Value) : Frame :=
  ⟨f.params ++ boundOf f.body, fun x => (f.params.zip vs).lookup x⟩

/-- How a statement ends. -/
inductive Outcome where
  | normal
  | broke
  | returned (v : Value)
deriving DecidableEq, Repr

/-- Whether a loop over a range goes on. -/
def goesOn (i stop step : Int) : Prop :=
  (0 < step ∧ i < stop) ∨ (step < 0 ∧ stop < i)

instance (i stop step : Int) : Decidable (goesOn i stop step) :=
  inferInstanceAs (Decidable (_ ∨ _))

mutual

/-- The value of an expression. -/
def eval : Nat → Expr → State → Option (Value × State)
  | 0, _, _ => Option.none
  | n + 1, e, s =>
    match e with
    | .int d => some (.int d.value, s)
    | .str t => some (.str t, s)
    | .bool b => some (.bool b, s)
    | .name x => (s.lookup x).map (·, s)
    | .paren e => eval n e s
    | .neg e => do
      let (v, s) ← eval n e s
      return (.int (-(← v.int?)), s)
    | .pos e => do
      let (v, s) ← eval n e s
      return (.int (← v.int?), s)
    | .arith op a b => do
      let (v, s) ← eval n a s
      let (w, s) ← eval n b s
      return (← op.result? (← v.int?) (← w.int?), s)
    | .compare op a b => do
      let (v, s) ← eval n a s
      let (w, s) ← eval n b s
      return (.bool (← op.holds? v w), s)
    | .not e => do
      let (v, s) ← eval n e s
      return (.bool !(← v.truth?), s)
    | .and a b => do
      let (v, s) ← eval n a s
      if ← v.truth? then
        let (w, s) ← eval n b s
        return (.bool (← w.truth?), s)
      else return (.bool false, s)
    | .or a b => do
      let (v, s) ← eval n a s
      if ← v.truth? then return (.bool true, s)
      else
        let (w, s) ← eval n b s
        return (.bool (← w.truth?), s)
    | .call f args => call n f args s

/-- The value of a call of a name. -/
def call : Nat → Name → List Expr → State → Option (Value × State)
  | 0, _, _, _ => Option.none
  | n + 1, f, args, s => do
    let v ← s.lookup f
    let (vs, s) ← evalAll n args s
    apply n v vs s

/-- The values of a list of expressions, from left to right. -/
def evalAll : Nat → List Expr → State → Option (List Value × State)
  | 0, _, _ => Option.none
  | _ + 1, [], s => some ([], s)
  | n + 1, e :: es, s => do
    let (v, s) ← eval n e s
    let (vs, s) ← evalAll n es s
    return (v :: vs, s)

/-- What a function gives for arguments. A function that comes to its end gives `None`. -/
def apply : Nat → Value → List Value → State → Option (Value × State)
  | 0, _, _, _ => Option.none
  | n + 1, v, vs, s => do
    let .function ref := v | Option.none
    let f ← s.functions[ref]?
    if f.params.length = vs.length then
      let (o, s') ← execAll n f.body { s with frame? := some (f.frame vs) }
      let s' := { s' with frame? := s.frame? }
      match o with
      | .normal => return (.none, s')
      | .broke => Option.none
      | .returned v => return (v, s')
    else Option.none

/-- Runs a statement. -/
def exec : Nat → Stat → State → Option (Outcome × State)
  | 0, _, _ => Option.none
  | n + 1, t, s =>
    match t with
    | .assign x e => do
      let (v, s) ← eval n e s
      return (.normal, s.bind x v)
    | .call f args => do
      let (_, s) ← call n f args s
      return (.normal, s)
    | .print arg =>
      match arg with
      | Option.none => some (.normal, s.print [])
      | some e => do
        let (v, s) ← eval n e s
        return (.normal, s.print (← v.shown?))
    | .return value =>
      match value with
      | Option.none => some (.returned .none, s)
      | some e => do
        let (v, s) ← eval n e s
        return (.returned v, s)
    | .break => some (.broke, s)
    | .branch b => execBranch n b s
    | .loop cond body => execLoop n cond body s
    | .count x range body => do
      let (start, stop, step, s) ← bounds n range s
      execCount n x start stop step body s
    | .define f params body =>
      some (.normal, (s.define ⟨params, body⟩).bind f (.function s.functions.length))

/-- Runs a conditional. -/
def execBranch : Nat → Branch → State → Option (Outcome × State)
  | 0, _, _ => Option.none
  | n + 1, .only cond yes, s => do
    let (v, s) ← eval n cond s
    if ← v.truth? then execAll n yes s else return (.normal, s)
  | n + 1, .either cond yes no, s => do
    let (v, s) ← eval n cond s
    if ← v.truth? then execAll n yes s else execAll n no s
  | n + 1, .chain cond yes next, s => do
    let (v, s) ← eval n cond s
    if ← v.truth? then execAll n yes s else execBranch n next s

/-- The start, the end and the step of a range. The step is not zero. -/
def bounds : Nat → Range → State → Option (Int × Int × Int × State)
  | 0, _, _ => Option.none
  | n + 1, .upTo stop, s => do
    let (v, s) ← eval n stop s
    return (0, ← v.int?, 1, s)
  | n + 1, .between start stop, s => do
    let (v, s) ← eval n start s
    let (w, s) ← eval n stop s
    return (← v.int?, ← w.int?, 1, s)
  | n + 1, .stepped start stop negated step, s => do
    let (v, s) ← eval n start s
    let (w, s) ← eval n stop s
    if step.value = 0 then Option.none
    else return (← v.int?, ← w.int?, if negated then -step.value else step.value, s)

/-- Runs a loop over a condition. -/
def execLoop : Nat → Expr → List Stat → State → Option (Outcome × State)
  | 0, _, _, _ => Option.none
  | n + 1, cond, body, s => do
    let (v, s) ← eval n cond s
    if ← v.truth? then
      let (o, s) ← execAll n body s
      match o with
      | .normal => execLoop n cond body s
      | .broke => return (.normal, s)
      | .returned v => return (.returned v, s)
    else return (.normal, s)

/-- Runs a loop over the rest of a range. -/
def execCount : Nat → Name → Int → Int → Int → List Stat → State → Option (Outcome × State)
  | 0, _, _, _, _, _, _ => Option.none
  | n + 1, x, i, stop, step, body, s =>
    if goesOn i stop step then do
      let (o, s) ← execAll n body (s.bind x (.int i))
      match o with
      | .normal => execCount n x (i + step) stop step body s
      | .broke => return (.normal, s)
      | .returned v => return (.returned v, s)
    else some (.normal, s)

/-- Runs statements up to one that breaks off. -/
def execAll : Nat → List Stat → State → Option (Outcome × State)
  | 0, _, _ => Option.none
  | _ + 1, [], s => some (.normal, s)
  | n + 1, t :: b, s => do
    let (o, s) ← exec n t s
    match o with
    | .normal => execAll n b s
    | _ => return (o, s)

end

/-- A program comes to its end and prints the given lines. -/
def Prints (p : List Stat) (out : List Text) : Prop :=
  ∃ n s, execAll n p .start = some (.normal, s) ∧ s.printed = out

end Core

end Lunify
