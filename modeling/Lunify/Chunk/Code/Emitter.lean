import Lunify.Chunk.Code.Assemble

namespace Lunify

namespace Chunk

/-! ### Code of expressions

The code of an expression depends on where it stands: its value can be wanted in a register, it can
be a part of a conjunction or disjunction, and it can decide which way to go. An emitter makes the
code for all three. It is given the first free register. -/

/-- What is wanted of an expression: the register for its value, if it is not the first free one,
and the number of its values. -/
structure Goal where
  register? : Option Nat
  count : Option Nat

namespace Goal

def one : Goal :=
  ⟨none, some 1⟩

def all : Goal :=
  ⟨none, none⟩

def nothing : Goal :=
  ⟨none, some 0⟩

/-- The value of the last of some expressions that nothing is done with, or of another one. -/
def unused (isLast : Bool) : Goal :=
  if isLast then nothing else one

def into (r : Nat) : Goal :=
  ⟨some r, some 1⟩

def target (g : Goal) (reg : Nat) : Nat :=
  g.register?.getD reg

/-- The first free register after the value has been put into its register. -/
def after (g : Goal) (reg : Nat) : Nat :=
  if g.target reg < reg then reg else reg + 1

end Goal

/-- The labels of a conjunction or disjunction: where its value is made true or false, and its
end. -/
structure ChoiceLabels where
  yes : Nat
  no : Nat
  done : Nat

/-- The place of a part of a conjunction or disjunction: where to go on when it is true or false,
and whether a part for the false case follows. -/
structure ChoicePlace where
  reg : Nat
  goal : Goal
  thenLabel : Nat
  elseLabel : Nat
  hasNext : Bool
  labels : ChoiceLabels

/-- Whether the value of a part other than the last one is the value of the whole when no further
part is needed. -/
def ChoicePlace.decides (p : ChoicePlace) : Bool :=
  (p.elseLabel = p.labels.done && p.thenLabel != p.elseLabel) ||
    (p.thenLabel = p.labels.done && p.hasNext)

/-- The place of a condition. -/
structure ConditionPlace where
  reg : Nat
  thenLabel : Nat
  elseLabel : Nat
  hasNext : Bool

/-- Makes the code of an expression. -/
structure Emitter (ν : Type) where
  expr : Expr
  /-- The code of the value, which gives the first free register after it. -/
  value : (reg : Nat) → Goal → Build ν Nat
  /-- The code of a part of a conjunction or disjunction, which says whether the whole one has to
  be made true or false at its end. -/
  choice : ChoicePlace → Build ν Bool
  condition : ConditionPlace → Build ν Unit

variable {ν : Type}

namespace Emitter

open Build

def line (e : Emitter ν) : Int :=
  e.expr.line

/-- Takes back the last instruction if all it does is to bring a constant or a variable to a free
register, and gives the operand. -/
def takeOperand (e : Emitter ν) (reg next : Nat) : Build ν (Operand × Nat) := do
  let top := (← draft).top
  match e.expr.isChoice, ← lastInstr with
  | false, some (.loadConstant a k) =>
    if top ≤ a && k < directConstants then
      pop
      return (.constant k, reg)
    else return (.register reg, next)
  | false, some (.move a b) =>
    if top ≤ a then
      pop
      return (.register b, reg)
    else return (.register reg, next)
  | _, _ => return (.register reg, next)

/-- The code of an operand, and the first free register after it. A constant is referred to, and a
variable is read where it lies. -/
def operand (e : Emitter ν) (reg : Nat) : Build ν (Operand × Nat) := do
  let next ← e.value reg .one
  e.takeOperand reg next

/-- The code of an operand that has to lie in a register, and the first free register after it. -/
def source (e : Emitter ν) (reg : Nat) : Build ν (Nat × Nat) := do
  let next ← e.value reg .one
  let top := (← draft).top
  match e.expr.isChoice, ← lastInstr with
  | false, some (.move a b) =>
    if top ≤ a then
      pop
      return (b, reg)
    else return (reg, next)
  | _, _ => return (reg, next)

/-- The last part of a conjunction or disjunction leaves its value in the register of the whole. Any
other part is tested, and copied there if it is the value of the whole. -/
def defaultChoice (expr : Expr) (value : Nat → Goal → Build ν Nat) (p : ChoicePlace) :
    Build ν Bool := do
  let line := expr.line
  let target := p.goal.target p.reg
  let register? ← match expr, p.decides with
    | .name _ x, true => do pure ((← draft).find? x)
    | _, _ => pure none
  match register? with
  | some r =>
    if target = r then emit line (.test r !p.hasNext) else emit line (.testSet target r !p.hasNext)
  | none =>
    if !p.hasNext && p.thenLabel = p.elseLabel then
      let _ ← value p.reg ⟨p.goal.register?.map (max p.reg), p.goal.count⟩
      match ← lastInstr with
      | some (.move a b) =>
        if a = p.reg then
          pop
          emit line (.move target b)
        else emit line (.move target p.reg)
      | _ => emit line (.move target p.reg)
    else
      let _ ← value p.reg .one
      if p.decides then emit line (.testSet target p.reg !p.hasNext)
      else emit line (.test p.reg !p.hasNext)
  emitJump line (if p.hasNext then p.thenLabel else p.elseLabel)
  return false

/-- A condition is tested. -/
def defaultCondition (line : Int) (source : Nat → Build ν (Nat × Nat)) (p : ConditionPlace) :
    Build ν Unit := do
  let (r, _) ← source p.reg
  emit line (.test r !p.hasNext)
  emitJump line (if p.hasNext then p.thenLabel else p.elseLabel)

/-- The emitter of an expression that has no code of its own for choices and conditions. -/
def plain (expr : Expr) (value : Nat → Goal → Build ν Nat) : Emitter ν :=
  let base : Emitter ν := ⟨expr, value, fun _ => return false, fun _ => return ()⟩
  { base with
    choice := defaultChoice expr value
    condition := defaultCondition expr.line base.source }

/-- The code of an instruction that puts one value into a register. -/
def loading (line : Int) (i : Nat → Instr) (reg : Nat) (g : Goal) : Build ν Nat := do
  emit line (i (g.target reg))
  return g.after reg

def literalValue (N : Numerals ν) (line : Int) (v : Value ν) (reg : Nat) (g : Goal) :
    Build ν Nat := do
  let k ← constant N v
  loading line (fun r => .loadConstant r k) reg g

/-- A number or a string counts as true. -/
def literal (N : Numerals ν) (expr : Expr) (v : Value ν) : Emitter ν :=
  let value := literalValue N expr.line v
  let base := plain expr value
  { base with
    choice := fun p => do
      if p.thenLabel = p.labels.done then
        let _ ← value p.reg p.goal
      emitJump expr.line p.thenLabel
      return false
    condition := fun p => if p.hasNext then base.condition p else return () }

/-- The code of a truth value. -/
def bool (expr : Expr) (b : Bool) : Emitter ν :=
  let base := plain expr (loading expr.line fun r => .loadBool r b false)
  { base with
    choice := fun p => do
      let label := if b then p.thenLabel else p.elseLabel
      if label = p.labels.done then
        emitJump expr.line (if b then p.labels.yes else p.labels.no)
        return true
      else
        emitJump expr.line label
        return false
    condition := fun p =>
      if p.hasNext then base.condition p
      else if b then return ()
      else emitJump expr.line p.elseLabel }

/-- The code of `nil`. -/
def nil (expr : Expr) : Emitter ν :=
  let value := fun (reg : Nat) (g : Goal) => do
    emitNil expr.line (g.target reg) (g.target reg)
    return g.after reg
  let base := plain expr value
  { base with
    choice := fun p => do
      if p.elseLabel = p.labels.done then
        let _ ← value p.reg p.goal
      emitJump expr.line p.elseLabel
      return false
    condition := fun p =>
      if p.hasNext then base.condition p else emitJump expr.line p.elseLabel }

/-- The code of a name. -/
def name (N : Numerals ν) (expr : Expr) (x : Text) : Emitter ν :=
  plain expr fun reg g => do
    match ← meaning x with
    | .register r => loading expr.line (fun a => .move a r) reg g
    | .upvalue =>
      let u ← upvalue x
      loading expr.line (fun a => .getUpvalue a u) reg g
    | .global =>
      let k ← global N x
      loading expr.line (fun a => .getGlobal a k) reg g

/-- The code of an ellipsis. -/
def varargs (expr : Expr) : Emitter ν :=
  plain expr fun reg g => do
    if !(← draft).isOpen then fail expr.line .strayEllipsis
    update fun d => { d with listsArgs := false }
    let target := g.target reg
    emit expr.line (.varargs target g.count)
    match g.count with
    | none => return reg
    | some n => return if target + 1 + n < (← draft).top then reg else target + n

/-- The code of a subscript. -/
def index (expr : Expr) (object key : Emitter ν) : Emitter ν :=
  plain expr fun reg g => do
    let (o, reg') ← object.source reg
    let (k, _) ← key.operand reg'
    loading expr.line (fun a => .getIndex a o k) reg g

/-- A constant as an operand: one that cannot be referred to is loaded. -/
def constantOperand (N : Numerals ν) (line : Int) (v : Value ν) (reg : Nat) :
    Build ν (Operand × Nat) := do
  let k ← constant N v
  if k < directConstants then return (.constant k, reg)
  else
    emit line (.loadConstant reg k)
    return (.register reg, reg + 1)

/-- The code of arguments, which says whether their number is open. -/
def arguments (reg : Nat) : List (Emitter ν) → Build ν Bool
  | [] => return false
  | [e] => do
    if e.expr.isMultiple then
      let _ ← e.value reg .all
      return true
    else
      let _ ← e.value reg .one
      return false
  | e :: es => do
    let reg ← e.value reg .one
    arguments reg es

/-- The code of a call. The function is put into the register that is given to `callee`, which
gives the first free register after it and the number of arguments that it brings. A call for the
last parameter of the function around it uses the parameter's register. -/
def callValue (expr : Expr) (callee : Nat → Build ν (Nat × Nat)) (args : List (Emitter ν))
    (reg : Nat) (g : Goal) : Build ν Nat := do
  let params := (← draft).params
  let f := match g.register? with
    | some r => if r + 1 = params then r else reg
    | none => reg
  let (next, implied) ← callee f
  let isOpen ← arguments next args
  let count := if isOpen then none else some (implied + args.length)
  emit expr.line (.call f count g.count expr.calledName)
  match g.register?, g.count with
  | some r, some 1 =>
    if r != f then
      emit expr.line (.move r f)
      return reg + 1
  | _, _ => pure ()
  match g.count with
  | none => return reg
  | some n => return if f + 1 + n < (← draft).top then reg else reg + n

def call (expr : Expr) (f : Emitter ν) (args : List (Emitter ν)) : Emitter ν :=
  plain expr (callValue expr (fun reg => return (← f.value reg .one, 0)) args)

/-- The code of a call of an object's method. -/
def method (N : Numerals ν) (expr : Expr) (object : Emitter ν) (x : Text)
    (args : List (Emitter ν)) : Emitter ν :=
  let callee := fun (f : Nat) => do
    let (o, reg) ← object.source f
    let (k, _) ← constantOperand N expr.line (.string x) reg
    emit expr.line (.getMethod f o k)
    return (max (o + 1) (f + 2), 1)
  plain expr (callValue expr callee args)

/-- A field of a table: an item, or a key with its value. -/
structure FieldEmitter (ν : Type) where
  key? : Option (Emitter ν)
  value : Emitter ν

/-- The code of the fields of a table. Items are collected in the registers from `base` on and
stored together, whenever their number is a multiple of the size of a batch, and at the end. -/
def fields (line : Int) (table base reg items : Nat) : List (FieldEmitter ν) → Build ν Unit
  | [] => return ()
  | f :: fs => do
    let manyLast := fs.isEmpty && f.value.expr.isMultiple
    let (reg, items) ← match f.key? with
      | some key => do
        let (k, reg') ← key.operand reg
        let (v, _) ← f.value.operand reg'
        emit line (.setIndex table k v)
        pure (reg, items)
      | none =>
        if manyLast then do
          pure (← f.value.value reg .all, items)
        else do
          pure (← f.value.value reg .one, items + 1)
    let part := items % batchSize
    if (items != 0 && (part = 0 || fs.isEmpty)) || (manyLast && f.key?.isNone) then
      let count := if part = 0 then batchSize else part
      emit line (.setItems table (if manyLast then none else some count) ((items - 1) / batchSize))
      fields line table base base items fs
    else fields line table base reg items fs

/-- The code of a table. -/
def table (expr : Expr) (fs : List (FieldEmitter ν)) : Emitter ν :=
  plain expr fun reg g => do
    emit expr.line (.newTable reg)
    fields expr.line reg (reg + 1) (reg + 1) 0 fs
    match g.register? with
    | some r => if r != reg then emit expr.line (.move r reg)
    | none => pure ()
    return reg + 1

/-- The number of an expression that is made of number literals. -/
def folded? (N : Numerals ν) : Expr → Option ν
  | .constant _ (.number s) => some (N.literal s)
  | .binary _ (.arith op) l r =>
    match folded? N l, folded? N r with
    | some x, some y => some (N.arith op x y)
    | _, _ => none
  | .unary _ .neg e => (folded? N e).map N.neg
  | _ => none

/-- The code of an arithmetic operation. -/
def arith (N : Numerals ν) (expr : Expr) (op : Arithmetic) (l r : Emitter ν) : Emitter ν :=
  plain expr fun reg g => do
    match folded? N expr with
    | some x => literalValue N expr.line (.number x) reg g
    | none =>
      let (b, reg') ← l.operand reg
      let (c, _) ← r.operand reg'
      loading expr.line (fun a => .arith op a b c) reg g

/-- The code of an operation with one operand. -/
def unaryValue (expr : Expr) (op : UnaryOp) (e : Emitter ν) (reg : Nat) (g : Goal) :
    Build ν Nat := do
  let (b, _) ← e.source reg
  loading expr.line (fun a => .unary op a b) reg g

/-- The code of a negative number. -/
def negation (N : Numerals ν) (expr : Expr) (e : Emitter ν) : Emitter ν :=
  plain expr fun reg g => do
    match folded? N expr with
    | some x => literalValue N expr.line (.number x) reg g
    | none => unaryValue expr .neg e reg g

def length (expr : Expr) (e : Emitter ν) : Emitter ν :=
  plain expr (unaryValue expr .length e)

/-- The code of `not`. As a condition it swaps the ways to go. -/
def inversion (expr : Expr) (e : Emitter ν) : Emitter ν :=
  let base := plain expr fun reg g => do
    match e.expr with
    | .constant _ (.bool b) => loading expr.line (fun a => .loadBool a (!b) false) reg g
    | .constant _ .nil => loading expr.line (fun a => .loadBool a true false) reg g
    | _ => unaryValue expr .not e reg g
  { base with
    condition := fun p => e.condition ⟨p.reg, p.elseLabel, p.thenLabel, !p.hasNext⟩ }

/-- The number of times that texts are joined at the right edge of an expression. -/
def joins : Expr → Nat
  | .binary _ .concat _ r => joins r + 1
  | _ => 0

def popJoins : Nat → Build ν Unit
  | 0 => return ()
  | n + 1 => do
    match ← lastInstr with
    | some (.concat ..) =>
      pop
      popJoins n
    | _ => return ()

/-- The code of a chain of joined texts: all parts are evaluated in order and then joined at
once. -/
def concat (expr : Expr) (l r : Emitter ν) : Emitter ν :=
  plain expr fun reg g => do
    let reg' ← l.value reg .one
    let _ ← r.value reg' .one
    popJoins (joins r.expr)
    loading expr.line (fun a => .concat a reg (reg + joins expr)) reg g

/-- The comparisons that the code has: others are put down to them. -/
structure ComparisonForm where
  comparison : Comparison
  swapped : Bool
  negated : Bool

/-- The comparison that an operator stands for. -/
def comparison? : BinaryOp → Option ComparisonForm
  | .eq => some ⟨.eq, false, false⟩
  | .ne => some ⟨.eq, false, true⟩
  | .lt => some ⟨.lt, false, false⟩
  | .gt => some ⟨.lt, true, false⟩
  | .le => some ⟨.le, false, false⟩
  | .ge => some ⟨.le, true, false⟩
  | _ => none

/-- The code of a comparison that goes to a label: if it fails, or with `whenTrue` if it holds. -/
def compareAndJump (line : Int) (form : ComparisonForm) (l r : Emitter ν) (reg : Nat)
    (whenTrue : Bool) (label : Nat) : Build ν Unit := do
  let (b, reg') ← l.operand reg
  let (c, _) ← r.operand reg'
  let expected := form.negated == whenTrue
  if form.swapped then emit line (.compare form.comparison expected c b)
  else emit line (.compare form.comparison expected b c)
  emitJump line label

/-- The code of a comparison. -/
def relation (expr : Expr) (form : ComparisonForm) (l r : Emitter ν) : Emitter ν :=
  let base := plain expr fun reg g => do
    let yes ← newLabel
    compareAndJump expr.line form l r reg true yes
    emit expr.line (.loadBool (g.target reg) false true)
    setLabel yes
    loading expr.line (fun a => .loadBool a true false) reg g
  { base with
    choice := fun p => do
      let (whenTrue, label, decides) :=
        if p.thenLabel = p.elseLabel then (!p.hasNext, p.labels.yes, true)
        else if p.thenLabel = p.labels.done then (p.hasNext, p.labels.yes, true)
        else if p.elseLabel = p.labels.done then (p.hasNext, p.labels.no, true)
        else (p.hasNext, if p.hasNext then p.thenLabel else p.elseLabel, false)
      compareAndJump expr.line form l r p.reg whenTrue label
      return decides
    condition := fun p =>
      compareAndJump expr.line form l r p.reg p.hasNext
        (if p.hasNext then p.thenLabel else p.elseLabel) }

/-- The code of the left part of a conjunction or disjunction, and of the right part after it. -/
def choiceParts (isAnd : Bool) (l r : Emitter ν) (p : ChoicePlace) : Build ν Bool := do
  let next ← newLabel
  let a ← if isAnd then l.choice { p with thenLabel := next, hasNext := false }
    else l.choice { p with elseLabel := next, hasNext := true }
  setLabel next
  let b ← r.choice p
  return a || b

/-- The code of a conjunction or disjunction. -/
def choiceValue (expr : Expr) (isAnd : Bool) (l r : Emitter ν) (reg : Nat) (g : Goal) :
    Build ν Nat := do
  let done ← newLabel
  let yes ← newLabel
  let no ← newLabel
  let decides ← choiceParts isAnd l r ⟨reg, g, done, done, false, yes, no, done⟩
  if decides then
    setLabel no
    emit expr.line (.loadBool (g.target reg) false true)
    setLabel yes
    emit expr.line (.loadBool (g.target reg) true false)
  match ← lastInstr with
  | some (.jump target) => if target = done then pop
  | _ => pure ()
  setLabel done
  return g.after reg

/-- The code of the left part of a condition, and of the right part after it. -/
def conditionParts (isAnd : Bool) (l r : Emitter ν) (p : ConditionPlace) : Build ν Unit := do
  let next ← newLabel
  if isAnd then l.condition ⟨p.reg, next, p.elseLabel, false⟩
  else l.condition ⟨p.reg, p.thenLabel, next, true⟩
  setLabel next
  r.condition p

/-- The emitter of a conjunction or disjunction. -/
def logical (expr : Expr) (isAnd : Bool) (l r : Emitter ν) : Emitter ν where
  expr
  value := choiceValue expr isAnd l r
  choice := choiceParts isAnd l r
  condition := conditionParts isAnd l r

/-- The emitter of an operation with two operands. -/
def binary (N : Numerals ν) (expr : Expr) (op : BinaryOp) (l r : Emitter ν) : Emitter ν :=
  match op, comparison? op with
  | _, some form => relation expr form l r
  | .and, _ => logical expr true l r
  | .or, _ => logical expr false l r
  | .arith op, _ => arith N expr op l r
  | _, none => concat expr l r

/-- The emitter of an operation with one operand. -/
def unary (N : Numerals ν) (expr : Expr) (op : UnaryOp) (e : Emitter ν) : Emitter ν :=
  match op with
  | .neg => negation N expr e
  | .not => inversion expr e
  | .length => length expr e

/-- Instructions that take the variables of a new function along. -/
def captures (line : Int) : List Text → Build ν Unit
  | [] => return ()
  | x :: xs => do
    match (← draft).find? x with
    | some r =>
      update fun d => { d with blocks := Draft.capture x d.blocks }
      emit line (.captureLocal r)
    | none => emit line (.captureUpvalue (← upvalue x))
    captures line xs

/-- The parameters of a function become its first variables. In a function inside of another one,
further arguments are at hand as a table named `arg`. -/
def parameters (params : List Text) (isOpen : Bool) (isInner : Bool) : Build ν Unit := do
  let line := (← draft).line
  if registerLimit < params.length then fail line .tooManyParameters
  update fun d => { d with params := params.length, isOpen, listsArgs := isOpen }
  declareAll params
  if isOpen && isInner then declare (utf8 "arg")

/-- Ends a function: it returns nothing, and no `goto` may be left over. -/
def finish : Build ν (Prototype ν) := do
  let d ← draft
  emit d.last (.return 0 (some 0))
  match d.blocks.flatMap Block.gotos with
  | g :: _ => fail d.last (.noLabel g.name g.line)
  | [] =>
    match (← draft).finish? with
    | .ok p => return p
    | .error e => throw e

/-- Makes a function inside of the function that code is made for: gives its number, and the names
of the variables that it takes along. -/
def innerFunction (line last : Int) (params : List Text) (isOpen : Bool) (body : Build ν Unit) :
    Build ν (Nat × List Text) := do
  modify fun s => { s with current := .empty line last, outer := s.current :: s.outer }
  parameters params isOpen true
  body
  let p ← finish
  let number := (← get).prototypes.size
  let names := (← draft).upvalues.toList
  modify fun s => match s.outer with
    | d :: outer => { s with current := d, outer, prototypes := s.prototypes.push p }
    | [] => s
  return (number, names)

/-- The code of a function. -/
def function (expr : Expr) (params : List Text) (isOpen : Bool) (last : Int)
    (body : Build ν Unit) : Emitter ν :=
  plain expr fun reg g => do
    let (number, names) ← innerFunction expr.line last params isOpen body
    emit expr.line (.closure (g.target reg) number)
    captures expr.line names
    return g.after reg

end Emitter

end Chunk

end Lunify
