import Lunify.Chunk.Code.Emitter

namespace Lunify

namespace Chunk

/-! ### Code of statements

The code of a statement is made from the emitters of its expressions and the code of its blocks. -/

variable {ν : Type}

namespace Statement

open Build

/-- What can be assigned to. -/
inductive Target (ν : Type) where
  | name (line : Int) (x : Text)
  | index (line : Int) (object key : Emitter ν)

def Target.line : Target ν → Int
  | .name l _ | .index l _ _ => l

/-- Where the value of a target goes. -/
inductive Slot where
  | register (r : Nat)
  | global (g : Nat)
  | upvalue (u : Nat)
  | key (object key : Nat)

/-- A slot and how its value gets there: from a register of its own if `moves` says so, and to a
key from an operand. -/
structure Assigned where
  line : Int
  slot : Slot
  moves : Bool
  value : Operand

/-- The goal of the value for a slot: a local variable receives its value directly. -/
def Slot.goal : Slot → Goal
  | .register r => .into r
  | _ => .one

/-- The code of the targets of an assignment: the slots, and the first free register after them. An
object that is a variable is read only when the value is stored. -/
def targets (N : Numerals ν) (reg : Nat) : List (Target ν) → Build ν (Nat × List (Int × Slot))
  | [] => return (reg, [])
  | .name line x :: ts => do
    let slot ← match ← meaning x with
      | .register r => pure (Slot.register r)
      | .upvalue => Slot.upvalue <$> upvalue x
      | .global => Slot.global <$> global N x
    let (reg, rest) ← targets N reg ts
    return (reg, (line, slot) :: rest)
  | .index line object key :: ts => do
    let (o, k) ← object.operand reg
    let reg ← key.value k .one
    let (reg, rest) ← targets N reg ts
    return (reg, (line, .key o.index k) :: rest)

/-- The code of expressions whose values nothing is done with. -/
def unused (reg : Nat) : List (Emitter ν) → Build ν Unit
  | [] => return ()
  | e :: es => do
    let reg ← e.value reg (.unused es.isEmpty)
    unused reg es

/-- The slots that take the values of one call or ellipsis from registers in a row. -/
def inRow (count reg : Nat) : List (Int × Slot) → List Assigned
  | [] => []
  | (line, slot) :: slots =>
    ⟨line, slot, count != 0, .register reg⟩ :: inRow (count - 1) (reg + 1) slots

/-- The code of the value for a slot. -/
def assignedValue (reg : Nat) (line : Int) (slot : Slot) (e : Emitter ν) :
    Build ν (Nat × Assigned) := do
  let next ← e.value reg slot.goal
  match slot with
  | .key .. =>
    let (value, reg) ← e.takeOperand reg next
    return (reg, ⟨line, slot, true, value⟩)
  | _ => return (next, ⟨line, slot, next != reg, .register reg⟩)

/-- The code of the values of an assignment: the first free register after those that are stored,
and how each slot gets its value. Slots without a value get `nil`, values without a slot are
evaluated only. -/
def values (reg : Nat) : List (Int × Slot) → List (Emitter ν) → Build ν (Nat × List Assigned)
  | [], es => do
    unused reg es
    return (reg, [])
  | (line, slot) :: slots, [] => do
    let (reg, a) ← assignedValue reg line slot (.nil (.constant line .nil))
    let (reg, rest) ← values reg slots []
    return (reg, a :: rest)
  | (line, slot) :: slots, e :: es => do
    if e.expr.isMultiple && es.isEmpty then
      let next ← e.value reg ⟨none, some (slots.length + 1)⟩
      return (next, inRow (next - reg) reg ((line, slot) :: slots))
    else
      let (reg, a) ← assignedValue reg line slot e
      let (reg, rest) ← values reg slots es
      return (reg, a :: rest)

/-- The code that stores values, from the last slot to the first one. Values that lie in registers
of their own are taken from `reg` downwards. -/
def stores (reg : Nat) : List Assigned → Build ν Unit
  | [] => return ()
  | a :: rest => do
    match a.slot with
    | .register r =>
      if a.moves then
        emit a.line (.move r reg)
        stores (reg - 1) rest
      else stores reg rest
    | .global g =>
      emit a.line (.setGlobal g reg)
      stores (reg - 1) rest
    | .upvalue u =>
      emit a.line (.setUpvalue u reg)
      stores (reg - 1) rest
    | .key object key =>
      emit a.line (.setIndex object (.register key) a.value)
      stores (if a.value.isConstant then reg else reg - 1) rest

/-- The code of an assignment. -/
def assign (N : Numerals ν) (ts : List (Target ν)) (es : List (Emitter ν)) : Build ν Unit := do
  let (reg, slots) ← targets N (← draft).top ts
  let (reg, assigned) ← values reg slots es
  stores (reg - 1) assigned.reverse

/-- The code that fills registers from `reg` on: `names` are wanted, of which the last call or
ellipsis gives as many as are missing up to `room`. -/
def fill (line : Int) (room : Nat) (reg names : Nat) : List (Emitter ν) → Build ν Unit
  | [] => if names != 0 then emitNil line reg (reg + (names - 1)) else return ()
  | e :: es => do
    match names with
    | 0 => unused reg (e :: es)
    | names' + 1 =>
      if e.expr.isMultiple && es.isEmpty then
        let _ ← e.value reg ⟨none, some room⟩
      else
        let _ ← e.value reg (.into reg)
        fill line (room - 1) (reg + 1) names' es

/-- The code of a declaration. -/
def declaration (line : Int) (names : List Text) (es : List (Emitter ν)) : Build ν Unit := do
  let top := (← draft).top
  let isFunction := match names, es with
    | [_], [e] => e.expr.isFunction
    | _, _ => false
  if isFunction then
    declareAll names
    fill line names.length top names.length es
  else
    fill line names.length top names.length es
    declareAll names

/-- The code of the definition of a method. -/
def defineMethod (N : Numerals ν) (object : Emitter ν) (x : Text) (f : Emitter ν) :
    Build ν Unit := do
  let (o, reg) ← object.operand (← draft).top
  let (k, reg) ← Emitter.constantOperand N f.line (.string x) reg
  let _ ← f.value reg .one
  emit object.line (.setIndex o.index k (.register reg))

def call (e : Emitter ν) : Build ν Unit := do
  let _ ← e.value (← draft).top .nothing

def block (line : Int) (body : Build ν Unit) : Build ν Unit := do
  enter none
  body
  let _ ← leave line

/-- The code of a loop with a condition before its body. -/
def loop (line : Int) (cond : Emitter ν) (body : Build ν Unit) : Build ν Unit := do
  let inside ← newLabel
  let behind ← newLabel
  let start ← newLabel
  setLabel start
  cond.condition ⟨(← draft).top, inside, behind, false⟩
  setLabel inside
  enter (some behind)
  body
  let _ ← closeBlock line
  emitJump line start
  let _ ← leave line
  setLabel behind

/-- The code of a loop with a condition after its body. -/
def repeated (line : Int) (body : Build ν Unit) (cond : Emitter ν) : Build ν Unit := do
  let start ← newLabel
  let behind ← newLabel
  let again ← newLabel
  setLabel start
  setLabel again
  enter (some behind)
  body
  cond.condition ⟨(← draft).top, behind, again, false⟩
  setLabel behind
  match ← leave line with
  | some r =>
    let done ← newLabel
    emitJump line done
    setLabel again
    emit line (.close r)
    emitJump line start
    setLabel done
  | none => return ()

/-- The code of a branch; a side without statements is `none`. -/
def branch (line : Int) (cond : Emitter ν) (yes no : Option (Build ν Unit)) : Build ν Unit := do
  let inside ← newLabel
  let otherwise ← newLabel
  let behind ← newLabel
  cond.condition ⟨(← draft).top, inside, otherwise, false⟩
  setLabel inside
  match yes with
  | some body => block line body
  | none => pure ()
  match no with
  | some body =>
    emitJump line behind
    setLabel otherwise
    block line body
    setLabel behind
  | none => setLabel otherwise

def hidden (x : String) (e : Emitter ν) : Build ν Unit := do
  let reg := (← draft).top
  declare (utf8 x)
  let _ ← e.value reg (.into reg)

/-- The code of a loop over numbers. -/
def count (line : Int) (x : Text) (start limit step : Emitter ν) (body : Build ν Unit) :
    Build ν Unit := do
  let behind ← newLabel
  enter (some behind)
  let reg := (← draft).top
  hidden "(for index)" start
  hidden "(for limit)" limit
  hidden "(for step)" step
  let before := (← draft).code.size
  emit line (.prepareCount reg 0)
  declare x
  body
  let _ ← leave line
  let after := (← draft).code.size
  emit line (.count reg ((before : Int) - after))
  setLabel behind
  replace before (.prepareCount reg ((after : Int) - before - 1))

/-- The code of a loop over what an iterator gives. -/
def each (line : Int) (names : List Text) (iterator : List (Emitter ν)) (body : Build ν Unit) :
    Build ν Unit := do
  let behind ← newLabel
  let inside ← newLabel
  let next ← newLabel
  enter (some behind)
  let reg := (← draft).top
  declareAll [utf8 "(for generator)", utf8 "(for state)", utf8 "(for control)"]
  fill line 3 reg names.length iterator
  emitJump line next
  declareAll names
  setLabel inside
  body
  let _ ← leave line
  setLabel next
  emit line (.each reg names.length)
  emitJump line inside
  setLabel behind

/-- The code of returned values. -/
def returnedValues (reg : Nat) : List (Emitter ν) → Build ν (Option Nat)
  | [] => return some reg
  | e :: es => do
    if e.expr.isMultiple && es.isEmpty then
      let _ ← e.value reg .all
      return none
    else
      let reg ← e.value reg .one
      returnedValues reg es

/-- The code of `return`. A single variable is returned from where it lies, and a single call takes
the place of the call that returns it. -/
def returned (line : Int) (es : List (Emitter ν)) : Build ν Unit := do
  let top := (← draft).top
  match es with
  | [e] =>
    match e.expr with
    | .name _ x =>
      match (← draft).find? x with
      | some r => emit line (.return r (some 1))
      | none => values top es
    | .call _ single _ _ | .method _ single _ _ _ =>
      if single then
        let _ ← e.value top .one
      else
        let _ ← e.value top .all
        match ← lastInstr with
        | some (.call f args _ name) =>
          pop
          emit e.line (.tailCall f args name)
        | _ => pure ()
      emit line (.return top none)
    | _ => values top es
  | _ => values top es
where
  /-- The code of values that are put into registers in a row. -/
  values (top : Nat) (es : List (Emitter ν)) : Build ν Unit := do
    match ← returnedValues top es with
    | some reg => emit line (.return top (some (reg - top)))
    | none => emit line (.return top none)

/-- The code of `break`: the variables of the loop's own block are closed. -/
def breakLoop (line : Int) : Build ν Unit := do
  go (← draft).blocks
where
  /-- Looks for the innermost loop. -/
  go : List Block → Build ν Unit
    | [] => fail line .strayBreak
    | b :: bs => do
      match b.exit? with
      | some label =>
        if b.captured then emit line (.close ((bs.head?.map Block.next).getD 0))
        emitJump line label
      | none => go bs

/-- The code of a label. One at the end of its block lies outside of the scope of its
variables. -/
def label (line : Int) (x : Text) (isLast : Bool) : Build ν Unit := do
  let l ← newLabel
  setLabel l
  match (← draft).blocks with
  | b :: bs =>
    match b.labels.find? (·.name = x) with
    | some old => fail (line + 1) (.repeatedLabel x old.line)
    | none =>
      let visible := if isLast then (bs.head?.map Block.next).getD 0 else b.next
      let named : NamedLabel := ⟨x, l, line, visible⟩
      let (here, others) := b.gotos.partition (·.name = x)
      update fun d => { d with
        blocks := { b with labels := named :: b.labels, gotos := others } :: bs }
      resolveAll named here
  | [] => return ()
where
  /-- Lets several jumps go to a label. -/
  resolveAll (l : NamedLabel) : List PendingGoto → Build ν Unit
    | [] => return ()
    | g :: gs => do
      resolve g l
      resolveAll l gs

/-- The code of `goto`, with room for an instruction that closes variables. -/
def goto (line : Int) (x : Text) : Build ν Unit := do
  emit line .nothing
  let pc := (← draft).code.size
  emit line (.jump 0)
  match (← draft).blocks with
  | b :: bs =>
    let g : PendingGoto := ⟨x, pc, line, b.next⟩
    match b.labels.find? (·.name = x) with
    | some l =>
      if b.captured && l.visible < g.visible then replace (pc - 1) (.close l.visible)
      resolve g l
    | none => update fun d => { d with blocks := { b with gotos := b.gotos ++ [g] } :: bs }
  | [] => return ()

end Statement

end Chunk

end Lunify
