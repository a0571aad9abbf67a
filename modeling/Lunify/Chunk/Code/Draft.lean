import Lunify.Chunk.Code.Basic

namespace Lunify

namespace Chunk

/-! ### Functions in the making

Code is made function by function, from the outside in. A draft holds what is known of a function
so far: its instructions, its constants, the blocks that are open at the moment with their
variables, and the labels that its jumps refer to. A label stands for the place after the last
instruction when it was set. -/

/-- Why a chunk cannot be turned into code. -/
inductive CodeFault where
  | strayBreak
  | strayEllipsis
  | tooManyVariables
  | tooManyParameters
  | tooManyRegisters
  | noLabel (x : Text) (line : Int)
  | repeatedLabel (x : Text) (line : Int)
  | jumpIntoScope (x : Text) (line : Int) (scope : Text)
deriving DecidableEq, Repr

/-- The fault in words. -/
def CodeFault.message : CodeFault → Text
  | .strayBreak => utf8 "no loop to break"
  | .strayEllipsis => utf8 "cannot use '...' outside a vararg function"
  | .tooManyVariables => utf8 "too many local variables"
  | .tooManyParameters => utf8 "register overflow"
  | .tooManyRegisters => utf8 "register overflow(too many local variables)"
  | .noLabel x line => utf8 "no visible label '" ++ x ++ utf8 "' for goto at line " ++
      Text.ofInt line
  | .repeatedLabel x line => utf8 "label '" ++ x ++ utf8 "' already defined on line " ++
      Text.ofInt line
  | .jumpIntoScope x line v => utf8 "<goto " ++ x ++ utf8 "> at line " ++ Text.ofInt line ++
      utf8 " jumps into the scope of local '" ++ v ++ utf8 "'"

/-- A fault and the line that it is reported for. -/
structure CodeError where
  line : Int
  fault : CodeFault
deriving DecidableEq, Repr

/-- A label that `goto` can name, with the number of variables before it. -/
structure NamedLabel where
  name : Text
  label : Nat
  line : Int
  visible : Nat

/-- A `goto` whose label is not known yet: where its jump stands, and the number of variables that
are visible there. -/
structure PendingGoto where
  name : Text
  pc : Nat
  line : Int
  visible : Nat

/-- A block with its variables, the last one first. -/
structure Block where
  names : List Text
  /-- The register of the first variable. -/
  start : Nat
  /-- The label behind the loop whose body the block is. -/
  exit? : Option Nat
  /-- Whether a function has taken a variable of the block along. -/
  captured : Bool
  labels : List NamedLabel
  gotos : List PendingGoto

namespace Block

def empty (start : Nat) (exit? : Option Nat) : Block :=
  ⟨[], start, exit?, false, [], []⟩

def next (b : Block) : Nat :=
  b.start + b.names.length

/-- The register of a variable: of two variables with a name the later one counts. -/
def find? (x : Text) (b : Block) : Option Nat :=
  (b.names.findIdx? (· = x)).map fun i => b.start + (b.names.length - 1 - i)

end Block

/-- A function in the making. -/
structure Draft (ν : Type) where
  params : Nat
  isOpen : Bool
  listsArgs : Bool
  line : Int
  last : Int
  code : Array (Int × Instr)
  constants : Array (Value ν)
  upvalues : Array Text
  /-- The open blocks, the innermost first. -/
  blocks : List Block
  /-- The first register that no variable has. -/
  top : Nat
  /-- The last instruction before each label. Labels are numbered from one. -/
  labels : Array Int

/-- The functions in the making, from the innermost to the whole chunk, and what is finished. -/
structure Drafts (ν : Type) where
  current : Draft ν
  outer : List (Draft ν)
  prototypes : Array (Prototype ν)
  globals : Array Text

abbrev Build (ν : Type) := EStateM CodeError (Drafts ν)

def registerLimit : Nat := 200

/-- The number of constants that an instruction can refer to directly. -/
def directConstants : Nat := 256

variable {ν : Type}

namespace Draft

/-- A function of which nothing is known but its lines. -/
def empty (line last : Int) : Draft ν where
  params := 0
  isOpen := false
  listsArgs := false
  line
  last
  code := #[]
  constants := #[]
  upvalues := #[]
  blocks := [.empty 0 none]
  top := 0
  labels := #[0]

def find? (d : Draft ν) (x : Text) : Option Nat :=
  d.blocks.findSome? (Block.find? x)

def lastPc (d : Draft ν) : Int :=
  (d.code.size : Int) - 1

def capture (x : Text) : List Block → List Block
  | [] => []
  | b :: bs => if (b.find? x).isSome then { b with captured := true } :: bs else b :: capture x bs

def labelPc (labels : Array Int) (label : Int) : Int :=
  if label < 0 then 0 else labels[label.toNat]?.getD 0

end Draft

namespace Build

def draft : Build ν (Draft ν) := do
  return (← get).current

def update (f : Draft ν → Draft ν) : Build ν Unit :=
  modify fun s => { s with current := f s.current }

def fail {α : Type} (line : Int) (fault : CodeFault) : Build ν α :=
  throw ⟨line, fault⟩

def emit (line : Int) (i : Instr) : Build ν Unit :=
  update fun d => { d with code := d.code.push (line, i) }

def lastInstr : Build ν (Option Instr) := do
  return (← draft).code.back?.map Prod.snd

def pop : Build ν Unit :=
  update fun d => { d with code := d.code.pop }

def replace (pc : Nat) (i : Instr) : Build ν Unit :=
  update fun d => { d with code := d.code.modify pc fun (line, _) => (line, i) }

/-- Sets registers to `nil`. When the instruction before does so for the register before, it is
extended. -/
def emitNil (line : Int) (first last : Nat) : Build ν Unit := do
  match ← lastInstr with
  | some (.loadNil a b) =>
    if a + b = first then
      pop
      emit line (.loadNil a last)
    else emit line (.loadNil first last)
  | _ => emit line (.loadNil first last)

def newLabel : Build ν Nat := do
  let label := (← draft).labels.size
  update fun d => { d with labels := d.labels.push 0 }
  return label

def setLabel (label : Nat) : Build ν Unit :=
  update fun d => { d with labels := d.labels.setIfInBounds label d.lastPc }

def emitJump (line : Int) (label : Nat) : Build ν Unit :=
  emit line (.jump label)

/-- The number of a constant. Constants that are equal are one. -/
def constant (N : Numerals ν) (v : Value ν) : Build ν Nat := do
  let constants := (← draft).constants
  match constants.findIdx? (Value.eq N v) with
  | some k => return k
  | none =>
    update fun d => { d with constants := d.constants.push v }
    return constants.size

/-- The number of a global variable. Its name becomes a constant of the function. -/
def global (N : Numerals ν) (x : Text) : Build ν Nat := do
  let _ ← constant N (.string x)
  let globals := (← get).globals
  match globals.findIdx? (· = x) with
  | some g => return g
  | none =>
    modify fun s => { s with globals := s.globals.push x }
    return globals.size

/-- The number of a variable that is taken along from the functions around. -/
def upvalue (x : Text) : Build ν Nat := do
  let upvalues := (← draft).upvalues
  match upvalues.findIdx? (· = x) with
  | some u => return u
  | none =>
    update fun d => { d with upvalues := d.upvalues.push x }
    return upvalues.size

/-- Declares a variable, which gets the next register. -/
def declare (x : Text) : Build ν Unit := do
  update fun d => { d with
    blocks := match d.blocks with
      | b :: bs => { b with names := x :: b.names } :: bs
      | [] => []
    top := d.top + 1 }
  let d ← draft
  if registerLimit < d.top then fail d.line .tooManyVariables

def declareAll : List Text → Build ν Unit
  | [] => return ()
  | x :: xs => do
    declare x
    declareAll xs

/-- What a name stands for. -/
inductive Meaning where
  | register (r : Nat)
  | upvalue
  | global

/-- Looks a name up in the function and in the functions around it. -/
def meaning (x : Text) : Build ν Meaning := do
  let s ← get
  match s.current.find? x with
  | some r => return .register r
  | none => return if s.outer.any fun d => (d.find? x).isSome then .upvalue else .global

def enter (exit? : Option Nat) : Build ν Unit :=
  update fun d => { d with blocks := .empty d.top exit? :: d.blocks }

/-- Closes the variables of the innermost block if a function has taken one along, and gives the
first register that was closed. -/
def closeBlock (line : Int) : Build ν (Option Nat) := do
  match (← draft).blocks with
  | b :: outer :: _ =>
    if b.captured then
      emit line (.close outer.next)
      return some outer.next
    else return none
  | _ => return none

/-- Lets a `goto` jump to a label of the innermost block. -/
def resolve (g : PendingGoto) (l : NamedLabel) : Build ν Unit := do
  if g.visible < l.visible then
    let names := ((← draft).blocks.head?.map Block.names).getD []
    fail (l.line + 1) (.jumpIntoScope l.name g.line (names.headD []))
  replace g.pc (.jump l.label)

/-- Leaves each `goto` that has found no label in a block to the block around it. What the block
has to close is closed before the jump. -/
def passOn (captured : Bool) (visible : Nat) : List PendingGoto → Build ν Unit
  | [] => return ()
  | g :: gs => do
    if captured && visible < g.visible then replace (g.pc - 1) (.close visible)
    let g := { g with visible := min g.visible visible }
    match (← draft).blocks with
    | b :: bs =>
      match b.labels.find? (·.name = g.name) with
      | some l => resolve g l
      | none => update fun d => { d with blocks := { b with gotos := b.gotos ++ [g] } :: bs }
    | [] => return ()
    passOn captured visible gs

/-- Leaves the innermost block, and gives the first register that was closed. -/
def leave (line : Int) : Build ν (Option Nat) := do
  let closed ← closeBlock line
  match (← draft).blocks with
  | b :: outer :: bs =>
    update fun d => { d with blocks := outer :: bs, top := outer.next }
    passOn b.captured outer.next b.gotos
  | _ => pure ()
  return closed

end Build

end Chunk

end Lunify
