import Lunify.Chunk.Code.Basic
import Lunify.Chunk.Machine.Registers

namespace Lunify

namespace Chunk

/-! ### The state of a run

A run keeps its tables, functions and global variables in a state, and a frame for each call that
is under way. A variable that a function has taken along is a cell: it lies in a register as long as
its block is running, and has a place of its own afterwards. -/

/-- What a call runs: code with the cells that it has taken along, or a native function. -/
inductive Body (ν : Type) where
  | code (p : Prototype ν) (cells : Array Nat)
  | native (f : Native)

/-- A call that is under way. -/
structure Frame (ν : Type) where
  body : Body ν
  /-- The number of the next instruction while another call runs. -/
  pc : Nat
  /-- The register of the function that is called. -/
  base : Nat
  /-- The first register of the function itself. -/
  first : Nat
  /-- The register for the first result. -/
  returnTo : Nat
  args : Nat
  wanted : Option Nat
  /-- The number of calls that have ended in the next one here. -/
  tailCalls : Nat

def Frame.isCode {ν : Type} (f : Frame ν) : Bool :=
  match f.body with
  | .code .. => true
  | .native _ => false

/-- A variable that functions have taken along. -/
inductive Cell (ν : Type) where
  | lying (r : Nat)
  | closed (v : Value ν)
deriving Inhabited

/-- The tables with more about all values of a type. -/
structure TypeTables where
  bool : Option Nat
  number : Option Nat
  string : Option Nat
  function : Option Nat

/-- A function with the variables around it. -/
structure Closure (ν : Type) where
  prototype : Prototype ν
  cells : Array Nat
deriving Inhabited

/-- The state of a run. -/
structure Machine (ν : Type) where
  prototypes : Array (Prototype ν)
  registers : Registers ν
  /-- The call that is running. -/
  frame : Frame ν
  /-- The number of the next instruction. -/
  pc : Nat
  /-- The calls around it, the innermost first. -/
  callers : List (Frame ν)
  /-- The number of calls that are under way. -/
  depth : Nat
  tables : Array (Table ν)
  closures : Array (Closure ν)
  cells : Array (Cell ν)
  /-- The registers that are cells, in order, each with the number of its cell. -/
  lying : List (Nat × Nat)
  globals : Array (Value ν)
  typeTables : TypeTables
  /-- The printed texts, the last one first. -/
  printed : List Text
  /-- The number of instructions that may still be run. -/
  budget : Nat

/-- Why a run stops early. -/
inductive Stop (ν : Type) where
  | error (value : Value ν)
  /-- Something was to be found out about a register without a value. -/
  | fault
  | outOfBudget
deriving Repr

abbrev Run (ν : Type) := EStateM (Stop ν) (Machine ν)

/-- The number of calls that can be under way at a time, the whole chunk included. -/
def callLimit : Nat := 256

variable {ν : Type}

namespace Run

/-! ### Errors -/

/-- The calls that are under way, the innermost first, each with its next instruction. -/
def frames (m : Machine ν) : List (Frame ν) :=
  { m.frame with pc := m.pc } :: m.callers

/-- Goes outwards by a number of calls. A call that has ended in others counts for them, too. -/
def outwards : List (Frame ν) → Int → List (Frame ν) × Int
  | [], level => ([], level)
  | f :: fs, level =>
    if 0 < level then outwards fs (level - 1 - (if f.isCode then f.tailCalls else 0))
    else (f :: fs, level)

/-- The call at a level, counted from the innermost one. Going past calls that have ended in others
leads to the outermost one. -/
def callAt (fs : List (Frame ν)) (level : Int) : Option (Frame ν) :=
  match outwards fs level with
  | (f :: _, 0) => some f
  | (_, l) => if l < 0 then fs.getLast? else none

def location (line : Int) : Text :=
  utf8 "<string>:" ++ Text.ofInt line ++ utf8 ":"

/-- The place of the first call with code from a level on. -/
def placeFrom (fs : List (Frame ν)) : Nat → Int → Text
  | 0, _ => []
  | fuel + 1, level =>
    match callAt fs level with
    | none => []
    | some f =>
      match f.body with
      | .code p _ => location ((p.code[f.pc - 1]?.map Prod.fst).getD 0)
      | .native _ => placeFrom fs fuel (level + 1)

def placed (m : Machine ν) (level : Int) (message : Text) : Text :=
  placeFrom (frames m) (m.depth + 1) level ++ utf8 " " ++ message

def raise {α : Type} (message : Text) : Run ν α := do
  throw (.error (.string (placed (← get) 0 message)))

def inspect (vs : List (Value ν)) : Run ν Unit :=
  if vs.any Value.isVoid then throw .fault else return ()

def pay (units : Nat) : Run ν Unit := do
  if (← get).budget < units then throw .outOfBudget
  modify fun m => { m with budget := m.budget - units }

/-! ### Registers and variables -/

def absolute (m : Machine ν) (r : Nat) : Nat :=
  m.frame.first + r

def register (r : Nat) : Run ν (Value ν) := do
  let m ← get
  return m.registers.get (absolute m r)

def setRegister (r : Nat) (v : Value ν) : Run ν Unit :=
  modify fun m =>
    let i := absolute m r
    { m with registers := m.registers.set i v }

def withRegisters (f : Registers ν → Registers ν) : Run ν Unit :=
  modify fun m => { m with registers := f m.registers }

def reserve (n : Nat) : Run ν Unit :=
  if registerRoom < n then raise (utf8 "registry overflow") else return ()

/-- The value of an operand. -/
def operand (o : Operand) : Run ν (Value ν) := do
  match o with
  | .register r => register r
  | .constant k =>
    match (← get).frame.body with
    | .code p _ => return p.constants[k]?.getD .nil
    | .native _ => return .nil

/-- The number of the cell that the running function has taken along under a number. -/
def cellOf (u : Nat) : Run ν Nat := do
  match (← get).frame.body with
  | .code _ cells => return cells[u]?.getD 0
  | .native _ => return 0

def cellValue (c : Nat) : Run ν (Value ν) := do
  let m ← get
  match m.cells[c]? with
  | some (.lying r) => return m.registers.get r
  | some (.closed v) => return v
  | none => return .nil

/-- Sets the value of a cell. -/
def setCell (c : Nat) (v : Value ν) : Run ν Unit := do
  match (← get).cells[c]? with
  | some (.lying r) => withRegisters fun rs => rs.set r v
  | _ => modify fun m => { m with cells := m.cells.setIfInBounds c (.closed v) }

/-- Puts a register that is a cell into a list in order. -/
def insertLying (r c : Nat) : List (Nat × Nat) → List (Nat × Nat)
  | [] => [(r, c)]
  | (s, d) :: rest => if r < s then (r, c) :: (s, d) :: rest else (s, d) :: insertLying r c rest

/-- The cell of a register, which is made if there is none. -/
def cellAt (r : Nat) : Run ν Nat := do
  match (← get).lying.lookup r with
  | some c => return c
  | none =>
    modifyGet fun m => (m.cells.size, { m with
      cells := m.cells.push (.lying r)
      lying := insertLying r m.cells.size m.lying })

/-- Gives the cells from a register on a place of their own. -/
def closeFrom (r : Nat) : Run ν Unit :=
  modify fun m =>
    if m.lying.isEmpty then m
    else
      let (kept, closed) := m.lying.partition fun (s, _) => s < r
      { m with
        lying := kept
        cells := closed.foldl (fun cells (s, c) =>
          cells.setIfInBounds c (.closed (m.registers.get s))) m.cells }

def newTable (t : Table ν) : Run ν Nat :=
  modifyGet fun m => (m.tables.size, { m with tables := m.tables.push t })

def newClosure (c : Closure ν) : Run ν Nat :=
  modifyGet fun m => (m.closures.size, { m with closures := m.closures.push c })

def table (ref : Nat) : Run ν (Table ν) := do
  return (← get).tables[ref]?.getD .empty

def updateTable (ref : Nat) (f : Table ν → Table ν) : Run ν Unit :=
  modify fun m => { m with tables := m.tables.modify ref f }

/-! ### Calls -/

def bodyOf? (m : Machine ν) : Value ν → Option (Body ν)
  | .function ref => m.closures[ref]?.map fun c => .code c.prototype c.cells
  | .native f => some (.native f)
  | _ => none

/-- The table of the arguments beyond the parameters. -/
def argumentTable (N : Numerals ν) (vs : List (Value ν)) : Table ν :=
  let items := vs.zipIdx.foldl (fun t item => t.setItem (item.2 + 1) item.1) (Table.empty : Table ν)
  items.set N (.string (utf8 "n")) (.number (N.ofInt vs.length))

/-- Prepares the registers of a function with code whose arguments lie from `first` on, and gives
the first register of the function itself. Arguments beyond the parameters stay below it. -/
def prepare (N : Numerals ν) (p : Prototype ν) (first args : Nat) : Run ν Nat := do
  let given := max args p.params
  if p.isOpen then
    reserve (first + given + max (p.params + 1) p.registers)
    withRegisters fun r =>
      let r := if args < p.params then
          { Registers.fill .nil (first + args) (p.params - args) r with top := first + p.params }
        else r
      let r := r.setTop (first + given + p.params)
      let r := Registers.copyFrom r.top first (first + given) p.params r
      let r := Registers.fill .nil first p.params r
      r.setTop (first + given + p.params + 1)
    if p.listsArgs then
      let further := (← get).registers.row (first + p.params) (given - p.params)
      let ref ← newTable (argumentTable N further)
      withRegisters fun r => r.put (first + given + p.params) (.table ref)
    else withRegisters fun r => r.put (first + given + p.params) .nil
    withRegisters fun r => r.setTop (first + given + p.registers)
    return first + given
  else
    let used := max given p.registers
    reserve (first + used)
    withRegisters fun r =>
      let start := min args p.params
      { Registers.fill .nil (first + start) (used - start) r with top := first + p.registers }
    return first

/-- Goes into a call. The call of the whole chunk has no call around it. -/
def enter (N : Numerals ν) (frame : Frame ν) : Run ν Unit := do
  if callLimit ≤ (← get).depth then raise (utf8 "stack overflow")
  let first ← match frame.body with
    | .code p _ => prepare N p frame.first frame.args
    | .native _ => do
      reserve (frame.first + frame.args)
      withRegisters fun r => r.setTop (frame.first + frame.args)
      pure frame.first
  modify fun m => { m with
    callers := if m.depth = 0 then [] else { m.frame with pc := m.pc } :: m.callers
    frame := { frame with first }
    pc := 0
    depth := m.depth + 1 }

/-- Goes back to the call around. -/
def leave : Run ν Unit :=
  modify fun m => match m.callers with
    | f :: callers => { m with frame := f, pc := f.pc, callers, depth := m.depth - 1 }
    | [] => { m with depth := m.depth - 1 }

/-- Takes the next instruction. -/
def next : Run ν Instr :=
  modifyGet fun m =>
    let i := match m.frame.body with
      | .code p _ => (p.code[m.pc]?.map Prod.snd).getD (.return 0 (some 0))
      | .native _ => .return 0 (some 0)
    (i, { m with pc := m.pc + 1 })

def jump (distance : Int) : Run ν Unit :=
  modify fun m => { m with pc := (m.pc + distance).toNat }

def skip : Run ν Unit :=
  modify fun m => { m with pc := m.pc + 1 }

end Run

end Chunk

end Lunify
