import Lunify.Chunk.Value

namespace Lunify

namespace Chunk

/-! ### Code

A function is run as a list of instructions over registers. Its parameters and local variables are
the first registers, and what an expression needs for a while lies above them. A count of arguments
or results that is `none` stands for as many as there are. -/

/-- What an instruction reads: a register, or a constant of the function. -/
inductive Operand where
  | register (r : Nat)
  | constant (k : Nat)
deriving DecidableEq, Repr

/-- The register of an operand that has to be one. The number of a constant counts as a register. -/
def Operand.index : Operand → Nat
  | .register r | .constant r => r

def Operand.isConstant : Operand → Bool
  | .register _ => false
  | .constant _ => true

/-- The comparisons of the code. -/
inductive Comparison where
  | eq
  | lt
  | le
deriving DecidableEq, Repr

/-- An instruction. The register that receives the result comes first. -/
inductive Instr where
  | move (dest source : Nat)
  | loadConstant (dest k : Nat)
  /-- Loads a truth value, and leaves out the next instruction when `skip` says so. -/
  | loadBool (dest : Nat) (b skip : Bool)
  /-- Sets all registers from one up to another to `nil`. -/
  | loadNil (first last : Nat)
  | getGlobal (dest g : Nat)
  | setGlobal (g source : Nat)
  | getUpvalue (dest u : Nat)
  | setUpvalue (u source : Nat)
  | newTable (dest : Nat)
  | getIndex (dest object : Nat) (key : Operand)
  | setIndex (object : Nat) (key value : Operand)
  /-- Sets the items of a table from the registers above it, from the start of a batch on. -/
  | setItems (table : Nat) (count : Option Nat) (batch : Nat)
  /-- Loads the value at a key and, into the next register, the object itself. -/
  | getMethod (dest object : Nat) (key : Operand)
  | arith (op : Arithmetic) (dest : Nat) (l r : Operand)
  | unary (op : UnaryOp) (dest operand : Nat)
  /-- Joins the values of all registers from one up to another. -/
  | concat (dest first last : Nat)
  /-- Leaves out the next instruction when the comparison has the expected result. -/
  | compare (c : Comparison) (expected : Bool) (l r : Operand)
  /-- Leaves out the next instruction when the truth of a register is the expected one. -/
  | test (r : Nat) (expected : Bool)
  /-- Leaves out the next instruction when the truth of a register is the expected one, and else
  copies the register. -/
  | testSet (dest r : Nat) (expected : Bool)
  /-- Goes to a label while code is made, and over a distance in the finished code. -/
  | jump (target : Int)
  | call (f : Nat) (args results : Option Nat) (name : Text)
  | tailCall (f : Nat) (args : Option Nat) (name : Text)
  | return (first : Nat) (count : Option Nat)
  | prepareCount (r : Nat) (distance : Int)
  | count (r : Nat) (distance : Int)
  /-- Calls the iterator of a loop, and leaves out the next instruction at its end. -/
  | each (r names : Nat)
  | closure (dest prototype : Nat)
  /-- The variables that a function made by the instruction before takes along. -/
  | captureLocal (r : Nat)
  | captureUpvalue (u : Nat)
  | varargs (dest : Nat) (count : Option Nat)
  /-- Gives the captured variables from a register on a place of their own. -/
  | close (r : Nat)
  | nothing
deriving DecidableEq, Repr

def batchSize : Nat := 50

/-- A function without the variables around it. -/
structure Prototype (ν : Type) where
  params : Nat
  /-- Whether the function takes more arguments than it has parameters. -/
  isOpen : Bool
  /-- Whether the further arguments are given as a table. -/
  listsArgs : Bool
  registers : Nat
  upvalues : Nat
  constants : Array (Value ν)
  /-- The instructions, each with its line. -/
  code : Array (Int × Instr)
deriving Inhabited

/-- A whole chunk as code: its functions, of which the last one is the chunk itself, and the names
of the global variables that it mentions. -/
structure Program (ν : Type) where
  prototypes : Array (Prototype ν)
  globals : Array Text

end Chunk

end Lunify
